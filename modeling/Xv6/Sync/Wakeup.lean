import Xv6.Sync.LifeCycle

/-!
# No wakeup is lost

A call of `sleep(chan, lk)` is watched from the point where it gives up `lk` to the point
where it has `lk` again.  The watch keeps which processes have taken `lk` since then, and
whether one of them has completed a `wakeup(chan)`.  A process so notified is not
`SLEEPING`.

`ptable.lock` can be `lk` itself.  It is given up when `sched` hands it to the scheduler,
and a process that the scheduler picks takes it.  `wakeup1` in `exit` is such a wakeup for
the `sleep` in `wait`.

The reason is that `sleep` holds `ptable.lock` from before it releases `lk` until it is
`SLEEPING`, and that `wakeup` runs with that lock held.
-/

namespace Xv6

open Function

variable {c lk : Nat} {p q : Slot} {chan : Chan}

/-- A call of `sleep` that has given up its lock, `none` for `ptable.lock`. -/
structure SleepCall where
  chan : Chan
  lock : Option Nat
  /-- The processes that have taken the lock since. -/
  later : Slot → Bool
  /-- Whether one of those has completed a `wakeup` of the channel. -/
  notified : Bool

/-- The process that takes a step. -/
def TEvent.actor : TEvent → Option Slot
  | .schedLock _ | .schedPick _ _ | .schedBack _ | .schedUnlock _ => none
  | .yieldLock _ p | .yieldSched _ p | .yieldReturn _ p | .forkret _ p | .acquire _ p _
  | .release _ p | .sleepLock _ p _ | .sleepRelease _ p | .sleepSched _ p | .sleepReturn _ p
  | .relock _ p | .wakeupLock _ p _ | .wakeupDone _ p | .tableLock _ p | .tableWakeup _ p _
  | .tableSleep _ p _ | .tableReturn _ p | .tableUnlock _ p | .kill _ p _ | .forkAlloc _ p
  | .forkFail _ p | .forkCopy _ p | .forkRun _ p | .exit _ p | .waitLock _ p | .waitReap _ p _
  | .waitFail _ p | .waitSleep _ p | .waitReturn _ p => some p

/-- The process that takes a lock in a step, and the lock. -/
def Ptable.takes (s : Ptable) : TEvent → Option (Slot × Option Nat)
  | .schedPick _ p | .yieldLock _ p | .sleepLock _ p _ | .wakeupLock _ p _ | .tableLock _ p
  | .kill _ p _ | .forkAlloc _ p | .forkRun _ p | .exit _ p | .waitLock _ p => some (p, none)
  | .acquire _ p lk => some (p, some lk)
  | .relock _ p =>
    match s.pc p with
    | .relocking lk => some (p, some lk)
    | _ => none
  | _ => none

/-- The channels on which a step completes a wakeup. -/
def Ptable.wakes (s : Ptable) : TEvent → List Chan
  | .wakeupDone _ p =>
    match s.pc p with
    | .waking chan _ => [chan]
    | _ => []
  | .tableWakeup _ _ chan => [chan]
  | .exit _ p => ((s.proc p).parent.map Chan.proc).toList ++
      if ∃ q, (s.proc q).parent = some p ∧ (s.proc q).state = .zombie then [.proc s.initproc] else []
  | _ => []

/-- The call of `sleep` that gives up its lock in a step. -/
def Ptable.opens (s : Ptable) : TEvent → Option (Slot × Chan × Option Nat)
  | .sleepRelease _ p =>
    match s.pc p with
    | .sleepLocked chan lk => some (p, chan, some lk)
    | _ => none
  | .tableSleep _ p chan => some (p, chan, none)
  | .waitSleep _ p => some (p, .proc p, none)
  | _ => none

/-- The process whose call of `sleep` returns in a step. -/
def TEvent.closes : TEvent → Option Slot
  | .relock _ p | .tableReturn _ p | .waitReturn _ p => some p
  | _ => none

/-- What a step adds to the watch of a call. -/
def SleepCall.hear (call : SleepCall) (s : Ptable) (e : TEvent) : SleepCall :=
  let later := fun q => call.later q || s.takes e = some (q, call.lock)
  { call with
    later := later
    notified := call.notified || (call.chan ∈ s.wakes e && e.actor.any later) }

/-- The calls of `sleep` in progress. -/
abbrev Watch := Slot → Option SleepCall

def Watch.record (w : Watch) (s : Ptable) (e : TEvent) : Watch := fun x =>
  match s.opens e with
  | some (p, chan, lock) =>
    if x = p then some ⟨chan, lock, fun _ => false, false⟩ else (w x).map (·.hear s e)
  | none => if e.closes = some x then none else (w x).map (·.hear s e)

/-- A step, watched. -/
def WatchStep (t : Ptable × Watch) (e : TEvent) (t' : Ptable × Watch) : Prop :=
  TStep t.1 e t'.1 ∧ t'.2 = t.2.record t.1 e

variable {s s' : Ptable} {e : TEvent} {x : Slot}

/-! ## Who takes a step -/

/-- A process takes steps while it runs. -/
theorem TStep.actor_running (hok : s.Ok) (hstep : TStep s e s') (hx : e.actor = some x) :
    (s.proc x).state = .running := by
  have key : ∃ c, (s.cpu c).ctx = .run x := by
    cases hstep <;> simp only [TEvent.actor, Option.some.injEq, reduceCtorEq] at hx <;>
      subst hx <;> exact ⟨_, ‹_›⟩
  obtain ⟨c, hc⟩ := key
  exact hok.running c x hc

theorem Ptable.opens_actor {l : Option Nat} (h : s.opens e = some (x, chan, l)) :
    e.actor = some x := by
  cases e <;> simp only [Ptable.opens, reduceCtorEq] at h
  · split at h <;> simp_all [TEvent.actor]
  · simp_all [TEvent.actor]
  · simp_all [TEvent.actor]

theorem TEvent.closes_actor (h : e.closes = some x) : e.actor = some x := by
  cases e <;> simp_all [TEvent.closes, TEvent.actor]

/-- A process stays on its processor while others take steps. -/
theorem TStep.cpu_of_ne (hstep : TStep s e s') (hx : e.actor ≠ some x)
    (hc : (s.cpu c).ctx = .run x) : (s'.cpu c).ctx = .run x := by
  have hkeep : ∀ c' u, (s.cpu c').ctx ≠ .run x → (Function.update s.cpu c' u c).ctx = .run x := by
    intro c' u hne
    rw [update_of_ne (by rintro rfl; exact hne hc)]
    exact hc
  have hrun : ∀ {c' p}, (s.cpu c').ctx = .run p → e.actor = some p → (s.cpu c').ctx ≠ .run x := by
    intro c' p hc' ha he
    rw [hc'] at he
    exact hx (ha.trans (congrArg some (Ctx.run.inj he)))
  cases hstep with
  | schedLock hc' => exact hkeep _ _ (by simp [hc'])
  | schedPick hc' => exact hkeep _ _ (by simp [hc'])
  | schedBack hc' => exact hkeep _ _ (by simp [hc'])
  | schedUnlock hc' => exact hkeep _ _ (by simp [hc'])
  | yieldSched hc' => exact hkeep _ _ (hrun hc' rfl)
  | sleepSched hc' => exact hkeep _ _ (hrun hc' rfl)
  | tableSleep hc' => exact hkeep _ _ (hrun hc' rfl)
  | waitSleep hc' => exact hkeep _ _ (hrun hc' rfl)
  | @exit c' p hc' =>
    have hr := ({ s with lock := some c' }.wakeup1 ((s.proc p).parent.map .proc)).reparented p
    simp only [Ptable.switch, Ptable.setCpu, Ptable.setPc, Ptable.setProc, hr.cpu]
    exact hkeep _ _ (hrun hc' rfl)
  | kill =>
    rw [s.kill_rest]
    exact hc
  | _ => exact hc

theorem TStep.sleepRelease_cpu (hstep : TStep s (.sleepRelease c x) s') : s'.cpu = s.cpu := by
  cases hstep
  rfl

/-- A process that is in `sleep` between its two locks. -/
theorem TStep.unlocked (hstep : TStep s e s') (hpc : s'.pc x = .sleepUnlocked chan lk) :
    (∃ c, e = .sleepRelease c x ∧ (s.cpu c).ctx = .run x ∧ s.pc x = .sleepLocked chan lk) ∨
      s.pc x = .sleepUnlocked chan lk ∧ e.actor ≠ some x := by
  have hset : ∀ (f : Slot → Pc) (p : Slot) (k : Pc), Function.update f p k x = .sleepUnlocked chan lk →
      x = p ∧ k = .sleepUnlocked chan lk ∨ x ≠ p ∧ f x = .sleepUnlocked chan lk := by
    intro f p k h
    by_cases hx : x = p
    · subst hx
      exact .inl ⟨rfl, by simpa using h⟩
    · exact .inr ⟨hx, by simpa [hx] using h⟩
  cases hstep with
  | schedLock => exact .inr ⟨hpc, by simp [TEvent.actor]⟩
  | schedPick => exact .inr ⟨hpc, by simp [TEvent.actor]⟩
  | schedBack => exact .inr ⟨hpc, by simp [TEvent.actor]⟩
  | schedUnlock => exact .inr ⟨hpc, by simp [TEvent.actor]⟩
  | sleepRelease hc hpc' =>
    obtain ⟨rfl, h⟩ | ⟨hx, h⟩ := hset _ _ _ hpc
    · cases h
      exact .inl ⟨_, rfl, hc, hpc'⟩
    · exact .inr ⟨h, by simpa [TEvent.actor] using Ne.symm hx⟩
  | tableWakeup hc hpc' =>
    refine .inr ⟨hpc, ?_⟩
    rintro ⟨⟩
    exact absurd (hpc'.symm.trans hpc) (by simp)
  | kill hc hpc' =>
    rw [s.kill_rest] at hpc
    refine .inr ⟨hpc, ?_⟩
    rintro ⟨⟩
    exact absurd (hpc'.symm.trans hpc) (by simp)
  | forkRun =>
    obtain ⟨-, h⟩ | ⟨hx, h⟩ := hset _ _ _ hpc
    · cases h
    · obtain ⟨-, h⟩ | ⟨-, h⟩ := hset _ _ _ h
      · cases h
      · exact .inr ⟨h, by simpa [TEvent.actor] using Ne.symm hx⟩
  | @exit c p =>
    have hr := ({ s with lock := some c }.wakeup1 ((s.proc p).parent.map .proc)).reparented p
    simp only [Ptable.switch, Ptable.setCpu, Ptable.setPc, Ptable.setProc, hr.pc] at hpc
    obtain ⟨-, h⟩ | ⟨hx, h⟩ := hset _ _ _ hpc
    · cases h
    · exact .inr ⟨h, by simpa [TEvent.actor] using Ne.symm hx⟩
  | _ =>
    obtain ⟨-, h⟩ | ⟨hx, h⟩ := hset _ _ _ hpc
    · cases h
    · exact .inr ⟨h, by simpa [TEvent.actor] using Ne.symm hx⟩

/-- Nobody completes a wakeup while a process is in `sleep` between its two locks. -/
theorem TStep.wakes_nil (hok : s.Ok) (hstep : TStep s e s') (hc : (s.cpu c).ctx = .run x)
    (hpc : s.pc x = .sleepUnlocked chan lk) : s.wakes e = [] := by
  have hl : s.lock = some c := hok.lock c x hc (by rw [hpc]; rfl)
  -- only one processor has `ptable.lock`, and `x` is there
  have hone : ∀ {c' p}, (s.cpu c').ctx = .run p → (s.pc p).holdsTable → p = x := by
    intro c' p hc' hp
    obtain rfl : c' = c := Option.some.inj ((hok.lock c' p hc' hp).symm.trans hl)
    exact Ctx.run.inj (hc'.symm.trans hc)
  cases hstep with
  | wakeupDone hc' hpc' =>
    obtain rfl := hone hc' (by rw [hpc']; rfl)
    exact absurd (hpc'.symm.trans hpc) (by simp)
  | tableWakeup hc' hpc' =>
    obtain rfl := hone hc' (by rw [hpc']; rfl)
    exact absurd (hpc'.symm.trans hpc) (by simp)
  | exit _ _ hl' => exact absurd (hl'.symm.trans hl) (by simp)
  | _ => rfl

/-! ## Who is asleep -/

/-- Nobody falls asleep in `wakeup1`. -/
theorem Ptable.wakeup1_awake {chan : Option Chan} (h : (s.proc x).state ≠ .sleeping) :
    ((s.wakeup1 chan).proc x).state ≠ .sleeping := by
  have := (s.stirred_wakeup1 chan x x).state
  grind

theorem Ptable.wakeup1_chan (s : Ptable) (chan : Option Chan) (x : Slot) :
    ((s.wakeup1 chan).proc x).chan = (s.proc x).chan := by
  rw [s.wakeup1_proc]

/-- Nobody sleeps on a channel after its `wakeup1`. -/
theorem Ptable.wakeup1_woken {chan : Option Chan} (h : (s.proc x).chan = chan) :
    ((s.wakeup1 chan).proc x).state ≠ .sleeping := by
  simp only [Ptable.wakeup1]
  split
  · simp
  · rename_i hx
    exact fun hs => hx ⟨hs, h⟩

theorem Ptable.reparent1_awake (h : (s.proc x).state ≠ .sleeping) :
    ((reparent1 p s q).proc x).state ≠ .sleeping := by
  have hset : ((s.setProc q fun pr => { pr with parent := some s.initproc }).proc x).state ≠
      .sleeping := by
    by_cases hx : x = q
    · subst hx
      simpa using h
    · simpa [hx] using h
  unfold reparent1
  split
  · dsimp only
    split
    · exact Ptable.wakeup1_awake hset
    · exact hset
  · exact h

section

variable (hq : (s.proc q).parent = some p) (hz : (s.proc q).state = .zombie)
  (hx : (s.proc x).chan = some (.proc s.initproc))
include hq hz hx

/-- A zombie child that is passed on wakes `init`. -/
theorem Ptable.reparent1_woken :
    ((reparent1 p s q).proc x).state ≠ .sleeping := by
  unfold reparent1
  rw [if_pos hq]
  dsimp only
  rw [if_pos (by simpa using hz)]
  refine Ptable.wakeup1_woken ?_
  by_cases hxq : x = q
  · subst hxq
    simpa using hx
  · simpa [hxq] using hx

theorem Ptable.reparent_woken :
    ((s.reparent p).proc x).state ≠ .sleeping := by
  have hfold : ∀ (rs qs : List Slot) (t : Ptable), s.Reparented p qs t →
      (q ∈ qs → (t.proc x).state ≠ .sleeping) → q ∈ qs ++ rs →
      ((rs.foldl (reparent1 p) t).proc x).state ≠ .sleeping := by
    intro rs
    induction rs with
    | nil => exact fun qs t _ hw hm => hw (by simpa using hm)
    | cons r rs ih =>
      intro qs t ht hw hm
      refine ih (qs ++ [r]) _ (ht.round r) ?_ (by simpa using hm)
      intro hm'
      by_cases hqs : q ∈ qs
      · exact Ptable.reparent1_awake (hw hqs)
      · obtain rfl : q = r := by simpa [hqs] using hm'
        have hst := (ht.stirred q).state
        refine Ptable.reparent1_woken ((ht.kept q hqs).trans hq) (by grind) ?_
        rw [ht.chan, ht.initproc]
        exact hx
  have hm : q ∈ [] ++ List.finRange nproc := by
    rw [List.nil_append]
    exact List.mem_finRange q
  have hend := hfold (List.finRange nproc) [] s (.refl p s) (by simp) hm
  rwa [Ptable.reparent]

end

/-- Who is still asleep after `exit`. -/
theorem Ptable.exit_asleep
    (hx : ((({ s with lock := some c }.wakeup1 ((s.proc p).parent.map .proc)).reparent p |>.switch c p
      .exited fun pr => { pr with state := .zombie }).proc x).state = .sleeping) :
    (s.proc x).state = .sleeping ∧
      ((({ s with lock := some c }.wakeup1 ((s.proc p).parent.map .proc)).reparent p |>.switch c p
        .exited fun pr => { pr with state := .zombie }).proc x).chan = (s.proc x).chan ∧
      ∀ chan ∈ s.wakes (.exit c p), (s.proc x).chan ≠ some chan := by
  generalize hchan : (s.proc p).parent.map Chan.proc = pchan at hx ⊢
  generalize hs1 : { s with lock := some c }.wakeup1 pchan = s1 at hx ⊢
  have hr := s1.reparented p
  have hxp : x ≠ p := by
    rintro rfl
    simp at hx
  simp only [Ptable.switch, Ptable.setCpu, Ptable.setPc, Ptable.setProc,
    update_of_ne hxp] at hx ⊢
  have hx1 : (s1.proc x).state = .sleeping := by
    have := (hr.stirred x).state
    grind
  have hch1 : (s1.proc x).chan = (s.proc x).chan := by
    rw [← hs1]
    exact Ptable.wakeup1_chan _ _ _
  refine ⟨?_, (hr.chan x).trans hch1, ?_⟩
  · by_contra hs
    exact Ptable.wakeup1_awake (s := { s with lock := some c }) hs (hs1 ▸ hx1)
  · intro chan hm hch
    simp only [Ptable.wakes, List.mem_append] at hm
    obtain hm | hm := hm
    · -- woken as the parent
      rw [hchan, Option.mem_toList] at hm
      exact Ptable.wakeup1_woken (s := { s with lock := some c }) (hch.trans hm.symm) (hs1 ▸ hx1)
    · -- woken as `init`
      split at hm
      · rename_i hz
        obtain ⟨q, hq, hz⟩ := hz
        obtain rfl : chan = .proc s.initproc := by simpa using hm
        have hq1 : (s1.proc q).parent = some p := by
          rw [← hs1, Ptable.wakeup1_proc]
          exact hq
        have hz1 : (s1.proc q).state = .zombie := by
          have := (Ptable.stirred_wakeup1 { s with lock := some c } pchan q q).state
          rw [hs1] at this
          grind
        refine Ptable.reparent_woken hq1 hz1 (hch1.trans hch |>.trans ?_) hx
        rw [← hs1]
        rfl
      · simp at hm

/-- A process is asleep after a step if it was asleep on a channel that was not woken, or if
it went to sleep. -/
theorem TStep.asleep (hok : s.Ok) (hstep : TStep s e s') (hx : (s'.proc x).state = .sleeping) :
    ((s.proc x).state = .sleeping ∧ (s'.proc x).chan = (s.proc x).chan ∧
      ∀ chan ∈ s.wakes e, (s.proc x).chan ≠ some chan) ∨
    (∃ c chan lk, e = .sleepSched c x ∧ s.pc x = .sleepUnlocked chan lk ∧
      (s'.proc x).chan = some chan) ∨
    ∃ chan l, s.opens e = some (x, chan, l) ∧ (s'.proc x).chan = some chan := by
  have hsame : s'.proc x = s.proc x → s.wakes e = [] → (s.proc x).state = .sleeping ∧
      (s'.proc x).chan = (s.proc x).chan ∧ ∀ chan ∈ s.wakes e, (s.proc x).chan ≠ some chan := by
    intro hs' hw
    rw [hs'] at hx ⊢
    exact ⟨hx, rfl, by simp [hw]⟩
  -- a step that changes one slot, without putting it to sleep
  have hset : ∀ {p b}, s'.proc = Function.update s.proc p b → b.state ≠ .sleeping → s.wakes e = [] →
      (s.proc x).state = .sleeping ∧ (s'.proc x).chan = (s.proc x).chan ∧
        ∀ chan ∈ s.wakes e, (s.proc x).chan ≠ some chan := by
    intro p b hs' hb hw
    by_cases hxp : x = p
    · simp [hs', hxp, hb] at hx
    · exact hsame (by rw [hs', update_of_ne hxp]) hw
  cases hstep with
  | schedPick => exact .inl (hset rfl (by simp) rfl)
  | yieldSched => exact .inl (hset rfl (by simp) rfl)
  | @sleepSched c p chan lk hc hpc =>
    by_cases hxp : x = p
    · subst hxp
      exact .inr (.inl ⟨c, chan, lk, rfl, hpc,
        by simp⟩)
    · exact .inl (hsame (update_of_ne hxp _ _) rfl)
  | sleepReturn hc => exact .inl (hset rfl (by simp [hok.running _ _ hc]) rfl)
  | @wakeupDone c p chan lk hc hpc =>
    have hw : s.wakes (.wakeupDone c p) = [chan] := by simp [Ptable.wakes, hpc]
    refine .inl ⟨?_, ?_, ?_⟩
    · by_contra hs
      exact Ptable.wakeup1_awake hs hx
    · exact s.wakeup1_chan (some chan) x
    · rw [hw]
      simp only [List.mem_singleton, forall_eq]
      exact fun hch => Ptable.wakeup1_woken hch hx
  | @tableWakeup c p chan hc hpc =>
    refine .inl ⟨?_, ?_, ?_⟩
    · by_contra hs
      exact Ptable.wakeup1_awake hs hx
    · exact s.wakeup1_chan (some chan) x
    · simp only [Ptable.wakes, List.mem_singleton, forall_eq]
      exact fun hch => Ptable.wakeup1_woken hch hx
  | @tableSleep c p chan hc hpc =>
    by_cases hxp : x = p
    · subst hxp
      exact .inr (.inr ⟨chan, none, rfl,
        by simp⟩)
    · exact .inl (hsame (update_of_ne hxp _ _) rfl)
  | tableReturn hc => exact .inl (hset rfl (by simp [hok.running _ _ hc]) rfl)
  | @kill c p pid =>
    have hs := (s.stirred_kill pid x x).state
    refine .inl ⟨by grind, ?_, by simp [Ptable.wakes]⟩
    unfold Ptable.kill
    split
    · rfl
    · rename_i q _
      by_cases hxq : x = q <;> simp [hxq]
  | forkAlloc => exact .inl (hset rfl (by simp) rfl)
  | forkFail => exact .inl (hset rfl (by simp) rfl)
  | @forkCopy c p np hc hpc =>
    have hnp := hok.child p np (by rw [hpc]; rfl)
    exact .inl (hset rfl (by simp [hnp]) rfl)
  | forkRun => exact .inl (hset rfl (by simp) rfl)
  | @exit c p hc => exact .inl (Ptable.exit_asleep hx)
  | waitReap => exact .inl (hset rfl (by simp) rfl)
  | @waitSleep c p hc hpc =>
    by_cases hxp : x = p
    · subst hxp
      exact .inr (.inr ⟨.proc x, none, rfl,
        by simp⟩)
    · exact .inl (hsame (update_of_ne hxp _ _) rfl)
  | waitReturn hc => exact .inl (hset rfl (by simp [hok.running _ _ hc]) rfl)
  | _ => exact .inl ⟨hx, rfl, by simp [Ptable.wakes]⟩

/-! ## The watch -/

/-- The watch of a slot that the step's process is not in. -/
theorem Watch.record_of_ne {w : Watch} (hx : e.actor ≠ some x) :
    w.record s e x = (w x).map (·.hear s e) := by
  unfold Watch.record
  split
  · rename_i p chan lock ho
    have hxp : x ≠ p := by
      rintro rfl
      exact hx (Ptable.opens_actor ho)
    rw [if_neg hxp]
  · exact if_neg fun hc => hx (TEvent.closes_actor hc)

theorem Watch.record_plain {w : Watch} (ho : s.opens e = none) (hc : e.closes = none) :
    w.record s e x = (w x).map (·.hear s e) := by
  simp [Watch.record, ho, hc]

/-- The watch of a call that begins. -/
theorem Watch.record_opens {w : Watch} {l : Option Nat} (h : s.opens e = some (x, chan, l)) :
    w.record s e x = some ⟨chan, l, fun _ => false, false⟩ := by
  simp [Watch.record, h]

/-- What is known about calls of `sleep` that have given up their lock. -/
structure Heard (t : Ptable × Watch) : Prop where
  /-- A process that has heard is awake. -/
  told : ∀ p call, t.2 p = some call → call.notified → (t.1.proc p).state ≠ .sleeping
  asleep : ∀ p, (t.1.proc p).state = .sleeping →
    ∃ call, t.2 p = some call ∧ (t.1.proc p).chan = some call.chan
  /-- Nobody has been told while between the two locks. -/
  unlocked : ∀ p chan lk, t.1.pc p = .sleepUnlocked chan lk →
    (∃ c, (t.1.cpu c).ctx = .run p) ∧
      ∃ call, t.2 p = some call ∧ call.chan = chan ∧ call.notified = false

theorem Ptable.Start.heard (h : s.Start) : Heard (s, fun _ => none) where
  told p call hp := by simp at hp
  asleep p hp := by
    by_cases hi : p = s.initproc
    · simp [hi, h.init] at hp
    · simp [h.rest p hi] at hp
  unlocked p chan lk hp := by
    by_cases hi : p = s.initproc
    · simp [hi, h.born] at hp
    · simp [h.pcs p hi] at hp

theorem Heard.step {t t' : Ptable × Watch} (hok : t.1.Ok) (h : Heard t)
    (hstep : WatchStep t e t') : Heard t' := by
  obtain ⟨hs, hw⟩ := hstep
  -- a sleeper takes no step
  have hidle : ∀ p, (t.1.proc p).state = .sleeping → e.actor ≠ some p := by
    intro p hp ha
    have := hs.actor_running hok ha
    simp [hp] at this
  constructor
  · intro p call' hcall' hnot hsl
    rw [hw] at hcall'
    obtain ⟨hp, -, hno⟩ | ⟨c, chan, lk, rfl, hpc, -⟩ | ⟨chan, l, ho, -⟩ := hs.asleep hok hsl
    · rw [Watch.record_of_ne (hidle p hp)] at hcall'
      obtain ⟨call, hcall, rfl⟩ := Option.map_eq_some_iff.mp hcall'
      obtain ⟨call2, hcall2, hchan⟩ := h.asleep p hp
      obtain rfl : call = call2 := Option.some.inj (hcall.symm.trans hcall2)
      -- told before, or by this step, which did not wake the channel
      simp only [SleepCall.hear, Bool.or_eq_true, Bool.and_eq_true, decide_eq_true_eq] at hnot
      obtain hn | ⟨hm, -⟩ := hnot
      · exact h.told p call hcall hn hp
      · exact hno _ hm hchan
    · obtain ⟨-, call, hcall, -, hn⟩ := h.unlocked p chan lk hpc
      rw [Watch.record_plain rfl rfl, hcall] at hcall'
      obtain rfl := Option.some.inj hcall'
      simp [SleepCall.hear, hn, Ptable.wakes] at hnot
    · rw [Watch.record_opens ho] at hcall'
      obtain rfl := Option.some.inj hcall'
      simp at hnot
  · intro p hsl
    rw [hw]
    obtain ⟨hp, hch, -⟩ | ⟨c, chan, lk, rfl, hpc, hch⟩ | ⟨chan, l, ho, hch⟩ := hs.asleep hok hsl
    · obtain ⟨call, hcall, hchan⟩ := h.asleep p hp
      refine ⟨call.hear t.1 e, ?_, hch.trans hchan⟩
      rw [Watch.record_of_ne (hidle p hp), hcall]
      rfl
    · obtain ⟨-, call, hcall, rfl, -⟩ := h.unlocked p chan lk hpc
      refine ⟨call.hear t.1 (.sleepSched c p), ?_, hch⟩
      rw [Watch.record_plain rfl rfl, hcall]
      rfl
    · exact ⟨_, Watch.record_opens ho, hch⟩
  · intro p chan lk hpc'
    rw [hw]
    obtain ⟨c, rfl, hc, hpc⟩ | ⟨hpc, ha⟩ := hs.unlocked hpc'
    · have ho : t.1.opens (.sleepRelease c p) = some (p, chan, some lk) := by
        simp [Ptable.opens, hpc]
      exact ⟨⟨c, hs.sleepRelease_cpu ▸ hc⟩, _, Watch.record_opens ho, rfl, rfl⟩
    · obtain ⟨⟨c, hc⟩, call, hcall, hchan, hn⟩ := h.unlocked p chan lk hpc
      refine ⟨⟨c, hs.cpu_of_ne ha hc⟩, call.hear t.1 e, ?_, hchan, ?_⟩
      · rw [Watch.record_of_ne ha, hcall]
        rfl
      · simp [SleepCall.hear, hn, hs.wakes_nil hok hc hpc]

/-- Every sleeping process is in a watched call, and none of them has been notified: no
`wakeup` of the channel has been completed, since the call gave up its lock, by a process that
has taken the lock since. -/
theorem no_lost_wakeup {s : Ptable} (h0 : s.Start) {es : List TEvent} {t : Ptable × Watch}
    (hrun : Trace.Run WatchStep (s, fun _ => none) es t) (p : Slot)
    (hp : (t.1.proc p).state = .sleeping) :
    ∃ call, t.2 p = some call ∧ (t.1.proc p).chan = some call.chan ∧ call.notified = false := by
  have hinv : t.1.Ok ∧ Heard t := by
    refine hrun.invariant (I := fun t => t.1.Ok ∧ Heard t) ⟨h0.ok, h0.heard⟩ ?_
    intro t e t' ⟨hok, hh⟩ hstep
    exact ⟨hok.step hstep.1, hh.step hok hstep⟩
  obtain ⟨-, hh⟩ := hinv
  obtain ⟨call, hcall, hchan⟩ := hh.asleep p hp
  refine ⟨call, hcall, hchan, ?_⟩
  by_contra hn
  exact hh.told p call hcall (by simpa using hn) hp

/-- Every run can be watched. -/
theorem WatchStep.of_run {s s' : Ptable} {es : List TEvent} (w : Watch)
    (h : Trace.Run TStep s es s') : ∃ w', Trace.Run WatchStep (s, w) es (s', w') := by
  induction h with
  | nil => exact ⟨w, .nil⟩
  | snoc _ hs ih =>
    obtain ⟨w', hw⟩ := ih
    exact ⟨_, hw.snoc ⟨hs, rfl⟩⟩

/-- A process takes a lock and goes to sleep with it. -/
theorem TStep.sleep (chan : Chan) (hc : (s.cpu c).ctx = .run p) (hpc : s.pc p = .at .idle)
    (hl : s.lock = none) (hlk : s.lk lk = none) :
    ∃ s', Trace.Run TStep s
        ([.acquire c p lk] ++ [.sleepLock c p chan] ++ [.sleepRelease c p] ++ [.sleepSched c p]) s' ∧
      (s'.proc p).state = .sleeping := by
  have h1 := Trace.Run.single (TStep.acquire hc hpc hlk)
  have hstep : TStep ((s.setLk lk (some c)).setPc p (.holding lk)) (.sleepLock c p chan) _ :=
    .sleepLock hc (update_self _ _ _) hl
  have h2 := h1.snoc hstep
  have h3 := h2.snoc (TStep.sleepRelease hc (update_self _ _ _))
  have h4 := h3.snoc (TStep.sleepSched hc (update_self _ _ _))
  refine ⟨_, h4, ?_⟩
  simp

/-- `init` goes to sleep with lock 0. -/
theorem no_lost_wakeup_init : ∃ es t, Trace.Run WatchStep (Ptable.boot, fun _ => none) es t ∧
    (t.1.proc slot0).state = .sleeping ∧
    ∃ call, t.2 slot0 = some call ∧ (t.1.proc slot0).chan = some call.chan ∧
      call.notified = false := by
  obtain ⟨s, hrun, hc, hpc, hl, hlk, -⟩ := Ptable.run_init
  obtain ⟨s', hsleep, hst⟩ := TStep.sleep (.addr 0) hc hpc hl hlk
  obtain ⟨w, hw⟩ := WatchStep.of_run (fun _ => none) (hrun.append hsleep)
  exact ⟨_, _, hw, hst, no_lost_wakeup Ptable.boot_start hw slot0 hst⟩

end Xv6
