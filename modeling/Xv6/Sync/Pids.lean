import Xv6.Sync.LifeCycle

/-!
# Process identifiers and `kill`

`allocproc` gives out the pids 1, 2, … and `wait` puts a freed slot's pid back to 0, so as
long as the counter does not wrap, the pids other than 0 in the table are all different,
in free slots too.  A failed `fork` leaves its pid in the free slot.

`kill` compares pids without looking at the state.  It is right exactly for the pids that
no free slot holds; 0 is held by nearly all of them.  A mark left on a free slot stays
there, because `allocproc` does not clear it.
-/

namespace Xv6

variable {s s' : Ptable} {e : TEvent}

/-! ## Pids -/

/-- The process creations of an event: calls of `allocproc` that take a slot. -/
def TEvent.births : TEvent → Nat
  | .forkAlloc _ _ => 1
  | _ => 0

/-- The process creations of a run after `userinit` made the first one. -/
def births (es : List TEvent) : Nat := 1 + (es.map TEvent.births).sum

theorem births_snoc (es : List TEvent) (e : TEvent) : births (es ++ [e]) = births es + e.births := by
  simp [births, Nat.add_assoc]

/-- The pids after `n` creations. -/
structure Ptable.Pids (n : Nat) (s : Ptable) : Prop where
  next : s.nextpid.toNat = n + 1
  given : ∀ x, (s.proc x).pid.toNat ≤ n
  named : ∀ x, (s.proc x).state ≠ .unused → (s.proc x).pid ≠ 0#32
  distinct : ∀ x y, (s.proc x).pid = (s.proc y).pid → (s.proc x).pid ≠ 0#32 → x = y

theorem Ptable.Start.pids (h : s.Start) : s.Pids 1 where
  next := by rw [h.nextpid]; rfl
  given x := by
    by_cases hx : x = s.initproc
    · rw [hx, h.init]; decide
    · rw [h.rest x hx]; decide
  named x hs := by
    by_cases hx : x = s.initproc
    · rw [hx, h.init]; decide
    · simp [h.rest x hx] at hs
  distinct x y he hne := by
    by_cases hx : x = s.initproc
    · by_cases hy : y = s.initproc
      · rw [hx, hy]
      · simp [hx, h.init, h.rest y hy] at he
    · simp [h.rest x hx] at hne

theorem TStep.nextpid (hstep : TStep s e s') :
    s'.nextpid = s.nextpid + BitVec.ofNat 32 e.births := by
  cases hstep with
  | forkAlloc => rfl
  | kill =>
    rw [s.kill_rest]
    exact (BitVec.add_zero _).symm
  | @exit c p =>
    have hr := ({ s with lock := some c }.wakeup1 ((s.proc p).parent.map .proc)).reparented p
    simp only [Ptable.switch, Ptable.setCpu, Ptable.setPc, Ptable.setProc, hr.nextpid]
    exact (BitVec.add_zero _).symm
  | _ => exact (BitVec.add_zero _).symm

/-- A pid is kept, given out, or put back to 0. -/
theorem SlotStep.pid {x : Slot} {b : PSlot} (h : SlotStep s x e b) :
    b.pid = (s.proc x).pid ∧ (b.state ≠ .unused → (s.proc x).state ≠ .unused) ∨
      b.pid = s.nextpid ∧ s.unusedSlot = some x ∧ e.births = 1 ∨
      b.pid = 0#32 ∧ b.state = .unused := by
  cases h with
  | stay _ hpid hst _ => exact .inl ⟨hpid, by grind [ProcState.alive]⟩
  | alloc hnp _ hpid _ => exact .inr (.inl ⟨hpid, hnp, rfl⟩)
  | fail he _ _ hpid _ => exact .inl ⟨hpid, by simp [he]⟩
  | born he _ hpid _ => exact .inl ⟨hpid, by simp [he]⟩
  | exit hr _ hpid _ => exact .inl ⟨hpid, by simp [hr]⟩
  | reap _ hu _ hpid _ => exact .inr (.inr ⟨hpid, hu⟩)

theorem Ptable.Pids.step {n : Nat} (hok : s.Ok) (h : s.Pids n) (hn : n + e.births < 2 ^ 31 - 1)
    (hstep : TStep s e s') : s'.Pids (n + e.births) := by
  have hslot := fun x => (hstep.slot hok x).pid
  have hnext := h.next
  -- the pid given out is larger than those in the table
  have hfresh : ∀ x, (s.proc x).pid ≠ s.nextpid := by
    intro x he
    have := h.given x
    rw [he] at this
    omega
  have hpos : s.nextpid ≠ 0#32 := by
    intro he
    rw [he] at hnext
    simp at hnext
  constructor
  · rw [hstep.nextpid, BitVec.toNat_add, BitVec.toNat_ofNat]
    omega
  · intro x
    have := h.given x
    obtain ⟨hp, -⟩ | ⟨hp, -, hb⟩ | ⟨hp, -⟩ := hslot x
    · rw [hp]; omega
    · rw [hp]; omega
    · rw [hp]; simp
  · intro x hx
    obtain ⟨hp, hs⟩ | ⟨hp, -, -⟩ | ⟨-, hu⟩ := hslot x
    · rw [hp]
      exact h.named x (hs hx)
    · rw [hp]
      exact hpos
    · exact absurd hu hx
  · intro x y he hne
    obtain ⟨hx, -⟩ | ⟨hx, hxs, -⟩ | ⟨hx, -⟩ := hslot x
    · obtain ⟨hy, -⟩ | ⟨hy, -, -⟩ | ⟨hy, -⟩ := hslot y
      · exact h.distinct x y (by rw [← hx, ← hy]; exact he) (by rw [← hx]; exact hne)
      · exact absurd (hx.symm.trans (he.trans hy)) (hfresh x)
      · exact absurd (he.trans hy) hne
    · obtain ⟨hy, -⟩ | ⟨-, hys, -⟩ | ⟨hy, -⟩ := hslot y
      · exact absurd (hy.symm.trans (he.symm.trans hx)) (hfresh y)
      · exact Option.some.inj (hxs.symm.trans hys)
      · exact absurd (he.trans hy) hne
    · exact absurd hx hne

theorem Ptable.Pids.of_run {s s' : Ptable} {es : List TEvent} (h0 : s.Start)
    (hrun : Trace.Run TStep s es s') (hn : births es < 2 ^ 31 - 1) :
    s'.Ok ∧ s'.Pids (births es) := by
  induction hrun with
  | nil => exact ⟨h0.ok, h0.pids⟩
  | @snoc es e s1 s2 _ hstep ih =>
    rw [births_snoc] at hn ⊢
    obtain ⟨hok, hp⟩ := ih (by omega)
    exact ⟨hok.step hstep, hp.step hok hn hstep⟩

/-! ## `kill` -/

/-- What `kill` is for: it marks the process with the given pid, and fails if there is none. -/
structure Ptable.KillRight (s : Ptable) (pid : Word) : Prop where
  result : (s.kill pid).2 = 0 ↔ ∃ x, (s.proc x).state ≠ .unused ∧ (s.proc x).pid = pid
  found : ∀ x, (s.proc x).state ≠ .unused → (s.proc x).pid = pid →
    ∃ st, (s.kill pid).1 = s.setProc x fun pr => { pr with killed := true, state := st }
  missing : (¬∃ x, (s.proc x).state ≠ .unused ∧ (s.proc x).pid = pid) → s.kill pid = (s, -1)

theorem Ptable.kill_none {pid : Word} (h : s.pidSlot pid = none) : s.kill pid = (s, -1) := by
  simp [Ptable.kill, h]

theorem Ptable.kill_some {pid : Word} {x : Slot} (h : s.pidSlot pid = some x) :
    s.kill pid = (s.setProc x fun pr =>
      { pr with killed := true, state := if pr.state = .sleeping then .runnable else pr.state }, 0) := by
  simp [Ptable.kill, h]

theorem Ptable.pidSlot_pid {pid : Word} {x : Slot} (h : s.pidSlot pid = some x) :
    (s.proc x).pid = pid := by
  simpa using List.find?_some h

theorem Ptable.pidSlot_none {pid : Word} (h : s.pidSlot pid = none) (x : Slot) :
    (s.proc x).pid ≠ pid := by
  simpa using List.find?_eq_none.mp h x (List.mem_finRange x)

/-- `kill` is right exactly for the pids that no free slot holds. -/
theorem Ptable.Pids.killRight_iff {n : Nat} {pid : Word} (h : s.Pids n) :
    s.KillRight pid ↔ ∀ x, (s.proc x).pid = pid → (s.proc x).state ≠ .unused := by
  cases hf : s.pidSlot pid with
  | none =>
    have hno := Ptable.pidSlot_none hf
    have hk := Ptable.kill_none hf
    refine ⟨fun _ x hx => absurd hx (hno x), fun _ => ⟨?_, ?_, fun _ => hk⟩⟩
    · rw [hk]
      simp [hno]
    · exact fun x _ hx => absurd hx (hno x)
  | some x =>
    have hx := Ptable.pidSlot_pid hf
    have hk := Ptable.kill_some hf
    constructor
    · intro hr y hy
      obtain ⟨z, hz, hzp⟩ := hr.result.mp (by rw [hk])
      -- a process with this pid makes the pid one of those that are unique
      have hyz : y = z := h.distinct y z (hy.trans hzp.symm) (by
        rw [hy, ← hzp]
        exact h.named z hz)
      exact hyz ▸ hz
    · intro hused
      refine ⟨?_, ?_, ?_⟩
      · rw [hk]
        exact ⟨fun _ => ⟨x, hused x hx, hx⟩, fun _ => rfl⟩
      · intro y hy hyp
        have hxy : x = y := h.distinct x y (hx.trans hyp.symm) (h.named x (hused x hx))
        subst hxy
        rw [hk]
        exact ⟨if (s.proc x).state = .sleeping then .runnable else (s.proc x).state, rfl⟩
      · exact fun hno => absurd ⟨x, hused x hx, hx⟩ hno

/-! ## Marks on free slots -/

/-- `kill` is called for pids that no free slot holds, and no `fork` fails whose child has been
killed already. -/
def Ptable.Clean (s : Ptable) : TEvent → Prop
  | .kill _ _ pid => ∀ x, (s.proc x).pid = pid → (s.proc x).state ≠ .unused
  | .forkFail _ p => ∀ x, s.pc p = .at (.forking x) → (s.proc x).killed = false
  | _ => True

/-- No free slot is marked as killed. -/
def Ptable.Unmarked (s : Ptable) : Prop :=
  ∀ x, (s.proc x).state = .unused → (s.proc x).killed = false

theorem Ptable.Unmarked.step (hok : s.Ok) (h : s.Unmarked) (hclean : s.Clean e)
    (hstep : TStep s e s') : s'.Unmarked := by
  intro x hx
  have hslot := hstep.slot hok x
  generalize s'.proc x = b at hslot hx
  cases hslot with
  | stay _ hpid hst hk =>
    have hu : (s.proc x).state = .unused := by grind [ProcState.alive]
    obtain hk | ⟨c, p, rfl⟩ := hk
    · rw [hk]
      exact h x hu
    · exact absurd hu (hclean x rfl)
  | alloc _ he _ _ => simp [hx] at he
  | fail he hu hpc _ hk =>
    rw [hk]
    exact hclean x hpc
  | born _ hr _ _ => simp [hx] at hr
  | exit _ hz _ _ => simp [hx] at hz
  | reap _ _ _ _ hk => exact hk

theorem Ptable.Unmarked.of_run {s s' : Ptable} {es : List TEvent} (h0 : s.Start)
    (hrun : Trace.Run (Trace.given Ptable.Clean TStep) s es s') : s'.Ok ∧ s'.Unmarked := by
  refine hrun.invariant (I := fun s => s.Ok ∧ s.Unmarked) ⟨h0.ok, ?_⟩ ?_
  · intro x hx
    by_cases hi : x = s.initproc
    · rw [hi, h0.init]
    · rw [h0.rest x hi]
  · intro s e s' ⟨hok, hm⟩ ⟨hclean, hstep⟩
    exact ⟨hok.step hstep, hm.step hok hclean hstep⟩

/-- Pids identify processes.  `kill` is right exactly for the pids that no free slot holds, and
where all the calls so far were such calls and no child was killed before its `fork` failed,
the next process is not born killed. -/
theorem pids_identify {s s' : Ptable} {es : List TEvent} (h0 : s.Start)
    (hrun : Trace.Run TStep s es s') (hn : births es < 2 ^ 31 - 1) :
    (∀ x, (s'.proc x).state ≠ .unused → 0 < (s'.proc x).pid.toInt) ∧
    (∀ x y, (s'.proc x).state ≠ .unused → (s'.proc y).state ≠ .unused →
      (s'.proc x).pid = (s'.proc y).pid → x = y) ∧
    (∀ pid, s'.KillRight pid ↔ ∀ x, (s'.proc x).pid = pid → (s'.proc x).state ≠ .unused) ∧
    (Trace.Run (Trace.given Ptable.Clean TStep) s es s' → ∀ c p t, TStep s' (.forkAlloc c p) t →
      ∀ x, (s'.proc x).state = .unused → (t.proc x).state = .embryo →
        (t.proc x).killed = false) := by
  obtain ⟨hok, hp⟩ := Ptable.Pids.of_run h0 hrun hn
  refine ⟨?_, ?_, fun pid => hp.killRight_iff, ?_⟩
  · intro x hx
    have hne := hp.named x hx
    have hle := hp.given x
    have hpos : (s'.proc x).pid.toNat ≠ 0 := fun he => hne (BitVec.eq_of_toNat_eq he)
    rw [BitVec.toInt_eq_toNat_of_lt (by omega)]
    omega
  · intro x y hx _ he
    exact hp.distinct x y he (hp.named x hx)
  · intro hclean c p t hstep x hx ht
    obtain ⟨-, hm⟩ := Ptable.Unmarked.of_run h0 hclean
    have hslot := hstep.slot hok x
    generalize t.proc x = b at hslot ht
    cases hslot with
    | stay _ _ _ hk =>
      obtain hk | ⟨c, p, he⟩ := hk
      · rw [hk]; exact hm x hx
      · cases he
    | alloc _ _ _ hk => rw [hk]; exact hm x hx

/-- The first free slot depends on the states only. -/
theorem Ptable.unusedSlot_congr (h : ∀ x, (s'.proc x).state = (s.proc x).state) :
    s'.unusedSlot = s.unusedSlot := by
  simp only [Ptable.unusedSlot, h]

/-- `kill` with the pid of a free slot marks the slot. -/
theorem Ptable.kill_unused {pid : Word} {x : Slot} (h : s.pidSlot pid = some x)
    (hx : (s.proc x).state = .unused) :
    s.kill pid = (s.setProc x fun pr => { pr with killed := true }, 0) := by
  rw [Ptable.kill_some h]
  simp [hx]

/-- `kill(0)` right after boot succeeds, and the next child is born killed. -/
theorem kill_zero_marks_child : ∃ s es, Trace.Run TStep Ptable.boot es s ∧ births es = 1 ∧
    (s.kill 0#32).2 = 0 ∧ (∀ x, (s.proc x).pid = 0#32 → (s.proc x).state = .unused) ∧
    ¬s.KillRight 0#32 ∧
    ∃ t, Trace.Run TStep s
        ([.kill 0 slot0 0#32] ++ ([.forkAlloc 0 slot0] ++ [.forkCopy 0 slot0] ++ [.forkRun 0 slot0])) t ∧
      (t.proc slot1).state = .runnable ∧ (t.proc slot1).killed = true := by
  obtain ⟨s, hrun, hc, hpc, hl, -, hnp, hpid, -, -⟩ := Ptable.run_init
  have hu := Ptable.unusedSlot_state hnp
  have hp := (Ptable.Pids.of_run Ptable.boot_start hrun (by decide)).2
  have hk := Ptable.kill_unused hpid hu
  generalize hm : (s.setProc slot1 fun pr => { pr with killed := true }) = m at hk
  have hkill : TStep s (.kill 0 slot0 0#32) (s.kill 0#32).1 := .kill hc hpc hl
  rw [hk] at hkill
  have hnp' : m.unusedSlot = some slot1 := by
    rw [← hnp]
    refine Ptable.unusedSlot_congr fun x => ?_
    by_cases hx : x = slot1 <;> simp [← hm, hx]
  obtain ⟨t, hfork, hproc, -, -⟩ := TStep.fork (s := m) (p := slot0)
    (by rw [← hm]; exact hc) (by rw [← hm]; exact hpc) (by rw [← hm]; exact hl) hnp'
  refine ⟨s, _, hrun, rfl, by rw [hk], ?_, ?_, t, (Trace.Run.single hkill).append hfork, ?_, ?_⟩
  · intro x hx
    by_contra hs
    exact hp.named x hs hx
  · intro hr
    exact hp.killRight_iff.mp hr slot1 (Ptable.pidSlot_pid hpid) hu
  · simp [hproc]
  · simp [hproc, ← hm]

/-- After boot `kill` is right for the pid of `init`, and its first child is not born killed. -/
theorem pids_identify_init : ∃ s es, Trace.Run TStep Ptable.boot es s ∧ s.KillRight 1#32 ∧
    ∃ t, TStep s (.forkAlloc 0 slot0) t ∧ (t.proc slot1).killed = false := by
  obtain ⟨s, hrun, hc, hpc, hl, -, hnp, -, -, hproc⟩ := Ptable.run_init
  obtain ⟨-, -, hkill, hborn⟩ := pids_identify Ptable.boot_start hrun (by decide)
  have hstep := TStep.forkAlloc hc hpc hl hnp
  refine ⟨s, _, hrun, (hkill 1#32).mpr ?_, _, hstep, ?_⟩
  · intro x hx
    by_cases h0 : x = slot0
    · simp [hproc, h0]
    · simp [hproc, h0, Ptable.boot] at hx
  · refine hborn (hrun.restrict ?_) 0 slot0 _ hstep slot1 (Ptable.unusedSlot_state hnp) ?_
    · simp [Ptable.Clean]
    · simp

end Xv6
