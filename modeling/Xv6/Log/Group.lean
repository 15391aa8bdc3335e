import Xv6.Lib.Run
import Xv6.Log.Commit

/-!
# Group commit (`log.c`)

The part of `struct log` that `begin_op`, `log_write` and `end_op` share, and the
processes that use it.  A section under `log.lock` is one step.  The checks of
`log_write` are made before the lock is taken, so they are a step of their own, and
`commit` runs without the lock, so each turn of its loops is one.

`logged` and `mine` are history variables: the blocks that calls of `log_write` have
put in the log since it was last cleared, each with the process that called it, and
the blocks that the current operation of each process has logged.  No step reads them.

A process that finds no room in `begin_op` goes to sleep and tries again; that step
changes nothing.  Wakeups are left out, since a process may try at any time.
-/

namespace Xv6

open Prog Trace Function

/-! ## The sections -/

/-- The fields of `struct log` that operations share.  `block` is the `n` block
numbers in `log.lh`. -/
structure SharedLog where
  size : Nat
  outstanding : Int
  committing : Bool
  block : List Word
deriving DecidableEq

/-- Code over the shared log. -/
abbrev S := Prog SharedLog Fault

/-- One turn of the loop of `begin_op`.  Returns whether the operation was admitted. -/
def beginOp : S Bool := do
  let l ← get
  if l.committing then pure false
  else if (logsize : Int) < l.block.length + (l.outstanding + 1) * maxopblocks then pure false
  else do
    set { l with outstanding := l.outstanding + 1 }
    pure true

/-- The checks of `log_write`, before it takes the lock. -/
def logWriteCheck : S Unit := do
  let l ← get
  if logsize ≤ l.block.length ∨ (l.size : Int) - 1 ≤ l.block.length then
    panic "too big a transaction"
  else if l.outstanding < 1 then panic "log_write outside of trans"
  else pure ()

/-- The part of `log_write` under the lock: a block already there is absorbed. -/
def logWriteLocked (b : Word) : S Unit := do
  let l ← get
  if b ∈ l.block then pure ()
  else if logsize ≤ l.block.length then throw .outOfBounds
  else set { l with block := l.block ++ [b] }

/-- The first section of `end_op`.  Returns `do_commit`. -/
def endOp : S Bool := do
  let l ← get
  if l.committing then panic "log.committing"
  else if l.outstanding - 1 = 0 then do
    set { l with outstanding := l.outstanding - 1, committing := true }
    pure true
  else do
    set { l with outstanding := l.outstanding - 1 }
    pure false

/-! ## The processes -/

/-- Where a process is. -/
inductive Phase where
  /-- Outside an operation, or in the loop of `begin_op`. -/
  | outside
  /-- Between `begin_op` and `end_op`. -/
  | inside
  /-- In `log_write`, past its checks. -/
  | writing (b : Word)
  /-- In `end_op`, about to call `commit`. -/
  | starting
  /-- In `write_log`, with the blocks copied so far. -/
  | copying (copied : List Word)
  /-- In `install_trans`. -/
  | installing (tail : Nat)
  /-- Before the second `write_head`. -/
  | clearing
  /-- Back in `end_op`. -/
  | ending
deriving DecidableEq

/-- In an operation. -/
def Phase.InOp : Phase → Prop
  | .inside => True
  | .writing _ => True
  | _ => False

/-- In `commit`, or on the way into it. -/
def Phase.InCommit : Phase → Prop
  | .starting => True
  | .copying _ => True
  | .installing _ => True
  | .clearing => True
  | _ => False

instance : DecidablePred Phase.InOp := fun ph => by
  cases ph <;> unfold Phase.InOp <;> infer_instance

/-- The shared log and the processes. -/
structure Group where
  log : SharedLog
  phase : Nat → Phase
  logged : List (Nat × Word)
  mine : Nat → List Word

/-- No operation has started. -/
def Group.init (size : Nat) : Group :=
  { log := { size := size, outstanding := 0, committing := false, block := [] }
    phase := fun _ => .outside, logged := [], mine := fun _ => [] }

def onLog {α : Type} (x : S α) : Prog Group Fault α :=
  zoom Group.log (fun l s => { s with log := l }) x

def setPhase (p : Nat) (ph : Phase) : Prog Group Fault Unit :=
  modify fun s => { s with phase := Function.update s.phase p ph }

/-- What a process does next. -/
inductive LogEvent where
  | beginOp (p : Nat)
  | logCheck (p : Nat) (b : Word)
  | logWrite (p : Nat)
  | endOp (p : Nat)
  | commitStep (p : Nat)

/-- One step of `commit` and of the end of `end_op`. -/
def commitStep (p : Nat) : Prog Group Fault Unit := do
  let s ← get
  match s.phase p with
  | .starting => setPhase p (if 0 < s.log.block.length then .copying [] else .ending)
  | .copying copied =>
    match s.log.block[copied.length]? with
    | some b => setPhase p (.copying (copied ++ [b]))
    | none => setPhase p (.installing 0)
  | .installing tail =>
    if tail < s.log.block.length then setPhase p (.installing (tail + 1))
    else do
      modify fun s => { s with log := { s.log with block := [] }, logged := [] }
      setPhase p .clearing
  | .clearing => setPhase p .ending
  | .ending => do
    onLog (modify fun l => { l with committing := false })
    setPhase p .outside
  | _ => pure ()

def LogEvent.run : LogEvent → Prog Group Fault Unit
  | .beginOp p => do
    let admitted ← onLog Xv6.beginOp
    if admitted then do
      modify fun s => { s with mine := Function.update s.mine p [] }
      setPhase p .inside
    else pure ()
  | .logCheck p b => do
    onLog logWriteCheck
    setPhase p (.writing b)
  | .logWrite p => do
    let s ← get
    match s.phase p with
    | .writing b => do
      onLog (logWriteLocked b)
      modify fun s =>
        { s with logged := s.logged ++ [(p, b)]
                 mine := Function.update s.mine p ((s.mine p).insert b) }
      setPhase p .inside
    | _ => pure ()
  | .endOp p => do
    let doCommit ← onLog Xv6.endOp
    setPhase p (if doCommit then .starting else .outside)
  | .commitStep p => Xv6.commitStep p

/-- When a process can take a step. -/
def LogEvent.enabled (s : Group) : LogEvent → Prop
  | .beginOp p => s.phase p = .outside
  | .logCheck p _ => s.phase p = .inside
  | .logWrite p => ∃ b, s.phase p = .writing b
  | .endOp p => s.phase p = .inside
  | .commitStep p => (s.phase p).InCommit ∨ s.phase p = .ending

/-- A step that returned. -/
def LogStep (s : Group) (e : LogEvent) (s' : Group) : Prop :=
  e.enabled s ∧ e.run s = .ok ((), s')

/-! ## What a step does -/

/-- The effect of each step that returns, with what it found. -/
inductive LogMove (s : Group) : LogEvent → Group → Prop where
  | sleep {p : Nat} : LogMove s (.beginOp p) s
  | enter {p : Nat} : s.phase p = .outside → s.log.committing = false →
      s.log.block.length + (s.log.outstanding + 1) * maxopblocks ≤ logsize →
      LogMove s (.beginOp p)
        { s with log := { s.log with outstanding := s.log.outstanding + 1 }
                 mine := Function.update s.mine p []
                 phase := Function.update s.phase p .inside }
  | check {p : Nat} {b : Word} : s.phase p = .inside →
      LogMove s (.logCheck p b) { s with phase := Function.update s.phase p (.writing b) }
  | write {p : Nat} {b : Word} : s.phase p = .writing b →
      LogMove s (.logWrite p)
        { log := { s.log with
            block := if b ∈ s.log.block then s.log.block else s.log.block ++ [b] }
          logged := s.logged ++ [(p, b)]
          mine := Function.update s.mine p ((s.mine p).insert b)
          phase := Function.update s.phase p .inside }
  | leave {p : Nat} : s.phase p = .inside → s.log.committing = false → s.log.outstanding ≠ 1 →
      LogMove s (.endOp p)
        { s with log := { s.log with outstanding := s.log.outstanding - 1 }
                 phase := Function.update s.phase p .outside }
  | last {p : Nat} : s.phase p = .inside → s.log.committing = false → s.log.outstanding = 1 →
      LogMove s (.endOp p)
        { s with log := { s.log with outstanding := s.log.outstanding - 1, committing := true }
                 phase := Function.update s.phase p .starting }
  | start {p : Nat} : s.phase p = .starting →
      LogMove s (.commitStep p)
        { s with phase := Function.update s.phase p
                   (if 0 < s.log.block.length then .copying [] else .ending) }
  | copy {p : Nat} {copied : List Word} {b : Word} : s.phase p = .copying copied →
      s.log.block[copied.length]? = some b →
      LogMove s (.commitStep p)
        { s with phase := Function.update s.phase p (.copying (copied ++ [b])) }
  | writeHead {p : Nat} {copied : List Word} : s.phase p = .copying copied →
      s.log.block[copied.length]? = none →
      LogMove s (.commitStep p) { s with phase := Function.update s.phase p (.installing 0) }
  | install {p tail : Nat} : s.phase p = .installing tail →
      LogMove s (.commitStep p)
        { s with phase := Function.update s.phase p (.installing (tail + 1)) }
  | clear {p tail : Nat} : s.phase p = .installing tail →
      LogMove s (.commitStep p)
        { s with log := { s.log with block := [] }, logged := []
                 phase := Function.update s.phase p .clearing }
  | erase {p : Nat} : s.phase p = .clearing →
      LogMove s (.commitStep p) { s with phase := Function.update s.phase p .ending }
  | finish {p : Nat} : s.phase p = .ending →
      LogMove s (.commitStep p)
        { s with log := { s.log with committing := false }
                 phase := Function.update s.phase p .outside }

@[simp] theorem wp_onLog {α : Type} (x : S α) (Q : α → Group → Prop) (F : Fault → Prop)
    (s : Group) : wp (onLog x) Q F s ↔ wp x (fun a l => Q a { s with log := l }) F s.log :=
  wp_zoom ..

@[simp] theorem wp_setPhase (p : Nat) (ph : Phase) (Q : Unit → Group → Prop) (F : Fault → Prop)
    (s : Group) : wp (setPhase p ph) Q F s ↔
      Q () { s with phase := Function.update s.phase p ph } := wp_modify ..

theorem wp_commitStep {p : Nat} {s : Group}
    (h : (s.phase p).InCommit ∨ s.phase p = .ending) :
    wp (commitStep p) (fun _ s' => LogMove s (.commitStep p) s') (fun _ => True) s := by
  unfold commitStep
  rw [wp_bind, wp_get]
  cases hp : s.phase p with
  | outside => rw [hp] at h; rcases h with h | h <;> cases h
  | inside => rw [hp] at h; rcases h with h | h <;> cases h
  | writing b => rw [hp] at h; rcases h with h | h <;> cases h
  | starting =>
    dsimp only
    rw [wp_setPhase]
    exact .start hp
  | copying copied =>
    dsimp only
    cases hb : s.log.block[copied.length]? with
    | none =>
      dsimp only
      rw [wp_setPhase]
      exact .writeHead hp hb
    | some b =>
      dsimp only
      rw [wp_setPhase]
      exact .copy hp hb
  | installing tail =>
    dsimp only
    split
    · rw [wp_setPhase]
      exact .install hp
    · rw [wp_bind, wp_modify, wp_setPhase]
      exact .clear hp
  | clearing =>
    dsimp only
    rw [wp_setPhase]
    exact .erase hp
  | ending =>
    dsimp only
    rw [wp_bind, wp_onLog, wp_modify, wp_setPhase]
    exact .finish hp

theorem LogStep.move {s s' : Group} {e : LogEvent} (h : LogStep s e s') : LogMove s e s' := by
  obtain ⟨hen, hrun⟩ := h
  refine wp_ok (Q := fun _ s' => LogMove s e s') (F := fun _ => True) ?_ hrun
  cases e with
  | beginOp p =>
    rw [LogEvent.run, wp_bind, wp_onLog, beginOp, wp_bind, wp_get]
    split
    · rw [wp_pure, if_neg Bool.false_ne_true, wp_pure]
      exact .sleep
    · next hc =>
      split
      · rw [wp_pure, if_neg Bool.false_ne_true, wp_pure]
        exact .sleep
      · next hroom =>
        rw [wp_bind, wp_set, wp_pure, if_pos rfl, wp_bind, wp_modify, wp_setPhase]
        exact .enter hen (by simpa using hc) (by omega)
  | logCheck p b =>
    rw [LogEvent.run, wp_bind, wp_onLog, logWriteCheck, wp_bind, wp_get]
    split
    · rw [panic, wp_throw]
      trivial
    · split
      · rw [panic, wp_throw]
        trivial
      · rw [wp_pure, wp_setPhase]
        exact .check hen
  | logWrite p =>
    obtain ⟨b, hb⟩ := hen
    have hmove : LogMove s (.logWrite p) _ := .write hb
    rw [LogEvent.run, wp_bind, wp_get, hb]
    dsimp only
    rw [wp_bind, wp_onLog, logWriteLocked, wp_bind, wp_get]
    split
    · next hmem =>
      rw [if_pos hmem] at hmove
      rw [wp_pure, wp_bind, wp_modify, wp_setPhase]
      exact hmove
    · next hmem =>
      split
      · rw [wp_throw]
        trivial
      · rw [if_neg hmem] at hmove
        rw [wp_set, wp_bind, wp_modify, wp_setPhase]
        exact hmove
  | endOp p =>
    rw [LogEvent.run, wp_bind, wp_onLog, endOp, wp_bind, wp_get]
    split
    · rw [panic, wp_throw]
      trivial
    · next hc =>
      split
      · next hlast =>
        rw [wp_bind, wp_set, wp_pure, wp_setPhase]
        exact .last hen (by simpa using hc) (by omega)
      · next hlast =>
        rw [wp_bind, wp_set, wp_pure, wp_setPhase]
        exact .leave hen (by simpa using hc) (by omega)
  | commitStep p => exact wp_commitStep hen

/-! ## The invariant -/

/-- In `commit`, or in `end_op` after it. -/
def Phase.Committer (ph : Phase) : Prop := ph.InCommit ∨ ph = .ending

theorem Phase.InOp.not_committer {ph : Phase} (h : ph.InOp) : ¬ ph.Committer := by
  cases ph with
  | inside => rintro (h | h) <;> cases h
  | writing b => rintro (h | h) <;> cases h
  | _ => cases h

/-- What holds between steps. -/
structure GroupOk (s : Group) : Prop where
  ops : ∃ ps : Finset Nat, (∀ p, p ∈ ps ↔ (s.phase p).InOp) ∧ s.log.outstanding = ps.card
  set : ∀ p, (s.phase p).Committer → s.log.committing = true
  alone : ∀ p q, (s.phase p).Committer → (s.phase q).Committer → p = q
  none : s.log.committing = true → s.log.outstanding = 0
  nodup : s.log.block.Nodup
  recorded : ∀ b, b ∈ s.log.block ↔ ∃ q, (q, b) ∈ s.logged
  copied : ∀ p c, s.phase p = .copying c → c = s.log.block.take c.length
  cleared : ∀ p, s.phase p = .clearing ∨ s.phase p = .ending → s.log.block = []
  fresh : s.log.committing = false → s.log.outstanding = 0 → s.log.block = []

theorem groupOk_init (size : Nat) : GroupOk (.init size) where
  ops := ⟨∅, fun p => ⟨fun h => absurd h (Finset.notMem_empty p), fun h => h.elim⟩, rfl⟩
  set := by rintro p (h | h) <;> cases h
  alone := by rintro p q (h | h) <;> cases h
  none := nofun
  nodup := List.nodup_nil
  recorded := fun b => ⟨fun h => absurd h List.not_mem_nil, fun ⟨_, h⟩ => absurd h List.not_mem_nil⟩
  copied := nofun
  cleared := fun _ _ => rfl
  fresh := fun _ _ => rfl

section

variable {s : Group} {p : Nat} {ph : Phase}

/-- While the log is committing no process is in an operation. -/
theorem GroupOk.not_inOp (h : GroupOk s) (hc : s.log.committing = true) (q : Nat) :
    ¬ (s.phase q).InOp := by
  obtain ⟨ps, hps, hcard⟩ := h.ops
  rw [h.none hc] at hcard
  have hempty : ps = ∅ := Finset.card_eq_zero.mp (by omega)
  rw [← hps q, hempty]
  exact Finset.notMem_empty q

/-- While a process is in an operation the log is not committing. -/
theorem GroupOk.not_committing (h : GroupOk s) (hp : (s.phase p).InOp) :
    s.log.committing = false := by
  cases hc : s.log.committing with
  | false => rfl
  | true => exact absurd hp (h.not_inOp hc p)

theorem GroupOk.no_committer (h : GroupOk s) (hc : s.log.committing = false) (q : Nat) :
    ¬ (s.phase q).Committer := by
  intro hq
  rw [h.set q hq] at hc
  cases hc

/-- The processes in an operation after one changes its phase. -/
theorem inOp_insert {ps : Finset Nat} (hps : ∀ q, q ∈ ps ↔ (s.phase q).InOp) (hph : ph.InOp)
    (q : Nat) : q ∈ insert p ps ↔ (Function.update s.phase p ph q).InOp := by
  rw [Finset.mem_insert, hps q]
  rcases eq_or_ne q p with rfl | hq
  · rw [update_self]
    exact ⟨fun _ => hph, fun _ => .inl rfl⟩
  · rw [update_of_ne hq]
    exact ⟨fun h => h.resolve_left hq, .inr⟩

theorem inOp_erase {ps : Finset Nat} (hps : ∀ q, q ∈ ps ↔ (s.phase q).InOp) (hph : ¬ ph.InOp)
    (q : Nat) : q ∈ ps.erase p ↔ (Function.update s.phase p ph q).InOp := by
  rw [Finset.mem_erase, hps q]
  rcases eq_or_ne q p with rfl | hq
  · rw [update_self]
    exact ⟨fun h => absurd rfl h.1, fun h => absurd h hph⟩
  · rw [update_of_ne hq]
    exact ⟨fun h => h.2, fun h => ⟨hq, h⟩⟩

/-- A phase of another process, or the new one. -/
theorem phase_update {R : Nat → Phase → Prop} (hself : R p ph) (hother : ∀ q, R q (s.phase q))
    (q : Nat) : R q (Function.update s.phase p ph q) := by
  rcases eq_or_ne q p with rfl | hq
  · rw [update_self]
    exact hself
  · rw [update_of_ne hq]
    exact hother q

/-- The committing process goes on. -/
theorem GroupOk.commits (h : GroupOk s) (hp : (s.phase p).Committer) (hph : ph.Committer)
    (hcopied : ∀ c, ph = .copying c → c = s.log.block.take c.length)
    (hcleared : ph = .clearing ∨ ph = .ending → s.log.block = []) :
    GroupOk { s with phase := Function.update s.phase p ph } := by
  have hc := h.set p hp
  have honly : ∀ q, (Function.update s.phase p ph q).Committer → q = p :=
    phase_update (R := fun q ph => ph.Committer → q = p) (fun _ => rfl)
      fun q hq => h.alone q p hq hp
  refine { h with ops := ?_, set := fun _ _ => hc, alone := ?_, copied := ?_, cleared := ?_ }
  · obtain ⟨ps, hps, hcard⟩ := h.ops
    have hne : p ∉ ps := fun hmem => h.not_inOp hc p ((hps p).mp hmem)
    refine ⟨ps, fun q => ?_, hcard⟩
    rw [← inOp_erase (p := p) hps (fun hop => hop.not_committer hph) q,
      Finset.erase_eq_of_notMem hne]
  · intro q r hq hr
    rw [honly q hq, honly r hr]
  · exact phase_update (R := fun _ ph => ∀ c, ph = .copying c → c = s.log.block.take c.length)
      hcopied h.copied
  · exact phase_update (R := fun _ ph => ph = .clearing ∨ ph = .ending → s.log.block = [])
      hcleared h.cleared

/-- A process moves within an operation, or into or out of one, while the log is not
committing. -/
theorem GroupOk.operates {s' : Group} (h : GroupOk s) (hc : s.log.committing = false)
    (hphase : s'.phase = Function.update s.phase p ph) (hph : ¬ ph.Committer)
    (hlog : s'.log.committing = false)
    (hops : ∃ ps : Finset Nat, (∀ q, q ∈ ps ↔ (s'.phase q).InOp) ∧ s'.log.outstanding = ps.card)
    (hnodup : s'.log.block.Nodup) (hrec : ∀ b, b ∈ s'.log.block ↔ ∃ q, (q, b) ∈ s'.logged)
    (hfresh : s'.log.outstanding = 0 → s'.log.block = []) : GroupOk s' := by
  have hnot : ∀ q, ¬ (s'.phase q).Committer := by
    rw [hphase]
    exact phase_update (R := fun _ ph => ¬ ph.Committer) hph (h.no_committer hc)
  exact
    { ops := hops
      set := fun q hq => absurd hq (hnot q)
      alone := fun q r hq _ => absurd hq (hnot q)
      none := fun h => by rw [hlog] at h; cases h
      nodup := hnodup
      recorded := hrec
      copied := fun q c hq => absurd (hq ▸ .inl trivial) (hnot q)
      cleared := fun q hq => absurd (hq.elim (fun h => h ▸ .inl trivial) .inr) (hnot q)
      fresh := fun _ => hfresh }

end

theorem GroupOk.step {s s' : Group} {e : LogEvent} (h : GroupOk s) (hm : LogMove s e s') :
    GroupOk s' := by
  have hops := h.ops
  obtain ⟨ps, hps, hcard⟩ := hops
  have hnotMem : ∀ {p : Nat}, ¬ (s.phase p).InOp → p ∉ ps := fun hp hmem => hp ((hps _).mp hmem)
  cases hm with
  | sleep => exact h
  | @enter p hp hc hroom =>
    have hne : p ∉ ps := hnotMem (by rw [hp]; exact not_false)
    refine h.operates hc rfl (by rintro (h | h) <;> cases h) hc
      ⟨insert p ps, inOp_insert hps trivial, ?_⟩ h.nodup h.recorded ?_
    · rw [Finset.card_insert_of_notMem hne]
      dsimp only
      omega
    · dsimp only
      omega
  | @check p b hp =>
    have hin : (s.phase p).InOp := by rw [hp]; trivial
    refine h.operates (h.not_committing hin) rfl (by rintro (h | h) <;> cases h)
      (h.not_committing hin) ⟨insert p ps, inOp_insert hps trivial, ?_⟩ h.nodup h.recorded
      (h.fresh (h.not_committing hin))
    rw [Finset.insert_eq_of_mem ((hps p).mpr hin)]
    exact hcard
  | @write p b hp =>
    have hin : (s.phase p).InOp := by rw [hp]; trivial
    have hpos : ps.Nonempty := ⟨p, (hps p).mpr hin⟩
    refine h.operates (h.not_committing hin) rfl (by rintro (h | h) <;> cases h)
      (h.not_committing hin) ⟨insert p ps, inOp_insert hps trivial, ?_⟩ ?_ ?_ ?_
    · rw [Finset.insert_eq_of_mem ((hps p).mpr hin)]
      exact hcard
    · dsimp only
      split
      · exact h.nodup
      · next hmem => exact List.nodup_append.mpr ⟨h.nodup, List.nodup_singleton b, by
          rintro c hc d hd rfl
          exact hmem (List.mem_singleton.mp hd ▸ hc)⟩
    · intro c
      have hlog : (∃ q, (q, c) ∈ s.logged ++ [(p, b)]) ↔ c ∈ s.log.block ∨ c = b := by
        rw [h.recorded c]
        simp only [List.mem_append, List.mem_singleton, Prod.mk.injEq, exists_or,
          exists_eq_left]
      rw [hlog]
      dsimp only
      split
      · next hmem => exact ⟨.inl, fun hc => hc.elim id fun hc => hc ▸ hmem⟩
      · rw [List.mem_append, List.mem_singleton]
    · have := Finset.card_pos.mpr hpos
      dsimp only
      omega
  | @leave p hp hc hone =>
    have hin : (s.phase p).InOp := by rw [hp]; trivial
    have hmem := (hps p).mpr hin
    have hpos := Finset.card_pos.mpr ⟨p, hmem⟩
    refine h.operates hc rfl (by rintro (h | h) <;> cases h) hc
      ⟨ps.erase p, inOp_erase hps not_false, ?_⟩ h.nodup h.recorded ?_
    · rw [Finset.card_erase_of_mem hmem]
      dsimp only
      omega
    · dsimp only
      omega
  | @last p hp hc hone =>
    have hin : (s.phase p).InOp := by rw [hp]; trivial
    have hmem := (hps p).mpr hin
    have honly : ∀ q, (Function.update s.phase p .starting q).Committer → q = p :=
      phase_update (R := fun q ph => ph.Committer → q = p) (fun _ => rfl)
        fun q hq => absurd hq (h.no_committer hc q)
    refine
      { ops := ⟨ps.erase p, inOp_erase hps not_false, ?_⟩
        set := fun _ _ => rfl
        alone := fun q r hq hr => by rw [honly q hq, honly r hr]
        none := fun _ => by dsimp only; omega
        nodup := h.nodup
        recorded := h.recorded
        copied := phase_update (R := fun _ ph => ∀ c, ph = .copying c →
          c = s.log.block.take c.length) nofun h.copied
        cleared := phase_update (R := fun _ ph => ph = .clearing ∨ ph = .ending →
          s.log.block = []) (by rintro (h | h) <;> cases h) h.cleared
        fresh := nofun }
    rw [Finset.card_erase_of_mem hmem]
    dsimp only
    omega
  | @start p hp =>
    refine h.commits (by rw [hp]; exact .inl trivial) ?_ ?_ ?_
    · split
      · exact .inl trivial
      · exact .inr rfl
    · intro c
      split
      · rintro ⟨⟩
        rfl
      · nofun
    · split
      · rintro (h | h) <;> cases h
      · next hlen => exact fun _ => List.length_eq_zero_iff.mp (by omega)
  | @copy p copied b hp hb =>
    have hc := h.copied p copied hp
    refine h.commits (by rw [hp]; exact .inl trivial) (.inl trivial) ?_
      (by rintro (h | h) <;> cases h)
    rintro c ⟨⟩
    rw [List.length_append, List.length_singleton, List.take_add_one, hb, ← hc]
    rfl
  | @writeHead p copied hp hb =>
    exact h.commits (by rw [hp]; exact .inl trivial) (.inl trivial) nofun
      (by rintro (h | h) <;> cases h)
  | @install p tail hp =>
    exact h.commits (by rw [hp]; exact .inl trivial) (.inl trivial) nofun
      (by rintro (h | h) <;> cases h)
  | @clear p tail hp =>
    have hcom : (s.phase p).Committer := by rw [hp]; exact .inl trivial
    have honly : ∀ q, (Function.update s.phase p .clearing q).Committer → q = p :=
      phase_update (R := fun q ph => ph.Committer → q = p) (fun _ => rfl)
        fun q hq => h.alone q p hq hcom
    refine
      { ops := ⟨ps.erase p, inOp_erase hps not_false, ?_⟩
        set := fun _ _ => h.set p hcom
        alone := fun q r hq hr => by rw [honly q hq, honly r hr]
        none := h.none
        nodup := List.nodup_nil
        recorded := fun b => ⟨fun h => absurd h List.not_mem_nil,
          fun ⟨_, h⟩ => absurd h List.not_mem_nil⟩
        copied := fun q c hq => ?_
        cleared := fun _ _ => rfl
        fresh := fun _ _ => rfl }
    · rw [Finset.erase_eq_of_notMem (hnotMem fun hin => hin.not_committer hcom)]
      exact hcard
    · dsimp only at hq
      obtain rfl := honly q (hq ▸ .inl trivial)
      rw [update_self] at hq
      cases hq
  | @erase p hp =>
    exact h.commits (by rw [hp]; exact .inl trivial) (.inr rfl) nofun
      fun _ => h.cleared p (.inl hp)
  | @finish p hp =>
    have hcom : (s.phase p).Committer := by rw [hp]; exact .inr rfl
    have hempty := h.cleared p (.inr hp)
    have hnot : ∀ q, ¬ (Function.update s.phase p .outside q).Committer := by
      intro q hq
      rcases eq_or_ne q p with rfl | hne
      · rw [update_self] at hq
        rcases hq with hq | hq <;> cases hq
      · rw [update_of_ne hne] at hq
        exact hne (h.alone q p hq hcom)
    refine
      { ops := ⟨ps.erase p, inOp_erase hps not_false, ?_⟩
        set := fun q hq => absurd hq (hnot q)
        alone := fun q _ hq _ => absurd hq (hnot q)
        none := nofun
        nodup := h.nodup
        recorded := h.recorded
        copied := fun q c (hq : Function.update s.phase p .outside q = .copying c) =>
          absurd (hq ▸ .inl trivial) (hnot q)
        cleared := fun _ _ => hempty
        fresh := fun _ _ => hempty }
    rw [Finset.erase_eq_of_notMem (hnotMem fun hin => hin.not_committer hcom)]
    exact hcard

/-! ## Computing runs -/

instance (s : Group) (e : LogEvent) : Decidable (e.enabled s) :=
  match e with
  | .beginOp p => inferInstanceAs (Decidable (s.phase p = .outside))
  | .logCheck p _ => inferInstanceAs (Decidable (s.phase p = .inside))
  | .logWrite p => match h : s.phase p with
    | .writing b => .isTrue ⟨b, h⟩
    | .outside => .isFalse fun ⟨_, hb⟩ => by rw [h] at hb; cases hb
    | .inside => .isFalse fun ⟨_, hb⟩ => by rw [h] at hb; cases hb
    | .starting => .isFalse fun ⟨_, hb⟩ => by rw [h] at hb; cases hb
    | .copying _ => .isFalse fun ⟨_, hb⟩ => by rw [h] at hb; cases hb
    | .installing _ => .isFalse fun ⟨_, hb⟩ => by rw [h] at hb; cases hb
    | .clearing => .isFalse fun ⟨_, hb⟩ => by rw [h] at hb; cases hb
    | .ending => .isFalse fun ⟨_, hb⟩ => by rw [h] at hb; cases hb
  | .endOp p => inferInstanceAs (Decidable (s.phase p = .inside))
  | .commitStep p =>
    have : Decidable (s.phase p).InCommit := match s.phase p with
      | .starting => .isTrue trivial
      | .copying _ => .isTrue trivial
      | .installing _ => .isTrue trivial
      | .clearing => .isTrue trivial
      | .outside => .isFalse not_false
      | .inside => .isFalse not_false
      | .writing _ => .isFalse not_false
      | .ending => .isFalse not_false
    inferInstanceAs (Decidable ((s.phase p).InCommit ∨ s.phase p = .ending))

/-- The next state, if the event can happen, is allowed and returns. -/
def nextGroup (ok : Group → LogEvent → Bool) (s : Group) (e : LogEvent) : Option Group :=
  if e.enabled s ∧ ok s e then
    match e.run s with
    | .ok ((), s') => some s'
    | .error _ => none
  else none

theorem nextGroup_step (ok : Group → LogEvent → Bool) (s : Group) (e : LogEvent) (s' : Group)
    (h : nextGroup ok s e = some s') : given (fun s e => ok s e = true) LogStep s e s' := by
  unfold nextGroup at h
  split at h
  · next hen =>
    split at h
    · next hrun =>
      obtain rfl := Option.some.inj h
      exact ⟨hen.2, hen.1, hrun⟩
    · cases h
  · cases h

/-! ## Group commit is sound -/

theorem groupOk_of_run {size : Nat} {es : List LogEvent} {s : Group}
    (h : Run LogStep (.init size) es s) : GroupOk s :=
  h.invariant (groupOk_init size) fun _ _ _ hs hstep => hs.step hstep.move

/-- The header is written only when there is no block left to copy. -/
theorem LogMove.copied_all {s s' : Group} {p : Nat} {copied : List Word}
    (hm : LogMove s (.commitStep p) s') (hcopy : s.phase p = .copying copied)
    (hnext : s'.phase p = .installing 0) : s.log.block.length ≤ copied.length := by
  cases hm with
  | copy hp hb =>
    dsimp only at hnext
    rw [update_self] at hnext
    cases hnext
  | writeHead hp hb =>
    rw [hcopy] at hp
    cases hp
    exact List.getElem?_eq_none_iff.mp hb
  | start hp => rw [hcopy] at hp; cases hp
  | install hp => rw [hcopy] at hp; cases hp
  | clear hp => rw [hcopy] at hp; cases hp
  | erase hp => rw [hcopy] at hp; cases hp
  | finish hp => rw [hcopy] at hp; cases hp

/-- In every run of any number of processes: `commit` runs only with no operation
outstanding; while the log is committing no `log_write` completes and a `begin_op`
goes to sleep; the logged blocks are distinct; `end_op` does not find the log
committing; and a commit has all the blocks logged since the log was cleared, with no
operation in progress, every one of them copied before the header is written. -/
theorem group_commit (size : Nat) (es : List LogEvent) (s : Group)
    (hrun : Run LogStep (.init size) es s) :
    (∀ p, (s.phase p).InCommit → s.log.outstanding = 0) ∧
    (s.log.committing = true → ∀ p s', ¬ LogStep s (.logWrite p) s' ∧
      (LogStep s (.beginOp p) s' → s'.phase p = .outside)) ∧
    s.log.block.Nodup ∧
    (∀ p, (LogEvent.endOp p).enabled s →
      (LogEvent.endOp p).run s ≠ .error (.panic "log.committing")) ∧
    ∀ p, (s.phase p).InCommit →
      (∀ q, ¬ (s.phase q).InOp) ∧ (∀ b, b ∈ s.log.block ↔ ∃ q, (q, b) ∈ s.logged) ∧
      ∀ copied s', s.phase p = .copying copied → LogStep s (.commitStep p) s' →
        s'.phase p = .installing 0 → copied = s.log.block := by
  have h := groupOk_of_run hrun
  refine ⟨fun p hp => h.none (h.set p (.inl hp)), fun hc p s' => ⟨?_, ?_⟩, h.nodup, ?_, ?_⟩
  · rintro ⟨⟨b, hb⟩, -⟩
    exact h.not_inOp hc p (by rw [hb]; trivial)
  · intro hstep
    have hen : s.phase p = .outside := hstep.1
    cases hstep.move with
    | sleep => exact hen
    | enter _ hc' _ => rw [hc] at hc'; cases hc'
  · intro p hp herr
    have hin : (s.phase p).InOp := by
      rw [show s.phase p = .inside from hp]
      trivial
    have hc := h.not_committing hin
    have hwp : wp (LogEvent.endOp p).run (fun _ _ => True) (fun _ => False) s := by
      rw [LogEvent.run, wp_bind, wp_onLog, endOp, wp_bind, wp_get, if_neg (by rw [hc]; decide)]
      split
      · rw [wp_bind, wp_set, wp_pure, wp_setPhase]
        trivial
      · rw [wp_bind, wp_set, wp_pure, wp_setPhase]
        trivial
    exact wp_error hwp herr
  · intro p hp
    refine ⟨h.not_inOp (h.set p (.inl hp)), h.recorded, fun copied s' hcopy hstep hnext => ?_⟩
    have htake := h.copied p copied hcopy
    have hall := hstep.move.copied_all hcopy hnext
    rw [htake, List.take_of_length_le hall]

/-- One operation that logs a block, up to its commit. -/
theorem group_commit_one :
    ∃ s, Run LogStep (.init 30) [.beginOp 0, .logCheck 0 7#32, .logWrite 0, .endOp 0] s ∧
      (s.phase 0).InCommit ∧ s.log.block = [7#32] ∧ s.log.outstanding = 0 := by
  obtain ⟨s, hs⟩ := Option.isSome_iff_exists.mp (show (exec (nextGroup fun _ _ => true)
    [.beginOp 0, .logCheck 0 7#32, .logWrite 0, .endOp 0] (.init 30)).isSome = true by decide)
  have hrun : Run LogStep (.init 30) [.beginOp 0, .logCheck 0 7#32, .logWrite 0, .endOp 0] s :=
    (exec_run (nextGroup_step _) hs).mono fun _ _ _ h => h.2
  have hend : (exec (nextGroup fun _ _ => true)
      [.beginOp 0, .logCheck 0 7#32, .logWrite 0, .endOp 0] (.init 30)).map
        (fun s => (s.phase 0, s.log.block)) = some (.starting, [7#32]) := by decide
  rw [hs] at hend
  obtain ⟨hph, hblock⟩ : s.phase 0 = .starting ∧ s.log.block = [7#32] := by simpa using hend
  have hin : (s.phase 0).InCommit := by
    rw [hph]
    trivial
  exact ⟨s, hrun, hin, hblock, (group_commit 30 _ s hrun).1 0 hin⟩

/-! ## Admission -/

/-- Every operation logs at most `k` distinct blocks. -/
def Modest (k : Nat) (s : Group) : LogEvent → Bool
  | .logCheck p b => ((s.mine p).insert b).length ≤ k
  | _ => true

theorem logCheck_panics {s : Group} {p : Nat} {b : Word}
    (h : (s.log.size : Int) - 1 ≤ s.log.block.length) :
    (LogEvent.logCheck p b).run s = .error (.panic "too big a transaction") := by
  have hwp : wp (LogEvent.logCheck p b).run (fun _ _ => False)
      (fun e => e = .panic "too big a transaction") s := by
    rw [LogEvent.run, wp_bind, wp_onLog, logWriteCheck, wp_bind, wp_get, if_pos (.inr h), panic,
      wp_throw]
  cases hrun : (LogEvent.logCheck p b).run s with
  | ok r => exact (wp_ok hwp hrun).elim
  | error e => rw [wp_error hwp hrun]

/-- Ten blocks of one operation, from block `b` on. -/
def logTen (p b : Nat) : List LogEvent :=
  (List.range 10).flatMap fun i => [.logCheck p (BitVec.ofNat 32 (b + i)), .logWrite p]

/-- Three operations log ten blocks each, up to the last one. -/
def fullLog : List LogEvent :=
  [.beginOp 0, .beginOp 1, .beginOp 2] ++ logTen 0 100 ++ logTen 1 200 ++ (logTen 2 300).take 18

/-- Three operations within the limit fill the log up to its last data block, and the
next block is one too many. -/
theorem too_big_a_transaction_of_three_ops :
    ∃ es s, Run (given (fun s e => Modest maxopblocks s e = true) LogStep) (.init logsize) es s ∧
      ∃ p b, (LogEvent.logCheck p b).enabled s ∧ Modest maxopblocks s (.logCheck p b) = true ∧
        (LogEvent.logCheck p b).run s = .error (.panic "too big a transaction") := by
  have hlast : ((exec (nextGroup (Modest maxopblocks)) fullLog (.init logsize)).map fun s =>
      decide ((LogEvent.logCheck 2 309#32).enabled s ∧
        Modest maxopblocks s (.logCheck 2 309#32) = true ∧ s.log.block.length = 29 ∧
        s.log.size = logsize)) = some true := by
    decide +kernel
  obtain ⟨s, hs, hb⟩ := Option.map_eq_some_iff.mp hlast
  obtain ⟨hen, hmod, hlen, hsize⟩ := of_decide_eq_true hb
  refine ⟨fullLog, s, exec_run (nextGroup_step _) hs, 2, 309#32, hen, hmod, ?_⟩
  refine logCheck_panics ?_
  rw [hlen, hsize]
  decide

/-- Blocks reserved by the operations in progress and not logged yet. -/
def reserved (ps : Finset Nat) (mine : Nat → List Word) : Nat :=
  ∑ p ∈ ps, (maxopblocks - (mine p).length)

/-- What admission keeps when every operation logs fewer blocks than it reserves. -/
structure Reserved (s : Group) : Prop where
  size : s.log.size = logsize
  mine_mem : ∀ p, (s.phase p).InOp → ∀ b ∈ s.mine p, b ∈ s.log.block
  mine_le : ∀ p, (s.phase p).InOp → (s.mine p).length ≤ maxopblocks - 1
  writing_le : ∀ p b, s.phase p = .writing b → ((s.mine p).insert b).length ≤ maxopblocks - 1
  room : ∀ ps : Finset Nat, (∀ p, p ∈ ps ↔ (s.phase p).InOp) →
    s.log.block.length + reserved ps s.mine ≤ logsize ∧
      (ps.card = 1 → s.log.block.length + reserved ps s.mine ≤ logsize - 1)

section

variable {s : Group} {p : Nat} {ph : Phase}

theorem reserved_add_erase {ps : Finset Nat} (mine : Nat → List Word) (hp : p ∈ ps) :
    (maxopblocks - (mine p).length) + reserved (ps.erase p) mine = reserved ps mine :=
  Finset.add_sum_erase ps (fun q => maxopblocks - (mine q).length) hp

theorem reserved_le (ps : Finset Nat) (mine : Nat → List Word) :
    reserved ps mine ≤ ps.card * maxopblocks := by
  refine Finset.sum_le_card_nsmul ps _ maxopblocks fun q _ => ?_
  exact Nat.sub_le ..

/-- The blocks of one process do not count for the others. -/
theorem reserved_update {ps : Finset Nat} (mine : Nat → List Word) (bs : List Word) (hp : p ∉ ps) :
    reserved ps (Function.update mine p bs) = reserved ps mine := by
  refine Finset.sum_congr rfl fun q hq => ?_
  have hne : q ≠ p := fun heq => hp (heq ▸ hq)
  rw [update_of_ne hne]

theorem inOp_update_iff (ph : Phase) (hph : ph.InOp ↔ (s.phase p).InOp) (q : Nat) :
    (Function.update s.phase p ph q).InOp ↔ (s.phase q).InOp :=
  phase_update (R := fun q ph => ph.InOp ↔ (s.phase q).InOp) hph (fun _ => Iff.rfl) q

/-- A step of the committing process, which is in no operation. -/
theorem Reserved.commits (h : Reserved s) (hp : ¬ (s.phase p).InOp) (hph : ¬ ph.InOp) :
    Reserved { s with phase := Function.update s.phase p ph } := by
  have hiff := inOp_update_iff (s := s) (p := p) ph (iff_of_false hph hp)
  refine ⟨h.size, fun q hq => h.mine_mem q ((hiff q).mp hq),
    fun q hq => h.mine_le q ((hiff q).mp hq), ?_, fun ps hps => h.room ps fun q => (hps q).trans (hiff q)⟩
  refine phase_update (R := fun q ph => ∀ b, ph = .writing b →
    ((s.mine q).insert b).length ≤ maxopblocks - 1) ?_ h.writing_le
  rintro b rfl
  exact absurd trivial hph

/-- An admitted operation, within the limit that `begin_op` checked. -/
theorem Reserved.enter (h : Reserved s) (hok : GroupOk s) (hp : s.phase p = .outside)
    (hc : s.log.committing = false)
    (hroom : s.log.block.length + (s.log.outstanding + 1) * maxopblocks ≤ logsize) :
    Reserved { s with log := { s.log with outstanding := s.log.outstanding + 1 }
                      mine := Function.update s.mine p []
                      phase := Function.update s.phase p .inside } := by
  have hne : ∀ q, (s.phase q).InOp → q ≠ p := by
    rintro q hq rfl
    rw [hp] at hq
    exact hq
  refine ⟨h.size, ?_, ?_, ?_, ?_⟩
  · intro q hq b hb
    rcases eq_or_ne q p with rfl | hqp
    · dsimp only at hb
      rw [update_self] at hb
      cases hb
    · dsimp only at hb hq
      rw [update_of_ne hqp] at hb hq
      exact h.mine_mem q hq b hb
  · intro q hq
    rcases eq_or_ne q p with rfl | hqp
    · dsimp only
      rw [update_self]
      exact Nat.zero_le _
    · dsimp only at hq ⊢
      rw [update_of_ne hqp] at hq ⊢
      exact h.mine_le q hq
  · intro q b hq
    rcases eq_or_ne q p with rfl | hqp
    · dsimp only at hq
      rw [update_self] at hq
      cases hq
    · dsimp only at hq ⊢
      rw [update_of_ne hqp] at hq ⊢
      exact h.writing_le q b hq
  · intro ps' hps'
    dsimp only at hps' ⊢
    obtain ⟨ps, hps, hcard⟩ := hok.ops
    have hpmem : p ∉ ps := fun hmem => hne p ((hps p).mp hmem) rfl
    -- the operations in progress are those before and the new one
    obtain rfl : ps' = insert p ps := by
      ext q
      exact (hps' q).trans (@inOp_insert s p .inside ps hps trivial q).symm
    have hsum := reserved_add_erase (Function.update s.mine p []) (Finset.mem_insert_self p ps)
    rw [Finset.erase_insert hpmem, update_self, reserved_update s.mine [] hpmem] at hsum
    have hle := reserved_le ps s.mine
    have hmax : maxopblocks = 10 := rfl
    have hsize := logsize_eq
    rw [hcard, hmax] at hroom
    rw [← hsum, hmax, List.length_nil]
    rw [hmax] at hle
    refine ⟨by omega, fun hone => ?_⟩
    rw [Finset.card_insert_of_notMem hpmem] at hone
    have hempty := hok.fresh hc (by omega)
    rw [hempty, List.length_nil]
    omega

/-- A completed `log_write` uses up at most what its operation reserved. -/
theorem Reserved.write (h : Reserved s) {b : Word} (hp : s.phase p = .writing b) :
    Reserved
      { log := { s.log with block := if b ∈ s.log.block then s.log.block else s.log.block ++ [b] }
        logged := s.logged ++ [(p, b)]
        mine := Function.update s.mine p ((s.mine p).insert b)
        phase := Function.update s.phase p .inside } := by
  have hin : (s.phase p).InOp := by
    rw [hp]
    trivial
  have hiff := inOp_update_iff (s := s) (p := p) .inside (iff_of_true trivial hin)
  have hgrow : ∀ c ∈ s.log.block,
      c ∈ (if b ∈ s.log.block then s.log.block else s.log.block ++ [b]) := by
    intro c hc
    split
    · exact hc
    · exact List.mem_append_left _ hc
  have hb : b ∈ (if b ∈ s.log.block then s.log.block else s.log.block ++ [b]) := by
    split
    · assumption
    · exact List.mem_append_right _ (List.mem_singleton_self b)
  have hle := h.writing_le p b hp
  refine ⟨h.size, ?_, ?_, ?_, ?_⟩
  · intro q hq c hc
    have hq' := (hiff q).mp hq
    dsimp only at hc ⊢
    rcases eq_or_ne q p with rfl | hqp
    · rw [update_self, List.mem_insert_iff] at hc
      rcases hc with rfl | hc
      · exact hb
      · exact hgrow c (h.mine_mem q hq' c hc)
    · rw [update_of_ne hqp] at hc
      exact hgrow c (h.mine_mem q hq' c hc)
  · intro q hq
    have hq' := (hiff q).mp hq
    dsimp only
    rcases eq_or_ne q p with rfl | hqp
    · rw [update_self]
      exact hle
    · rw [update_of_ne hqp]
      exact h.mine_le q hq'
  · intro q c hq
    dsimp only at hq ⊢
    rcases eq_or_ne q p with rfl | hqp
    · rw [update_self] at hq
      cases hq
    · rw [update_of_ne hqp] at hq ⊢
      exact h.writing_le q c hq
  · intro ps hps
    dsimp only at hps ⊢
    have hps' : ∀ q, q ∈ ps ↔ (s.phase q).InOp := fun q => (hps q).trans (hiff q)
    have hmem := (hps' p).mpr hin
    have hold := reserved_add_erase s.mine hmem
    have hnew := reserved_add_erase (Function.update s.mine p ((s.mine p).insert b)) hmem
    rw [update_self, reserved_update _ _ (Finset.notMem_erase p ps)] at hnew
    have hroom := h.room ps hps'
    have hmax : maxopblocks = 10 := rfl
    have hmine : (s.mine p).length ≤ ((s.mine p).insert b).length := List.length_le_length_insert
    split
    · refine ⟨by omega, fun hone => ?_⟩
      have := hroom.2 hone
      omega
    · next hnot =>
      -- a block new to the log is new to the operation
      have hlen : ((s.mine p).insert b).length = (s.mine p).length + 1 :=
        List.length_insert_of_not_mem fun hc => hnot (h.mine_mem p hin b hc)
      rw [List.length_append, List.length_singleton]
      refine ⟨by omega, fun hone => ?_⟩
      have := hroom.2 hone
      omega

end

/-- An operation ends, and what it reserved and did not log is free. -/
theorem Reserved.leave {s s' : Group} {p : Nat} (ph : Phase) (h : Reserved s)
    (hp : s.phase p = .inside) (hph : ¬ ph.InOp)
    (hphase : s'.phase = Function.update s.phase p ph) (hmine : s'.mine = s.mine)
    (hblock : s'.log.block = s.log.block) (hsize : s'.log.size = s.log.size) : Reserved s' := by
  have hin : (s.phase p).InOp := by
    rw [hp]
    trivial
  have hold : ∀ q, (s'.phase q).InOp → (s.phase q).InOp := by
    rw [hphase]
    exact phase_update (R := fun q ph => ph.InOp → (s.phase q).InOp) (fun h => absurd h hph)
      fun _ h => h
  refine ⟨hsize.trans h.size, ?_, ?_, ?_, ?_⟩
  · intro q hq
    rw [hmine, hblock]
    exact h.mine_mem q (hold q hq)
  · intro q hq
    rw [hmine]
    exact h.mine_le q (hold q hq)
  · rw [hphase, hmine]
    refine phase_update (R := fun q ph => ∀ b, ph = .writing b →
      ((s.mine q).insert b).length ≤ maxopblocks - 1) ?_ h.writing_le
    rintro b rfl
    exact absurd trivial hph
  · intro ps' hps'
    rw [hphase] at hps'
    rw [hmine, hblock]
    -- the operations before are those after and the one that ended
    have hnot : p ∉ ps' := fun hmem => by
      have := (hps' p).mp hmem
      rw [update_self] at this
      exact hph this
    have hps : ∀ q, q ∈ insert p ps' ↔ (s.phase q).InOp := by
      intro q
      rw [Finset.mem_insert, hps' q]
      rcases eq_or_ne q p with rfl | hqp
      · exact iff_of_true (.inl rfl) hin
      · rw [update_of_ne hqp]
        exact ⟨fun h => h.resolve_left hqp, .inr⟩
    have hroom := (h.room _ hps).1
    have hsum := reserved_add_erase s.mine (Finset.mem_insert_self p ps')
    rw [Finset.erase_insert hnot] at hsum
    have hle := h.mine_le p hin
    have hmax : maxopblocks = 10 := rfl
    have hlog := logsize_eq
    exact ⟨by omega, fun _ => by omega⟩

theorem Reserved.step {s s' : Group} {e : LogEvent} (h : Reserved s) (hok : GroupOk s)
    (hmod : Modest (maxopblocks - 1) s e = true) (hm : LogMove s e s') : Reserved s' := by
  have hout : ∀ {p : Nat} {ph : Phase}, s.phase p = ph → ¬ ph.InOp → ¬ (s.phase p).InOp :=
    fun hp hph => by rw [hp]; exact hph
  cases hm with
  | sleep => exact h
  | enter hp hc hroom => exact h.enter hok hp hc hroom
  | @check p b hp =>
    have hin : (s.phase p).InOp := by
      rw [hp]
      trivial
    have hiff := inOp_update_iff (s := s) (p := p) (.writing b) (iff_of_true trivial hin)
    refine ⟨h.size, fun q hq => h.mine_mem q ((hiff q).mp hq),
      fun q hq => h.mine_le q ((hiff q).mp hq), ?_,
      fun ps hps => h.room ps fun q => (hps q).trans (hiff q)⟩
    refine phase_update (R := fun q ph => ∀ b, ph = .writing b →
      ((s.mine q).insert b).length ≤ maxopblocks - 1) ?_ h.writing_le
    rintro c ⟨⟩
    exact of_decide_eq_true hmod
  | write hp => exact h.write hp
  | leave hp _ _ => exact h.leave .outside hp not_false rfl rfl rfl rfl
  | last hp _ _ => exact h.leave .starting hp not_false rfl rfl rfl rfl
  | start hp =>
    refine h.commits (hout hp not_false) ?_
    split <;> exact not_false
  | copy hp _ => exact h.commits (hout hp not_false) not_false
  | writeHead hp _ => exact h.commits (hout hp not_false) not_false
  | install hp => exact h.commits (hout hp not_false) not_false
  | clear hp =>
    -- no operation is in progress, so the log may be emptied
    have hc : s.log.committing = true := hok.set _ (by rw [hp]; exact .inl trivial)
    have hnone := hok.not_inOp hc
    have hkept : Reserved { s with phase := Function.update s.phase _ .clearing } :=
      h.commits (hout hp not_false) not_false
    have hiff := inOp_update_iff (s := s) .clearing
      (iff_of_false not_false (hout hp not_false))
    refine ⟨h.size, fun q hq => absurd ((hiff q).mp hq) (hnone q), hkept.mine_le,
      hkept.writing_le, fun ps hps => ?_⟩
    have hroom := hkept.room ps hps
    dsimp only at hroom ⊢
    rw [List.length_nil]
    exact ⟨by omega, fun hone => by have := hroom.2 hone; omega⟩
  | erase hp => exact h.commits (hout hp not_false) not_false
  | finish hp =>
    have hkept : Reserved { s with phase := Function.update s.phase _ .outside } :=
      h.commits (hout hp not_false) not_false
    exact ⟨hkept.size, hkept.mine_mem, hkept.mine_le, hkept.writing_le, hkept.room⟩

theorem reserved_init : Reserved (.init logsize) := by
  refine ⟨rfl, fun _ h => h.elim, fun _ h => h.elim, nofun, fun ps hps => ?_⟩
  obtain rfl : ps = ∅ := Finset.eq_empty_of_forall_notMem fun q hq => (hps q).mp hq
  exact ⟨Nat.zero_le _, fun _ => Nat.zero_le _⟩

/-- When every operation logs fewer than `MAXOPBLOCKS` distinct blocks, `log_write` does
not find the log full. -/
theorem log_admission_sound (es : List LogEvent) (s : Group)
    (hrun : Run (given (fun s e => Modest (maxopblocks - 1) s e = true) LogStep)
      (.init logsize) es s) (p : Nat) (b : Word) (hen : (LogEvent.logCheck p b).enabled s) :
    (LogEvent.logCheck p b).run s ≠ .error (.panic "too big a transaction") := by
  have hboth := hrun.invariant (I := fun s => GroupOk s ∧ Reserved s)
    ⟨groupOk_init _, reserved_init⟩ fun _ _ _ h hstep =>
      ⟨h.1.step hstep.2.move, h.2.step h.1 hstep.1 hstep.2.move⟩
  obtain ⟨hok, hres⟩ := hboth
  have hin : (s.phase p).InOp := by
    rw [show s.phase p = .inside from hen]
    trivial
  obtain ⟨ps, hps, hcard⟩ := hok.ops
  have hmem := (hps p).mpr hin
  have hroom := hres.room ps hps
  -- each operation in progress still has a block in reserve
  have hsum : ps.card ≤ reserved ps s.mine := by
    rw [Finset.card_eq_sum_ones]
    refine Finset.sum_le_sum fun q hq => ?_
    have hle := hres.mine_le q ((hps q).mp hq)
    have hmax : maxopblocks = 10 := rfl
    omega
  have hpos := Finset.card_pos.mpr ⟨p, hmem⟩
  have hlog := logsize_eq
  have hlen : s.log.block.length ≤ 28 := by
    rcases Nat.lt_or_ge 1 ps.card with hc | hc
    · have := hroom.1
      omega
    · have := hroom.2 (by omega)
      omega
  have hwp : wp (LogEvent.logCheck p b).run (fun _ _ => True)
      (fun e => e ≠ .panic "too big a transaction") s := by
    rw [LogEvent.run, wp_bind, wp_onLog, logWriteCheck, wp_bind, wp_get,
      if_neg (by rw [hres.size]; omega)]
    split
    · rw [panic, wp_throw]
      decide
    · rw [wp_pure, wp_setPhase]
      trivial
  exact fun herr => wp_error hwp herr rfl

/-- The same three operations with nine blocks each. -/
theorem log_admission_sound_three :
    ∃ s, Run (given (fun s e => Modest (maxopblocks - 1) s e = true) LogStep) (.init logsize)
      [.beginOp 0, .beginOp 1, .beginOp 2, .logCheck 0 100#32, .logWrite 0] s ∧
      (LogEvent.logCheck 0 101#32).run s ≠ .error (.panic "too big a transaction") := by
  have hlast : ((exec (nextGroup (Modest (maxopblocks - 1)))
      [.beginOp 0, .beginOp 1, .beginOp 2, .logCheck 0 100#32, .logWrite 0] (.init logsize)).map
        fun s => decide ((LogEvent.logCheck 0 101#32).enabled s)) = some true := by
    decide
  obtain ⟨s, hs, hb⟩ := Option.map_eq_some_iff.mp hlast
  have hrun := exec_run (nextGroup_step _) hs
  exact ⟨s, hrun, log_admission_sound _ s hrun 0 101#32 (of_decide_eq_true hb)⟩

end Xv6
