import Xv6.Sync.Ptable

/-!
# The life cycle of a process

Two invariants.  `Placed` relates the processors, `ptable.lock` and the `RUNNING`
processes.  `Family` is about the slots taken by a `fork` in progress and the parent
pointers.  `Ptable.Ok` is both, and every step keeps it.
-/

namespace Xv6

open Function

variable {np x q i p : Slot} {e : TEvent} {k : Pc} {b a : PSlot} {qs : List Slot} {t : Ptable}
  {pid : Word}

/-- The slot that a process has taken for a child. -/
def Stage.child : Stage → Option Slot
  | .idle => none
  | .forking np => some np
  | .forked np => some np

/-- The slot whose parent pointer has been set as well. -/
def Stage.adopted : Stage → Option Slot
  | .forked np => some np
  | _ => none

theorem Stage.child_of_adopted {k : Stage} (h : k.adopted = some np) : k.child = some np := by
  cases k <;> simp_all [Stage.adopted, Stage.child]

/-- A process inside `fork` may have been made to yield. -/
def Pc.stage : Pc → Stage
  | .at k => k
  | .yielding k => k
  | .yielded k => k
  | _ => .idle

/-- The states between birth and exit. -/
def ProcState.alive : ProcState → Bool
  | .sleeping => true
  | .runnable => true
  | .running => true
  | _ => false

/-- Who is on which processor, and who holds `ptable.lock`. -/
structure Ptable.Placed (s : Ptable) : Prop where
  sched : ∀ c, (s.cpu c).ctx = .locked ∨ (s.cpu c).ctx = .back → s.lock = some c
  lock : ∀ c p, (s.cpu c).ctx = .run p → (s.pc p).holdsTable → s.lock = some c
  off : ∀ c, (s.cpu c).ctx = .idle ∨ (s.cpu c).ctx = .locked → (s.cpu c).proc = none
  cur : ∀ c p, (s.cpu c).ctx = .run p → (s.cpu c).proc = some p
  running : ∀ c p, (s.cpu c).ctx = .run p → (s.proc p).state = .running
  unique : ∀ c c' p, (s.cpu c).ctx = .run p → (s.cpu c').ctx = .run p → c = c'
  onCpu : ∀ p, (s.proc p).state = .running → ∃ c, (s.cpu c).ctx = .run p

/-- Children in the making, and parents. -/
structure Ptable.Family (s : Ptable) : Prop where
  child : ∀ p np, (s.pc p).stage.child = some np → (s.proc np).state = .embryo
  forker : ∀ p q np, (s.pc p).stage.child = some np → (s.pc q).stage.child = some np → p = q
  busy : ∀ p np, (s.pc p).stage.child = some np →
    (s.proc p).state = .runnable ∨ (s.proc p).state = .running
  adopted : ∀ p np, (s.pc p).stage.adopted = some np → (s.proc np).parent ≠ none
  parent : ∀ p q, (s.proc p).parent = some q → (s.proc q).state.alive
  kids : ∀ p ≠ s.initproc, (s.proc p).state ≠ .unused → (s.proc p).state ≠ .embryo →
    (s.proc p).parent ≠ none
  init : (s.proc s.initproc).state.alive

structure Ptable.Ok (s : Ptable) : Prop extends s.Placed, s.Family

variable {s s' : Ptable} {c : Nat}

theorem Ptable.Start.stage (h : s.Start) (p : Slot) : (s.pc p).stage = .idle := by
  by_cases hi : p = s.initproc
  · rw [hi, h.born]; rfl
  · rw [h.pcs p hi]; rfl

theorem Ptable.Start.slot (h : s.Start) (p : Slot) :
    (s.proc p).state ≠ .running ∧ (s.proc p).parent = none := by
  by_cases hi : p = s.initproc
  · simp [hi, h.init]
  · simp [h.rest p hi]

theorem Ptable.Start.ok (h : s.Start) : s.Ok where
  sched c hc := by simp [h.cpu c] at hc
  lock c p hc := by simp [h.cpu c] at hc
  off c _ := by rw [h.cpu c]
  cur c p hc := by simp [h.cpu c] at hc
  running c p hc := by simp [h.cpu c] at hc
  unique c c' p hc := by simp [h.cpu c] at hc
  onCpu p hp := absurd hp (h.slot p).1
  child p np hp := by simp [h.stage, Stage.child] at hp
  forker p q np hp := by simp [h.stage, Stage.child] at hp
  busy p np hp := by simp [h.stage, Stage.child] at hp
  adopted p np hp := by simp [h.stage, Stage.adopted] at hp
  parent p q hp := by simp [(h.slot p).2] at hp
  kids p hi h1 := by simp [h.rest p hi] at h1
  init := by rw [h.init]; rfl

/-! ## Processors and the lock -/

/-- While the lock is free, the current process of a processor is the one it runs. -/
theorem Ptable.Placed.current (h : s.Placed) (hl : s.lock = none) (hc : (s.cpu c).proc = some p) :
    (s.cpu c).ctx = .run p := by
  cases hctx : (s.cpu c).ctx with
  | idle => simp [h.off c (.inl hctx)] at hc
  | locked => simp [h.off c (.inr hctx)] at hc
  | back => simp [h.sched c (.inr hctx)] at hl
  | run q =>
    rw [h.cur c q hctx] at hc
    rw [Option.some.inj hc]

/-- No processor changes what it runs, and only processor `c` may take or leave the lock. -/
theorem Ptable.Placed.stay (h : s.Placed) (hc : (s.cpu c).ctx = .run p) (hcpu : s'.cpu = s.cpu)
    (hpc : ∀ c' q, c' ≠ c → (s.cpu c').ctx = .run q → (s'.pc q).holdsTable → (s.pc q).holdsTable)
    (hk : (s'.pc p).holdsTable → s'.lock = some c)
    (hl : ∀ c' ≠ c, s.lock = some c' → s'.lock = some c')
    (hst : ∀ q, (s'.proc q).state = .running ↔ (s.proc q).state = .running) : s'.Placed where
  sched c' hh := by
    rw [hcpu] at hh
    exact hl c' (by rintro rfl; simp [hc] at hh) (h.sched c' hh)
  lock c' q hq hh := by
    rw [hcpu] at hq
    by_cases hcc : c' = c
    · subst hcc
      obtain rfl : p = q := by simpa [hc] using hq
      exact hk hh
    · exact hl c' hcc (h.lock c' q hq (hpc c' q hcc hq hh))
  off := hcpu ▸ h.off
  cur := hcpu ▸ h.cur
  running c' q hq := (hst q).mpr (h.running c' q (hcpu ▸ hq))
  unique := hcpu ▸ h.unique
  onCpu q hq := hcpu ▸ h.onCpu q ((hst q).mp hq)

/-- Processor `c`, which has the lock or takes it, changes what it runs. -/
theorem Ptable.Placed.turn (h : s.Placed) (hcpu : ∀ c' ≠ c, s'.cpu c' = s.cpu c')
    (hlock : ∀ c' ≠ c, s.lock ≠ some c')
    (hrest : ∀ c' ≠ c, ∀ q, (s.cpu c').ctx = .run q →
      s'.pc q = s.pc q ∧ (s'.proc q).state = (s.proc q).state)
    (hsched : (s'.cpu c).ctx = .locked ∨ (s'.cpu c).ctx = .back → s'.lock = some c)
    (hoff : (s'.cpu c).ctx = .idle ∨ (s'.cpu c).ctx = .locked → (s'.cpu c).proc = none)
    (hrun : ∀ q, (s'.cpu c).ctx = .run q → s'.lock = some c ∧ (s'.cpu c).proc = some q ∧
      (s'.proc q).state = .running ∧ ∀ c', (s.cpu c').ctx ≠ .run q)
    (hon : ∀ q, (s'.proc q).state = .running →
      (s'.cpu c).ctx = .run q ∨ (s.proc q).state = .running ∧ (s.cpu c).ctx ≠ .run q) :
    s'.Placed := by
  constructor
  · intro c' hh
    by_cases hcc : c' = c
    · subst hcc; exact hsched hh
    · exact absurd (h.sched c' (hcpu c' hcc ▸ hh)) (hlock c' hcc)
  · intro c' q hq hh
    by_cases hcc : c' = c
    · subst hcc; exact (hrun q hq).1
    · rw [hcpu c' hcc] at hq
      exact absurd (h.lock c' q hq ((hrest c' hcc q hq).1 ▸ hh)) (hlock c' hcc)
  · intro c' hh
    by_cases hcc : c' = c
    · subst hcc; exact hoff hh
    · rw [hcpu c' hcc] at hh ⊢
      exact h.off c' hh
  · intro c' q hq
    by_cases hcc : c' = c
    · subst hcc; exact (hrun q hq).2.1
    · rw [hcpu c' hcc] at hq ⊢
      exact h.cur c' q hq
  · intro c' q hq
    by_cases hcc : c' = c
    · subst hcc; exact (hrun q hq).2.2.1
    · rw [hcpu c' hcc] at hq
      rw [(hrest c' hcc q hq).2]
      exact h.running c' q hq
  · intro c1 c2 q h1 h2
    by_contra hne
    by_cases hc1 : c1 = c
    · subst hc1
      rw [hcpu c2 (Ne.symm hne)] at h2
      exact (hrun q h1).2.2.2 c2 h2
    · rw [hcpu c1 hc1] at h1
      by_cases hc2 : c2 = c
      · subst hc2; exact (hrun q h2).2.2.2 c1 h1
      · rw [hcpu c2 hc2] at h2
        exact hne (h.unique c1 c2 q h1 h2)
  · intro q hq
    obtain hr | ⟨hr, hn⟩ := hon q hq
    · exact ⟨c, hr⟩
    · obtain ⟨c', hc'⟩ := h.onCpu q hr
      have hcc : c' ≠ c := fun he => hn (he ▸ hc')
      exact ⟨c', by rw [hcpu c' hcc]; exact hc'⟩

/-- A process gives its processor and the lock to the scheduler. -/
theorem Ptable.Placed.switch {f : PSlot → PSlot} (h : s.Placed) (hc : (s.cpu c).ctx = .run p)
    (hl : s.lock = some c) (hf : (f (s.proc p)).state ≠ .running) : (s.switch c p k f).Placed := by
  refine h.turn (c := c) ?_ ?_ ?_ (fun _ => hl) (by simp) (by simp) ?_
  · intro c' hne
    simp [hne]
  · intro c' hne he
    exact hne (Option.some.inj (he.symm.trans hl))
  · intro c' hne q hq
    have hqp : q ≠ p := by
      rintro rfl
      exact hne (h.unique c' c q hq hc)
    simp [hqp]
  · intro q hq
    have hqp : q ≠ p := by
      rintro rfl
      simp [hf] at hq
    simp only [Ptable.switch, Ptable.setCpu, Ptable.setPc, Ptable.setProc,
      update_of_ne hqp] at hq
    exact .inr ⟨hq, by rw [hc]; simpa using Ne.symm hqp⟩

/-! ## Parents and children -/

/-- What is kept of a slot while no process is born or dies: its parent, unless it is passed
to `init`, and whether it is alive. -/
structure PSlot.Near (i : Slot) (a b : PSlot) : Prop where
  parent : b.parent = a.parent ∨ a.parent ≠ none ∧ b.parent = some i
  state : b.state = a.state ∨ a.state.alive ∧ b.state.alive

theorem PSlot.Near.refl (i : Slot) (a : PSlot) : a.Near i a := ⟨.inl rfl, .inl rfl⟩

theorem PSlot.Near.alive (h : a.Near i b) : b.state.alive = a.state.alive := by
  obtain h | ⟨ha, hb⟩ := h.state
  · rw [h]
  · rw [ha, hb]

theorem PSlot.Near.orphan (h : a.Near i b) (ha : a.parent ≠ none) : b.parent ≠ none := by
  obtain h | ⟨-, h⟩ := h.parent
  · rwa [h]
  · simp [h]

/-- No process is born or dies. -/
theorem Ptable.Family.keep (h : s.Family) (hproc : ∀ q, (s.proc q).Near s.initproc (s'.proc q))
    (hinit : s'.initproc = s.initproc) (hpc : ∀ q, (s'.pc q).stage = (s.pc q).stage)
    (hbusy : ∀ q np, (s.pc q).stage.child = some np →
      (s'.proc q).state = .runnable ∨ (s'.proc q).state = .running) : s'.Family := by
  have hdead : ∀ q st, st.alive = false → ((s'.proc q).state = st ↔ (s.proc q).state = st) := by
    intro q st hst
    have := (hproc q).state
    grind
  constructor
  · intro q np hq
    rw [hpc] at hq
    exact (hdead np _ rfl).mpr (h.child q np hq)
  · intro q r np hq hr
    rw [hpc] at hq hr
    exact h.forker q r np hq hr
  · intro q np hq
    rw [hpc] at hq
    exact hbusy q np hq
  · intro q np hq
    rw [hpc] at hq
    exact (hproc np).orphan (h.adopted q np hq)
  · intro q r hq
    rw [(hproc r).alive]
    obtain he | ⟨-, he⟩ := (hproc q).parent
    · exact h.parent q r (he ▸ hq)
    · obtain rfl : s.initproc = r := Option.some.inj (he ▸ hq)
      exact h.init
  · intro q hq h1 h2
    rw [hinit] at hq
    exact (hproc q).orphan
      (h.kids q hq (mt (hdead q _ rfl).mpr h1) (mt (hdead q _ rfl).mpr h2))
  · rw [hinit, (hproc _).alive]
    exact h.init

/-! ## Steps of a process on its processor -/

/-- Sleeping processes may have been woken and children passed to `init`. -/
structure PSlot.Stirred (i : Slot) (a b : PSlot) : Prop where
  parent : b.parent = a.parent ∨ a.parent ≠ none ∧ b.parent = some i
  state : b.state = a.state ∨ a.state = .sleeping ∧ b.state = .runnable

theorem PSlot.Stirred.refl (i : Slot) (a : PSlot) : a.Stirred i a := ⟨.inl rfl, .inl rfl⟩

theorem PSlot.Stirred.near (h : a.Stirred i b) : a.Near i b := by
  refine ⟨h.parent, ?_⟩
  obtain hs | ⟨ha, hb⟩ := h.state
  · exact .inl hs
  · exact .inr (by rw [ha, hb]; decide)

theorem PSlot.Stirred.trans {d : PSlot} (h : a.Stirred i b) (h' : b.Stirred i d) :
    a.Stirred i d := by
  obtain ⟨hp, hs⟩ := h
  obtain ⟨hp', hs'⟩ := h'
  constructor <;> grind

theorem Ptable.stirred_wakeup1 (s : Ptable) (chan : Option Chan) (i q : Slot) :
    (s.proc q).Stirred i ((s.wakeup1 chan).proc q) := by
  simp only [Ptable.wakeup1]
  split
  · rename_i hq
    exact ⟨.inl rfl, .inr ⟨hq.1, rfl⟩⟩
  · exact .refl i _

theorem Ptable.stirred_kill (s : Ptable) (pid : Word) (i q : Slot) :
    (s.proc q).Stirred i ((s.kill pid).1.proc q) := by
  unfold Ptable.kill
  split
  · exact .refl i _
  · rename_i r _
    by_cases hq : q = r
    · subst hq
      refine ⟨.inl (by simp), ?_⟩
      by_cases hs : (s.proc q).state = .sleeping <;> simp [hs]
    · simpa [hq] using .refl i _

/-- Clearing `chan`. -/
theorem Ptable.stirred_chan (s : Ptable) (p i q : Slot) :
    (s.proc q).Stirred i ((s.setProc p fun pr => { pr with chan := none }).proc q) := by
  by_cases hq : q = p
  · subst hq
    exact ⟨.inl (by simp), .inl (by simp)⟩
  · simpa [hq] using .refl i _

section

variable (h : s.Ok) (hc : (s.cpu c).ctx = .run p)
include h hc

/-- A process moves on. -/
theorem Ptable.Ok.move
    (hproc : ∀ q, (s.proc q).Stirred s.initproc (s'.proc q))
    (hpc : s'.pc = Function.update s.pc p k) (hcpu : s'.cpu = s.cpu)
    (hinit : s'.initproc = s.initproc) (hk : k.holdsTable → s'.lock = some c)
    (hl : ∀ c' ≠ c, s.lock = some c' → s'.lock = some c') (hstage : k.stage = (s.pc p).stage) :
    s'.Ok where
  toPlaced := by
    refine h.stay hc hcpu ?_ (by simpa [hpc] using hk) hl ?_
    · intro c' q hne hq
      have hqp : q ≠ p := by
        rintro rfl
        exact hne (h.unique c' c q hq hc)
      rw [hpc, update_of_ne hqp]
      exact id
    · intro q
      have := (hproc q).state
      grind
  toFamily := by
    refine h.keep (fun q => (hproc q).near) hinit ?_ ?_
    · intro q
      by_cases hq : q = p
      · rw [hpc, hq, update_self, hstage]
      · rw [hpc, update_of_ne hq]
    · intro q np hq
      have := h.busy q np hq
      have := (hproc q).state
      grind

/-- A process takes `ptable.lock`. -/
theorem Ptable.Ok.take (hl : s.lock = none)
    (hstage : k.stage = (s.pc p).stage) : ({ s with lock := some c }.setPc p k).Ok :=
  h.move hc (fun _ => .refl _ _) rfl rfl rfl (fun _ => rfl) (by simp [hl]) hstage

/-- A process goes on with `ptable.lock` held or without it. -/
theorem Ptable.Ok.walk
    (hproc : ∀ q, (s.proc q).Stirred s.initproc (s'.proc q))
    (hpc : s'.pc = Function.update s.pc p k) (hcpu : s'.cpu = s.cpu)
    (hinit : s'.initproc = s.initproc) (hlock : s'.lock = s.lock)
    (hk : k.holdsTable → (s.pc p).holdsTable) (hstage : k.stage = (s.pc p).stage) : s'.Ok :=
  h.move hc hproc hpc hcpu hinit (fun hh => hlock.trans (h.lock c p hc (hk hh)))
    (fun _ _ he => hlock.trans he) hstage

/-- A process releases `ptable.lock`. -/
theorem Ptable.Ok.drop (hheld : (s.pc p).holdsTable)
    (hproc : ∀ q, (s.proc q).Stirred s.initproc (s'.proc q))
    (hpc : s'.pc = Function.update s.pc p k) (hcpu : s'.cpu = s.cpu)
    (hinit : s'.initproc = s.initproc) (hk : k.holdsTable = false)
    (hstage : k.stage = (s.pc p).stage) : s'.Ok := by
  refine h.move hc hproc hpc hcpu hinit (by simp [hk]) ?_ hstage
  intro c' hne he
  exact absurd (Option.some.inj (he.symm.trans (h.lock c p hc hheld))) hne

/-- A process gives up its processor and lives on. -/
theorem Ptable.Ok.switch {f : PSlot → PSlot}
    (hl : s.lock = some c) (hpar : (f (s.proc p)).parent = (s.proc p).parent)
    (hf : (f (s.proc p)).state = .runnable ∧ k.stage = (s.pc p).stage ∨
      (f (s.proc p)).state = .sleeping ∧ k.stage = .idle ∧ (s.pc p).stage = .idle) :
    (s.switch c p k f).Ok where
  toPlaced := h.toPlaced.switch hc hl (by rcases hf with h | h <;> simp [h.1])
  toFamily := by
    have hrun := h.running c p hc
    refine h.keep ?_ rfl ?_ ?_
    · intro q
      by_cases hq : q = p
      · subst hq
        refine ⟨.inl (by simpa
          using hpar), .inr ⟨by rw [hrun]; rfl, ?_⟩⟩
        rcases hf with h | h <;>
          simp [h.1, ProcState.alive]
      · simpa [hq] using .refl _ _
    · intro q
      by_cases hq : q = p
      · subst hq
        rcases hf with h | h <;>
          simp [h.2]
      · simp [hq]
    · intro q np hnp
      by_cases hq : q = p
      · subst hq
        rcases hf with h | h
        · simp [h.1]
        · simp [h.2.2, Stage.child] at hnp
      · simpa [hq] using h.busy q np hnp

end

/-! ## `exit` -/

/-- What the loop of `exit` has done after the slots `qs`. -/
structure Ptable.Reparented (p : Slot) (s : Ptable) (qs : List Slot) (t : Ptable) : Prop where
  pc : t.pc = s.pc
  cpu : t.cpu = s.cpu
  lock : t.lock = s.lock
  lk : t.lk = s.lk
  nextpid : t.nextpid = s.nextpid
  initproc : t.initproc = s.initproc
  stirred : ∀ q, (s.proc q).Stirred s.initproc (t.proc q)
  parent : ∀ q ∈ qs, (s.proc q).parent = some p → (t.proc q).parent = some s.initproc
  kept : ∀ q, q ∉ qs → (t.proc q).parent = (s.proc q).parent
  pid : ∀ q, (t.proc q).pid = (s.proc q).pid
  chan : ∀ q, (t.proc q).chan = (s.proc q).chan
  killed : ∀ q, (t.proc q).killed = (s.proc q).killed

/-- `wakeup1` changes states only. -/
theorem Ptable.wakeup1_proc (s : Ptable) (chan : Option Chan) (q : Slot) :
    (s.wakeup1 chan).proc q = { s.proc q with state := ((s.wakeup1 chan).proc q).state } := by
  simp only [Ptable.wakeup1]
  split <;> rfl

theorem Ptable.Reparented.refl (p : Slot) (s : Ptable) : s.Reparented p [] s where
  pc := rfl
  cpu := rfl
  lock := rfl
  lk := rfl
  nextpid := rfl
  initproc := rfl
  stirred q := .refl _ _
  parent q hq := by simp at hq
  kept _ _ := rfl
  pid _ := rfl
  chan _ := rfl
  killed _ := rfl

theorem Ptable.Reparented.wakeup1 (h : s.Reparented p qs t) (chan : Option Chan) :
    s.Reparented p qs (t.wakeup1 chan) where
  pc := h.pc
  cpu := h.cpu
  lock := h.lock
  lk := h.lk
  nextpid := h.nextpid
  initproc := h.initproc
  stirred q := (h.stirred q).trans (t.stirred_wakeup1 chan _ q)
  parent q hq hp := by rw [wakeup1_proc]; exact h.parent q hq hp
  kept q hq := by rw [wakeup1_proc]; exact h.kept q hq
  pid q := by rw [wakeup1_proc]; exact h.pid q
  chan q := by rw [wakeup1_proc]; exact h.chan q
  killed q := by rw [wakeup1_proc]; exact h.killed q

theorem Ptable.Reparented.pass (h : s.Reparented p qs t) (hq : (t.proc q).parent = some p) :
    s.Reparented p (qs ++ [q]) (t.setProc q fun pr => { pr with parent := some t.initproc }) where
  pc := h.pc
  cpu := h.cpu
  lock := h.lock
  lk := h.lk
  nextpid := h.nextpid
  initproc := h.initproc
  stirred x := by
    by_cases hx : x = q
    · subst hx
      have hst := h.stirred x
      simp only [Ptable.setProc, update_self]
      exact ⟨.inr ⟨by have := hst.parent; grind, by rw [h.initproc]⟩, hst.state⟩
    · simpa [hx] using h.stirred x
  parent x hx hp := by
    by_cases hxq : x = q
    · simp [hxq, h.initproc]
    · have hx' : x ∈ qs := by simpa [hxq] using hx
      simpa [hxq] using h.parent x hx' hp
  kept x hx := by
    obtain ⟨hx, hxq⟩ : x ∉ qs ∧ x ≠ q := by simpa using hx
    simpa [hxq] using h.kept x hx
  pid x := by by_cases hx : x = q <;> simp [hx, h.pid]
  chan x := by by_cases hx : x = q <;> simp [hx, h.chan]
  killed x := by by_cases hx : x = q <;> simp [hx, h.killed]

theorem Ptable.Reparented.round (h : s.Reparented p qs t) (q : Slot) :
    s.Reparented p (qs ++ [q]) (reparent1 p t q) := by
  unfold reparent1
  split
  · rename_i hq
    dsimp only
    split
    · exact (h.pass hq).wakeup1 _
    · exact h.pass hq
  · rename_i hq
    refine { h with parent := ?_, kept := fun x hx => h.kept x fun h' => hx (by simp [h']) }
    intro x hx hp
    obtain hx | rfl : x ∈ qs ∨ x = q := by simpa using hx
    · exact h.parent x hx hp
    · -- its parent is no longer `p`, so it has been passed on already
      have := (h.stirred x).parent
      grind

theorem Ptable.reparented (s : Ptable) (p : Slot) :
    s.Reparented p (List.finRange nproc) (s.reparent p) := by
  have hfold : ∀ (rs qs : List Slot) (t : Ptable), s.Reparented p qs t →
      s.Reparented p (qs ++ rs) (rs.foldl (reparent1 p) t) := by
    intro rs
    induction rs with
    | nil => intro qs t ht; simpa using ht
    | cons r rs ih =>
      intro qs t ht
      have := ih (qs ++ [r]) _ (ht.round r)
      simpa using this
  exact hfold _ [] s (.refl p s)

/-- After the loop nobody is a child of `p`. -/
theorem Ptable.reparent_parent (hp : p ≠ s.initproc) : ((s.reparent p).proc q).parent ≠ some p := by
  have h := s.reparented p
  by_cases hq : (s.proc q).parent = some p
  · rw [h.parent q (List.mem_finRange q) hq]
    simpa using Ne.symm hp
  · obtain he | ⟨-, he⟩ := (h.stirred q).parent
    · rwa [he]
    · rw [he]
      simpa using Ne.symm hp

section

variable (h : s.Family)
include h

/-- A process without children dies. -/
theorem Ptable.Family.die (hrun : (s.proc p).state = .running)
    (hp : p ≠ s.initproc) (hkids : ∀ q, (s.proc q).parent ≠ some p)
    (hstate : ∀ q, (s'.proc q).state = if q = p then .zombie else (s.proc q).state)
    (hparent : ∀ q, (s'.proc q).parent = (s.proc q).parent) (hpc : (s.pc p).stage = .idle)
    (hstage : ∀ q, (s'.pc q).stage = (s.pc q).stage) (hinit : s'.initproc = s.initproc) :
    s'.Family := by
  obtain ⟨hchild, hforker, hbusy, hadopted, hpar, hkid, hin⟩ := h
  constructor <;> grind [Stage.child]

/-- A free slot is taken for a child of `p`. -/
theorem Ptable.Family.enroll (hrun : (s.proc p).state = .running)
    (hnp : (s.proc np).state = .unused)
    (hstate : ∀ q, (s'.proc q).state = if q = np then .embryo else (s.proc q).state)
    (hparent : ∀ q, (s'.proc q).parent = (s.proc q).parent)
    (hstage : ∀ q, (s'.pc q).stage = if q = p then .forking np else (s.pc q).stage)
    (hinit : s'.initproc = s.initproc) : s'.Family := by
  obtain ⟨hchild, hforker, hbusy, hadopted, hpar, hkid, hin⟩ := h
  constructor <;> grind [Stage.child, Stage.adopted, ProcState.alive]

/-- The slot is given back. -/
theorem Ptable.Family.giveBack (hpc : (s.pc p).stage = .forking np)
    (hstate : ∀ q, (s'.proc q).state = if q = np then .unused else (s.proc q).state)
    (hparent : ∀ q, (s'.proc q).parent = (s.proc q).parent)
    (hstage : ∀ q, (s'.pc q).stage = if q = p then .idle else (s.pc q).stage)
    (hinit : s'.initproc = s.initproc) : s'.Family := by
  obtain ⟨hchild, hforker, hbusy, hadopted, hpar, hkid, hin⟩ := h
  constructor <;> grind [Stage.child, Stage.adopted, ProcState.alive]

/-- The child gets its parent. -/
theorem Ptable.Family.adopt (hrun : (s.proc p).state = .running)
    (hpc : (s.pc p).stage = .forking np) (hstate : ∀ q, (s'.proc q).state = (s.proc q).state)
    (hparent : ∀ q, (s'.proc q).parent = if q = np then some p else (s.proc q).parent)
    (hstage : ∀ q, (s'.pc q).stage = if q = p then .forked np else (s.pc q).stage)
    (hinit : s'.initproc = s.initproc) : s'.Family := by
  obtain ⟨hchild, hforker, hbusy, hadopted, hpar, hkid, hin⟩ := h
  constructor <;> grind [Stage.child, Stage.adopted, ProcState.alive]

/-- The child is born. -/
theorem Ptable.Family.bear (hpc : (s.pc p).stage = .forked np)
    (hstate : ∀ q, (s'.proc q).state = if q = np then .runnable else (s.proc q).state)
    (hparent : ∀ q, (s'.proc q).parent = (s.proc q).parent)
    (hstage : ∀ q, (s'.pc q).stage = if q = p ∨ q = np then .idle else (s.pc q).stage)
    (hinit : s'.initproc = s.initproc) : s'.Family := by
  obtain ⟨hchild, hforker, hbusy, hadopted, hpar, hkid, hin⟩ := h
  constructor <;> grind [Stage.child, Stage.adopted, ProcState.alive]

/-- A dead child is reaped. -/
theorem Ptable.Family.reap (hq : (s.proc q).state = .zombie)
    (hstate : ∀ x, (s'.proc x).state = if x = q then .unused else (s.proc x).state)
    (hparent : ∀ x, (s'.proc x).parent = if x = q then none else (s.proc x).parent)
    (hstage : ∀ x, (s'.pc x).stage = (s.pc x).stage) (hinit : s'.initproc = s.initproc) :
    s'.Family := by
  obtain ⟨hchild, hforker, hbusy, hadopted, hpar, hkid, hin⟩ := h
  constructor <;> grind [Stage.child_of_adopted, ProcState.alive]

end

/-! ## One step -/

theorem Ptable.Ok.exit {chan : Option Chan} (h : s.Ok) (hc : (s.cpu c).ctx = .run p)
    (hpc : s.pc p = .at .idle) (hl : s.lock = none) (hp : p ≠ s.initproc) :
    (({ s with lock := some c }.wakeup1 chan).reparent p |>.switch c p .exited fun pr =>
      { pr with state := .zombie }).Ok := by
  have hr := ({ s with lock := some c }.wakeup1 chan).reparented p
  generalize hs1 : ({ s with lock := some c }.wakeup1 chan).reparent p = s1 at hr
  have h1 : s1.Ok := by
    refine h.move (k := s.pc p) hc ?_ ?_ hr.cpu hr.initproc (fun _ => hr.lock) (by simp [hl]) rfl
    · exact fun q => (Ptable.stirred_wakeup1 { s with lock := some c } chan _ q).trans (hr.stirred q)
    · rw [hr.pc, update_eq_self]; rfl
  have hc1 : (s1.cpu c).ctx = .run p := hr.cpu ▸ hc
  have hpc1 : (s1.pc p).stage = .idle := by
    rw [hr.pc]
    exact congrArg Pc.stage hpc
  refine ⟨h1.toPlaced.switch hc1 hr.lock (by simp), ?_⟩
  refine h1.die (h1.running c p hc1) (hr.initproc ▸ hp)
    (fun q => hs1 ▸ Ptable.reparent_parent hp) ?_ ?_ hpc1 ?_ rfl
  · intro q
    by_cases hq : q = p <;> simp [hq]
  · intro q
    by_cases hq : q = p <;> simp [hq]
  · intro q
    by_cases hq : q = p
    · subst hq
      simpa [Pc.stage] using hpc1.symm
    · simp [hq]

/-- `kill` changes slots only. -/
theorem Ptable.kill_rest (s : Ptable) (pid : Word) :
    (s.kill pid).1 = { s with proc := (s.kill pid).1.proc } := by
  unfold Ptable.kill
  split <;> rfl

theorem Ptable.Ok.kill (h : s.Ok) (hc : (s.cpu c).ctx = .run p) : (s.kill pid).1.Ok := by
  rw [s.kill_rest]
  exact h.walk hc (s.stirred_kill pid _) (update_eq_self p _).symm rfl rfl rfl id rfl

theorem Ptable.Ok.schedLock (h : s.Ok) (hc : (s.cpu c).ctx = .idle) (hl : s.lock = none) :
    ({ s with lock := some c }.setCpu c { s.cpu c with ctx := .locked }).Ok where
  toPlaced := by
    have hproc := h.off c (.inl hc)
    refine h.turn (c := c) ?_ (by simp [hl]) (fun _ _ _ _ => ⟨rfl, rfl⟩) (fun _ => rfl) ?_ ?_ ?_
    · intro c' hne
      simp [hne]
    · simpa using hproc
    · simp
    · exact fun q hq => .inr ⟨hq, by simp [hc]⟩
  toFamily := h.keep (fun _ => .refl _ _) rfl (fun _ => rfl) h.busy

theorem Ptable.Ok.schedUnlock (h : s.Ok) (hc : (s.cpu c).ctx = .locked) :
    ({ s with lock := none }.setCpu c { s.cpu c with ctx := .idle }).Ok where
  toPlaced := by
    have hl := h.sched c (.inl hc)
    have hproc := h.off c (.inr hc)
    refine h.turn (c := c) ?_ (by simp [hl, eq_comm]) (fun _ _ _ _ => ⟨rfl, rfl⟩) ?_ ?_ ?_ ?_
    · intro c' hne
      simp [hne]
    · simp
    · simpa using hproc
    · simp
    · exact fun q hq => .inr ⟨hq, by simp [hc]⟩
  toFamily := h.keep (fun _ => .refl _ _) rfl (fun _ => rfl) h.busy

theorem Ptable.Ok.schedBack (h : s.Ok) (hc : (s.cpu c).ctx = .back) :
    (s.setCpu c ⟨none, .locked⟩).Ok where
  toPlaced := by
    have hl := h.sched c (.inr hc)
    refine h.turn (c := c) ?_ (by simp [hl, eq_comm]) (fun _ _ _ _ => ⟨rfl, rfl⟩) (fun _ => hl) ?_ ?_ ?_
    · intro c' hne
      simp [hne]
    · simp
    · simp
    · exact fun q hq => .inr ⟨hq, by simp [hc]⟩
  toFamily := h.keep (fun _ => .refl _ _) rfl (fun _ => rfl) h.busy

theorem Ptable.Ok.schedPick (h : s.Ok) (hc : (s.cpu c).ctx = .locked)
    (hp : (s.proc p).state = .runnable) :
    ((s.setProc p fun pr => { pr with state := .running }).setCpu c ⟨some p, .run p⟩).Ok where
  toPlaced := by
    have hl := h.sched c (.inl hc)
    have hfree : ∀ c', (s.cpu c').ctx ≠ .run p := by
      intro c' hc'
      have := h.running c' p hc'
      simp [hp] at this
    refine h.turn (c := c) ?_ (by simp [hl, eq_comm]) ?_ (fun _ => hl) ?_ ?_ ?_
    · intro c' hne
      simp [hne]
    · intro c' hne q hq
      have hqp : q ≠ p := fun he => hfree c' (he ▸ hq)
      simp [hqp]
    · simp
    · intro q hq
      obtain rfl : p = q := by simpa using hq
      exact ⟨hl, by simp, by simp, hfree⟩
    · intro q hq
      by_cases hqp : q = p
      · exact .inl (by simp [hqp])
      · exact .inr ⟨by simpa [hqp] using hq, by simp [hc]⟩
  toFamily := by
    refine h.keep ?_ rfl (fun _ => rfl) ?_
    · intro q
      by_cases hq : q = p
      · subst hq
        exact ⟨.inl (by simp),
          .inr (by simp [hp, ProcState.alive])⟩
      · simpa [hq] using .refl _ _
    · intro q np hnp
      by_cases hq : q = p
      · simp [hq]
      · simpa [hq] using h.busy q np hnp

theorem Ptable.unusedSlot_state (h : s.unusedSlot = some np) : (s.proc np).state = .unused := by
  simpa using List.find?_some h

theorem Ptable.zombieChild_spec (h : s.zombieChild p = some q) :
    (s.proc q).parent = some p ∧ (s.proc q).state = .zombie := by
  simpa using List.find?_some h

/-- A step of `fork`: neither the lock nor who runs where changes. -/
theorem Ptable.Placed.forkStep (h : s.Placed) (hc : (s.cpu c).ctx = .run p) (hcpu : s'.cpu = s.cpu) (hlock : s'.lock = s.lock)
    (hpcs : ∀ q, (s'.pc q).holdsTable → (s.pc q).holdsTable ∨ (s.proc q).state = .embryo)
    (hst : ∀ q, (s'.proc q).state = .running ↔ (s.proc q).state = .running) : s'.Placed := by
  have hkeep : ∀ c' q, (s.cpu c').ctx = .run q → (s'.pc q).holdsTable → (s.pc q).holdsTable := by
    intro c' q hq hh
    obtain hh | he := hpcs q hh
    · exact hh
    · simp [h.running c' q hq] at he
  refine h.stay hc hcpu (fun c' q _ => hkeep c' q) ?_ (fun c' _ he => hlock.trans he) hst
  intro hh
  exact hlock.trans (h.lock c p hc (hkeep c p hc hh))

section

variable (h : s.Ok) (hc : (s.cpu c).ctx = .run p)
include h hc

theorem Ptable.Ok.forkAlloc {n : Word}
    (hpc : s.pc p = .at .idle) (hnp : (s.proc np).state = .unused) :
    (({ s with nextpid := n }.setProc np fun pr =>
      { pr with state := .embryo, pid := pid }).setPc p (.at (.forking np))).Ok := by
  have hrun := h.running c p hc
  refine ⟨h.forkStep hc rfl rfl ?_ ?_, h.enroll hrun hnp ?_ ?_ ?_ rfl⟩ <;> intro q <;>
    simp only [Ptable.setPc, Ptable.setProc, update_apply] <;>
    split <;> simp_all [Pc.holdsTable, Pc.stage]

theorem Ptable.Ok.forkFail
    (hpc : s.pc p = .at (.forking np)) :
    ((s.setProc np fun pr => { pr with state := .unused }).setPc p (.at .idle)).Ok := by
  have hnp := h.child p np (by rw [hpc]; rfl)
  refine ⟨h.forkStep hc rfl rfl ?_ ?_, h.giveBack (by rw [hpc]; rfl) ?_ ?_ ?_ rfl⟩ <;> intro q <;>
    simp only [Ptable.setPc, Ptable.setProc, update_apply] <;>
    split <;> simp_all [Pc.holdsTable, Pc.stage]

theorem Ptable.Ok.forkCopy
    (hpc : s.pc p = .at (.forking np)) :
    ((s.setProc np fun pr => { pr with parent := some p }).setPc p (.at (.forked np))).Ok := by
  have hrun := h.running c p hc
  refine ⟨h.forkStep hc rfl rfl ?_ ?_, h.adopt hrun (by rw [hpc]; rfl) ?_ ?_ ?_ rfl⟩ <;>
    intro q <;> simp only [Ptable.setPc, Ptable.setProc, update_apply] <;>
    split <;> simp_all [Pc.holdsTable, Pc.stage]

theorem Ptable.Ok.forkRun
    (hpc : s.pc p = .at (.forked np)) :
    (((s.setProc np fun pr => { pr with state := .runnable }).setPc np .born).setPc p
      (.at .idle)).Ok := by
  have hrun := h.running c p hc
  have hnp := h.child p np (by rw [hpc]; rfl)
  have hpcs : ∀ q, (((s.setProc np fun pr => { pr with state := .runnable }).setPc np .born).setPc p
      (.at .idle)).pc q = if q = p then .at .idle else if q = np then .born else s.pc q := by
    intro q
    simp only [Ptable.setPc, Ptable.setProc, update_apply]
  refine ⟨h.forkStep hc rfl rfl ?_ ?_, h.bear (by rw [hpc]; rfl) ?_ ?_ ?_ rfl⟩
  · intro q
    rw [hpcs]
    grind [Pc.holdsTable]
  · intro q
    simp only [Ptable.setPc, Ptable.setProc, update_apply]
    split <;> simp_all
  · intro q
    simp only [Ptable.setPc, Ptable.setProc, update_apply]
    split <;> rfl
  · intro q
    simp only [Ptable.setPc, Ptable.setProc, update_apply]
    split <;> simp_all
  · intro q
    rw [hpcs]
    grind [Pc.stage]

theorem Ptable.Ok.waitReap (hpc : s.pc p = .scanning)
    (hq : (s.proc q).state = .zombie) :
    (({ s with lock := none }.reap q).setPc p (.at .idle)).Ok := by
  have hl := h.lock c p hc (by rw [hpc]; rfl)
  refine ⟨h.stay hc rfl ?_ ?_ ?_ ?_, h.reap hq ?_ ?_ ?_ rfl⟩
  · intro c' x hne hx
    have hxp : x ≠ p := by
      rintro rfl
      exact hne (h.unique c' c x hx hc)
    simp [hxp]
  · simp [Pc.holdsTable]
  · intro c' hne he
    exact absurd (Option.some.inj (he.symm.trans hl)) hne
  all_goals
    intro x
    simp only [Ptable.setPc, Ptable.reap, Ptable.setProc, update_apply]
    split <;> simp_all [Pc.stage]

end

/-- Every step keeps the invariants. -/
theorem Ptable.Ok.step (h : s.Ok) (hstep : TStep s e s') : s'.Ok := by
  cases hstep with
  | schedLock hc hl => exact h.schedLock hc hl
  | schedPick hc hp => exact h.schedPick hc hp
  | schedBack hc => exact h.schedBack hc
  | schedUnlock hc => exact h.schedUnlock hc
  | yieldLock hc hpc hl => exact h.take hc hl (by rw [hpc]; rfl)
  | yieldSched hc hpc =>
    exact h.switch hc (h.lock _ _ hc (by rw [hpc]; rfl)) rfl (.inl ⟨rfl, by rw [hpc]; rfl⟩)
  | yieldReturn hc hpc =>
    exact h.drop hc (by rw [hpc]; rfl) (fun _ => .refl _ _) rfl rfl rfl rfl (by rw [hpc]; rfl)
  | forkret hc hpc =>
    exact h.drop hc (by rw [hpc]; rfl) (fun _ => .refl _ _) rfl rfl rfl rfl (by rw [hpc]; rfl)
  | acquire hc hpc hl =>
    exact h.walk hc (fun _ => .refl _ _) rfl rfl rfl rfl (by simp [Pc.holdsTable]) (by rw [hpc]; rfl)
  | release hc hpc =>
    exact h.walk hc (fun _ => .refl _ _) rfl rfl rfl rfl (by simp [Pc.holdsTable]) (by rw [hpc]; rfl)
  | sleepLock hc hpc hl => exact h.take hc hl (by rw [hpc]; rfl)
  | sleepRelease hc hpc =>
    exact h.walk hc (fun _ => .refl _ _) rfl rfl rfl rfl (by rw [hpc]; exact id) (by rw [hpc]; rfl)
  | sleepSched hc hpc =>
    exact h.switch hc (h.lock _ _ hc (by rw [hpc]; rfl)) rfl (.inr ⟨rfl, rfl, by rw [hpc]; rfl⟩)
  | sleepReturn hc hpc =>
    exact h.drop hc (by rw [hpc]; rfl) (Ptable.stirred_chan s _ _) rfl rfl rfl rfl
      (by rw [hpc]; rfl)
  | relock hc hpc hl =>
    exact h.walk hc (fun _ => .refl _ _) rfl rfl rfl rfl (by simp [Pc.holdsTable]) (by rw [hpc]; rfl)
  | wakeupLock hc hpc hl => exact h.take hc hl (by rw [hpc]; rfl)
  | wakeupDone hc hpc =>
    exact h.drop hc (by rw [hpc]; rfl) (s.stirred_wakeup1 _ _) rfl rfl rfl rfl (by rw [hpc]; rfl)
  | tableLock hc hpc hl => exact h.take hc hl (by rw [hpc]; rfl)
  | tableWakeup hc hpc =>
    exact h.walk hc (s.stirred_wakeup1 _ _) (update_eq_self _ _).symm rfl rfl rfl id rfl
  | tableSleep hc hpc =>
    exact h.switch hc (h.lock _ _ hc (by rw [hpc]; rfl)) rfl (.inr ⟨rfl, rfl, by rw [hpc]; rfl⟩)
  | tableReturn hc hpc =>
    exact h.walk hc (Ptable.stirred_chan s _ _) rfl rfl rfl rfl (by rw [hpc]; exact id)
      (by rw [hpc]; rfl)
  | tableUnlock hc hpc =>
    exact h.drop hc (by rw [hpc]; rfl) (fun _ => .refl _ _) rfl rfl rfl rfl (by rw [hpc]; rfl)
  | kill hc hpc hl => exact h.kill hc
  | forkAlloc hc hpc hl hnp => exact h.forkAlloc hc hpc (Ptable.unusedSlot_state hnp)
  | forkFail hc hpc => exact h.forkFail hc hpc
  | forkCopy hc hpc => exact h.forkCopy hc hpc
  | forkRun hc hpc hl => exact h.forkRun hc hpc
  | exit hc hpc hl hp => exact h.exit hc hpc hl hp
  | waitLock hc hpc hl => exact h.take hc hl (by rw [hpc]; rfl)
  | waitReap hc hpc hq => exact h.waitReap hc hpc (Ptable.zombieChild_spec hq).2
  | waitFail hc hpc hq hk =>
    exact h.drop hc (by rw [hpc]; rfl) (fun _ => .refl _ _) rfl rfl rfl rfl (by rw [hpc]; rfl)
  | waitSleep hc hpc hq hk =>
    exact h.switch hc (h.lock _ _ hc (by rw [hpc]; rfl)) rfl (.inr ⟨rfl, rfl, by rw [hpc]; rfl⟩)
  | waitReturn hc hpc =>
    exact h.walk hc (Ptable.stirred_chan s _ _) rfl rfl rfl rfl (by rw [hpc]; exact id)
      (by rw [hpc]; rfl)

/-! ## One slot in one step -/

/-- The slot of the process that exits or is reaped. -/
@[simp] def TEvent.buries : TEvent → Option Slot
  | .exit _ p => some p
  | .waitReap _ _ q => some q
  | _ => none

/-- How a step changes a slot. -/
inductive SlotStep (s : Ptable) (x : Slot) : TEvent → PSlot → Prop where
  /-- No birth and no death. -/
  | stay {e : TEvent} {b : PSlot} : e.buries ≠ some x → b.pid = (s.proc x).pid →
      (b.state = (s.proc x).state ∨ (s.proc x).state.alive ∧ b.state.alive) →
      (b.killed = (s.proc x).killed ∨ ∃ c p, e = .kill c p (s.proc x).pid) → SlotStep s x e b
  | alloc {c : Nat} {p : Slot} {b : PSlot} : s.unusedSlot = some x → b.state = .embryo →
      b.pid = s.nextpid → b.killed = (s.proc x).killed → SlotStep s x (.forkAlloc c p) b
  | fail {c : Nat} {p : Slot} {b : PSlot} : (s.proc x).state = .embryo → b.state = .unused →
      s.pc p = .at (.forking x) → b.pid = (s.proc x).pid → b.killed = (s.proc x).killed →
      SlotStep s x (.forkFail c p) b
  | born {c : Nat} {p : Slot} {b : PSlot} : (s.proc x).state = .embryo → b.state = .runnable →
      b.pid = (s.proc x).pid → b.killed = (s.proc x).killed → SlotStep s x (.forkRun c p) b
  | exit {c : Nat} {b : PSlot} : (s.proc x).state = .running → b.state = .zombie →
      b.pid = (s.proc x).pid → b.killed = (s.proc x).killed → SlotStep s x (.exit c x) b
  | reap {c : Nat} {p : Slot} {b : PSlot} : (s.proc x).state = .zombie → b.state = .unused →
      (s.proc x).parent = some p → b.pid = 0#32 → b.killed = false →
      SlotStep s x (.waitReap c p x) b

theorem SlotStep.refl (he : e.buries ≠ some x) : SlotStep s x e (s.proc x) :=
  .stay he rfl (.inl rfl) (.inl rfl)

theorem SlotStep.wakeup1 (he : e.buries ≠ some x) (chan : Option Chan) :
    SlotStep s x e ((s.wakeup1 chan).proc x) := by
  simp only [Ptable.wakeup1]
  split
  · rename_i hx
    exact .stay he rfl (.inr ⟨by rw [hx.1]; rfl, rfl⟩) (.inl rfl)
  · exact .refl he

/-- A change of one slot that keeps its pid, its mark and whether it is alive. -/
theorem SlotStep.set (he : e.buries ≠ some x) (hpid : b.pid = (s.proc p).pid)
    (hk : b.killed = (s.proc p).killed)
    (hst : b.state = (s.proc p).state ∨ (s.proc p).state.alive ∧ b.state.alive) :
    SlotStep s x e (Function.update s.proc p b x) := by
  by_cases hx : x = p
  · subst hx
    rw [update_self]
    exact .stay he hpid hst (.inl hk)
  · rw [update_of_ne hx]
    exact .refl he

theorem SlotStep.kill : SlotStep s x (.kill c p pid) ((s.kill pid).1.proc x) := by
  unfold Ptable.kill
  split
  · exact .refl (by simp)
  · rename_i q hq
    have hpid : (s.proc q).pid = pid := by simpa using List.find?_some hq
    by_cases hx : x = q
    · subst hx
      refine .stay (by simp) (by simp) ?_ (.inr ⟨c, p, by rw [hpid]⟩)
      by_cases hs : (s.proc x).state = .sleeping
      · exact .inr (by simp [hs, ProcState.alive])
      · exact .inl (by simp [hs])
    · simpa [hx] using .refl (by simp)

theorem SlotStep.exitStep {chan : Option Chan} (h : s.Ok) (hc : (s.cpu c).ctx = .run p) :
    SlotStep s x (.exit c p) ((({ s with lock := some c }.wakeup1 chan).reparent p |>.switch c p
      .exited fun pr => { pr with state := .zombie }).proc x) := by
  have hr := ({ s with lock := some c }.wakeup1 chan).reparented p
  have hw := Ptable.wakeup1_proc { s with lock := some c } chan x
  have hpid := hr.pid x
  have hk := hr.killed x
  rw [hw] at hpid hk
  by_cases hx : x = p
  · subst hx
    refine .exit (h.running _ _ hc) ?_ ?_ ?_ <;>
      simp only [Ptable.switch, Ptable.setCpu, Ptable.setPc, Ptable.setProc, update_self]
    · exact hpid
    · exact hk
  · have hs := (Ptable.stirred_wakeup1 { s with lock := some c } chan _ x).trans (hr.stirred x)
    simp only [Ptable.switch, Ptable.setCpu, Ptable.setPc, Ptable.setProc, update_of_ne hx]
    exact .stay (by simpa using Ne.symm hx) hpid hs.near.state (.inl hk)

/-- Every step changes every slot in one of these ways. -/
theorem TStep.slot (h : s.Ok) (hstep : TStep s e s') (x : Slot) : SlotStep s x e (s'.proc x) := by
  cases hstep with
  | schedPick hc hp =>
    exact .set (by simp) rfl rfl (.inr ⟨by rw [hp]; rfl, rfl⟩)
  | yieldSched hc hpc => exact .set (by simp) rfl rfl (.inr ⟨by rw [h.running _ _ hc]; rfl, rfl⟩)
  | sleepSched hc hpc => exact .set (by simp) rfl rfl (.inr ⟨by rw [h.running _ _ hc]; rfl, rfl⟩)
  | sleepReturn hc hpc => exact .set (by simp) rfl rfl (.inl rfl)
  | wakeupDone hc hpc => exact .wakeup1 (by simp) _
  | tableWakeup hc hpc => exact .wakeup1 (by simp) _
  | tableSleep hc hpc => exact .set (by simp) rfl rfl (.inr ⟨by rw [h.running _ _ hc]; rfl, rfl⟩)
  | tableReturn hc hpc => exact .set (by simp) rfl rfl (.inl rfl)
  | kill hc hpc hl => exact .kill
  | @forkAlloc c p np hc hpc hl hnp =>
    by_cases hx : x = np
    · subst hx
      refine .alloc hnp ?_ ?_ ?_ <;> simp
    · simpa [hx] using .refl (by simp)
  | @forkFail c p np hc hpc =>
    by_cases hx : x = np
    · subst hx
      refine .fail (h.child p x (by rw [hpc]; rfl)) ?_ hpc ?_ ?_ <;>
        simp
    · simpa [hx] using .refl (by simp)
  | forkCopy hc hpc => exact .set (by simp) rfl rfl (.inl rfl)
  | @forkRun c p np hc hpc hl =>
    by_cases hx : x = np
    · subst hx
      refine .born (h.child p x (by rw [hpc]; rfl)) ?_ ?_ ?_ <;> simp
    · simpa [hx] using .refl (by simp)
  | exit hc hpc hl hp => exact .exitStep h hc
  | @waitReap c p q hc hpc hq =>
    obtain ⟨hpar, hz⟩ := Ptable.zombieChild_spec hq
    by_cases hx : x = q
    · subst hx
      refine .reap hz ?_ hpar ?_ ?_ <;> simp
    · simpa [hx] using .refl (by simpa using Ne.symm hx)
  | waitSleep hc hpc hq hk => exact .set (by simp) rfl rfl (.inr ⟨by rw [h.running _ _ hc]; rfl, rfl⟩)
  | waitReturn hc hpc => exact .set (by simp) rfl rfl (.inl rfl)
  | _ => exact .refl (by simp)

/-! ## Whole runs -/

/-- The exits so far and the children that `wait` has returned so far, each with its slot and
its pid, in the order in which they happened. -/
structure Deaths where
  exits : List (Slot × Word)
  waits : List (Slot × Word)

/-- What a step adds.  A `wait` that reaps `q` returns the pid of `q`. -/
def Deaths.record (d : Deaths) (s : Ptable) : TEvent → Deaths
  | .exit _ p => { d with exits := d.exits ++ [(p, (s.proc p).pid)] }
  | .waitReap _ _ q => { d with waits := d.waits ++ [(q, (s.proc q).pid)] }
  | _ => d

/-- A step, recorded. -/
def LifeStep (t : Ptable × Deaths) (e : TEvent) (t' : Ptable × Deaths) : Prop :=
  TStep t.1 e t'.1 ∧ t'.2 = t.2.record t.1 e

/-- The entries of slot `x`. -/
def entries (x : Slot) (l : List (Slot × Word)) : List Word :=
  (l.filter fun d => d.1 = x).map Prod.snd

/-- The process in slot `x`, if it has exited and has not been reaped. -/
def Ptable.unreaped (s : Ptable) (x : Slot) : List Word :=
  if (s.proc x).state = .zombie then [(s.proc x).pid] else []

/-- Slot by slot, the exits are the waits and then the zombie. -/
def Matched (t : Ptable × Deaths) : Prop :=
  ∀ x, entries x t.2.exits = entries x t.2.waits ++ t.1.unreaped x

theorem entries_append (x : Slot) (l l' : List (Slot × Word)) :
    entries x (l ++ l') = entries x l ++ entries x l' := by
  simp [entries]

theorem entries_single_self (x : Slot) (w : Word) : entries x [(x, w)] = [w] := by
  simp [entries]

theorem entries_single_of_ne {y : Slot} (w : Word) (h : y ≠ x) : entries x [(y, w)] = [] := by
  simp [entries, h]

/-- The entries of other slots stay. -/
theorem Deaths.record_of_ne {d : Deaths} (he : e.buries ≠ some x) :
    entries x (d.record s e).exits = entries x d.exits ∧
      entries x (d.record s e).waits = entries x d.waits := by
  cases e with
  | exit c p =>
    have hp : p ≠ x := fun h => he (h ▸ rfl)
    simp [Deaths.record, entries_append, entries_single_of_ne _ hp]
  | waitReap c p q =>
    have hq : q ≠ x := fun h => he (h ▸ rfl)
    simp [Deaths.record, entries_append, entries_single_of_ne _ hq]
  | _ => exact ⟨rfl, rfl⟩

/-- A step that leaves the entries and the zombie of a slot alone. -/
theorem Matched.slot_of_ne {t t' : Ptable × Deaths} (h : Matched t) (hd : t'.2 = t.2.record t.1 e)
    (he : e.buries ≠ some x) (hun : t'.1.unreaped x = t.1.unreaped x) :
    entries x t'.2.exits = entries x t'.2.waits ++ t'.1.unreaped x := by
  obtain ⟨h1, h2⟩ := Deaths.record_of_ne (s := t.1) (d := t.2) he
  rw [hd, h1, h2, hun]
  exact h x

theorem Matched.step {t t' : Ptable × Deaths} (hok : t.1.Ok) (h : Matched t)
    (hstep : LifeStep t e t') : Matched t' := by
  obtain ⟨hs, hd⟩ := hstep
  intro x
  have hx := h x
  generalize hb : t'.1.proc x = b
  have hslot := hs.slot hok x
  rw [hb] at hslot
  cases hslot with
  | stay he hpid hst _ =>
    refine h.slot_of_ne hd he ?_
    have hz : b.state = .zombie ↔ (t.1.proc x).state = .zombie := by
      grind [ProcState.alive]
    simp only [Ptable.unreaped, hb, hz, hpid]
  | alloc hnp he _ _ =>
    exact h.slot_of_ne hd (by simp)
      (by simp [Ptable.unreaped, hb, Ptable.unusedSlot_state hnp, he])
  | fail he hu _ _ _ =>
    exact h.slot_of_ne hd (by simp) (by simp [Ptable.unreaped, hb, hu, he])
  | born he hr _ _ =>
    exact h.slot_of_ne hd (by simp) (by simp [Ptable.unreaped, hb, hr, he])
  | exit hr hz hpid _ =>
    have hnow : t.1.unreaped x = [] := by simp [Ptable.unreaped, hr]
    have hthen : t'.1.unreaped x = [(t.1.proc x).pid] := by simp [Ptable.unreaped, hb, hz, hpid]
    rw [hnow, List.append_nil] at hx
    rw [hd, hthen]
    simp only [Deaths.record, entries_append, entries_single_self, hx]
  | reap hz hu _ _ _ =>
    have hnow : t.1.unreaped x = [(t.1.proc x).pid] := by simp [Ptable.unreaped, hz]
    have hthen : t'.1.unreaped x = [] := by simp [Ptable.unreaped, hb, hu]
    rw [hnow] at hx
    rw [hd, hthen, List.append_nil]
    simp only [Deaths.record, entries_append, entries_single_self, hx]

/-- Every run can be recorded. -/
theorem LifeStep.of_run {s s' : Ptable} {es : List TEvent} (d : Deaths)
    (h : Trace.Run TStep s es s') : ∃ d', Trace.Run LifeStep (s, d) es (s', d') := by
  induction h with
  | nil => exact ⟨d, .nil⟩
  | snoc _ hs ih =>
    obtain ⟨d', hd⟩ := ih
    exact ⟨_, hd.snoc ⟨hs, rfl⟩⟩

/-- What every reachable state and every step from it satisfies. -/
theorem life_cycle {s : Ptable} (h0 : s.Start) {es : List TEvent} {t : Ptable × Deaths}
    (hrun : Trace.Run LifeStep (s, ⟨[], []⟩) es t) :
    -- `RUNNING` processes are the current processes, while nobody holds the lock
    (t.1.lock = none → ∀ p, (t.1.proc p).state = .running ↔ ∃! c, (t.1.cpu c).proc = some p) ∧
    -- a zombie stays one until its parent's `wait`, and a slot is freed in two ways only
    (∀ e t', TStep t.1 e t' → ∀ x,
      ((t.1.proc x).state = .zombie → (t'.proc x).state = .zombie ∨
        (t'.proc x).state = .unused ∧
          ∃ c p, e = .waitReap c p x ∧ (t.1.proc x).parent = some p) ∧
      ((t.1.proc x).state ≠ .unused → (t'.proc x).state = .unused →
        ((t.1.proc x).state = .embryo ∧
          ∃ c p, e = .forkFail c p ∧ t.1.pc p = .at (.forking x)) ∨
        ((t.1.proc x).state = .zombie ∧
          ∃ c p, e = .waitReap c p x ∧ (t.1.proc x).parent = some p))) ∧
    -- the exits in a slot are the ones waits have returned and then the zombie in it
    (∀ x, entries x t.2.exits = entries x t.2.waits ++ t.1.unreaped x) ∧
    -- parents are alive
    (∀ p ≠ t.1.initproc, (t.1.proc p).state ≠ .unused → (t.1.proc p).state ≠ .embryo →
      ∃ q, (t.1.proc p).parent = some q ∧ (t.1.proc q).state ≠ .unused) := by
  have hinv : t.1.Ok ∧ Matched t := by
    refine hrun.invariant (I := fun t => t.1.Ok ∧ Matched t) ⟨h0.ok, ?_⟩ ?_
    · intro x
      by_cases hx : x = s.initproc
      · simp [entries, Ptable.unreaped, hx, h0.init]
      · simp [entries, Ptable.unreaped, h0.rest x hx]
    · intro t e t' ⟨hok, hm⟩ hstep
      exact ⟨hok.step hstep.1, hm.step hok hstep⟩
  obtain ⟨hok, hm⟩ := hinv
  refine ⟨?_, ?_, hm, ?_⟩
  · intro hl p
    constructor
    · intro hp
      obtain ⟨c, hc⟩ := hok.onCpu p hp
      refine ⟨c, hok.cur c p hc, ?_⟩
      intro c' hc'
      exact hok.unique c' c p (hok.current hl hc') hc
    · rintro ⟨c, hc, -⟩
      exact hok.running c p (hok.current hl hc)
  · intro e t' hstep x
    have hslot := hstep.slot hok x
    generalize t'.proc x = b at hslot
    cases hslot with
    | stay he hpid hst _ => grind [ProcState.alive]
    | alloc hnp _ _ _ => simp [Ptable.unusedSlot_state hnp]
    | fail he hu hpc _ _ => simp [he, hu, hpc]
    | born he hr _ _ => simp [he, hr]
    | exit hr hz _ _ => simp [hr, hz]
    | reap hz hu hp _ _ => simp [hz, hu, hp]
  · intro p hp h1 h2
    obtain ⟨q, hq⟩ := Option.ne_none_iff_exists'.mp (hok.kids p hp h1 h2)
    refine ⟨q, hq, ?_⟩
    have := hok.parent p q hq
    grind [ProcState.alive]

/-- `init` forks while it runs on processor 0. -/
theorem life_cycle_fork : ∃ es t, Trace.Run LifeStep (Ptable.boot, ⟨[], []⟩) es t ∧
    (∃! c, (t.1.cpu c).proc = some slot0) ∧
    ∃ q, (t.1.proc slot1).parent = some q ∧ (t.1.proc q).state ≠ .unused := by
  obtain ⟨s, hrun, hc, hpc, hl, -, hnp, -, hi, h0⟩ := Ptable.run_init
  obtain ⟨s', hrun', hproc, hl', hi'⟩ := TStep.fork hc hpc hl hnp
  obtain ⟨d, hd⟩ := LifeStep.of_run ⟨[], []⟩ (hrun.append hrun')
  obtain ⟨hcur, -, -, hpar⟩ := life_cycle Ptable.boot_start hd
  have h01 : slot0 ≠ slot1 := by decide
  have h0' : (s'.proc slot0).state = .running := by simp [hproc, h0, h01]
  have h1' : (s'.proc slot1).state = .runnable := by simp [hproc]
  refine ⟨_, (s', d), hd, (hcur hl' slot0).mp h0', hpar slot1 ?_ (by simp [h1']) (by simp [h1'])⟩
  show slot1 ≠ s'.initproc
  rw [hi', hi]
  exact h01.symm

end Xv6
