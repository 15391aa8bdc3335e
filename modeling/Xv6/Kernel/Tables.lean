import Xv6.Kernel.Request

/-!
# Open files and mappings of processes

Most operations of the kernel leave the tables of all processes alone: the open
files, the mappings up to their counters of loaded pages, and which slots hold a
live process (`view`).  `Inert` says so of a program, once for each operation.
What is left changes one process's tables: `wmap`, `wunmap`, `fork`, `exit` and
the system calls on files.
-/

namespace Xv6

open Prog Function

variable {p c : Nat} {f : Proc → Proc}

/-- Slots that are not in use, or only until they are reaped. -/
def ProcState.dead : ProcState → Bool
  | .unused | .zombie => true
  | _ => false

/-- The mappings, without the counters of loaded pages. -/
def Proc.table (pr : Proc) : Nat → MmapRegion := fun i => { pr.mmap i with nLoadedPages := 0 }

/-- The tables of a process, and whether it is live. -/
def Proc.tables (pr : Proc) : (Nat → Option Nat) × Bool × (Nat → MmapRegion) × Int :=
  (pr.ofile, pr.state.dead, pr.table, pr.totalMmaps)

/-- The tables of all processes, the references of files and the processors' processes. -/
def view (s : Kernel) : (Nat → Nat) × (Nat → (Nat → Option Nat) × Bool × (Nat → MmapRegion) × Int) ×
    (Nat → Option Nat) :=
  (s.fileRef, fun p => (s.proc p).tables, fun c => (s.cpu c).proc)

variable {s s' : Kernel} {α : Type}

theorem view_iff : view s' = view s ↔ s'.fileRef = s.fileRef ∧
    (∀ p, (s'.proc p).tables = (s.proc p).tables) ∧ ∀ c, (s'.cpu c).proc = (s.cpu c).proc := by
  simp only [view, Prod.mk.injEq, funext_iff]

theorem Proc.tables_state {pr : Proc} {t : ProcState} (h : t.dead = pr.state.dead) :
    { pr with state := t }.tables = pr.tables := by
  unfold Proc.tables
  rw [h]
  rfl

/-- The counter of a region is not part of the tables. -/
theorem Proc.tables_setMmap {pr : Proc} {i : Nat} {f : MmapRegion → MmapRegion}
    (h : { f (pr.mmap i) with nLoadedPages := 0 } = { pr.mmap i with nLoadedPages := 0 }) :
    (pr.setMmap i f).tables = pr.tables := by
  have htab : (pr.setMmap i f).table = pr.table := by
    funext j
    unfold Proc.table Proc.setMmap
    dsimp only
    by_cases hj : j = i
    · rw [hj, update_self]
      exact h
    · rw [update_of_ne hj]
  unfold Proc.tables
  rw [htab]
  rfl

/-! ## Programs that leave the tables alone -/

abbrev Inert {α : Type} (x : K α) : Prop := Keeps view x

theorem view_setProc (h : (f (s.proc p)).tables = (s.proc p).tables) :
    view (s.setProc p f) = view s := by
  refine view_iff.mpr ⟨rfl, fun q => ?_, fun _ => rfl⟩
  by_cases hq : q = p
  · subst hq
    rw [Kernel.setProc_self]
    exact h
  · rw [Kernel.setProc_ne _ _ hq]

theorem inert_setProc (h : ∀ pr, (f pr).tables = pr.tables) : Inert (setProc p f) :=
  Keeps.modify fun _ => view_setProc (h _)

theorem inert_onMem (x : M α) : Inert (onMem x) := Keeps.zoom fun _ _ => rfl

theorem inert_getProc (p : Nat) : Inert (getProc p) := by
  intro s
  rw [wp_getProc]

theorem inert_myproc (c : Nat) : Inert (myproc c) := by
  intro s
  rw [wp_myproc]
  cases (s.cpu c).proc with
  | none => trivial
  | some p => rfl

theorem inert_lcr3 (c d : Nat) : Inert (lcr3 c d) := by
  refine Keeps.modify fun s => view_iff.mpr ⟨rfl, fun _ => rfl, fun c' => ?_⟩
  by_cases hc : c' = c
  · subst hc
    rw [Kernel.setCpu_self]
  · rw [Kernel.setCpu_ne _ _ hc]

theorem inert_panic (msg : String) : Inert (panic msg : K α) := Keeps.throw _

theorem inert_switchuvm (c p : Nat) : Inert (switchuvm c p) :=
  .bind (inert_getProc p) fun _ => .ite (fun _ => inert_panic _) fun _ =>
    .ite (fun _ => inert_panic _) fun _ => inert_lcr3 c _

theorem inert_ofileAt (pr : Proc) (fd : Int) : Inert (ofileAt pr fd) :=
  .ite (fun _ => .pure _) fun _ => .throw _

theorem inert_wakeup1 (chan : Option Nat) : Inert (wakeup1 chan) := by
  refine Keeps.modify fun s => view_iff.mpr ⟨rfl, fun p => ?_, fun _ => rfl⟩
  dsimp only
  split
  next h => rw [Proc.tables_state (by rw [h.2.1]; rfl)]
  next => rfl

section

variable [Link]

omit [Link] in
theorem inert_writeBack (p : Nat) (r : MmapRegion) (a f : Nat) : Inert (writeBack p r a f) := by
  refine .ite (fun _ => .bind (inert_getProc p) fun pr => .bind (inert_ofileAt pr _) fun o => ?_)
    fun _ => .pure _
  cases o with
  | none => exact .pure _
  | some file => exact .modify fun _ => rfl

theorem inert_unmapLoop (p : Nat) (r : MmapRegion) (as : List Nat) :
    Inert (unmapLoop p r as) := by
  induction as with
  | nil => exact .pure _
  | cons a as ih =>
    unfold unmapLoop
    refine .bind (inert_getProc p) fun pr => .bind (inert_onMem _) fun o => ?_
    cases o with
    | none => exact ih
    | some ptr =>
      exact .bind (inert_onMem _) fun pte => .ite (fun _ =>
        .bind (inert_writeBack p r a _) fun _ => .bind (inert_onMem _) fun _ =>
          .bind (inert_onMem _) fun _ => ih) fun _ => ih

omit [Link] in
theorem inert_reparent (p : Nat) : Inert (reparent p) := by
  refine .forM fun q => .bind .get fun s => .ite (fun _ =>
    .bind (inert_setProc fun _ => rfl) fun _ =>
      .ite (fun _ => inert_wakeup1 _) fun _ => .pure _) fun _ => .pure _

theorem inert_growproc (c : Nat) (n : Int) : Inert (growproc c n) := by
  refine .bind (inert_myproc c) fun p => .bind (inert_getProc p) fun pr => ?_
  have hset : ∀ sz, Inert (do
      setProc p fun pr => { pr with sz := sz }
      switchuvm c p
      pure (0 : Int)) := fun sz =>
    .bind (inert_setProc fun _ => rfl) fun _ =>
      .bind (inert_switchuvm c p) fun _ => .pure _
  refine .ite (fun _ => .bind (inert_onMem _) fun sz => .ite (fun _ => .pure _) fun _ => hset sz)
    fun _ => .ite (fun _ => .bind (inert_onMem _) fun sz => .ite (fun _ => .pure _) fun _ => hset sz)
    fun _ => .bind (inert_switchuvm c p) fun _ => .pure _

omit [Link] in
theorem inert_kill (pid : Int) : Inert (kill pid) := by
  intro s
  unfold kill
  rw [wp_bind, wp_get]
  cases (List.range nproc).find? fun p => (s.proc p).pid = pid with
  | none => exact (wp_pure ..).mpr rfl
  | some p =>
    dsimp only
    rw [wp_bind, wp_setProc, wp_pure]
    refine view_setProc ?_
    unfold Proc.tables Proc.table
    dsimp only
    split
    next h => rw [h]; rfl
    next => rfl

/-- The slot of a zombie is given back. -/
theorem inert_reap {q : Nat} (hz : (s.proc q).state = .zombie) :
    wp (reap q) (fun _ s' => view s' = view s) (fun _ => True) s := by
  unfold reap
  rw [wp_bind, wp_getProc, wp_bind, wp_onMem]
  refine wp_of_ok fun _ m1 _ => ?_
  rw [wp_bind, wp_setProc, wp_bind, wp_onMem]
  refine wp_of_ok fun _ m2 _ => ?_
  rw [wp_bind, wp_setProc, wp_pure]
  refine view_iff.mpr ⟨rfl, fun p => ?_, fun _ => rfl⟩
  by_cases hp : p = q
  · subst hp
    simp [Kernel.setProc, Proc.tables, hz, ProcState.dead]
    rfl
  · simp [Kernel.setProc, update_of_ne hp]

omit [Link] in
theorem inert_loadPage (p f : Nat) (r : MmapRegion) (io : Option (List Byte)) :
    Inert (loadPage p f r io) := by
  refine .bind (inert_getProc p) fun pr => .bind (inert_ofileAt pr _) fun o => ?_
  cases o with
  | none => exact .throw _
  | some _ =>
    cases io with
    | none => exact .pure _
    | some bs => exact .bind (inert_onMem _) fun _ => .pure _

omit [Link] in
theorem MemOnly.inert {x : K α} (h : MemOnly c x) : Inert x := by
  intro s
  refine wp_post (h s) fun _ s' ho => view_iff.mpr ⟨by rw [ho.eq], fun p => by rw [ho.proc], ?_⟩
  intro c'
  by_cases hc : c' = c
  · rw [hc, ho.cur]
  · rw [ho.other c' hc]

theorem inert_copyuvm (c pgdir sz : Nat) : Inert (copyuvm c pgdir sz) :=
  (memOnly_copyuvm pgdir sz).inert

end

/-! ## Properties of the tables -/

/-- Processor `c` runs the live process `p`. -/
structure Cur (c p : Nat) (s : Kernel) : Prop where
  cur : (s.cpu c).proc = some p
  lt : p < nproc
  live : (s.proc p).state.dead = false

theorem Cur.congr (h : Cur c p s) (hv : view s' = view s) : Cur c p s' := by
  obtain ⟨-, hproc, hcpu⟩ := view_iff.mp hv
  exact ⟨(hcpu c).trans h.cur, h.lt, (congrArg (fun t => t.2.1) (hproc p)).trans h.live⟩

theorem Cur.of_eq (h : Cur c p s) (hproc : s'.proc = s.proc) (hcpu : s'.cpu = s.cpu) : Cur c p s' :=
  ⟨by rw [hcpu]; exact h.cur, h.lt, by rw [hproc]; exact h.live⟩

theorem Cur.setProc (h : Cur c p s) (hlive : (f (s.proc p)).state.dead = false) :
    Cur c p (s.setProc p f) := by
  refine ⟨h.cur, h.lt, ?_⟩
  rw [Kernel.setProc_self]
  exact hlive

theorem At.curProc {d : Nat} (h : At c p d s) (hp : p < nproc) : Cur c p s :=
  ⟨h.cur, hp, by rw [h.state]; rfl⟩

section

variable [Link] {β : Type} {I : Kernel → Prop}

/-- A property of the tables and the references that the exit of a process keeps. -/
structure Tabled (I : Kernel → Prop) : Prop where
  congr : ∀ {s s' : Kernel}, s'.fileRef = s.fileRef →
    (∀ p, (s'.proc p).tables = (s.proc p).tables) → I s → I s'
  exit : ∀ {c p : Nat} {s : Kernel}, Cur c p s → I s → wp (exit c) (fun _ => I) (fun _ => True) s

omit [Link] in
/-- The operation `x` of `p` on `c` keeps the property. -/
def Settles (I : Kernel → Prop) (c p : Nat) (x : K α) : Prop :=
  ∀ s, Cur c p s → I s → wp x (fun _ => I) (fun _ => True) s

theorem Tabled.view (h : Tabled I) (hv : view s' = view s) (hs : I s) : I s' := by
  obtain ⟨href, htab, -⟩ := view_iff.mp hv
  exact h.congr href htab hs

theorem Tabled.inert (h : Tabled I) {x : K α} (hx : Inert x) : Settles I c p x := by
  intro s _ hs
  exact wp_post (hx s) (fun _ _ hv => h.view hv hs)

theorem Tabled.seq (h : Tabled I) {x : K α} {f : α → K β} (hx : Inert x)
    (hf : ∀ a, Settles I c p (f a)) : Settles I c p (x >>= f) := by
  intro s hc hs
  rw [wp_bind]
  refine wp_post (hx s) ?_
  intro a s1 hv
  exact hf a s1 (hc.congr hv) (h.view hv hs)

omit [Link] in
theorem Settles.ite {q : Prop} [Decidable q] {x y : K α} (hx : q → Settles I c p x)
    (hy : ¬ q → Settles I c p y) : Settles I c p (if q then x else y) := iteInduction hx hy

omit [Link] in
theorem Settles.drop {x : K α} (h : Settles I c p x) (b : β) :
    Settles I c p (x >>= fun _ => pure b) := by
  intro s hc hs
  rw [wp_bind]
  exact wp_post (h s hc hs) (fun _ _ h1 => (wp_pure ..).mpr h1)

section

variable (h : Tabled I)
include h

/-- A process that gives the processor up without a change to its tables. -/
theorem Tabled.leave (hs : I s) (htab : (f (s.proc p)).tables = (s.proc p).tables) :
    wp (setProc p f >>= fun _ => toScheduler c) (fun _ => I) (fun _ => True) s := by
  unfold toScheduler
  rw [wp_bind, wp_setProc, wp_modify]
  obtain ⟨href, hproc, -⟩ := view_iff.mp (view_setProc htab)
  exact h.congr href hproc hs

theorem Tabled.killSelf : Settles I c p (Xv6.killSelf c p) :=
  h.seq (inert_setProc fun _ => rfl) fun _ _ hc hs => h.exit hc hs

theorem Tabled.cowFault (va : Nat) (ptr : PtePtr) (pte : Word) :
    Settles I c p (cowFault c p va ptr pte) := by
  refine h.seq (inert_getProc p) fun pr => h.seq .get fun s => .ite
    (fun _ => h.inert (.bind (inert_onMem _) fun _ => inert_lcr3 c _))
    fun _ => h.seq (inert_onMem _) fun o => ?_
  cases o with
  | none => exact h.killSelf
  | some f =>
    exact h.inert (.bind (inert_onMem _) fun _ => .bind (inert_onMem _) fun _ =>
      .bind (inert_lcr3 c _) fun _ => .bind (inert_onMem _) fun _ => .bind (inert_onMem _) fun _ =>
        .ite (fun _ => .bind (inert_lcr3 c _) fun _ => .bind (inert_onMem _) fun _ => inert_onMem _)
          fun _ => inert_panic _)

theorem Tabled.lazyAlloc (va i : Nat) (io : Option (List Byte)) :
    Settles I c p (lazyAlloc c p va i io) := by
  refine h.seq (inert_getProc p) fun pr => h.seq (inert_onMem _) fun o => ?_
  cases o with
  | none => exact h.killSelf
  | some f =>
    have hend : ∀ loaded : Bool, Settles I c p (if loaded then
        setProc p fun pr => pr.setMmap i fun r => { r with nLoadedPages := r.nLoadedPages + 1 }
      else do
        onMem (kfree (kva f))
        Xv6.killSelf c p) := fun _ => .ite
      (fun _ => h.inert (inert_setProc fun _ => Proc.tables_setMmap rfl))
      fun _ => h.seq (inert_onMem _) fun _ => h.killSelf
    exact h.seq (inert_onMem _) fun _ => h.seq (inert_onMem _) fun _ =>
      .ite (fun _ => .ite (fun _ => h.seq (inert_loadPage p f _ io) hend) fun _ => hend true)
      fun _ => h.seq (inert_onMem _) fun _ => h.killSelf

theorem Tabled.pagefaultDefault (va : Nat) (io : Option (List Byte)) :
    Settles I c p (pagefaultDefault c p va io) := by
  refine h.seq (inert_getProc p) fun pr => ?_
  cases findRegion pr.mmap va with
  | none => exact h.killSelf
  | some i => exact h.lazyAlloc va i io

theorem Tabled.trapPgflt (va : Nat) (io : Option (List Byte)) : Settles I c p (trapPgflt c va io) := by
  intro s hc hs
  unfold Xv6.trapPgflt
  rw [wp_bind, wp_myproc, hc.cur]
  refine h.seq (inert_getProc p) (fun pr => h.seq (inert_onMem _) fun o => ?_) s hc hs
  cases o with
  | none => exact h.pagefaultDefault va io
  | some ptr =>
    exact h.seq (inert_onMem _) fun pte => .ite (fun _ => h.pagefaultDefault va io) fun _ =>
      .ite (fun _ => h.cowFault va ptr pte) fun _ => h.pagefaultDefault va io

theorem Tabled.access (va : Nat) (b : Option Byte) (io : Option (List Byte)) :
    Settles I c p (access c va b io) := by
  refine h.seq .get fun s => ?_
  cases translate s.mem (s.cpu c).cr3 va b.isSome with
  | none => exact h.trapPgflt va io
  | some f =>
    cases b with
    | none => exact h.inert (.pure _)
    | some b => exact h.inert (inert_onMem _)

theorem Tabled.wait : Settles I c p (wait c) := by
  intro s hc hs
  unfold Xv6.wait
  rw [wp_bind, wp_myproc, hc.cur]
  dsimp only
  rw [wp_bind, wp_get]
  cases hz : zombieChild s p with
  | some q =>
    dsimp only
    rw [wp_bind]
    refine wp_post (inert_reap (zombieChild_spec hz).2) ?_
    intro pid s1 hv
    rw [wp_pure]
    exact h.view hv hs
  | none =>
    dsimp only
    rw [wp_ite]
    split
    · rw [wp_pure]
      exact hs
    · have hleave := h.leave (c := c) (p := p)
        (f := fun pr => { pr with chan := some p, state := .sleeping, cont := .waiting }) hs
        (Proc.tables_state (by rw [hc.live]; rfl))
      rw [wp_bind] at hleave ⊢
      refine wp_post hleave ?_
      intro _ s1 h1
      rw [wp_bind]
      refine wp_post h1 ?_
      intro _ s2 h2
      rw [wp_pure]
      exact h2

end

theorem inert_exec (file : Option Readi) (argv : List (List Byte)) :
    Inert (exec c file argv) := by
  refine .bind (inert_myproc c) fun p => ?_
  cases file with
  | none => exact .pure _
  | some readi =>
    refine .bind (inert_onMem _) fun o => ?_
    rcases o with _ | ⟨d, sz⟩
    · exact .pure _
    · exact .bind (inert_getProc p) fun old => .bind (inert_setProc fun _ => rfl) fun _ =>
        .bind (inert_switchuvm c p) fun _ => .bind (inert_onMem _) fun _ => .pure _

/-- The calls that change tables. -/
def Call.Moves : Call → Bool
  | .fork | .wmap .. | .wunmap _ => true
  | _ => false

theorem Tabled.body (h : Tabled I) {call : Call} (hno : call.Moves = false) :
    Settles I c p (call.body c) := by
  cases call with
  | fork => cases hno
  | exit => exact fun _ hc hs => h.exit hc hs
  | wait => exact h.wait.drop ()
  | kill pid => exact (h.inert (inert_kill pid)).drop ()
  | sbrk n => exact (h.inert (inert_growproc c _)).drop ()
  | exec file argv => exact (h.inert (inert_exec file argv)).drop ()
  | wmap addr length flags fd => cases hno
  | wunmap addr => cases hno

omit [Link] in
theorem tables_dispatch (hrun : (s.proc p).state = .runnable) (q : Nat) :
    ((s.dispatch c p).proc q).tables = (s.proc q).tables := by
  unfold Kernel.dispatch
  dsimp only
  by_cases hq : q = p
  · rw [hq, update_self]
    exact Proc.tables_state (by rw [hrun]; rfl)
  · rw [update_of_ne hq]

/-- What is left for an invariant of events: the calls that change tables. -/
theorem Tabled.preserved {e : Event} (h : Tabled I) (hs : I s)
    (hcall : ∀ {c p : Nat} {call : Call}, e = .syscall c call → call.Moves = true → Cur c p s →
      (s.proc p).killed = false → wp (call.body c) (fun _ => I) (fun _ => True) s) :
    Preserved I e s where
  exit hat hp hs := h.exit (hat.curProc hp) hs
  yield := by
    intro c p _ hat hp
    unfold yield
    rw [wp_bind, wp_myproc, hat.cur]
    exact h.leave hs (Proc.tables_state (by rw [hat.state]; rfl))
  call := by
    intro c p call he hat hp hk
    cases hmove : call.Moves with
    | true => exact hcall he hmove (hat.curProc hp) hk
    | false => exact h.body hmove s (hat.curProc hp) hs
  access := by
    intro c p va b io _ hat hp
    exact h.access va b io s (hat.curProc hp) hs
  dispatch := by
    intro c p _ _ _ hrun
    exact h.congr (s := s) rfl (tables_dispatch hrun) hs
  wait := by
    intro c p _ _ hp hrun _
    have hat := at_dispatch s c p
    refine h.wait _ ((hat.curProc hp).setProc (by rw [hat.state]; rfl)) ?_
    exact h.view (view_setProc rfl) (h.congr (s := s) rfl (tables_dispatch hrun) hs)

end

end Xv6
