import Xv6.Kernel.System

/-!
# Processes and processors

What the kernel's operations do to the process table and to the processors,
whatever the memory holds.  An operation on processor `c` for its process `p`
leaves the other processors alone, and the processes that run on them (`Local`).

`Calm` operations stay with the process: they return to it, in its address space.
With the flag set they may only load CR3 with the process's own directory.
`Closing` operations may also leave the processor, or give the process another
directory and load it.  Every system call but `fork` is one or the other.
-/

namespace Xv6

open Prog Function

variable {s s1 s2 s' : Kernel} {c p d q : Nat} {b : Bool} {F : Fault → Prop}

/-- Other processors, and other running processes, are as before. -/
structure Local (c p : Nat) (s s' : Kernel) : Prop where
  cpu : ∀ c' ≠ c, s'.cpu c' = s.cpu c'
  run : ∀ q ≠ p, (s.proc q).state = .running →
    (s'.proc q).state = .running ∧ (s'.proc q).pgdir = (s.proc q).pgdir

/-- Processor `c` runs `p`, whose directory is `d`. -/
structure At (c p d : Nat) (s : Kernel) : Prop where
  cur : (s.cpu c).proc = some p
  state : (s.proc p).state = .running
  pgdir : (s.proc p).pgdir = d

/-- `c` still runs `p`.  With `b` its CR3 is as before, or `p`'s own directory. -/
structure Stays (b : Bool) (c p d : Nat) (s s' : Kernel) : Prop extends Local c p s s' where
  at_ : At c p d s'
  cr3 : b = true → (s'.cpu c).cr3 = (s.cpu c).cr3 ∨ (s'.cpu c).cr3 = d

/-- `c` left `p`, or runs it with a directory that is loaded if the old one was. -/
structure Ends (c p d : Nat) (s s' : Kernel) : Prop extends Local c p s s' where
  out : (s'.cpu c).proc = none ∨ ∃ d', At c p d' s' ∧ ((s.cpu c).cr3 = d → (s'.cpu c).cr3 = d')

theorem Local.refl (c p : Nat) (s : Kernel) : Local c p s s :=
  ⟨fun _ _ => rfl, fun _ _ h => ⟨h, rfl⟩⟩

theorem Local.trans (h : Local c p s s1) (h' : Local c p s1 s2) : Local c p s s2 := by
  refine ⟨fun c' hc => (h'.cpu c' hc).trans (h.cpu c' hc), ?_⟩
  intro q hq hr
  obtain ⟨h1, h2⟩ := h.run q hq hr
  obtain ⟨h3, h4⟩ := h'.run q hq h1
  exact ⟨h3, h4.trans h2⟩

theorem Stays.refl (h : At c p d s) : Stays b c p d s s :=
  ⟨Local.refl c p s, h, fun _ => .inl rfl⟩

theorem Stays.trans (h : Stays b c p d s s1) (h' : Stays b c p d s1 s2) : Stays b c p d s s2 := by
  refine ⟨h.toLocal.trans h'.toLocal, h'.at_, fun hb => ?_⟩
  rcases h'.cr3 hb with h2 | h2
  · rcases h.cr3 hb with h1 | h1
    · exact .inl (h2.trans h1)
    · exact .inr (h2.trans h1)
  · exact .inr h2

/-- The processors are as before, and the running processes as far as `Local` goes. -/
theorem Stays.of_run (hs : At c p d s) (hcpu : s'.cpu = s.cpu)
    (h : ∀ r, (s.proc r).state = .running →
      (s'.proc r).state = .running ∧ (s'.proc r).pgdir = (s.proc r).pgdir) :
    Stays b c p d s s' := by
  obtain ⟨hrun, hdir⟩ := h p hs.state
  refine ⟨⟨fun c' _ => by rw [hcpu], fun r _ hr => h r hr⟩, ⟨?_, hrun, hdir.trans hs.pgdir⟩, ?_⟩
  · rw [hcpu]
    exact hs.cur
  · exact fun _ => .inl (by rw [hcpu])

theorem Stays.rest (hs : At c p d s) (hcpu : s'.cpu = s.cpu) (hproc : s'.proc = s.proc) :
    Stays b c p d s s' :=
  .of_run hs hcpu fun r hr => by rw [hproc]; exact ⟨hr, rfl⟩

theorem Stays.setProc {f : Proc → Proc} (hs : At c p d s) (hf : (s.proc q).state = .running →
      (f (s.proc q)).state = .running ∧ (f (s.proc q)).pgdir = (s.proc q).pgdir) :
    Stays b c p d s (s.setProc q f) := by
  refine .of_run hs rfl fun r hr => ?_
  by_cases hrq : r = q
  · subst hrq
    rw [s.setProc_self]
    exact hf hr
  · rw [s.setProc_ne f hrq]
    exact ⟨hr, rfl⟩

theorem Stays.ends (h : Stays true c p d s s') : Ends c p d s s' := by
  refine ⟨h.toLocal, .inr ⟨d, h.at_, fun h0 => ?_⟩⟩
  rcases h.cr3 rfl with h1 | h1
  · exact h1.trans h0
  · exact h1

theorem Stays.ends_trans (h : Stays true c p d s s1) (h' : Ends c p d s1 s2) : Ends c p d s s2 := by
  refine ⟨h.toLocal.trans h'.toLocal, ?_⟩
  rcases h'.out with h2 | ⟨d', h2, h3⟩
  · exact .inl h2
  · refine .inr ⟨d', h2, fun h0 => h3 ?_⟩
    rcases h.cr3 rfl with h1 | h1
    · exact h1.trans h0
    · exact h1

/-! ## Programs -/

/-- The program stays with the process. -/
def Calm (b : Bool) (c p d : Nat) {α : Type} (x : K α) : Prop :=
  ∀ s, At c p d s → wp x (fun _ s' => Stays b c p d s s') (fun _ => True) s

/-- The program may leave the process. -/
def Closing (c p d : Nat) {α : Type} (x : K α) : Prop :=
  ∀ s, At c p d s → wp x (fun _ s' => Ends c p d s s') (fun _ => True) s

variable {α β : Type}

theorem Calm.closing {x : K α} (h : Calm true c p d x) : Closing c p d x :=
  fun s hs => wp_post (h s hs) (fun _ _ h => h.ends)

theorem Calm.bindClosing {x : K α} {f : α → K β} (h : Calm true c p d x)
    (hf : ∀ a, Closing c p d (f a)) : Closing c p d (x >>= f) := by
  intro s hs
  rw [wp_bind]
  refine wp_post (h s hs) ?_
  intro a s1 h1
  exact wp_post (hf a s1 h1.at_) (fun _ _ h2 => h1.ends_trans h2)

theorem Closing.ite {q : Prop} [Decidable q] {x y : K α} (hx : q → Closing c p d x)
    (hy : ¬ q → Closing c p d y) : Closing c p d (if q then x else y) := iteInduction hx hy

instance : Steady (At c p d) (Stays b c p d) where
  refl := .refl
  trans _ h h' := h.trans h'
  stays _ h := h.at_

namespace Calm

theorem pure (a : α) : Calm b c p d (Pure.pure a : K α) := Moves.pure a

theorem throw (e : Fault) : Calm b c p d (MonadExcept.throw e : K α) := by
  intro s _
  rw [wp_throw]
  trivial

theorem bind {x : K α} {f : α → K β} (h : Calm b c p d x) (hf : ∀ a, Calm b c p d (f a)) :
    Calm b c p d (x >>= f) := Moves.bind h hf

theorem ite {q : Prop} [Decidable q] {x y : K α} (hx : q → Calm b c p d x)
    (hy : ¬ q → Calm b c p d y) : Calm b c p d (if q then x else y) := iteInduction hx hy

theorem forM {l : List β} {body : β → K PUnit} (h : ∀ i, Calm b c p d (body i)) :
    Calm b c p d (l.forM body) := Moves.forM h

/-- A change that keeps the states and directories of running processes. -/
theorem modify {f : Kernel → Kernel}
    (h : ∀ s, At c p d s → Stays b c p d s (f s)) : Calm b c p d (modify f : K PUnit) := by
  intro s hs
  rw [wp_modify]
  exact h s hs

theorem get : Calm b c p d (MonadState.get : K Kernel) := Moves.get

theorem onMem (x : M α) : Calm b c p d (onMem x) := by
  intro s hs
  rw [wp_onMem]
  exact wp_of_ok fun _ m _ => .rest hs rfl rfl

theorem getProc {f : Proc → K α} (h : ∀ pr, (q = p → pr.pgdir = d) → Calm b c p d (f pr)) :
    Calm b c p d (getProc q >>= f) := by
  intro s hs
  rw [wp_bind, wp_getProc]
  refine h (s.proc q) ?_ s hs
  rintro rfl
  exact hs.pgdir

theorem myproc {f : Nat → K α} (h : Calm b c p d (f p)) : Calm b c p d (myproc c >>= f) := by
  intro s hs
  rw [wp_bind, wp_myproc, hs.cur]
  exact h s hs

theorem setProc {f : Proc → Proc} (hstate : ∀ pr, (f pr).state = pr.state)
    (hpgdir : ∀ pr, (f pr).pgdir = pr.pgdir) : Calm b c p d (setProc p f) := by
  intro s hs
  rw [wp_setProc]
  exact .setProc hs fun h => ⟨(hstate _).trans h, hpgdir _⟩

theorem lcr3 : Calm b c p d (lcr3 c d) := by
  intro s hs
  rw [wp_lcr3]
  refine ⟨⟨fun c' hc => s.setCpu_ne _ hc, fun _ _ h => ⟨h, rfl⟩⟩, ⟨?_, hs.state, hs.pgdir⟩,
    fun _ => .inr ?_⟩
  · rw [s.setCpu_self]
    exact hs.cur
  · rw [s.setCpu_self]

end Calm

/-! ## Operations that stay -/

theorem calm_filedup (f : Nat) : Calm b c p d (filedup f) := by
  intro s hs
  unfold filedup
  rw [wp_bind, wp_get, wp_ite]
  split
  · rw [panic, wp_throw]
    trivial
  · rw [wp_set]
    exact .rest hs rfl rfl

theorem calm_fileclose (f : Nat) : Calm b c p d (fileclose f) := by
  intro s hs
  unfold fileclose
  rw [wp_bind, wp_get, wp_ite]
  split
  · rw [panic, wp_throw]
    trivial
  · rw [wp_set]
    exact .rest hs rfl rfl

theorem calm_ofileAt (pr : Proc) (fd : Int) : Calm b c p d (ofileAt pr fd) :=
  .ite (fun _ => .pure _) fun _ => .throw _

theorem calm_switchuvm : Calm b c p d (switchuvm c p) := by
  unfold switchuvm
  refine .getProc fun pr hpr => .ite (fun _ => .throw _) fun _ => .ite (fun _ => .throw _) fun _ => ?_
  rw [hpr rfl]
  exact .lcr3

theorem calm_wmap (addr length flags fd : Word) :
    Calm b c p d (wmap c addr length flags fd) := by
  unfold wmap
  refine .myproc (.ite (fun _ => .pure _) fun _ => .ite (fun _ => .pure _) fun _ =>
    .ite (fun _ => .pure _) fun _ => .getProc fun pr _ => .ite (fun _ => .pure _) fun _ => ?_)
  cases freeSlot pr.mmap with
  | none => exact .pure _
  | some i =>
    refine .bind (.setProc (fun _ => rfl) fun _ => rfl) fun _ => .ite (fun _ => ?_) fun _ => .pure _
    unfold wmapFile
    refine .getProc fun pr _ => .bind (calm_ofileAt _ _) fun r => ?_
    cases r with
    | none => exact .pure _
    | some f =>
      refine .bind (calm_filedup f) fun _ => ?_
      cases (List.range nofile).find? fun j => (pr.ofile j).isNone with
      | none => exact .pure _
      | some j =>
        exact .bind (calm_filedup f) fun _ => .bind (.setProc (fun _ => rfl) fun _ => rfl)
          fun _ => .bind (.setProc (fun _ => rfl) fun _ => rfl) fun _ => .pure _

section
variable [Link]

theorem calm_unmapLoop (r : MmapRegion) (as : List Nat) : Calm b c p d (unmapLoop p r as) := by
  induction as with
  | nil => exact .pure _
  | cons a as ih =>
    rw [unmapLoop]
    refine .getProc fun pr _ => .bind (.onMem _) fun o => ?_
    cases o with
    | none => exact ih
    | some ptr =>
      refine .bind (.onMem _) fun pte => .ite (fun _ => ?_) fun _ => ih
      refine .bind ?_ fun _ => .bind (.onMem _) fun _ => .bind (.onMem _) fun _ => ih
      unfold writeBack
      refine .ite (fun _ => .getProc fun pr _ => .bind (calm_ofileAt _ _) fun o => ?_)
        fun _ => .pure _
      cases o with
      | none => exact .pure _
      | some file =>
        exact .modify fun s hs => .rest hs rfl rfl

theorem calm_wunmap (addr : Nat) : Calm b c p d (wunmap c addr) := by
  unfold wunmap
  refine .myproc (.getProc fun pr _ => ?_)
  cases findRegion pr.mmap addr with
  | none => exact .pure _
  | some i =>
    exact .bind (calm_unmapLoop _ _) fun _ => .bind (.setProc (fun _ => rfl) fun _ => rfl)
      fun _ => .pure _

theorem calm_sysWunmap (addr : Word) : Calm b c p d (sysWunmap c addr) :=
  .ite (fun _ => .pure _) fun _ => calm_wunmap _

theorem calm_growproc (n : Int) : Calm b c p d (growproc c n) := by
  have hdone : ∀ sz : Nat, Calm b c p d (do
      if sz = 0 then Pure.pure (-1)
      else do
        setProc p fun pr => { pr with sz := sz }
        switchuvm c p
        Pure.pure 0 : K Int) := fun sz =>
    .ite (fun _ => .pure _) fun _ => .bind (.setProc (fun _ => rfl) fun _ => rfl) fun _ =>
      .bind calm_switchuvm fun _ => .pure _
  unfold growproc
  refine .myproc (.getProc fun pr _ => .ite (fun _ => ?_) fun _ => .ite (fun _ => ?_) fun _ => ?_)
  · exact .bind (.onMem _) hdone
  · exact .bind (.onMem _) hdone
  · exact .bind calm_switchuvm fun _ => .pure _

/-! ## `exit`, `wait`, `kill` and the page fault -/

omit [Link] in
theorem calm_closeFiles : Calm b c p d (closeFiles p) := by
  refine .forM fun i => .getProc fun pr _ => ?_
  cases pr.ofile i with
  | none => exact .pure _
  | some f => exact .bind (calm_fileclose f) fun _ => .setProc (fun _ => rfl) fun _ => rfl

theorem calm_exitMaps : Calm b c p d (exitMaps c p) := by
  refine .forM fun i => .getProc fun pr _ => .bind (.onMem _) fun o => ?_
  cases o with
  | none => exact .pure _
  | some ptr =>
    exact .bind (.onMem _) fun pte => .ite (fun _ => .bind .get fun s => .ite
      (fun _ => .bind (calm_wunmap _) fun _ => .pure _) fun _ => .pure _) fun _ => .pure _

omit [Link] in
theorem calm_wakeup1 (chan : Option Nat) : Calm b c p d (wakeup1 chan) := by
  refine .modify fun s hs => .of_run hs rfl fun q h => ?_
  dsimp only
  rw [if_neg (by rw [h]; simp)]
  exact ⟨h, rfl⟩

omit [Link] in
theorem calm_reparent : Calm b c p d (reparent p) := by
  refine .forM fun q => .bind .get fun s => .ite (fun _ => .bind ?_ fun _ =>
    .ite (fun _ => calm_wakeup1 _) fun _ => .pure _) fun _ => .pure _
  -- only the parent of `q` changes
  intro s' hs
  rw [wp_setProc]
  exact .setProc hs fun h => ⟨h, rfl⟩

omit [Link] in
/-- The process gives up the processor in some other state. -/
theorem closing_leave (f : Proc → Proc) :
    Closing c p d (setProc p f >>= fun _ => toScheduler c) := by
  intro s hs
  rw [wp_bind, wp_setProc, toScheduler, wp_modify]
  refine ⟨⟨fun c' hc => Kernel.setCpu_ne _ _ hc, fun q hq h => ?_⟩, .inl ?_⟩
  · show ((s.setProc p f).proc q).state = .running ∧ ((s.setProc p f).proc q).pgdir = _
    rw [s.setProc_ne f hq]
    exact ⟨h, rfl⟩
  · rw [Kernel.setCpu_self]

theorem closing_exit : Closing c p d (exit c) := by
  intro s hs
  unfold exit
  rw [wp_bind, wp_myproc, hs.cur]
  dsimp only
  rw [wp_bind, wp_get, wp_ite]
  split
  · rw [panic, wp_throw]
    trivial
  · exact (calm_closeFiles.bindClosing fun _ => calm_exitMaps.bindClosing fun _ => fun s hs => by
      rw [wp_bind, wp_getProc]
      exact ((calm_wakeup1 _).bindClosing fun _ => calm_reparent.bindClosing fun _ =>
        closing_leave _) s hs) s hs

theorem closing_killSelf : Closing c p d (killSelf c p) :=
  Calm.bindClosing (.setProc (fun _ => rfl) fun _ => rfl) fun _ => closing_exit

theorem closing_cowFault (va : Nat) (ptr : PtePtr) (pte : Word) :
    Closing c p d (cowFault c p va ptr pte) := by
  intro s hs
  unfold cowFault
  rw [wp_bind, wp_getProc, wp_bind, wp_get, hs.pgdir, wp_ite]
  split
  · exact (Calm.bind (.onMem _) fun _ => Calm.lcr3).closing s hs
  · refine Calm.bindClosing (.onMem _) (fun o => ?_) s hs
    cases o with
    | none => exact closing_killSelf
    | some f =>
      refine (Calm.bind (.onMem _) fun _ => .bind (.onMem _) fun _ => .bind .lcr3 fun _ =>
        .bind (.onMem _) fun _ => .bind (.onMem _) fun _ => .ite (fun _ => ?_) fun _ =>
        .throw _).closing
      exact .bind .lcr3 fun _ => .bind (.onMem _) fun _ => .onMem _

theorem closing_lazyAlloc (va i : Nat) (io : Option (List Byte)) :
    Closing c p d (lazyAlloc c p va i io) := by
  intro s hs
  unfold lazyAlloc
  rw [wp_bind, wp_getProc]
  refine Calm.bindClosing (.onMem _) (fun o => ?_) s hs
  cases o with
  | none => exact closing_killSelf
  | some f =>
    have hload : Calm true c p d (loadPage p f ((s.proc p).mmap i) io) := by
      unfold loadPage
      refine .getProc fun pr _ => .bind (calm_ofileAt _ _) fun o => ?_
      cases o with
      | none => exact .throw _
      | some _ =>
        cases io with
        | none => exact .pure _
        | some bs => exact .bind (.onMem _) fun _ => .pure _
    have hend : ∀ loaded : Bool, Closing c p d (if loaded then
        setProc p fun pr => pr.setMmap i fun r => { r with nLoadedPages := r.nLoadedPages + 1 }
      else do
        onMem (kfree (kva f))
        killSelf c p) := fun _ => .ite
      (fun _ => Calm.closing (.setProc (fun _ => rfl) fun _ => rfl))
      fun _ => Calm.bindClosing (.onMem _) fun _ => closing_killSelf
    exact Calm.bindClosing (.onMem _) fun _ => Calm.bindClosing (.onMem _) fun _ =>
      .ite (fun _ => .ite (fun _ => hload.bindClosing hend) fun _ => hend true)
      fun _ => Calm.bindClosing (.onMem _) fun _ => closing_killSelf

theorem closing_trapPgflt (va : Nat) (io : Option (List Byte)) :
    Closing c p d (trapPgflt c va io) := by
  have hdefault : Closing c p d (pagefaultDefault c p va io) := by
    intro s hs
    unfold pagefaultDefault
    rw [wp_bind, wp_getProc]
    cases findRegion (s.proc p).mmap va with
    | none => exact closing_killSelf s hs
    | some i => exact closing_lazyAlloc va i io s hs
  intro s hs
  unfold trapPgflt
  rw [wp_bind, wp_myproc, hs.cur]
  dsimp only
  rw [wp_bind, wp_getProc]
  refine Calm.bindClosing (.onMem _) (fun o => ?_) s hs
  cases o with
  | none => exact hdefault
  | some ptr =>
    exact Calm.bindClosing (.onMem _) fun pte => .ite (fun _ => hdefault) fun _ =>
      .ite (fun _ => closing_cowFault va ptr pte) fun _ => hdefault

theorem closing_access (va : Nat) (w : Option Byte) (io : Option (List Byte)) :
    Closing c p d (access c va w io) := by
  intro s hs
  unfold access
  rw [wp_bind, wp_get]
  cases translate s.mem (s.cpu c).cr3 va w.isSome with
  | none => exact closing_trapPgflt va io s hs
  | some f =>
    cases w with
    | none => exact (Calm.pure ()).closing s hs
    | some w => exact (Calm.onMem _).closing s hs

omit [Link] in
theorem zombieChild_spec (h : zombieChild s p = some q) :
    (s.proc q).parent = some p ∧ (s.proc q).state = .zombie := by
  have h := List.find?_some h
  simpa only [decide_eq_true_eq] using h

theorem stays_reap (hs : At c p d s) (hq : (s.proc q).state = .zombie) :
    wp (reap q) (fun _ s' => Stays b c p d s s') (fun _ => True) s := by
  unfold reap
  rw [wp_bind, wp_getProc, wp_bind, wp_onMem]
  refine wp_of_ok fun _ m _ => ?_
  rw [wp_bind, wp_setProc, wp_bind, wp_onMem]
  refine wp_of_ok fun _ m' _ => ?_
  rw [wp_bind, wp_setProc, wp_pure]
  have h1 : Stays b c p d s { s with mem := m } := .rest hs rfl rfl
  have h2 : Stays b c p d { s with mem := m } _ :=
    .setProc (q := q) (f := fun pr => { pr with kstack := 0 }) h1.at_ fun h => ⟨h, rfl⟩
  have h3 : Stays b c p d ({ s with mem := m }.setProc q fun pr => { pr with kstack := 0 })
      { { s with mem := m }.setProc q (fun pr => { pr with kstack := 0 }) with mem := m' } :=
    .rest h2.at_ rfl rfl
  refine ((h1.trans h2).trans h3).trans (.setProc h3.at_ fun h => ?_)
  change (({ s with mem := m }.setProc q fun pr => { pr with kstack := 0 }).proc q).state = _ at h
  rw [Kernel.setProc_self, show _ = (s.proc q).state from rfl, hq] at h
  cases h

theorem closing_wait : Closing c p d (wait c) := by
  intro s hs
  unfold wait
  rw [wp_bind, wp_myproc, hs.cur]
  dsimp only
  rw [wp_bind, wp_get]
  cases hz : zombieChild s p with
  | some q =>
    dsimp only
    rw [wp_bind]
    refine wp_post (stays_reap (b := true) hs (zombieChild_spec hz).2) ?_
    intro pid s1 h1
    rw [wp_pure]
    exact h1.ends
  | none =>
    dsimp only
    rw [wp_ite]
    split
    · rw [wp_pure]
      exact (Stays.refl hs).ends
    · have := closing_leave (c := c) (p := p) (d := d)
        (fun pr => { pr with chan := some p, state := .sleeping, cont := .waiting }) s hs
      rw [wp_bind] at this ⊢
      refine wp_post this ?_
      intro _ s1 h1
      rw [wp_bind]
      refine wp_post h1 ?_
      intro _ s2 h2
      rw [wp_pure]
      exact h2

omit [Link] in
theorem calm_kill (pid : Int) : Calm b c p d (kill pid) := by
  intro s hs
  unfold kill
  rw [wp_bind, wp_get]
  cases (List.range nproc).find? fun p => (s.proc p).pid = pid with
  | none => exact Calm.pure _ s hs
  | some q =>
    dsimp only
    rw [wp_bind, wp_setProc, wp_pure]
    exact .setProc hs fun h => ⟨by rw [h]; rfl, rfl⟩

theorem closing_exec (file : Option Readi) (argv : List (List Byte)) :
    Closing c p d (exec c file argv) := by
  intro s hs
  unfold exec
  rw [wp_bind, wp_myproc, hs.cur]
  dsimp only
  cases file with
  | none => exact (Calm.pure _).closing s hs
  | some readi =>
    refine Calm.bindClosing (.onMem _) (fun o => ?_) s hs
    cases o with
    | none => exact (Calm.pure _).closing
    | some r =>
      obtain ⟨d', sz⟩ := r
      intro s hs
      rw [wp_bind, wp_getProc, wp_bind, wp_setProc]
      have hs' : At c p d' (s.setProc p fun pr => { pr with pgdir := d', sz := sz }) := by
        refine ⟨hs.cur, ?_, ?_⟩
        · rw [s.setProc_self]
          exact hs.state
        · rw [s.setProc_self]
      have hloc : Local c p s (s.setProc p fun pr => { pr with pgdir := d', sz := sz }) := by
        refine ⟨fun _ _ => rfl, fun q hq h => ?_⟩
        rw [s.setProc_ne _ hq]
        exact ⟨h, rfl⟩
      -- `switchuvm` loads the new directory
      unfold switchuvm
      rw [wp_bind, wp_bind, wp_getProc, hs'.pgdir, wp_ite]
      split
      · rw [panic, wp_throw]
        trivial
      rw [wp_ite]
      split
      · rw [panic, wp_throw]
        trivial
      rw [wp_lcr3]
      have h2 := (Calm.lcr3 (b := true) (c := c) (p := p) (d := d')) _ hs'
      rw [wp_lcr3] at h2
      refine wp_post ((Calm.bind (b := true) (.onMem _) fun _ => .pure _) _ h2.at_) ?_
      intro _ s3 h3
      refine ⟨hloc.trans (h2.toLocal.trans h3.toLocal), .inr ⟨d', h3.at_, fun _ => ?_⟩⟩
      rcases h3.cr3 rfl with h | h
      · rw [h, Kernel.setCpu_self]
      · exact h

/-! ## `fork` -/

/-- The memory changed, and CR3 of processor `c`. -/
structure OnlyMem (c : Nat) (s s' : Kernel) : Prop where
  eq : s' = { s with mem := s'.mem, cpu := s'.cpu }
  other : ∀ c' ≠ c, s'.cpu c' = s.cpu c'
  cur : (s'.cpu c).proc = (s.cpu c).proc

section

omit [Link]

theorem OnlyMem.mem (c : Nat) (s : Kernel) (m : Mem) : OnlyMem c s { s with mem := m } :=
  ⟨rfl, fun _ _ => rfl, rfl⟩

theorem OnlyMem.lcr3 (c d : Nat) (s : Kernel) :
    OnlyMem c s (s.setCpu c fun u => { u with cr3 := d }) :=
  ⟨rfl, fun _ hc => s.setCpu_ne _ hc, by rw [Kernel.setCpu_self]⟩

theorem OnlyMem.trans (h : OnlyMem c s s1) (h' : OnlyMem c s1 s2) : OnlyMem c s s2 := by
  refine ⟨?_, fun c' hc => (h'.other c' hc).trans (h.other c' hc), h'.cur.trans h.cur⟩
  rw [h'.eq, h.eq]

theorem OnlyMem.refl (c : Nat) (s : Kernel) : OnlyMem c s s := ⟨rfl, fun _ _ => rfl, rfl⟩

theorem OnlyMem.proc (h : OnlyMem c s s') : s'.proc = s.proc := by
  rw [h.eq]

end

/-- The program changes the memory, and CR3 of processor `c`. -/
def MemOnly (c : Nat) (x : K α) : Prop :=
  ∀ s, wp x (fun _ s' => OnlyMem c s s') (fun _ => True) s

namespace MemOnly

omit [Link]

instance : IsPreorder Kernel (OnlyMem c) where
  refl := .refl c
  trans _ _ _ h h' := h.trans h'

theorem pure (a : α) : MemOnly c (Pure.pure a : K α) := Along.pure a

theorem throw (e : Fault) : MemOnly c (MonadExcept.throw e : K α) := Along.throw e

theorem bind {x : K α} {f : α → K β} (h : MemOnly c x) (hf : ∀ a, MemOnly c (f a)) :
    MemOnly c (x >>= f) := Along.bind h hf

theorem ite {q : Prop} [Decidable q] {x y : K α} (hx : q → MemOnly c x) (hy : ¬ q → MemOnly c y) :
    MemOnly c (if q then x else y) := iteInduction hx hy

theorem onMem (x : M α) : MemOnly c (onMem x) := by
  intro s
  rw [wp_onMem]
  exact wp_of_ok fun _ m _ => .mem c s m

theorem lcr3 (d : Nat) : MemOnly c (lcr3 c d) := fun s => by
  rw [wp_lcr3]
  exact .lcr3 c d s

end MemOnly

theorem memOnly_copyuvm (pgdir sz : Nat) : MemOnly c (copyuvm c pgdir sz) := by
  have hloop : ∀ d vs, MemOnly c (copyLoop c pgdir d vs) := by
    intro d vs
    induction vs with
    | nil => exact .pure _
    | cons v vs ih =>
      rw [copyLoop]
      refine .bind (.onMem _) fun o => ?_
      cases o with
      | none => exact .throw _
      | some ptr =>
        refine .bind (.onMem _) fun pte => .ite (fun _ => .throw _) fun _ => ?_
        have htail : MemOnly c (do
            let cur ← Xv6.onMem (load ptr)
            Xv6.onMem (store ptr (toCow cur))
            Xv6.lcr3 c pgdir
            let ok ← Xv6.onMem (mappages d (v * pgsize) pgsize (pteAddr pte)
              (if flag (pteFlags pte) pteW then toCow (pteFlags pte) else pteFlags pte))
            if ok then do
              Xv6.onMem (incref (pteAddr pte))
              copyLoop c pgdir d vs
            else Pure.pure false) :=
          .bind (.onMem _) fun _ => .bind (.onMem _) fun _ => .bind (.lcr3 _) fun _ =>
            .bind (.onMem _) fun _ => .ite (fun _ => .bind (.onMem _) fun _ => ih) fun _ => .pure _
        exact .ite (fun _ => .bind (.lcr3 _) fun _ => .bind (.onMem _) fun _ =>
          .bind (.lcr3 _) fun _ => htail) fun _ => htail
  unfold copyuvm
  refine .bind (.onMem _) fun o => ?_
  cases o with
  | none => exact .pure _
  | some d =>
    exact .bind (hloop d _) fun _ => .bind (.lcr3 _) fun _ => .ite (fun _ => .pure _) fun _ => .pure _

section

omit [Link]

theorem unusedProc_spec {np : Nat} (h : unusedProc s = some np) :
    np < nproc ∧ (s.proc np).state = .unused := by
  have h1 := List.mem_of_find?_eq_some h
  have h2 := List.find?_some h
  rw [List.mem_range] at h1
  simp only [decide_eq_true_eq] at h2
  exact ⟨h1, h2⟩

/-- The open files of a child: those of the parent, and elsewhere what the slot had. -/
def dupped (o o' : Nat → Option Nat) (l : List Nat) : Nat → Option Nat := fun i =>
  if i ∈ l ∧ (o i).isSome then o i else o' i

@[simp] theorem dupped_nil (o o' : Nat → Option Nat) : dupped o o' [] = o' := by
  funext i
  simp [dupped]

theorem dupped_none {o o' : Nat → Option Nat} {i : Nat} {l : List Nat} (h : o i = none) :
    dupped o o' (i :: l) = dupped o o' l := by
  funext j
  unfold dupped
  by_cases hj : j = i
  · subst hj
    simp [h]
  · simp [hj]

theorem dupped_some {o o' : Nat → Option Nat} {i f : Nat} {l : List Nat} (h : o i = some f)
    (hi : i ∉ l) : dupped o (Function.update o' i (some f)) l = dupped o o' (i :: l) := by
  funext j
  unfold dupped
  by_cases hj : j = i
  · subst hj
    simp [h, hi]
  · simp [hj]

/-- Files were duplicated into slot `np`. -/
structure Dupped (p np : Nat) (l : List Nat) (s s' : Kernel) : Prop where
  eq : s' = { s with proc := s'.proc, fileRef := s'.fileRef }
  other : ∀ q ≠ np, s'.proc q = s.proc q
  slot : s'.proc np = { s.proc np with ofile := dupped (s.proc p).ofile (s.proc np).ofile l }

theorem wp_dupLoop {np : Nat} (hne : p ≠ np) (l : List Nat) : ∀ s : Kernel, l.Nodup →
    (F (.panic "filedup") ∨ ∀ i ∈ l, (s.proc p).ofile i = none) →
    wp (l.forM fun i => do
      let pr ← getProc p
      match pr.ofile i with
      | none => pure ()
      | some f => do
        filedup f
        setProc np fun n => { n with ofile := Function.update n.ofile i (some f) })
      (fun _ s' => Dupped p np l s s') F s := by
  induction l with
  | nil =>
    intro s _ _
    rw [List.forM_eq_forM, List.forM_nil, wp_pure]
    refine ⟨rfl, fun _ _ => rfl, ?_⟩
    rw [dupped_nil]
  | cons i l ih =>
    intro s hnodup hF
    rw [List.nodup_cons] at hnodup
    rw [List.forM_eq_forM, List.forM_cons, wp_bind, wp_bind, wp_getProc]
    cases ho : (s.proc p).ofile i with
    | none =>
      rw [wp_pure]
      refine wp_post (ih s hnodup.2 (hF.imp_right fun h j hj => h j (List.mem_cons_of_mem i hj)))
        ?_
      intro _ s' h'
      refine ⟨h'.eq, h'.other, ?_⟩
      rw [h'.slot, dupped_none ho]
    | some f =>
      dsimp only
      rw [wp_bind, filedup, wp_bind, wp_get, wp_ite]
      split
      · rw [panic, wp_throw]
        rcases hF with hF | hF
        · exact hF
        · rw [hF i List.mem_cons_self] at ho
          cases ho
      rw [wp_set, wp_setProc]
      -- the parent's files are as before
      have hp : ∀ (r : Nat → Nat) (g : Proc → Proc),
          (({ s with fileRef := r } : Kernel).setProc np g).proc p = s.proc p :=
        fun r g => Kernel.setProc_ne _ g hne
      refine wp_post (ih _ hnodup.2 ?_) ?_
      · refine hF.imp_right fun h j hj => ?_
        rw [hp]
        exact h j (List.mem_cons_of_mem i hj)
      · intro _ s' h'
        refine ⟨?_, ?_, ?_⟩
        · rw [h'.eq]
          rfl
        · intro q hq
          rw [h'.other q hq, Kernel.setProc_ne _ _ hq]
        · rw [h'.slot, hp, Kernel.setProc_self, ← dupped_some ho hnodup.1]

theorem wp_dupFiles {np : Nat} (hne : p ≠ np)
    (hF : F (.panic "filedup") ∨ ∀ i < nofile, (s.proc p).ofile i = none) :
    wp (dupFiles p np) (fun _ s' => Dupped p np (List.range nofile) s s') F s :=
  wp_dupLoop hne _ s List.nodup_range (hF.imp_right fun h i hi => h i (List.mem_range.mp hi))

/-- The process `fork` leaves in slot `np`, with kernel stack `f` and directory `d`. -/
def forkChild (s : Kernel) (p np f d : Nat) : Proc :=
  { s.proc np with
    sz := (s.proc p).sz
    pgdir := d
    kstack := f
    state := .runnable
    pid := s.nextpid
    parent := some p
    ofile := dupped (s.proc p).ofile (s.proc np).ofile (List.range nofile)
    mmap := fun i =>
      if i < maxMmaps ∧ ((s.proc p).mmap i).used then (s.proc p).mmap i else (s.proc np).mmap i
    totalMmaps := (s.proc p).totalMmaps
    cont := .user }

/-- The kernel has a new process table and new memory.  The other processors are as
before, and `c` runs the same process. -/
structure Slotted (c np : Nat) (s s' : Kernel) : Prop where
  slot : unusedProc s = some np
  proc : ∀ q ≠ np, s'.proc q = s.proc q
  cpu : ∀ c' ≠ c, s'.cpu c' = s.cpu c'
  cur : (s'.cpu c).proc = (s.cpu c).proc
  initproc : s'.initproc = s.initproc

/-- The outcomes of `fork`.  `P` is what is known of the memory. -/
inductive Forked (c p : Nat) (P : Nat → Option (Nat × Nat) → Mem → Prop) (s : Kernel) :
    Int → Kernel → Prop where
  | none : unusedProc s = none → Forked c p P s (-1) s
  | failed {np : Nat} {s' : Kernel} : Slotted c np s s' → (s'.proc np).state = .unused →
      (s'.proc np).mmap = (s.proc np).mmap → s'.fileRef = s.fileRef → P np none s'.mem →
      Forked c p P s (-1) s'
  | child {np f d : Nat} {s' : Kernel} : Slotted c np s s' → s'.proc np = forkChild s p np f d →
      (s'.cpu c).cr3 = d → P np (some (f, d)) s'.mem → Forked c p P s s.nextpid s'

/-- A slot taken from the table, with its kernel stack, or given back for want of one. -/
structure Allocated (np : Nat) (o : Option Nat) (s s' : Kernel) : Prop where
  proc : ∀ q ≠ np, s'.proc q = s.proc q
  slot : s'.proc np = match o with
    | none => { s.proc np with state := .unused, pid := s.nextpid, kstack := 0 }
    | some f => { s.proc np with
        state := .embryo, pid := s.nextpid, kstack := f, cont := .user, totalMmaps := 0 }
  cpu : s'.cpu = s.cpu
  initproc : s'.initproc = s.initproc
  kpgdir : s'.kpgdir = s.kpgdir
  nextpid : s'.nextpid = s.nextpid + 1
  fileRef : s'.fileRef = s.fileRef

/-- `allocproc` from its call of `kalloc`. -/
theorem wp_allocproc {Q : Option Nat → Kernel → Prop} (hnone : unusedProc s = none → Q none s)
    (hsome : ∀ np, unusedProc s = some np → wp kalloc (fun o m => ∀ s' : Kernel, s'.mem = m →
      Allocated np o s s' → Q (o.map fun _ => np) s') F s.mem) : wp allocproc Q F s := by
  unfold allocproc
  rw [wp_bind, wp_get]
  cases hslot : unusedProc s with
  | none =>
    dsimp only
    rw [wp_pure]
    exact hnone hslot
  | some np =>
    dsimp only
    rw [wp_bind, wp_setProc, wp_bind, wp_modify, wp_bind, wp_onMem]
    refine wp_post (hsome np hslot) ?_
    intro o m1 ho
    cases o with
    | none =>
      dsimp only
      rw [wp_bind, wp_setProc, wp_pure]
      refine ho _ rfl ⟨?_, ?_, rfl, rfl, rfl, rfl, rfl⟩
      · intro q hq
        simp only [Kernel.setProc, update_of_ne hq]
      · simp only [Kernel.setProc, update_self]
    | some f =>
      dsimp only
      rw [wp_bind, wp_setProc, wp_pure]
      refine ho _ rfl ⟨?_, ?_, rfl, rfl, rfl, rfl, rfl⟩
      · intro q hq
        simp only [Kernel.setProc, update_of_ne hq]
      · simp only [Kernel.setProc, update_self]

end

/-- `fork` from its parts: a frame for the stack, `copyuvm`, and the second loop. -/
theorem wp_fork {P : Nat → Option (Nat × Nat) → Mem → Prop} (hcur : (s.cpu c).proc = some p)
    (hp : (s.proc p).state ≠ .unused)
    (hfiles : F (.panic "filedup") ∨ ∀ i < nofile, (s.proc p).ofile i = none)
    (hmem : ∀ np, unusedProc s = some np → wp kalloc (fun o m1 => match o with
      | none => P np none m1
      | some f => ∀ s1 : Kernel, s1.mem = m1 →
        wp (copyuvm c (s.proc p).pgdir (s.proc p).sz) (fun o s2 => match o with
          | none => wp (kfree (kva f)) (fun _ m => P np none m) F s2.mem
          | some d => wp (shareLoop (s.proc p).pgdir d (sharedAddrs (s.proc p).mmap))
              (fun _ m => P np (some (f, d)) m) F s2.mem) F s1) F s.mem) :
    wp (fork c) (fun r s' => Forked c p P s r s') F s := by
  unfold fork
  rw [wp_bind, wp_myproc, hcur]
  dsimp only
  rw [wp_bind]
  refine wp_allocproc ?_ ?_
  · intro hslot
    dsimp only
    rw [wp_pure]
    exact .none hslot
  · intro np hslot
    have hne : p ≠ np := by
      rintro rfl
      exact hp (unusedProc_spec hslot).2
    refine wp_post (hmem np hslot) ?_
    intro o m1 ho s1 hmem1 hal
    cases o with
    | none =>
      dsimp only [Option.map_none]
      rw [wp_pure]
      refine .failed ⟨hslot, hal.proc, fun _ _ => by rw [hal.cpu], by rw [hal.cpu], hal.initproc⟩
        ?_ ?_ hal.fileRef (hmem1 ▸ ho)
      · rw [hal.slot]
      · rw [hal.slot]
    | some f =>
      dsimp only [Option.map_some]
      rw [wp_bind, wp_getProc]
      have hnp1 := hal.slot
      dsimp only at hnp1
      rw [hal.proc p hne, wp_bind]
      refine wp_mono (wp_and (ho s1 hmem1) (memOnly_copyuvm _ _ s1)) ?_ (fun _ h => h.1)
      rintro o s2 ⟨ho2, honly⟩
      have hproc2 : s2.proc = s1.proc := honly.proc
      have hrest2 : s2.initproc = s.initproc ∧ s2.fileRef = s.fileRef := by
        rw [honly.eq]
        exact ⟨hal.initproc, hal.fileRef⟩
      obtain ⟨hinit2, href2⟩ := hrest2
      have hcpu2 : ∀ c' ≠ c, s2.cpu c' = s.cpu c' := fun c' hc => by rw [honly.other c' hc, hal.cpu]
      have hcur2 : (s2.cpu c).proc = (s.cpu c).proc := by rw [honly.cur, hal.cpu]
      cases o with
      | none =>
        dsimp only at ho2 ⊢
        rw [wp_bind, wp_getProc, wp_bind, wp_onMem, hproc2, hnp1]
        refine wp_post ho2 ?_
        intro _ m3 h3
        rw [wp_bind, wp_setProc, wp_pure]
        refine .failed ⟨hslot, ?_, hcpu2, hcur2, hinit2⟩ ?_ ?_ href2 h3
        · intro q hq
          rw [Kernel.setProc_ne _ _ hq]
          show s1.proc q = _
          rw [hal.proc q hq]
        · rw [Kernel.setProc_self]
        · rw [Kernel.setProc_self]
          show (s1.proc np).mmap = _
          rw [hnp1]
      | some d =>
        dsimp only at ho2 ⊢
        rw [wp_bind, wp_setProc, wp_bind]
        generalize hs3 : Kernel.setProc s2 np _ = s3
        have hproc3 : ∀ q ≠ np, s3.proc q = s.proc q := by
          intro q hq
          rw [← hs3, Kernel.setProc_ne _ _ hq, hproc2, hal.proc q hq]
        have hnp3 : s3.proc np = { s.proc np with
            state := .embryo, pid := s.nextpid, kstack := f, cont := .user, pgdir := d
            sz := (s.proc p).sz, parent := some p, totalMmaps := (s.proc p).totalMmaps
            mmap := fun i => if i < maxMmaps ∧ ((s.proc p).mmap i).used then
              (s.proc p).mmap i else (s.proc np).mmap i } := by
          rw [← hs3, Kernel.setProc_self, hproc2, hnp1]
        refine wp_post (wp_dupFiles hne (s := s3) ?_) ?_
        · refine hfiles.imp_right fun h i hi => ?_
          rw [hproc3 p hne]
          exact h i hi
        intro _ s4 hdup
        have hmem4 : s4.mem = s2.mem := by
          rw [hdup.eq, ← hs3]
          rfl
        rw [wp_bind, wp_onMem, hmem4]
        refine wp_post ho2 ?_
        intro _ m5 h5
        rw [wp_bind, wp_setProc, wp_bind, wp_lcr3, wp_bind, wp_getProc, wp_pure]
        have hchild : (({ s4 with mem := m5 } : Kernel).setProc np fun n =>
            { n with state := .runnable }).proc np = forkChild s p np f d := by
          rw [Kernel.setProc_self]
          show { s4.proc np with state := .runnable } = _
          rw [hdup.slot, hproc3 p hne, hnp3]
          rfl
        have hpid : ((({ s4 with mem := m5 } : Kernel).setProc np fun n =>
            { n with state := .runnable }).proc np).pid = s.nextpid := by
          rw [hchild]
          rfl
        have hs4 : s4.cpu = s2.cpu ∧ s4.initproc = s2.initproc := by
          rw [hdup.eq, ← hs3]
          exact ⟨rfl, rfl⟩
        obtain ⟨hcpu4, hinit4⟩ := hs4
        show Forked c p P s ((({ s4 with mem := m5 } : Kernel).setProc np fun n =>
            { n with state := .runnable }).proc np).pid _
        rw [hpid]
        refine .child ⟨hslot, ?_, ?_, ?_, hinit4.trans hinit2⟩ hchild ?_ h5
        · intro q hq
          show (({ s4 with mem := m5 } : Kernel).setProc np fun n =>
            { n with state := .runnable }).proc q = _
          rw [Kernel.setProc_ne _ _ hq]
          show s4.proc q = _
          rw [hdup.other q hq, hproc3 q hq]
        · intro c' hc
          rw [Kernel.setCpu_ne _ _ hc]
          show s4.cpu c' = _
          rw [hcpu4, hcpu2 c' hc]
        · rw [Kernel.setCpu_self]
          show (s4.cpu c).proc = _
          rw [hcpu4, hcur2]
        · rw [Kernel.setCpu_self]

/-- `fork` does nothing to running processes. -/
theorem calm_fork : Calm false c p d (fork c) := by
  intro s hs
  have hany : ∀ {α σ : Type} (x : Prog σ Fault α) (m : σ),
      wp x (fun _ _ => True) (fun _ => True) m := fun x m => wp_of_ok fun _ _ _ => trivial
  refine wp_post (wp_fork (P := fun _ _ _ => True) (F := fun _ => True) hs.cur
    (by rw [hs.state]; decide) (.inl trivial) ?_) ?_
  · intro np _
    refine wp_post (hany _ _) ?_
    intro o m1 _
    cases o with
    | none => trivial
    | some f =>
      intro s1 _
      refine wp_post (hany _ _) ?_
      intro o s2 _
      cases o with
      | none => exact hany _ _
      | some d => exact hany _ _
  · intro r s' hf
    have hslotted : ∀ np, Slotted c np s s' → Stays false c p d s s' := by
      intro np h
      have hne : ∀ q, (s.proc q).state = .running → q ≠ np := by
        rintro q hq rfl
        rw [(unusedProc_spec h.slot).2] at hq
        cases hq
      refine ⟨⟨h.cpu, fun q _ hq => ?_⟩, ⟨h.cur.trans hs.cur, ?_, ?_⟩, fun hb => by cases hb⟩
      · rw [h.proc q (hne q hq)]
        exact ⟨hq, rfl⟩
      · rw [h.proc p (hne p hs.state), hs.state]
      · rw [h.proc p (hne p hs.state), hs.pgdir]
    cases hf with
    | none _ => exact .refl hs
    | failed h _ _ _ _ => exact hslotted _ h
    | child h _ _ _ => exact hslotted _ h

end

end Xv6
