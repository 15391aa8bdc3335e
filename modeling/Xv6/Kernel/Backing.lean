import Xv6.Kernel.FileCalls

/-!
# The file behind a mapping

A file-backed region remembers the number of the descriptor that `wmap` made for
it, not the file.  A page fault and `wunmap` look the file up in the table of open
files.  The descriptor is an ordinary one: `close` empties it, and the next `open`
may take its number.

As long as the process does not close that number, the region keeps its file
through every step of the system (`mapping_keeps_file`): other processes do not
touch its tables, and its own calls only take free slots and free descriptors.
-/

namespace Xv6

open Prog Function

variable {g k ncpu : Nat}

/-! ## Tables of other processes -/

section

variable {α β : Type} {c p q : Nat}

/-- A program of `q` on processor `c` leaves the tables of `p` alone. -/
def Spares (c q p : Nat) (x : K α) : Prop :=
  ∀ s, (s.cpu c).proc = some q → wp x (fun _ s' => (s'.proc p).tables = (s.proc p).tables ∧
    (s'.cpu c).proc = some q) (fun _ => True) s

theorem Inert.spares {x : K α} (h : Inert x) : Spares c q p x := by
  intro s hcur
  refine wp_post (h s) ?_
  intro _ s' hv
  obtain ⟨-, htab, hcpu⟩ := view_iff.mp hv
  exact ⟨htab p, (hcpu c).trans hcur⟩

instance : Steady (fun s : Kernel => (s.cpu c).proc = some q) fun s s' =>
    (s'.proc p).tables = (s.proc p).tables ∧ (s'.cpu c).proc = some q where
  refl h := ⟨rfl, h⟩
  trans _ h h' := ⟨h'.1.trans h.1, h'.2⟩
  stays _ h := h.2

namespace Spares

theorem bind {x : K α} {f : α → K β} (hx : Spares c q p x) (hf : ∀ a, Spares c q p (f a)) :
    Spares c q p (x >>= f) := Moves.bind hx hf

theorem ite {b : Prop} [Decidable b] {x y : K α} (hx : b → Spares c q p x)
    (hy : ¬ b → Spares c q p y) : Spares c q p (if b then x else y) := iteInduction hx hy

theorem pure (a : α) : Spares c q p (Pure.pure a : K α) := Moves.pure a

theorem forM {l : List β} {body : β → K PUnit} (h : ∀ b, Spares c q p (body b)) :
    Spares c q p (l.forM body) := Moves.forM h

theorem setProc (hne : p ≠ q) (f : Proc → Proc) : Spares c q p (setProc q f) := by
  intro s hcur
  rw [wp_setProc, Kernel.setProc_ne _ _ hne]
  exact ⟨rfl, hcur⟩

theorem myproc {f : Nat → K α} (h : Spares c q p (f q)) : Spares c q p (myproc c >>= f) := by
  intro s hcur
  rw [wp_bind, wp_myproc, hcur]
  exact h s hcur

end Spares

theorem spares_fileRef {x : K α} (h : Keeps (fun s : Kernel => (s.proc, s.cpu)) x) :
    Spares c q p x := by
  intro s hcur
  refine wp_post (h s) ?_
  intro _ s' hs
  obtain ⟨hproc, hcpu⟩ := Prod.mk.inj hs
  exact ⟨by rw [hproc], by rw [hcpu]; exact hcur⟩

theorem keeps_filedup (f : Nat) : Keeps (fun s : Kernel => (s.proc, s.cpu)) (filedup f) := by
  intro s
  unfold filedup
  rw [wp_bind, wp_get, wp_ite]
  split
  · exact (wp_throw ..).mpr trivial
  · rw [wp_set]

theorem keeps_fileclose (f : Nat) : Keeps (fun s : Kernel => (s.proc, s.cpu)) (fileclose f) := by
  intro s
  unfold fileclose
  rw [wp_bind, wp_get, wp_ite]
  split
  · exact (wp_throw ..).mpr trivial
  · rw [wp_set]

theorem keeps_filealloc : Keeps (fun s : Kernel => (s.proc, s.cpu)) filealloc := by
  intro s
  unfold filealloc
  rw [wp_bind, wp_get]
  cases (List.range nfile).find? fun f => s.fileRef f = 0 with
  | none => exact (wp_pure ..).mpr rfl
  | some f =>
    dsimp only
    rw [wp_bind, wp_set, wp_pure]

theorem spares_closeFiles (hne : p ≠ q) : Spares c q p (closeFiles q) := by
  refine .forM fun i => .bind (Inert.spares (inert_getProc q)) fun pr => ?_
  cases pr.ofile i with
  | none => exact .pure _
  | some f => exact .bind (spares_fileRef (keeps_fileclose f)) fun _ => .setProc hne _

theorem spares_wmap (hne : p ≠ q) (addr length flags fd : Word) :
    Spares c q p (wmap c addr length flags fd) := by
  refine .myproc (.ite (fun _ => .pure _) fun _ => .ite (fun _ => .pure _) fun _ =>
    .ite (fun _ => .pure _) fun _ => .bind (Inert.spares (inert_getProc q)) fun pr =>
      .ite (fun _ => .pure _) fun _ => ?_)
  cases freeSlot pr.mmap with
  | none => exact .pure _
  | some i =>
    refine .bind (.setProc hne _) fun _ => .ite (fun _ => ?_) fun _ => .pure _
    refine .bind (Inert.spares (inert_getProc q)) fun pr =>
      .bind (Inert.spares (inert_ofileAt pr _)) fun o => ?_
    cases o with
    | none => exact .pure _
    | some f =>
      refine .bind (spares_fileRef (keeps_filedup f)) fun _ => ?_
      cases (List.range nofile).find? fun j => (pr.ofile j).isNone with
      | none => exact .pure _
      | some j =>
        exact .bind (spares_fileRef (keeps_filedup f)) fun _ =>
          .bind (.setProc hne _) fun _ => .bind (.setProc hne _) fun _ => .pure _

variable [Link]

theorem spares_wunmap (hne : p ≠ q) (addr : Nat) : Spares c q p (wunmap c addr) := by
  refine .myproc (.bind (Inert.spares (inert_getProc q)) fun pr => ?_)
  cases findRegion pr.mmap addr with
  | none => exact .pure _
  | some i =>
    exact .bind (Inert.spares (inert_unmapLoop q _ _)) fun _ =>
      .bind (.setProc hne _) fun _ => .pure _

theorem spares_sysWunmap (hne : p ≠ q) (addr : Word) : Spares c q p (sysWunmap c addr) :=
  .ite (fun _ => .pure _) fun _ => spares_wunmap hne _

theorem spares_exitMaps (hne : p ≠ q) : Spares c q p (exitMaps c q) := by
  refine .forM fun i => .bind (Inert.spares (inert_getProc q)) fun pr =>
    .bind (Inert.spares (inert_onMem _)) fun o => ?_
  cases o with
  | none => exact .pure _
  | some ptr =>
    exact .bind (Inert.spares (inert_onMem _)) fun pte => .ite
      (fun _ => .bind (Inert.spares .get) fun s =>
        .ite (fun _ => .bind (spares_wunmap hne _) fun _ => .pure _) fun _ => .pure _)
      fun _ => .pure _

variable {s : Kernel}

/-- A process that exits leaves the tables of the others alone. -/
theorem wp_exit_spares (hcur : (s.cpu c).proc = some q) (hne : p ≠ q) :
    wp (exit c) (fun _ s' => (s'.proc p).tables = (s.proc p).tables) (fun _ => True) s := by
  unfold exit
  rw [wp_bind, wp_myproc, hcur]
  dsimp only
  rw [wp_bind, wp_get, wp_ite]
  split
  · exact (wp_throw ..).mpr trivial
  · rw [wp_bind]
    refine wp_post (spares_closeFiles hne s hcur) ?_
    rintro _ s1 ⟨h1, hcur1⟩
    rw [wp_bind]
    refine wp_post (spares_exitMaps hne s1 hcur1) ?_
    rintro _ s2 ⟨h2, hcur2⟩
    have hend : Spares c q p (do
        let pr ← getProc q
        wakeup1 pr.parent
        reparent q) :=
      .bind (Inert.spares (inert_getProc q)) fun pr =>
        .bind (Inert.spares (inert_wakeup1 _)) fun _ => Inert.spares (inert_reparent q)
    have h3 := hend s2 hcur2
    unfold toScheduler
    simp only [wp_bind, wp_getProc, wp_setProc, wp_modify] at h3 ⊢
    refine wp_post h3 ?_
    intro _ s3 h3
    refine wp_post h3 ?_
    rintro _ s4 ⟨h4, -⟩
    show ((s4.setProc q fun pr => { pr with state := .zombie }).proc p).tables = _
    rw [Kernel.setProc_ne _ _ hne, h4, h2, h1]

/-- A process that exits is dead, and off its processor. -/
theorem wp_exit_dead (hcur : (s.cpu c).proc = some p) :
    wp (exit c) (fun _ s' => (s'.proc p).state.dead = true ∧ (s'.cpu c).proc = none)
      (fun _ => True) s := by
  have hany : ∀ {α : Type} (x : K α) (s : Kernel),
      wp x (fun _ _ => True) (fun _ => True) s := fun x s => wp_of_ok fun _ _ _ => trivial
  unfold exit
  rw [wp_bind, wp_myproc, hcur]
  dsimp only
  rw [wp_bind, wp_get, wp_ite]
  split
  · exact (wp_throw ..).mpr trivial
  · rw [wp_bind]
    refine wp_post (hany _ s) ?_
    intro _ s1 _
    rw [wp_bind]
    refine wp_post (hany _ s1) ?_
    intro _ s2 _
    rw [wp_bind, wp_getProc, wp_bind]
    refine wp_post (hany _ s2) ?_
    intro _ s3 _
    rw [wp_bind]
    refine wp_post (hany _ s3) ?_
    intro _ s4 _
    unfold toScheduler
    rw [wp_bind, wp_setProc, wp_modify]
    refine ⟨?_, by rw [Kernel.setCpu_self]⟩
    show ((s4.setProc p fun pr => { pr with state := .zombie }).proc p).state.dead = true
    rw [Kernel.setProc_self]
    rfl

/-- A process that forks leaves live processes alone. -/
theorem wp_fork_live (hcur : (s.cpu c).proc = some q) (hq : (s.proc q).state.dead = false)
    (hp : (s.proc p).state.dead = false) :
    wp (fork c) (fun _ s' => s'.proc p = s.proc p) (fun _ => True) s := by
  have hlive : ∀ r, (s.proc r).state.dead = false → (s.proc r).state ≠ .unused := by
    intro r hr hun
    rw [hun] at hr
    cases hr
  refine wp_post (wp_fork (P := fun _ _ _ => True) hcur (hlive q hq) (.inl trivial) fun np _ => ?_)
    ?_
  · refine wp_of_ok fun o m1 _ => ?_
    cases o with
    | none => trivial
    | some f =>
      intro s1 _
      refine wp_of_ok fun o s2 _ => ?_
      cases o with
      | none => exact wp_of_ok fun _ _ _ => trivial
      | some d => exact wp_of_ok fun _ _ _ => trivial
  · intro r s' hf
    have hnp : ∀ {np}, unusedProc s = some np → p ≠ np := by
      rintro np hslot rfl
      exact hlive p hp (unusedProc_spec hslot).2
    cases hf with
    | none _ => rfl
    | failed hsl _ _ _ _ => exact hsl.proc p (hnp hsl.slot)
    | child hsl _ _ _ => exact hsl.proc p (hnp hsl.slot)

/-! ## Properties of one process -/

omit [Link] in
/-- What holds of process `p` as long as it lives. -/
def WhileLive (p : Nat) (J : Proc → Prop) (s : Kernel) : Prop :=
  (s.proc p).state.dead = false → J (s.proc p)

omit [Link] in
/-- A property of the tables of a process. -/
def OfTables (J : Proc → Prop) : Prop := ∀ {pr pr' : Proc}, pr'.tables = pr.tables → J pr → J pr'

section

variable {J : Proc → Prop}

omit [Link] in
theorem WhileLive.tables (hj : WhileLive p J s) (h : OfTables J)
    (ht : (s'.proc p).tables = (s.proc p).tables) : WhileLive p J s' := by
  intro hlive
  exact h ht (hj ((congrArg (fun t => t.2.1) ht).symm.trans hlive))

theorem OfTables.tabled (h : OfTables J) : Tabled (WhileLive p J) where
  congr _ ht hj := hj.tables h (ht p)
  exit := by
    intro c q s hc hj
    by_cases hq : p = q
    · subst hq
      refine wp_post (wp_exit_dead hc.cur) ?_
      rintro _ s' ⟨hdead, -⟩ hlive
      rw [hlive] at hdead
      cases hdead
    · exact wp_post (wp_exit_spares hc.cur hq) (fun _ _ ht => hj.tables h ht)

/-- What is left for a property of one process: its own `wmap` and `wunmap`. -/
theorem OfTables.preserved {e : Event} (h : OfTables J) (hlive : (s.proc p).state.dead = false)
    (hj : J (s.proc p))
    (hwmap : ∀ {c : Nat} (addr length flags fd : Word), (s.cpu c).proc = some p →
      wp (wmap c addr length flags fd) (fun _ s' => J (s'.proc p)) (fun _ => True) s)
    (hwunmap : ∀ {c : Nat} (addr : Nat), (s.cpu c).proc = some p →
      wp (wunmap c addr) (fun _ s' => J (s'.proc p)) (fun _ => True) s) :
    Preserved (WhileLive p J) e s := by
  refine h.tabled.preserved (fun _ => hj) ?_
  rintro c q call rfl hmove hc -
  have hspares : p ≠ q → ∀ {α : Type} {x : K α}, Spares c q p x →
      wp (x >>= fun _ => pure ()) (fun _ => WhileLive p J) (fun _ => True) s := by
    intro hne α x hx
    rw [wp_bind]
    refine wp_post (hx s hc.cur) ?_
    rintro _ s1 ⟨ht, -⟩
    exact (wp_pure ..).mpr fun _ => h ht hj
  cases call with
  | fork =>
    unfold Call.body
    rw [wp_bind]
    refine wp_post (wp_fork_live hc.cur hc.live hlive) ?_
    intro _ s1 hproc
    exact (wp_pure ..).mpr fun _ => by rw [hproc]; exact hj
  | wmap addr length flags fd =>
    by_cases hq : p = q
    · subst hq
      unfold Call.body
      rw [wp_bind]
      exact wp_post (hwmap addr length flags fd hc.cur)
        (fun _ _ h1 => (wp_pure ..).mpr fun _ => h1)
    · exact hspares hq (spares_wmap hq addr length flags fd)
  | wunmap addr =>
    by_cases hq : p = q
    · subst hq
      unfold Call.body sysWunmap
      rw [wp_bind, wp_ite]
      split
      · exact (wp_pure ..).mpr ((wp_pure ..).mpr fun _ => hj)
      · exact wp_post (hwunmap addr.toNat hc.cur)
          (fun _ _ h1 => (wp_pure ..).mpr fun _ => h1)
    · exact hspares hq (spares_sysWunmap hq addr)
  | exit => cases hmove
  | wait => cases hmove
  | kill pid => cases hmove
  | sbrk n => cases hmove
  | exec file argv => cases hmove

end

end

/-! ## Regions with a file -/

/-- Process `p` lives and its slot `i` is mapped. -/
structure Holding (p i : Nat) (s : Kernel) : Prop where
  live : (s.proc p).state.dead = false
  used : ((s.proc p).mmap i).used = true

/-- Slot `i` of `p` remembers descriptor `j`, which names file `f`. -/
structure Backed (p i j f : Nat) (s : Kernel) : Prop where
  fd : ((s.proc p).mmap i).fd = j
  file : (s.proc p).ofile j = some f

/-- As long as the slot is mapped, its file is `f`. -/
def Keeping (p i j f : Nat) (s : Kernel) : Prop := Holding p i s → Backed p i j f s

section

variable {c p q i j f : Nat} {s s' : Kernel}

theorem Backed.tables (h : Backed p i j f s) (ht : (s'.proc p).tables = (s.proc p).tables) :
    Backed p i j f s' :=
  ⟨(congrArg (fun t => (t.2.2.1 i).fd) ht).trans h.fd,
    (congrFun (congrArg Prod.fst ht) j).trans h.file⟩

theorem Backed.of_proc (h : Backed p i j f s) (hproc : s'.proc = s.proc) : Backed p i j f s' :=
  ⟨by rw [hproc]; exact h.fd, by rw [hproc]; exact h.file⟩

/-- Another slot of the table, and other descriptors, may change. -/
theorem Backed.setProc (h : Backed p i j f s) {g : Proc → Proc}
    (hfd : ((g (s.proc p)).mmap i).fd = ((s.proc p).mmap i).fd)
    (hfile : (g (s.proc p)).ofile j = (s.proc p).ofile j) : Backed p i j f (s.setProc p g) := by
  refine ⟨?_, ?_⟩
  · rw [Kernel.setProc_self, hfd]
    exact h.fd
  · rw [Kernel.setProc_self, hfile]
    exact h.file

theorem wmapSlot_spec {mmap : Nat → MmapRegion} {addr length flags : Word}
    (h : wmapSlot mmap addr length flags = some k) : k < maxMmaps ∧ (mmap k).used = false := by
  unfold wmapSlot at h
  split at h
  · exact freeSlot_spec h
  · cases h

/-- The process itself maps another region: it takes a free slot and a free
descriptor. -/
theorem Backed.wmap (h : Backed p i j f s) (hm : Holding p i s) (hcur : (s.cpu c).proc = some p)
    (addr length flags fd : Word) :
    wp (wmap c addr length flags fd) (fun _ s' => Backed p i j f s') (fun _ => True) s := by
  rw [wp_wmap hcur]
  cases hslot : wmapSlot (s.proc p).mmap addr length flags with
  | none => exact h
  | some k =>
    have hk : i ≠ k := by
      rintro rfl
      have := (wmapSlot_spec hslot).2
      rw [hm.used] at this
      cases this
    have h1 : Backed p i j f (s.setProc p fun pr => pr.addRegion k addr length flags fd) := by
      refine h.setProc ?_ rfl
      exact congrArg MmapRegion.fd (update_of_ne hk ..)
    dsimp only
    split
    · exact h1
    · unfold wmapFile ofileAt
      rw [wp_bind, wp_getProc, wp_bind, wp_ite]
      split
      · rw [wp_pure, Kernel.setProc_self]
        cases ((s.proc p).addRegion k addr length flags fd).ofile fd.toInt.toNat with
        | none => exact (wp_pure ..).mpr h1
        | some g =>
          dsimp only
          rw [wp_bind]
          refine wp_post (keeps_filedup g _) ?_
          intro _ s2 hs2
          have h2 := h1.of_proc (Prod.mk.inj hs2).1
          cases hfree : (List.range nofile).find? fun j =>
              (((s.proc p).addRegion k addr length flags fd).ofile j).isNone with
          | none => exact (wp_pure ..).mpr h2
          | some j' =>
            have hj' : j ≠ j' := by
              rintro rfl
              have hnone := List.find?_some hfree
              rw [show ((s.proc p).addRegion k addr length flags fd).ofile j = _ from h.file]
                at hnone
              cases hnone
            dsimp only
            rw [wp_bind]
            refine wp_post (keeps_filedup g _) ?_
            intro _ s3 hs3
            rw [wp_bind, wp_setProc, wp_bind, wp_setProc, wp_pure]
            refine ((h2.of_proc (Prod.mk.inj hs3).1).setProc rfl ?_).setProc ?_ rfl
            · exact update_of_ne hj' ..
            · exact congrArg MmapRegion.fd (update_of_ne hk ..)
      · exact (wp_throw ..).mpr trivial

variable [Link]

/-- The process itself unmaps a region, this one or another. -/
theorem Backed.wunmap (h : Backed p i j f s) (hcur : (s.cpu c).proc = some p) (addr : Nat) :
    wp (wunmap c addr) (fun _ s' => ((s'.proc p).mmap i).used = true → Backed p i j f s')
      (fun _ => True) s := by
  unfold Xv6.wunmap
  rw [wp_bind, wp_myproc, hcur]
  dsimp only
  rw [wp_bind, wp_getProc]
  cases findRegion (s.proc p).mmap addr with
  | none => exact (wp_pure ..).mpr fun _ => h
  | some k =>
    dsimp only
    rw [wp_bind]
    refine wp_post (inert_unmapLoop p _ _ s) ?_
    intro _ s1 hv
    have h1 := h.tables ((view_iff.mp hv).2.1 p)
    rw [wp_bind, wp_setProc, wp_pure]
    intro hused
    by_cases hk : i = k
    · rw [Kernel.setProc_self, hk] at hused
      simp [Proc.setMmap] at hused
    · refine h1.setProc ?_ rfl
      exact congrArg MmapRegion.fd (update_of_ne hk ..)

omit [Link] in
theorem keeping_ofTables : OfTables fun pr => (pr.mmap i).used = true →
    (pr.mmap i).fd = j ∧ pr.ofile j = some f := by
  intro pr pr' ht hj hused
  obtain ⟨hfd, hfile⟩ := hj ((congrArg (fun t => (t.2.2.1 i).used) ht).symm.trans hused)
  exact ⟨(congrArg (fun t => (t.2.2.1 i).fd) ht).trans hfd,
    (congrFun (congrArg Prod.fst ht) j).trans hfile⟩

omit [Link] in
theorem keeping_eq : Keeping p i j f = WhileLive p fun pr => (pr.mmap i).used = true →
    (pr.mmap i).fd = j ∧ pr.ofile j = some f := by
  funext s
  refine propext ⟨fun h hlive hused => ?_, fun h hm => ?_⟩
  · have hb := h ⟨hlive, hused⟩
    exact ⟨hb.fd, hb.file⟩
  · obtain ⟨hfd, hfile⟩ := h hm.live hm.used
    exact ⟨hfd, hfile⟩

theorem Keeping.tabled : Tabled (Keeping p i j f) := by
  rw [keeping_eq]
  exact keeping_ofTables.tabled

/-- Events of the kernel do not take the file from a mapped slot. -/
theorem Backed.preserved {e : Event} (h : Backed p i j f s) (hm : Holding p i s) :
    Preserved (Keeping p i j f) e s := by
  rw [keeping_eq]
  refine keeping_ofTables.preserved hm.live (fun _ => ⟨h.fd, h.file⟩) ?_ ?_
  · intro c addr length flags fd hcur
    exact wp_post (h.wmap hm hcur addr length flags fd) (fun _ _ h1 _ => ⟨h1.fd, h1.file⟩)
  · intro c addr hcur
    refine wp_post (h.wunmap hcur addr) ?_
    intro _ s1 h1 hused
    have hb := h1 hused
    exact ⟨hb.fd, hb.file⟩

/-! ## System calls on files -/

/-- The program leaves descriptor `j` of `p` with file `f`. -/
def Firm (p j f : Nat) {α : Type} (x : O α) : Prop :=
  ∀ s : Os, (s.kernel.proc p).ofile j = some f →
    wp x (fun _ s' => (s'.kernel.proc p).ofile j = some f) (fun _ => True) s

section

omit [Link]

variable {α β : Type}

theorem Firm.pure (a : α) : Firm p j f (Pure.pure a : O α) := fun _ h => (wp_pure ..).mpr h

theorem Firm.bind {x : O α} {g : α → O β} (hx : Firm p j f x) (hg : ∀ a, Firm p j f (g a)) :
    Firm p j f (x >>= g) := by
  intro s h
  rw [wp_bind]
  exact wp_post (hx s h) (fun a s1 h1 => hg a s1 h1)

theorem Firm.ite {b : Prop} [Decidable b] {x y : O α} (hx : b → Firm p j f x)
    (hy : ¬ b → Firm p j f y) : Firm p j f (if b then x else y) := iteInduction hx hy

theorem Firm.get : Firm p j f (MonadState.get : O Os) := fun _ h => (wp_get ..).mpr h

theorem Firm.onFiles (x : FM α) : Firm p j f (onFiles x) := fun _ h => wp_onFiles_of fun _ _ => h

theorem Firm.onKernel {x : K α} (h : Keeps (fun s : Kernel => (s.proc, s.cpu)) x) :
    Firm p j f (onKernel x) := by
  intro s hs
  rw [wp_onKernel]
  refine wp_post (h s.kernel) ?_
  intro _ k hk
  rw [(Prod.mk.inj hk).1]
  exact hs

theorem keeps_myproc (c : Nat) : Keeps (fun s : Kernel => (s.proc, s.cpu)) (myproc c) := by
  intro s
  rw [wp_myproc]
  cases (s.cpu c).proc with
  | none => trivial
  | some p => rfl

theorem keeps_getProc (p : Nat) : Keeps (fun s : Kernel => (s.proc, s.cpu)) (getProc p) := by
  intro s
  rw [wp_getProc]

/-- A new descriptor is not one that names a file. -/
theorem wp_fdalloc_names (h : (s.proc p).ofile j = some f) (g : Nat) :
    wp (fdalloc q g) (fun o s' => (s'.proc p).ofile j = some f ∧ o ≠ some j ∨
      (s'.proc p).ofile j = some f ∧ q ≠ p) (fun _ => True) s := by
  unfold fdalloc setOfile
  rw [wp_bind, wp_getProc]
  cases hj : freeFd (s.proc q) with
  | none => exact (wp_pure ..).mpr (.inl ⟨h, nofun⟩)
  | some k =>
    dsimp only
    rw [wp_bind, wp_setProc, wp_pure]
    by_cases hq : q = p
    · subst hq
      have hk : j ≠ k := by
        rintro rfl
        rw [(freeFd_spec hj).2] at h
        cases h
      refine .inl ⟨?_, fun hsome => hk (Option.some.inj hsome).symm⟩
      rw [Kernel.setProc_self]
      exact (update_of_ne hk ..).trans h
    · refine .inr ⟨?_, hq⟩
      rw [Kernel.setProc_ne _ _ (Ne.symm hq)]
      exact h

theorem firm_fdalloc (q g : Nat) : Firm p j f (onKernel (fdalloc q g)) := by
  intro s h
  rw [wp_onKernel]
  exact wp_post (wp_fdalloc_names h g) (fun _ _ h1 => h1.elim And.left And.left)

theorem firm_sysDup (c : Nat) (fd : Int) : Firm p j f (onKernel (sysDup c fd)) := by
  intro s h
  rw [wp_onKernel]
  unfold sysDup
  rw [wp_bind]
  refine wp_post (keeps_myproc c _) ?_
  intro q s1 hs1
  have h1 : (s1.proc p).ofile j = some f := by rw [(Prod.mk.inj hs1).1]; exact h
  rw [wp_bind, wp_getProc]
  cases openFile (s1.proc q) fd with
  | none => exact (wp_pure ..).mpr h1
  | some g =>
    dsimp only
    rw [wp_bind]
    refine wp_post (wp_fdalloc_names h1 g) ?_
    intro o s2 hor
    have h2 : (s2.proc p).ofile j = some f := hor.elim And.left And.left
    cases o with
    | none => exact (wp_pure ..).mpr h2
    | some k =>
      dsimp only
      rw [wp_bind]
      refine wp_post (keeps_filedup g s2) ?_
      intro _ s3 hs3
      rw [wp_pure, (Prod.mk.inj hs3).1]
      exact h2

theorem firm_sysOpen (c : Nat) (ip : Option Nat) (omode : Word) :
    Firm p j f (sysOpen c ip omode) := by
  refine .bind (.onKernel (keeps_myproc c)) fun q => .bind .get fun s => ?_
  cases ip with
  | none => exact .pure _
  | some ip =>
    refine .ite (fun _ => .pure _) fun _ => .bind (.onKernel keeps_filealloc) fun o => ?_
    cases o with
    | none => exact .pure _
    | some g =>
      refine .bind (firm_fdalloc q g) fun o => ?_
      cases o with
      | none => exact .bind (.onKernel (keeps_fileclose g)) fun _ => .pure _
      | some fd => exact .bind (.onFiles _) fun _ => .pure _

theorem firm_pipealloc : Firm p j f pipealloc := by
  refine .bind (.onKernel keeps_filealloc) fun o => ?_
  cases o with
  | none => exact .pure _
  | some f0 =>
    refine .bind (.onKernel keeps_filealloc) fun o => ?_
    cases o with
    | none => exact .bind (.onKernel (keeps_fileclose f0)) fun _ => .pure _
    | some f1 =>
      refine .bind (.onKernel (.zoom fun _ _ => rfl)) fun o => ?_
      cases o with
      | none =>
        exact .bind (.onKernel (keeps_fileclose f0)) fun _ =>
          .bind (.onKernel (keeps_fileclose f1)) fun _ => .pure _
      | some b =>
        exact .bind (.onFiles _) fun _ => .bind (.onFiles _) fun _ =>
          .bind (.onFiles _) fun _ => .pure _

theorem firm_sysPipe (c : Nat) : Firm p j f (sysPipe c) := by
  refine .bind (.onKernel (keeps_myproc c)) fun q => .bind firm_pipealloc fun o => ?_
  rcases o with _ | ⟨rf, wf⟩
  · exact .pure _
  · intro s h
    dsimp only
    rw [wp_bind, wp_onKernel]
    refine wp_post (wp_fdalloc_names h rf) ?_
    intro o s1 h1
    have hf1 : (s1.proc p).ofile j = some f := h1.elim And.left And.left
    cases o with
    | none =>
      exact (Firm.bind (.onKernel (keeps_fileclose rf)) fun _ =>
        .bind (.onKernel (keeps_fileclose wf)) fun _ => .pure _) ⟨s1, s.files⟩ hf1
    | some fd0 =>
      have hclear : Firm p j f (Xv6.onKernel (setOfile q fd0 none)) := by
        intro s2 h2
        unfold setOfile
        rw [wp_onKernel, wp_setProc]
        by_cases hq : q = p
        · subst hq
          have hne : j ≠ fd0 := by
            rintro rfl
            exact h1.elim (fun h => h.2 rfl) fun h => h.2 rfl
          rw [Kernel.setProc_self]
          exact (update_of_ne hne ..).trans h2
        · rw [Kernel.setProc_ne _ _ (Ne.symm hq)]
          exact h2
      refine (Firm.bind (firm_fdalloc q wf) fun o => ?_) ⟨s1, s.files⟩ hf1
      cases o with
      | none =>
        exact .bind hclear fun _ => .bind (.onKernel (keeps_fileclose rf)) fun _ =>
          .bind (.onKernel (keeps_fileclose wf)) fun _ => .pure _
      | some fd1 => exact .pure _

theorem firm_curproc (c : Nat) : Firm p j f (curproc c) :=
  .onKernel (.bind (keeps_myproc c) fun q => keeps_getProc q)

/-- Closing another descriptor, or a descriptor of another process. -/
theorem wp_sysClose_names {k : Kernel} (h : (k.proc p).ofile j = some f) {fd : Int}
    (hno : ¬ ((k.cpu c).proc = some p ∧ fd = j)) :
    wp (sysClose c fd) (fun _ k' => (k'.proc p).ofile j = some f) (fun _ => True) k := by
  unfold sysClose setOfile
  rw [wp_bind, wp_myproc]
  cases hcur : (k.cpu c).proc with
  | none => trivial
  | some q =>
    dsimp only
    rw [wp_bind, wp_getProc]
    cases hg : openFile (k.proc q) fd with
    | none => exact (wp_pure ..).mpr h
    | some g =>
      dsimp only
      rw [wp_bind, wp_setProc, wp_bind]
      refine wp_post (keeps_fileclose g _) ?_
      intro _ k1 hk1
      rw [wp_pure, (Prod.mk.inj hk1).1]
      by_cases hq : q = p
      · subst hq
        have hne : j ≠ fd.toNat := by
          intro hj
          have hfd : ¬ (fd < 0 ∨ (nofile : Int) ≤ fd) := fun h => by
            unfold openFile at hg
            rw [if_pos h] at hg
            cases hg
          exact hno ⟨hcur, by omega⟩
        rw [Kernel.setProc_self]
        exact (update_of_ne hne ..).trans h
      · rw [Kernel.setProc_ne _ _ (Ne.symm hq)]
        exact h

end

/-- The event closes descriptor `j` of `p`. -/
def OsEvent.Closes (p j : Nat) (s : Os) : OsEvent → Prop
  | .file c (.close fd) => (s.kernel.cpu c).proc = some p ∧ fd = j
  | _ => False

omit [Link] in
theorem wp_fileCall_names {s : Os} {call : FileCall} (h : (s.kernel.proc p).ofile j = some f)
    (hno : ¬ (OsEvent.file c call).Closes p j s) :
    wp (call.body c) (fun _ s' => (s'.kernel.proc p).ofile j = some f) (fun _ => True) s := by
  cases call with
  | openAt ip omode => exact (Firm.bind (firm_sysOpen c ip omode) fun _ => .pure _) s h
  | close fd =>
    unfold FileCall.body
    rw [wp_bind, wp_onKernel]
    exact wp_post (wp_sysClose_names h hno) (fun _ _ h1 => (wp_pure ..).mpr h1)
  | dup fd => exact (Firm.bind (firm_sysDup c fd) fun _ => .pure _) s h
  | pipe => exact (Firm.bind (firm_sysPipe c) fun _ => .pure _) s h
  | read fd n =>
    refine (Firm.bind (firm_curproc c) fun pr => ?_) s h
    cases openFile pr fd with
    | none => exact .pure _
    | some g => exact .bind (.onFiles _) fun _ => .pure _
  | write fd bs =>
    refine (Firm.bind (firm_curproc c) fun pr => ?_) s h
    cases openFile pr fd with
    | none => exact .pure _
    | some g => exact .bind (.onFiles _) fun _ => .pure _

/-- No event takes the file from a mapped slot, but a `close` of its descriptor. -/
theorem Backed.osPreserved {s : Os} {e : OsEvent} (h : Backed p i j f s.kernel)
    (hm : Holding p i s.kernel) (hno : ¬ e.Closes p j s) : OsPreserved (Keeping p i j f) e s where
  kernel := by
    rintro e rfl
    exact h.preserved hm
  exit hat hp hk := Keeping.tabled.exit (hat.curProc hp) hk
  file := by
    rintro c q call rfl hat hq -
    refine wp_mono (wp_and (wp_fileCall_names h.file hno) (filing_body c call s)) ?_
      (fun _ _ => trivial)
    rintro _ s1 ⟨hfile, hb⟩ -
    refine ⟨?_, hfile⟩
    rw [bare_proc hb]
    exact h.fd

/-! ## Page faults and unmapping -/

/-- Page faults in slot `i` of `p` read file `f`, and unmapping the slot writes it. -/
structure UsesFile (p i f : Nat) (s : Os) : Prop where
  /-- A load finds a file. -/
  load : ∀ (fr : Nat) (io : Option (List Byte)),
    wp (loadPage p fr ((s.kernel.proc p).mmap i) io) (fun _ _ => True) (fun _ => False) s.kernel
  /-- What it reads of a regular file are the bytes of `f`. -/
  fed : ∀ (c va : Nat) (b : Option Byte) (io : Option (List Byte)),
    (s.kernel.cpu c).proc = some p → findRegion (s.kernel.proc p).mmap va = some i →
    (s.files.file f).type = .inode → (s.files.inode (s.files.file f).ip).type ≠ .dev →
    (Event.access c va b io).Fed s → io = s.files.lazyRead f ((s.kernel.proc p).mmap i) va
  /-- What `wunmap` hands to `filewrite` is for `f`. -/
  write : ∀ (c addr : Nat), (s.kernel.cpu c).proc = some p →
    findRegion (s.kernel.proc p).mmap addr = some i →
    wp (wunmap c addr) (fun _ k => ∃ ws, k.filewrites = s.kernel.filewrites ++ ws ∧
      ∀ w ∈ ws, w.file = f) (fun _ => True) s.kernel

omit [Link] in
theorem Backed.openFile (h : Backed p i j f s) (hj : j < nofile) :
    openFile (s.proc p) ((s.proc p).mmap i).fd = some f := by
  unfold Xv6.openFile
  rw [h.fd, if_neg (by omega), Int.toNat_natCast]
  exact h.file

omit [Link] in
theorem wp_ofileAt_open {pr : Proc} {fd : Int} (h : Xv6.openFile pr fd = some g)
    {Q : Option Nat → Kernel → Prop} {F : Fault → Prop} (hQ : Q (some g) s) :
    wp (ofileAt pr fd) Q F s := by
  unfold Xv6.openFile at h
  split at h
  · cases h
  next hfd =>
    unfold ofileAt
    rw [if_pos (by omega), wp_pure, h]
    exact hQ

omit [Link] in
/-- A program over memory, between two writes to files. -/
theorem wp_onMem_same {α : Type} {x : M α} {Q : α → Kernel → Prop}
    (h : ∀ a m, Q a { s with mem := m }) : wp (onMem x) Q (fun _ => True) s := by
  rw [wp_onMem]
  exact wp_of_ok fun a m _ => h a m

/-- The writes of the loop of `wunmap` go to the file of the descriptor. -/
theorem wp_unmapLoop_writes {r : MmapRegion} (as : List Nat)
    (h : Xv6.openFile (s.proc p) r.fd = some g) :
    wp (unmapLoop p r as) (fun _ s' => ∃ ws, s'.filewrites = s.filewrites ++ ws ∧
      ∀ w ∈ ws, w.file = g) (fun _ => True) s := by
  induction as generalizing s with
  | nil => exact (wp_pure ..).mpr ⟨[], (List.append_nil _).symm, nofun⟩
  | cons a as ih =>
    unfold unmapLoop
    rw [wp_bind, wp_getProc, wp_bind]
    refine wp_onMem_same fun o m1 => ?_
    cases o with
    | none => exact ih (s := { s with mem := m1 }) h
    | some ptr =>
      dsimp only
      rw [wp_bind]
      refine wp_onMem_same fun pte m2 => ?_
      rw [wp_ite]
      split
      · -- one write at most, and then the rest of the loop
        have hrest : ∀ (s1 : Kernel) (ws : List FileWrite), s1.proc = s.proc →
            s1.filewrites = s.filewrites ++ ws → (∀ w ∈ ws, w.file = g) →
            wp (do
                onMem (kfree (p2v (pteAddr pte)))
                onMem (store ptr 0#32)
                unmapLoop p r as)
              (fun _ s' => ∃ ws, s'.filewrites = s.filewrites ++ ws ∧ ∀ w ∈ ws, w.file = g)
              (fun _ => True) s1 := by
          intro s1 ws hproc hw hws
          rw [wp_bind]
          refine wp_onMem_same fun _ m3 => ?_
          rw [wp_bind]
          refine wp_onMem_same fun _ m4 => ?_
          refine wp_post (ih (by dsimp only; rw [hproc]; exact h)) ?_
          rintro _ s2 ⟨ws', hw', hws'⟩
          refine ⟨ws ++ ws', ?_, fun w hin => (List.mem_append.mp hin).elim (hws w) (hws' w)⟩
          rw [hw', ← List.append_assoc]
          exact congrArg (· ++ ws') hw
        unfold writeBack
        rw [wp_bind, wp_ite]
        split
        · rw [wp_bind, wp_getProc, wp_bind]
          refine wp_ofileAt_open h ?_
          rw [wp_modify]
          exact hrest _ [⟨g, _, _⟩] rfl rfl fun w hw => by rw [List.mem_singleton.mp hw]
        · exact (wp_pure ..).mpr (hrest _ [] rfl (List.append_nil _).symm nofun)
      · exact ih (s := { s with mem := m2 }) h

theorem Backed.usesFile {s : Os} (h : Backed p i j f s.kernel) (hj : j < nofile) :
    UsesFile p i f s where
  load := by
    intro fr io
    unfold loadPage
    rw [wp_bind, wp_getProc, wp_bind]
    refine wp_ofileAt_open (h.openFile hj) ?_
    cases io with
    | none => exact (wp_pure ..).mpr trivial
    | some bs =>
      dsimp only
      unfold writeBytes
      rw [wp_bind, wp_onMem, wp_modify, wp_pure]
      trivial
  fed := by
    intro c va b io hcur hreg hty hdev hfed
    exact hfed p i f hcur hreg (h.openFile hj) hty hdev
  write := by
    intro c addr hcur hreg
    unfold Xv6.wunmap
    rw [wp_bind, wp_myproc, hcur]
    dsimp only
    rw [wp_bind, wp_getProc, hreg]
    dsimp only
    rw [wp_bind]
    refine wp_post (wp_unmapLoop_writes _ (h.openFile hj)) ?_
    intro _ s1 hw
    rw [wp_bind, wp_setProc, wp_pure]
    exact hw

/-! ## Runs -/

/-- The steps in which `p` does not close descriptor `j`, and after which it lives and
has its slot `i` mapped. -/
def StepKeeping (ncpu p i j : Nat) (s : Os) (e : OsEvent) (s' : Os) : Prop :=
  ¬ e.Closes p j s ∧ OsStep ncpu s e s' ∧ Holding p i s'.kernel

/-- A mapped slot keeps its file in every run in which its descriptor is not closed. -/
theorem Backed.run {s0 s : Os} {es : List OsEvent} (h0 : Backed p i j f s0.kernel)
    (hm : Holding p i s0.kernel) (hok : CpuOk s0.kernel)
    (h : Trace.Run (StepKeeping ncpu p i j) s0 es s) : Backed p i j f s.kernel := by
  have hinv : CpuOk s.kernel ∧ Holding p i s.kernel ∧ Backed p i j f s.kernel := by
    refine h.invariant (I := fun s => CpuOk s.kernel ∧ Holding p i s.kernel ∧
      Backed p i j f s.kernel) ⟨hok, hm, h0⟩ ?_
    rintro s1 e s2 ⟨hok1, hm1, h1⟩ ⟨hno, hstep, hm2⟩
    have hkeep : Keeping p i j f s2.kernel :=
      (h1.osPreserved hm1 hno).step hok1 (fun _ => h1) hstep
    exact ⟨hok1.osStep hstep, hm2, hkeep hm2⟩
  exact hinv.2.2

theorem CpuOk.osRun {s0 s : Os} {es : List OsEvent} (hboot : Boot ncpu s0.kernel)
    (h : Trace.Run (OsStep ncpu) s0 es s) : CpuOk s.kernel := by
  obtain ⟨A, d, f', g, hb⟩ := hboot.booted
  exact h.invariant (I := fun s => CpuOk s.kernel) hb.cpuOk fun _ _ _ hi hs => hi.osStep hs

/-- The trap of a file-backed `wmap` that succeeds. -/
theorem wp_syscall_wmap {addr length flags fd : Word} (hcur : (s.cpu c).proc = some p)
    (hk : (s.proc p).killed = false) (hrun : (s.proc p).state = .running)
    (hslot : wmapSlot (s.proc p).mmap addr length flags = some i)
    (hanon : flag flags mapAnonymous = false) (hf : Xv6.openFile (s.proc p) fd.toInt = some f)
    (hj : freeFd (s.proc p) = some j) :
    wp (syscall c (.wmap addr length flags fd)) (fun _ k => Holding p i k ∧ Backed p i j f k)
      (fun _ => True) s := by
  refine wp_syscall hcur hk ?_
  unfold Call.body
  rw [wp_bind]
  refine wp_wmap_file hcur hslot hanon hf hj (.inl trivial) ?_
  rw [wp_pure]
  have hproc : (s.setProc p fun pr => pr.mapFile i j f addr length flags).proc p =
      (s.proc p).mapFile i j f addr length flags := Kernel.setProc_self ..
  refine wp_exitIfKilled hcur ?_ ⟨⟨?_, ?_⟩, ⟨?_, ?_⟩⟩
  · dsimp only
    rw [hproc]
    exact hk
  · dsimp only
    rw [hproc]
    show (s.proc p).state.dead = false
    rw [hrun]
    rfl
  · dsimp only
    rw [hproc]
    simp [Proc.mapFile]
  · dsimp only
    rw [hproc]
    simp [Proc.mapFile]
  · dsimp only
    rw [hproc]
    exact update_self ..

omit [Link] in
/-- A page fault of a region whose descriptor is closed. -/
theorem loadPage_closed {r : MmapRegion} (hfd : r.fd = k) (hk : k < nofile)
    (hnone : (s.proc p).ofile k = none) (fr : Nat) (io : Option (List Byte)) :
    loadPage p fr r io s = .error .nullDeref := by
  have hrun : wp (loadPage p fr r io) (fun _ _ => False) (fun e => e = .nullDeref) s := by
    unfold loadPage ofileAt
    rw [wp_bind, wp_getProc, wp_bind, hfd, if_pos (by omega), wp_pure, Int.toNat_natCast, hnone]
    exact (wp_throw ..).mpr rfl
  obtain ⟨e, hrun, rfl⟩ := wp_stops hrun
  exact hrun

/-- The kernel after process `p` closed its descriptor `k`, which named file `g`. -/
def Kernel.closeFd (s : Kernel) (p k g : Nat) : Kernel :=
  { s.setProc p fun pr => { pr with ofile := Function.update pr.ofile k none } with
    fileRef := Function.update s.fileRef g (s.fileRef g - 1) }

omit [Link] in
theorem Kernel.closeFd_proc (s : Kernel) (p k g : Nat) : (s.closeFd p k g).proc p =
    { s.proc p with ofile := Function.update (s.proc p).ofile k none } := by
  unfold Kernel.closeFd
  dsimp only
  rw [Kernel.setProc_self]

theorem osStep_close {d : Nat} {s : Os} (hc : c < ncpu) (hat : At c p d s.kernel)
    (hk : (s.kernel.proc p).killed = false) (hg : Xv6.openFile (s.kernel.proc p) (k : Int) = some g)
    (hpos : 0 < s.kernel.fileRef g) :
    OsStep ncpu s (.file c (.close k)) { s with kernel := s.kernel.closeFd p k g } := by
  have hstep : ∃ s', OsStep ncpu s (.file c (.close k)) s' ∧
      s' = { s with kernel := s.kernel.closeFd p k g } := by
    refine osStep_of_file hc hat hk ?_
    unfold FileCall.body sysClose setOfile fileclose
    rw [wp_bind, wp_onKernel, wp_bind, wp_myproc, hat.cur]
    dsimp only
    rw [wp_bind, wp_getProc, hg]
    dsimp only
    rw [wp_bind, wp_setProc, wp_bind, wp_bind, wp_get, wp_ite]
    split
    next h0 => exact absurd h0 (Nat.not_lt.mpr hpos)
    · rw [wp_set, wp_pure, wp_pure]
      exact ⟨rfl, rfl⟩
  obtain ⟨_, hstep, rfl⟩ := hstep
  exact hstep

theorem Booted.mapFirst {k : Kernel} {A : Space} {d f : Nat} (hb : Booted k A d f g)
    (length : Word) : (((k.dispatch 0 0).openFirst 0).mapFirst length).proc 0 =
      { Proc.zero with
        sz := pgsize, pgdir := d, kstack := f, state := .running, pid := 1
        ofile := Function.update (Function.update (fun _ => none) 0 (some 0)) 1 (some 0) }.mapFile
          0 1 0 0x60000000#32 length (mapShared ||| mapFixed) := by
  unfold Kernel.mapFirst
  dsimp only
  rw [Kernel.setProc_self, hb.openFirst]
  simp [Proc.mapFile]

end

end Xv6
