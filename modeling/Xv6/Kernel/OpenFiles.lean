import Xv6.Lib.Count
import Xv6.Kernel.Tables
import Xv6.Kernel.File

/-!
# Reference counts of open files

The count of a file is compared with the number of descriptors that name it, over
all slots of the process table.  Between the two stands what an operation has
pending: `filealloc` and `filedup` add a reference before a descriptor names the
file, and `fileclose` drops one after the descriptor is gone (`FilesOk`).  Slots
that are unused or hold a zombie have no open file.

Most operations do not touch any of this (`Quiet`).  `wmap` of a file takes two
references for the one descriptor it makes, so the counts are exact as long as no
call of `wmap` gets there (`Call.KeepsCounts`).
-/

namespace Xv6

open Prog Function

variable {p f j i : Nat} {addr length flags : Word}

/-! ## Counting descriptors -/

/-- The descriptors of all processes. -/
@[irreducible] def allFds : Finset (Nat × Nat) := Finset.range nproc ×ˢ Finset.range nofile

theorem mem_allFds : (p, i) ∈ allFds ↔ p < nproc ∧ i < nofile := by
  unfold allFds
  rw [Finset.mem_product, Finset.mem_range, Finset.mem_range]

/-- The file a descriptor names. -/
def Kernel.fd (s : Kernel) (k : Nat × Nat) : Option Nat := (s.proc k.1).ofile k.2

/-- How many descriptors name a file. -/
def Kernel.fds (s : Kernel) (f : Nat) : Nat := Count.refs allFds s.fd fun o => o == some f

theorem Kernel.fds_eq_zero {s : Kernel} (h : ∀ p i, (s.proc p).ofile i = none) (f : Nat) :
    s.fds f = 0 := Count.refs_eq_zero.mpr fun ⟨p, i⟩ _ => by
  show (((s.proc p).ofile i) == some f) = false
  rw [h]
  rfl

/-- Counts are exact up to the pending references `pend`. -/
structure FilesOk (s : Kernel) (pend : Nat → Int) : Prop where
  refs : ∀ f, (s.fileRef f : Int) = s.fds f + pend f
  idle : ∀ p, (s.proc p).state.dead = true → ∀ i < nofile, (s.proc p).ofile i = none

/-- One reference more, or less, is pending for `f`. -/
def pending (pend : Nat → Int) (f : Nat) (n : Int) : Nat → Int :=
  Function.update pend f (pend f + n)

@[simp] theorem pending_pending (pend : Nat → Int) (f : Nat) (n k : Int) :
    pending (pending pend f n) f k = pending pend f (n + k) := by
  unfold pending
  rw [update_idem, update_self, Int.add_assoc]

@[simp] theorem pending_zero (pend : Nat → Int) (f : Nat) : pending pend f 0 = pend := by
  unfold pending
  rw [Int.add_zero, update_eq_self]

variable {s s' : Kernel} {pend : Nat → Int}

/-- A reference taken or dropped. -/
theorem FilesOk.setRef (h : FilesOk s pend) {n : Nat} {k : Int} (hn : (n : Int) = s.fileRef f + k) :
    FilesOk { s with fileRef := Function.update s.fileRef f n } (pending pend f k) := by
  refine ⟨fun g => ?_, h.idle⟩
  show ((Function.update s.fileRef f n g : Nat) : Int) = s.fds g + _
  unfold pending
  by_cases hg : g = f
  · subst hg
    rw [update_self, update_self, hn, h.refs]
    omega
  · rw [update_of_ne hg, update_of_ne hg, h.refs]

section

variable (h : FilesOk s pend) (hp : p < nproc) (hj : j < nofile)
  (hdead : (s.proc p).state.dead = false)
include h hp hj hdead

/-- Descriptor `j` of `p` is rewritten: what it named is pending, and what it names
now is so no longer. -/
theorem FilesOk.rewrite {o : Option Nat} {pend' : Nat → Int} (hpend : ∀ f, pend' f =
      pend f + ((s.proc p).ofile j == some f).toNat - (o == some f).toNat) :
    FilesOk (s.setProc p fun pr => { pr with ofile := Function.update pr.ofile j o }) pend' := by
  refine ⟨fun f => ?_, ?_⟩
  · have hne : ∀ k ∈ allFds, k ≠ (p, j) →
        (s.setProc p fun pr => { pr with ofile := Function.update pr.ofile j o }).fd k =
          s.fd k := by
      rintro ⟨q, i⟩ - hk
      unfold Kernel.fd
      by_cases hq : q = p
      · subst hq
        have hi : i ≠ j := fun hi => hk (by rw [hi])
        rw [Kernel.setProc_self]
        exact update_of_ne hi ..
      · rw [Kernel.setProc_ne _ _ hq]
    have hself : (s.setProc p fun pr => { pr with ofile := Function.update pr.ofile j o }).fd
        (p, j) = o := by
      unfold Kernel.fd
      rw [Kernel.setProc_self]
      exact update_self ..
    have hcount := Count.refs_update (fun o => o == some f) (mem_allFds.mpr ⟨hp, hj⟩) hne
    rw [hself, show s.fd (p, j) = (s.proc p).ofile j from rfl] at hcount
    have hrefs := h.refs f
    have hpend := hpend f
    unfold Kernel.fds at *
    show (s.fileRef f : Int) = _
    omega
  · intro q hq i hi
    by_cases hqp : q = p
    · subst hqp
      rw [Kernel.setProc_self] at hq
      rw [show (s.proc q).state.dead = true from hq] at hdead
      cases hdead
    · rw [Kernel.setProc_ne _ _ hqp] at hq ⊢
      exact h.idle q hq i hi

theorem FilesOk.link (hnone : (s.proc p).ofile j = none) :
    FilesOk (s.setProc p fun pr => { pr with ofile := Function.update pr.ofile j (some f) })
      (pending pend f (-1)) := by
  refine h.rewrite hp hj hdead fun g => ?_
  rw [hnone]
  unfold pending
  by_cases hg : g = f
  · subst hg
    simp
    omega
  · have : (some f == some g) = false := by simpa using Ne.symm hg
    simp [hg, this]

theorem FilesOk.unlink (hsome : (s.proc p).ofile j = some f) :
    FilesOk (s.setProc p fun pr => { pr with ofile := Function.update pr.ofile j none })
      (pending pend f 1) := by
  refine h.rewrite hp hj hdead fun g => ?_
  rw [hsome]
  unfold pending
  by_cases hg : g = f
  · subst hg
    simp
  · have : (some f == some g) = false := by simpa using Ne.symm hg
    simp [hg, this]

end

/-! ## Operations that leave files alone -/

/-- What `FilesOk` reads, and the processors' processes. -/
def fview (s : Kernel) : (Nat → Nat) × (Nat → (Nat → Option Nat) × Bool) × (Nat → Option Nat) :=
  (s.fileRef, fun p => ((s.proc p).ofile, (s.proc p).state.dead), fun c => (s.cpu c).proc)

theorem fview_iff : fview s' = fview s ↔ s'.fileRef = s.fileRef ∧
    (∀ p, (s'.proc p).ofile = (s.proc p).ofile ∧
      (s'.proc p).state.dead = (s.proc p).state.dead) ∧
    ∀ c, (s'.cpu c).proc = (s.cpu c).proc := by
  simp only [fview, Prod.mk.injEq, funext_iff]

theorem fview_of_view (h : view s' = view s) : fview s' = fview s := by
  obtain ⟨href, hproc, hcpu⟩ := view_iff.mp h
  refine fview_iff.mpr ⟨href, fun p => ?_, hcpu⟩
  have := hproc p
  simp only [Proc.tables, Prod.mk.injEq] at this
  exact ⟨this.1, this.2.1⟩

theorem fview_setProc {f : Proc → Proc} (hfile : (f (s.proc p)).ofile = (s.proc p).ofile)
    (hdead : (f (s.proc p)).state.dead = (s.proc p).state.dead) :
    fview (s.setProc p f) = fview s := by
  refine fview_iff.mpr ⟨rfl, fun q => ?_, fun _ => rfl⟩
  by_cases hq : q = p
  · subst hq
    rw [Kernel.setProc_self]
    exact ⟨hfile, hdead⟩
  · rw [Kernel.setProc_ne _ _ hq]
    exact ⟨rfl, rfl⟩

/-- The program leaves open files alone. -/
abbrev Quiet {α : Type} (x : K α) : Prop := Keeps fview x

variable {α : Type}

theorem Inert.quiet {x : K α} (h : Inert x) : Quiet x := fun s =>
  wp_post (h s) (fun _ _ hv => fview_of_view hv)

/-- Slots may change their state, but may only die without open files. -/
theorem FilesOk.relabel (h : FilesOk s pend) (href : s'.fileRef = s.fileRef)
    (hfile : ∀ p, (s'.proc p).ofile = (s.proc p).ofile)
    (hdead : ∀ p, (s'.proc p).state.dead = true → (s.proc p).state.dead = true ∨
      ∀ i < nofile, (s.proc p).ofile i = none) : FilesOk s' pend := by
  have hfd : s'.fd = s.fd := by
    funext k
    exact congrFun (hfile k.1) k.2
  refine ⟨fun f => ?_, fun p hp i hi => ?_⟩
  · rw [href, h.refs f, Kernel.fds, Kernel.fds, hfd]
  · rw [hfile p]
    rcases hdead p hp with hp | hp
    · exact h.idle p hp i hi
    · exact hp i hi

theorem FilesOk.congr (h : FilesOk s pend) (hv : fview s' = fview s) : FilesOk s' pend := by
  obtain ⟨href, hproc, -⟩ := fview_iff.mp hv
  refine h.relabel href (fun p => (hproc p).1) fun p hp => .inl ?_
  rw [← (hproc p).2]
  exact hp

theorem FilesOk.setProc (h : FilesOk s pend) {f : Proc → Proc}
    (hfile : (f (s.proc p)).ofile = (s.proc p).ofile)
    (hidle : (f (s.proc p)).state.dead = true → ∀ i < nofile, (s.proc p).ofile i = none) :
    FilesOk (s.setProc p f) pend := by
  refine h.relabel rfl (fun q => ?_) fun q hq => ?_
  · by_cases hqp : q = p
    · rw [hqp, Kernel.setProc_self, hfile]
    · rw [Kernel.setProc_ne _ _ hqp]
  · by_cases hqp : q = p
    · subst hqp
      rw [Kernel.setProc_self] at hq
      exact .inr (hidle hq)
    · rw [Kernel.setProc_ne _ _ hqp] at hq
      exact .inl hq

section

variable [Link]

theorem quiet_wunmap (c addr : Nat) : Quiet (wunmap c addr) := by
  refine .bind (Inert.quiet (inert_myproc c)) fun p => .bind (Inert.quiet (inert_getProc p)) fun pr => ?_
  cases findRegion pr.mmap addr with
  | none => exact .pure _
  | some i =>
    exact .bind (Inert.quiet (inert_unmapLoop p _ _)) fun _ =>
      .bind (.modify fun _ => fview_setProc rfl rfl) fun _ => .pure _

theorem quiet_sysWunmap (c : Nat) (addr : Word) : Quiet (sysWunmap c addr) :=
  .ite (fun _ => .pure _) fun _ => quiet_wunmap c _

theorem quiet_exitMaps (c p : Nat) : Quiet (exitMaps c p) := by
  refine .forM fun i => .bind (Inert.quiet (inert_getProc p)) fun pr =>
    .bind (Inert.quiet (inert_onMem _)) fun o => ?_
  cases o with
  | none => exact .pure _
  | some ptr =>
    exact .bind (Inert.quiet (inert_onMem _)) fun pte => .ite (fun _ => .bind .get fun s =>
      .ite (fun _ => .bind (quiet_wunmap c _) fun _ => .pure _) fun _ => .pure _) fun _ => .pure _

end

/-! ## Taking and dropping references -/

theorem wp_filedup_then {Q : Unit → Kernel → Prop} {F : Fault → Prop}
    (hF : F (.panic "filedup") ∨ 0 < s.fileRef f)
    (h : Q () { s with fileRef := Function.update s.fileRef f (s.fileRef f + 1) }) :
    wp (filedup f) Q F s := by
  unfold filedup
  rw [wp_bind, wp_get, wp_ite]
  split
  next h0 => exact (wp_throw ..).mpr (hF.resolve_right fun hpos => by omega)
  · rw [wp_set]
    exact h

theorem wp_filedup (h : FilesOk s pend) (f : Nat) :
    wp (filedup f) (fun _ s' => FilesOk s' (pending pend f 1) ∧ s'.proc = s.proc)
      (fun _ => True) s :=
  wp_filedup_then (.inl trivial) ⟨h.setRef (by push_cast; rfl), rfl⟩

theorem wp_fileclose (h : FilesOk s pend) (f : Nat) :
    wp (fileclose f) (fun _ s' => FilesOk s' (pending pend f (-1)) ∧ s'.proc = s.proc ∧
      s'.cpu = s.cpu) (fun _ => True) s := by
  unfold fileclose
  rw [wp_bind, wp_get, wp_ite]
  split
  · exact (wp_throw ..).mpr trivial
  · rw [wp_set]
    exact ⟨h.setRef (by omega), rfl, rfl⟩

theorem wp_filealloc (h : FilesOk s pend) :
    wp filealloc (fun o s' => FilesOk s' (o.elim pend fun f => pending pend f 1) ∧
      s'.proc = s.proc ∧ s'.cpu = s.cpu) (fun _ => True) s := by
  unfold filealloc
  rw [wp_bind, wp_get]
  cases hf : (List.range nfile).find? fun f => s.fileRef f = 0 with
  | none => exact (wp_pure ..).mpr ⟨h, rfl, rfl⟩
  | some f =>
    dsimp only
    rw [wp_bind, wp_set, wp_pure]
    have h0 : s.fileRef f = 0 := by simpa using List.find?_some hf
    exact ⟨h.setRef (by rw [h0]; rfl), rfl, rfl⟩

theorem freeFd_spec {pr : Proc} (h : freeFd pr = some j) : j < nofile ∧ pr.ofile j = none := by
  unfold freeFd at h
  exact ⟨List.mem_range.mp (List.mem_of_find?_eq_some h), by simpa using List.find?_some h⟩

/-- A descriptor for a file with a pending reference. -/
theorem wp_fdalloc {c : Nat} (h : FilesOk s pend) (hc : Cur c p s) (f : Nat) :
    wp (fdalloc p f) (fun o s' => Cur c p s' ∧ match o with
      | none => s' = s
      | some j => FilesOk s' (pending pend f (-1)) ∧ j < nofile ∧ (s.proc p).ofile j = none ∧
          s' = s.setProc p fun pr => { pr with ofile := Function.update pr.ofile j (some f) })
      (fun _ => True) s := by
  unfold fdalloc setOfile
  rw [wp_bind, wp_getProc]
  cases hj : freeFd (s.proc p) with
  | none => exact (wp_pure ..).mpr ⟨hc, rfl⟩
  | some j =>
    obtain ⟨hlt, hnone⟩ := freeFd_spec hj
    dsimp only
    rw [wp_bind, wp_setProc, wp_pure]
    exact ⟨hc.setProc hc.live, h.link hc.lt hlt hc.live hnone, hlt, hnone, rfl⟩

theorem wp_closeFiles {c : Nat} (h : FilesOk s pend) (hc : Cur c p s) :
    wp (closeFiles p) (fun _ s' => FilesOk s' pend ∧ Cur c p s' ∧
      ∀ i < nofile, (s'.proc p).ofile i = none) (fun _ => True) s := by
  unfold closeFiles
  refine wp_post (wp_forM (I := fun l s' => (∀ i ∈ l, i < nofile) ∧ FilesOk s' pend ∧
    Cur c p s' ∧ ∀ i < nofile, i ∉ l → (s'.proc p).ofile i = none)
    ⟨fun i hi => List.mem_range.mp hi, h, hc, ?_⟩ ?_) ?_
  · intro i hi hnot
    exact absurd (List.mem_range.mpr hi) hnot
  · rintro i is s1 ⟨hlt, h1, hc1, hdone⟩
    have hlt' : ∀ j ∈ is, j < nofile := fun j hj => hlt j (.tail _ hj)
    rw [wp_bind, wp_getProc]
    cases ho : (s1.proc p).ofile i with
    | none =>
      refine (wp_pure ..).mpr ⟨hlt', h1, hc1, fun j hj hnot => ?_⟩
      by_cases hji : j = i
      · rw [hji, ho]
      · exact hdone j hj (by simpa [hji] using hnot)
    | some f =>
      dsimp only
      rw [wp_bind]
      refine wp_post (wp_fileclose h1 f) ?_
      rintro _ s2 ⟨h2, hproc, hcpu⟩
      have hc2 := hc1.of_eq hproc hcpu
      rw [wp_setProc]
      refine ⟨hlt', ?_, hc2.setProc hc2.live, fun j hj hnot => ?_⟩
      · have h3 := h2.unlink hc2.lt (hlt i (.head _)) hc2.live (by rw [hproc]; exact ho)
        simpa using h3
      · rw [Kernel.setProc_self, hproc]
        by_cases hji : j = i
        · rw [hji]
          exact update_self ..
        · exact (update_of_ne hji ..).trans (hdone j hj (by simpa [hji] using hnot))
  · rintro _ s1 ⟨-, h1, hc1, hdone⟩
    exact ⟨h1, hc1, fun i hi => hdone i hi List.not_mem_nil⟩

/-! ## Operations of a process -/

/-- No reference is pending. -/
def settled : Nat → Int := fun _ => 0

section

variable {c : Nat} {β : Type}

variable [Link]

theorem wp_exit_refs (hc : Cur c p s) (hs : FilesOk s settled) :
    wp (exit c) (fun _ s' => FilesOk s' settled) (fun _ => True) s := by
  unfold exit
  rw [wp_bind, wp_myproc, hc.cur]
  dsimp only
  rw [wp_bind, wp_get, wp_ite]
  split
  · exact (wp_throw ..).mpr trivial
  · rw [wp_bind]
    refine wp_post (wp_closeFiles hs hc) ?_
    rintro _ s1 ⟨h1, hc1, hnone⟩
    rw [wp_bind]
    refine wp_post (quiet_exitMaps c p s1) ?_
    intro _ s2 hv2
    rw [wp_bind, wp_getProc, wp_bind]
    refine wp_post (Inert.quiet (inert_wakeup1 _) s2) ?_
    intro _ s3 hv3
    rw [wp_bind]
    refine wp_post (Inert.quiet (inert_reparent p) s3) ?_
    intro _ s4 hv4
    have hv : fview s4 = fview s1 := hv4.trans (hv3.trans hv2)
    have h4 := (h1.congr hv).setProc (p := p) (f := fun pr => { pr with state := .zombie }) rfl
      fun _ i hi => by rw [((fview_iff.mp hv).2.1 p).1]; exact hnone i hi
    unfold toScheduler
    rw [wp_bind, wp_setProc, wp_modify]
    exact ⟨h4.refs, h4.idle⟩

omit [Link] in
/-- The child names each of the parent's files with a reference of its own. -/
theorem wp_dupFiles_refs {np : Nat} (h : FilesOk s pend) (hnp : np < nproc)
    (hlive : (s.proc np).state.dead = false) (hnone : ∀ i < nofile, (s.proc np).ofile i = none) :
    wp (dupFiles p np) (fun _ s' => FilesOk s' pend) (fun _ => True) s := by
  unfold dupFiles
  refine wp_post (wp_forM (I := fun l s' => (∀ i ∈ l, i < nofile) ∧ l.Nodup ∧ FilesOk s' pend ∧
    (s'.proc np).state.dead = false ∧ ∀ i ∈ l, (s'.proc np).ofile i = none)
    ⟨fun i hi => List.mem_range.mp hi, List.nodup_range, h, hlive,
      fun i hi => hnone i (List.mem_range.mp hi)⟩ ?_) (fun _ _ h => h.2.2.1)
  rintro i is s1 ⟨hlt, hnodup, h1, hlive1, hnone1⟩
  obtain ⟨hnot, hnodup⟩ := List.nodup_cons.mp hnodup
  have hlt' : ∀ j ∈ is, j < nofile := fun j hj => hlt j (.tail _ hj)
  rw [wp_bind, wp_getProc]
  cases ho : (s1.proc p).ofile i with
  | none => exact (wp_pure ..).mpr ⟨hlt', hnodup, h1, hlive1, fun j hj => hnone1 j (.tail _ hj)⟩
  | some f =>
    dsimp only
    rw [wp_bind]
    refine wp_post (wp_filedup h1 f) ?_
    rintro _ s2 ⟨h2, hproc⟩
    rw [wp_setProc]
    rw [← hproc] at hlive1 hnone1
    refine ⟨hlt', hnodup, ?_, ?_, fun j hj => ?_⟩
    · simpa using h2.link (f := f) hnp (hlt i (.head _)) hlive1 (hnone1 i (.head _))
    · rw [Kernel.setProc_self]
      exact hlive1
    · have hji : j ≠ i := by
        rintro rfl
        exact hnot hj
      rw [Kernel.setProc_self]
      exact (update_of_ne hji ..).trans (hnone1 j (.tail _ hj))

omit [Link] in
theorem FilesOk.allocated {np : Nat} {o : Option Nat} (h : FilesOk s pend)
    (hal : Allocated np o s s') (hnp : (s.proc np).state = .unused) : FilesOk s' pend := by
  refine h.relabel hal.fileRef (fun q => ?_) fun q hq => ?_
  · by_cases hq : q = np
    · rw [hq, hal.slot]
      cases o with
      | none => rfl
      | some f => rfl
    · rw [hal.proc q hq]
  · by_cases hqn : q = np
    · rw [hqn, hnp]
      exact .inl rfl
    · rw [hal.proc q hqn] at hq
      exact .inl hq

theorem wp_fork_refs (hc : Cur c p s) (hs : FilesOk s settled) :
    wp (fork c) (fun _ s' => FilesOk s' settled) (fun _ => True) s := by
  unfold fork
  rw [wp_bind, wp_myproc, hc.cur]
  dsimp only
  rw [wp_bind]
  refine wp_allocproc (fun _ => (wp_pure ..).mpr hs) fun np hslot => ?_
  obtain ⟨hnp, hunused⟩ := unusedProc_spec hslot
  have hidle := hs.idle np (by rw [hunused]; rfl)
  refine wp_of_ok fun o m1 _ s1 _ hal => ?_
  have hs1 := hs.allocated hal hunused
  have hslot1 := hal.slot
  cases o with
  | none => exact (wp_pure ..).mpr hs1
  | some f =>
    dsimp only [Option.map_some] at hslot1 ⊢
    have hnone1 : ∀ i < nofile, (s1.proc np).ofile i = none := by
      rw [hslot1]
      exact hidle
    rw [wp_bind, wp_getProc, wp_bind]
    refine wp_post (Inert.quiet (inert_copyuvm c _ _) s1) ?_
    intro o s2 hv2
    have hs2 := hs1.congr hv2
    obtain ⟨hfile2, hdead2⟩ := (fview_iff.mp hv2).2.1 np
    rw [← hfile2] at hnone1
    rw [hslot1] at hdead2
    cases o with
    | none =>
      dsimp only
      rw [wp_bind, wp_getProc, wp_bind]
      refine wp_post (Inert.quiet (inert_onMem _) s2) ?_
      intro _ s3 hv3
      rw [wp_bind, wp_setProc, wp_pure]
      refine (hs2.congr hv3).setProc rfl fun _ => ?_
      rw [((fview_iff.mp hv3).2.1 np).1]
      exact hnone1
    | some d =>
      dsimp only
      rw [wp_bind, wp_setProc, wp_bind]
      refine wp_post (wp_dupFiles_refs (hs2.setProc rfl fun _ => hnone1) hnp ?_ ?_) ?_
      · rw [Kernel.setProc_self]
        exact hdead2
      · rw [Kernel.setProc_self]
        exact hnone1
      · intro _ s3 hs3
        rw [wp_bind]
        refine wp_post (Inert.quiet (inert_onMem _) s3) ?_
        intro _ s4 hv4
        rw [wp_bind, wp_setProc, wp_bind]
        refine wp_post (Inert.quiet (inert_lcr3 c d) _) ?_
        intro _ s5 hv5
        rw [wp_bind, wp_getProc, wp_pure]
        have hs5 : FilesOk (s4.setProc np fun n => { n with state := .runnable }) settled :=
          (hs3.congr hv4).setProc rfl fun h => by cases h
        exact hs5.congr hv5

/-- A file-backed request that passes the checks and names an open descriptor. -/
def Call.TakesFile (pr : Proc) : Call → Prop
  | .wmap addr length flags fd => (wmapSlot pr.mmap addr length flags).isSome ∧
      flag flags mapAnonymous = false ∧ (openFile pr fd.toInt).isSome
  | _ => False

section

omit [Link]

theorem ofileAt_none {pr : Proc} {fd : Int} (h : (openFile pr fd).isSome = false)
    {Q : Option Nat → Kernel → Prop} (hQ : Q none s) : wp (ofileAt pr fd) Q (fun _ => True) s := by
  unfold ofileAt
  rw [wp_ite]
  split
  next hfd =>
    unfold openFile at h
    rw [if_neg (by omega)] at h
    rw [Option.isSome_eq_false_iff, Option.isNone_iff_eq_none] at h
    rw [wp_pure, h]
    exact hQ
  · exact (wp_throw ..).mpr trivial

theorem wp_wmap_refs {fd : Word} (hc : Cur c p s) (hs : FilesOk s settled)
    (hno : ¬ (Call.wmap addr length flags fd).TakesFile (s.proc p)) :
    wp (wmap c addr length flags fd) (fun _ s' => FilesOk s' settled) (fun _ => True) s := by
  rw [wp_wmap hc.cur]
  cases hslot : wmapSlot (s.proc p).mmap addr length flags with
  | none => exact hs
  | some i =>
    dsimp only
    have hs1 : FilesOk (s.setProc p fun pr => pr.addRegion i addr length flags fd) settled :=
      hs.congr (fview_setProc rfl rfl)
    split
    · exact hs1
    next hanon =>
      have hclosed : (openFile (s.proc p) fd.toInt).isSome = false := by
        rw [Bool.eq_false_iff]
        intro hopen
        exact hno ⟨by rw [hslot]; rfl, by simpa using hanon, hopen⟩
      unfold wmapFile
      rw [wp_bind, wp_getProc, wp_bind, Kernel.setProc_self]
      refine ofileAt_none hclosed ?_
      exact (wp_pure ..).mpr hs1

/-- The process after a file-backed `wmap` of file `f` into slot `i` with the new
descriptor `j`. -/
def Proc.mapFile (pr : Proc) (i j f : Nat) (addr length flags : Word) : Proc :=
  { pr with
    mmap := Function.update pr.mmap i
      { pr.mmap i with addr := addr.toNat, length := length.toInt, flags := flags, fd := j, used := true }
    totalMmaps := pr.totalMmaps + 1
    ofile := Function.update pr.ofile j (some f) }

/-- A file-backed `wmap` takes two references of the file for one descriptor. -/
theorem wp_wmap_file {fd : Word} {Q : Int → Kernel → Prop} {F : Fault → Prop}
    (hcur : (s.cpu c).proc = some p) (hslot : wmapSlot (s.proc p).mmap addr length flags = some i)
    (hanon : flag flags mapAnonymous = false) (hf : openFile (s.proc p) fd.toInt = some f)
    (hj : freeFd (s.proc p) = some j) (hF : F (.panic "filedup") ∨ 0 < s.fileRef f)
    (h : Q addr.toNat { (s.setProc p fun pr => pr.mapFile i j f addr length flags) with
      fileRef := Function.update s.fileRef f (s.fileRef f + 2) }) :
    wp (wmap c addr length flags fd) Q F s := by
  rw [wp_wmap hcur, hslot]
  dsimp only
  rw [hanon, if_neg Bool.false_ne_true]
  have hfd : 0 ≤ fd.toInt ∧ fd.toInt < nofile := by
    unfold openFile at hf
    split at hf
    · cases hf
    · omega
  unfold openFile at hf
  rw [if_neg (by omega)] at hf
  unfold wmapFile ofileAt
  rw [wp_bind, wp_getProc, wp_bind, if_pos hfd, wp_pure, Kernel.setProc_self,
    show ((s.proc p).addRegion i addr length flags fd).ofile = (s.proc p).ofile from rfl, hf]
  dsimp only
  rw [wp_bind]
  refine wp_filedup_then hF ?_
  unfold freeFd at hj
  rw [hj]
  dsimp only
  rw [wp_bind]
  refine wp_filedup_then (.inr (by simp)) ?_
  rw [wp_bind, wp_setProc, wp_bind, wp_setProc, wp_pure]
  convert h using 1
  simp only [Kernel.setProc, update_self, update_idem, Nat.add_assoc]
  unfold Proc.mapFile Proc.setMmap Proc.addRegion Proc.setMmap
  simp only [update_idem, update_self]

/-- So one reference more than there are descriptors is left. -/
theorem FilesOk.mapFile (h : FilesOk s pend) (hp : p < nproc)
    (hdead : (s.proc p).state.dead = false) (hj : freeFd (s.proc p) = some j) :
    FilesOk { (s.setProc p fun pr => pr.mapFile i j f addr length flags) with
      fileRef := Function.update s.fileRef f (s.fileRef f + 2) } (pending pend f 1) := by
  obtain ⟨hlt, hnone⟩ := freeFd_spec hj
  have h2 := (h.setRef (f := f) (k := 2) (n := s.fileRef f + 2) (by push_cast; rfl)).link (f := f)
    hp hlt hdead hnone
  rw [pending_pending] at h2
  refine h2.relabel rfl (fun q => ?_) fun q hq => .inl ?_
  · by_cases hqp : q = p
    · rw [hqp]
      simp [Kernel.setProc, Proc.mapFile]
    · simp [Kernel.setProc, update_of_ne hqp]
  · by_cases hqp : q = p
    · rw [hqp] at hq ⊢
      simpa [Kernel.setProc, Proc.mapFile] using hq
    · simpa [Kernel.setProc, update_of_ne hqp] using hq

end

theorem FilesOk.tabled : Tabled fun s => FilesOk s settled where
  congr := by
    intro s s' href htab h
    refine h.relabel href (fun p => congrArg Prod.fst (htab p)) fun p hp => .inl ?_
    exact (congrArg (fun t => t.2.1) (htab p)).symm.trans hp
  exit hc hs := wp_exit_refs hc hs

/-- The event makes a file-backed mapping of an open file. -/
def Event.TakesFile (s : Kernel) : Event → Prop
  | .syscall c call => ∃ p, (s.cpu c).proc = some p ∧ (s.proc p).killed = false ∧
      call.TakesFile (s.proc p)
  | _ => False

theorem FilesOk.preserved {e : Event} (hs : FilesOk s settled) (hno : ¬ e.TakesFile s) :
    Preserved (fun s => FilesOk s settled) e s := by
  refine FilesOk.tabled.preserved hs ?_
  rintro c p call rfl hmove hc hk
  cases call with
  | fork =>
    unfold Call.body
    rw [wp_bind]
    exact wp_post (wp_fork_refs hc hs) (fun _ _ h1 => (wp_pure ..).mpr h1)
  | wmap addr length flags fd =>
    unfold Call.body
    rw [wp_bind]
    refine wp_post (wp_wmap_refs hc hs fun ht => hno ⟨p, hc.cur, hk, ht⟩)
      (fun _ _ h1 => (wp_pure ..).mpr h1)
  | wunmap addr =>
    unfold Call.body
    rw [wp_bind]
    refine wp_post (quiet_sysWunmap c addr s) ?_
    intro _ s1 hv
    exact (wp_pure ..).mpr (hs.congr hv)
  | exit => cases hmove
  | wait => cases hmove
  | kill pid => cases hmove
  | sbrk n => cases hmove
  | exec file argv => cases hmove

end

end Xv6
