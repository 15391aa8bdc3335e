import Xv6.Kernel.OpenFiles

/-!
# Steps of the kernel with its files

An event of the kernel changes the kernel as `Step` says, and a system call on
files changes nothing of it but memory, references and descriptors (`bare`).  So
what holds of the kernel along its own steps is carried over to the steps of `Os`
by the system calls on files (`OsPreserved`).

The first result is about the counts of open files.  They are exact in every run
without a file-backed `wmap` that finds its file open (`file_refs_exact`).
-/

namespace Xv6

open Prog Function

variable {d f g : Nat} {k : Kernel} {call : FileCall} {pend : Nat → Int} {A : Space} {x : O Unit}
  {e : Event} {I : Kernel → Prop} {Q : Os → Prop} {F : Fault → Prop}

variable {α β : Type}

/-- Programs over the files leave the kernel alone. -/
theorem wp_onFiles_of {x : FM α} {Q : α → Os → Prop} {s : Os} (h : ∀ a fs, Q a { s with files := fs }) :
    wp (onFiles x) Q (fun _ => True) s := by
  rw [wp_onFiles]
  exact wp_of_ok fun a fs _ => h a fs

/-! ## What the system calls on files leave alone -/

/-- Processes without their open files, and processors. -/
def bare (s : Kernel) : (Nat → Proc) × (Nat → Cpu) :=
  (fun p => { s.proc p with ofile := fun _ => none }, s.cpu)

theorem bare_setOfile (p j : Nat) (o : Option Nat) : Keeps bare (setOfile p j o) := by
  refine Keeps.modify fun s => ?_
  unfold bare
  congr 1
  funext q
  by_cases hq : q = p
  · rw [hq, Kernel.setProc_self]
  · rw [Kernel.setProc_ne _ _ hq]

theorem bare_filealloc : Keeps bare filealloc := by
  intro s
  unfold filealloc
  rw [wp_bind, wp_get]
  cases (List.range nfile).find? fun f => s.fileRef f = 0 with
  | none => exact (wp_pure ..).mpr rfl
  | some f =>
    dsimp only
    rw [wp_bind, wp_set, wp_pure]
    rfl

theorem bare_filedup (f : Nat) : Keeps bare (filedup f) := by
  intro s
  unfold filedup
  rw [wp_bind, wp_get, wp_ite]
  split
  · exact (wp_throw ..).mpr trivial
  · rw [wp_set]
    rfl

theorem bare_fileclose (f : Nat) : Keeps bare (fileclose f) := by
  intro s
  unfold fileclose
  rw [wp_bind, wp_get, wp_ite]
  split
  · exact (wp_throw ..).mpr trivial
  · rw [wp_set]
    rfl

theorem bare_getProc (p : Nat) : Keeps bare (getProc p) := by
  intro s
  rw [wp_getProc]

theorem bare_myproc (c : Nat) : Keeps bare (myproc c) := by
  intro s
  rw [wp_myproc]
  cases (s.cpu c).proc with
  | none => trivial
  | some p => rfl

theorem bare_fdalloc (p f : Nat) : Keeps bare (fdalloc p f) := by
  refine .bind (bare_getProc p) fun pr => ?_
  cases freeFd pr with
  | none => exact .pure _
  | some j => exact .bind (bare_setOfile p j _) fun _ => .pure _

theorem bare_sysDup (c : Nat) (fd : Int) : Keeps bare (sysDup c fd) := by
  refine .bind (bare_myproc c) fun p => .bind (bare_getProc p) fun pr => ?_
  cases openFile pr fd with
  | none => exact .pure _
  | some f =>
    refine .bind (bare_fdalloc p f) fun o => ?_
    cases o with
    | none => exact .pure _
    | some j => exact .bind (bare_filedup f) fun _ => .pure _

theorem bare_sysClose (c : Nat) (fd : Int) : Keeps bare (sysClose c fd) := by
  refine .bind (bare_myproc c) fun p => .bind (bare_getProc p) fun pr => ?_
  cases openFile pr fd with
  | none => exact .pure _
  | some f => exact .bind (bare_setOfile p _ _) fun _ => .bind (bare_fileclose f) fun _ => .pure _

/-- The program leaves the kernel alone, up to memory, references and descriptors. -/
abbrev Filing (x : O α) : Prop := Keeps (fun s : Os => bare s.kernel) x

theorem filing_onKernel {x : K α} (h : Keeps bare x) : Filing (onKernel x) := by
  intro s
  rw [wp_onKernel]
  exact h s.kernel

theorem filing_onFiles (x : FM α) : Filing (onFiles x) := fun _ => wp_onFiles_of fun _ _ => rfl

theorem filing_sysOpen (c : Nat) (ip : Option Nat) (omode : Word) :
    Filing (sysOpen c ip omode) := by
  refine .bind (filing_onKernel (bare_myproc c)) fun p => .bind .get fun s => ?_
  cases ip with
  | none => exact .pure _
  | some ip =>
    refine .ite (fun _ => .pure _) fun _ => .bind (filing_onKernel bare_filealloc) fun o => ?_
    cases o with
    | none => exact .pure _
    | some f =>
      refine .bind (filing_onKernel (bare_fdalloc p f)) fun o => ?_
      cases o with
      | none => exact .bind (filing_onKernel (bare_fileclose f)) fun _ => .pure _
      | some fd => exact .bind (filing_onFiles _) fun _ => .pure _

theorem filing_pipealloc : Filing pipealloc := by
  refine .bind (filing_onKernel bare_filealloc) fun o => ?_
  cases o with
  | none => exact .pure _
  | some f0 =>
    refine .bind (filing_onKernel bare_filealloc) fun o => ?_
    cases o with
    | none => exact .bind (filing_onKernel (bare_fileclose f0)) fun _ => .pure _
    | some f1 =>
      refine .bind (filing_onKernel (.zoom fun _ _ => rfl)) fun o => ?_
      cases o with
      | none =>
        exact .bind (filing_onKernel (bare_fileclose f0)) fun _ =>
          .bind (filing_onKernel (bare_fileclose f1)) fun _ => .pure _
      | some q =>
        exact .bind (filing_onFiles _) fun _ => .bind (filing_onFiles _) fun _ =>
          .bind (filing_onFiles _) fun _ => .pure _

theorem filing_sysPipe (c : Nat) : Filing (sysPipe c) := by
  refine .bind (filing_onKernel (bare_myproc c)) fun p => .bind filing_pipealloc fun o => ?_
  rcases o with _ | ⟨rf, wf⟩
  · exact .pure _
  · refine .bind (filing_onKernel (bare_fdalloc p rf)) fun o => ?_
    cases o with
    | none =>
      exact .bind (filing_onKernel (bare_fileclose rf)) fun _ =>
        .bind (filing_onKernel (bare_fileclose wf)) fun _ => .pure _
    | some fd0 =>
      refine .bind (filing_onKernel (bare_fdalloc p wf)) fun o => ?_
      cases o with
      | none =>
        exact .bind (filing_onKernel (bare_setOfile p fd0 none)) fun _ =>
          .bind (filing_onKernel (bare_fileclose rf)) fun _ =>
            .bind (filing_onKernel (bare_fileclose wf)) fun _ => .pure _
      | some fd1 => exact .pure _

theorem filing_curproc (c : Nat) : Filing (curproc c) :=
  filing_onKernel (.bind (bare_myproc c) fun p => bare_getProc p)

theorem filing_body (c : Nat) (call : FileCall) : Filing (call.body c) := by
  cases call with
  | openAt ip omode => exact .bind (filing_sysOpen c ip omode) fun _ => .pure _
  | close fd => exact .bind (filing_onKernel (bare_sysClose c fd)) fun _ => .pure _
  | dup fd => exact .bind (filing_onKernel (bare_sysDup c fd)) fun _ => .pure _
  | pipe => exact .bind (filing_sysPipe c) fun _ => .pure _
  | read fd n =>
    refine .bind (filing_curproc c) fun pr => ?_
    cases openFile pr fd with
    | none => exact .pure _
    | some f => exact .bind (filing_onFiles _) fun _ => .pure _
  | write fd bs =>
    refine .bind (filing_curproc c) fun pr => ?_
    cases openFile pr fd with
    | none => exact .pure _
    | some f => exact .bind (filing_onFiles _) fun _ => .pure _

theorem bare_proc {s s' : Kernel} (hb : bare s' = bare s) (p : Nat) :
    s'.proc p = { s.proc p with ofile := (s'.proc p).ofile } := by
  have h := congrFun (congrArg Prod.fst hb) p
  simp only [bare, Proc.mk.injEq] at h
  obtain ⟨h1, h2, h3, h4, h5, h6, h7, h8, -, h9, h10, h11⟩ := h
  dsimp only
  rw [← h1, ← h2, ← h3, ← h4, ← h5, ← h6, ← h7, ← h8, ← h9, ← h10, ← h11]

theorem bare_cpu {s s' : Kernel} (hb : bare s' = bare s) : s'.cpu = s.cpu := congrArg Prod.snd hb

theorem At.bare {c p : Nat} {s s' : Kernel} (h : At c p d s) (hb : bare s' = bare s) :
    At c p d s' :=
  ⟨by rw [bare_cpu hb]; exact h.cur, by rw [bare_proc hb]; exact h.state,
    by rw [bare_proc hb]; exact h.pgdir⟩

theorem Leaves.bare {c p : Nat} {s s' : Kernel} (h : At c p d s) (hb : bare s' = bare s) :
    Leaves c p s s' := by
  refine ⟨⟨fun c' _ => by rw [bare_cpu hb], fun q _ hq => ?_⟩, .inr ⟨d, h.bare hb⟩⟩
  rw [bare_proc hb]
  exact ⟨hq, rfl⟩

/-! ## Steps -/

section

variable [Link] {s s' : Os} {c p ncpu : Nat}

omit [Link] in
/-- What is written to files after an event does not change the kernel. -/
theorem wp_flushing {Q : Kernel → Prop} (h : wp x (fun _ s' => Q s'.kernel) (fun _ => True) s) :
    wp (flushing x) (fun _ s' => Q s'.kernel) (fun _ => True) s := by
  unfold flushing
  rw [wp_bind, wp_get, wp_bind]
  refine wp_post h ?_
  intro _ s1 h1
  rw [wp_bind, wp_get]
  exact wp_onFiles_of fun _ _ => h1

/-- An event of the kernel is one of its steps. -/
theorem OsStep.kernel (h : OsStep ncpu s (.kernel e) s') : Step ncpu s.kernel e s'.kernel := by
  refine ⟨h.1.1, wp_ok (Q := fun _ s' => e.run s.kernel = .ok ((), s'.kernel)) (F := fun _ => True) ?_ h.2⟩
  refine wp_flushing (Q := fun k => e.run s.kernel = .ok ((), k)) ?_
  rw [wp_onKernel]
  exact wp_of_ok fun _ _ hk => hk

/-- A system call on files, for a property of the kernel: the body keeps it, and the
process may exit before or after. -/
theorem wp_fileSyscall (hat : At c p d s.kernel) (hi : I s.kernel)
    (hexit : ∀ {d : Nat} {s1 : Kernel}, At c p d s1 → I s1 →
      wp (exit c) (fun _ => I) (fun _ => True) s1) (hbody : (s.kernel.proc p).killed = false →
      wp (call.body c) (fun _ s' => I s'.kernel) (fun _ => True) s) :
    wp (fileSyscall c call) (fun _ s' => I s'.kernel) (fun _ => True) s := by
  unfold fileSyscall curproc
  rw [wp_bind, wp_onKernel, wp_bind, wp_myproc, hat.cur]
  dsimp only
  rw [wp_getProc, wp_ite]
  split
  · rw [wp_onKernel]
    exact hexit hat hi
  next hk =>
    rw [wp_bind]
    refine wp_mono (wp_and (hbody (by simpa using hk)) (filing_body c call _)) ?_ (fun _ _ => trivial)
    rintro _ s1 ⟨h1, hb⟩
    have hat1 := hat.bare hb
    rw [wp_onKernel]
    unfold exitIfKilled
    rw [wp_bind, wp_get, hat1.cur]
    dsimp only
    rw [wp_ite]
    split
    · exact hexit hat1 h1
    · exact (wp_pure ..).mpr h1

theorem leaving_fileSyscall (hat : At c p d s.kernel) :
    wp (fileSyscall c call) (fun _ s' => Leaves c p s.kernel s'.kernel) (fun _ => True) s := by
  have hrefl : Leaves c p s.kernel s.kernel := ⟨Local.refl .., .inr ⟨d, hat⟩⟩
  refine wp_fileSyscall hat hrefl ?_ fun _ => ?_
  · intro d1 s1 hat1 h1
    exact wp_post (closing_exit s1 hat1) (fun _ _ h2 => h1.trans h2.leaves)
  · exact wp_post (filing_body c call s) (fun _ _ hb => Leaves.bare hat hb)

/-- The process of an event on files. -/
theorem OsStep.file (h : OsStep ncpu s (.file c call) s') (hok : CpuOk s.kernel) :
    ∃ p, At c p (s.kernel.proc p).pgdir s.kernel ∧ p < nproc ∧ Leaves c p s.kernel s'.kernel := by
  obtain ⟨p, hcur⟩ := Option.isSome_iff_exists.mp h.1.2
  obtain ⟨hp, hrun⟩ := hok.cur c p hcur
  have hat : At c p (s.kernel.proc p).pgdir s.kernel := ⟨hcur, hrun, rfl⟩
  exact ⟨p, hat, hp, wp_ok (Q := fun _ s' => Leaves c p s.kernel s'.kernel)
    (wp_flushing (leaving_fileSyscall hat)) h.2⟩

theorem CpuOk.osStep {e : OsEvent} (hok : CpuOk s.kernel) (h : OsStep ncpu s e s') :
    CpuOk s'.kernel := by
  cases e with
  | kernel e => exact hok.step h.kernel
  | file c call =>
    obtain ⟨p, hat, -, hl⟩ := h.file hok
    exact hok.leaves hat.cur hl

/-- What a property of the kernel needs of the event `e` in state `s`. -/
structure OsPreserved (I : Kernel → Prop) (e : OsEvent) (s : Os) : Prop where
  kernel : ∀ {e' : Event}, e = .kernel e' → Preserved I e' s.kernel
  exit : ∀ {c p d : Nat} {s1 : Kernel}, At c p d s1 → p < nproc → I s1 →
    wp (exit c) (fun _ => I) (fun _ => True) s1
  file : ∀ {c p : Nat} {call : FileCall}, e = .file c call →
    At c p (s.kernel.proc p).pgdir s.kernel → p < nproc → (s.kernel.proc p).killed = false →
    wp (call.body c) (fun _ s' => I s'.kernel) (fun _ => True) s

theorem OsPreserved.step {e : OsEvent} (h : OsPreserved I e s) (hok : CpuOk s.kernel)
    (hi : I s.kernel) (hstep : OsStep ncpu s e s') : I s'.kernel := by
  cases e with
  | kernel e =>
    have hk := hstep.kernel
    exact wp_ok (Q := fun _ => I) ((h.kernel rfl).event hok hk.1 hi) hk.2
  | file c call =>
    obtain ⟨p, hat, hp, -⟩ := hstep.file hok
    refine wp_ok (Q := fun _ s' => I s'.kernel) (wp_flushing ?_) hstep.2
    exact wp_fileSyscall hat hi (fun hat1 h1 => h.exit hat1 hp h1) fun hk =>
      h.file rfl hat hp hk

/-- A property of the kernel along a run whose events are allowed. -/
theorem OsPreserved.run {ok : Os → OsEvent → Prop} {s0 : Os} {es : List OsEvent}
    (hstep : ∀ s e, ok s e → I s.kernel → OsPreserved I e s) (h0 : CpuOk s0.kernel)
    (hi : I s0.kernel) (h : Trace.Run (Trace.given ok (OsStep ncpu)) s0 es s) :
    CpuOk s.kernel ∧ I s.kernel :=
  h.invariant (I := fun s => CpuOk s.kernel ∧ I s.kernel) ⟨h0, hi⟩ fun s e _ hs hgiven =>
    ⟨hs.1.osStep hgiven.2, (hstep s e hgiven.1 hs.2).step hs.1 hs.2 hgiven.2⟩

/-! ## Counts of open files -/

section

omit [Link]

theorem pending_comm (pend : Nat → Int) (f g : Nat) (a b : Int) :
    pending (pending pend f a) g b = pending (pending pend g b) f a := by
  by_cases h : f = g
  · subst h
    simp [Int.add_comm]
  · unfold pending
    rw [update_of_ne (Ne.symm h), update_of_ne h, update_comm h]

/-- A reference that was pending is dropped. -/
theorem wp_fileclose_pending (h : FilesOk k (pending pend f 1)) :
    wp (fileclose f) (fun _ k' => FilesOk k' pend ∧ k'.proc = k.proc ∧ k'.cpu = k.cpu)
      (fun _ => True) k := by
  refine wp_post (wp_fileclose h f) ?_
  rintro _ k' ⟨h1, hproc, hcpu⟩
  rw [pending_pending] at h1
  exact ⟨by simpa using h1, hproc, hcpu⟩

/-- A reference that was pending is given a descriptor. -/
theorem wp_fdalloc_pending (h : FilesOk k (pending pend f 1)) (hc : Cur c p k) :
    wp (fdalloc p f) (fun o k' => Cur c p k' ∧ match o with
      | none => k' = k
      | some j => FilesOk k' pend ∧ j < nofile ∧ (k'.proc p).ofile j = some f) (fun _ => True) k := by
  refine wp_post (wp_fdalloc h hc f) ?_
  rintro (_ | j) k' ⟨hc', h'⟩
  · exact ⟨hc', h'⟩
  · obtain ⟨h1, hj, -, rfl⟩ := h'
    rw [pending_pending] at h1
    refine ⟨hc', by simpa using h1, hj, ?_⟩
    rw [Kernel.setProc_self]
    exact update_self ..

theorem wp_sysDup_refs (hc : Cur c p k) (h : FilesOk k settled) (fd : Int) :
    wp (sysDup c fd) (fun _ k' => FilesOk k' settled) (fun _ => True) k := by
  unfold sysDup
  rw [wp_bind, wp_myproc, hc.cur]
  dsimp only
  rw [wp_bind, wp_getProc]
  cases openFile (k.proc p) fd with
  | none => exact (wp_pure ..).mpr h
  | some f =>
    dsimp only
    rw [wp_bind]
    refine wp_post (wp_fdalloc h hc f) ?_
    rintro (_ | j) k1 ⟨-, h1⟩
    · rw [h1]
      exact (wp_pure ..).mpr h
    · obtain ⟨h1, -⟩ := h1
      dsimp only
      rw [wp_bind]
      refine wp_post (wp_filedup h1 f) ?_
      rintro _ k2 ⟨h2, -⟩
      rw [wp_pure]
      simpa using h2

theorem openFile_some {pr : Proc} {fd : Int} (h : openFile pr fd = some f) :
    fd.toNat < nofile ∧ pr.ofile fd.toNat = some f := by
  unfold openFile at h
  split at h
  · cases h
  · exact ⟨by omega, h⟩

theorem wp_sysClose_refs (hc : Cur c p k) (h : FilesOk k settled) (fd : Int) :
    wp (sysClose c fd) (fun _ k' => FilesOk k' settled) (fun _ => True) k := by
  unfold sysClose setOfile
  rw [wp_bind, wp_myproc, hc.cur]
  dsimp only
  rw [wp_bind, wp_getProc]
  cases hf : openFile (k.proc p) fd with
  | none => exact (wp_pure ..).mpr h
  | some f =>
    obtain ⟨hlt, hsome⟩ := openFile_some hf
    dsimp only
    rw [wp_bind, wp_setProc, wp_bind]
    refine wp_post (wp_fileclose_pending (h.unlink hc.lt hlt hc.live hsome)) ?_
    rintro _ k1 ⟨h1, -⟩
    exact (wp_pure ..).mpr h1

theorem wp_sysOpen_refs (hc : Cur c p s.kernel) (h : FilesOk s.kernel settled) (ip : Option Nat)
    (omode : Word) :
    wp (sysOpen c ip omode) (fun _ s' => FilesOk s'.kernel settled) (fun _ => True) s := by
  unfold sysOpen
  rw [wp_bind, wp_onKernel, wp_myproc, hc.cur]
  dsimp only
  rw [wp_bind, wp_get]
  cases ip with
  | none => exact (wp_pure ..).mpr h
  | some ip =>
    dsimp only
    rw [wp_ite]
    split
    · exact (wp_pure ..).mpr h
    · rw [wp_bind, wp_onKernel]
      refine wp_post (wp_filealloc h) ?_
      rintro (_ | f) k1 ⟨h1, hproc, hcpu⟩
      · exact (wp_pure ..).mpr h1
      · have hc1 := hc.of_eq hproc hcpu
        dsimp only
        rw [wp_bind, wp_onKernel]
        refine wp_post (wp_fdalloc_pending h1 hc1) ?_
        rintro (_ | j) k2 ⟨hc2, h2⟩
        · dsimp only at h2 ⊢
          subst h2
          rw [wp_bind, wp_onKernel]
          refine wp_post (wp_fileclose_pending h1) ?_
          rintro _ k3 ⟨h3, -⟩
          exact (wp_pure ..).mpr h3
        · dsimp only
          rw [wp_bind]
          exact wp_onFiles_of fun _ _ => (wp_pure ..).mpr h2.1

/-- Both ends of a new pipe have a reference pending. -/
theorem wp_pipealloc_refs (h : FilesOk s.kernel pend) (hc : Cur c p s.kernel) :
    wp pipealloc (fun o s' => Cur c p s'.kernel ∧ match o with
      | none => FilesOk s'.kernel pend
      | some (f0, f1) => FilesOk s'.kernel (pending (pending pend f0 1) f1 1)) (fun _ => True) s := by
  unfold pipealloc
  rw [wp_bind, wp_onKernel]
  refine wp_post (wp_filealloc h) ?_
  rintro (_ | f0) k1 ⟨h1, hproc1, hcpu1⟩
  · exact (wp_pure ..).mpr ⟨hc.of_eq hproc1 hcpu1, h1⟩
  · have hc1 := hc.of_eq hproc1 hcpu1
    dsimp only [Option.elim] at h1 ⊢
    rw [wp_bind, wp_onKernel]
    refine wp_post (wp_filealloc h1) ?_
    rintro (_ | f1) k2 ⟨h2, hproc2, hcpu2⟩
    · dsimp only [Option.elim] at h2 ⊢
      rw [wp_bind, wp_onKernel]
      refine wp_post (wp_fileclose_pending h2) ?_
      rintro _ k3 ⟨h3, hproc3, hcpu3⟩
      exact (wp_pure ..).mpr ⟨(hc1.of_eq hproc2 hcpu2).of_eq hproc3 hcpu3, h3⟩
    · have hc2 := hc1.of_eq hproc2 hcpu2
      dsimp only [Option.elim] at h2 ⊢
      rw [wp_bind, wp_onKernel]
      refine wp_post (inert_onMem kalloc k2) ?_
      intro o k3 hv
      have h3 := h2.congr (fview_of_view hv)
      have hc3 := hc2.congr hv
      cases o with
      | none =>
        dsimp only
        rw [wp_bind, wp_onKernel]
        rw [pending_comm] at h3
        refine wp_post (wp_fileclose_pending h3) ?_
        rintro _ k4 ⟨h4, hproc4, hcpu4⟩
        rw [wp_bind, wp_onKernel]
        refine wp_post (wp_fileclose_pending h4) ?_
        rintro _ k5 ⟨h5, hproc5, hcpu5⟩
        exact (wp_pure ..).mpr ⟨(hc3.of_eq hproc4 hcpu4).of_eq hproc5 hcpu5, h5⟩
      | some q =>
        dsimp only
        rw [wp_bind]
        refine wp_onFiles_of fun _ _ => ?_
        rw [wp_bind]
        refine wp_onFiles_of fun _ _ => ?_
        rw [wp_bind]
        exact wp_onFiles_of fun _ _ => (wp_pure ..).mpr ⟨hc3, h3⟩

theorem wp_sysPipe_refs (hc : Cur c p s.kernel) (h : FilesOk s.kernel settled) :
    wp (sysPipe c) (fun _ s' => FilesOk s'.kernel settled) (fun _ => True) s := by
  unfold sysPipe
  rw [wp_bind, wp_onKernel, wp_myproc, hc.cur]
  dsimp only
  rw [wp_bind]
  refine wp_post (wp_pipealloc_refs h hc) ?_
  rintro (_ | ⟨rf, wf⟩) s1 ⟨hc1, h1⟩
  · exact (wp_pure ..).mpr h1
  · dsimp only at h1 ⊢
    rw [pending_comm] at h1
    rw [wp_bind, wp_onKernel]
    refine wp_post (wp_fdalloc_pending h1 hc1) ?_
    rintro (_ | fd0) k2 ⟨hc2, h2⟩
    · dsimp only at h2 ⊢
      subst h2
      rw [wp_bind, wp_onKernel]
      refine wp_post (wp_fileclose_pending h1) ?_
      rintro _ k3 ⟨h3, -⟩
      rw [wp_bind, wp_onKernel]
      refine wp_post (wp_fileclose_pending h3) ?_
      rintro _ k4 ⟨h4, -⟩
      exact (wp_pure ..).mpr h4
    · obtain ⟨h2, hlt, hsome⟩ := h2
      dsimp only
      rw [wp_bind, wp_onKernel]
      refine wp_post (wp_fdalloc_pending h2 hc2) ?_
      rintro (_ | fd1) k3 ⟨hc3, h3⟩
      · dsimp only at h3 ⊢
        subst h3
        -- the first descriptor is taken back, so its reference is pending again
        have hun := h2.unlink hc2.lt hlt hc2.live hsome
        unfold setOfile
        rw [wp_bind, wp_onKernel, wp_setProc, wp_bind, wp_onKernel]
        refine wp_post (wp_fileclose_pending hun) ?_
        rintro _ k4 ⟨h4, -⟩
        rw [wp_bind, wp_onKernel]
        refine wp_post (wp_fileclose_pending h4) ?_
        rintro _ k5 ⟨h5, -⟩
        exact (wp_pure ..).mpr h5
      · exact (wp_pure ..).mpr h3.1

theorem wp_fileCall_refs (hc : Cur c p s.kernel) (h : FilesOk s.kernel settled) (call : FileCall) :
    wp (call.body c) (fun _ s' => FilesOk s'.kernel settled) (fun _ => True) s := by
  cases call with
  | openAt ip omode =>
    unfold FileCall.body
    rw [wp_bind]
    exact wp_post (wp_sysOpen_refs hc h ip omode) (fun _ _ h1 => (wp_pure ..).mpr h1)
  | close fd =>
    unfold FileCall.body
    rw [wp_bind, wp_onKernel]
    exact wp_post (wp_sysClose_refs hc h fd) (fun _ _ h1 => (wp_pure ..).mpr h1)
  | dup fd =>
    unfold FileCall.body
    rw [wp_bind, wp_onKernel]
    exact wp_post (wp_sysDup_refs hc h fd) (fun _ _ h1 => (wp_pure ..).mpr h1)
  | pipe =>
    unfold FileCall.body
    rw [wp_bind]
    exact wp_post (wp_sysPipe_refs hc h) (fun _ _ h1 => (wp_pure ..).mpr h1)
  | read fd n =>
    unfold FileCall.body
    rw [wp_bind, wp_curproc hc.cur]
    cases openFile (s.kernel.proc p) fd with
    | none => exact (wp_pure ..).mpr h
    | some f =>
      dsimp only
      rw [wp_bind]
      exact wp_onFiles_of fun _ _ => (wp_pure ..).mpr h
  | write fd bs =>
    unfold FileCall.body
    rw [wp_bind, wp_curproc hc.cur]
    cases openFile (s.kernel.proc p) fd with
    | none => exact (wp_pure ..).mpr h
    | some f =>
      dsimp only
      rw [wp_bind]
      exact wp_onFiles_of fun _ _ => (wp_pure ..).mpr h

end

/-- The event makes a file-backed mapping of an open file. -/
def OsEvent.TakesFile (s : Os) : OsEvent → Prop
  | .kernel e => e.TakesFile s.kernel
  | .file _ _ => False

theorem FilesOk.osPreserved {e : OsEvent} (h : FilesOk s.kernel settled) (hno : ¬ e.TakesFile s) :
    OsPreserved (fun k => FilesOk k settled) e s where
  kernel := by
    rintro e rfl
    exact h.preserved hno
  exit hat hp h := wp_exit_refs (hat.curProc hp) h
  file := by
    rintro c p call rfl hat hp -
    exact wp_fileCall_refs (hat.curProc hp) h call

omit [Link] in
theorem Booted.filesOk [Link] (h : Booted k A d f g) : FilesOk k settled := by
  have hnone : ∀ p i, (k.proc p).ofile i = none := by
    intro p i
    by_cases hp : p = 0
    · rw [hp, h.init]
      rfl
    · rw [h.others p hp]
      rfl
  refine ⟨fun g => ?_, fun p _ i _ => hnone p i⟩
  rw [h.fileRef, Kernel.fds_eq_zero hnone]
  rfl

/-- How many descriptors of processes that are not `UNUSED` name a file. -/
def Kernel.openFds (k : Kernel) (f : Nat) : Nat :=
  (allFds.filter fun i => (k.proc i.1).state ≠ .unused ∧ (k.proc i.1).ofile i.2 = some f).card

omit [Link] in
theorem FilesOk.openFds (h : FilesOk k pend) (f : Nat) :
    (k.fileRef f : Int) = k.openFds f + pend f := by
  have hcount : k.fds f = k.openFds f := by
    unfold Kernel.fds Kernel.openFds Count.refs
    refine congrArg Finset.card (Finset.filter_congr ?_)
    rintro ⟨p, i⟩ hk
    have hi := (mem_allFds.mp hk).2
    show (((k.proc p).ofile i) == some f) = true ↔ _
    rw [beq_iff_eq]
    constructor
    · intro hf
      refine ⟨fun hun => ?_, hf⟩
      have := h.idle p (by rw [hun]; rfl) i hi
      rw [hf] at this
      cases this
    · exact And.right
  rw [h.refs f, hcount]

/-- In every run without a file-backed `wmap` of an open file, the count of each file
is the number of descriptors that name it. -/
theorem file_refs_exact {s0 : Os} {es : List OsEvent} (hboot : Boot ncpu s0.kernel)
    (h : Trace.Run (Trace.given (fun s e => ¬ e.TakesFile s) (OsStep ncpu)) s0 es s) (f : Nat) :
    s.kernel.fileRef f = s.kernel.openFds f := by
  obtain ⟨A, d, f', g, hb⟩ := hboot.booted
  have hs := (OsPreserved.run (I := fun k => FilesOk k settled)
    (fun s e hno hi => FilesOk.osPreserved hi hno) hb.cpuOk hb.filesOk h).2
  have := hs.openFds f
  unfold settled at this
  omega

/-! ## Runs of the first process -/

omit [Link] in
/-- An event that hands the writes `ws` to `filewrite`. -/
theorem wp_flushing_append (ws : List FileWrite)
    (h : wp x (fun _ s' => s'.kernel.filewrites = s.kernel.filewrites ++ ws ∧
      wp (ws.forM flush) (fun _ fs => Q { s' with files := fs }) F s'.files) F s) :
    wp (flushing x) (fun _ s' => Q s') F s := by
  unfold flushing
  rw [wp_bind, wp_get, wp_bind]
  refine wp_post h ?_
  rintro _ s1 ⟨hw, h1⟩
  rw [wp_bind, wp_get, wp_onFiles, hw, List.drop_left]
  exact h1

omit [Link] in
/-- An event that hands nothing to `filewrite`. -/
theorem wp_flushing_none
    (h : wp x (fun _ s' => s'.kernel.filewrites = s.kernel.filewrites ∧ Q s') F s) :
    wp (flushing x) (fun _ s' => Q s') F s := by
  refine wp_flushing_append [] (wp_post h ?_)
  rintro _ s1 ⟨hw, h1⟩
  refine ⟨by rw [hw, List.append_nil], ?_⟩
  rw [List.forM_eq_forM, List.forM_nil, wp_pure]
  exact h1

/-- The files after an event of the kernel that wrote nothing back. -/
theorem OsStep.files (h : OsStep ncpu s (.kernel e) s')
    (hw : s'.kernel.filewrites = s.kernel.filewrites) : s'.files = s.files := by
  refine wp_ok (Q := fun _ s' => s'.kernel.filewrites = s.kernel.filewrites → s'.files = s.files)
    (F := fun _ => True) ?_ h.2 hw
  unfold OsEvent.run flushing
  rw [wp_bind, wp_get, wp_bind, wp_onKernel]
  refine wp_of_ok fun _ k _ => ?_
  rw [wp_bind, wp_get]
  by_cases hk : k.filewrites = s.kernel.filewrites
  · rw [wp_onFiles, hk, List.drop_length, List.forM_eq_forM, List.forM_nil, wp_pure]
    exact fun _ => rfl
  · exact wp_onFiles_of fun _ _ hn => absurd hn hk

theorem osStep_of_step (h : Step ncpu s.kernel e k) (hfed : e.Fed s)
    (hw : k.filewrites = s.kernel.filewrites) :
    OsStep ncpu s (.kernel e) { s with kernel := k } := by
  have hrun : wp (flushing (onKernel e.run)) (fun _ s' => s' = { s with kernel := k })
      (fun _ => False) s := by
    refine wp_flushing_none ?_
    rw [wp_onKernel]
    exact wp_of_run h.2 ⟨hw, rfl⟩
  obtain ⟨_, s', hs', rfl⟩ := wp_total hrun
  exact ⟨⟨h.1, hfed⟩, hs'⟩

/-- A system call on files by a process that is not killed. -/
theorem osStep_of_file (hc : c < ncpu) (hat : At c p d s.kernel)
    (hk : (s.kernel.proc p).killed = false)
    (h : wp (call.body c) (fun _ s' => s'.kernel.filewrites = s.kernel.filewrites ∧ Q s')
      (fun _ => False) s) : ∃ s', OsStep ncpu s (.file c call) s' ∧ Q s' := by
  have hrun : wp (flushing (fileSyscall c call)) (fun _ s' => Q s') (fun _ => False) s := by
    refine wp_flushing_none ?_
    unfold fileSyscall
    rw [wp_bind, wp_curproc hat.cur, hk, if_neg Bool.false_ne_true, wp_bind]
    obtain ⟨_, s1, hbody, h1⟩ := wp_total h
    have hb : bare s1.kernel = bare s.kernel :=
      wp_ok (Q := fun _ s' => bare s'.kernel = bare s.kernel) (filing_body c call s) hbody
    refine wp_of_run hbody ?_
    rw [wp_onKernel]
    exact wp_exitIfKilled (hat.bare hb).cur (by rw [bare_proc hb]; exact hk) h1
  obtain ⟨_, s', hs', h'⟩ := wp_total hrun
  exact ⟨s', ⟨⟨hc, by rw [hat.cur]; rfl⟩, hs'⟩, h'⟩

/-- The kernel after process `p` has opened a first file as its first descriptor. -/
def Kernel.openFirst (k : Kernel) (p : Nat) : Kernel :=
  { k.setProc p fun pr => { pr with ofile := Function.update pr.ofile 0 (some 0) } with
    fileRef := Function.update k.fileRef 0 1 }

/-- A `struct file` that `sys_open` has filled in. -/
def File.opened (g : File) (ip : Nat) (omode : Word) : File :=
  { g with type := .inode, ip := ip, off := 0, readable := !flag omode oWronly
           writable := flag omode oWronly || flag omode oRdwr }

omit [Link] in
theorem wp_sysOpen_first {ip : Nat} {omode : Word} {Q : Int → Os → Prop}
    (hcur : (s.kernel.cpu c).proc = some p) (hty : (s.files.inode ip).type ≠ .dir)
    (href : s.kernel.fileRef 0 = 0) (hfd : (s.kernel.proc p).ofile 0 = none)
    (h : ∀ fs : Files, fs.file 0 = (s.files.file 0).opened ip omode → fs.inode = s.files.inode →
      Q 0 ⟨s.kernel.openFirst p, fs⟩) : wp (sysOpen c (some ip) omode) Q F s := by
  have hfile : (List.range nfile).find? (fun f => s.kernel.fileRef f = 0) = some 0 := by
    rw [show List.range nfile = 0 :: (List.range nfile).tail by decide, List.find?_cons, href]
    rfl
  unfold sysOpen
  rw [wp_bind, wp_onKernel, wp_myproc, hcur]
  dsimp only
  rw [wp_bind, wp_get]
  dsimp only
  rw [if_neg (by simp [hty]), wp_bind, wp_onKernel]
  unfold filealloc
  rw [wp_bind, wp_get, hfile]
  dsimp only
  rw [wp_bind, wp_set, wp_pure]
  dsimp only
  have hfree : freeFd (s.kernel.proc p) = some 0 := by
    unfold freeFd
    rw [show List.range nofile = 0 :: (List.range nofile).tail by decide, List.find?_cons, hfd]
    rfl
  unfold fdalloc setOfile setFile
  rw [wp_bind, wp_onKernel, wp_bind, wp_getProc]
  dsimp only
  rw [hfree]
  dsimp only
  rw [wp_bind, wp_setProc, wp_pure]
  dsimp only
  rw [wp_bind, wp_onFiles, wp_modify, wp_pure]
  refine h _ ?_ rfl
  dsimp only
  rw [update_self]
  rfl

/-- The first file is opened as the first descriptor of a process. -/
theorem osStep_open (ip : Nat) (omode : Word) (hc : c < ncpu) (hat : At c p d s.kernel)
    (hk : (s.kernel.proc p).killed = false) (href : s.kernel.fileRef 0 = 0)
    (hfd : (s.kernel.proc p).ofile 0 = none) (hty : (s.files.inode ip).type ≠ .dir) :
    ∃ fs, OsStep ncpu s (.file c (.openAt (some ip) omode)) ⟨s.kernel.openFirst p, fs⟩ ∧
      fs.file 0 = (s.files.file 0).opened ip omode ∧ fs.inode = s.files.inode := by
  have hopen : ∃ s', OsStep ncpu s (.file c (.openAt (some ip) omode)) s' ∧
      ∃ fs, s' = ⟨s.kernel.openFirst p, fs⟩ ∧ fs.file 0 = (s.files.file 0).opened ip omode ∧
        fs.inode = s.files.inode := by
    refine osStep_of_file hc hat hk ?_
    unfold FileCall.body
    rw [wp_bind]
    refine wp_sysOpen_first hat.cur hty href hfd fun fs h1 h2 => ?_
    rw [wp_pure]
    exact ⟨rfl, fs, rfl, h1, h2⟩
  obtain ⟨_, hstep, fs, rfl, hpost⟩ := hopen
  exact ⟨fs, hstep, hpost⟩

/-- A file-backed `wmap` of an open file. -/
theorem osStep_mapFile {addr length flags fd : Word} {i j : Nat} (hc : c < ncpu)
    (hcur : (s.kernel.cpu c).proc = some p) (hk : (s.kernel.proc p).killed = false)
    (hslot : wmapSlot (s.kernel.proc p).mmap addr length flags = some i)
    (hanon : flag flags mapAnonymous = false) (hf : openFile (s.kernel.proc p) fd.toInt = some f)
    (hj : freeFd (s.kernel.proc p) = some j) (hpos : 0 < s.kernel.fileRef f) :
    OsStep ncpu s (.kernel (.syscall c (.wmap addr length flags fd)))
      ⟨{ (s.kernel.setProc p fun pr => pr.mapFile i j f addr length flags) with
        fileRef := Function.update s.kernel.fileRef f (s.kernel.fileRef f + 2) }, s.files⟩ := by
  have hstep : ∃ k, Step ncpu s.kernel (.syscall c (.wmap addr length flags fd)) k ∧
      k = { (s.kernel.setProc p fun pr => pr.mapFile i j f addr length flags) with
        fileRef := Function.update s.kernel.fileRef f (s.kernel.fileRef f + 2) } := by
    refine step_of_total ⟨hc, by rw [hcur]; rfl⟩ (wp_syscall hcur hk ?_)
    unfold Call.body
    rw [wp_bind]
    refine wp_wmap_file hcur hslot hanon hf hj (.inr hpos) ?_
    rw [wp_pure]
    refine wp_exitIfKilled hcur ?_ rfl
    dsimp only
    rw [Kernel.setProc_self]
    exact hk
  obtain ⟨_, hstep, rfl⟩ := hstep
  exact osStep_of_step hstep trivial rfl

/-- The first process opens a regular file. -/
theorem Booted.opened (hb : Booted k A d f g) (hn : 0 < ncpu) (fs : Files) (ip : Nat)
    (hty : (fs.inode ip).type ≠ .dir) :
    ∃ fs', OsStep ncpu ⟨k, fs⟩ (.kernel (.sched 0 0)) ⟨k.dispatch 0 0, fs⟩ ∧
      OsStep ncpu ⟨k.dispatch 0 0, fs⟩ (.file 0 (.openAt (some ip) oRdwr))
        ⟨(k.dispatch 0 0).openFirst 0, fs'⟩ ∧
      fs'.file 0 = (fs.file 0).opened ip oRdwr ∧ fs'.inode = fs.inode := by
  have hpr := hb.dispatched
  obtain ⟨fs', hopen⟩ := osStep_open (s := ⟨k.dispatch 0 0, fs⟩) ip oRdwr hn (at_dispatch k 0 0)
    (by rw [hpr]; rfl) (by rw [show (k.dispatch 0 0).fileRef = k.fileRef from rfl, hb.fileRef])
    (by rw [hpr]; rfl) hty
  exact ⟨fs', osStep_of_step (hb.sched hn) trivial rfl, hopen⟩

theorem Booted.openFirst (hb : Booted k A d f g) :
    ((k.dispatch 0 0).openFirst 0).proc 0 = { Proc.zero with
      sz := pgsize, pgdir := d, kstack := f, state := .running, pid := 1
      ofile := Function.update (fun _ => none) 0 (some 0) } := by
  unfold Kernel.openFirst
  dsimp only
  rw [Kernel.setProc_self, hb.dispatched]
  rfl

/-- The kernel after process 0 mapped its first file with descriptor 1. -/
def Kernel.mapFirst (k : Kernel) (length : Word) : Kernel :=
  { k.setProc 0 fun pr => pr.mapFile 0 1 0 0x60000000#32 length (mapShared ||| mapFixed) with
    fileRef := Function.update k.fileRef 0 (k.fileRef 0 + 2) }

/-- The first process maps the file it opened. -/
theorem Booted.mappedFile (hb : Booted k A d f g) (hn : 0 < ncpu) (fs : Files) (length : Word)
    (hslot : wmapSlot (fun _ => .zero) 0x60000000#32 length (mapShared ||| mapFixed) = some 0) :
    OsStep ncpu ⟨(k.dispatch 0 0).openFirst 0, fs⟩
      (.kernel (.syscall 0 (.wmap 0x60000000#32 length (mapShared ||| mapFixed) 0#32)))
      ⟨((k.dispatch 0 0).openFirst 0).mapFirst length, fs⟩ := by
  have hpr := hb.openFirst
  refine osStep_mapFile (s := ⟨(k.dispatch 0 0).openFirst 0, fs⟩) (j := 1) (f := 0) hn
    (at_dispatch k 0 0).cur ?_ ?_ (by decide) ?_ ?_ (by simp [Kernel.openFirst])
  · rw [hpr]
    rfl
  · rw [hpr]
    exact hslot
  · rw [hpr]
    rfl
  · rw [hpr]
    rfl

end

/-- A disk with one regular file of a page. -/
def sampleFiles : Files :=
  { file := fun _ => ⟨.none, false, false, 0, 0, 0⟩
    inode := fun _ => ⟨1, 1, .file, 0, 1, pgsize, fun _ => 0#8⟩
    pipe := fun _ => []
    input := [] }

/-- Opening a file and mapping it leaves three references for two descriptors. -/
theorem wmap_leaks_file_ref :
    ∃ s0 s es, @Boot sampleLink 2 s0.kernel ∧ Trace.Run (@OsStep sampleLink 2) s0 es s ∧
      s.kernel.fileRef 0 ≠ s.kernel.openFds 0 := by
  let : Link := sampleLink
  obtain ⟨k, A, d, f, g, hboot, hb⟩ := sample_boot
  obtain ⟨fs, hsched, hopen, -⟩ := hb.opened (show 0 < 2 by decide) sampleFiles 0 nofun
  have hmap := hb.mappedFile (show 0 < 2 by decide) fs 0x1000#32 (by decide)
  refine ⟨⟨k, sampleFiles⟩, _, _, hboot, .snoc (.snoc (.single hsched) hopen) hmap, ?_⟩
  have hrun : Trace.Run (Trace.given (fun s e => ¬ OsEvent.TakesFile s e) (OsStep 2))
      ⟨k, sampleFiles⟩ _ _ := .snoc (.single ⟨id, hsched⟩) ⟨id, hopen⟩
  have hok : FilesOk ((k.dispatch 0 0).openFirst 0) settled :=
    (OsPreserved.run (I := fun k => FilesOk k settled)
      (fun s e hno hi => FilesOk.osPreserved hi hno) hb.cpuOk hb.filesOk hrun).2
  have hleak : FilesOk (((k.dispatch 0 0).openFirst 0).mapFirst 0x1000#32) (pending settled 0 1) := by
    refine hok.mapFile (by decide) ?_ ?_
    · rw [hb.openFirst]
      rfl
    · rw [hb.openFirst]
      rfl
  intro heq
  have hrefs := hleak.openFds 0
  simp only [pending, settled, update_self] at hrefs
  dsimp only at heq
  omega

/-- Opening a file keeps the counts exact. -/
theorem file_refs_exact_opened :
    ∃ s0 s es, @Boot sampleLink 2 s0.kernel ∧ Trace.Run (@OsStep sampleLink 2) s0 es s ∧
      s.kernel.fileRef 0 = 1 ∧ s.kernel.openFds 0 = 1 := by
  let : Link := sampleLink
  obtain ⟨k, A, d, f, g, hboot, hb⟩ := sample_boot
  obtain ⟨fs, hsched, hopen, -⟩ := hb.opened (show 0 < 2 by decide) sampleFiles 0 nofun
  have hrun : Trace.Run (Trace.given (fun s e => ¬ OsEvent.TakesFile s e) (OsStep 2))
      ⟨k, sampleFiles⟩ _ _ := .snoc (.single ⟨id, hsched⟩) ⟨id, hopen⟩
  have href : ((k.dispatch 0 0).openFirst 0).fileRef 0 = 1 := by
    simp [Kernel.openFirst]
  refine ⟨⟨k, sampleFiles⟩, _, _, hboot, .snoc (.single hsched) hopen, href, ?_⟩
  rw [← href]
  have hboot' : Boot 2 (Os.mk k sampleFiles).kernel := hboot
  exact (file_refs_exact hboot' hrun 0).symm

end Xv6
