import Xv6.Kernel.Failures
import Xv6.Kernel.Offset

/-!
# A lazy fault that kills the process

The handler gives up in three places.  Without a frame for the page, or without one for
its page table, it leaves the page table and the free list as they were.  When the file
cannot be read, it frees the frame but leaves it mapped: the frame is on the free list,
and `freevm` frees it again when the process is reaped.
-/

namespace Xv6

open Prog Function

variable {c p i va d v : Nat} {F : Fault → Prop}

/-! ## Memory is short -/

/-- There is no frame for the page, or only one where it needs a page table as well. -/
def Mem.Short (m : Mem) (d v : Nat) : Prop :=
  m.freelist = [] ∨ m.freelist.length = 1 ∧ flag (word (m.page d) (v / npdentries)) pteP = false

variable [Link] {A A' : Space} {x : Bool} {s s' : Kernel}

theorem Rep.short {m : Mem} (h : Rep m A) (hd : A.role d = .dir) (hv : v < npdentries * npdentries) :
    m.Short d v ↔ A.Short d v := by
  have hflag : flag (word (m.page d) (v / npdentries)) pteP = false ↔
      A.tab d (v / npdentries) = none := by
    rw [h.pde d _ hd (div_lt_npdentries hv)]
    cases A.tab d (v / npdentries) <;> simp
  unfold Mem.Short Space.Short
  rw [h.free, hflag]

/-! ## Killing and reaping -/

/-- The directory and the kernel stack of a process are in good order. -/
structure Resident (p : Nat) (s : Kernel) : Prop where
  mem : ∃ A x, Rep s.mem A ∧ Sane A x ∧ A.role (s.proc p).pgdir = .dir ∧
    A.role (s.proc p).kstack = .held

theorem Rep.killSelf (h : Rep s.mem A) (hcow : A.CowHigh (s.proc p).pgdir)
    (hcur : (s.cpu c).proc = some p) (hd : A.role (s.proc p).pgdir = .dir)
    (hb : Bounded (s.proc p).mmap) (hinit : F (.panic "init exiting") ∨ p ≠ s.initproc)
    (hfiles : F (.panic "fileclose") ∨ s.Referenced p (List.range nofile)) :
    wp (Xv6.killSelf c p) (fun _ s' => s'.mem = s.mem ∧ (s'.proc p).maps = (s.proc p).maps ∧
      (s'.proc p).state = .zombie) F s := by
  have hself := s.setProc_self p fun pr => { pr with killed := true }
  unfold Xv6.killSelf
  rw [wp_bind, wp_setProc]
  refine wp_post (Rep.exit (A := A) (p := p) h ?_ hcur ?_ ?_ hinit ?_) ?_
  · rw [hself]
    exact hcow
  · rw [hself]
    exact hd
  · rw [hself]
    exact hb
  · refine hfiles.imp_right fun hrefs f => ?_
    rw [hself]
    exact hrefs f
  · rintro _ s' ⟨hmem, -, hmaps, hzombie⟩
    rw [hself] at hmaps
    exact ⟨hmem, hmaps, hzombie⟩

/-- Reaping a process in good order puts its frames on the free list once. -/
theorem Rep.reap (h : Rep s.mem A) (hs : Sane A x) (hd : A.role (s.proc p).pgdir = .dir)
    (hk : A.role (s.proc p).kstack = .held) :
    wp (Xv6.reap p) (fun _ s' => s'.mem.freelist.Nodup) (fun _ => True) s := by
  have hne : (s.proc p).pgdir ≠ (s.proc p).kstack := by
    intro heq
    rw [heq, hk] at hd
    cases hd
  unfold Xv6.reap
  rw [wp_bind, wp_getProc, wp_bind, wp_onMem]
  refine wp_post (h.kfreeHeld hk _) ?_
  rintro _ m1 ⟨h1, -, -⟩
  have hs1 : Sane (A.push (s.proc p).kstack) x :=
    (hs.pushAll h.wf (List.nodup_singleton _) (List.forall_mem_singleton.mpr hk)).2
  have hd1 : (A.push (s.proc p).kstack).role (s.proc p).pgdir = .dir :=
    (update_of_ne hne ..).trans hd
  rw [wp_bind, wp_setProc, wp_bind, wp_onMem]
  refine wp_post (h1.freevm hd1 (hs1.mapped.clean hd1 fun v hv => mem_allPages.mp hv) (.inl trivial)) ?_
  rintro _ m2 ⟨h2, -, -⟩
  rw [wp_bind, wp_setProc, wp_pure]
  show m2.freelist.Nodup
  rw [h2.free]
  exact h2.wf.nodup

/-! ## What a killing fault leaves -/

/-- The page is not present, the frame taken for it is on the free list once, and reaping
the process puts no frame there twice. -/
structure LeavesClean (p va : Nat) (s s' : Kernel) : Prop where
  absent : s'.mem.present (s.proc p).pgdir (va / pgsize) = false
  once : ∀ f fs, s.mem.freelist = f :: fs → s'.mem.freelist.count f = 1
  reaped : ∀ pid s'', reap p s' = .ok (pid, s'') → s''.mem.freelist.Nodup

omit [Link] in
theorem exists_reads (p i va : Nat) (s : Os) : ∃ io fs, Reads (fun _ => True) p i va s io fs := by
  cases hopen : openFile (s.kernel.proc p) ((s.kernel.proc p).mmap i).fd with
  | none =>
    refine ⟨none, s.files, fun f hf => ?_⟩
    rw [hopen] at hf
    cases hf
  | some f =>
    obtain ⟨io, fs, hread, -⟩ :=
      exists_readAt s.files f (pgrounddown va - ((s.kernel.proc p).mmap i).addr)
    refine ⟨io, fs, fun g hg => ?_⟩
    rw [hopen] at hg
    obtain rfl := Option.some.inj hg
    exact hread

/-- The process is killed for want of memory. -/
theorem Restored.leavesClean (h : Restored A A') (hrep : Rep s.mem A) (hrep' : Rep s'.mem A')
    (hs : Sane A x) (hd : A.role (s.proc p).pgdir = .dir) (hk : A.role (s.proc p).kstack = .held)
    (hmaps : (s'.proc p).maps = (s.proc p).maps) (hv : va / pgsize < npdentries * npdentries) :
    LeavesClean p va s s' ↔ s.mem.present (s.proc p).pgdir (va / pgsize) = false := by
  have hpg : (s'.proc p).pgdir = (s.proc p).pgdir := congrArg (·.1) hmaps
  have hst : (s'.proc p).kstack = (s.proc p).kstack := congrArg (·.2.2.2) hmaps
  have hd' : A'.role (s.proc p).pgdir = .dir := by rw [h.role]; exact hd
  have hpres : s'.mem.present (s.proc p).pgdir (va / pgsize) =
      s.mem.present (s.proc p).pgdir (va / pgsize) := by
    rw [hrep'.present hd' hv, hrep.present hd hv, h.pte _ _ hd]
  refine ⟨fun hc => hpres.symm.trans hc.absent, fun habs => ⟨hpres.trans habs, ?_, ?_⟩⟩
  · intro f fs hf
    have hmem : f ∈ A'.free := by
      rw [hrep'.wf.free_iff, h.role, ← hrep.wf.free_iff, ← hrep.free, hf]
      exact List.mem_cons_self
    rw [hrep'.free]
    exact List.count_eq_one_of_mem hrep'.wf.nodup hmem
  · intro pid s'' hreap
    have hpost := hrep'.reap (p := p) (h.sane hrep.wf hrep'.wf hs) (by rw [hpg]; exact hd')
      (by rw [hst, h.role]; exact hk)
    exact wp_ok (Q := fun _ t => t.mem.freelist.Nodup) hpost hreap

/-- A frame that is pushed while a page still maps it. -/
theorem Fill.push_dir {f : Nat} (h : Fill A d v (pteW ||| pteU) f A') (hwf : A.WF)
    (hd : A.role d = .dir) (hv : v < userPages) : (A'.push f).role d = .dir := by
  have hd' := (h.extends hwf hv perm_wu).role_dir hd
  have hne : d ≠ f := by
    rintro rfl
    rw [h.role_self] at hd'
    cases hd'
  exact (update_of_ne hne ..).trans hd'

theorem Fill.push_cowHigh {f : Nat} (h : Fill A d v (pteW ||| pteU) f A') (hwf : A.WF)
    (hd : A.role d = .dir) (hv : v < userPages) (hm : Mapped A) : (A'.push f).CowHigh d := by
  intro u hu hp hc
  have hpte : (A'.push f).pte d u = A'.pte d u := rfl
  rw [hpte] at hp hc ⊢
  by_cases huv : u = v
  · rw [huv, h.pte_self, flag_mkPte (by decide) (by decide)] at hc
    exact absurd hc (by decide)
  · rw [(h.extends hwf hv perm_wu).pte d u fun hn => huv hn.2] at hp hc ⊢
    exact hm.cowHigh hd u hu hp hc

theorem Fill.push_present {f : Nat} {m : Mem} (h : Fill A d v (pteW ||| pteU) f A') (hwf : A.WF)
    (hd : A.role d = .dir) (hv : v < userPages) (hrep : Rep m (A'.push f)) :
    m.present d v = true := by
  rw [hrep.present (h.push_dir hwf hd hv) (userPages_lt hv)]
  exact (congrArg (flag · pteP) h.pte_self).trans (flag_mkPte_pteP ..)

/-- A lazy fault that kills the process leaves nothing behind exactly if it ran out of
memory and the page was not there before. -/
theorem lazy_fault_clean {s s' : Os} (hcur : (s.kernel.cpu c).proc = some p)
    (hres : Resident p s.kernel) (hb : Bounded (s.kernel.proc p).mmap)
    (hlive : (s.kernel.proc p).state ≠ .zombie)
    (hf : findRegion (s.kernel.proc p).mmap va = some i)
    (hlazy : s.kernel.mem.present (s.kernel.proc p).pgdir (va / pgsize) = true →
      flag (s.kernel.mem.entry (s.kernel.proc p).pgdir (va / pgsize)) pteCow = false)
    (hrun : trapLoad c va s = .ok ((), s')) (hdead : (s'.kernel.proc p).state = .zombie) :
    LeavesClean p va s.kernel s'.kernel ↔
      s.kernel.mem.present (s.kernel.proc p).pgdir (va / pgsize) = false ∧
        s.kernel.mem.Short (s.kernel.proc p).pgdir (va / pgsize) := by
  obtain ⟨A, x, hrep, hs, hd, hk⟩ := hres.mem
  obtain ⟨hi, hused, hlo, hhi⟩ := findRegion_spec hf
  have hstop := (hb i hi).2 hused
  have hva : va < uintSize := by
    rw [mmapTop_eq] at hstop
    rw [uintSize_eq]
    omega
  have hlt : va / pgsize < userPages := by
    rw [mmapTop_eq] at hstop
    rw [pgsize_eq, userPages_eq]
    omega
  have hv := page_lt hva
  rw [hrep.present hd hv, hrep.entry hd hv] at hlazy
  obtain ⟨io, fs, hreads⟩ := exists_reads p i va s
  have hpost : wp (trapLoad c va) (fun _ s' => (s'.kernel.proc p).state = .zombie →
      (LeavesClean p va s.kernel s'.kernel ↔
        s.kernel.mem.present (s.kernel.proc p).pgdir (va / pgsize) = false ∧
          s.kernel.mem.Short (s.kernel.proc p).pgdir (va / pgsize))) (fun _ => True) s := by
    refine wp_trapLoad io fs ?_ ?_
    · intro p' i' hp' hi'
      obtain rfl : p = p' := Option.some.inj (hcur.symm.trans hp')
      obtain rfl : i = i' := Option.some.inj (hf.symm.trans hi')
      exact hreads
    dsimp only
    refine wp_post ?_ fun _ k hq => ⟨hq, hq⟩
    refine hrep.trapPgflt_lazy hcur hd hva hlazy ?_
    unfold pagefaultDefault
    rw [wp_bind, wp_getProc, hf]
    refine hrep.lazyAlloc hd hva (.inl trivial) (.inr (.inl ⟨trivial, trivial⟩)) ?_ ?_ ?_
    · intro m' A' hrep' hrestored hshort hkeep
      have hs' := hrestored.sane hrep.wf hrep'.wf hs
      have hd' : A'.role (s.kernel.proc p).pgdir = .dir := by rw [hrestored.role]; exact hd
      refine wp_post (Rep.killSelf (A := A') hrep' (hs'.mapped.cowHigh hd') hcur hd' hb (.inl trivial)
        (.inl trivial)) ?_
      rintro _ k ⟨hmem, hmaps, -⟩ -
      rw [hrestored.leavesClean hrep (by rw [hmem]; exact hrep') hs hd hk hmaps hv,
        hrep.short hd hv]
      exact ⟨fun habs => ⟨habs, hshort⟩, And.left⟩
    · intro f m' A' _ _ hfill hrep' _
      refine wp_post (Rep.killSelf (A := A'.push f) hrep' (hfill.push_cowHigh hrep.wf hd hlt hs.mapped)
        hcur (hfill.push_dir hrep.wf hd hlt) hb (.inl trivial) (.inl trivial)) ?_
      rintro _ k ⟨hmem, -, -⟩ -
      have hpres := hfill.push_present hrep.wf hd hlt hrep'
      constructor
      · intro hc
        have habs := hc.absent
        rw [hmem, hpres] at habs
        cases habs
      · rintro ⟨-, hshort⟩
        exact absurd ((hrep.short hd hv).mp hshort) hfill.not_short
    · intro f m' A' _ _ _ _ _ hz
      rw [s.kernel.loadedPage_proc] at hz
      exact absurd hz hlive
  exact wp_ok hpost hrun hdead

/-! ## The child of the first process -/

/-- The kernel with the child of the first process has no open file. -/
theorem Child.fileRef {b : Kernel} {d f g ncpu : Nat} {pr : Proc} {es : List Event}
    (h : Child s A' pr) (hofile : pr.ofile = fun _ => none) (hb : Booted b A d f g)
    (hrun : Trace.Run (Step ncpu) b es s) (hes : ∀ e ∈ es, ∀ s, ¬ e.TakesFile s) (n : Nat) :
    s.fileRef n = 0 := by
  have hgiven : Trace.Run (Trace.given (fun s e => ¬ e.TakesFile s) (Step ncpu)) b es s :=
    hrun.restrict hes
  have hok : CpuOk s ∧ FilesOk s settled := hgiven.invariant
    (I := fun s => CpuOk s ∧ FilesOk s settled) ⟨hb.cpuOk, hb.filesOk⟩ (by
      rintro s e s' ⟨hcpu, hfiles⟩ ⟨hno, hstep⟩
      exact ⟨hcpu.step hstep, wp_ok (Q := fun _ s => FilesOk s settled)
        ((hfiles.preserved hno).event hcpu hstep.1 hfiles) hstep.2⟩)
  have hnone : ∀ p i, (s.proc p).ofile i = none := by
    intro p i
    by_cases hp0 : p = 0
    · obtain ⟨e, k, hfirst⟩ := h.first
      rw [hp0, hfirst]
      rfl
    by_cases hp1 : p = 1
    · rw [hp1, h.proc, hofile]
    · rw [h.others p hp0 hp1]
      rfl
  have hrefs := hok.2.refs n
  rw [Kernel.fds_eq_zero hnone] at hrefs
  exact Int.ofNat_inj.mp hrefs

/-- The slot of the child after it opened its first file and mapped a page of it. -/
def mappedChild (d f : Nat) : Proc :=
  { newChild d f with ofile := Function.update (fun _ => none) 0 (some 0) }.mapFile 0 1 0
    0x60000000#32 0x1000#32 (mapShared ||| mapFixed)

theorem Child.setFileRef {pr : Proc} (h : Child s A pr) (r : Nat → Nat) :
    Child { s with fileRef := r } A pr :=
  ⟨h.rep, h.sane, h.dir, h.stack, h.rest, h.free, h.proc, h.state, h.cpu, h.initproc, h.first,
    h.others⟩

/-- The child opens its first file and maps a page of it. -/
theorem Child.mapsFile {f ncpu : Nat} (fs : Files) (omode : Word) (h : Child s A (newChild d f))
    (hn : 1 < ncpu) (href : s.fileRef 0 = 0) (hty : (fs.inode 0).type ≠ .dir) :
    ∃ s', Trace.Run (OsStep ncpu) ⟨s, fs⟩ [.file 1 (.openAt (some 0) omode), .kernel (.syscall 1
        (.wmap 0x60000000#32 0x1000#32 (mapShared ||| mapFixed) 0#32))] s' ∧
      Child s'.kernel A (mappedChild d f) ∧ s'.kernel.fileRef 0 = 3 ∧
      s'.files.file 0 = (fs.file 0).opened 0 omode ∧ s'.files.inode = fs.inode := by
  obtain ⟨fs', hopen, hfile, hinode⟩ := osStep_open (s := ⟨s, fs⟩) 0 omode hn h.here
    (by rw [h.proc]; rfl) href (by rw [h.proc]; rfl) hty
  have hch1 : Child (s.openFirst 1) A
      { newChild d f with ofile := Function.update (fun _ => none) 0 (some 0) } :=
    (h.setProc (f := fun pr => { pr with ofile := Function.update pr.ofile 0 (some 0) })
      rfl rfl rfl).setFileRef _
  have hpr := hch1.proc
  have href1 : (s.openFirst 1).fileRef 0 = 1 := by
    show Function.update s.fileRef 0 1 0 = 1
    rw [update_self]
  have hslot : wmapSlot ((s.openFirst 1).proc 1).mmap 0x60000000#32 0x1000#32
      (mapShared ||| mapFixed) = some 0 := by
    rw [hpr]
    exact (by decide : wmapSlot (fun _ => .zero) 0x60000000#32 0x1000#32 (mapShared ||| mapFixed) =
      some 0)
  have hmap : OsStep ncpu ⟨s.openFirst 1, fs'⟩ (.kernel (.syscall 1
      (.wmap 0x60000000#32 0x1000#32 (mapShared ||| mapFixed) 0#32))) _ :=
    osStep_mapFile (s := ⟨s.openFirst 1, fs'⟩) (j := 1) (f := 0) hn h.here.cur (by rw [hpr]; rfl)
      hslot (by decide) (by rw [hpr]; rfl) (by rw [hpr]; rfl) (by rw [href1]; decide)
  refine ⟨_, .snoc (.single hopen) hmap, ?_, ?_, hfile, hinode⟩
  · exact (hch1.setProc (f := fun pr => pr.mapFile 0 1 0 0x60000000#32 0x1000#32
      (mapShared ||| mapFixed)) rfl rfl rfl).setFileRef _
  · show Function.update (s.openFirst 1).fileRef 0 ((s.openFirst 1).fileRef 0 + 2) 0 = 3
    rw [update_self, href1]

omit [Link] in
/-- A table with a mapping of one page over a file. -/
def onePage : Nat → MmapRegion :=
  Function.update (fun _ => .zero) 0 ⟨0x60000000, 0x1000, mapShared ||| mapFixed, true, 1, 0⟩

omit [Link] in
theorem bounded_onePage : Bounded onePage := by
  unfold Bounded
  decide

/-- It has two descriptors of the file. -/
theorem Child.referenced {f : Nat} (h : Child s A (mappedChild d f)) (href : s.fileRef 0 = 3) :
    s.Referenced 1 (List.range nofile) := by
  intro n
  rw [h.proc]
  show (List.range nofile).countP (fun j =>
    Function.update (Function.update (fun _ => none) 0 (some 0)) 1 (some 0) j = some n) ≤ _
  cases n with
  | zero =>
    rw [href]
    decide
  | succ n =>
    refine (List.countP_eq_zero.mpr fun j _ hj => ?_).le.trans (Nat.zero_le _)
    rw [decide_eq_true_eq] at hj
    by_cases h1 : j = 1
    · rw [h1, update_self] at hj
      cases hj
    by_cases h0 : j = 0
    · rw [h0] at hj
      cases hj
    · rw [update_of_ne h1, update_of_ne h0] at hj
      cases hj

/-- A page of a file that is open for writing only is left with a free frame. -/
theorem Child.load_fails {f : Nat} {s : Os} (h : Child s.kernel A (mappedChild d f))
    (href : s.kernel.fileRef 0 = 3) (htype : (s.files.file 0).type = .inode)
    (hread : (s.files.file 0).readable = false)
    (hdev : (s.files.inode (s.files.file 0).ip).type ≠ .dev) :
    wp (trapLoad 1 0x60000000) (fun _ s' => (s'.kernel.proc 1).state = .zombie ∧
      s'.kernel.mem.present d 0x60000 = true ∧
      frame (s'.kernel.mem.entry d 0x60000) ∈ s'.kernel.mem.freelist) (fun _ => False) s := by
  have hmmap : (s.kernel.proc 1).mmap = onePage := by rw [h.proc]; rfl
  have hpg : (s.kernel.proc 1).pgdir = d := by rw [h.proc]; rfl
  have hd : A.role d = .dir := h.dir
  have hf : findRegion (s.kernel.proc 1).mmap 0x60000000 = some 0 := by
    rw [hmmap]
    decide
  have hopen : openFile (s.kernel.proc 1) ((s.kernel.proc 1).mmap 0).fd = some 0 := by
    rw [h.proc]
    rfl
  have hpage : 0x60000000 / pgsize = 0x60000 := by decide
  have habs : flag (A.pte (s.kernel.proc 1).pgdir (0x60000000 / pgsize)) pteP = false := by
    have hzero : A.pte d 0x60000 = 0#32 := h.rest 0x60000 (by decide) (by decide)
    rw [hpg, hpage, hzero]
    exact flag_zero _
  have hdir : A.role (s.kernel.proc 1).pgdir = .dir := by rw [hpg]; exact hd
  refine wp_trapLoad none s.files ?_ ?_
  · intro p i hp hi n hn
    obtain rfl : 1 = p := Option.some.inj (h.here.cur.symm.trans hp)
    obtain rfl : 0 = i := Option.some.inj (hf.symm.trans hi)
    obtain rfl : 0 = n := Option.some.inj (hopen.symm.trans hn)
    refine wp_post (wp_readAt_regular htype hdev) ?_
    rintro o fs ⟨ho, hfs⟩
    rw [hread] at ho
    exact ⟨ho, hfs⟩
  refine wp_post ?_ fun _ k hq => ⟨hq, hq⟩
  refine h.rep.trapPgflt_absent h.here.cur hdir (by decide) habs ?_
  unfold pagefaultDefault
  rw [wp_bind, wp_getProc, hf]
  refine h.rep.lazyAlloc hdir (by decide) (.inr habs) (.inr (.inr (by rw [hopen]; rfl))) ?_ ?_ ?_
  · intro m' A' _ _ hshort _
    have := hshort.length_le
    have := h.free
    omega
  · intro g m' A' _ _ hfill hrep' _
    rw [hpg, hpage] at hfill
    have hlt : 0x60000 < userPages := by decide
    refine wp_post (Rep.killSelf (A := A'.push g) hrep' ?_ h.here.cur ?_ (by rw [hmmap]; exact bounded_onePage)
      (.inr (by rw [h.initproc]; decide)) (.inr (h.referenced href))) ?_
    · rw [hpg]
      exact hfill.push_cowHigh h.rep.wf hd hlt h.sane.mapped
    · rw [hpg]
      exact hfill.push_dir h.rep.wf hd hlt
    · rintro _ k ⟨hmem, -, hz⟩
      refine ⟨hz, by rw [hmem]; exact hfill.push_present h.rep.wf hd hlt hrep', ?_⟩
      have hman : Managed g := h.rep.wf.managed g (by rw [hfill.fresh h.rep.wf]; decide)
      have hpte : (A'.push g).pte d 0x60000 = mkPte (g * pgsize) (pteW ||| pteU) := hfill.pte_self
      rw [hmem, hrep'.entry (hfill.push_dir h.rep.wf hd hlt) (userPages_lt hlt), hpte,
        frame_mkPte hman.lt_frames perm_wu, hrep'.free]
      exact List.mem_cons_self
  · intro g m' A' _ _ _ _ hanon
    rw [hmmap] at hanon
    exact absurd (hanon rfl) (by decide)

omit [Link] in
/-- The child of the first process opens a file for writing only, maps it and touches it:
the read fails, and the page is left in the page table with a free frame. -/
theorem lazy_fault_dangles : ∃ b es k es' s s', @Boot sampleLink 2 b ∧
    Trace.Run (@Step sampleLink 2) b es k ∧
    Trace.Run (@OsStep sampleLink 2) ⟨k, sampleFiles⟩ es' s ∧
    @trapLoad sampleLink 1 0x60000000 s = .ok ((), s') ∧ (s'.kernel.proc 1).state = .zombie ∧
    s'.kernel.mem.present (s.kernel.proc 1).pgdir 0x60000 = true ∧
    frame (s'.kernel.mem.entry (s.kernel.proc 1).pgdir 0x60000) ∈ s'.kernel.mem.freelist ∧
    ¬ @LeavesClean sampleLink 1 0x60000000 s.kernel s'.kernel := by
  let : Link := sampleLink
  obtain ⟨b, A0, d0, f0, g0, hboot, hb⟩ := sample_boot
  obtain ⟨k, A, d, f, hrun, hch0⟩ := hb.child (by decide : 1 < 2)
  have hno : ∀ e ∈ [Event.sched 0 0, .syscall 0 .fork, .sched 1 1], ∀ s, ¬ e.TakesFile s := by
    simp [Event.TakesFile, Call.TakesFile]
  obtain ⟨s, hrun', hch, href, hfile, hinode⟩ := hch0.mapsFile sampleFiles oWronly
    (by decide : 1 < 2) (hch0.fileRef rfl hb hrun hno 0) nofun
  have hpg : (s.kernel.proc 1).pgdir = d := by rw [hch.proc]; rfl
  obtain ⟨_, s', htrap, hz, hpres, hfree⟩ := wp_total (hch.load_fails href (by rw [hfile]; rfl)
    (by rw [hfile]; rfl) (by rw [hinode]; nofun))
  rw [← hpg] at hpres hfree
  refine ⟨b, _, k, _, s, s', hboot, hrun, hrun', htrap, hz, hpres, hfree, fun hc => ?_⟩
  have habs := hc.absent
  rw [show 0x60000000 / pgsize = 0x60000 by decide, hpres] at habs
  cases habs

omit [Link] in
/-- Without a free frame the child is killed at its first touch of an anonymous page, and
leaves nothing behind. -/
theorem lazy_fault_clean_empty : ∃ s s', @Resident sampleLink 1 s.kernel ∧
    s.kernel.mem.freelist = [] ∧ @trapLoad sampleLink 1 0x60000000 s = .ok ((), s') ∧
    (s'.kernel.proc 1).state = .zombie ∧ @LeavesClean sampleLink 1 0x60000000 s.kernel s'.kernel := by
  let : Link := sampleLink
  obtain ⟨b, A0, d0, f0, g0, -, hb⟩ := sample_boot
  obtain ⟨k0, A1, d, f, -, hch0⟩ := hb.child (by decide : 1 < 2)
  obtain ⟨k, -, hch⟩ := hch0.mapAnon (by decide : 1 < 2)
  obtain ⟨m, A, hrep, hs, hnil, hpte, hrole⟩ := Rep.drain 0 A1.free.length hch.rep hch.sane (by omega)
  have hempty : A.free = [] := List.length_eq_zero_iff.mp hnil
  have hpg : (k.proc 1).pgdir = d := by rw [hch.proc]; rfl
  have hd : A.role (k.proc 1).pgdir = .dir := by
    have hdir : A1.role d = .dir := hch.dir
    rw [hpg, hrole d (by rw [hdir]; nofun), hdir]
  have hk : A.role (k.proc 1).kstack = .held := by
    have hheld : A1.role (k.proc 1).kstack = .held := by rw [hch.proc]; exact hch.stack
    rw [hrole _ (by rw [hheld]; nofun), hheld]
  have hmmap : (k.proc 1).mmap = twoPages := by rw [hch.proc]
  have hf : findRegion (k.proc 1).mmap 0x60000000 = some 0 := by
    rw [hmmap]
    decide
  have hbound : Bounded (k.proc 1).mmap := by rw [hmmap]; exact bounded_twoPages
  have habs : flag (A.pte (k.proc 1).pgdir (0x60000000 / pgsize)) pteP = false := by
    have hzero : A1.pte d 0x60000 = 0#32 := hch.rest 0x60000 (by decide) (by decide)
    rw [hpg, hpte, show 0x60000000 / pgsize = 0x60000 by decide, hzero]
    exact flag_zero _
  have hofile : (k.proc 1).ofile = fun _ => none := by rw [hch.proc]; rfl
  have hkill : wp (trapLoad 1 0x60000000) (fun _ s' => (s'.kernel.proc 1).state = .zombie)
      (fun _ => False) ⟨{ k with mem := m }, sampleFiles⟩ := by
    refine wp_trapLoad none sampleFiles ?_ (wp_post ?_ fun _ _ hq => ⟨hq, hq⟩)
    · intro p i hp _ n hn
      obtain rfl : 1 = p := Option.some.inj (hch.here.cur.symm.trans hp)
      unfold openFile at hn
      rw [show (({ k with mem := m } : Kernel).proc 1).ofile = fun _ => none from hofile, ite_self] at hn
      cases hn
    refine Rep.trapPgflt_absent (A := A) hrep hch.here.cur hd (by decide) habs ?_
    unfold pagefaultDefault
    rw [wp_bind, wp_getProc]
    dsimp only
    rw [hf]
    have hanon : flag ((k.proc 1).mmap 0).flags mapAnonymous = true := by
      rw [hmmap]
      decide
    refine Rep.lazyAlloc (A := A) hrep hd (by decide) (.inr habs) (.inl hanon) ?_ ?_ ?_
    · intro m' A' hrep' hrestored _ _
      have hs' := hrestored.sane hrep.wf hrep'.wf hs
      have hd' : A'.role (k.proc 1).pgdir = .dir := by rw [hrestored.role]; exact hd
      exact wp_post (Rep.killSelf (A := A') hrep' (hs'.mapped.cowHigh hd') hch.here.cur hd' hbound
        (.inr (by rw [hch.initproc]; decide)) (.inr (Kernel.referenced_none hofile _))) fun _ _ h => h.2.2
    · intro _ _ _ _ _ hfill
      exact absurd (.inl hempty) hfill.not_short
    · intro _ _ _ hfill
      exact absurd (.inl hempty) hfill.not_short
  obtain ⟨_, s', hrun, hz⟩ := wp_total hkill
  have hfree : m.freelist = [] := by rw [hrep.free, hempty]
  have hpres : m.present (k.proc 1).pgdir (0x60000000 / pgsize) = false := by
    rw [hrep.present hd (by decide)]
    exact habs
  have hres : Resident 1 { k with mem := m } := ⟨A, true, hrep, hs, hd, hk⟩
  refine ⟨⟨{ k with mem := m }, sampleFiles⟩, s', hres, hfree, hrun, hz, ?_⟩
  refine (lazy_fault_clean (s := ⟨{ k with mem := m }, sampleFiles⟩) hch.here.cur hres hbound ?_ hf ?_
    hrun hz).mpr ⟨hpres, .inl hfree⟩
  · dsimp only
    rw [hch.proc]
    nofun
  · intro hp
    rw [show ({ k with mem := m } : Kernel).mem.present _ _ = false from hpres] at hp
    cases hp

end Xv6
