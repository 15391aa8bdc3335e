import Xv6.Machine.Fill
import Xv6.Machine.Wraps
import Xv6.Kernel.Control

/-!
# The state after boot

`main` frees the frames of the first 4 MB, builds the kernel's directory, gives
each other processor a stack, frees the rest of memory and makes the first
process.  The frames it frees are the managed ones, so after boot each of them is
on the free list or in use.

`Booted` says what the system starts with.  With a kernel of at most 2 MB, at most
eight processors and a first program that fits in a page, `main` returns
(`boot_exists`), so runs of the system exist.
-/

namespace Xv6

open Prog Function

variable {k f ncpu : Nat} {F : Fault → Prop} {fs : List Nat} {s : Kernel}

variable [Link] {m : Mem} {A : Space}

/-! ## Freeing a range -/

/-- A space in which no frame was ever freed. -/
def Space.unborn : Space :=
  { free := [], count := fun _ => 0#8, role := fun _ => .data, tab := fun _ _ => none
    pte := fun _ _ => 0#32 }

theorem rep_unborn {m : Mem} (hfree : m.freelist = []) (hcount : m.refCounts = fun _ => 0#8) :
    Rep m .unborn where
  wf :=
    { nodup := List.nodup_nil
      free_iff := by simp [Space.unborn]
      managed := fun f hf => absurd rfl hf
      count_one := nofun
      tab_role := nofun
      role_tab := nofun
      tab_none := nofun }
  free := hfree
  count := hcount
  pde := nofun
  pte := nofun

/-- Without directories nothing is mapped. -/
theorem sane_of_no_dir (hwf : A.WF) (h : ∀ d, A.role d ≠ .dir) (x : Bool) : Sane A x where
  mapped := ⟨fun d _ hd => absurd hd (h d), fun d _ hd => absurd hd (h d),
    fun d _ hd => absurd hd (h d), fun d _ _ _ hd => absurd hd (h d)⟩
  counted := by
    refine ⟨?_, fun _ d _ _ hd => absurd hd (h d)⟩
    intro f _
    have hzero : A.mappers f = 0 := by
      refine Count.refs_eq_zero.mpr ?_
      rintro ⟨d, v⟩ hk
      exact absurd (hwf.mem_keys.mp hk).1 (h d)
    rw [hzero]
    exact Nat.zero_le _

/-- Frames that `kfree` puts on the free list. -/
def Freeable (A : Space) (f : Nat) : Prop :=
  Managed f ∧ A.role f = .data ∧ (A.count f).toNat ≤ 1

theorem Freeable.rest {fs : List Nat} (hfs : ∀ g ∈ f :: fs, Freeable A g) (hnot : f ∉ fs) :
    ∀ g ∈ fs, Freeable (A.push f) g := by
  intro g hg
  obtain ⟨hgm, hgr, hgc⟩ := hfs g (.tail _ hg)
  exact ⟨hgm, (update_of_ne (ne_of_mem_of_not_mem hg hnot) ..).trans hgr, hgc⟩

theorem Rep.kfreeAll (fs : List Nat) : ∀ {m : Mem} {A : Space}, Rep m A →
    fs.Nodup → (∀ f ∈ fs, Freeable A f) →
    wp (fs.forM fun f => kfree (kva f)) (fun _ m' => Rep m' (A.pushAll fs)) F m := by
  induction fs with
  | nil =>
    intro m A h _ _
    rw [List.forM_eq_forM, List.forM_nil, wp_pure]
    exact h
  | cons f fs ih =>
    intro m A h hnodup hfs
    obtain ⟨hm, hrole, hc⟩ := hfs f (.head _)
    obtain ⟨hnot, hnodup⟩ := List.nodup_cons.mp hnodup
    rw [List.forM_eq_forM, List.forM_cons, wp_bind, wp_kfree hm, if_neg (by rw [h.count]; omega)]
    refine ih (h.push hm (.inr hrole)) hnodup (Freeable.rest hfs hnot)

/-- `freerange` between two page boundaries frees the frames in order. -/
theorem freerange_eq {vstart b e : Nat} (hb : pgroundup vstart = kernbase + b * pgsize)
    (he : e * pgsize ≤ phystop) :
    freerange vstart (kernbase + e * pgsize) =
      (List.range' b (e - b)).forM fun f => kfree (kva f) := by
  have hlen : (kernbase + e * pgsize - pgroundup vstart) / pgsize = e - b := by
    have hsub : kernbase + e * pgsize - (kernbase + b * pgsize) = (e - b) * pgsize := by
      rw [Nat.sub_mul]
      omega
    rw [hb, hsub]
    exact Nat.mul_div_cancel _ (by decide)
  have hloop : ∀ l : List Nat, (∀ k ∈ l, k < e - b) →
      (forM l fun k => kfree (pgroundup vstart + k * pgsize)) =
        forM (l.map (b + ·)) fun f => kfree (kva f) := by
    intro l
    induction l with
    | nil => simp
    | cons k l ih =>
      intro hl
      have hk := hl k (.head _)
      have haddr : pgroundup vstart + k * pgsize = kva (b + k) := by
        have hlt : (b + k) * pgsize < phystop := by
          refine lt_of_lt_of_le ?_ he
          exact Nat.mul_lt_mul_of_pos_right (by omega) (by decide)
        rw [kva_eq hlt, hb, Nat.add_mul]
        omega
      rw [List.map_cons, List.forM_cons, List.forM_cons, haddr, ih fun j hj => hl j (.tail _ hj)]
  unfold freerange
  rw [hlen, List.forM_eq_forM, hloop _ fun k hk => List.mem_range.mp hk,
    List.range'_eq_map_range]

/-! ## Frames below and above 4 MB -/

/-- The first managed frame. -/
def firstFrame : Nat := (pgroundup Link.kend - kernbase) / pgsize

/-- The first frame above 4 MB. -/
def midFrame : Nat := boot4M / pgsize
/-- The first frame above physical memory. -/
def topFrame : Nat := phystop / pgsize

omit [Link] in
theorem midFrame_eq : midFrame = 1024 := by decide
omit [Link] in
theorem topFrame_eq : topFrame = 57344 := by decide

theorem firstFrame_spec : pgroundup Link.kend = kernbase + firstFrame * pgsize ∧
    firstFrame ≤ midFrame ∧ ∀ f, Managed f ↔ firstFrame ≤ f ∧ f < topFrame := by
  have hlt := kernbase_lt_kend
  have hle := Link.kend_le
  have htop := topFrame_eq
  have hmid := midFrame_eq
  unfold firstFrame pgroundup Managed
  unfold kernbase pgsize phystop extmem at *
  refine ⟨by omega, by omega, fun f => by omega⟩

/-- In the first half of boot the frames above 4 MB are untouched. -/
def Halfway (A : Space) : Prop :=
  ∀ f, Managed f → midFrame ≤ f → A.role f = .data ∧ A.count f = 0#8

theorem Halfway.pop (h : Halfway A) (hwf : A.WF) (hf : A.free = f :: fs) : Halfway (A.pop f) := by
  have hfree := hwf.role_head hf
  intro g hg hle
  obtain ⟨hr, hc⟩ := h g hg hle
  have hgf : g ≠ f := by
    rintro rfl
    rw [hfree] at hr
    cases hr
  simpa [Space.pop, hgf] using ⟨hr, hc⟩

theorem Halfway.newDir {A' : Space} {d : Nat} (h : Halfway A) (hnew : NewDir A A' d) :
    Halfway A' := by
  intro f hf hle
  obtain ⟨hr, hc⟩ := h f hf hle
  have hne : A.role f ≠ .free := by rw [hr]; decide
  rw [hnew.grow.role f hne, hnew.grow.count f hne hf.ne_oom]
  exact ⟨hr, hc⟩

theorem halfway_low : Halfway (Space.unborn.pushAll (List.range' firstFrame (midFrame - firstFrame))) := by
  obtain ⟨-, hle, -⟩ := firstFrame_spec
  intro f hf hmid
  refine ⟨?_, by rw [Space.pushAll_count]; rfl⟩
  rw [Space.pushAll_role, if_neg]
  · rfl
  · rw [List.mem_range'_1]
    omega

theorem Halfway.freeable (h : Halfway A) :
    ∀ f ∈ List.range' midFrame (topFrame - midFrame), Freeable A f := by
  obtain ⟨-, hle, hman⟩ := firstFrame_spec
  intro f hf
  rw [List.mem_range'_1] at hf
  have hm := (hman f).mpr ⟨by omega, by omega⟩
  obtain ⟨hr, hc⟩ := h f hm hf.1
  exact ⟨hm, hr, by rw [hc]; decide⟩
/-! ## Before the first process -/

/-- The kernel's own directory is the only one, and maps no user page. -/
structure KernelOnly (A : Space) (k : Nat) : Prop where
  sane : ∀ x, Sane A x
  only : ∀ d, A.role d = .dir → d = k
  empty : ∀ v < userPages, A.pte k v = 0#32

theorem KernelOnly.pop (h : KernelOnly A k) (hwf : A.WF) (hf : A.free = f :: fs) :
    KernelOnly (A.pop f) k where
  sane := fun x => (h.sane x).pop hwf hf
  only := fun d hd => h.only d (of_pop_dir hd)
  empty := h.empty

theorem KernelOnly.start {A' : Space} (hnone : ∀ d, A.role d ≠ .dir) (hs : ∀ x, Sane A x)
    (h : NewDir A A' k) : KernelOnly A' k where
  sane := fun x => h.sane x (hs x)
  only := by
    intro d hd
    by_contra hne
    exact hnone d ((h.frame.dir d hne).mp hd)
  empty := h.empty

theorem KernelOnly.push (h : KernelOnly A k) (hwf : A.WF) (hf : Freeable A f) :
    KernelOnly (A.push f) k := by
  obtain ⟨hm, hr, -⟩ := hf
  refine ⟨fun x => (h.sane x).push hwf hm (.inr hr) ?_, ?_, h.empty⟩
  · -- no user page is mapped yet
    intro d v hd hv
    rw [h.only d hd, h.empty v hv, names_zero]
  · exact fun d hd => h.only d (Space.dir_of_update (by decide) hd)

theorem KernelOnly.pushAll (h : KernelOnly A k) (hwf : A.WF) (hnodup : fs.Nodup)
    (hfs : ∀ f ∈ fs, Freeable A f) : KernelOnly (A.pushAll fs) k := by
  induction fs generalizing A with
  | nil => exact h
  | cons f fs ih =>
    have hf := hfs f (.head _)
    obtain ⟨hnot, hnodup⟩ := List.nodup_cons.mp hnodup
    refine ih (h.push hwf hf) (hwf.push hf.1 (.inr hf.2.1)) hnodup (Freeable.rest hfs hnot)

/-- Each other processor takes a frame for its stack. -/
theorem Rep.startothers (ncpu : Nat) (h : Rep m A) (hhalf : Halfway A) (hk : KernelOnly A k)
    (hlen : F .nullDeref ∨ ncpu ≤ A.free.length) :
    wp (Xv6.startothers ncpu)
      (fun _ m' => ∃ A', Rep m' A' ∧ Halfway A' ∧ KernelOnly A' k) F m := by
  unfold Xv6.startothers
  refine wp_forM (I := fun l m' => ∃ A', Rep m' A' ∧ Halfway A' ∧ KernelOnly A' k ∧
    (F .nullDeref ∨ l.length ≤ A'.free.length)) ⟨A, h, hhalf, hk, ?_⟩ ?_ |> fun hx =>
      wp_post hx (fun _ _ ⟨A', h, hh, hk, _⟩ => ⟨A', h, hh, hk⟩)
  · rw [List.length_range]
    exact hlen.imp_right fun h => by omega
  · rintro _ bs m1 ⟨A1, h1, hhalf1, hk1, hlen1⟩
    rw [wp_bind]
    refine wp_post (h1.kalloc F) ?_
    rintro r m2 ⟨A2, h2, halloc, -⟩
    cases halloc with
    | none hf =>
      rw [wp_throw]
      rw [hf, List.length_nil, List.length_cons] at hlen1
      exact hlen1.resolve_right (by omega)
    | some hf =>
      rw [wp_pure]
      refine ⟨_, h2, hhalf1.pop h1.wf hf, hk1.pop h1.wf hf, ?_⟩
      rw [Space.pop_free, hf, List.tail_cons]
      rw [hf, List.length_cons, List.length_cons] at hlen1
      exact hlen1.imp_right fun h => by omega

/-! ## The first process -/

/-- What the system starts with: a directory `d`, a stack `f` and one page `g` for
the first process. -/
structure Booted (s : Kernel) (A : Space) (d f g : Nat) : Prop where
  rep : Rep s.mem A
  sane : ∀ x, Sane A x
  dir : A.role d = .dir
  stack : A.role f = .held
  page : A.pte d 0 = mkPte (g * pgsize) (pteW ||| pteU)
  frame : Managed g ∧ A.count g = 1#8
  rest : ∀ v < userPages, v ≠ 0 → A.pte d v = 0#32
  init : s.proc 0 =
    { Proc.zero with sz := pgsize, pgdir := d, kstack := f, state := .runnable, pid := 1 }
  others : ∀ p ≠ 0, s.proc p = .zero
  cpu : ∀ c, s.cpu c = ⟨none, s.kpgdir⟩
  initproc : s.initproc = 0
  nextpid : s.nextpid = 2
  fileRef : s.fileRef = fun _ => 0
  free : 56000 ≤ A.free.length

omit [Link] in
theorem unusedProc_zero (h : (s.proc 0).state = .unused) : unusedProc s = some 0 := by
  have hrange : List.range nproc = 0 :: (List.range 63).map Nat.succ := by decide
  unfold unusedProc
  rw [hrange, List.find?_cons_of_pos (by simpa using h)]

theorem wp_userinit {init : List Byte} (h : Rep s.mem A) (hk : KernelOnly A s.kpgdir)
    (hlen : 56100 ≤ A.free.length) (hproc : s.proc = fun _ => .zero) (hpid : s.nextpid = 1)
    (hcpu : ∀ c, s.cpu c = ⟨none, s.kpgdir⟩) (href : s.fileRef = fun _ => 0)
    (hinit : F (.panic "inituvm: more than a page") ∨ init.length < pgsize) :
    wp (userinit init) (fun _ s' => ∃ A' d f g, Booted s' A' d f g) F s := by
  unfold userinit
  rw [wp_bind]
  have hslot := unusedProc_zero (s := s) (by rw [hproc]; rfl)
  refine wp_allocproc (fun hnone => by rw [hslot] at hnone; cases hnone) ?_
  intro np hnp
  obtain rfl : 0 = np := Option.some.inj (hslot.symm.trans hnp)
  refine wp_post (h.kalloc F) ?_
  rintro r m1 ⟨A1, h1, halloc, -⟩ s1 rfl hs1
  cases halloc with
  | none hf =>
    rw [hf] at hlen
    simp at hlen
  | @some f fs hf =>
    have hk1 := hk.pop h.wf hf
    have hlen1 : (A.pop f).free.length + 1 = A.free.length := by
      rw [Space.pop_free, hf, List.tail_cons, List.length_cons]
    simp only [Option.map_some, wp_bind, wp_modify, wp_onMem]
    refine wp_post (h1.setupkvm F) ?_
    rintro r m2 ⟨A2, h2, hsetup, -⟩
    cases hsetup with
    | none _ hle _ =>
      have : kernelTables = 64 := rfl
      omega
    | @some _ d hnew hkeep =>
      simp only [wp_bind, wp_setProc, wp_onMem]
      have hlen2 := hnew.length
      have htables : kernelTables = 64 := rfl
      have hpte0 : A2.pte d 0 = 0#32 := hnew.empty 0 (by decide)
      refine wp_post (h2.inituvm hnew.dir (by rw [hpte0]; exact flag_zero _) (by omega) hinit) ?_
      rintro _ m3 ⟨g, A3, h3, hfill⟩
      have hext := hfill.extends h2.wf (by decide) perm_wu
      have hstack : A3.role f = .held := by
        have hheld : (A.pop f).role f = .held := update_self ..
        have hheld2 : A2.role f = .held :=
          (hnew.grow.role f (by rw [hheld]; decide)).trans hheld
        exact (hext.grow.role f (by rw [hheld2]; decide)).trans hheld2
      have hlen3 := hfill.length
      refine ⟨A3, d, f, g, ?_⟩
      simp only [Kernel.setProc, hs1.kpgdir, hs1.cpu, hs1.fileRef, hs1.nextpid, hs1.slot]
      exact
        { rep := h3
          sane := fun x => hfill.sane h2.wf hnew.dir (by decide) perm_wu (hnew.sane x (hk1.sane x))
          dir := hext.role_dir hnew.dir
          stack := hstack
          page := hfill.pte_self
          frame := ⟨h2.wf.managed g (by rw [hfill.fresh h2.wf]; decide), hfill.count_self h2.wf⟩
          rest := by
            intro v hv hne
            rw [hext.pte d v fun hc => hne hc.2]
            exact hnew.empty v hv
          init := by simp [hproc, Proc.zero, hpid]
          others := by
            intro p hp
            simp [update_of_ne hp, hs1.proc p hp, hproc]
          cpu := hcpu
          initproc := rfl
          nextpid := by
            show s.nextpid + 1 = 2
            rw [hpid]
            rfl
          fileRef := href
          free := by omega }
/-! ## Boot -/

/-- The kernel's image ends below 2 MB. -/
def SmallKernel : Prop := Link.kend ≤ kernbase + 0x200000

theorem wp_main {init : List Byte} {page : Nat → Page}
    (hF : (F .nullDeref ∧ F (.panic "inituvm: more than a page")) ∨
      SmallKernel ∧ ncpu ≤ 8 ∧ init.length < pgsize) :
    wp (main ncpu init) (fun _ s => ∃ A d f g, Booted s A d f g) F (powerOn page) := by
  obtain ⟨hstart, hle, hman⟩ := firstFrame_spec
  have hmid : p2v boot4M = kernbase + midFrame * pgsize := by decide
  have htop : p2v phystop = kernbase + topFrame * pgsize := by decide
  have hmid_eq := midFrame_eq
  have htop_eq := topFrame_eq
  have htables : kernelTables = 64 := rfl
  unfold main
  rw [wp_bind, wp_onMem, hmid, freerange_eq hstart (by decide)]
  have hlow : ∀ f ∈ List.range' firstFrame (midFrame - firstFrame), Freeable .unborn f := by
    intro f hf
    rw [List.mem_range'_1] at hf
    exact ⟨(hman f).mpr ⟨hf.1, by omega⟩, rfl, Nat.zero_le 1⟩
  have hnodup : (List.range' firstFrame (midFrame - firstFrame)).Nodup := List.nodup_range'
  refine wp_post (Rep.kfreeAll _ (rep_unborn rfl rfl) hnodup hlow) ?_
  intro _ m1 h1
  have hnone : ∀ d, (Space.unborn.pushAll
      (List.range' firstFrame (midFrame - firstFrame))).role d ≠ .dir := by
    intro d
    rw [Space.pushAll_role]
    split <;> nofun
  rw [wp_bind, wp_onMem]
  refine wp_post (h1.setupkvm F) ?_
  rintro r m2 ⟨A2, h2, hsetup, -⟩
  have hlen1 : (Space.unborn.pushAll
      (List.range' firstFrame (midFrame - firstFrame))).free.length = midFrame - firstFrame := by
    simp [Space.pushAll_free, Space.unborn]
  have hsmall : SmallKernel → firstFrame ≤ 512 := by
    intro hk
    unfold SmallKernel at hk
    unfold firstFrame pgroundup
    unfold kernbase pgsize at *
    omega
  cases hsetup with
  | none _ hfew _ =>
    rw [wp_throw]
    rcases hF with hF | ⟨hk, -, -⟩
    · exact hF.1
    · have := hsmall hk
      omega
  | @some _ k hnew hkeep =>
    have hk2 : KernelOnly A2 k := .start hnone (sane_of_no_dir h1.wf hnone) hnew
    have hlen2 := hnew.length
    simp only [wp_bind, wp_modify, wp_onMem]
    refine wp_post (h2.startothers ncpu (halfway_low.newDir hnew) hk2 ?_) ?_
    · refine hF.imp And.left ?_
      rintro ⟨hk, hn, -⟩
      have := hsmall hk
      omega
    rintro _ m3 ⟨A3, h3, hhalf, hk3⟩
    rw [htop, freerange_eq (show pgroundup _ = kernbase + midFrame * pgsize by decide) (by decide)]
    refine wp_post (Rep.kfreeAll _ h3 List.nodup_range' hhalf.freeable) ?_
    intro _ m4 h4
    refine wp_userinit h4 (hk3.pushAll h3.wf List.nodup_range' hhalf.freeable) ?_ rfl rfl
      (fun _ => rfl) rfl (hF.imp And.right fun h => h.2.2)
    rw [Space.pushAll_free, List.length_append, List.length_reverse, List.length_range']
    omega
theorem Boot.booted (h : Boot ncpu s) : ∃ A d f g, Booted s A d f g := by
  obtain ⟨page, init, hrun⟩ := h
  exact wp_ok (wp_main (.inl ⟨trivial, trivial⟩) (F := fun _ => True)) hrun

/-- A small kernel boots. -/
theorem boot_exists (hk : SmallKernel) (hn : ncpu ≤ 8) : ∃ s, Boot ncpu s := by
  have hmain : wp (main ncpu []) (fun _ s => ∃ A d f g, Booted s A d f g) (fun _ => False)
      (powerOn fun _ => fill 0#8) := wp_main (.inr ⟨hk, hn, by decide⟩)
  obtain ⟨_, s, hrun, -⟩ := wp_total hmain
  exact ⟨s, _, _, hrun⟩

/-- A layout of the kernel's image, for concrete runs. -/
@[reducible] def sampleLink : Link where
  data := 0x80110000
  kend := 0x80120000
  data_aligned := by decide
  kernlink_lt_data := by decide
  data_lt_kend := by decide
  kend_le := by decide

omit [Link] in
theorem sampleLink_small : @SmallKernel sampleLink := by
  show 0x80120000 ≤ kernbase + 0x200000
  decide

omit [Link] in
/-- The sample layout boots on two processors. -/
theorem sample_boot : ∃ s A d f g, @Boot sampleLink 2 s ∧ @Booted sampleLink s A d f g := by
  let : Link := sampleLink
  obtain ⟨s, hboot⟩ : ∃ s, Boot 2 s := boot_exists sampleLink_small (by decide)
  obtain ⟨A, d, f, g, hb⟩ := hboot.booted
  exact ⟨s, A, d, f, g, hboot, hb⟩

omit [Link] in
/-- The directory of the first process is given back. -/
theorem deallocuvm_skips_boot : ∃ m A d, @Rep sampleLink m A ∧ A.role d = .dir ∧
    @Clean sampleLink A d allPages ∧ NonZero A d allPages ∧
    @SkipsTables sampleLink d 0x80000000#32 0x1000#32 := by
  let : Link := sampleLink
  obtain ⟨s, A, d, f, g, -, hb⟩ := sample_boot
  refine ⟨s.mem, A, d, hb.rep, hb.dir, (hb.sane true).mapped.clean hb.dir fun v => mem_allPages.mp,
    fun v hv hp => ?_, deallocuvm_skips d _ _ (by decide) (by decide)⟩
  by_cases h0 : v = 0
  · rw [h0, hb.page, frame_mkPte hb.frame.1.lt_frames (by decide)]
    exact hb.frame.1.pos.ne'
  · rw [hb.rest v (mem_allPages.mp hv) h0, flag_zero] at hp
    cases hp

end Xv6
