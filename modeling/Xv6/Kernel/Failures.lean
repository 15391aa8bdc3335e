import Xv6.Kernel.Backing
import Xv6.Kernel.Regions

/-!
# What failed calls leave behind

`wmap` fills its slot before it looks at the file.  A file-backed request that passed the
checks of the address and then finds no open file, or no descriptor for the duplicate,
returns `failed` with the slot taken, and in the second case with a reference of the file
taken too.  A descriptor outside the table is used as an index before any test.

`fork` undoes only what `setupkvm` undoes.  When the copy of a page fails the new directory
and its tables are lost, and the parent's pages so far stay copy-on-write.
-/

namespace Xv6

open Prog Function

variable {c p : Nat} {s : Kernel}

/-! ## `wmap` -/

/-- A call of `wmap` that fails leaves the table of mappings, the descriptors and the
counts of files as they were, and no call leaves the bounds of the table of descriptors. -/
def FailsClean (c p : Nat) (addr length flags fd : Word) (s : Kernel) : Prop :=
  wp (wmap c addr length flags fd) (fun r s' => r = failed →
    (s'.proc p).mmap = (s.proc p).mmap ∧ (s'.proc p).totalMmaps = (s.proc p).totalMmaps ∧
      (s'.proc p).ofile = (s.proc p).ofile ∧ s'.fileRef = s.fileRef)
    (fun e => e ≠ .outOfBounds) s

/-- A file-backed request that gets a slot and then has no open file, or no descriptor for
its duplicate. -/
structure Stumbles (s : Kernel) (p : Nat) (addr length flags fd : Word) : Prop where
  slot : (wmapSlot (s.proc p).mmap addr length flags).isSome = true
  backed : flag flags mapAnonymous = false
  file : ∀ f, openFile (s.proc p) fd.toInt = some f →
    0 < s.fileRef f ∧ ∀ j < nofile, ((s.proc p).ofile j).isSome = true

/-- The part of `wmap` for files, by what the descriptor names. -/
theorem wp_wmapFile {i addr : Nat} {fd : Int} {Q : Int → Kernel → Prop} {F : Fault → Prop} :
    wp (wmapFile p i addr fd) Q F s ↔
      if 0 ≤ fd ∧ fd < nofile then
        match openFile (s.proc p) fd with
        | none => Q failed s
        | some f =>
          if s.fileRef f < 1 then F (.panic "filedup")
          else match freeFd (s.proc p) with
            | none => Q failed { s with fileRef := Function.update s.fileRef f (s.fileRef f + 1) }
            | some j => Q addr
                ((({ s with fileRef := Function.update s.fileRef f (s.fileRef f + 2) }.setProc p fun pr =>
                  { pr with ofile := Function.update pr.ofile j (some f) }).setProc p fun pr =>
                    pr.setMmap i fun r => { r with fd := j }))
      else F .outOfBounds := by
  unfold wmapFile ofileAt
  rw [wp_bind, wp_getProc, wp_bind]
  by_cases hfd : 0 ≤ fd ∧ fd < nofile
  · have hopen : openFile (s.proc p) fd = (s.proc p).ofile fd.toNat := if_neg (by omega)
    rw [if_pos hfd, wp_pure, if_pos hfd, hopen]
    cases (s.proc p).ofile fd.toNat with
    | none => exact wp_pure ..
    | some f =>
      simp only [filedup, wp_bind, wp_get, wp_ite, wp_panic, wp_set]
      split
      · exact Iff.rfl
      · show wp (match freeFd (s.proc p) with | none => _ | some j => _) _ _ _ ↔ _
        cases freeFd (s.proc p) with
        | none => exact wp_pure ..
        | some j =>
          simp only [wp_bind, wp_get, wp_ite, wp_set, wp_setProc, wp_pure, wp_panic,
            update_self, update_idem, Nat.add_assoc]
          rw [if_neg (by omega)]
  · rw [if_neg hfd, wp_throw, if_neg hfd]

theorem freeFd_eq_none {pr : Proc} :
    freeFd pr = none ↔ ∀ j < nofile, (pr.ofile j).isSome = true := by
  unfold freeFd
  rw [List.find?_eq_none]
  simp [Option.isSome_iff_ne_none]

/-- The table has changed when the file is looked at. -/
theorem mmap_addRegion_ne {pr : Proc} {i : Nat} {addr length flags : Word} (fd : Word)
    (hslot : wmapSlot pr.mmap addr length flags = some i) :
    (pr.addRegion i addr length flags fd).mmap ≠ pr.mmap := by
  intro he
  have hused := congrArg (fun m : Nat → MmapRegion => (m i).used) he
  simp only [addRegion_self, (wmapSlot_spec hslot).2] at hused
  cases hused

/-- A failed `wmap` changes nothing, up to file-backed requests that stumble. -/
theorem wmap_fails_clean {addr length flags fd : Word} (hcur : (s.cpu c).proc = some p) :
    FailsClean c p addr length flags fd s ↔ ¬ Stumbles s p addr length flags fd := by
  have hne : (addr.toNat : Int) ≠ failed := by
    unfold failed
    omega
  unfold FailsClean
  rw [wp_wmap hcur]
  cases hslot : wmapSlot (s.proc p).mmap addr length flags with
  | none =>
    refine iff_of_true (fun _ => ⟨rfl, rfl, rfl, rfl⟩) fun h => ?_
    have := h.slot
    rw [hslot] at this
    cases this
  | some i =>
    dsimp only
    cases hanon : flag flags mapAnonymous with
    | true =>
      rw [if_pos rfl]
      refine iff_of_true (fun h => absurd h hne) fun h => ?_
      have := h.backed
      rw [hanon] at this
      cases this
    | false =>
      have hfilled := mmap_addRegion_ne fd hslot
      have hstumbles : (∀ f, openFile (s.proc p) fd.toInt = some f →
          0 < s.fileRef f ∧ freeFd (s.proc p) = none) ↔ Stumbles s p addr length flags fd := by
        simp only [freeFd_eq_none]
        exact ⟨fun h => ⟨by rw [hslot]; rfl, hanon, h⟩, fun h => h.file⟩
      rw [if_neg Bool.false_ne_true, wp_wmapFile, Kernel.setProc_self, ← hstumbles]
      show (if _ then match openFile (s.proc p) fd.toInt with | none => _ | some f => _ else _) ↔ _
      split
      · cases openFile (s.proc p) fd.toInt with
        | none =>
          refine iff_of_false (fun h => hfilled ?_) fun h => h nofun
          exact (h rfl).1
        | some f =>
          show (if s.fileRef f < 1 then _ else match freeFd (s.proc p) with | none => _ | some j => _) ↔ _
          split
          · rename_i hzero
            refine iff_of_true (by decide) fun h => ?_
            have := (h f rfl).1
            omega
          · rename_i hpos
            cases freeFd (s.proc p) with
            | none =>
              refine iff_of_false (fun h => hfilled ?_) fun h => h ?_
              · have := (h rfl).1
                dsimp only at this
                rwa [Kernel.setProc_self] at this
              · rintro _ ⟨⟩
                exact ⟨by omega, rfl⟩
            | some j =>
              refine iff_of_true (fun h => absurd h hne) fun h => ?_
              exact nomatch (h f rfl).2
      · refine iff_of_false (fun h => h rfl) fun h => h fun f hf => ?_
        unfold openFile at hf
        rw [if_pos (by omega)] at hf
        cases hf

/-- The first process maps a file it has not opened: the call fails and slot 0 is taken. -/
theorem wmap_fails_dirty : ∃ s0 s s', @Boot sampleLink 2 s0 ∧
    Trace.Run (@Step sampleLink 2) s0 [.sched 0 0] s ∧
    wmap 0 0x60000000#32 0x1000#32 (mapShared ||| mapFixed) 0#32 s = .ok (failed, s') ∧
    ((s.proc 0).mmap 0).used = false ∧ (s.proc 0).totalMmaps = 0 ∧
    ((s'.proc 0).mmap 0).used = true ∧ (s'.proc 0).totalMmaps = 1 ∧
    ¬ FailsClean 0 0 0x60000000#32 0x1000#32 (mapShared ||| mapFixed) 0#32 s := by
  let : Link := sampleLink
  obtain ⟨s0, A, d, f, g, hboot, hb⟩ := sample_boot
  have hpr := hb.dispatched
  have hcur := (at_dispatch s0 0 0).cur
  have hmmap : ((s0.dispatch 0 0).proc 0).mmap = fun _ => .zero := by rw [hpr]; rfl
  have hslot : wmapSlot ((s0.dispatch 0 0).proc 0).mmap 0x60000000#32 0x1000#32
      (mapShared ||| mapFixed) = some 0 := by
    rw [hmmap]
    decide
  have hrun : wp (wmap 0 0x60000000#32 0x1000#32 (mapShared ||| mapFixed) 0#32)
      (fun r s' => r = failed ∧ ((s'.proc 0).mmap 0).used = true ∧ (s'.proc 0).totalMmaps = 1)
      (fun _ => False) (s0.dispatch 0 0) := by
    rw [wp_wmap hcur, hslot]
    dsimp only
    rw [if_neg (by decide), wp_wmapFile, if_pos (by decide), Kernel.setProc_self, hpr]
    exact ⟨rfl, rfl, rfl⟩
  obtain ⟨r, s', hs', rfl, hused, htotal⟩ := wp_total hrun
  refine ⟨s0, _, s', hboot, .single (hb.sched (by decide)), hs', by rw [hpr]; rfl, by rw [hpr]; rfl,
    hused, htotal, fun h => ?_⟩
  have hsame := (wp_ok h hs' rfl).2.1
  rw [htotal, hpr] at hsame
  cases hsame

/-- A request outside the range for mappings fails without a trace. -/
theorem wmap_fails_clean_first : ∃ s0 s, @Boot sampleLink 2 s0 ∧
    Trace.Run (@Step sampleLink 2) s0 [.sched 0 0] s ∧
    FailsClean 0 0 0x50000000#32 0x1000#32 (mapShared ||| mapFixed) 0#32 s := by
  let : Link := sampleLink
  obtain ⟨s0, A, d, f, g, hboot, hb⟩ := sample_boot
  refine ⟨s0, _, hboot, .single (hb.sched (by decide)), ?_⟩
  refine (wmap_fails_clean (at_dispatch s0 0 0).cur).mpr fun h => ?_
  have hslot := h.slot
  rw [show ((s0.dispatch 0 0).proc 0).mmap = fun _ => .zero by rw [hb.dispatched]; rfl] at hslot
  exact absurd hslot (by decide)

section

variable [Link] {A A' : Space} {x : Bool} {m m' : Mem} {d sz : Nat}

/-! ## `fork` -/

/-- The same frames are free, every frame has the same count, and the directory `d` has
the same entries. -/
structure SameMem (d : Nat) (m m' : Mem) : Prop where
  free : ∀ f, f ∈ m'.freelist ↔ f ∈ m.freelist
  count : ∀ f < phystop / pgsize, m'.refCounts f = m.refCounts f
  table : ∀ v < npdentries * npdentries, m'.entry d v = m.entry d v

/-- What a `fork` that failed leaves of the memory: everything that was taken is back, or
the new directory is lost. -/
inductive ForkLeft (A : Space) (m' : Mem) : Prop where
  | restored {A' : Space} : Rep m' A' → Restored A A' → A.free.length ≤ kernelTables + 1 →
      (∀ f ∈ A.free, A'.count f = 1#8) → ForkLeft A m'
  | lost {A' : Space} {d : Nat} : Rep m' A' → A.role d = .free → A'.role d = .dir →
      kernelTables + 1 < A.free.length → ForkLeft A m'

/-- `copyuvm` fails in `setupkvm`, or later and then drops the directory.  To copy a page
it needs the directory, the tables of the kernel half and one more. -/
theorem Rep.copyuvm_frames (h : Rep s.mem A) (hs : Sane A x) (hp : A.role p = .dir)
    (hsz : sz ≤ kernbase) :
    wp (Xv6.copyuvm c p sz) (fun o s' => match o with
      | none => ∃ A', Rep s'.mem A' ∧ (∀ g, A.role g = .held → A'.role g = .held) ∧
          (Restored A A' ∧ A.free.length ≤ kernelTables ∧ (∀ f ∈ A.free, A'.count f = 1#8) ∨
            kernelTables < A.free.length ∧ ∃ d, A.role d = .free ∧ A'.role d = .dir)
      | some _ => 0 < npages sz → kernelTables + 1 < A.free.length)
      (fun _ => True) s := by
  unfold Xv6.copyuvm
  rw [wp_bind, wp_onMem]
  refine wp_post (h.setupkvm _) ?_
  rintro o m1 ⟨B, h1, hsetup, hframes⟩
  cases hsetup with
  | none hres hfew _ =>
    rw [wp_pure]
    refine ⟨B, h1, fun g hg => by rw [hres.role]; exact hg, .inl ⟨hres, hfew, ?_⟩⟩
    rw [← h1.count, ← h.free]
    exact hframes
  | @some _ d hnew _ =>
    have hpd := hnew.ne_dir hp
    have hpB := hnew.role_dir hp
    have hmapB := (hnew.sane x hs).mapped
    have hkernel : ∀ i ∈ kernelSlots, i < npdentries ∧ ∃ t, B.tab d i = some t := fun i hi =>
      ⟨kernelSlots_lt hi, h1.tab_of_pde hnew.dir (kernelSlots_lt hi) ((hframes i (kernelSlots_lt hi)).mpr hi)⟩
    have hvs : ∀ v ∈ List.range (npages sz), v < userPages := fun v hv =>
      lt_of_lt_of_le (List.mem_range.mp hv) (npages_le_userPages hsz)
    dsimp only
    rw [wp_bind]
    refine wp_post (Rep.copyLoop (s := { s with mem := m1 }) _ h1 hmapB hpB
      hnew.dir hpd hvs (.inl ⟨trivial, trivial⟩) (.inl trivial)) ?_
    rintro ok s2 ⟨C, n, h2, -, hcop, -⟩
    have hrole := fun g => hcop.role h1.wf hpB hnew.dir hvs hmapB (f := g)
    have hdC : C.role d = .dir := by rw [hrole d (by rw [hnew.dir]; nofun), hnew.dir]
    have hkeep : ∀ g, A.role g ≠ .free → C.role g = A.role g := fun g hg => by
      rw [hrole g (by rw [hnew.grow.role g hg]; exact hg), hnew.grow.role g hg]
    rw [wp_bind, wp_lcr3, wp_ite]
    cases ok with
    | true =>
      rw [if_pos rfl, wp_pure]
      intro hpos
      -- the first page of the child has a table, and it is not one of the kernel's
      have hpage := (hcop.entries hpd rfl List.nodup_range (List.mem_range.mpr hpos))
      have hp0 : flag (C.pte d 0) pteP = true := by
        rw [hpage.2.2, flag_childWord_pteP]
      have hS : ∀ i ∈ insert 0 kernelSlots, i < npdentries ∧ ∃ t, C.tab d i = some t := by
        intro i hi
        rcases Finset.mem_insert.mp hi with rfl | hi
        · exact ⟨by decide, Mapped.table_of_present h2.wf hdC (by decide) hp0⟩
        · obtain ⟨hlt, t, ht⟩ := hkernel i hi
          have htB := h1.wf.tab_role d i t hnew.dir hlt ht
          have htC : C.role t = .table d i := by rw [hrole t (by rw [htB]; nofun), htB]
          exact ⟨hlt, t, (h2.wf.role_tab _ _ _ htC).2.2⟩
      have hcard := h.wf.frames h2.wf hkeep hnew.free hdC hS
      rw [Finset.card_insert_of_notMem (by decide +kernel), card_kernelSlots] at hcard
      omega
    | false =>
      rw [if_neg (by decide), wp_pure]
      have hcard := h.wf.frames h1.wf hnew.grow.role hnew.free hnew.dir hkernel
      rw [card_kernelSlots] at hcard
      exact ⟨C, h2, fun g hg => by rw [hkeep g (by rw [hg]; nofun), hg],
        .inr ⟨by omega, d, hnew.free, hdC⟩⟩

/-- The kernel stack goes back on the free list. -/
theorem Restored.push_pop {f : Nat} {fs : List Nat} {B : Space} (hwf : A.WF) (hf : A.free = f :: fs)
    (h : Restored (A.pop f) B) : Restored A (B.push f) := by
  have hrole : A.role f = .free := hwf.role_head hf
  refine ⟨?_, fun d v hd => h.pte d v (pop_dir hwf hf hd), ?_⟩
  · funext g
    show Function.update B.role f .free g = A.role g
    rw [h.role]
    by_cases hg : g = f
    · rw [hg, update_self, hrole]
    · rw [update_of_ne hg]
      exact update_of_ne hg ..
  · intro g hg hoom
    have hne : g ≠ f := by
      rintro rfl
      exact hg hrole
    have hpop : (A.pop f).role g = A.role g := update_of_ne hne ..
    rw [Space.push_count, h.count g (by rw [hpop]; exact hg) hoom]
    exact update_of_ne hne ..

/-- `fork` on the memory, by the number of free frames. -/
theorem Rep.fork_frames (h : Rep s.mem A) (hs : Sane A x) (hcur : (s.cpu c).proc = some p)
    (hstate : (s.proc p).state ≠ .unused) (hdir : A.role (s.proc p).pgdir = .dir)
    (hsz : (s.proc p).sz ≤ kernbase) :
    wp (Xv6.fork c) (fun r s' => Forked c p (fun _ o m' => match o with
      | none => ForkLeft A m'
      | some _ => 0 < npages (s.proc p).sz → kernelTables + 2 < A.free.length) s r s')
      (fun _ => True) s := by
  refine wp_fork hcur hstate (.inl trivial) fun np _ => ?_
  refine wp_post (h.kalloc _) ?_
  rintro o m1 ⟨A1, h1, halloc, -⟩
  cases halloc with
  | none hf =>
    refine .restored h1 (.oom A) ?_ ?_ <;> rw [hf]
    · exact Nat.zero_le _
    · exact nofun
  | @some f fs hf =>
    rintro s1 rfl
    have hlen : A.free.length = (A.pop f).free.length + 1 := by
      rw [hf, Space.pop_free, hf, List.tail_cons, List.length_cons]
    refine wp_post (h1.copyuvm_frames (hs.pop h.wf hf) (pop_dir h.wf hf hdir) hsz) ?_
    rintro (_ | d) s2 hcopy
    · obtain ⟨B, h2, hheld, hcase⟩ := hcopy
      have hfB : B.role f = .held := hheld f (update_self ..)
      refine wp_post (h2.kfreeHeld hfB _) ?_
      rintro _ m' ⟨h3, -, -⟩
      rcases hcase with ⟨hres, hfew, hone⟩ | ⟨hmany, d, hfree, hd⟩
      · refine .restored h3 (hres.push_pop h.wf hf) (by omega) fun g hg => ?_
        rw [Space.push_count]
        rw [hf] at hg
        rcases List.mem_cons.mp hg with rfl | hg
        · exact h2.wf.count_one _ (by rw [hfB]; rfl)
        · exact hone g (by rw [Space.pop_free, hf]; exact hg)
      · have hdf : d ≠ f := by
          rintro rfl
          rw [hfB] at hd
          cases hd
        refine .lost (d := d) h3 ?_ ?_ (by omega)
        · exact (update_of_ne hdf ..).symm.trans hfree
        · exact (update_of_ne hdf ..).trans hd
    · refine wp_of_ok fun _ _ _ hpos => ?_
      have := hcopy hpos
      omega

/-- The memory is as before exactly if nothing was lost and every free frame had the count
that taking it leaves. -/
theorem ForkLeft.sameMem_iff (h : Rep m A) (hl : ForkLeft A m') (hd : A.role d = .dir) :
    SameMem d m m' ↔ m.freelist.length ≤ kernelTables + 1 ∧ ∀ f ∈ m.freelist, m.refCounts f = 1#8 := by
  rw [h.free, h.count]
  cases hl with
  | @restored A' h' hres hfew hone =>
    constructor
    · intro hsame
      refine ⟨hfew, fun f hf => ?_⟩
      rw [← hone f hf, ← h'.count, hsame.count f (h.wf.free_managed hf).lt, h.count]
    · rintro ⟨-, hall⟩
      refine ⟨fun f => ?_, fun f hf => ?_, fun v hv => ?_⟩
      · rw [h'.free, h.free, h'.wf.free_iff, h.wf.free_iff, hres.role]
      · rw [h'.count, h.count]
        by_cases hff : A.role f = .free
        · have hmem := (h.wf.free_iff f).mpr hff
          rw [hone f hmem, hall f hmem]
        · refine hres.count f hff ?_
          rintro rfl
          exact absurd hf (by decide)
      · rw [h'.entry (by rw [hres.role]; exact hd) hv, h.entry hd hv, hres.pte d v hd]
  | @lost A' e h' hfree hdir hmany =>
    refine iff_of_false (fun hsame => ?_) fun hc => by omega
    have hmem := (hsame.free e).mpr (by rw [h.free, h.wf.free_iff]; exact hfree)
    rw [h'.free, h'.wf.free_iff, hdir] at hmem
    cases hmem

theorem fork_fails_clean (hcur : (s.cpu c).proc = some p) (hstate : (s.proc p).state ≠ .unused)
    (hpaged : Paged p s) (hsz : (s.proc p).sz ≤ kernbase) (hpid : s.nextpid ≠ -1)
    (hrun : fork c s = .ok (-1, s')) :
    (SameMem (s.proc p).pgdir s.mem s'.mem ∧
        ∀ q, (s.proc q).state = .unused → (s'.proc q).state = .unused) ↔
      unusedProc s = none ∨ s.mem.freelist.length ≤ kernelTables + 1 ∧
        ∀ f ∈ s.mem.freelist, s.mem.refCounts f = 1#8 := by
  obtain ⟨A, x, h, hs, hd⟩ := hpaged.mem
  generalize hr : (-1 : Int) = r at hrun
  have hforked := wp_ok (h.fork_frames hs hcur hstate hd hsz) hrun
  cases hforked with
  | none hnone => exact iff_of_true ⟨⟨fun _ => Iff.rfl, fun _ _ => rfl, fun _ _ => rfl⟩, fun _ h => h⟩ (.inl hnone)
  | @failed np s' hsl hst _ _ hleft =>
    rw [← hleft.sameMem_iff h hd]
    refine ⟨fun hc => .inr hc.1, ?_⟩
    rintro (hnone | hsame)
    · rw [hsl.slot] at hnone
      cases hnone
    · refine ⟨hsame, fun q hq => ?_⟩
      by_cases hqn : q = np
      · rw [hqn]
        exact hst
      · rw [hsl.proc q hqn]
        exact hq
  | child => exact absurd hr.symm hpid

/-- Taking frames from the free list one by one leaves any smaller number of them. -/
theorem Rep.drain (n : Nat) : ∀ (k : Nat) {m : Mem} {A : Space}, Rep m A → Sane A x →
    A.free.length = n + k → ∃ m' A', Rep m' A' ∧ Sane A' x ∧ A'.free.length = n ∧
      A'.pte = A.pte ∧ ∀ f, A.role f ≠ .free → A'.role f = A.role f
  | 0, m, A, h, hs, hlen => ⟨m, A, h, hs, hlen, rfl, fun _ _ => rfl⟩
  | k + 1, m, A, h, hs, hlen => by
    obtain ⟨r, m1, -, A1, h1, halloc, -⟩ := wp_total (h.kalloc fun _ => False)
    cases halloc with
    | none hf =>
      rw [hf] at hlen
      cases hlen
    | @some f fs hf =>
      have hlen1 : (A.pop f).free.length = n + k := by
        rw [Space.pop_free, hf, List.tail_cons]
        rw [hf, List.length_cons] at hlen
        omega
      obtain ⟨m', A', h', hs', hn, hpte, hrole⟩ := Rep.drain n k h1 (hs.pop h.wf hf) hlen1
      refine ⟨m', A', h', hs', hn, hpte, fun g hg => ?_⟩
      have hgf : g ≠ f := by
        rintro rfl
        exact hg (h.wf.role_head hf)
      have hpop : (A.pop f).role g = A.role g := update_of_ne hgf ..
      rw [hrole g (by rw [hpop]; exact hg), hpop]

/-- The first process, with `n` free frames left. -/
structure Drained (n : Nat) (s : Kernel) (A : Space) (d : Nat) : Prop where
  rep : Rep s.mem A
  sane : Sane A true
  cur : (s.cpu 0).proc = some 0
  proc : ∃ f, s.proc 0 =
    { Proc.zero with sz := pgsize, pgdir := d, kstack := f, state := .running, pid := 1 }
  slot : unusedProc s = some 1
  pid : s.nextpid = 2
  dir : A.role d = .dir
  present : ∀ v < npages pgsize, flag (A.pte d v) pteP = true
  writable : flag (A.pte d 0) pteW = true
  length : A.free.length = n

omit [Link] in
theorem drained {n : Nat} (hn : n ≤ 56000) : ∃ s A d, @Drained sampleLink n s A d := by
  let : Link := sampleLink
  obtain ⟨s, A, d, f, g, -, hb⟩ := sample_boot
  have hlen : A.free.length = n + (A.free.length - n) := by
    have := hb.free
    omega
  obtain ⟨m', A', h', hs', hn', hpte, hrole⟩ := Rep.drain n _ hb.rep (hb.sane true) hlen
  refine ⟨{ s.dispatch 0 0 with mem := m' }, A', d, h', hs', (at_dispatch s 0 0).cur,
    ⟨f, hb.dispatched⟩, unusedProc_one ?_ ?_, hb.nextpid, ?_, ?_, ?_, hn'⟩
  · show ((s.dispatch 0 0).proc 0).state ≠ .unused
    rw [hb.dispatched]
    exact ProcState.noConfusion
  · simp [Kernel.dispatch, hb.others 1 (by decide), Proc.zero]
  · rw [hrole d (by rw [hb.dir]; decide), hb.dir]
  · rw [hpte]
    exact hb.present
  · rw [hpte, hb.page, flag_mkPte (by decide) (by decide)]
    decide

namespace Drained

variable {n : Nat}

theorem paged (h : Drained n s A d) : Paged 0 s := by
  obtain ⟨f, hpr⟩ := h.proc
  exact ⟨A, true, h.rep, h.sane, by rw [hpr]; exact h.dir⟩

/-- A child needs its stack, its directory and 65 page tables. -/
theorem fork_fails (h : Drained n s A d) (hn : n ≤ kernelTables + 2) :
    ∃ s', Xv6.fork 0 s = .ok (-1, s') ∧ ForkLeft A s'.mem ∧ ForkMem A s.mem d [0] [] none s'.mem := by
  obtain ⟨f, hpr⟩ := h.proc
  have hpages : List.range (npages pgsize) = [0] := by decide
  have hstate : (s.proc 0).state ≠ .unused := by rw [hpr]; nofun
  have hdir : A.role (s.proc 0).pgdir = .dir := by rw [hpr]; exact h.dir
  have hsz : (s.proc 0).sz ≤ kernbase := by rw [hpr]; exact (by decide : pgsize ≤ kernbase)
  have hfork := h.rep.fork h.sane (F := fun _ => False) h.cur hstate hdir hsz
    (by rw [hpr]; exact fun _ _ => MmapRegion.ok_zero)
    { files := .inr (by rw [hpr]; exact fun _ _ => rfl)
      present := .inr (by rw [hpr]; exact h.present)
      table := .inr (by rw [hpr]; simp [Proc.zero, sharedPages_zero])
      apart := .inr (by rw [hpr]; simp [Proc.zero, sharedPages_zero]) }
  obtain ⟨r, s', hrun, hmem, hframes⟩ :=
    wp_total (wp_and_ok hfork (h.rep.fork_frames h.sane h.cur hstate hdir hsz))
  cases hframes with
  | none hnone =>
    rw [h.slot] at hnone
    cases hnone
  | failed _ _ _ _ hleft =>
    refine ⟨s', hrun, hleft, ?_⟩
    generalize hr : (-1 : Int) = r at hmem
    cases hmem with
    | none hnone =>
      rw [h.slot] at hnone
      cases hnone
    | failed _ _ _ _ hmem => simpa only [hpr, Proc.zero, sharedPages_zero, hpages] using hmem
    | child =>
      rw [h.pid] at hr
      cases hr
  | child _ _ _ hmany =>
    rw [hpr, h.length] at hmany
    have := hmany (show 0 < npages pgsize by decide)
    omega

end Drained

/-- A copy that stops at the first page leaves it without its write bit. -/
theorem ForkFails.marked {n : Nat} (h : ForkFails A d [0] n A') (hwf : A.WF)
    (hd : A.role d = .dir) (hlen : kernelTables + 1 < A.free.length) :
    A'.role d = .dir ∧ flag (A'.pte d 0) pteW = false := by
  cases h with
  | stack hf =>
    rw [hf] at hlen
    cases hlen
  | setup hf _ _ hfew =>
    rw [hf, List.length_cons] at hlen
    omega
  | @copy f e _ fs B C hf hnew hcop =>
    have hpop := pop_dir hwf hf hd
    have hdf : d ≠ f := by
      rintro rfl
      rw [hwf.role_head hf] at hd
      cases hd
    cases hcop with
    | full =>
      refine ⟨(update_of_ne hdf ..).trans (hnew.role_dir hpop), ?_⟩
      show flag (if d = d ∧ 0 = 0 then toCow (B.pte d 0) else B.pte d 0) pteW = false
      rw [if_pos ⟨rfl, rfl⟩, flag_toCow_pteW]
    | cons _ _ hrest => cases hrest

omit [Link] in
/-- With 66 free frames the child's first page cannot be mapped: its directory is lost and
the parent's page stays copy-on-write. -/
theorem fork_fails_dirty : ∃ s s', @Paged sampleLink 0 s ∧ (s.cpu 0).proc = some 0 ∧
    (s.proc 0).state = .running ∧ (s.proc 0).sz = pgsize ∧ s.mem.freelist.length = 66 ∧
    @fork sampleLink 0 s = .ok (-1, s') ∧ (∃ f, f ∈ s.mem.freelist ∧ f ∉ s'.mem.freelist) ∧
    flag (s.mem.entry (s.proc 0).pgdir 0) pteW = true ∧
    flag (s'.mem.entry (s.proc 0).pgdir 0) pteW = false ∧
    ¬ SameMem (s.proc 0).pgdir s.mem s'.mem := by
  let : Link := sampleLink
  obtain ⟨s, A, d, h⟩ := drained (n := 66) (by decide)
  obtain ⟨f, hpr⟩ := h.proc
  obtain ⟨s', hrun, hleft, A', n, h', -, hfails, -⟩ := h.fork_fails (by decide)
  have hpgdir : (s.proc 0).pgdir = d := by rw [hpr]
  have hv : 0 < npdentries * npdentries := by decide
  have hold : flag (s.mem.entry (s.proc 0).pgdir 0) pteW = true := by
    rw [hpgdir, h.rep.entry h.dir hv]
    exact h.writable
  have hnew : flag (s'.mem.entry (s.proc 0).pgdir 0) pteW = false := by
    obtain ⟨hdir', hpte⟩ := hfails.marked h.rep.wf h.dir (by rw [h.length]; decide)
    rw [hpgdir, h'.entry hdir' hv]
    exact hpte
  refine ⟨s, s', h.paged, h.cur, by rw [hpr], by rw [hpr], by rw [h.rep.free, h.length], hrun, ?_,
    hold, hnew, fun hsame => ?_⟩
  · cases hleft with
    | restored _ _ hfew _ =>
      rw [h.length] at hfew
      exact absurd hfew (by decide)
    | lost hB hfree hdir _ =>
      refine ⟨_, by rw [h.rep.free, h.rep.wf.free_iff]; exact hfree, ?_⟩
      rw [hB.free, hB.wf.free_iff, hdir]
      nofun
  · rw [hsame.table 0 hv, hold] at hnew
    cases hnew

omit [Link] in
/-- With no free frame `fork` leaves everything as it was. -/
theorem fork_fails_clean_empty : ∃ s s', @Paged sampleLink 0 s ∧
    @fork sampleLink 0 s = .ok (-1, s') ∧ SameMem (s.proc 0).pgdir s.mem s'.mem ∧
    ∀ q, (s.proc q).state = .unused → (s'.proc q).state = .unused := by
  let : Link := sampleLink
  obtain ⟨s, A, d, h⟩ := drained (n := 0) (by decide)
  obtain ⟨f, hpr⟩ := h.proc
  obtain ⟨s', hrun, -⟩ := h.fork_fails (by decide)
  have hnil : s.mem.freelist = [] := by
    rw [h.rep.free]
    exact List.length_eq_zero_iff.mp h.length
  refine ⟨s, s', h.paged, hrun, (fork_fails_clean h.cur (by rw [hpr]; nofun) h.paged
    (by rw [hpr]; exact (by decide : pgsize ≤ kernbase)) (by rw [h.pid]; decide) hrun).mpr (.inr ?_)⟩
  rw [hnil]
  exact ⟨by decide, nofun⟩

end

end Xv6
