import Xv6.Kernel.OpenFiles
import Xv6.Machine.Translate

/-!
# Page tables under mapping calls and page faults

`Machine` says what the operations on memory do to an abstract space.  Here the
kernel's own operations are put over it: the loop of `wunmap`, the two branches of
the page fault trap and a user access.  The rules for the trap leave the branches
that kill the process to their caller, with the space as it is there.
-/

namespace Xv6

open Prog Function

variable {m : Mem} {r : MmapRegion} {va i f : Nat} {Q : Unit → Kernel → Prop}
  {io : Option (List Byte)}

variable [Link] {s s' : Kernel} {A A' : Space} {x : Bool} {c p d v : Nat} {F : Fault → Prop}

/-! ## Present pages -/

omit [Link] in
/-- Whether a page of a directory is present, as the hardware finds it. -/
def Mem.present (m : Mem) (d v : Nat) : Bool :=
  let pde := word (m.page d) (v / npdentries)
  flag pde pteP && flag (word (m.page (frame pde)) (v % npdentries)) pteP

section

variable (h : Rep m A) (hd : A.role d = .dir)
include h hd

theorem Rep.entry (hv : v < npdentries * npdentries) :
    m.entry d v = A.pte d v := by
  unfold Mem.entry
  have hpde := h.pde d (v / npdentries) hd (div_lt_npdentries hv)
  dsimp only
  rw [hpde]
  cases ht : A.tab d (v / npdentries) with
  | none => simp [h.wf.tab_none d v hd hv ht]
  | some t =>
    have hm : Managed t := h.wf.managed t (by rw [h.table_role hd hv ht]; nofun)
    rw [frame_pdeWord hm, flag_pdeWord_some, if_pos rfl, h.pte d v t hd hv ht]

theorem Rep.present (hv : v < npdentries * npdentries) :
    m.present d v = flag (A.pte d v) pteP := by
  rw [← h.entry hd hv, Mem.entry, Mem.present]
  split
  · next hp => rw [hp, Bool.true_and]
  · next hp => rw [Bool.eq_false_iff.mpr hp, Bool.false_and, flag_zero]

theorem Rep.tab_of_pde (hi : i < npdentries)
    (hp : flag (word (m.page d) i) pteP = true) : ∃ t, A.tab d i = some t := by
  rw [h.pde d i hd hi] at hp
  cases ht : A.tab d i with
  | none =>
    rw [ht, flag_pdeWord_none] at hp
    cases hp
  | some t => exact ⟨t, rfl⟩

/-- An access through a directory of the space reaches the frame of the page's entry. -/
theorem Rep.translate (hva : va < uintSize) (write : Bool) :
    Xv6.translate m d va write =
      if permits (A.pte d (va / pgsize)) write then some (frame (A.pte d (va / pgsize))) else none := by
  have hv := page_lt hva
  unfold Xv6.translate
  rw [pdx_eq hva, ptx_eq, h.pde d _ hd (div_lt_npdentries hv)]
  dsimp only
  cases ht : A.tab d (va / pgsize / npdentries) with
  | none =>
    have hp : permits (pdeWord none) write = false := by
      unfold permits
      rw [flag_pdeWord_none, Bool.false_and, Bool.false_and]
    rw [h.wf.tab_none d _ hd hv ht, hp, show permits 0#32 write = false from hp]
    rfl
  | some t =>
    have hm : Managed t := h.wf.managed t (by rw [h.table_role hd hv ht]; nofun)
    have hp : permits (pdeWord (some t)) write = true := by
      unfold permits pdeWord
      rw [flag_mkPte_pteP, flag_mkPte (by decide) (by decide), flag_mkPte (by decide) (by decide)]
      cases write <;> decide
    rw [frame_pdeWord hm, h.pte d _ t hd hv ht, hp, Bool.true_and]

end

/-! ## The loop of `wunmap` -/

omit [Link] in
/-- The descriptor of a file-backed region is in range. -/
def MmapRegion.Fd (r : MmapRegion) : Prop :=
  flag r.flags mapAnonymous = true ∨ 0 ≤ r.fd ∧ r.fd < nofile

omit [Link] in
/-- The write for page `v` of a region, whose frame is `f`. -/
def pageWrite (m : Mem) (pr : Proc) (r : MmapRegion) (v f : Nat) : List FileWrite :=
  if flag r.flags mapAnonymous then []
  else match openFile pr r.fd with
    | none => []
    | some g => [⟨g, v * pgsize - r.addr, m.page f⟩]

omit [Link] in
/-- The writes for the present pages among `vs`. -/
def Space.writes (A : Space) (m : Mem) (pr : Proc) (r : MmapRegion) (vs : List Nat) :
    List FileWrite :=
  vs.flatMap fun v =>
    if flag (A.pte pr.pgdir v) pteP then pageWrite m pr r v (frame (A.pte pr.pgdir v)) else []

omit [Link] in
theorem wp_writeBack (hfd : F .outOfBounds ∨ r.Fd)
    (h : r.Fd → Q () { s with filewrites := s.filewrites ++ pageWrite s.mem (s.proc p) r v f }) :
    wp (writeBack p r (v * pgsize) f) Q F s := by
  unfold writeBack
  unfold pageWrite at h
  rw [wp_ite]
  cases hanon : flag r.flags mapAnonymous with
  | true =>
    have h := h (.inl hanon)
    rw [hanon, if_pos rfl, List.append_nil] at h
    exact (wp_pure ..).mpr h
  | false =>
    rw [hanon, if_neg (by decide)] at h
    rw [if_pos (by rfl), wp_bind, wp_getProc, wp_bind]
    unfold ofileAt
    unfold openFile at h
    rw [wp_ite]
    split
    next hr =>
      have h := h (.inr hr)
      rw [if_neg (by omega)] at h
      rw [wp_pure]
      cases ho : (s.proc p).ofile r.fd.toNat with
      | none =>
        rw [ho, List.append_nil] at h
        exact (wp_pure ..).mpr h
      | some g =>
        rw [ho] at h
        exact (wp_modify ..).mpr h
    next hr =>
      rw [wp_throw]
      rcases hfd with hF | hanon' | hin
      · exact hF
      · rw [hanon] at hanon'
        cases hanon'
      · exact absurd hin hr

omit [Link] in
theorem writes_anonymous {pr : Proc} (vs : List Nat) (h : flag r.flags mapAnonymous = true) :
    A.writes m pr r vs = [] := by
  unfold Space.writes pageWrite
  rw [List.flatMap_eq_nil_iff]
  intro v _
  rw [h, if_pos rfl]
  split <;> rfl

/-- What unmapping the pages `vs` of a region does. -/
structure Unmapped (A : Space) (p : Nat) (r : MmapRegion) (vs : List Nat) (s s' : Kernel) :
    Prop where
  eq : s' = { s with
    mem := s'.mem, filewrites := s.filewrites ++ A.writes s.mem (s.proc p) r vs }
  rep : Rep s'.mem (A.unmapAll (s.proc p).pgdir vs)
  nonZero : NonZero A (s.proc p).pgdir vs
  keep : KeepData (A.unmapAll (s.proc p).pgdir vs) s.mem s'.mem

/-- The pages that are left keep their entries and their contents. -/
theorem writes_unmap {m' : Mem} {pr : Proc} {vs : List Nat} (hclean : Clean A pr.pgdir (v :: vs))
    (hv : v ∉ vs) (hne : NonZero (A.unmap pr.pgdir v) pr.pgdir vs)
    (hkeep : KeepData (A.unmap pr.pgdir v) m m') :
    (A.unmap pr.pgdir v).writes m' pr r vs = A.writes m pr r vs := by
  refine List.flatMap_congr fun u hu => ?_
  have hpte : (A.unmap pr.pgdir v).pte pr.pgdir u = A.pte pr.pgdir u := by
    refine A.unmap_pte_ne fun h => hv ?_
    rw [← h.2]
    exact hu
  split
  next hp =>
    rw [hpte] at hp ⊢
    have hrole := (hclean.tail.user u hu (by rw [hpte]; exact hp) (hne u hu (by rw [hpte]; exact hp))).2
    rw [hpte] at hrole
    rw [if_pos hp]
    unfold pageWrite
    rw [hkeep _ hrole]
  next hp =>
    rw [hpte] at hp
    rw [if_neg hp]

omit [Link] in
/-- The descriptor of a region is in range if it is used for a page among `vs`. -/
def Space.FdOk (A : Space) (d : Nat) (r : MmapRegion) (vs : List Nat) : Prop :=
  ∀ v ∈ vs, flag (A.pte d v) pteP = true → r.Fd

theorem Rep.unmapLoop (vs : List Nat) : ∀ {s : Kernel} {A : Space},
    Rep s.mem A → A.role (s.proc p).pgdir = .dir → (∀ v ∈ vs, v < npdentries * npdentries) →
      vs.Nodup → Clean A (s.proc p).pgdir vs →
      (F (.panic "kfree") ∨ NonZero A (s.proc p).pgdir vs) →
      (F .outOfBounds ∨ A.FdOk (s.proc p).pgdir r vs) →
      wp (Xv6.unmapLoop p r (vs.map fun v => v * pgsize))
        (fun _ s' => Unmapped A p r vs s s' ∧ A.FdOk (s.proc p).pgdir r vs) F s := by
  induction vs with
  | nil =>
    intro s A h _ _ _ _ _ _
    rw [List.map_nil, Xv6.unmapLoop, wp_pure]
    exact ⟨⟨by simp [Space.writes], h, List.forall_mem_nil _, fun _ _ => rfl⟩, List.forall_mem_nil _⟩
  | cons v vs ih =>
    intro s A h hd hvs hnodup hclean hzero hfd
    have hv := hvs v List.mem_cons_self
    have hva := page_lt_uintSize hv
    obtain ⟨hnot, hnodup'⟩ := List.nodup_cons.mp hnodup
    have hvs' : ∀ u ∈ vs, u < npdentries * npdentries := fun u hu =>
      hvs u (List.mem_cons_of_mem v hu)
    -- an absent page is passed over
    have hskip : flag (A.pte (s.proc p).pgdir v) pteP = false →
        wp (Xv6.unmapLoop p r (vs.map fun v => v * pgsize))
          (fun _ s' => Unmapped A p r (v :: vs) s s' ∧ A.FdOk (s.proc p).pgdir r (v :: vs)) F s := by
      intro hp
      have hun := A.unmap_absent (d := (s.proc p).pgdir) hp
      refine wp_post (ih h hd hvs' hnodup' (hclean.mono (List.subset_cons_self v vs))
        (hzero.imp_right fun hn u hu => hn u (List.mem_cons_of_mem v hu))
        (hfd.imp_right fun hf u hu => hf u (List.mem_cons_of_mem v hu))) ?_
      rintro _ s1 ⟨h1, hf1⟩
      refine ⟨⟨?_, ?_, ?_, ?_⟩, fun u hu hpu => ?_⟩
      · rw [h1.eq]
        unfold Space.writes
        rw [List.flatMap_cons, hp, if_neg (by decide), List.nil_append]
      · rw [Space.unmapAll, hun]
        exact h1.rep
      · refine NonZero.cons (by rw [hun]; exact h1.nonZero) fun hp' => ?_
        rw [hp] at hp'
        cases hp'
      · rw [Space.unmapAll, hun]
        exact h1.keep
      · rcases List.mem_cons.mp hu with rfl | hu
        · rw [hp] at hpu
          cases hpu
        · exact hf1 u hu hpu
    rw [List.map_cons, Xv6.unmapLoop, wp_bind, wp_getProc, wp_bind, wp_onMem,
      h.wp_walk hd hva, mul_pgsize_div]
    cases ht : A.tab (s.proc p).pgdir (v / npdentries) with
    | none =>
      rw [Option.map_none]
      refine hskip ?_
      rw [h.wf.tab_none _ v hd hv ht]
      exact flag_zero _
    | some t =>
      rw [Option.map_some]
      dsimp only
      rw [wp_bind, wp_onMem, h.wp_load hd hv ht, wp_ite]
      cases hp : flag (A.pte (s.proc p).pgdir v) pteP with
      | false =>
        rw [if_neg (by decide)]
        exact hskip hp
      | true =>
        rw [if_pos rfl, wp_bind]
        refine wp_writeBack (hfd.imp_right fun hf => hf v List.mem_cons_self hp) fun hin => ?_
        rw [wp_bind, wp_onMem, p2v_pteAddr]
        by_cases h0 : frame (A.pte (s.proc p).pgdir v) = 0
        · rw [h0]
          rcases hzero with hF | hne
          · exact wp_kfree_zero hF
          · exact absurd h0 (hne v List.mem_cons_self hp)
        obtain ⟨hm, hr⟩ := hclean.user v List.mem_cons_self hp h0
        refine wp_post (h.unmap hd hv ht hp hm hr) ?_
        rintro _ m1 ⟨hrep, hkeep⟩
        rw [wp_bind, wp_onMem, wp_store]
        refine wp_post (ih hrep (unmap_dir hd fun _ => hr) hvs' hnodup' hclean.tail
          (hzero.imp_right NonZero.tail) (.inr fun _ _ _ => hin)) ?_
        rintro _ s1 ⟨h1, -⟩
        have hrest := writes_unmap (r := r) hclean hnot h1.nonZero hkeep
        refine ⟨⟨?_, h1.rep, h1.nonZero.cons fun _ => h0, ?_⟩, fun _ _ _ => hin⟩
        · rw [h1.eq]
          dsimp only
          rw [hrest]
          unfold Space.writes
          rw [List.flatMap_cons, hp, if_pos rfl, List.append_assoc]
        · intro g hg
          rw [h1.keep g hg]
          refine hkeep g ?_
          rcases Space.unmapAll_role (A.unmap (s.proc p).pgdir v) (s.proc p).pgdir vs g with
            hsame | ⟨hfree, -⟩
          · rw [← hsame]
            exact hg
          · rw [show (A.unmapAll (s.proc p).pgdir (v :: vs)).role g = _ from hfree] at hg
            cases hg

/-! ## `wunmap` -/

omit [Link] in
/-- A process whose slot `i` was unmapped. -/
def Proc.dropRegion (pr : Proc) (i : Nat) : Proc :=
  { pr.setMmap i fun r => { r with used := false, nLoadedPages := 0 } with
    totalMmaps := pr.totalMmaps - 1 }

omit [Link] in
/-- The pages a region reaches into, at whatever address it starts. -/
def MmapRegion.touched (r : MmapRegion) : List Nat :=
  List.range' (r.addr / pgsize) (npages (r.stop - pgrounddown r.addr))

omit [Link] in
theorem unmapAddrs_eq (r : MmapRegion) : unmapAddrs r = r.touched.map fun v => v * pgsize := by
  unfold unmapAddrs MmapRegion.touched
  rw [List.range'_eq_map_range, List.map_map]
  refine List.map_congr_left fun k _ => ?_
  rw [Function.comp_apply, Nat.add_mul, pgrounddown]

omit [Link] in
theorem MmapRegion.Ok.touched (h : r.Ok) : r.touched = r.pages := by
  have hdown : pgrounddown r.addr = r.addr := by
    have := h.aligned
    unfold pgrounddown
    rw [pgsize_eq] at this ⊢
    omega
  rw [MmapRegion.touched, hdown, MmapRegion.pages]

omit [Link] in
theorem findRegion_spec {mmap : Nat → MmapRegion} {a : Nat} (h : findRegion mmap a = some i) :
    i < maxMmaps ∧ (mmap i).used = true ∧ (mmap i).addr ≤ a ∧ a < (mmap i).stop := by
  have hlt := List.mem_range.mp (List.mem_of_find?_eq_some h)
  have hh := List.find?_some h
  simp only [MmapRegion.holds, Bool.and_eq_true, decide_eq_true_eq] at hh
  exact ⟨hlt, hh.1.1, hh.1.2, hh.2⟩

section

variable (h : Rep s.mem A) (hmap : Mapped A) (hcur : (s.cpu c).proc = some p)
  (hd : A.role (s.proc p).pgdir = .dir)
include h hmap hcur hd

theorem Rep.wunmap_touched {addr : Nat}
    (hreg : ∀ i, findRegion (s.proc p).mmap addr = some i →
      (∀ v ∈ ((s.proc p).mmap i).touched, v < userPages) ∧
      (F (.panic "kfree") ∨ NonZero A (s.proc p).pgdir ((s.proc p).mmap i).touched) ∧
      (F .outOfBounds ∨
        A.FdOk (s.proc p).pgdir ((s.proc p).mmap i) ((s.proc p).mmap i).touched)) :
    wp (Xv6.wunmap c addr) (fun r s' => match findRegion (s.proc p).mmap addr with
      | none => r = failed ∧ s' = s
      | some i => r = success ∧ ∃ s1,
          Unmapped A p ((s.proc p).mmap i) ((s.proc p).mmap i).touched s s1 ∧
          A.FdOk (s.proc p).pgdir ((s.proc p).mmap i) ((s.proc p).mmap i).touched ∧
          s' = s1.setProc p fun pr => pr.dropRegion i) F s := by
  unfold Xv6.wunmap
  rw [wp_bind, wp_myproc, hcur]
  dsimp only
  rw [wp_bind, wp_getProc]
  cases hf : findRegion (s.proc p).mmap addr with
  | none => exact (wp_pure ..).mpr ⟨rfl, rfl⟩
  | some i =>
    obtain ⟨hlt, hzero, hfd⟩ := hreg i hf
    dsimp only
    rw [unmapAddrs_eq, wp_bind]
    refine wp_post (h.unmapLoop _ hd (fun v hv => userPages_lt (hlt v hv)) List.nodup_range'
      (hmap.clean hd hlt) hzero hfd) ?_
    rintro _ s1 ⟨h1, hf1⟩
    rw [wp_bind, wp_setProc, wp_pure]
    exact ⟨rfl, s1, h1, hf1, rfl⟩

/-- What `wunmap` of an address does, when the slots it may find are good. -/
theorem Rep.wunmap {addr : Nat}
    (hreg : ∀ i, findRegion (s.proc p).mmap addr = some i → ((s.proc p).mmap i).Ok ∧
      (F (.panic "kfree") ∨ NonZero A (s.proc p).pgdir ((s.proc p).mmap i).pages) ∧
      (F .outOfBounds ∨ ((s.proc p).mmap i).Fd)) :
    wp (Xv6.wunmap c addr) (fun r s' => match findRegion (s.proc p).mmap addr with
      | none => r = failed ∧ s' = s
      | some i => r = success ∧ ∃ s1,
          Unmapped A p ((s.proc p).mmap i) ((s.proc p).mmap i).pages s s1 ∧
          s' = s1.setProc p fun pr => pr.dropRegion i) F s := by
  refine wp_post (h.wunmap_touched hmap hcur hd fun i hi => ?_) ?_
  · obtain ⟨hok, hzero, hfd⟩ := hreg i hi
    rw [hok.touched]
    exact ⟨fun v hv => hok.lt_userPages hv, hzero, hfd.imp_right fun hf _ _ _ => hf⟩
  · intro r s' hpost
    cases hf : findRegion (s.proc p).mmap addr with
    | none => rwa [hf] at hpost
    | some i =>
      rw [hf] at hpost
      obtain ⟨hr, s1, h1, -, hs'⟩ := hpost
      rw [(hreg i hf).1.touched] at h1
      exact ⟨hr, s1, h1, hs'⟩

end

/-! ## Lazy allocation -/

omit [Link] in
/-- The contents of a page that was just loaded. -/
def lazyPage (r : MmapRegion) (io : Option (List Byte)) : Page :=
  if flag r.flags mapAnonymous then fill 0#8
  else setBytes (fill 0#8) 0 ((io.getD []).take pgsize)

/-- What is given back after the page table for it could not be allocated. -/
theorem Restored.unpop {fs : List Nat} (hwf : A.WF) (hf : A.free = f :: fs) :
    Restored A ((A.pop f).oom.push f) := by
  have hrole : A.role f = .free := hwf.role_head hf
  refine ⟨?_, fun _ _ _ => rfl, ?_⟩
  · funext g
    show Function.update (Function.update A.role f .held) f .free g = A.role g
    by_cases hg : g = f
    · rw [hg, update_self, hrole]
    · rw [update_of_ne hg, update_of_ne hg]
  · intro g hg hoom
    have hne : g ≠ f := by
      rintro rfl
      exact hg hrole
    show Function.update (Function.update A.count f 1#8) oomIndex 1#8 g = A.count g
    rw [update_of_ne hoom, update_of_ne hne]

section

omit [Link]

/-- The read of a file-backed page, with an open file. -/
theorem wp_loadPage {Q : Bool → Kernel → Prop}
    (hfile : F .nullDeref ∧ F .outOfBounds ∨ (openFile (s.proc p) r.fd).isSome = true)
    (h : Q io.isSome (match io with
      | none => s
      | some bs => { s with mem := s.mem.setPage f (setBytes (s.mem.page f) 0 (bs.take pgsize)) })) :
    wp (loadPage p f r io) Q F s := by
  unfold loadPage ofileAt
  rw [wp_bind, wp_getProc, wp_bind, wp_ite]
  unfold openFile at hfile
  split
  next hr =>
    rw [if_neg (by omega)] at hfile
    rw [wp_pure]
    cases ho : (s.proc p).ofile r.fd.toNat with
    | none =>
      rw [ho] at hfile
      exact (wp_throw ..).mpr (hfile.elim (fun hF => hF.1) nofun)
    | some g =>
      dsimp only
      cases io with
      | none => exact (wp_pure ..).mpr h
      | some bs =>
        dsimp only
        unfold writeBytes
        rw [wp_bind, wp_onMem, wp_modify, wp_pure]
        exact h
  next hr =>
    rw [if_pos (by omega)] at hfile
    exact (wp_throw ..).mpr (hfile.elim (fun hF => hF.2) nofun)

/-- The kernel after a page of slot `i` of `p` was loaded, with the memory `m`. -/
def Kernel.loadedPage (s : Kernel) (p i : Nat) (m : Mem) : Kernel :=
  { s with mem := m }.setProc p fun pr =>
    pr.setMmap i fun r => { r with nLoadedPages := r.nLoadedPages + 1 }

theorem Kernel.loadedPage_proc (s : Kernel) (p i : Nat) (m : Mem) : (s.loadedPage p i m).proc p =
    (s.proc p).setMmap i fun r => { r with nLoadedPages := r.nLoadedPages + 1 } :=
  Kernel.setProc_self ..

@[simp] theorem Kernel.loadedPage_pgdir (s : Kernel) (p i : Nat) (m : Mem) :
    ((s.loadedPage p i m).proc p).pgdir = (s.proc p).pgdir := by
  rw [loadedPage_proc]
  rfl

theorem Kernel.loadedPage_mmap (s : Kernel) (p i : Nat) (m : Mem) :
    ((s.loadedPage p i m).proc p).mmap i =
      { (s.proc p).mmap i with nLoadedPages := ((s.proc p).mmap i).nLoadedPages + 1 } := by
  rw [loadedPage_proc]
  exact update_self ..

/-- Where the loop over the slots stops does not depend on the counts of loaded pages. -/
theorem Kernel.loadedPage_find (s : Kernel) (p i : Nat) (m : Mem) (a : Nat) :
    findRegion ((s.loadedPage p i m).proc p).mmap a = findRegion (s.proc p).mmap a := by
  rw [loadedPage_proc]
  unfold findRegion
  congr 1
  funext j
  unfold Proc.setMmap
  dsimp only
  by_cases hj : j = i
  · rw [hj, update_self]
    rfl
  · rw [update_of_ne hj]

end

/-- A page of a region is allocated, or the process is killed: without a frame for
the page or for its page table, and when the read of the file fails.  In the last
case the page is on the free list and still mapped. -/
theorem Rep.lazyAlloc (h : Rep s.mem A) (hd : A.role (s.proc p).pgdir = .dir) (hva : va < uintSize)
    (hremap : F (.panic "remap") ∨ flag (A.pte (s.proc p).pgdir (va / pgsize)) pteP = false)
    (hfile : flag ((s.proc p).mmap i).flags mapAnonymous = true ∨
      F .nullDeref ∧ F .outOfBounds ∨ (openFile (s.proc p) ((s.proc p).mmap i).fd).isSome = true)
    (hkill : ∀ m' A', Rep m' A' → Restored A A' → A.Short (s.proc p).pgdir (va / pgsize) →
      KeepData A s.mem m' → wp (killSelf c p) Q F { s with mem := m' })
    (hfail : ∀ f m' A', flag ((s.proc p).mmap i).flags mapAnonymous = false → io = none →
      Fill A (s.proc p).pgdir (va / pgsize) (pteW ||| pteU) f A' → Rep m' (A'.push f) →
      KeepData A s.mem m' → wp (killSelf c p) Q F { s with mem := m' })
    (hok : ∀ f m' A', Fill A (s.proc p).pgdir (va / pgsize) (pteW ||| pteU) f A' → Rep m' A' →
      KeepData A s.mem m' → m'.page f = lazyPage ((s.proc p).mmap i) io →
      (io = none → flag ((s.proc p).mmap i).flags mapAnonymous = true) →
      Q () (s.loadedPage p i m')) : wp (Xv6.lazyAlloc c p va i io) Q F s := by
  unfold Xv6.lazyAlloc
  rw [wp_bind, wp_getProc, wp_bind, wp_onMem]
  refine wp_post (h.kalloc F) ?_
  rintro o m1 ⟨A1, h1, halloc, hpage1⟩
  cases halloc with
  | none hempty =>
    exact hkill m1 _ h1 (Restored.oom A) (.inl hempty) fun g _ => by rw [hpage1]
  | @some f fs hf =>
    have hfree : A.role f = .free := h.wf.role_head hf
    have hheld : (A.pop f).role f = .held := update_self ..
    dsimp only
    rw [wp_bind, wp_onMem, wp_memset, wp_bind, wp_onMem]
    have hrep : Rep (m1.setPage f (fill 0#8)) (A.pop f) := h1.setPage _ (by rw [hheld]; rfl)
    have hround : pgrounddown va = va / pgsize * pgsize := rfl
    rw [hround]
    refine wp_post (Rep.fillPage (pteW ||| pteU) h.wf hf hrep hd (page_lt hva) hremap) ?_
    rintro ok m2 ⟨hkeep, hres⟩
    have hne : ∀ g, A.role g = .data → g ≠ f := by
      rintro g hg rfl
      rw [hfree] at hg
      cases hg
    have hdata2 : KeepData A s.mem m2 := by
      intro g hg
      have hgne := hne g hg
      rw [hkeep g (.inl (by rw [← hg]; exact update_of_ne hgne ..)),
        Mem.setPage_ne _ _ hgne, hpage1]
    have hpage2 : m2.page f = fill 0#8 := by
      rw [hkeep f (.inr hheld)]
      exact Mem.setPage_self ..
    rw [wp_ite]
    cases ok with
    | false =>
      obtain ⟨h2, htab, rfl⟩ := hres
      rw [if_neg (by decide), wp_bind, wp_onMem]
      refine wp_post (h2.kfreeHeld (by exact hheld) F) ?_
      rintro _ m3 ⟨h3, -, hpage3⟩
      refine hkill m3 _ h3 (Restored.unpop h.wf hf) (.inr ⟨by rw [hf]; rfl, htab⟩) ?_
      intro g hg
      rw [hpage3 g (hne g hg), hdata2 g hg]
    | true =>
      obtain ⟨A', h2, hfill⟩ := hres
      rw [if_pos rfl]
      cases hanon : flag ((s.proc p).mmap i).flags mapAnonymous with
      | true =>
        rw [wp_ite, if_neg (by decide), wp_bind, wp_pure, wp_ite, if_pos rfl, wp_setProc]
        refine hok f m2 A' hfill h2 hdata2 ?_ fun _ => hanon
        rw [hpage2, lazyPage, hanon, if_pos rfl]
      | false =>
        rw [wp_ite, if_pos (by rfl), wp_bind]
        refine wp_loadPage (hfile.resolve_left (by rw [hanon]; decide)) ?_
        cases io with
        | none =>
          have hman := h.wf.free_managed (f := f) (by rw [hf]; exact List.mem_cons_self)
          have hcount : m2.refCounts f = 1#8 := by rw [h2.count, hfill.count_self h.wf]
          rw [wp_ite, if_neg (by decide), wp_bind, wp_onMem, wp_kfree hman]
          dsimp only
          rw [hcount, if_neg (by decide)]
          refine hfail f _ A' hanon rfl hfill (h2.push hman (.inr hfill.role_self)) ?_
          intro g hg
          show (m2.push f).page g = s.mem.page g
          rw [← hdata2 g hg]
          exact Mem.setPage_ne _ _ (hne g hg)
        | some bs =>
          rw [wp_ite, if_pos (by rfl), wp_setProc]
          refine hok f _ A' hfill (h2.setPage _ (by rw [hfill.role_self]; rfl)) ?_ ?_ nofun
          · intro g hg
            dsimp only
            rw [Mem.setPage_ne _ _ (hne g hg), hdata2 g hg]
          · dsimp only
            rw [Mem.setPage_self, hpage2, lazyPage, hanon, if_neg (by decide)]
            rfl

section

variable (h : Rep s.mem A) (hcur : (s.cpu c).proc = some p) (hd : A.role (s.proc p).pgdir = .dir)
  (hva : va < uintSize)
include h hcur hd hva

/-- A fault on a page that is not copy-on-write goes to the search for a mapping. -/
theorem Rep.trapPgflt_lazy
    (hlazy : flag (A.pte (s.proc p).pgdir (va / pgsize)) pteP = true →
      flag (A.pte (s.proc p).pgdir (va / pgsize)) pteCow = false)
    (hdef : wp (pagefaultDefault c p va io) Q F s) : wp (trapPgflt c va io) Q F s := by
  unfold trapPgflt
  rw [wp_bind, wp_myproc, hcur]
  dsimp only
  rw [wp_bind, wp_getProc, wp_bind, wp_onMem, h.wp_walk hd hva]
  cases ht : A.tab (s.proc p).pgdir (va / pgsize / npdentries) with
  | none => exact hdef
  | some t =>
    rw [Option.map_some]
    dsimp only
    rw [wp_bind, wp_onMem, h.wp_load hd (page_lt hva) ht, wp_ite]
    cases hp : flag (A.pte (s.proc p).pgdir (va / pgsize)) pteP with
    | false => exact hdef
    | true =>
      rw [if_neg (by decide), hlazy hp, wp_ite, if_neg (by decide)]
      exact hdef

theorem Rep.trapPgflt_absent
    (habs : flag (A.pte (s.proc p).pgdir (va / pgsize)) pteP = false)
    (hdef : wp (pagefaultDefault c p va io) Q F s) : wp (trapPgflt c va io) Q F s :=
  h.trapPgflt_lazy hcur hd hva (fun hp => absurd (habs.symm.trans hp) (by decide)) hdef

end

end Xv6
