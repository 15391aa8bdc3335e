import Xv6.Kernel.Backing
import Xv6.Kernel.Paging

/-!
# The table of mappings and the pages of one process

`Kept` relates a table of mappings to the set of present pages: the regions are
apart, every present page in the range for mappings is in one, and the counters of
loaded pages are exact.  It is a statement about a table and a predicate on page
numbers, and the three operations are lemmas about it: a region is added, a region
is dropped with its pages, a page of a region becomes present.

A region whose end wraps past the top of the address space has no pages, since its
end lies below its start.  No address is ever found in it.

`MapStep` is one process on its own, with its calls of `wmap` and `wunmap` and its
faults.
-/

namespace Xv6

open Prog Function

variable {addr length flags fd : Word}

/-! ## Regions -/

/-- What the checks of `wmap` leave of a region. -/
structure MmapRegion.Good (r : MmapRegion) : Prop where
  pos : 0 < r.length
  length : r.length < 2 ^ 31
  addr : r.addr < uintSize
  aligned : r.addr % pgsize = 0
  base : mmapBase ≤ r.addr
  stop : r.stop ≤ mmapTop

section

variable {r : MmapRegion} {v : Nat}

theorem MmapRegion.Good.ok (h : r.Good) : r.Ok := ⟨h.aligned, h.stop⟩

/-- A region that starts below the top ends there, too. -/
theorem MmapRegion.Good.inside (h : r.Good) (hlt : r.addr < mmapTop) :
    r.addr + r.length ≤ mmapTop := by
  have hlen := h.length
  have hpos := h.pos
  have hstop := h.stop
  rw [mmapTop_eq] at hlt hstop ⊢
  have hsum : (r.stop : Int) = r.addr + r.length :=
    uadd_of_lt (a := r.addr) hpos.le (by rw [uintSize_eq]; omega)
  omega

theorem MmapRegion.Good.page_base (h : r.Good) (hv : v ∈ r.pages) : mmapBase / pgsize ≤ v := by
  have hlo := ((r.mem_pages h.aligned).mp hv).1
  have hbase := h.base
  rw [mmapBase_eq] at hbase ⊢
  rw [pgsize_eq] at hlo ⊢
  omega

/-- The page of an address of a region. -/
theorem MmapRegion.Good.page_mem (h : r.Good) {a : Nat} (hlo : r.addr ≤ a) (hhi : a < r.stop) :
    a / pgsize ∈ r.pages := by
  have hal := h.aligned
  refine (r.mem_pages hal).mpr ⟨?_, ?_⟩
  · rw [pgsize_eq] at hal ⊢
    omega
  · rw [pgsize_eq]
    omega

end

/-! ## Tables -/

/-- The number of used slots. -/
def usedSlots (mmap : Nat → MmapRegion) : Nat :=
  Count.refs (Finset.range maxMmaps) mmap MmapRegion.used

/-- The number of present pages of a region. -/
def MmapRegion.presentPages (r : MmapRegion) (present : Nat → Bool) : Nat :=
  (r.pages.filter present).length

section

variable {pr : Proc} {i : Nat}

theorem addRegion_self (pr : Proc) (i : Nat) (addr length flags fd : Word) :
    (pr.addRegion i addr length flags fd).mmap i =
      { pr.mmap i with addr := addr.toNat, length := length.toInt, flags := flags
                       fd := fd.toInt, used := true } := update_self ..

theorem addRegion_ne (pr : Proc) (addr length flags fd : Word) {j : Nat} (h : j ≠ i) :
    (pr.addRegion i addr length flags fd).mmap j = pr.mmap j := update_of_ne h ..

theorem dropRegion_self (pr : Proc) (i : Nat) : (pr.dropRegion i).mmap i =
    { pr.mmap i with used := false, nLoadedPages := 0 } := update_self ..

theorem dropRegion_ne (pr : Proc) {j : Nat} (h : j ≠ i) : (pr.dropRegion i).mmap j = pr.mmap j :=
  update_of_ne h ..

section

variable (h : pr.totalMmaps = usedSlots pr.mmap) (hi : i < maxMmaps)
include h hi

theorem addRegion_total
    (hfree : (pr.mmap i).used = false) :
    (pr.addRegion i addr length flags fd).totalMmaps =
      usedSlots (pr.addRegion i addr length flags fd).mmap := by
  have hgain : usedSlots (pr.addRegion i addr length flags fd).mmap = usedSlots pr.mmap + 1 :=
    Count.refs_gain (Finset.mem_range.mpr hi) (fun _ _ hj => addRegion_ne pr _ _ _ _ hj) hfree
      (by rw [addRegion_self])
  rw [show (pr.addRegion i addr length flags fd).totalMmaps = pr.totalMmaps + 1 from rfl, h, hgain]
  push_cast
  rfl

theorem dropRegion_total
    (hused : (pr.mmap i).used = true) :
    (pr.dropRegion i).totalMmaps = usedSlots (pr.dropRegion i).mmap := by
  have hlose : usedSlots (pr.dropRegion i).mmap + 1 = usedSlots pr.mmap :=
    Count.refs_lose (Finset.mem_range.mpr hi) (fun _ _ hj => dropRegion_ne pr hj) hused
      (by rw [dropRegion_self])
  rw [show (pr.dropRegion i).totalMmaps = pr.totalMmaps - 1 from rfl, h]
  omega

end

end

/-- The table of mappings of a process and its present pages agree. -/
structure Kept (pr : Proc) (present : Nat → Bool) : Prop where
  total : pr.totalMmaps = usedSlots pr.mmap
  good : ∀ i < maxMmaps, (pr.mmap i).used = true → (pr.mmap i).Good
  apart : ∀ i < maxMmaps, ∀ j < maxMmaps, i ≠ j → (pr.mmap i).used = true →
    (pr.mmap j).used = true → ∀ v ∈ (pr.mmap i).pages, v ∉ (pr.mmap j).pages
  covered : ∀ v, mmapBase / pgsize ≤ v → v < userPages → present v = true →
    ∃ i < maxMmaps, (pr.mmap i).used = true ∧ v ∈ (pr.mmap i).pages
  loaded : ∀ i < maxMmaps, (pr.mmap i).nLoadedPages =
    if (pr.mmap i).used then (pr.mmap i).presentPages present else 0

theorem presentPages_congr {r : MmapRegion} {present present' : Nat → Bool}
    (h : ∀ v ∈ r.pages, present' v = present v) :
    r.presentPages present' = r.presentPages present := by
  unfold MmapRegion.presentPages
  rw [List.filter_congr h]

section

variable {pr pr' : Proc} {present present' : Nat → Bool} {i : Nat}

/-- A table without a used slot. -/
theorem Kept.empty (hmmap : ∀ i < maxMmaps, pr.mmap i = .zero) (htotal : pr.totalMmaps = 0)
    (hpres : ∀ v, mmapBase / pgsize ≤ v → v < userPages → present v = false) :
    Kept pr present := by
  have hno : ∀ i < maxMmaps, (pr.mmap i).used = false := fun i hi => by rw [hmmap i hi]; rfl
  have hnot : ∀ {P : Prop} {i : Nat}, i < maxMmaps → (pr.mmap i).used = true → P := by
    intro P i hi hused
    rw [hno i hi] at hused
    cases hused
  refine ⟨?_, fun i hi hu => hnot hi hu, fun i hi _ _ _ hu => hnot hi hu, ?_, ?_⟩
  · rw [htotal, usedSlots, Count.refs_eq_zero.mpr fun i hi => hno i (Finset.mem_range.mp hi)]
    rfl
  · intro v hlo hhi hp
    rw [hpres v hlo hhi] at hp
    cases hp
  · intro i hi
    rw [hmmap i hi]
    rfl

/-! ### A region is added -/

theorem wmapSlot_good {mmap : Nat → MmapRegion} (h : wmapSlot mmap addr length flags = some i)
    (r : MmapRegion) :
    { r with addr := addr.toNat, length := length.toInt }.Good ∧
      ∀ j < maxMmaps, (mmap j).used = true → (mmap j).stop ≤ addr.toNat ∨
        uadd addr.toNat length.toInt ≤ (mmap j).addr := by
  unfold wmapSlot at h
  split at h
  next hc =>
    obtain ⟨hpos, hal, -, -, hck⟩ := hc
    obtain ⟨-, -, hbase, htop, hov⟩ := checkFixed_eq.mp hck
    refine ⟨⟨hpos, toInt_lt length, toNat_lt_uintSize addr, hal, hbase, htop⟩, fun j hj hu => ?_⟩
    have := hov j hj hu
    simp only [MmapRegion.overlaps, Bool.and_eq_false_iff, decide_eq_false_iff_not, not_lt] at this
    exact this
  next => cases h

/-- Two regions of which one ends before the other starts share no page. -/
theorem MmapRegion.pages_disjoint {r r' : MmapRegion} (hal : r.addr % pgsize = 0)
    (hal' : r'.addr % pgsize = 0) (h : r'.stop ≤ r.addr ∨ r.stop ≤ r'.addr) :
    ∀ v ∈ r.pages, v ∉ r'.pages := by
  intro v hv hv'
  have h1 := (r.mem_pages hal).mp hv
  have h2 := (r'.mem_pages hal').mp hv'
  omega

theorem Kept.addRegion (h : Kept pr present) (hslot : wmapSlot pr.mmap addr length flags = some i) :
    Kept (pr.addRegion i addr length flags fd) present := by
  obtain ⟨hi, hfree⟩ := wmapSlot_spec hslot
  obtain ⟨hgood, hov⟩ := wmapSlot_good hslot
    { pr.mmap i with flags := flags, fd := fd.toInt, used := true }
  have hself := addRegion_self pr i addr length flags fd
  have hne : ∀ {j}, j ≠ i → (pr.addRegion i addr length flags fd).mmap j = pr.mmap j :=
    fun hj => addRegion_ne pr _ _ _ _ hj
  have htotal : (pr.addRegion i addr length flags fd).totalMmaps = _ :=
    addRegion_total h.total hi hfree
  have hused : ((pr.addRegion i addr length flags fd).mmap i).used = true := by rw [hself]
  have hload : ((pr.addRegion i addr length flags fd).mmap i).nLoadedPages = 0 := by
    rw [hself]
    exact (h.loaded i hi).trans (by rw [hfree]; rfl)
  rw [← hself] at hgood
  -- the new region against an old one
  have hdisj : ∀ j < maxMmaps, (pr.mmap j).used = true →
      ∀ v ∈ ((pr.addRegion i addr length flags fd).mmap i).pages, v ∉ (pr.mmap j).pages := by
    intro j hj hu
    refine MmapRegion.pages_disjoint hgood.aligned (h.good j hj hu).aligned ?_
    rw [hself]
    exact hov j hj hu
  have hu : ∀ j, j ≠ i → ((pr.addRegion i addr length flags fd).mmap j).used = true →
      (pr.mmap j).used = true := fun j hj hu => by rwa [hne hj] at hu
  generalize pr.addRegion i addr length flags fd = pr' at *
  refine ⟨?_, ?_, ?_, ?_, ?_⟩
  · exact htotal
  · intro j hj hju
    by_cases hji : j = i
    · rw [hji]
      exact hgood
    · rw [hne hji]
      exact h.good j hj (hu j hji hju)
  · intro j hj k hk hjk hju hku
    by_cases hji : j = i
    · have hki : k ≠ i := fun hki => hjk (hji.trans hki.symm)
      rw [hji, hne hki]
      exact hdisj k hk (hu k hki hku)
    · by_cases hki : k = i
      · rw [hki, hne hji]
        exact fun v hv hv' => hdisj j hj (hu j hji hju) v hv' hv
      · rw [hne hji, hne hki]
        exact h.apart j hj k hk hjk (hu j hji hju) (hu k hki hku)
  · intro v hlo hhi hp
    obtain ⟨j, hj, hju, hv⟩ := h.covered v hlo hhi hp
    have hji : j ≠ i := by
      rintro rfl
      rw [hfree] at hju
      cases hju
    exact ⟨j, hj, by rw [hne hji]; exact hju, by rw [hne hji]; exact hv⟩
  · intro j hj
    by_cases hji : j = i
    · -- no page of the range is present outside the old regions
      have hnone : (pr'.mmap i).presentPages present = 0 := by
        rw [MmapRegion.presentPages, List.length_eq_zero_iff, List.filter_eq_nil_iff]
        intro v hv hp
        obtain ⟨k, hk, hku, hkv⟩ := h.covered v (hgood.page_base hv) (hgood.ok.lt_userPages hv) hp
        exact hdisj k hk hku v hv hkv
      rw [hji, hload, hused, hnone]
      rfl
    · rw [hne hji]
      exact h.loaded j hj

/-! ### A region is dropped -/

theorem Kept.dropRegion (h : Kept pr present) (hi : i < maxMmaps)
    (hused : (pr.mmap i).used = true)
    (hout : ∀ v < userPages, v ∉ (pr.mmap i).pages → present' v = present v)
    (hin : ∀ v ∈ (pr.mmap i).pages, present' v = false) : Kept (pr.dropRegion i) present' := by
  have hself := dropRegion_self pr i
  have hne : ∀ {j}, j ≠ i → (pr.dropRegion i).mmap j = pr.mmap j := fun hj => dropRegion_ne pr hj
  have hfree : ((pr.dropRegion i).mmap i).used = false := by rw [hself]
  have hload : ((pr.dropRegion i).mmap i).nLoadedPages = 0 := by rw [hself]
  have htotal := dropRegion_total h.total hi hused
  have hother : ∀ j, ((pr.dropRegion i).mmap j).used = true → j ≠ i := by
    rintro j hju rfl
    rw [hfree] at hju
    cases hju
  generalize pr.dropRegion i = pr' at *
  refine ⟨?_, ?_, ?_, ?_, ?_⟩
  · exact htotal
  · intro j hj hju
    have hji := hother j hju
    rw [hne hji] at hju ⊢
    exact h.good j hj hju
  · intro j hj k hk hjk hju hku
    have hji := hother j hju
    have hki := hother k hku
    rw [hne hji] at hju ⊢
    rw [hne hki] at hku ⊢
    exact h.apart j hj k hk hjk hju hku
  · intro v hlo hhi hp
    have hv : v ∉ (pr.mmap i).pages := by
      intro hv
      rw [hin v hv] at hp
      cases hp
    obtain ⟨j, hj, hju, hjv⟩ := h.covered v hlo hhi (by rw [← hout v hhi hv]; exact hp)
    have hji : j ≠ i := by
      rintro rfl
      exact hv hjv
    exact ⟨j, hj, by rw [hne hji]; exact hju, by rw [hne hji]; exact hjv⟩
  · intro j hj
    by_cases hji : j = i
    · rw [hji, hload, hfree]
      rfl
    · rw [hne hji, h.loaded j hj]
      split
      next hju =>
        rw [presentPages_congr fun v hv => hout v ((h.good j hj hju).ok.lt_userPages hv) fun hv' =>
          h.apart j hj i hi hji hju hused v hv hv']
      next => rfl

/-! ### A page is loaded -/

theorem length_filter_add {l : List Nat} (hnodup : l.Nodup) {v : Nat} (hv : v ∈ l)
    (hold : present v = false) (hnew : present' v = true)
    (hrest : ∀ u ∈ l, u ≠ v → present' u = present u) :
    (l.filter present').length = (l.filter present).length + 1 := by
  induction l with
  | nil => cases hv
  | cons u l ih =>
    obtain ⟨hu, hnodup'⟩ := List.nodup_cons.mp hnodup
    by_cases huv : u = v
    · subst huv
      rw [List.filter_cons_of_pos hnew, List.filter_cons_of_neg (by rw [hold]; decide),
        List.length_cons, List.filter_congr fun w hw =>
          hrest w (List.mem_cons_of_mem _ hw) fun h => hu (h ▸ hw)]
    · have hin : v ∈ l := (List.mem_cons.mp hv).resolve_left fun h => huv h.symm
      have := ih hnodup' hin fun w hw => hrest w (List.mem_cons_of_mem _ hw)
      have hsame := hrest u List.mem_cons_self huv
      cases hp : present u with
      | true =>
        rw [List.filter_cons_of_pos (by rw [hsame, hp]), List.filter_cons_of_pos hp,
          List.length_cons, List.length_cons, this]
      | false =>
        rw [List.filter_cons_of_neg (by rw [hsame, hp]; decide),
          List.filter_cons_of_neg (by rw [hp]; decide), this]

theorem Kept.load (h : Kept pr present) (hi : i < maxMmaps) (hused : (pr.mmap i).used = true)
    {v : Nat} (hv : v ∈ (pr.mmap i).pages) (hold : present v = false) (hnew : present' v = true)
    (hrest : ∀ u < userPages, u ≠ v → present' u = present u) :
    Kept (pr.setMmap i fun r => { r with nLoadedPages := r.nLoadedPages + 1 }) present' := by
  have hself : (pr.setMmap i fun r => { r with nLoadedPages := r.nLoadedPages + 1 }).mmap i =
      { pr.mmap i with nLoadedPages := (pr.mmap i).nLoadedPages + 1 } := update_self ..
  have hne : ∀ {j}, j ≠ i →
      (pr.setMmap i fun r => { r with nLoadedPages := r.nLoadedPages + 1 }).mmap j = pr.mmap j :=
    fun hj => update_of_ne hj ..
  have htotal : (pr.setMmap i fun r => { r with nLoadedPages := r.nLoadedPages + 1 }).totalMmaps =
    pr.totalMmaps := rfl
  generalize (pr.setMmap i fun r => { r with nLoadedPages := r.nLoadedPages + 1 }) = pr' at *
  -- only the counter of the slot changes
  have hu : ∀ j, (pr'.mmap j).used = (pr.mmap j).used := by
    intro j
    by_cases hji : j = i
    · rw [hji, hself]
    · rw [hne hji]
  have hpages : ∀ j, (pr'.mmap j).pages = (pr.mmap j).pages := by
    intro j
    by_cases hji : j = i
    · rw [hji, hself]
      rfl
    · rw [hne hji]
  refine ⟨?_, ?_, ?_, ?_, ?_⟩
  · rw [htotal, h.total, usedSlots, usedSlots, Count.refs_congr fun j _ => (hu j).symm]
  · intro j hj hju
    rw [hu] at hju
    have hg := h.good j hj hju
    by_cases hji : j = i
    · subst hji
      rw [hself]
      exact ⟨hg.pos, hg.length, hg.addr, hg.aligned, hg.base, hg.stop⟩
    · rw [hne hji]
      exact hg
  · intro j hj k hk hjk hju hku
    rw [hu] at hju hku
    rw [hpages, hpages]
    exact h.apart j hj k hk hjk hju hku
  · intro u hlo hhi hp
    by_cases huv : u = v
    · exact ⟨i, hi, by rw [hu]; exact hused, by rw [hpages, huv]; exact hv⟩
    · obtain ⟨j, hj, hju, hjv⟩ := h.covered u hlo hhi (by rw [← hrest u hhi huv]; exact hp)
      exact ⟨j, hj, by rw [hu]; exact hju, by rw [hpages]; exact hjv⟩
  · intro j hj
    have hcount := h.loaded j hj
    rw [hu]
    unfold MmapRegion.presentPages at hcount ⊢
    rw [hpages]
    by_cases hji : j = i
    · subst hji
      rw [hused, if_pos rfl] at hcount ⊢
      rw [hself, length_filter_add MmapRegion.nodup_pages hv hold hnew fun u hu' =>
        hrest u ((h.good j hj hused).ok.lt_userPages hu')]
      dsimp only
      rw [hcount]
      push_cast
      rfl
    · rw [hne hji, hcount]
      split
      next hju =>
        rw [List.filter_congr fun u hu' =>
          (hrest u ((h.good j hj hju).ok.lt_userPages hu') ?_).symm]
        rintro rfl
        exact h.apart j hj i hi hji hju hused u hu' hv
      next => rfl

end

/-! ## One process -/

section

variable [Link] {s s' : Kernel} {A : Space} {x : Bool} {c p : Nat}

omit [Link] in
/-- What the process on a processor does, or what happens to it. -/
inductive MapEvent where
  | wmap (addr length flags fd : Word)
  | wunmap (addr : Word)
  | fault (va : Nat) (io : Option (List Byte))

def MapEvent.run (c : Nat) : MapEvent → K Unit
  | .wmap addr length flags fd => do
    let _ ← Xv6.wmap c addr length flags fd
    pure ()
  | .wunmap addr => do
    let _ ← sysWunmap c addr
    pure ()
  | .fault va io => trapPgflt c va io

omit [Link] in
/-- Mappings are anonymous, and faults are at addresses whose page is not present. -/
def MapEvent.Allowed (p : Nat) (s : Kernel) : MapEvent → Prop
  | .wmap _ _ flags _ => flag flags mapAnonymous = true
  | .wunmap _ => True
  | .fault va _ => va < uintSize ∧ s.mem.present (s.proc p).pgdir (va / pgsize) = false

/-- A step after which the process still runs. -/
def MapStep (c p : Nat) (s : Kernel) (e : MapEvent) (s' : Kernel) : Prop :=
  e.Allowed p s ∧ e.run c s = .ok ((), s') ∧ (s'.cpu c).proc = some p

/-- The directory of a process is in good order. -/
structure Paged (p : Nat) (s : Kernel) : Prop where
  mem : ∃ A x, Rep s.mem A ∧ Sane A x ∧ A.role (s.proc p).pgdir = .dir

/-- The invariant of the steps. -/
structure Mapping (c p : Nat) (s : Kernel) : Prop where
  cur : (s.cpu c).proc = some p
  paged : Paged p s
  kept : Kept (s.proc p) (s.mem.present (s.proc p).pgdir)

theorem Mapping.wmap (h : Mapping c p s) (hanon : flag flags mapAnonymous = true) :
    wp (Xv6.wmap c addr length flags fd) (fun _ s' => Mapping c p s') (fun _ => True) s := by
  rw [wp_wmap h.cur]
  cases hslot : wmapSlot (s.proc p).mmap addr length flags with
  | none => exact h
  | some i =>
    dsimp only
    rw [hanon, if_pos rfl]
    have hproc := s.setProc_self p fun pr => pr.addRegion i addr length flags fd
    obtain ⟨A, x, hrep, hs, hd⟩ := h.paged.mem
    refine ⟨h.cur, ⟨A, x, hrep, hs, ?_⟩, ?_⟩
    · rw [hproc]
      exact hd
    · rw [hproc]
      exact h.kept.addRegion hslot

theorem Mapping.wunmap {addr : Nat} (h : Mapping c p s) :
    wp (Xv6.wunmap c addr) (fun _ s' => Mapping c p s') (fun _ => True) s := by
  obtain ⟨A, x, hrep, hs, hd⟩ := h.paged.mem
  have hgood : ∀ {i}, findRegion (s.proc p).mmap addr = some i → ((s.proc p).mmap i).Good :=
    fun hf => h.kept.good _ (findRegion_spec hf).1 (findRegion_spec hf).2.1
  refine wp_post (hrep.wunmap hs.mapped h.cur hd fun i hf =>
    ⟨(hgood hf).ok, .inl trivial, .inl trivial⟩) ?_
  intro r s' hcase
  cases hf : findRegion (s.proc p).mmap addr with
  | none =>
    rw [hf] at hcase
    rw [hcase.2]
    exact h
  | some i =>
    rw [hf] at hcase
    obtain ⟨-, s1, h1, rfl⟩ := hcase
    obtain ⟨hi, hused, -, -⟩ := findRegion_spec hf
    have hlt : ∀ v ∈ ((s.proc p).mmap i).pages, v < userPages := fun v hv =>
      (hgood hf).ok.lt_userPages hv
    obtain ⟨-, hd1, hs1⟩ := hs.unmapAll hrep.wf hd hlt h1.nonZero
    have hproc1 : s1.proc = s.proc := by rw [h1.eq]
    have hcpu1 : s1.cpu = s.cpu := by rw [h1.eq]
    have hproc := s1.setProc_self p fun pr => pr.dropRegion i
    rw [hproc1] at hproc
    have hpres : ∀ v < userPages, s1.mem.present (s.proc p).pgdir v =
        flag ((A.unmapAll (s.proc p).pgdir ((s.proc p).mmap i).pages).pte (s.proc p).pgdir v)
          pteP := fun v hv => h1.rep.present hd1 (userPages_lt hv)
    refine ⟨?_, ⟨_, x, h1.rep, hs1, ?_⟩, ?_⟩
    · show (s1.cpu c).proc = some p
      rw [hcpu1]
      exact h.cur
    · rw [hproc]
      exact hd1
    · rw [hproc]
      refine h.kept.dropRegion hi hused ?_ ?_
      · intro v hv hout
        refine (hpres v hv).trans ?_
        rw [Space.unmapAll_pte_ne A fun hn => hout hn.2, hrep.present hd (userPages_lt hv)]
      · intro v hin
        exact (hpres v (hlt v hin)).trans (Space.unmapAll_pte_mem A hin)

/-- A process that is killed leaves its processor. -/
theorem wp_killSelf_gone {Q : Kernel → Prop} (hcur : (s.cpu c).proc = some p) :
    wp (killSelf c p) (fun _ s' => (s'.cpu c).proc = some p → Q s') (fun _ => True) s := by
  unfold killSelf
  rw [wp_bind, wp_setProc]
  refine wp_post (wp_exit_dead (p := p) hcur) ?_
  rintro _ s1 ⟨-, hnone⟩ hsome
  rw [hnone] at hsome
  cases hsome

theorem Mapping.lazyAlloc {va i : Nat} {io : Option (List Byte)} (h : Mapping c p s)
    (hva : va < uintSize) (habs : s.mem.present (s.proc p).pgdir (va / pgsize) = false)
    (hf : findRegion (s.proc p).mmap va = some i) :
    wp (Xv6.lazyAlloc c p va i io)
      (fun _ s' => (s'.cpu c).proc = some p → Mapping c p s') (fun _ => True) s := by
  obtain ⟨A, x, hrep, hs, hd⟩ := h.paged.mem
  obtain ⟨hi, hused, hlo, hhi⟩ := findRegion_spec hf
  have hgood := h.kept.good i hi hused
  have hv := hgood.page_mem hlo hhi
  have hlt := hgood.ok.lt_userPages hv
  refine hrep.lazyAlloc hd hva (.inl trivial) (.inr (.inl ⟨trivial, trivial⟩)) ?_ ?_ ?_
  · intro m' A' _ _ _ _
    exact wp_killSelf_gone h.cur
  · intro f m' A' _ _ _ _ _
    exact wp_killSelf_gone h.cur
  · intro f m' A' hfill hrep' _ _ _ hcur'
    have hext := hfill.extends hrep.wf hlt perm_wu
    have hd' := hext.role_dir hd
    have hproc := s.loadedPage_proc p i m'
    have hpres : ∀ v < userPages, m'.present (s.proc p).pgdir v =
        flag (A'.pte (s.proc p).pgdir v) pteP := fun v hv => hrep'.present hd' (userPages_lt hv)
    refine ⟨hcur', ⟨A', x, hrep', hfill.sane hrep.wf hd hlt perm_wu hs, ?_⟩, ?_⟩
    · rw [hproc]
      exact hd'
    · rw [hproc]
      refine h.kept.load hi hused hv habs ?_ ?_
      · refine (hpres _ hlt).trans ?_
        rw [hfill.pte_self]
        exact flag_mkPte_pteP ..
      · intro u hu hne
        refine (hpres u hu).trans ?_
        rw [hext.pte _ u fun hn => hne hn.2, hrep.present hd (userPages_lt hu)]

theorem Mapping.trapPgflt {va : Nat} {io : Option (List Byte)} (h : Mapping c p s)
    (hva : va < uintSize) (habs : s.mem.present (s.proc p).pgdir (va / pgsize) = false) :
    wp (Xv6.trapPgflt c va io)
      (fun _ s' => (s'.cpu c).proc = some p → Mapping c p s') (fun _ => True) s := by
  obtain ⟨A, x, hrep, hs, hd⟩ := h.paged.mem
  refine hrep.trapPgflt_absent h.cur hd hva (by rw [← hrep.present hd (page_lt hva)]; exact habs) ?_
  unfold pagefaultDefault
  rw [wp_bind, wp_getProc]
  cases hf : findRegion (s.proc p).mmap va with
  | none => exact wp_killSelf_gone h.cur
  | some i => exact h.lazyAlloc hva habs hf

theorem Mapping.step {e : MapEvent} (h : Mapping c p s) (hstep : MapStep c p s e s') :
    Mapping c p s' := by
  obtain ⟨hok, hrun, hcur⟩ := hstep
  cases e with
  | wmap addr length flags fd =>
    refine wp_ok (Q := fun _ s' => Mapping c p s') (F := fun _ => True) ?_ hrun
    unfold MapEvent.run
    rw [wp_bind]
    exact wp_post (h.wmap hok) (fun _ _ h1 => (wp_pure ..).mpr h1)
  | wunmap addr =>
    refine wp_ok (Q := fun _ s' => Mapping c p s') (F := fun _ => True) ?_ hrun
    unfold MapEvent.run sysWunmap
    rw [wp_bind, wp_ite]
    split
    · exact (wp_pure ..).mpr ((wp_pure ..).mpr h)
    · exact wp_post h.wunmap (fun _ _ h1 => (wp_pure ..).mpr h1)
  | fault va io =>
    exact wp_ok (Q := fun _ s' => (s'.cpu c).proc = some p → Mapping c p s')
      (F := fun _ => True) (h.trapPgflt hok.1 hok.2) hrun hcur

omit [Link] in
/-- The bookkeeping of mappings, in the words of the table and the page tables. -/
structure Bookkept (p : Nat) (s : Kernel) : Prop where
  total : (s.proc p).totalMmaps = usedSlots (s.proc p).mmap
  inside : ∀ i < maxMmaps, ((s.proc p).mmap i).used = true → ((s.proc p).mmap i).addr < mmapTop →
    mmapBase ≤ ((s.proc p).mmap i).addr ∧
      ((s.proc p).mmap i).addr + ((s.proc p).mmap i).length ≤ mmapTop
  apart : ∀ i < maxMmaps, ∀ j < maxMmaps, i ≠ j → ((s.proc p).mmap i).used = true →
    ((s.proc p).mmap j).used = true → ∀ v ∈ ((s.proc p).mmap i).pages, v ∉ ((s.proc p).mmap j).pages
  covered : ∀ v, mmapBase ≤ v * pgsize → v * pgsize < mmapTop →
    s.mem.present (s.proc p).pgdir v = true →
    ∃ i < maxMmaps, ((s.proc p).mmap i).used = true ∧ v ∈ ((s.proc p).mmap i).pages
  loaded : ∀ i < maxMmaps, ((s.proc p).mmap i).used = true →
    ((s.proc p).mmap i).nLoadedPages =
      ((s.proc p).mmap i).presentPages (s.mem.present (s.proc p).pgdir)

theorem Mapping.bookkept (h : Mapping c p s) : Bookkept p s where
  total := h.kept.total
  inside i hi hused hlt := ⟨(h.kept.good i hi hused).base, (h.kept.good i hi hused).inside hlt⟩
  apart := h.kept.apart
  covered := by
    intro v hlo hhi hp
    refine h.kept.covered v ?_ ?_ hp
    · rw [mmapBase_eq] at hlo ⊢
      rw [pgsize_eq] at hlo ⊢
      omega
    · rw [mmapTop_eq, pgsize_eq] at hhi
      rw [userPages_eq]
      omega
  loaded i hi hused := by rw [h.kept.loaded i hi, if_pos hused]

/-- A process that starts with an empty table and no page in the range for mappings
keeps its books in every run of anonymous `wmap`s, `wunmap`s and faults on pages that
are not present, for as long as it is not killed. -/
theorem mapping_bookkept {s0 : Kernel} {es : List MapEvent} (hcur : (s0.cpu c).proc = some p)
    (hpaged : Paged p s0) (hmmap : ∀ i < maxMmaps, (s0.proc p).mmap i = .zero)
    (htotal : (s0.proc p).totalMmaps = 0)
    (hempty : ∀ v, mmapBase ≤ v * pgsize → v * pgsize < mmapTop →
      s0.mem.present (s0.proc p).pgdir v = false)
    (hrun : Trace.Run (MapStep c p) s0 es s) : Bookkept p s := by
  have h0 : Mapping c p s0 := by
    refine ⟨hcur, hpaged, Kept.empty hmmap htotal fun v hlo hhi => hempty v ?_ ?_⟩
    · rw [mmapBase_eq, pgsize_eq] at hlo
      rw [mmapBase_eq, pgsize_eq]
      omega
    · rw [userPages_eq] at hhi
      rw [mmapTop_eq, pgsize_eq]
      omega
  exact (hrun.invariant h0 fun _ _ _ h hs => h.step hs).bookkept

end

/-! ### A run -/

/-- The first process, after it was picked, has nothing mapped. -/
theorem Booted.paged [Link] {s : Kernel} {A : Space} {d f g : Nat} (h : Booted s A d f g) :
    Paged 0 (s.dispatch 0 0) ∧ ∀ v, mmapBase ≤ v * pgsize → v * pgsize < mmapTop →
      (s.dispatch 0 0).mem.present ((s.dispatch 0 0).proc 0).pgdir v = false := by
  rw [show ((s.dispatch 0 0).proc 0).pgdir = d by rw [h.dispatched]]
  refine ⟨⟨A, true, h.rep, h.sane true, by rw [h.dispatched]; exact h.dir⟩, fun v hlo hhi => ?_⟩
  rw [mmapBase_eq, pgsize_eq] at hlo
  rw [mmapTop_eq, pgsize_eq] at hhi
  have hv : v < userPages := by rw [userPages_eq]; omega
  rw [show (s.dispatch 0 0).mem = s.mem from rfl, h.rep.present h.dir (userPages_lt hv),
    h.rest v hv (by omega)]
  exact flag_zero _

/-- The first process maps two pages and touches the second: its books are kept, with
one page loaded. -/
theorem mapping_bookkept_first : ∃ s0 s es, @Boot sampleLink 2 s0 ∧
    Trace.Run (@MapStep sampleLink 0 0) (s0.dispatch 0 0) es s ∧ Bookkept 0 s ∧
    ((s.proc 0).mmap 0).nLoadedPages = 1 := by
  let : Link := sampleLink
  obtain ⟨s0, A, d, f, g, hboot, hb⟩ := sample_boot
  obtain ⟨hpaged, hempty⟩ := hb.paged
  have hcur := (at_dispatch s0 0 0).cur
  have hproc := hb.dispatched
  -- the two steps
  obtain ⟨_, s1, hrun1, hs1⟩ := wp_total (x := MapEvent.run 0
      (.wmap 0x60000000#32 0x2000#32 (mapShared ||| mapAnonymous ||| mapFixed) 0#32))
    (Q := fun _ s1 => s1 = (s0.dispatch 0 0).setProc 0 fun pr => pr.addRegion 0 0x60000000#32
      0x2000#32 (mapShared ||| mapAnonymous ||| mapFixed) 0#32) (s := s0.dispatch 0 0) (by
    unfold MapEvent.run
    rw [wp_bind, wp_wmap hcur, hproc]
    exact (wp_pure ..).mpr rfl)
  have hproc1 : s1.proc 0 = ((s0.dispatch 0 0).proc 0).addRegion 0 0x60000000#32
      0x2000#32 (mapShared ||| mapAnonymous ||| mapFixed) 0#32 := by
    rw [hs1, Kernel.setProc_self]
  rw [hproc] at hproc1
  have hdir1 : (s1.proc 0).pgdir = d := by rw [hproc1]; rfl
  have hmmap1 : (s1.proc 0).mmap = Function.update (fun _ => .zero) 0
      ⟨0x60000000, 0x2000, mapShared ||| mapAnonymous ||| mapFixed, true, 0, 0⟩ := by
    rw [hproc1]
    rfl
  have hcur1 : (s1.cpu 0).proc = some 0 := by rw [hs1]; exact hcur
  have hrep1 : Rep s1.mem A := by rw [hs1]; exact hb.rep
  have habs1 : flag (A.pte d (0x60001000 / pgsize)) pteP = false := by
    rw [hb.rest _ (by decide) (by decide)]
    exact flag_zero _
  obtain ⟨_, s2, hrun2, hcur2, hload2⟩ := wp_total (x := MapEvent.run 0 (.fault 0x60001000 none))
    (Q := fun _ s2 => (s2.cpu 0).proc = some 0 ∧ ((s2.proc 0).mmap 0).nLoadedPages = 1) (s := s1) (by
    refine hrep1.trapPgflt_absent hcur1 (by rw [hdir1]; exact hb.dir) (by decide)
      (by rw [hdir1]; exact habs1) ?_
    unfold pagefaultDefault
    rw [wp_bind, wp_getProc, show findRegion (s1.proc 0).mmap 0x60001000 = some 0 by
      rw [hmmap1]; decide]
    refine hrep1.lazyAlloc (by rw [hdir1]; exact hb.dir) (by decide)
      (.inr (by rw [hdir1]; exact habs1)) (.inl (by rw [hmmap1]; decide)) ?_ ?_ ?_
    · intro _ _ _ _ hshort _
      have := hb.free
      have := hshort.length_le
      omega
    · intro _ _ _ hanon
      rw [hmmap1] at hanon
      exact absurd hanon (by decide)
    · intro f' m' A' _ _ _ _ _
      refine ⟨hcur1, ?_⟩
      rw [s1.loadedPage_mmap, hmmap1]
      rfl)
  have hpres1 : s1.mem.present (s1.proc 0).pgdir (0x60001000 / pgsize) = false := by
    rw [hdir1, hrep1.present hb.dir (by decide)]
    exact habs1
  have hstep1 : MapStep 0 0 (s0.dispatch 0 0) (.wmap 0x60000000#32 0x2000#32
      (mapShared ||| mapAnonymous ||| mapFixed) 0#32) s1 :=
    ⟨(by decide : flag (mapShared ||| mapAnonymous ||| mapFixed) mapAnonymous = true), hrun1, hcur1⟩
  have hstep2 : MapStep 0 0 s1 (.fault 0x60001000 none) s2 :=
    ⟨⟨by decide, hpres1⟩, hrun2, hcur2⟩
  have hrun : Trace.Run (MapStep 0 0) (s0.dispatch 0 0) _ s2 := .snoc (.single hstep1) hstep2
  refine ⟨s0, s2, _, hboot, hrun, mapping_bookkept hcur hpaged ?_ ?_ hempty hrun, hload2⟩
  · intro i _
    rw [hproc]
    rfl
  · rw [hproc]
    rfl

end Xv6
