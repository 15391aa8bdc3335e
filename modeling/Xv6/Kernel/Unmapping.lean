import Xv6.Kernel.Growing

/-!
# `wunmap`

`wunmap` looks for a region that holds the address, not for one that starts there.  On the
start of a region it does what its description says: the pages of the region are unmapped
and no others, the slot is free and the table counts one less.  On any other address of a
region it does the same and reports success.
-/

namespace Xv6

open Prog

/-! ## Regions in range -/

/-- A region is not empty and lies in the range for mappings. -/
structure MmapRegion.Within (r : MmapRegion) : Prop where
  lo : mmapBase ≤ r.addr
  pos : 0 < r.length
  hi : r.addr + r.length ≤ mmapTop

/-- The region reaches into page `v`. -/
def MmapRegion.Touches (r : MmapRegion) (v : Nat) : Prop :=
  r.addr < (v + 1) * pgsize ∧ (v * pgsize : Nat) < r.addr + r.length

/-- The used regions lie in the range for mappings and no two reach into one page. -/
structure Apart (mmap : Nat → MmapRegion) : Prop where
  within : ∀ i < maxMmaps, (mmap i).used = true → (mmap i).Within
  disjoint : ∀ i < maxMmaps, ∀ j < maxMmaps, (mmap i).used = true → (mmap j).used = true →
    ∀ v, (mmap i).Touches v → (mmap j).Touches v → i = j

variable {r : MmapRegion} {mmap : Nat → MmapRegion} {a i j v c p : Nat} {s s' : Kernel}

theorem MmapRegion.Within.stop (h : r.Within) : (r.stop : Int) = r.addr + r.length := by
  obtain ⟨k, hk⟩ : ∃ k : Nat, (r.addr : Int) + r.length = k :=
    ⟨(r.addr + r.length).toNat, by have := h.pos; omega⟩
  have hhi := h.hi
  rw [mmapTop_eq] at hhi
  rw [MmapRegion.stop, uadd_of_nonneg hk (by rw [uintSize_eq]; omega), hk]

theorem MmapRegion.Within.mem_touched (h : r.Within) : v ∈ r.touched ↔ r.Touches v := by
  have hstop := h.stop
  have hpos := h.pos
  have hpg := pgsize_eq
  unfold MmapRegion.touched MmapRegion.Touches
  rw [List.mem_range'_1, npages, pgrounddown, hpg]
  omega

theorem MmapRegion.Within.lt_userPages (h : r.Within) (hv : r.Touches v) : v < userPages := by
  have hhi := h.hi
  have hlt := hv.2
  rw [mmapTop_eq] at hhi
  rw [pgsize_eq] at hlt
  rw [userPages_eq]
  omega

/-- Two regions that hold one address are one. -/
theorem Apart.unique (h : Apart mmap) (hi : i < maxMmaps) (hj : j < maxMmaps)
    (hui : (mmap i).used = true) (huj : (mmap j).used = true)
    (hia : (mmap i).addr ≤ a ∧ a < (mmap i).stop) (hja : (mmap j).addr ≤ a ∧ a < (mmap j).stop) :
    i = j := by
  have hsi := (h.within i hi hui).stop
  have hsj := (h.within j hj huj).stop
  have hpg := pgsize_eq
  refine h.disjoint i hi j hj hui huj (a / pgsize) ⟨?_, ?_⟩ ⟨?_, ?_⟩ <;> rw [hpg] <;> omega

theorem findRegion_none (h : findRegion mmap a = none) (hi : i < maxMmaps)
    (hu : (mmap i).used = true) (hlo : (mmap i).addr ≤ a) : (mmap i).stop ≤ a := by
  have hno := List.find?_eq_none.mp h i (List.mem_range.mpr hi)
  simp only [MmapRegion.holds, Bool.and_eq_true, decide_eq_true_eq] at hno
  by_contra hc
  exact hno ⟨⟨hu, hlo⟩, by omega⟩

/-! ## The call -/

/-- The region in slot `i` is gone, and nothing else. -/
structure Dropped (p i : Nat) (s s' : Kernel) : Prop where
  slot : ((s'.proc p).mmap i).used = false
  others : ∀ j ≠ i, (s'.proc p).mmap j = (s.proc p).mmap j
  total : (s'.proc p).totalMmaps = (s.proc p).totalMmaps - 1
  gone : ∀ v, ((s.proc p).mmap i).Touches v →
    flag (s'.mem.entry (s.proc p).pgdir v) pteP = false
  rest : ∀ v < npdentries * npdentries, ¬ ((s.proc p).mmap i).Touches v →
    s'.mem.entry (s.proc p).pgdir v = s.mem.entry (s.proc p).pgdir v

/-- The call succeeds on the start of a used region, which it removes, and fails without a
trace on every other address. -/
def Unmaps (p a : Nat) (s : Kernel) (r : Int) (s' : Kernel) : Prop :=
  (∃ i < maxMmaps, ((s.proc p).mmap i).used = true ∧ ((s.proc p).mmap i).addr = a ∧
    r = success ∧ Dropped p i s s') ∨
  (∀ i < maxMmaps, ((s.proc p).mmap i).used = true → ((s.proc p).mmap i).addr ≠ a) ∧
    r = failed ∧ s' = s

variable [Link] {A : Space} {x : Bool}

theorem Unmapped.dropped {s1 : Kernel} (h : Unmapped A p ((s.proc p).mmap i)
    ((s.proc p).mmap i).touched s s1) (hrep : Rep s.mem A) (hs : Sane A x)
    (hd : A.role (s.proc p).pgdir = .dir) (hw : ((s.proc p).mmap i).Within) :
    Dropped p i s (s1.setProc p fun pr => pr.dropRegion i) := by
  have hproc : (s1.setProc p fun pr => pr.dropRegion i).proc p = (s.proc p).dropRegion i := by
    rw [Kernel.setProc_self, h.eq]
  have hlt : ∀ u ∈ ((s.proc p).mmap i).touched, u < userPages := fun u hu =>
    hw.lt_userPages (hw.mem_touched.mp hu)
  have hd' := hs.mapped.unmapAll_dir hrep.wf hd hlt hd
  refine ⟨?_, fun j hj => ?_, ?_, fun v hv => ?_, fun v hv hnot => ?_⟩
  · rw [hproc, dropRegion_self]
  · rw [hproc, dropRegion_ne _ hj]
  · rw [hproc]
    rfl
  · show flag (s1.mem.entry _ v) pteP = false
    rw [h.rep.entry hd' (userPages_lt (hw.lt_userPages hv))]
    exact A.unmapAll_pte_mem (hw.mem_touched.mpr hv)
  · show s1.mem.entry _ v = _
    rw [h.rep.entry hd' hv, hrep.entry hd hv]
    exact A.unmapAll_pte_ne fun hc => hnot (hw.mem_touched.mp hc.2)

/-- What the call needs of the pages that are present: a frame that can be freed and, with a
file, a descriptor in range. -/
def MmapRegion.Sound (r : MmapRegion) (m : Mem) (d : Nat) : Prop :=
  ∀ v, r.Touches v → m.present d v = true → frame (m.entry d v) ≠ 0 ∧ r.Fd

omit [Link] in
theorem twoPages_used (hu : (twoPages i).used = true) : i = 0 := by
  by_contra hi
  rw [twoPages, Function.update_of_ne hi] at hu
  cases hu

omit [Link] in
theorem apart_twoPages : Apart twoPages where
  within := fun i _ hu => by
    obtain rfl := twoPages_used hu
    exact ⟨by decide, by decide, by decide⟩
  disjoint := fun _ _ _ _ hi hj _ _ _ => (twoPages_used hi).trans (twoPages_used hj).symm

theorem Booted.absent {d f g : Nat} (h : Booted s A d f g) (hv : (twoPages 0).Touches v) :
    flag (A.pte d v) pteP = false := by
  have hw := apart_twoPages.within 0 (by decide) rfl
  have hlo := hv.1
  rw [h.rest v (hw.lt_userPages hv) fun h0 => by rw [h0] at hlo; exact absurd hlo (by decide)]
  exact flag_zero _

end Xv6
