import Xv6.Kernel.Cpus

/-!
# What `wmap` accepts

`wmap` makes all its checks before it changes anything, and takes the first free
slot if they pass.  `wmapSlot` is that slot, and `wp_wmap` says that the rest of
`wmap` fills it in.

The checks compute `addr + length` as a `uint`.  For a request that ends below
2^32 they are the exact ones, as long as the used regions are not empty
(`checkFixed_iff`).  The sum of a request that ends above is below `mmapTop`, so
its end is not checked at all (`wmap_legal_iff`).
-/

namespace Xv6

open Prog

variable {mmap : Nat → MmapRegion} {addr length flags : Word}

/-! ## The slot of an accepted request -/

/-- The slot that a request gets, if it passes the checks. -/
def wmapSlot (mmap : Nat → MmapRegion) (addr length flags : Word) : Option Nat :=
  if 0 < length.toInt ∧ addr.toNat % pgsize = 0 ∧ flag flags mapShared = true ∧
      flag flags mapFixed = true ∧ checkFixed mmap addr.toNat length.toInt = true
  then freeSlot mmap else none

/-- A slot filled in for a request. -/
def Proc.addRegion (pr : Proc) (i : Nat) (addr length flags fd : Word) : Proc :=
  { pr.setMmap i fun r =>
      { r with addr := addr.toNat, length := length.toInt, flags := flags
               fd := fd.toInt, used := true } with
    totalMmaps := pr.totalMmaps + 1 }

/-- A request passes all checks and fills a slot, or nothing changes. -/
theorem wp_wmap {c p : Nat} {fd : Word} {Q : Int → Kernel → Prop} {F : Fault → Prop} {s : Kernel}
    (hcur : (s.cpu c).proc = some p) :
    wp (wmap c addr length flags fd) Q F s ↔
      match wmapSlot (s.proc p).mmap addr length flags with
      | none => Q failed s
      | some i =>
        if flag flags mapAnonymous then
          Q addr.toNat (s.setProc p fun pr => pr.addRegion i addr length flags fd)
        else wp (wmapFile p i addr.toNat fd.toInt) Q F
          (s.setProc p fun pr => pr.addRegion i addr length flags fd) := by
  unfold wmap wmapSlot
  rw [wp_bind, wp_myproc, hcur]
  dsimp only
  by_cases hlen : length.toInt ≤ 0 ∨ addr.toNat % pgsize ≠ 0
  · rw [if_pos hlen, wp_pure, if_neg (by rintro ⟨h1, h2, -⟩; omega)]
  · rw [if_neg hlen]
    obtain ⟨hpos, hal⟩ : 0 < length.toInt ∧ addr.toNat % pgsize = 0 := by omega
    cases hsh : flag flags mapShared with
    | false => simp
    | true =>
      cases hfix : flag flags mapFixed with
      | false => simp
      | true =>
        simp only [Bool.not_true, Bool.false_eq_true, if_false]
        rw [wp_bind, wp_getProc]
        cases hck : checkFixed (s.proc p).mmap addr.toNat length.toInt with
        | false => simp
        | true =>
          simp only [Bool.not_true, Bool.false_eq_true, if_false, hpos, hal, and_self, if_true]
          cases freeSlot (s.proc p).mmap with
          | none => exact wp_pure ..
          | some i =>
            dsimp only
            rw [wp_bind, wp_setProc]
            cases flag flags mapAnonymous with
            | true => exact wp_pure ..
            | false => exact Iff.rfl

theorem freeSlot_spec {i : Nat} (h : freeSlot mmap = some i) :
    i < maxMmaps ∧ (mmap i).used = false := by
  unfold freeSlot at h
  exact ⟨List.mem_range.mp (List.mem_of_find?_eq_some h), by simpa using List.find?_some h⟩

theorem freeSlot_isSome :
    (freeSlot mmap).isSome = true ↔ ∃ i < maxMmaps, (mmap i).used = false := by
  unfold freeSlot
  rw [List.find?_isSome]
  simp

/-! ## The exact checks -/

/-- A request in exact integers: aligned, fixed and shared, inside the range for
mappings, apart from every used region, with a slot free. -/
structure Legal (mmap : Nat → MmapRegion) (addr length flags : Word) : Prop where
  pos : 0 < length.toInt
  aligned : addr.toNat % pgsize = 0
  shared : flag flags mapShared = true
  fixed : flag flags mapFixed = true
  base : mmapBase ≤ addr.toNat
  top : addr.toNat + length.toInt ≤ mmapTop
  apart : ∀ i < maxMmaps, (mmap i).used = true → ∀ a : Int,
    addr.toNat ≤ a → a < addr.toNat + length.toInt →
      ¬ ((mmap i).addr ≤ a ∧ a < (mmap i).addr + (mmap i).length)
  slot : ∃ i < maxMmaps, (mmap i).used = false

/-- A region holds a `uint` and an `int`, and is not empty while it is used. -/
structure MmapRegion.Fits (r : MmapRegion) : Prop where
  addr : r.addr < uintSize
  length : r.length < 2 ^ 31
  used : r.used = true → 0 < r.length

theorem uadd_of_lt {a : Nat} {n : Int} (hn : 0 ≤ n) (h : a + n < uintSize) :
    (uadd a n : Int) = a + n := by
  unfold uadd
  rw [Int.emod_eq_of_lt (by omega) h]
  omega

theorem uadd_of_wrap {a : Nat} {n : Int} (ha : a < uintSize) (hn : n < 2 ^ 31)
    (h : uintSize ≤ a + n) : (uadd a n : Int) = a + n - uintSize := by
  unfold uadd
  unfold uintSize at *
  omega

/-- Whether a request reaches 2^32. -/
def Wraps (addr length : Word) : Prop := (uintSize : Int) ≤ addr.toNat + length.toInt

theorem toInt_lt (w : Word) : w.toInt < 2 ^ 31 := BitVec.toInt_lt

theorem toNat_lt_uintSize (w : Word) : w.toNat < uintSize := w.isLt

/-- Below the range's end the `uint` test for overlap is the exact one. -/
theorem overlaps_iff {r : MmapRegion} (hr : r.Fits) (hused : r.used = true) {addr : Nat}
    {length : Int} (hpos : 0 < length) (htop : addr + length ≤ mmapTop) :
    r.overlaps addr length = false ↔
      ∀ a : Int, addr ≤ a → a < addr + length → ¬ (r.addr ≤ a ∧ a < r.addr + r.length) := by
  have hu : (uadd addr length : Int) = addr + length :=
    uadd_of_lt hpos.le (by rw [mmapTop_eq] at htop; unfold uintSize; omega)
  have hrpos := hr.used hused
  have hrlen := hr.length
  unfold MmapRegion.overlaps
  by_cases hlo : r.addr < addr + length
  · have hstop : (r.stop : Int) = r.addr + r.length :=
      uadd_of_lt hrpos.le (by rw [mmapTop_eq] at htop; unfold uintSize; omega)
    rw [Bool.and_eq_false_iff, decide_eq_false_iff_not, decide_eq_false_iff_not]
    constructor
    · rintro h a h1 h2 ⟨h3, h4⟩
      omega
    · intro h
      refine .inl fun hlt => ?_
      rcases Nat.lt_or_ge r.addr addr with hra | hra
      · exact h addr (by omega) (by omega) ⟨by omega, by omega⟩
      · exact h r.addr (by omega) (by omega) ⟨by omega, by omega⟩
  · refine iff_of_true ?_ ?_
    · rw [Bool.and_eq_false_iff, decide_eq_false_iff_not, decide_eq_false_iff_not]
      omega
    · rintro a - h2 ⟨h3, -⟩
      omega

theorem checkFixed_eq {addr : Nat} {length : Int} :
    checkFixed mmap addr length = true ↔ addr ≠ 0 ∧ addr % pgsize = 0 ∧ mmapBase ≤ addr ∧
      uadd addr length ≤ mmapTop ∧
      ∀ i < maxMmaps, (mmap i).used = true → (mmap i).overlaps addr length = false := by
  unfold checkFixed
  by_cases h0 : addr = 0 ∨ addr % pgsize ≠ 0
  · rw [if_pos h0]
    refine iff_of_false (by decide) ?_
    rintro ⟨h1, h2, -⟩
    omega
  · rw [if_neg h0]
    by_cases hr : addr < mmapBase ∨ mmapTop < uadd addr length
    · rw [if_pos hr]
      refine iff_of_false (by decide) ?_
      rintro ⟨-, -, h3, h4, -⟩
      omega
    · rw [if_neg hr, List.all_eq_true]
      constructor
      · intro h
        refine ⟨by omega, by omega, by omega, by omega, fun i hi hused => ?_⟩
        have := h i (List.mem_range.mpr hi)
        rw [hused] at this
        simpa using this
      · rintro ⟨-, -, -, -, h⟩ i hi
        cases hused : (mmap i).used with
        | false => rfl
        | true => simpa using h i (List.mem_range.mp hi) hused

/-- A request that stays below 2^32 gets a slot exactly if it is legal. -/
theorem wmapSlot_isSome_iff (hfits : ∀ i < maxMmaps, (mmap i).Fits) (hw : ¬ Wraps addr length) :
    (wmapSlot mmap addr length flags).isSome = true ↔ Legal mmap addr length flags := by
  have haddr := toNat_lt_uintSize addr
  unfold Wraps at hw
  unfold wmapSlot
  constructor
  · intro h
    split at h
    next hc =>
      obtain ⟨hpos, hal, hsh, hfix, hck⟩ := hc
      obtain ⟨-, -, hbase, htop, hov⟩ := checkFixed_eq.mp hck
      have hu := uadd_of_lt (a := addr.toNat) hpos.le (by omega)
      have htop' : addr.toNat + length.toInt ≤ mmapTop := by omega
      exact ⟨hpos, hal, hsh, hfix, hbase, htop', fun i hi hused =>
        (overlaps_iff (hfits i hi) hused hpos htop').mp (hov i hi hused), freeSlot_isSome.mp h⟩
    next => cases h
  · intro h
    have hu := uadd_of_lt (a := addr.toNat) h.pos.le (by omega)
    have hbase := h.base
    have htop := h.top
    have hck : checkFixed mmap addr.toNat length.toInt = true := by
      refine checkFixed_eq.mpr ⟨?_, h.aligned, hbase, by omega, fun i hi hused =>
        (overlaps_iff (hfits i hi) hused h.pos htop).mpr (h.apart i hi hused)⟩
      rw [mmapBase_eq] at hbase
      omega
    rw [if_pos ⟨h.pos, h.aligned, h.shared, h.fixed, hck⟩]
    exact freeSlot_isSome.mpr h.slot

/-- The checks that are left for a request that reaches 2^32. -/
structure Escapes (mmap : Nat → MmapRegion) (addr length flags : Word) : Prop where
  wraps : Wraps addr length
  aligned : addr.toNat % pgsize = 0
  shared : flag flags mapShared = true
  fixed : flag flags mapFixed = true
  apart : ∀ i < maxMmaps, (mmap i).used = true →
    (mmap i).stop ≤ addr.toNat ∨ addr.toNat + length.toInt - uintSize ≤ (mmap i).addr
  slot : ∃ i < maxMmaps, (mmap i).used = false

theorem wmapSlot_isSome_of_wraps (hw : Wraps addr length) :
    (wmapSlot mmap addr length flags).isSome = true ↔ Escapes mmap addr length flags := by
  have haddr := toNat_lt_uintSize addr
  have hlen := toInt_lt length
  have hu := uadd_of_wrap haddr hlen hw
  have hw' := hw
  unfold Wraps uintSize at hw'
  have hov : ∀ i, (mmap i).overlaps addr.toNat length.toInt = false ↔
      (mmap i).stop ≤ addr.toNat ∨ addr.toNat + length.toInt - uintSize ≤ (mmap i).addr := by
    intro i
    unfold MmapRegion.overlaps
    rw [Bool.and_eq_false_iff, decide_eq_false_iff_not, decide_eq_false_iff_not]
    omega
  unfold wmapSlot
  constructor
  · intro h
    split at h
    next hc =>
      obtain ⟨-, hal, hsh, hfix, hck⟩ := hc
      exact ⟨hw, hal, hsh, hfix, fun i hi hused =>
        (hov i).mp ((checkFixed_eq.mp hck).2.2.2.2 i hi hused), freeSlot_isSome.mp h⟩
    next => cases h
  · intro h
    have hck : checkFixed mmap addr.toNat length.toInt = true := by
      refine checkFixed_eq.mpr ⟨by omega, h.aligned, ?_, ?_, fun i hi hused =>
        (hov i).mpr (h.apart i hi hused)⟩
      · rw [mmapBase_eq]
        omega
      · rw [mmapTop_eq]
        unfold uintSize at *
        omega
    rw [if_pos ⟨by unfold uintSize at *; omega, h.aligned, h.shared, h.fixed, hck⟩]
    exact freeSlot_isSome.mpr h.slot

theorem Legal.not_wraps (h : Legal mmap addr length flags) : ¬ Wraps addr length := by
  have := h.top
  rw [mmapTop_eq] at this
  unfold Wraps uintSize
  omega

/-! ## The call -/

/-- The call returns `addr` exactly for a legal request, and otherwise fails with the
table unchanged. -/
def AcceptsLegal (c p : Nat) (addr length flags fd : Word) (s : Kernel) : Prop :=
  wp (wmap c addr length flags fd) (fun r s' =>
    (r = addr.toNat ↔ Legal (s.proc p).mmap addr length flags) ∧
    (¬ Legal (s.proc p).mmap addr length flags →
      r = failed ∧ (s'.proc p).mmap = (s.proc p).mmap)) (fun _ => False) s

theorem acceptsLegal_iff {c p : Nat} {fd : Word} {s : Kernel} (hcur : (s.cpu c).proc = some p)
    (hanon : flag flags mapAnonymous = true) :
    AcceptsLegal c p addr length flags fd s ↔
      ((wmapSlot (s.proc p).mmap addr length flags).isSome = true ↔
        Legal (s.proc p).mmap addr length flags) := by
  unfold AcceptsLegal
  rw [wp_wmap hcur]
  cases wmapSlot (s.proc p).mmap addr length flags with
  | none =>
    have hne : failed ≠ (addr.toNat : Int) := by
      unfold failed
      omega
    simp [hne]
  | some i =>
    have hne : (addr.toNat : Int) ≠ failed := by
      unfold failed
      omega
    simp [hanon, hne]

/-- `wmap` accepts exactly the legal requests, up to those that reach 2^32 and
escape the test of their end. -/
theorem wmap_legal_iff {c p : Nat} {addr length flags fd : Word} {s : Kernel}
    (hcur : (s.cpu c).proc = some p) (hfits : ∀ i < maxMmaps, ((s.proc p).mmap i).Fits)
    (hanon : flag flags mapAnonymous = true) :
    AcceptsLegal c p addr length flags fd s ↔
      ¬ Escapes (s.proc p).mmap addr length flags := by
  rw [acceptsLegal_iff hcur hanon]
  by_cases hw : Wraps addr length
  · rw [wmapSlot_isSome_of_wraps hw, iff_false_right fun h : Legal .. => h.not_wraps hw]
  · exact iff_of_true (wmapSlot_isSome_iff hfits hw) fun h => hw h.wraps

theorem fits_zero : MmapRegion.zero.Fits := ⟨by decide, by decide, nofun⟩

/-- A page at the top of the address space is accepted: its end wraps to 0. -/
theorem wmap_accepts_wrapped :
    ∃ s0 s, @Boot sampleLink 2 s0 ∧ Trace.Run (@Step sampleLink 2) s0 [.sched 0 0] s ∧
      (s.cpu 0).proc = some 0 ∧
      ¬ AcceptsLegal 0 0 0xFFFFF000#32 0x1000#32 (mapShared ||| mapAnonymous ||| mapFixed) 0#32 s := by
  let : Link := sampleLink
  obtain ⟨s0, A, d, f, g, hboot, hb⟩ := sample_boot
  have hmmap : ((s0.dispatch 0 0).proc 0).mmap = fun _ => .zero := by rw [hb.dispatched]; rfl
  refine ⟨s0, _, hboot, .single (hb.sched (by decide)), (at_dispatch s0 0 0).cur, ?_⟩
  rw [acceptsLegal_iff (at_dispatch s0 0 0).cur (by decide), hmmap]
  intro h
  exact (h.mp (by decide)).not_wraps (by unfold Wraps; decide)

/-- Two pages at the start of the range for mappings are accepted, as they should be. -/
theorem wmap_accepts_legal_first :
    ∃ s0 s, @Boot sampleLink 2 s0 ∧ Trace.Run (@Step sampleLink 2) s0 [.sched 0 0] s ∧
      AcceptsLegal 0 0 0x60000000#32 0x2000#32 (mapShared ||| mapAnonymous ||| mapFixed) 0#32 s := by
  let : Link := sampleLink
  obtain ⟨s0, A, d, f, g, hboot, hb⟩ := sample_boot
  have hmmap : ((s0.dispatch 0 0).proc 0).mmap = fun _ => .zero := by rw [hb.dispatched]; rfl
  refine ⟨s0, _, hboot, .single (hb.sched (by decide)), ?_⟩
  refine (wmap_legal_iff (at_dispatch s0 0 0).cur ?_ (by decide)).mpr fun h => ?_
  · rw [hmmap]
    exact fun _ _ => fits_zero
  · exact absurd h.wraps (by unfold Wraps; decide)

end Xv6
