import Xv6.User.Malloc

/-!
# The free list in memory

`Rep` says that the headers in memory describe a tiling of the heap: each block has its
size in its header, and the free blocks form a circular list with `base`, in the order
of their addresses.

`Rep.free` and `Rep.take` say that the code does to memory what `release` and `carve` do
to the tiling, and `Rep.wp_morecore` that new core is a new block, released.  The loops
are searches along the list.  That of `free` stops at the last free block before the
block given (`Rep.place`), that of `malloc` at one that is large enough if there is one
(`Rep.find`).
-/

namespace Xv6.Umalloc

open Prog Chain Tiling

variable {n p x q fuel : Nat} {F : Stop → Prop} {s' : Heap} {b : Block} {f grant : Bool}
  {P : List Nat}

variable (L : Layout)

/-! ## Tilings in memory -/

/-- The links of the headers. -/
def Heap.next (s : Heap) (x : Nat) : Nat := (s.mem x).ptr

/-- The headers in memory describe the tiling `T`. -/
structure Rep (s : Heap) (T : List Block) : Prop where
  tiles : L.Tiled T s.brk
  top : s.brk < uintSize
  size : ∀ b ∈ T, (s.mem b.addr).size = b.units
  base : (s.mem L.base).size = 0
  cycle : Seg s.next L.base (L.base :: frees T) L.base
  freep : s.freep ∈ L.base :: frees T
  apart : Apart T

variable {L} {s : Heap} {T X Y : List Block} {a u : Nat}

@[simp] theorem put_self (x : Header) : (s.put a x).mem a = x := Function.update_self ..

@[simp] theorem put_of_ne {b : Nat} (h : b ≠ a) (x : Header) : (s.put a x).mem b = s.mem b :=
  Function.update_of_ne h ..

@[simp] theorem put_brk (x : Header) : (s.put a x).brk = s.brk := rfl

@[simp] theorem wp_load (h : L.Owned s.brk a) (Q : Header → Heap → Prop) (F : Stop → Prop) :
    wp (load L a) Q F s ↔ Q (s.mem a) s := by
  simp [load, h]

@[simp] theorem wp_store {x : Header} (h : L.Owned s.brk a) (Q : PUnit → Heap → Prop)
    (F : Stop → Prop) :
    wp (store L a x) Q F s ↔ Q () (s.put a x) := by
  simp [store, h]

namespace Rep

section

variable (h : Rep L s T)
include h

theorem owned_block (hb : b ∈ T) : L.Owned s.brk b.addr := by
  obtain ⟨hle, hpos, hend⟩ := h.tiles.bounds hb
  simp only [Block.bytes] at hpos hend
  exact .inr ⟨hle, by omega, tiles_aligned h.tiles hb⟩

theorem owned (hx : x ∈ L.base :: frees T) : L.Owned s.brk x := by
  rcases List.mem_cons.mp hx with rfl | hx
  · exact .inl rfl
  · obtain ⟨v, hv⟩ := mem_frees.mp hx
    exact h.owned_block hv

theorem base_lt (hb : b ∈ T) : L.base < b.addr := by
  have := (h.tiles.bounds hb).1
  have := L.base_lt
  omega

/-- The free list is in the order of addresses, `base` first. -/
theorem sorted : (L.base :: frees T).Pairwise (· < ·) := by
  refine .cons (fun x hx => ?_) ?_
  · obtain ⟨v, hv⟩ := mem_frees.mp hx
    exact h.base_lt hv
  · refine List.pairwise_map.mpr ((h.tiles.pairwise.filter _).imp_of_mem ?_)
    intro x y hx _ hle
    have := (h.tiles.bounds (List.mem_of_mem_filter hx)).2.1
    omega

theorem length_le : (L.base :: frees T).length ≤ rounds := by
  have hlen := tiles_length h.tiles
  have hfrees : (frees T).length ≤ T.length := by
    rw [frees, List.length_map]
    exact List.length_filter_le ..
  have htop := h.top
  rw [uintSize_eq] at htop
  rw [List.length_cons, rounds]
  omega

end

/-- Where the loop of `free` stops. -/
def stopAt (s : Heap) (a x : Nat) : Bool :=
  (x < a ∧ a < s.next x) ∨ (s.next x ≤ x ∧ (x < a ∨ a < s.next x))

theorem stopAt_iff : stopAt s a x = true ↔
    (x < a ∧ a < s.next x) ∨ (s.next x ≤ x ∧ (x < a ∨ a < s.next x)) := by
  simp [stopAt]

/-- The loop of `free` is a search along the free list. -/
theorem wp_freeLoop (h : Rep L s T) (hx : x ∈ L.base :: frees T) {Q : Nat → Heap → Prop} {r : Nat}
    (hr : search s.next (stopAt s a) n x = some r) (hQ : Q r s) : wp (freeLoop L a n x) Q F s := by
  induction n generalizing x with
  | zero => simp [search] at hr
  | succ n ih =>
    rw [search] at hr
    rw [freeLoop, wp_bind, wp_load (h.owned hx), wp_ite, wp_ite, wp_pure]
    split
    · next hin =>
      rw [if_pos (stopAt_iff.mpr (.inl hin))] at hr
      rwa [Option.some.inj hr]
    · next hin =>
      split
      · next hwrap =>
        rw [if_pos (stopAt_iff.mpr (.inr hwrap))] at hr
        rwa [Option.some.inj hr]
      · next hwrap =>
        rw [if_neg fun hstop => (stopAt_iff.mp hstop).elim hin hwrap] at hr
        exact ih (h.cycle.next_mem hx) hr

section

variable (h : Rep L s (X ++ ⟨a, u, f⟩ :: Y))
include h

/-- The blocks before a block and after it. -/
theorem around :
    (∀ b ∈ X, b.addr < a) ∧ ∀ b ∈ Y, a + 8 * u ≤ b.addr := by
  have hpair := List.pairwise_append.mp h.tiles.pairwise
  refine ⟨fun b hb => ?_, (List.pairwise_cons.mp hpair.2.1).1⟩
  have hle := hpair.2.2 b hb ⟨a, u, f⟩ (by simp)
  have hpos := (h.tiles.bounds (List.mem_append_left _ hb)).2.1
  simp only at hle
  omega

theorem units_pos : 0 < u := by
  have := (h.tiles.bounds (x := ⟨a, u, f⟩) (by simp)).2.1
  simp only [Block.bytes] at this
  omega

/-- The free blocks before a block and after it. -/
theorem frees_around :
    (∀ x ∈ L.base :: frees X, x < a) ∧ ∀ y ∈ frees Y, a + 8 * u ≤ y := by
  refine ⟨fun x hx => ?_, fun y hy => ?_⟩
  · rcases List.mem_cons.mp hx with rfl | hx
    · exact h.base_lt (b := ⟨a, u, f⟩) (by simp)
    · obtain ⟨v, hv⟩ := mem_frees.mp hx
      exact h.around.1 _ hv
  · obtain ⟨v, hv⟩ := mem_frees.mp hy
    exact h.around.2 _ hv

end

/-- The place of a block in the free list: after `p`, the last of the free blocks before
it.  There the loop of `free` stops. -/
theorem place (h : Rep L s (X ++ ⟨a, u, false⟩ :: Y)) :
    ∃ P p, L.base :: frees X = P ++ [p] ∧ Seg s.next L.base P p ∧
      Seg s.next (s.next p) (frees Y) L.base ∧
      search s.next (stopAt s a) rounds s.freep = some p := by
  obtain ⟨hbelow, habove⟩ := h.frees_around
  obtain ⟨P, p, hP⟩ : ∃ P p, L.base :: frees X = P ++ [p] :=
    ⟨_, _, (List.dropLast_append_getLast (List.cons_ne_nil _ _)).symm⟩
  have hcyc : L.base :: frees (X ++ ⟨a, u, false⟩ :: Y) = P ++ [p] ++ frees Y := by
    rw [← hP]
    simp
  have hcycle := h.cycle
  have hsorted := h.sorted
  rw [hcyc] at hcycle hsorted
  obtain ⟨b, hPp, hY⟩ := Seg.append_iff.mp hcycle
  obtain ⟨hPseg, rfl⟩ := Seg.concat_iff.mp hPp
  have hpa : p < a := hbelow p (by simp [hP])
  have hstop : stopAt s a p = true := by
    rw [stopAt_iff]
    cases hfY : frees Y with
    | nil =>
      rw [hfY] at hY
      have hbase : L.base ≤ p := by
        have hmem : L.base ∈ P ++ [p] := by simp [← hP]
        rcases List.mem_append.mp hmem with hmem | hmem
        · exact Nat.le_of_lt ((List.pairwise_append.mp (List.pairwise_append.mp hsorted).1).2.2
            _ hmem _ (by simp))
        · exact Nat.le_of_eq (List.mem_singleton.mp hmem)
      exact .inr ⟨by rw [seg_nil.mp hY]; exact hbase, .inl hpa⟩
    | cons y Y' =>
      rw [hfY] at hY
      have hya := habove y (by simp [hfY])
      have hu := h.units_pos
      exact .inl ⟨hpa, by rw [hY.1]; omega⟩
  refine ⟨P, p, hP, hPseg, hY, ?_⟩
  have hfreep : s.freep ∈ P ++ [p] ++ frees Y := hcyc ▸ h.freep
  have hlen : (P ++ [p] ++ frees Y).length ≤ rounds := hcyc ▸ h.length_le
  obtain ⟨c, hc, hsearch⟩ := hcycle.search_cycle hfreep (y := p) (by simp) hstop hlen
  obtain ⟨hcstop, -⟩ := search_eq_some hsearch
  rw [stopAt_iff] at hcstop
  rw [hsearch]
  -- no other cell is one where the loop stops
  obtain ⟨hPsorted, hYsorted, -⟩ := List.pairwise_append.mp hsorted
  obtain ⟨hPsorted, -, hPp'⟩ := List.pairwise_append.mp hPsorted
  rcases List.mem_append.mp hc with hc | hc
  · rcases List.mem_append.mp hc with hc | hc
    · have hnext : c < s.next c ∧ s.next c < a := by
        rcases hPseg.next_cases hPsorted hc with ⟨hmem, hlt⟩ | heq
        · exact ⟨hlt, hbelow _ (by simp [hP, hmem])⟩
        · rw [heq]
          exact ⟨hPp' c hc p (by simp), hpa⟩
      omega
    · rw [List.mem_singleton.mp hc]
  · have hac := habove c hc
    rcases hY.next_cases hYsorted hc with ⟨-, hlt⟩ | heq
    · omega
    · have := hbelow L.base (by simp)
      omega

/-- A block ends at an address. -/
theorem advance_eq (h : Rep L s T) (hb : b ∈ T) :
    advance b.addr b.units = b.addr + 8 * b.units := by
  have hend := (h.tiles.bounds hb).2.2
  have htop := h.top
  simp only [Block.bytes] at hend
  exact Nat.mod_eq_of_lt (by omega)

/-- The first half of `free` merges the block with a free block after it.  The link it
stores is the one to the next free block after that. -/
theorem wp_joinUpper (h : Rep L s (X ++ ⟨a, u, false⟩ :: Y))
    (hY : Seg s.next (s.next p) (frees Y) L.base) :
    ∃ z, Seg s.next z (frees (mergeRight u Y).2) L.base ∧
      ∀ (Q : PUnit → Heap → Prop) (F : Stop → Prop), wp (joinUpper L a (s.next p)) Q F s ↔
        Q () (s.put a ⟨z, (mergeRight u Y).1⟩) := by
  have hblock : (⟨a, u, false⟩ : Block) ∈ X ++ ⟨a, u, false⟩ :: Y := by simp
  have howned : L.Owned s.brk a := h.owned_block hblock
  have hsize : (s.mem a).size = u := h.size _ hblock
  have hend : advance a u = a + 8 * u := h.advance_eq hblock
  obtain ⟨b, -, rfl, hpos, hYtiles⟩ := tiles_append.mp h.tiles
  rcases mergeRight_cases u Y with ⟨b, v, Y', rfl, heq⟩ | ⟨hhead, heq⟩
  · have hbmem : (⟨b, v, true⟩ : Block) ∈ X ++ ⟨a, u, false⟩ :: ⟨b, v, true⟩ :: Y' := by simp
    have hb : b = a + 8 * u := hYtiles.1
    obtain ⟨hnext, hY⟩ := hY
    have hmod : (u + v) % uintSize = u + v := by
      have := (h.tiles.bounds hbmem).2.2
      have := h.top
      simp only [Block.bytes] at *
      exact Nat.mod_eq_of_lt (by omega)
    refine ⟨s.next b, by rwa [heq], fun Q F => ?_⟩
    rw [joinUpper, wp_bind, wp_load howned, wp_ite, hsize, hend, if_pos (by rw [hnext, hb]),
      wp_bind, hnext, wp_load (h.owned_block hbmem), wp_store howned, h.size _ hbmem, hmod, heq]
    rfl
  · have hne : a + 8 * u ≠ s.next p := by
      intro hadj
      cases Y with
      | nil =>
        have := h.base_lt hblock
        rw [← hadj, frees_nil, seg_nil] at hY
        simp only at this
        omega
      | cons c Y' =>
        -- the block right after this one would be free
        cases hfrees : frees (c :: Y') with
        | nil =>
          have := h.base_lt hblock
          rw [← hadj, hfrees, seg_nil] at hY
          simp only at this
          omega
        | cons y fs =>
          rw [hfrees] at hY
          obtain ⟨v, hv⟩ := mem_frees.mp (hfrees ▸ List.mem_cons_self : y ∈ frees (c :: Y'))
          have hc : c = ⟨y, v, true⟩ :=
            hYtiles.eq_of_start_eq List.mem_cons_self hv (hYtiles.1.trans (hadj.trans hY.1))
          have := hhead c (by simp)
          rw [hc] at this
          cases this
    refine ⟨s.next p, by rwa [heq], fun Q F => ?_⟩
    rw [joinUpper, wp_bind, wp_load howned, wp_ite, hsize, hend, if_neg hne, wp_store howned, heq]

/-- Only the last block before a free block's place ends there. -/
theorem joinLower_ne (h : Rep L s (X ++ ⟨a, u, false⟩ :: Y)) (hlast : LastUsed X)
    (hP : L.base :: frees X = P ++ [p]) : advance p (s.mem p).size ≠ a := by
  have hp : p ∈ L.base :: frees X := by simp [hP]
  have hpa := h.frees_around.1 p hp
  rcases List.mem_cons.mp hp with rfl | hp
  · have := L.base_lt
    have := L.start_lt
    rw [h.base, advance, Nat.mul_zero, Nat.add_zero, Nat.mod_eq_of_lt (by omega)]
    omega
  · obtain ⟨t, ht⟩ := mem_frees.mp hp
    have hmem : (⟨p, t, true⟩ : Block) ∈ X ++ ⟨a, u, false⟩ :: Y := List.mem_append_left _ ht
    rw [show (s.mem p).size = t from h.size _ hmem, h.advance_eq hmem]
    rcases X.eq_nil_or_concat with rfl | ⟨X', c, rfl⟩
    · simp at ht
    · rw [List.concat_eq_append] at *
      have hc : c.free = false := hlast c (by simp)
      have ht' : (⟨p, t, true⟩ : Block) ∈ X' := by
        rcases List.mem_append.mp ht with ht | ht
        · exact ht
        · rw [← List.mem_singleton.mp ht] at hc
          cases hc
      have hpair := (List.pairwise_append.mp h.tiles.pairwise)
      have hpc := (List.pairwise_append.mp hpair.1).2.2 _ ht' c (by simp)
      have hca := hpair.2.2 c (by simp) ⟨a, u, false⟩ (by simp)
      have hpos := (h.tiles.bounds (x := c) (by simp)).2.1
      simp only [Block.bytes] at *
      omega

/-- A block and some of those after it are replaced by the blocks `Z`. -/
theorem relink {w z : Nat} {Z Y' : List Block} (h : Rep L s (X ++ ⟨a, u, f⟩ :: Y)) (hsub : Y' ⊆ Y)
    (htiles : L.Tiled (X ++ (Z ++ Y')) s.brk) (hapart : Apart (X ++ (Z ++ Y')))
    (hbrk : s'.brk = s.brk) (hfreep : s'.freep ∈ L.base :: frees (X ++ (Z ++ Y')))
    (hX : Seg s'.next L.base (L.base :: frees X) w) (hZ : Seg s'.next w (frees Z) z)
    (hY : Seg s.next z (frees Y') L.base) (hZsize : ∀ b ∈ Z, (s'.mem b.addr).size = b.units)
    (hbelow : ∀ x < a, (s'.mem x).size = (s.mem x).size)
    (habove : ∀ b ∈ Y', s'.mem b.addr = s.mem b.addr) : Rep L s' (X ++ (Z ++ Y')) := by
  have hbase := h.frees_around.1 L.base (by simp)
  refine ⟨hbrk ▸ htiles, hbrk ▸ h.top, fun b hb => ?_, (hbelow _ hbase).trans h.base, ?_, hfreep,
    hapart⟩
  · rcases List.mem_append.mp hb with hb | hb
    · rw [hbelow _ (h.around.1 b hb)]
      exact h.size b (by simp [hb])
    · rcases List.mem_append.mp hb with hb | hb
      · exact hZsize b hb
      · rw [habove b hb]
        exact h.size b (by simp [hsub hb])
  · rw [frees_append, frees_append, ← List.cons_append]
    refine Seg.append_iff.mpr ⟨w, hX, Seg.append_iff.mpr ⟨z, hZ, (Seg.congr fun y hy => ?_).mpr hY⟩⟩
    obtain ⟨v, hv⟩ := mem_frees.mp hy
    exact congrArg Header.ptr (habove _ hv)

/-- The list up to a block, when the last link before it changes. -/
theorem before (h : Rep L s (X ++ ⟨a, u, f⟩ :: Y)) (hP : L.base :: frees X = P ++ [q])
    (hPseg : Seg s.next L.base P q) (hmem : ∀ x < q, s'.mem x = s.mem x) :
    Seg s'.next L.base (L.base :: frees X) (s'.next q) := by
  have hsorted := h.sorted
  rw [frees_append, ← List.cons_append, hP] at hsorted
  rw [hP]
  refine Seg.concat_iff.mpr ⟨(Seg.congr fun x hx => ?_).mpr hPseg, rfl⟩
  have hlt := (List.pairwise_append.mp (List.pairwise_append.mp hsorted).1).2.2 x hx q (by simp)
  exact congrArg Header.ptr (hmem x hlt)

/-- The block `a`, merged or not with the one after it, becomes part of the free block `p`
right before it. -/
theorem merged {t z : Nat} (h : Rep L s (X ++ [⟨p, t, true⟩] ++ ⟨a, u, false⟩ :: Y))
    (hrel : release (X ++ [⟨p, t, true⟩]) a u Y =
      X ++ ⟨p, t + (mergeRight u Y).1, true⟩ :: (mergeRight u Y).2)
    (hX : Seg s.next L.base (L.base :: frees X) p)
    (hz : Seg s.next z (frees (mergeRight u Y).2) L.base) (hbrk : s'.brk = s.brk)
    (hfreep : s'.freep = p) (hp : s'.mem p = ⟨z, t + (mergeRight u Y).1⟩)
    (hmem : ∀ x, x ≠ a → x ≠ p → s'.mem x = s.mem x) :
    Rep L s' (release (X ++ [⟨p, t, true⟩]) a u Y) := by
  have htiles := release_tiles h.tiles
  have hapart := release_apart h.apart
  have hpa : p < a := h.frees_around.1 p (by simp)
  have hafter := h.around.2
  have hu := h.units_pos
  rw [hrel] at htiles hapart ⊢
  rw [List.append_assoc] at h
  have hbelow : ∀ x < p, s'.mem x = s.mem x := fun x hx => hmem x (by omega) (by omega)
  refine h.relink (Z := [_]) (fun b hb => ?_) htiles hapart hbrk (by simp [hfreep])
    ((Seg.congr fun x hx => ?_).mpr hX) ⟨rfl, congrArg Header.ptr hp⟩ hz (by simp [hp])
    (fun x hx => by rw [hbelow x hx]) fun b hb => ?_
  · exact List.mem_cons_of_mem _ (mergeRight_subset u Y hb)
  · exact congrArg Header.ptr (hbelow x (h.frees_around.1 x hx))
  · have := hafter b (mergeRight_subset u Y hb)
    exact hmem _ (by omega) (by omega)

/-- The block `a`, merged or not with the one after it, is linked after `p`. -/
theorem linked {z : Nat} (h : Rep L s (X ++ ⟨a, u, false⟩ :: Y))
    (hrel : release X a u Y = X ++ ⟨a, (mergeRight u Y).1, true⟩ :: (mergeRight u Y).2)
    (hP : L.base :: frees X = P ++ [p]) (hPseg : Seg s.next L.base P p)
    (hz : Seg s.next z (frees (mergeRight u Y).2) L.base) (hbrk : s'.brk = s.brk)
    (hfreep : s'.freep = p) (hp : s'.mem p = { s.mem p with ptr := a })
    (ha : s'.mem a = ⟨z, (mergeRight u Y).1⟩) (hmem : ∀ x, x ≠ a → x ≠ p → s'.mem x = s.mem x) :
    Rep L s' (release X a u Y) := by
  have htiles := release_tiles h.tiles
  have hapart := release_apart h.apart
  have hpX : p ∈ L.base :: frees X := by simp [hP]
  have hpa : p < a := h.frees_around.1 p hpX
  have hu := h.units_pos
  rw [hrel] at htiles hapart ⊢
  refine h.relink (Z := [_]) (mergeRight_subset u Y) htiles hapart hbrk ?_
    (h.before hP hPseg fun x hx => hmem x (by omega) (by omega)) ⟨congrArg Header.ptr hp,
      congrArg Header.ptr ha⟩ hz (by simp [ha]) (fun x hx => ?_) fun b hb => ?_
  · rw [hfreep, frees_append, ← List.cons_append]
    exact List.mem_append_left _ hpX
  · by_cases hxp : x = p
    · rw [hxp, hp]
    · rw [hmem x (by omega) hxp]
  · have := h.around.2 b (mergeRight_subset u Y hb)
    exact hmem _ (by omega) (by omega)

/-- `free` of a block does to memory what `release` does to the tiling. -/
theorem free (h : Rep L s (X ++ ⟨a, u, false⟩ :: Y)) :
    wp (Umalloc.free L (a + 8))
      (fun _ s' => Rep L s' (release X a u Y) ∧ s'.brk = s.brk ∧ s'.sbrks = s.sbrks) F s := by
  have hblock : (⟨a, u, false⟩ : Block) ∈ X ++ ⟨a, u, false⟩ :: Y := by simp
  have hbp : (a + 8 + uintSize - 8) % uintSize = a := by
    have hend := (h.tiles.bounds hblock).2.2
    have htop := h.top
    simp only at hend
    rw [show a + 8 + uintSize - 8 = a + uintSize by omega, Nat.add_mod_right]
    exact Nat.mod_eq_of_lt (by omega)
  obtain ⟨P, p, hP, hPseg, hY, hsearch⟩ := h.place
  obtain ⟨z, hz, hupper⟩ := h.wp_joinUpper hY
  have hp : p ∈ L.base :: frees (X ++ ⟨a, u, false⟩ :: Y) := by
    have : p ∈ L.base :: frees X := by simp [hP]
    rcases List.mem_cons.mp this with rfl | hp
    · simp
    · simp [hp]
  have hpa : p ≠ a := Nat.ne_of_lt (h.frees_around.1 p (by simp [hP]))
  have howned : L.Owned s.brk p := h.owned hp
  rw [Umalloc.free, wp_bind, wp_get, wp_bind, hbp]
  refine h.wp_freeLoop h.freep hsearch ?_
  rw [wp_bind, wp_load howned, wp_bind]
  refine (hupper _ F).mpr ?_
  have howned' : L.Owned (s.put a ⟨z, (mergeRight u Y).1⟩).brk p := howned
  rw [wp_bind, joinLower, wp_bind, wp_load howned', put_of_ne hpa, wp_ite]
  rcases mergeLeft_cases X a (mergeRight u Y).1 (mergeRight u Y).2 with
    ⟨X', q, t, rfl, heq⟩ | ⟨hlast, heq⟩
  · obtain ⟨rfl, rfl⟩ : P = L.base :: frees X' ∧ p = q := by
      have : P ++ [p] = L.base :: frees X' ++ [q] := by rw [← hP]; simp
      exact List.append_inj' this rfl |>.imp id fun h => (List.cons.inj h).1
    have hmem : (⟨p, t, true⟩ : Block) ∈ X' ++ [⟨p, t, true⟩] ++ ⟨a, u, false⟩ :: Y := by simp
    have hsize : (s.mem p).size = t := h.size _ hmem
    have hend : p + 8 * t = a := by
      obtain ⟨d, hX, hd, -⟩ := tiles_append.mp h.tiles
      obtain ⟨_, -, rfl, -, hd'⟩ := tiles_append.mp hX
      exact (tiles_nil.mp hd').trans hd.symm
    have hmod : (t + (mergeRight u Y).1) % uintSize = t + (mergeRight u Y).1 := by
      have hmem' : (⟨p, t + (mergeRight u Y).1, true⟩ : Block) ∈
          release (X' ++ [⟨p, t, true⟩]) a u Y := by simp [release, heq]
      have := ((release_tiles h.tiles).bounds hmem').2.2
      have := h.top
      simp only [Block.bytes] at *
      exact Nat.mod_eq_of_lt (by omega)
    rw [hsize, if_pos ((h.advance_eq hmem).trans hend), wp_bind,
      wp_load (by exact h.owned_block hblock), put_self, wp_store howned', wp_modify, hmod]
    refine ⟨h.merged heq hPseg hz rfl rfl (put_self _) fun x hxa hxp => ?_, rfl, rfl⟩
    exact (put_of_ne hxp _).trans (put_of_ne hxa _)
  · rw [if_neg (h.joinLower_ne hlast hP), wp_store howned', wp_modify]
    refine ⟨h.linked heq hP hPseg hz rfl rfl (put_self _) ?_ fun x hxa hxp => ?_, rfl, rfl⟩
    · exact (put_of_ne (Ne.symm hpa) _).trans (put_self _)
    · exact (put_of_ne hxp _).trans (put_of_ne hxa _)

section

variable (h : Rep L s (X ++ ⟨p, u, true⟩ :: Y))
include h

/-- The free block `p` and the one before it in the free list. -/
theorem pred
    (hq : q ∈ L.base :: frees (X ++ ⟨p, u, true⟩ :: Y)) (hnext : s.next q = p) :
    ∃ P, L.base :: frees X = P ++ [q] ∧ Seg s.next L.base P q ∧
      Seg s.next (s.next p) (frees Y) L.base := by
  have hcyc : L.base :: frees (X ++ ⟨p, u, true⟩ :: Y) = L.base :: frees X ++ p :: frees Y := by
    simp
  have hsorted := h.sorted
  obtain ⟨P, Q, hsplit, hP, hQ⟩ := h.cycle.split hq
  rw [hnext] at hQ
  rcases Q with _ | ⟨y, Q⟩
  · exact absurd (seg_nil.mp hQ) (Nat.ne_of_gt (h.frees_around.1 _ (by simp)))
  · obtain ⟨rfl, hQ⟩ := hQ
    have heq : P ++ [q] ++ p :: Q = L.base :: frees X ++ p :: frees Y := by
      rw [← hcyc, hsplit]
      simp
    have hlt : ∀ x ∈ L.base :: frees X, x ≠ p := fun x hx => Nat.ne_of_lt (h.frees_around.1 x hx)
    have hgt : ∀ y ∈ frees Y, y ≠ p := fun y hy => by
      have := h.frees_around.2 y hy
      have := h.units_pos
      omega
    obtain ⟨hPq, -, rfl⟩ := (List.append_cons_inj_of_notMem (fun hx => hlt p hx rfl)
      (fun hy => hgt p hy rfl)).mp heq.symm
    exact ⟨P, hPq, hP, hQ⟩

/-- A free block is taken as a whole. -/
theorem unlinked (hP : L.base :: frees X = P ++ [q])
    (hPseg : Seg s.next L.base P q) (hY : Seg s.next (s.next p) (frees Y) L.base)
    (hbrk : s'.brk = s.brk) (hfreep : s'.freep = q)
    (hq : s'.mem q = { s.mem q with ptr := s.next p }) (hmem : ∀ x, x ≠ q → s'.mem x = s.mem x) :
    Rep L s' (carve X p u u Y) := by
  have hqX : q ∈ L.base :: frees X := by simp [hP]
  have hqp : q < p := h.frees_around.1 q hqX
  have hcarve : carve X p u u Y = X ++ ([⟨p, u, false⟩] ++ Y) := if_pos rfl
  have htiles := carve_tiles h.tiles (Nat.le_refl u) h.units_pos
  have hapart := carve_apart (n := u) h.apart
  rw [hcarve] at htiles hapart ⊢
  refine h.relink (List.Subset.refl Y) htiles hapart hbrk ?_
    (h.before hP hPseg fun x hx => hmem x (by omega)) (congrArg Header.ptr hq) hY ?_
    (fun x _ => ?_) fun b hb => ?_
  · rw [hfreep, frees_append, ← List.cons_append]
    exact List.mem_append_left _ hqX
  · rintro b hb
    obtain rfl := List.mem_singleton.mp hb
    rw [hmem _ (Nat.ne_of_gt hqp)]
    exact h.size ⟨p, u, true⟩ (by simp)
  · by_cases hxq : x = q
    · rw [hxq, hq]
    · rw [hmem x hxq]
  · have := h.around.2 b hb
    exact hmem _ (by omega)

/-- Units are taken from the end of a free block. -/
theorem shortened (hn : n < u) (hpos : 0 < n)
    (hbrk : s'.brk = s.brk) (hfreep : s'.freep ∈ L.base :: frees (X ++ ⟨p, u, true⟩ :: Y))
    (hp : s'.mem p = { s.mem p with size := u - n }) (hend : (s'.mem (p + 8 * (u - n))).size = n)
    (hmem : ∀ x, x ≠ p → x ≠ p + 8 * (u - n) → s'.mem x = s.mem x) :
    Rep L s' (carve X p u n Y) := by
  have hcarve : carve X p u n Y =
      X ++ ([⟨p, u - n, true⟩, ⟨p + 8 * (u - n), n, false⟩] ++ Y) := if_neg (Nat.ne_of_gt hn)
  have htiles := carve_tiles h.tiles (Nat.le_of_lt hn) hpos
  have hapart := carve_apart (n := n) h.apart
  rw [hcarve] at htiles hapart ⊢
  have hcycle := h.cycle
  rw [frees_append, ← List.cons_append] at hcycle
  obtain ⟨w, hX, rfl, hY⟩ := Seg.append_iff.mp hcycle
  have hbelow : ∀ x < w, s'.mem x = s.mem x := fun x hx => hmem x (by omega) (by omega)
  refine h.relink (List.Subset.refl Y) htiles hapart hbrk (by simpa using hfreep)
    ((Seg.congr fun x hx => ?_).mpr hX) ⟨rfl, congrArg Header.ptr hp⟩ hY (by simp [hp, hend])
    (fun x hx => by rw [hbelow x hx]) fun b hb => ?_
  · exact congrArg Header.ptr (hbelow x (h.frees_around.1 x hx))
  · have := h.around.2 b hb
    exact hmem _ (by omega) (by omega)

/-- The end of `malloc` does to memory what `carve` does to the tiling. -/
theorem take
    (hq : q ∈ L.base :: frees (X ++ ⟨p, u, true⟩ :: Y)) (hnext : s.next q = p) (hn : n ≤ u)
    (hpos : 0 < n) :
    wp (Umalloc.take L n q p (s.mem p)) (fun r s' => r = p + 8 * (u - n) + 8 ∧
      Rep L s' (carve X p u n Y) ∧ s'.sbrks = s.sbrks) F s := by
  have hblock : (⟨p, u, true⟩ : Block) ∈ X ++ ⟨p, u, true⟩ :: Y := by simp
  have hsize : (s.mem p).size = u := h.size _ hblock
  have howned : L.Owned s.brk p := h.owned_block hblock
  rw [Umalloc.take, wp_ite, hsize]
  split
  · next heq =>
    subst heq
    obtain ⟨P, hP, hPseg, hY⟩ := h.pred hq hnext
    rw [wp_bind, wp_load (h.owned hq), wp_bind, wp_store (h.owned hq), wp_bind, wp_pure, wp_bind,
      wp_modify, wp_pure]
    refine ⟨by simp, h.unlinked hP hPseg hY rfl rfl (put_self _) fun x hx => put_of_ne hx _,
      rfl⟩
  · next hne =>
    have hend := (h.tiles.bounds hblock).2.2
    have htop := h.top
    have haligned := tiles_aligned h.tiles hblock
    have hlo := (h.tiles.bounds hblock).1
    simp only [Block.bytes] at hend haligned hlo
    have hadv : advance p (u - n) = p + 8 * (u - n) := Nat.mod_eq_of_lt (by omega)
    have hqowned : L.Owned s.brk (p + 8 * (u - n)) := .inr ⟨by omega, by omega, by omega⟩
    have hqne : p + 8 * (u - n) ≠ p := by omega
    rw [wp_bind, wp_store howned, hadv, wp_bind, wp_load (by exact hqowned), put_of_ne hqne,
      wp_bind, wp_store (by exact hqowned), wp_bind, wp_pure, wp_bind, wp_modify, wp_pure]
    refine ⟨rfl, h.shortened (by omega) hpos rfl hq ?_ ?_ fun x hxp hxq => ?_, rfl⟩
    · exact (put_of_ne hqne.symm _).trans (put_self _)
    · exact congrArg Header.size (put_self _)
    · exact (put_of_ne hxq _).trans (put_of_ne hxp _)

end

/-- Whether the block after `x` in the free list is large enough, or the list ends there. -/
def fits (s : Heap) (n x : Nat) : Bool := n ≤ (s.mem (s.next x)).size ∨ s.next x = s.freep

theorem fits_iff : fits s n x = true ↔ n ≤ (s.mem (s.next x)).size ∨ s.next x = s.freep := by
  simp [fits]

/-- The search of `malloc` ends at a block that is large enough, or there is none. -/
theorem find (h : Rep L s T) (hn : 0 < n) :
    ∃ r ∈ L.base :: frees T, search s.next (fits s n) rounds s.freep = some r ∧
      ((∃ X u Y, T = X ++ ⟨s.next r, u, true⟩ :: Y ∧ n ≤ u) ∨
        (s.mem (s.next r)).size < n ∧ s.next r = s.freep ∧ ¬ Has T n) := by
  obtain ⟨y, hy, hynext⟩ := h.cycle.exists_prev h.freep
  obtain ⟨r, hr, hsearch⟩ := h.cycle.search_cycle h.freep hy (fits_iff.mpr (.inr hynext))
    h.length_le
  refine ⟨r, hr, hsearch, ?_⟩
  by_cases hfit : n ≤ (s.mem (s.next r)).size
  · left
    rcases List.mem_cons.mp (h.cycle.next_mem hr) with hbase | hfree
    · rw [hbase, h.base] at hfit
      omega
    · obtain ⟨u, hu⟩ := mem_frees.mp hfree
      obtain ⟨X, Y, hT⟩ := List.append_of_mem hu
      have hsize : (s.mem (s.next r)).size = u := h.size _ hu
      exact ⟨X, u, Y, hT, hsize ▸ hfit⟩
  · right
    have hback := ((fits_iff.mp (search_eq_some hsearch).1).resolve_left hfit)
    refine ⟨Nat.lt_of_not_le hfit, hback, ?_⟩
    rintro ⟨b, hb, hfree, hle⟩
    rw [← h.size b hb] at hle
    have hbmem : b.addr ∈ frees T := List.mem_map_of_mem (List.mem_filter.mpr ⟨hb, hfree⟩)
    obtain ⟨x, hx, hxnext⟩ := h.cycle.exists_prev (List.mem_cons_of_mem _ hbmem)
    rw [← hxnext] at hle
    rcases h.cycle.search_all h.freep hsearch hback hx with rfl | hstop
    · exact hfit hle
    · rw [fits_iff.mpr (.inl hle)] at hstop
      cases hstop

/-- The loop of `malloc` up to where its search ends. -/
theorem wp_mallocLoop (h : Rep L s T) (grant : Bool) {k r : Nat} (hx : x ∈ L.base :: frees T)
    (hr : search s.next (fits s n) k x = some r) (hk : k ≤ fuel) :
    ∃ fuel', fuel ≤ fuel' + k ∧ ∀ (Q : Option Nat → Heap → Prop) (F : Stop → Prop),
      wp (mallocLoop L grant n fuel x (s.next x)) Q F s ↔
        wp (mallocLoop L grant n (fuel' + 1) r (s.next r)) Q F s := by
  induction k generalizing fuel x with
  | zero => simp [search] at hr
  | succ k ih =>
    obtain ⟨fuel, rfl⟩ : ∃ f, fuel = f + 1 := ⟨fuel - 1, by omega⟩
    rw [search] at hr
    split at hr
    · obtain rfl := Option.some.inj hr
      exact ⟨fuel, by omega, fun _ _ => Iff.rfl⟩
    · next hstop =>
      have hnext := h.cycle.next_mem hx
      obtain ⟨fuel', hfuel, heq⟩ := ih hnext hr (Nat.le_of_succ_le_succ hk)
      refine ⟨fuel', by omega, fun Q F => ?_⟩
      rw [fits_iff, not_or] at hstop
      rw [mallocLoop, wp_bind, wp_load (h.owned hnext), wp_ite, if_neg hstop.1, wp_bind, wp_get,
        wp_ite, if_neg hstop.2]
      exact heq Q F

theorem grants_carve (h : Rep L s (X ++ ⟨a, u, true⟩ :: Y)) (hn : n ≤ u) (hpos : 0 < n) :
    Grants (X ++ ⟨a, u, true⟩ :: Y) n (a + 8 * (u - n)) (carve X a u n Y) := by
  refine ⟨fun hmem => ?_, fun b hb => ?_⟩
  · rcases List.mem_append.mp hmem with hX | hY
    · have := h.around.1 _ hX
      simp only at this
      omega
    · rcases List.mem_cons.mp hY with heq | hY
      · simp at heq
      · have := h.around.2 _ hY
        simp only at this
        omega
  · have hne : b ≠ ⟨a, u, true⟩ := by
      rintro rfl
      cases hb
    rw [mem_carve_used hb]
    simp [hne]

/-- A request for `n` units that some free block can serve. -/
theorem wp_fit (h : Rep L s T) (hn : 0 < n) (hfuel : rounds ≤ fuel) (hfit : Has T n) :
    wp (mallocLoop L grant n fuel s.freep (s.next s.freep))
      (fun r s' => ∃ a T', r = some (a + 8) ∧ Rep L s' T' ∧ Grants T n a T' ∧
        s'.sbrks = s.sbrks) F s := by
  obtain ⟨r, hr, hsearch, ⟨X, u, Y, hT, hle⟩ | ⟨-, -, hnone⟩⟩ := h.find hn
  · obtain ⟨fuel', -, heq⟩ := h.wp_mallocLoop grant h.freep hsearch hfuel
    rw [heq]
    have hnext := h.cycle.next_mem hr
    subst hT
    have hsize : (s.mem (s.next r)).size = u := h.size ⟨s.next r, u, true⟩ (by simp)
    rw [mallocLoop, wp_bind, wp_load (h.owned hnext), wp_ite, if_pos (by rwa [hsize]), wp_bind]
    refine wp_post (h.take hr rfl hle hn) ?_
    rintro a s' ⟨rfl, hrep, hsbrks⟩
    rw [wp_pure]
    exact ⟨_, _, rfl, hrep, h.grants_carve hle hn, hsbrks⟩
  · exact absurd hfit hnone

/-- A request that no free block can serve goes to `morecore`. -/
theorem wp_no_fit (h : Rep L s T) (grant : Bool) (hn : 0 < n) (hfuel : rounds ≤ fuel)
    (hnone : ¬ Has T n) :
    ∃ fuel', fuel ≤ fuel' + rounds ∧ ∀ (Q : Option Nat → Heap → Prop) (F : Stop → Prop),
      wp (mallocLoop L grant n fuel s.freep (s.next s.freep)) Q F s ↔
        wp (morecore L grant n) (fun r s' => match r with
          | none => Q none s'
          | some p => wp (load L p) (fun hd s'' => wp (mallocLoop L grant n fuel' p hd.ptr) Q F s'')
              F s') F s := by
  obtain ⟨r, hr, hsearch, ⟨X, u, Y, hT, hle⟩ | ⟨hsize, hback, -⟩⟩ := h.find hn
  · exact absurd ⟨⟨s.next r, u, true⟩, by simp [hT], rfl, hle⟩ hnone
  · obtain ⟨fuel', hle, heq⟩ := h.wp_mallocLoop grant h.freep hsearch hfuel
    refine ⟨fuel', hle, fun Q F => ?_⟩
    rw [heq, mallocLoop, wp_bind, wp_load (h.owned (h.cycle.next_mem hr)), wp_ite,
      if_neg (Nat.not_le.mpr hsize), wp_bind, wp_get, wp_ite, if_pos hback, wp_bind]
    refine wp_congr fun a s' => ?_
    cases a with
    | none => rw [wp_pure]
    | some p => rw [wp_bind]

/-- Core from `sbrk` is a block that was handed out, before `morecore` frees it. -/
theorem grown (h : Rep L s T) (hn : 0 < n) (hbrk : s'.brk = s.brk + 8 * n)
    (htop : s'.brk < uintSize) (hfreep : s'.freep = s.freep) (hsize : (s'.mem s.brk).size = n)
    (hmem : ∀ x, x ≠ s.brk → s'.mem x = s.mem x) : Rep L s' (T ++ [⟨s.brk, n, false⟩]) := by
  have hbelow {b : Block} (hb : b ∈ T) : b.addr < s.brk := by
    have := h.tiles.bounds hb
    omega
  have hbase : L.base < s.brk := by
    have := L.base_lt
    have := h.tiles.le
    omega
  have hfrees : frees (T ++ [⟨s.brk, n, false⟩]) = frees T := by simp
  refine ⟨tiles_append.mpr ⟨s.brk, h.tiles, rfl, by simp only [Block.bytes]; omega, hbrk.symm⟩,
    htop, fun b hb => ?_, ?_, ?_, ?_, apart_append.mpr ⟨h.apart, by simp [Apart], by simp⟩⟩
  · rcases List.mem_append.mp hb with hb | hb
    · rw [hmem _ (Nat.ne_of_lt (hbelow hb))]
      exact h.size b hb
    · obtain rfl := List.mem_singleton.mp hb
      exact hsize
  · rw [hmem _ (Nat.ne_of_lt hbase)]
    exact h.base
  · rw [hfrees]
    refine (Seg.congr fun x hx => congrArg Header.ptr (hmem x ?_)).mpr h.cycle
    rcases List.mem_cons.mp hx with rfl | hx
    · exact Nat.ne_of_lt hbase
    · obtain ⟨v, hv⟩ := mem_frees.mp hx
      exact Nat.ne_of_lt (hbelow hv)
  · rw [hfrees, hfreep]
    exact h.freep

theorem le_coreUnits (n : Nat) : 4096 ≤ coreUnits n ∧ n ≤ coreUnits n := by
  rw [coreUnits]
  split <;> omega

theorem toInt_coreUnits (hn : 8 * n < 2 ^ 31) :
    8 * coreUnits n < 2 ^ 31 ∧ toInt (coreUnits n * 8 % uintSize) = (8 * coreUnits n : Nat) := by
  have hlt : 8 * coreUnits n < 2 ^ 31 := by
    rw [coreUnits]
    split <;> omega
  refine ⟨hlt, ?_⟩
  rw [Nat.mul_comm, Nat.mod_eq_of_lt (by rw [uintSize_eq]; omega), toInt, if_pos hlt]

/-- `sbrk` with a positive argument. -/
theorem wp_sbrk (hn : 0 < n) (Q : Nat → Heap → Prop) (F : Stop → Prop) :
    wp (sbrk grant n) Q F s ↔
      if grant ∧ s.brk + n < uintSize then
        Q s.brk { s with brk := s.brk + n, sbrks := s.sbrks ++ [(n : Int)] }
      else Q failed { s with sbrks := s.sbrks ++ [(n : Int)] } := by
  simp [sbrk, hn]

/-- `morecore` for a size that is positive as an `int`. -/
theorem wp_morecore (h : Rep L s T) (hn : 8 * n < 2 ^ 31) :
    wp (morecore L grant n) (fun r s' =>
      s'.sbrks = s.sbrks ++ [((8 * coreUnits n : Nat) : Int)] ∧
      if grant ∧ s.brk + 8 * coreUnits n < uintSize then
        r = some s'.freep ∧ Rep L s' (release T s.brk (coreUnits n) []) ∧
          s'.brk = s.brk + 8 * coreUnits n
      else r = none ∧ Rep L s' T ∧ s'.brk = s.brk) F s := by
  obtain ⟨hlt, hint⟩ := toInt_coreUnits hn
  have hcore := (le_coreUnits n).1
  rw [morecore, wp_bind, hint, wp_sbrk (by omega)]
  split
  · next hroom =>
    have hfailed : s.brk ≠ failed := by
      rw [failed]
      omega
    have howned : L.Owned (s.brk + 8 * coreUnits n) s.brk :=
      .inr ⟨h.tiles.le, by omega, tiles_end_aligned h.tiles⟩
    rw [wp_ite, if_neg hfailed, wp_bind, wp_load (by exact howned), wp_bind,
      wp_store (by exact howned), wp_bind]
    have hgrown : Rep L (Heap.put { s with
        brk := s.brk + 8 * coreUnits n, sbrks := s.sbrks ++ [((8 * coreUnits n : Nat) : Int)] }
        s.brk { s.mem s.brk with size := coreUnits n }) (T ++ [⟨s.brk, coreUnits n, false⟩]) :=
      h.grown (by omega) rfl hroom.2 rfl (congrArg Header.size (put_self _)) fun x hx =>
        put_of_ne hx _
    refine wp_post hgrown.free ?_
    rintro - s' ⟨hrep, hbrk, hsbrks⟩
    rw [wp_bind, wp_get, wp_pure]
    exact ⟨hsbrks, rfl, hrep, hbrk⟩
  · rw [wp_ite, if_pos rfl, wp_pure]
    exact ⟨rfl, rfl, ⟨h.tiles, h.top, h.size, h.base, h.cycle, h.freep, h.apart⟩, rfl⟩

/-- The loop of `malloc`, for a size that is positive as an `int`: the request is served,
or there is no block for it and `sbrk` fails. -/
theorem wp_serve (h : Rep L s T) (grant : Bool) (hn : 0 < n) (hlt : 8 * n < 2 ^ 31) :
    wp (mallocLoop L grant n (2 * rounds) s.freep (s.next s.freep))
      (fun r s' => (∃ new, s'.sbrks = s.sbrks ++ new ∧ ∀ i ∈ new, 0 ≤ i) ∧
        ((∃ a T', r = some (a + 8) ∧ Rep L s' T' ∧ Grants T n a T') ∧
            (Has T n ∨ grant ∧ s.brk + 8 * coreUnits n < uintSize) ∨
          r = none ∧ Rep L s' T ∧ ¬ Has T n ∧
            ¬(grant ∧ s.brk + 8 * coreUnits n < uintSize))) F s := by
  by_cases hfit : Has T n
  · refine wp_post (h.wp_fit hn (by omega) hfit) ?_
    rintro r s' ⟨a, T', rfl, hrep, hgrants, hsbrks⟩
    exact ⟨⟨[], by simp [hsbrks], by simp⟩, .inl ⟨⟨a, T', rfl, hrep, hgrants⟩, .inl hfit⟩⟩
  · obtain ⟨fuel, hfuel, heq⟩ :=
      h.wp_no_fit grant hn (show rounds ≤ 2 * rounds by omega) hfit
    rw [heq]
    refine wp_post (h.wp_morecore hlt) ?_
    rintro r s1 ⟨hsbrks, hcase⟩
    have hnew : ∃ new, s1.sbrks = s.sbrks ++ new ∧ ∀ i ∈ new, 0 ≤ i := ⟨_, hsbrks, by simp⟩
    split at hcase
    · next hroom =>
      obtain ⟨rfl, hrep, -⟩ := hcase
      obtain ⟨b, hb, hfree, hle⟩ := release_has T s.brk (coreUnits n) []
      have hhas : Has (release T s.brk (coreUnits n) []) n :=
        ⟨b, hb, hfree, Nat.le_trans (le_coreUnits n).2 hle⟩
      simp only
      rw [wp_load (hrep.owned hrep.freep)]
      refine wp_post (hrep.wp_fit hn (by omega) hhas) ?_
      rintro r s' ⟨a, T', rfl, hrep', ⟨hnot, hused⟩, hsbrks'⟩
      refine ⟨hsbrks' ▸ hnew, .inl ⟨⟨a, T', rfl, hrep', ?_, fun b hb => ?_⟩, .inr hroom⟩⟩
      · rwa [mem_release_used rfl, List.append_nil] at hnot
      · rw [hused b hb, mem_release_used hb, List.append_nil]
    · next hroom =>
      obtain ⟨rfl, hrep, -⟩ := hcase
      exact ⟨hnew, .inr ⟨rfl, hrep, hfit, hroom⟩⟩

end Rep

end Xv6.Umalloc
