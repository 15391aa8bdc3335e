import Mathlib

/-!
# Ring buffers with free-running counters

A ring of `cap` cells is read at `head` and written at `tail`.  Both are counters of
`w` bits that only go up and wrap around; a cell is a counter modulo `cap`.  Since
`cap` divides `2 ^ w`, a counter that wraps goes on at the right cell.

`Holds cap cell head tail xs` says that the ring holds the list `xs`, oldest first.
A third counter may stand between the two, as in a line that is still edited: what is
after it can be taken back (`Holds.unpush`) and is a ring of its own (`Holds.drop`).
-/

namespace Ring

variable {α : Type} {w cap : Nat} {cell : Nat → α} {head tail : BitVec w} {xs : List α} {x : α}

/-- The ring holds `xs`. -/
structure Holds (cap : Nat) (cell : Nat → α) (head tail : BitVec w) (xs : List α) : Prop where
  length : (tail - head).toNat = xs.length
  room : xs.length ≤ cap
  get : ∀ k (h : k < xs.length), cell ((head.toNat + k) % cap) = xs[k]

theorem Holds.empty (cap : Nat) (cell : Nat → α) (head : BitVec w) :
    Holds cap cell head head [] where
  length := by simp
  room := Nat.zero_le _
  get := nofun

/-- The cell of a counter, from another counter and their distance. -/
theorem cell_add (hdvd : cap ∣ 2 ^ w) {k : Nat} {a b : BitVec w} (h : (b - a).toNat = k) :
    b.toNat % cap = (a.toNat + k) % cap := by
  have hb : b.toNat = (a.toNat + k) % 2 ^ w := by
    have hadd : b = a + (b - a) := (add_sub_cancel a b).symm
    rw [← h, ← BitVec.toNat_add, ← hadd]
  rw [hb, Nat.mod_mod_of_dvd _ hdvd]

section

variable (h : Holds cap cell head tail xs)
include h

theorem Holds.empty_iff : head = tail ↔ xs = [] := by
  constructor
  · rintro rfl
    have := h.length
    rw [BitVec.sub_self] at this
    exact List.length_eq_zero_iff.mp this.symm
  · rintro rfl
    have hzero : tail - head = 0#w := BitVec.eq_of_toNat_eq (by rw [h.length]; simp)
    exact (sub_eq_zero.mp hzero).symm

theorem Holds.full_iff (hcap : cap < 2 ^ w) :
    tail = head + BitVec.ofNat w cap ↔ xs.length = cap := by
  rw [← h.length, ← sub_eq_iff_eq_add']
  constructor
  · intro heq
    rw [heq, BitVec.toNat_ofNat, Nat.mod_eq_of_lt hcap]
  · intro heq
    refine BitVec.eq_of_toNat_eq ?_
    rw [heq, BitVec.toNat_ofNat, Nat.mod_eq_of_lt hcap]

/-- Write at the tail. -/
theorem Holds.push (hdvd : cap ∣ 2 ^ w) (hcap : cap < 2 ^ w)
    (hroom : xs.length < cap) (x : α) :
    Holds cap (Function.update cell (tail.toNat % cap) x) head (tail + 1#w) (xs ++ [x]) := by
  have htail := cell_add hdvd h.length
  refine ⟨?_, ?_, ?_⟩
  · have hone : tail + 1#w - head = (tail - head) + 1#w := by
      rw [BitVec.sub_eq_add_neg, BitVec.sub_eq_add_neg, BitVec.add_assoc, BitVec.add_assoc,
        BitVec.add_comm 1#w]
    rw [hone, BitVec.toNat_add, h.length, List.length_append, List.length_singleton,
      BitVec.toNat_ofNat, Nat.add_mod_mod, Nat.mod_eq_of_lt (by omega)]
  · rw [List.length_append, List.length_singleton]
    omega
  · intro k hk
    rw [List.length_append, List.length_singleton] at hk
    rcases Nat.lt_succ_iff_lt_or_eq.mp hk with hlt | rfl
    · -- a cell that is held is not the one that is written
      have hne : (head.toNat + k) % cap ≠ tail.toNat % cap := by
        rw [htail]
        intro heq
        have hmod := (Nat.ModEq.add_left_cancel' head.toNat heq : k ≡ xs.length [MOD cap])
        have := Nat.ModEq.eq_of_lt_of_lt hmod (by omega) hroom
        omega
      rw [Function.update_of_ne hne, h.get k hlt, List.getElem_append_left hlt]
    · rw [htail, Function.update_self, List.getElem_append_right (Nat.le_refl _)]
      simp

end

/-- Read at the head. -/
theorem Holds.pop (h : Holds cap cell head tail (x :: xs)) (hdvd : cap ∣ 2 ^ w) (hcap : cap < 2 ^ w) :
    cell (head.toNat % cap) = x ∧ Holds cap cell (head + 1#w) tail xs := by
  have hlen : xs.length < cap := h.room
  have hone : (head + 1#w).toNat % cap = (head.toNat + 1) % cap := by
    rw [BitVec.toNat_add, BitVec.toNat_ofNat, Nat.add_mod_mod, Nat.mod_mod_of_dvd _ hdvd]
  refine ⟨h.get 0 (Nat.succ_pos _), ⟨?_, hlen.le, ?_⟩⟩
  · have hsub : tail - (head + 1#w) = (tail - head) - 1#w := by
      rw [BitVec.sub_sub]
    have hge : 1#w ≤ tail - head := by
      rw [BitVec.le_def, h.length, BitVec.toNat_ofNat]
      exact Nat.le_trans (Nat.mod_le _ _) (Nat.succ_pos _)
    rw [hsub, BitVec.toNat_sub_of_le hge, h.length, List.length_cons, BitVec.toNat_ofNat,
      Nat.mod_eq_of_lt (by omega), Nat.add_sub_cancel]
  · intro k hk
    have hget := h.get (k + 1) (Nat.succ_lt_succ hk)
    rw [List.getElem_cons_succ] at hget
    rw [← hget, Nat.add_mod, hone, ← Nat.add_mod]
    congr 2
    omega

/-- Take back what was written last. -/
theorem Holds.unpush (h : Holds cap cell head tail (xs ++ [x])) (hcap : cap < 2 ^ w) :
    Holds cap cell head (tail - 1#w) xs := by
  have hlen : (xs ++ [x]).length = xs.length + 1 := by simp
  have hroom := h.room
  rw [hlen] at hroom
  refine ⟨?_, by omega, fun k hk => ?_⟩
  · have hsub : tail - 1#w - head = (tail - head) - 1#w := by
      rw [BitVec.sub_sub, BitVec.sub_sub, BitVec.add_comm]
    have hone : (1#w).toNat = 1 := by
      rw [BitVec.toNat_ofNat, Nat.mod_eq_of_lt (by omega)]
    have hge : 1#w ≤ tail - head := by
      rw [BitVec.le_def, h.length, hlen, hone]
      omega
    rw [hsub, BitVec.toNat_sub_of_le hge, h.length, hlen, hone, Nat.add_sub_cancel]
  · rw [h.get k (by omega), List.getElem_append_left hk]

/-- The part of a ring from a counter on. -/
theorem Holds.drop {mid : BitVec w} {ys : List α} (h : Holds cap cell head tail (xs ++ ys))
    (hdvd : cap ∣ 2 ^ w) (hmid : (mid - head).toNat = xs.length) : Holds cap cell mid tail ys := by
  have hlen : (xs ++ ys).length = xs.length + ys.length := List.length_append
  have hroom := h.room
  refine ⟨?_, by omega, fun k hk => ?_⟩
  · have hsub : tail - mid = (tail - head) - (mid - head) := (sub_sub_sub_cancel_right tail mid head).symm
    have hge : mid - head ≤ tail - head := by
      rw [BitVec.le_def, h.length, hmid]
      omega
    rw [hsub, BitVec.toNat_sub_of_le hge, h.length, hmid, hlen, Nat.add_sub_cancel_left]
  · have hget := h.get (xs.length + k) (by omega)
    rw [List.getElem_append_right (by omega)] at hget
    simp only [Nat.add_sub_cancel_left] at hget
    rw [← hget, Nat.add_mod, cell_add hdvd hmid, ← Nat.add_mod, Nat.add_assoc]

/-- The cells between two counters. -/
def contents (cap : Nat) (cell : Nat → α) (head tail : BitVec w) : List α :=
  (List.range (tail - head).toNat).map fun k => cell ((head.toNat + k) % cap)

theorem Holds.contents_eq (h : Holds cap cell head tail xs) : contents cap cell head tail = xs := by
  rw [contents, h.length]
  refine List.ext_getElem (by simp) fun k _ hk => ?_
  rw [List.getElem_map, List.getElem_range, h.get k hk]

end Ring
