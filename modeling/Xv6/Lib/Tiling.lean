import Mathlib

/-!
# Tilings of an interval

A list of blocks tiles the interval from `a` to `b` if the first begins at `a`, each
begins where the one before ends, none is empty, and the last ends at `b`.  The blocks
of a tiling are in increasing order and disjoint (`Tiles.pairwise`), and every point of
the interval is in exactly one of them (`Tiles.existsUnique`).
-/

namespace Tiling

variable {β : Type} {start len : β → Nat} {a b c i : Nat} {x : β} {T T' : List β}

/-- The blocks cover the interval from `a` to `b`, in order. -/
def Tiles (start len : β → Nat) : Nat → List β → Nat → Prop
  | a, [], b => a = b
  | a, x :: T, b => start x = a ∧ 0 < len x ∧ Tiles start len (a + len x) T b

@[simp] theorem tiles_nil : Tiles start len a [] b ↔ a = b := Iff.rfl

@[simp] theorem tiles_cons : Tiles start len a (x :: T) b ↔
    start x = a ∧ 0 < len x ∧ Tiles start len (a + len x) T b := Iff.rfl

theorem tiles_append : Tiles start len a (T ++ T') c ↔
    ∃ b, Tiles start len a T b ∧ Tiles start len b T' c := by
  induction T generalizing a with
  | nil => simp
  | cons x T ih =>
    simp only [List.cons_append, tiles_cons, ih]
    constructor
    · rintro ⟨hx, hpos, b, hT, hT'⟩
      exact ⟨b, ⟨hx, hpos, hT⟩, hT'⟩
    · rintro ⟨b, ⟨hx, hpos, hT⟩, hT'⟩
      exact ⟨hx, hpos, b, hT, hT'⟩

section

variable (h : Tiles start len a T b)
include h

theorem Tiles.le : a ≤ b := by
  induction T generalizing a with
  | nil => exact Nat.le_of_eq h
  | cons x T ih =>
    have := ih h.2.2
    omega

/-- A block of a tiling is not empty and lies in the interval. -/
theorem Tiles.bounds (hx : x ∈ T) :
    a ≤ start x ∧ 0 < len x ∧ start x + len x ≤ b := by
  induction T generalizing a with
  | nil => simp at hx
  | cons y T ih =>
    obtain ⟨hy, hpos, hT⟩ := h
    rcases List.mem_cons.mp hx with rfl | hx
    · exact ⟨Nat.le_of_eq hy.symm, hpos, hy ▸ hT.le⟩
    · have := ih hT hx
      omega

/-- A block ends before a later one begins. -/
theorem Tiles.pairwise :
    T.Pairwise fun x y => start x + len x ≤ start y := by
  induction T generalizing a with
  | nil => exact .nil
  | cons x T ih =>
    obtain ⟨hx, -, hT⟩ := h
    exact .cons (fun y hy => hx ▸ (hT.bounds hy).1) (ih hT)

theorem Tiles.nodup : T.Nodup := by
  refine h.pairwise.imp_of_mem ?_
  rintro x y hx - hle rfl
  have := (h.bounds hx).2.1
  omega

/-- Two blocks that begin at the same point are the same. -/
theorem Tiles.eq_of_start_eq {y : β} (hx : x ∈ T) (hy : y ∈ T)
    (heq : start x = start y) : x = y := by
  induction T generalizing a with
  | nil => simp at hx
  | cons z T ih =>
    obtain ⟨hz, hpos, hT⟩ := h
    rcases List.mem_cons.mp hx with rfl | hxT <;> rcases List.mem_cons.mp hy with rfl | hyT
    · rfl
    · have := hT.bounds hyT
      omega
    · have := hT.bounds hxT
      omega
    · exact ih hT hxT hyT

/-- Every point of the interval is in exactly one block. -/
theorem Tiles.existsUnique (hlo : a ≤ i) (hhi : i < b) :
    ∃! x, x ∈ T ∧ start x ≤ i ∧ i < start x + len x := by
  induction T generalizing a with
  | nil =>
    rw [tiles_nil] at h
    omega
  | cons x T ih =>
    obtain ⟨hx, hpos, hT⟩ := h
    by_cases hi : i < a + len x
    · refine ⟨x, ⟨by simp, by omega, by omega⟩, ?_⟩
      rintro y ⟨hy, hle, hlt⟩
      rcases List.mem_cons.mp hy with rfl | hy
      · rfl
      · have := hT.bounds hy
        omega
    · obtain ⟨y, ⟨hy, hle, hlt⟩, huniq⟩ := ih hT (by omega)
      refine ⟨y, ⟨by simp [hy], hle, hlt⟩, ?_⟩
      rintro z ⟨hz, hzle, hzlt⟩
      rcases List.mem_cons.mp hz with rfl | hz
      · omega
      · exact huniq z ⟨hz, hzle, hzlt⟩

end

end Tiling
