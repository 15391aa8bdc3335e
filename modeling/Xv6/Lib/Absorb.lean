import Mathlib

/-!
# A list that absorbs

A list to which an element is appended only if it is not there yet, as a log that writes a
block once however often it is changed.  `after l S` is the length of the list once all of
`S` has been put in.  Putting in elements of `S` does not change it, so it bounds the length
of the list all the way.
-/

namespace Absorb

variable {α : Type} [DecidableEq α]

/-- Put `b` in, unless it is there. -/
def absorb (l : List α) (b : α) : List α := if b ∈ l then l else l ++ [b]

/-- The length of `l` once all of `S` has been put in. -/
def after (l : List α) (S : Finset α) : Nat := l.length + (S.filter (· ∉ l)).card

variable {l : List α} {S T : Finset α} {b : α}

theorem mem_absorb {c : α} : c ∈ absorb l b ↔ c ∈ l ∨ c = b := by
  unfold absorb
  split
  · rename_i hb
    constructor
    · exact .inl
    · rintro (h | rfl)
      · exact h
      · exact hb
  · simp

theorem length_le_absorb : l.length ≤ (absorb l b).length := by
  unfold absorb
  split <;> simp

theorem length_le_after : l.length ≤ after l S := Nat.le_add_right _ _

theorem after_mono (h : S ⊆ T) : after l S ≤ after l T :=
  Nat.add_le_add_left (Finset.card_le_card (Finset.filter_subset_filter _ h)) _

theorem after_le : after l S ≤ l.length + S.card :=
  Nat.add_le_add_left (Finset.card_filter_le _ _) _

theorem after_insert_le : after l (insert b S) ≤ after l S + 1 := by
  unfold after
  rw [Finset.filter_insert]
  split
  · have := Finset.card_insert_le b (S.filter (· ∉ l))
    omega
  · omega

/-- What is in `S` is counted already. -/
theorem after_absorb (hb : b ∈ S) : after (absorb l b) S = after l S := by
  unfold after
  by_cases hl : b ∈ l
  · rw [absorb, if_pos hl]
  · have hsplit : S.filter (· ∉ l) = insert b (S.filter (· ∉ absorb l b)) := by
      ext c
      simp only [Finset.mem_insert, Finset.mem_filter, mem_absorb, not_or]
      constructor
      · rintro ⟨hS, hc⟩
        by_cases hcb : c = b
        · exact .inl hcb
        · exact .inr ⟨hS, hc, hcb⟩
      · rintro (rfl | ⟨hS, hc, -⟩)
        · exact ⟨hb, hl⟩
        · exact ⟨hS, hc⟩
    have hnot : b ∉ S.filter (· ∉ absorb l b) := by simp [mem_absorb]
    rw [hsplit, Finset.card_insert_of_notMem hnot, absorb, if_neg hl, List.length_append]
    simp only [List.length_singleton]
    omega

theorem after_foldl {bs : List α} (h : ∀ b ∈ bs, b ∈ S) : after (bs.foldl absorb l) S = after l S := by
  induction bs generalizing l with
  | nil => rfl
  | cons b bs ih =>
    rw [List.foldl_cons, ih fun c hc => h c (List.mem_cons_of_mem _ hc),
      after_absorb (h b List.mem_cons_self)]

end Absorb
