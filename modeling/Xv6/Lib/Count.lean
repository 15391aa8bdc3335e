import Mathlib

/-!
# Counting the keys that point at a value

A finite set of keys `I` and a table `t` from keys to entries `β`.  `refs I t q`
is the number of keys whose entry satisfies `q`.  A reference count is compared
with such a number, so the lemmas say how it moves when one entry of the table
is rewritten and when keys are added or removed.
-/

namespace Count

variable {κ β : Type}

/-- The number of keys of `I` whose entry in `t` satisfies `q`. -/
def refs (I : Finset κ) (t : κ → β) (q : β → Bool) : Nat :=
  (I.filter fun k => q (t k)).card

theorem refs_congr {I : Finset κ} {t t' : κ → β} {q : β → Bool}
    (h : ∀ k ∈ I, q (t' k) = q (t k)) : refs I t' q = refs I t q := by
  unfold refs
  congr 1
  apply Finset.filter_congr
  intro k hk
  rw [h k hk]

/-- The count is positive when some key of `I` points at `q`. -/
theorem refs_pos {I : Finset κ} {t : κ → β} {q : β → Bool} {k : κ} (hk : k ∈ I)
    (hq : q (t k) = true) : 0 < refs I t q :=
  Finset.card_pos.mpr ⟨k, Finset.mem_filter.mpr ⟨hk, hq⟩⟩

theorem refs_eq_zero {I : Finset κ} {t : κ → β} {q : β → Bool} :
    refs I t q = 0 ↔ ∀ k ∈ I, q (t k) = false := by
  unfold refs
  rw [Finset.card_eq_zero, Finset.filter_eq_empty_iff]
  simp only [Bool.not_eq_true]

/-- With a count of at most one, two keys that point at `q` are the same. -/
theorem refs_unique {I : Finset κ} {t : κ → β} {q : β → Bool} (h : refs I t q ≤ 1)
    {k k' : κ} (hk : k ∈ I) (hk' : k' ∈ I) (hq : q (t k) = true) (hq' : q (t k') = true) :
    k = k' :=
  Finset.card_le_one.mp h k (Finset.mem_filter.mpr ⟨hk, hq⟩) k' (Finset.mem_filter.mpr ⟨hk', hq'⟩)

theorem refs_mono {I J : Finset κ} (t : κ → β) (q : β → Bool) (h : I ⊆ J) :
    refs I t q ≤ refs J t q :=
  Finset.card_le_card (Finset.filter_subset_filter _ h)

/-- One rewritten entry moves the count by what its old and new values weigh. -/
theorem refs_update [DecidableEq κ] {I : Finset κ} {t u : κ → β} (q : β → Bool) {k : κ}
    (hk : k ∈ I) (h : ∀ k' ∈ I, k' ≠ k → u k' = t k') :
    refs I u q + (q (t k)).toNat = refs I t q + (q (u k)).toNat := by
  have hrest : refs (I.erase k) u q = refs (I.erase k) t q := by
    apply refs_congr
    intro k' hk'
    rw [h k' (Finset.mem_of_mem_erase hk') (Finset.ne_of_mem_erase hk')]
  have hsplit : ∀ u : κ → β, refs I u q = refs (I.erase k) u q + (q (u k)).toNat := by
    intro u
    unfold refs
    rw [← Finset.insert_erase hk, Finset.filter_insert, Finset.erase_insert_eq_erase]
    cases hq : q (u k) with
    | false => simp
    | true => simp
  rw [hsplit t, hsplit u, hrest]
  omega

/-- Rewriting an entry that does not point at `q` to one that does adds one. -/
theorem refs_gain [DecidableEq κ] {I : Finset κ} {t t' : κ → β} {q : β → Bool} {k : κ}
    (hk : k ∈ I) (h : ∀ k' ∈ I, k' ≠ k → t' k' = t k') (hold : q (t k) = false)
    (hnew : q (t' k) = true) : refs I t' q = refs I t q + 1 := by
  have hu := refs_update q hk h
  rw [hold, hnew] at hu
  simpa using hu

/-- Rewriting an entry that points at `q` to one that does not takes one off. -/
theorem refs_lose [DecidableEq κ] {I : Finset κ} {t t' : κ → β} {q : β → Bool} {k : κ}
    (hk : k ∈ I) (h : ∀ k' ∈ I, k' ≠ k → t' k' = t k') (hold : q (t k) = true)
    (hnew : q (t' k) = false) : refs I t' q + 1 = refs I t q := by
  have hu := refs_update q hk h
  rw [hold, hnew] at hu
  simpa using hu

end Count
