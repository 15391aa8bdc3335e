import Mathlib

/-!
# Blocks with one owner each

Places `R` may each hold a block of `B`: `own r` is the block that stands in `r`.  A map says
which blocks are in use.  `Owned own used pend` is the discipline of an allocator: no block
stands in two places, every block that stands somewhere is in use, and every block in use
stands somewhere, except for the blocks `pend` that are on their way in or out.

A block is taken out of the free ones (`alloc`), put into a place (`record`), taken out of
some places (`forget`) and made free again (`free`).
-/

namespace Owner

variable {R B : Type}

/-- Every block in use has one place, or is pending. -/
structure Owned (own : R → Option B) (used : B → Prop) (pend : Set B) : Prop where
  used_of_own : ∀ {r b}, own r = some b → used b
  inj : ∀ {r r' b}, own r = some b → own r' = some b → r = r'
  own_of_used : ∀ {b}, used b → b ∈ pend ∨ ∃ r, own r = some b
  used_of_pend : ∀ {b}, b ∈ pend → used b
  pend_free : ∀ {b r}, b ∈ pend → own r ≠ some b

namespace Owned

variable {own own' : R → Option B} {used used' : B → Prop} {pend : Set B} {b : B} {r : R}

theorem congr (h : Owned own used pend) (hown : ∀ r, own' r = own r) (hused : ∀ b, used' b ↔ used b) :
    Owned own' used' pend := by
  have ho : own' = own := funext hown
  have hu : used' = used := funext fun b => propext (hused b)
  rw [ho, hu]
  exact h

/-- A free block is taken. -/
theorem alloc (h : Owned own used pend) (hb : ¬ used b) (hused : ∀ x, used' x ↔ x = b ∨ used x) :
    Owned own used' (insert b pend) where
  used_of_own hr := (hused _).mpr (.inr (h.used_of_own hr))
  inj := h.inj
  own_of_used hx := by
    rcases (hused _).mp hx with rfl | hx
    · exact .inl (Set.mem_insert _ _)
    · exact (h.own_of_used hx).imp_left (Set.mem_insert_of_mem _)
  used_of_pend hx := by
    rcases hx with rfl | hx
    · exact (hused _).mpr (.inl rfl)
    · exact (hused _).mpr (.inr (h.used_of_pend hx))
  pend_free hx hr := by
    rcases hx with rfl | hx
    · exact hb (h.used_of_own hr)
    · exact h.pend_free hx hr

/-- A pending block is put into an empty place. -/
theorem record (own' : R → Option B) (h : Owned own used pend) (hb : b ∈ pend) (hr : own r = none) (hr' : own' r = some b)
    (hown : ∀ x, x ≠ r → own' x = own x) : Owned own' used (pend \ {b}) where
  used_of_own {x c} hx := by
    by_cases hxr : x = r
    · subst hxr
      obtain rfl : b = c := Option.some.inj (hr'.symm.trans hx)
      exact h.used_of_pend hb
    · exact h.used_of_own ((hown x hxr).symm.trans hx)
  inj {x y c} hx hy := by
    by_cases hxr : x = r <;> by_cases hyr : y = r
    · rw [hxr, hyr]
    · subst hxr
      obtain rfl : b = c := Option.some.inj (hr'.symm.trans hx)
      exact (h.pend_free hb ((hown y hyr).symm.trans hy)).elim
    · subst hyr
      obtain rfl : b = c := Option.some.inj (hr'.symm.trans hy)
      exact (h.pend_free hb ((hown x hxr).symm.trans hx)).elim
    · exact h.inj ((hown x hxr).symm.trans hx) ((hown y hyr).symm.trans hy)
  own_of_used {c} hc := by
    by_cases hcb : c = b
    · exact .inr ⟨r, hcb ▸ hr'⟩
    · rcases h.own_of_used hc with hp | ⟨x, hx⟩
      · exact .inl ⟨hp, hcb⟩
      · have hxr : x ≠ r := by
          rintro rfl
          rw [hr] at hx
          cases hx
        exact .inr ⟨x, (hown x hxr).trans hx⟩
  used_of_pend hc := h.used_of_pend hc.1
  pend_free {c x} hc hx := by
    by_cases hxr : x = r
    · subst hxr
      exact hc.2 (Option.some.inj (hx.symm.trans hr'))
    · exact h.pend_free hc.1 ((hown x hxr).symm.trans hx)

end Owned

end Owner
