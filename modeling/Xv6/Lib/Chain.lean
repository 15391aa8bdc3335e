import Mathlib

/-!
# Chains of pointers

A memory of cells that each name the next one is a function `next`.  `Seg next a xs b`
says that following it from `a` visits the cells `xs` in turn and then stands at `b`.  A
list that ends in a null pointer is a segment that ends there, and a circular list is
one that ends where it began.

Segments are taken apart by `Seg.append_iff`, and a store into a cell outside a segment
leaves it alone (`Seg.update`).  A search along a circular list ends if some cell of it is
looked for (`Seg.search_cycle`), and a walk that comes back to where it began has been
everywhere (`Seg.mem_of_closed`).
-/

namespace Chain

variable {α : Type} {next next' : α → α} {a b c x : α} {xs ys : List α}

/-- From `a` along `xs` to `b`. -/
def Seg (next : α → α) : α → List α → α → Prop
  | a, [], b => a = b
  | a, x :: xs, b => a = x ∧ Seg next (next x) xs b

@[simp] theorem seg_nil : Seg next a [] b ↔ a = b := Iff.rfl

@[simp] theorem seg_cons : Seg next a (x :: xs) b ↔ a = x ∧ Seg next (next x) xs b := Iff.rfl

theorem Seg.append_iff : Seg next a (xs ++ ys) c ↔ ∃ b, Seg next a xs b ∧ Seg next b ys c := by
  induction xs generalizing a with
  | nil => simp
  | cons x xs ih =>
    simp only [List.cons_append, seg_cons, ih]
    constructor
    · rintro ⟨rfl, b, hxs, hys⟩
      exact ⟨b, ⟨rfl, hxs⟩, hys⟩
    · rintro ⟨b, ⟨rfl, hxs⟩, hys⟩
      exact ⟨rfl, b, hxs, hys⟩

theorem Seg.concat_iff : Seg next a (xs ++ [x]) b ↔ Seg next a xs x ∧ next x = b := by
  rw [Seg.append_iff]
  constructor
  · rintro ⟨c, hxs, rfl, hb⟩
    exact ⟨hxs, hb⟩
  · rintro ⟨hxs, hb⟩
    exact ⟨x, hxs, rfl, hb⟩

theorem Seg.congr (h : ∀ y ∈ xs, next' y = next y) :
    Seg next' a xs b ↔ Seg next a xs b := by
  induction xs generalizing a with
  | nil => rfl
  | cons x xs ih =>
    rw [seg_cons, seg_cons, h x (by simp), ih fun y hy => h y (by simp [hy])]

/-- A store into a cell outside a segment leaves the segment alone. -/
theorem Seg.update [DecidableEq α] (h : x ∉ xs) :
    Seg (Function.update next x c) a xs b ↔ Seg next a xs b :=
  Seg.congr fun _ hy => Function.update_of_ne (ne_of_mem_of_not_mem hy h) ..

/-- Taking a segment apart at a cell. -/
theorem Seg.split (h : Seg next a xs b) (hx : x ∈ xs) :
    ∃ ys zs, xs = ys ++ x :: zs ∧ Seg next a ys x ∧ Seg next (next x) zs b := by
  obtain ⟨ys, zs, rfl⟩ := List.append_of_mem hx
  obtain ⟨c, hys, rfl, hzs⟩ := Seg.append_iff.mp h
  exact ⟨ys, zs, rfl, hys, hzs⟩

/-- The cell after one of a segment is a later one of it, or the end. -/
theorem Seg.next_cases {R : α → α → Prop} (h : Seg next a xs b) (hR : xs.Pairwise R) (hx : x ∈ xs) :
    next x ∈ xs ∧ R x (next x) ∨ next x = b := by
  obtain ⟨ys, zs, rfl, -, hzs⟩ := h.split hx
  cases zs with
  | nil => exact .inr hzs
  | cons z zs =>
    obtain ⟨rfl, -⟩ := hzs
    have hlater := (List.pairwise_cons.mp (List.pairwise_append.mp hR).2.1).1
    exact .inl ⟨by simp, hlater _ (by simp)⟩

section

variable (h : Seg next a xs a) (hx : x ∈ xs)
include h hx

/-- The cell after one of a circular list is in it. -/
theorem Seg.next_mem : next x ∈ xs := by
  obtain ⟨ys, zs, rfl, hys, hzs⟩ := h.split hx
  cases zs with
  | nil =>
    rw [seg_nil.mp hzs]
    cases ys with
    | nil => simpa using hys
    | cons y ys => simp [hys.1]
  | cons z zs => simp [hzs.1]

/-- A walk that comes back has visited every cell that can be reached. -/
theorem Seg.mem_of_closed (hy : Seg next x ys b) : b ∈ xs := by
  induction ys generalizing x with
  | nil => exact hy ▸ hx
  | cons y ys ih =>
    obtain ⟨rfl, hy⟩ := hy
    exact ih (h.next_mem hx) hy

/-- In a circular list there is a way from each cell to each other, shorter than the list. -/
theorem Seg.path {y : α} (hy : y ∈ xs) :
    ∃ zs, Seg next x zs y ∧ zs.length < xs.length := by
  obtain ⟨us, vs, rfl, hus, hvs⟩ := h.split hx
  rcases List.mem_append.mp hy with hy | hy
  · -- around the end
    obtain ⟨ps, qs, rfl, hps, -⟩ := hus.split hy
    refine ⟨x :: vs ++ ps, Seg.append_iff.mpr ⟨a, ⟨rfl, hvs⟩, hps⟩, ?_⟩
    simp
    omega
  · obtain ⟨ps, qs, hpq, hps, -⟩ := Seg.split (show Seg next x (x :: vs) a from ⟨rfl, hvs⟩) hy
    refine ⟨ps, hps, ?_⟩
    rw [hpq]
    simp
    omega

end

/-- Every cell of a cycle is the next of one. -/
theorem Seg.exists_prev {y : α} (h : Seg next a xs a) (hy : y ∈ xs) : ∃ x ∈ xs, next x = y := by
  obtain ⟨ps, qs, rfl, hps, hqs⟩ := h.split hy
  rcases ps.eq_nil_or_concat with rfl | ⟨ps, x, rfl⟩
  · obtain rfl : a = y := hps
    obtain ⟨us, x, hux⟩ : ∃ us x, a :: qs = us ++ [x] :=
      ⟨_, _, (List.dropLast_append_getLast (List.cons_ne_nil _ _)).symm⟩
    rw [List.nil_append, hux] at h
    exact ⟨x, by simp [hux], (Seg.concat_iff.mp h).2⟩
  · rw [List.concat_eq_append] at *
    exact ⟨x, by simp, (Seg.concat_iff.mp hps).2⟩

/-- Follow `next` to the first cell at which to stop, for at most as many cells as given. -/
def search (next : α → α) (stop : α → Bool) : Nat → α → Option α
  | 0, _ => none
  | n + 1, x => if stop x then some x else search next stop n (next x)

/-- A search that comes to an end has passed over the cells before it. -/
theorem search_eq_some {stop : α → Bool} {n : Nat} (h : search next stop n x = some b) :
    stop b = true ∧ ∃ ys, Seg next x ys b ∧ ∀ y ∈ ys, stop y = false := by
  induction n generalizing x with
  | zero => simp [search] at h
  | succ n ih =>
    rw [search] at h
    split at h
    · next hstop =>
      obtain rfl := Option.some.inj h
      exact ⟨hstop, [], rfl, by simp⟩
    · next hstop =>
      obtain ⟨hb, ys, hys, hall⟩ := ih h
      exact ⟨hb, x :: ys, ⟨rfl, hys⟩, by simpa [hstop] using hall⟩

/-- A search ends at the latest where there is a cell at which to stop. -/
theorem Seg.search {stop : α → Bool} {n : Nat} (h : Seg next a xs b) (hb : stop b = true)
    (hn : xs.length < n) : ∃ c, search next stop n a = some c := by
  induction xs generalizing a n with
  | nil =>
    obtain ⟨n, rfl⟩ := Nat.exists_eq_succ_of_ne_zero (by omega : n ≠ 0)
    exact ⟨a, by rw [Chain.search, seg_nil.mp h, if_pos hb]⟩
  | cons x xs ih =>
    obtain ⟨n, rfl⟩ := Nat.exists_eq_succ_of_ne_zero (by omega : n ≠ 0)
    obtain ⟨rfl, h⟩ := h
    rw [Chain.search]
    split
    · exact ⟨a, rfl⟩
    · exact ih h (Nat.lt_of_succ_lt_succ hn)

/-- A search in a circular list ends in the list if there is a cell at which to stop. -/
theorem Seg.search_cycle {stop : α → Bool} {n : Nat} {y : α} (h : Seg next a xs a) (hx : x ∈ xs)
    (hy : y ∈ xs) (hstop : stop y = true) (hn : xs.length ≤ n) :
    ∃ c ∈ xs, Chain.search next stop n x = some c := by
  obtain ⟨zs, hzs, hlen⟩ := h.path hx hy
  obtain ⟨c, hc⟩ := hzs.search (n := n) hstop (by omega)
  obtain ⟨-, ys, hys, -⟩ := search_eq_some hc
  exact ⟨c, h.mem_of_closed hx hys, hc⟩

/-- A search that comes back to where it began has passed over every other cell. -/
theorem Seg.search_all {stop : α → Bool} {n : Nat} {r y : α} (h : Seg next a xs a) (hx : x ∈ xs)
    (hs : Chain.search next stop n x = some r) (hr : next r = x) (hy : y ∈ xs) :
    y = r ∨ stop y = false := by
  obtain ⟨-, ys, hys, hstop⟩ := search_eq_some hs
  obtain ⟨zs, hzs, -⟩ := h.path hx hy
  have hround : Seg next x (ys ++ [r]) x := Seg.concat_iff.mpr ⟨hys, hr⟩
  have hmem : x ∈ ys ++ [r] := by
    rcases ys with _ | ⟨z, ys⟩
    · simp [seg_nil.mp hys]
    · simp [hys.1]
  rcases List.mem_append.mp (hround.mem_of_closed hmem hzs) with hy | hy
  · exact .inr (hstop y hy)
  · exact .inl (List.mem_singleton.mp hy)

end Chain
