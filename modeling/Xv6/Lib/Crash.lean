import Mathlib

/-!
# Crashes between atomic writes

A disk maps addresses to blocks, and a write replaces one block.  A procedure is
seen from the disk as the list of writes it makes, the first one first.  A crash
leaves the disk with a prefix of that list applied.

`Crashes run d d'` says that `d'` is the disk after the procedure `run` was
started on `d` any number of times, each time crashing after any number of its
writes.  `run d ws` holds when the procedure, started on `d`, makes the writes
`ws`.  What every prefix of every run keeps is kept by any number of crashes
(`Crashes.invariant`).
-/

namespace Crash

variable {ι β : Type} [DecidableEq ι]

/-- The disk after some writes. -/
def applyAll (d : ι → β) (ws : List (ι × β)) : ι → β :=
  ws.foldl (fun d w => Function.update d w.1 w.2) d

@[simp] theorem applyAll_nil (d : ι → β) : applyAll d [] = d := rfl

@[simp] theorem applyAll_cons (d : ι → β) (w : ι × β) (ws : List (ι × β)) :
    applyAll d (w :: ws) = applyAll (Function.update d w.1 w.2) ws := rfl

theorem applyAll_append (d : ι → β) (ws vs : List (ι × β)) :
    applyAll d (ws ++ vs) = applyAll (applyAll d ws) vs := by
  unfold applyAll
  exact List.foldl_append

/-- A block that no write names is as before. -/
theorem applyAll_of_ne {d : ι → β} {ws : List (ι × β)} {i : ι} (h : ∀ w ∈ ws, w.1 ≠ i) :
    applyAll d ws i = d i := by
  induction ws generalizing d with
  | nil => rfl
  | cons w ws ih =>
    rw [applyAll_cons, ih fun v hv => h v (List.mem_cons_of_mem w hv),
      Function.update_of_ne (h w List.mem_cons_self).symm]

/-- With distinct addresses every write is there at the end. -/
theorem applyAll_of_mem {d : ι → β} {ws : List (ι × β)} {w : ι × β}
    (hnodup : (ws.map Prod.fst).Nodup) (h : w ∈ ws) : applyAll d ws w.1 = w.2 := by
  induction ws generalizing d with
  | nil => cases h
  | cons v vs ih =>
    rw [List.map_cons, List.nodup_cons] at hnodup
    rw [applyAll_cons]
    rcases List.mem_cons.mp h with rfl | hmem
    · rw [applyAll_of_ne, Function.update_self]
      intro u hu hne
      exact hnodup.1 (hne ▸ List.mem_map_of_mem hu)
    · exact ih hnodup.2 hmem

/-- A property that each write keeps is kept by every prefix. -/
theorem applyAll_take_induct {P : (ι → β) → Prop} {d : ι → β} {ws : List (ι × β)} (h0 : P d)
    (hstep : ∀ d, ∀ w ∈ ws, P d → P (Function.update d w.1 w.2)) (k : Nat) :
    P (applyAll d (ws.take k)) := by
  induction ws generalizing d k with
  | nil => rw [List.take_nil]; exact h0
  | cons w ws ih =>
    cases k with
    | zero => exact h0
    | succ k =>
      rw [List.take_succ_cons, applyAll_cons]
      exact ih (hstep d w List.mem_cons_self h0)
        (fun d v hv => hstep d v (List.mem_cons_of_mem w hv)) k

/-- A prefix of `ws ++ [w]` is a prefix of `ws` or all of it. -/
theorem take_append_singleton {α : Type} (ws : List α) (w : α) (k : Nat) :
    (∃ j, (ws ++ [w]).take k = ws.take j) ∨ (ws ++ [w]).take k = ws ++ [w] := by
  rcases Nat.lt_or_ge ws.length k with h | h
  · refine .inr (List.take_of_length_le ?_)
    rw [List.length_append, List.length_singleton]
    exact h
  · exact .inl ⟨k, List.take_append_of_le_length h⟩

/-- The disks that crashes of `run` lead to. -/
inductive Crashes (run : (ι → β) → List (ι × β) → Prop) (d : ι → β) : (ι → β) → Prop where
  | refl : Crashes run d d
  | crash {d' : ι → β} {ws : List (ι × β)} (k : Nat) :
      Crashes run d d' → run d' ws → Crashes run d (applyAll d' (ws.take k))

/-- What every prefix of a run keeps holds after any number of crashes. -/
theorem Crashes.invariant {run : (ι → β) → List (ι × β) → Prop} {I : (ι → β) → Prop}
    {d d' : ι → β} (h : Crashes run d d') (h0 : I d)
    (hrun : ∀ d ws k, I d → run d ws → I (applyAll d (ws.take k))) : I d' := by
  induction h with
  | refl => exact h0
  | crash k _ hws ih => exact hrun _ _ k ih hws

end Crash
