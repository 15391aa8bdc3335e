import Mathlib

/-!
# Programs with a state and errors

`Prog σ ε α` is a program that reads and writes a state `σ` and either returns
an `α` or stops with an error `ε`.  It is `StateT σ (Except ε)`, so programs are
written with `do` and run with the kernel evaluator.

`wp x Q F s` says that `x`, run from `s`, ends well: if it returns `a` in state
`s'` then `Q a s'`, and if it stops with `e` then `F e`.  With `F` false it is
total correctness, with `F` true it is partial correctness.  Every rule below is
an equivalence that pushes `wp` through one construct, so `simp only` runs a
program symbolically.  A call is not unfolded: its own `wp` lemma is weakened by
`wp_mono` or `wp_post`.  After the rules `wp` is irreducible, so that no unification runs a
program.

`zoom` runs a program over one component of a larger state.
-/

/-- A program over the state `σ` that may stop with an error `ε`. -/
abbrev Prog (σ ε α : Type) := StateT σ (Except ε) α

namespace Prog

variable {σ τ ε α β : Type}

/-- The weakest precondition of `x` for the normal postcondition `Q` and the
error postcondition `F`. -/
def wp (x : Prog σ ε α) (Q : α → σ → Prop) (F : ε → Prop) (s : σ) : Prop :=
  match x s with
  | .ok (a, s') => Q a s'
  | .error e => F e

/-! ## Straight-line programs -/

@[simp] theorem wp_pure (a : α) (Q : α → σ → Prop) (F : ε → Prop) (s : σ) :
    wp (pure a : Prog σ ε α) Q F s ↔ Q a s := Iff.rfl

@[simp] theorem wp_throw (e : ε) (Q : α → σ → Prop) (F : ε → Prop) (s : σ) :
    wp (throw e : Prog σ ε α) Q F s ↔ F e := Iff.rfl

@[simp] theorem wp_get (Q : σ → σ → Prop) (F : ε → Prop) (s : σ) :
    wp (get : Prog σ ε σ) Q F s ↔ Q s s := Iff.rfl

@[simp] theorem wp_set (s' : σ) (Q : PUnit → σ → Prop) (F : ε → Prop) (s : σ) :
    wp (set s' : Prog σ ε PUnit) Q F s ↔ Q ⟨⟩ s' := Iff.rfl

@[simp] theorem wp_modify (f : σ → σ) (Q : PUnit → σ → Prop) (F : ε → Prop) (s : σ) :
    wp (modify f : Prog σ ε PUnit) Q F s ↔ Q ⟨⟩ (f s) := Iff.rfl

@[simp] theorem wp_bind (x : Prog σ ε α) (f : α → Prog σ ε β) (Q : β → σ → Prop)
    (F : ε → Prop) (s : σ) :
    wp (x >>= f) Q F s ↔ wp x (fun a s' => wp (f a) Q F s') F s := by
  show wp (StateT.bind x f) Q F s ↔ _
  unfold wp StateT.bind
  cases x s with
  | error e => exact Iff.rfl
  | ok r => exact Iff.rfl

@[simp] theorem wp_map (x : Prog σ ε α) (f : α → β) (Q : β → σ → Prop)
    (F : ε → Prop) (s : σ) :
    wp (f <$> x) Q F s ↔ wp x (fun a s' => Q (f a) s') F s := by
  rw [← bind_pure_comp, wp_bind]
  exact Iff.rfl

@[simp] theorem wp_ite (c : Prop) [Decidable c] (x y : Prog σ ε α) (Q : α → σ → Prop)
    (F : ε → Prop) (s : σ) :
    wp (if c then x else y) Q F s ↔ if c then wp x Q F s else wp y Q F s := by
  split <;> exact Iff.rfl

/-! ## Consequence and reading results off -/

variable {x y : Prog σ ε α} {f : α → Prog σ ε β} {Q Q' : α → σ → Prop} {F F' : ε → Prop} {s s' : σ}
  {a : α}

/-- A postcondition may be weakened, on either exit. -/
theorem wp_mono (h : wp x Q F s) (hQ : ∀ a s', Q a s' → Q' a s') (hF : ∀ e, F e → F' e) :
    wp x Q' F' s := by
  unfold wp at *
  split at h
  · exact hQ _ _ h
  · exact hF _ h

theorem wp_post (h : wp x Q F s) (hQ : ∀ a s', Q a s' → Q' a s') : wp x Q' F s :=
  wp_mono h hQ fun _ he => he

theorem wp_congr (h : ∀ a s', Q a s' ↔ Q' a s') : wp x Q F s ↔ wp x Q' F s :=
  ⟨fun hx => wp_post hx fun a s' => (h a s').mp, fun hx => wp_post hx fun a s' => (h a s').mpr⟩

theorem wp_and (h : wp x Q F s) (h' : wp x Q' F' s) :
    wp x (fun a s' => Q a s' ∧ Q' a s') (fun e => F e ∧ F' e) s := by
  unfold wp at *
  cases hx : x s with
  | error e => rw [hx] at h h'; exact ⟨h, h'⟩
  | ok r => rw [hx] at h h'; exact ⟨h, h'⟩

/-- A postcondition of the runs that return may be added. -/
theorem wp_and_ok (h : wp x Q F s) (h' : wp x Q' (fun _ => True) s) : wp x (fun a s' => Q a s' ∧ Q' a s') F s :=
  wp_mono (wp_and h h') (fun _ _ h => h) fun _ h => h.1

/-- What `wp` promises of a run that returned. -/
theorem wp_ok (h : wp x Q F s) (hx : x s = .ok (a, s')) : Q a s' := by
  unfold wp at h
  rw [hx] at h
  exact h

/-- What `wp` promises of a run that stopped. -/
theorem wp_error {e : ε} (h : wp x Q F s) (hx : x s = .error e) : F e := by
  unfold wp at h
  rw [hx] at h
  exact h

/-- A program that cannot stop returns. -/
theorem wp_total (h : wp x Q (fun _ => False) s) : ∃ a s', x s = .ok (a, s') ∧ Q a s' := by
  unfold wp at h
  split at h
  · exact ⟨_, _, ‹_›, h⟩
  · exact h.elim

/-- A program that cannot return stops. -/
theorem wp_stops (h : wp x (fun _ _ => False) F s) : ∃ e, x s = .error e ∧ F e := by
  unfold wp at h
  split at h
  · exact h.elim
  · exact ⟨_, ‹_›, h⟩

/-- A property of every returning run, from the run itself. -/
theorem wp_of_ok (h : ∀ a s', x s = .ok (a, s') → Q a s') : wp x Q (fun _ => True) s := by
  unfold wp
  split
  · exact h _ _ ‹_›
  · trivial

theorem wp_of_run (hx : x s = .ok (a, s')) (h : Q a s') : wp x Q F s := by
  unfold wp
  rw [hx]
  exact h

/-- The first part of a program has returned. -/
theorem run_bind (h : x s = .ok (a, s')) : (x >>= f) s = f a s' := by
  show StateT.bind x f s = _
  rw [StateT.bind, h]
  rfl

/-- The run itself may be used in what it leads to. -/
theorem wp_run (h : wp x Q F s) :
    wp x (fun a s' => x s = .ok (a, s') ∧ Q a s') F s := by
  unfold wp at h ⊢
  split
  · rename_i hx
    rw [hx] at h
    exact ⟨hx, h⟩
  · rename_i hx
    rw [hx] at h
    exact h

/-! ## A program over a component of the state -/

/-- Run `x` on the component of the state that `read` and `write` select. -/
def zoom (read : σ → τ) (write : τ → σ → σ) (x : Prog τ ε α) : Prog σ ε α := fun s =>
  match x (read s) with
  | .ok (a, t) => .ok (a, write t s)
  | .error e => .error e

@[simp] theorem wp_zoom (read : σ → τ) (write : τ → σ → σ) (x : Prog τ ε α)
    (Q : α → σ → Prop) (F : ε → Prop) (s : σ) :
    wp (zoom read write x) Q F s ↔ wp x (fun a t => Q a (write t s)) F (read s) := by
  unfold wp zoom
  cases x (read s) with
  | error e => exact Iff.rfl
  | ok r => exact Iff.rfl

/-! ## Loops over a list -/

/-- An invariant of a `forM` loop that its body keeps holds at the end.  It is
indexed by the elements still to visit. -/
theorem wp_forM {l : List β} {body : β → Prog σ ε PUnit} {I : List β → σ → Prop}
    {F : ε → Prop} {s : σ} (h0 : I l s)
    (hstep : ∀ b bs s, I (b :: bs) s → wp (body b) (fun _ s' => I bs s') F s) :
    wp (l.forM body) (fun _ s' => I [] s') F s := by
  induction l generalizing s with
  | nil => exact h0
  | cons b bs ih =>
    rw [List.forM_eq_forM, List.forM_cons, wp_bind]
    exact wp_mono (hstep b bs s h0) (fun _ s' h' => ih h') (fun _ he => he)

attribute [irreducible] wp

/-! ## Programs that move the state along -/

/-- `R` is a preorder on the states with `P`, and leads from them to such states. -/
class Steady (P : σ → Prop) (R : σ → σ → Prop) : Prop where
  refl : ∀ {s}, P s → R s s
  trans : ∀ {s s1 s2}, P s → R s s1 → R s1 s2 → R s s2
  stays : ∀ {s s'}, P s → R s s' → P s'

/-- From a state with `P`, a run of `x` that returns ends in a state that `R` relates
to the first. -/
def Moves (P : σ → Prop) (R : σ → σ → Prop) (x : Prog σ ε α) : Prop :=
  ∀ s, P s → wp x (fun _ s' => R s s') (fun _ => True) s

namespace Moves

variable {P : σ → Prop} {R : σ → σ → Prop} [Steady P R]

theorem pure (a : α) : Moves P R (Pure.pure a : Prog σ ε α) := fun s hs => by
  rw [wp_pure]
  exact Steady.refl hs

theorem get : Moves P R (MonadState.get : Prog σ ε σ) := fun s hs => by
  rw [wp_get]
  exact Steady.refl hs

theorem bind (hx : Moves P R x) (hf : ∀ a, Moves P R (f a)) : Moves P R (x >>= f) := by
  intro s hs
  rw [wp_bind]
  refine wp_post (hx s hs) fun a s1 h1 => ?_
  exact wp_post (hf a s1 (Steady.stays hs h1)) fun _ s2 h2 => Steady.trans hs h1 h2

theorem forM {l : List β} {body : β → Prog σ ε PUnit} (h : ∀ b, Moves P R (body b)) :
    Moves P R (l.forM body) := by
  intro s hs
  refine wp_forM (I := fun _ s' => R s s') (Steady.refl hs) fun b bs s1 h1 => ?_
  exact wp_post (h b s1 (Steady.stays hs h1)) fun _ s2 h2 => Steady.trans hs h1 h2

end Moves

/-- Every run of `x` that returns ends in a state that `R` relates to the first. -/
def Along (R : σ → σ → Prop) (x : Prog σ ε α) : Prop :=
  ∀ s, wp x (fun _ s' => R s s') (fun _ => True) s

theorem along_iff {R : σ → σ → Prop} : Along R x ↔ Moves (fun _ => True) R x :=
  forall_congr' fun _ => ⟨fun h _ => h, fun h => h trivial⟩

namespace Along

variable {R : σ → σ → Prop}

theorem throw (e : ε) : Along R (MonadExcept.throw e : Prog σ ε α) := fun s => by
  rw [wp_throw]
  trivial

theorem modify {f : σ → σ} (h : ∀ s, R s (f s)) : Along R (modify f : Prog σ ε PUnit) := fun s => by
  rw [wp_modify]
  exact h s

theorem ite {c : Prop} [Decidable c] (hx : Along R x) (hy : Along R y) :
    Along R (if c then x else y) := iteInduction (fun _ => hx) fun _ => hy

variable [IsPreorder σ R]

instance : Steady (fun _ => True) R :=
  ⟨fun _ => refl _, fun _ h h' => trans_of R h h', fun _ _ => trivial⟩

theorem pure (a : α) : Along R (Pure.pure a : Prog σ ε α) := along_iff.mpr (.pure a)

theorem get : Along R (MonadState.get : Prog σ ε σ) := along_iff.mpr .get

theorem bind (hx : Along R x) (hf : ∀ a, Along R (f a)) : Along R (x >>= f) :=
  along_iff.mpr (.bind (along_iff.mp hx) fun a => along_iff.mp (hf a))

theorem forM {l : List β} {body : β → Prog σ ε PUnit} (h : ∀ b, Along R (body b)) :
    Along R (l.forM body) := along_iff.mpr (.forM fun b => along_iff.mp (h b))

end Along

/-! ## Programs that leave a part of the state alone -/

variable {ρ : Type} {r : σ → ρ}

/-- Every run of `x` that returns leaves the part `r` of the state as it was. -/
def Keeps (r : σ → ρ) (x : Prog σ ε α) : Prop :=
  ∀ s, wp x (fun _ s' => r s' = r s) (fun _ => True) s

/-- What a program keeps may be added to its postcondition. -/
theorem Keeps.wp (h : Keeps r x) (hx : Prog.wp x Q F s) :
    Prog.wp x (fun a s' => Q a s' ∧ r s' = r s) F s :=
  wp_and_ok hx (h s)

instance : IsPreorder σ fun s s' => r s' = r s where
  refl _ := rfl
  trans _ _ _ h h' := h'.trans h

namespace Keeps

theorem pure (a : α) : Keeps r (Pure.pure a : Prog σ ε α) := Along.pure a

theorem throw (e : ε) : Keeps r (MonadExcept.throw e : Prog σ ε α) := Along.throw e

theorem get : Keeps r (MonadState.get : Prog σ ε σ) := Along.get

theorem modify {f : σ → σ} (h : ∀ s, r (f s) = r s) : Keeps r (modify f : Prog σ ε PUnit) :=
  Along.modify h

theorem bind (hx : Keeps r x) (hf : ∀ a, Keeps r (f a)) : Keeps r (x >>= f) := Along.bind hx hf

theorem ite {c : Prop} [Decidable c] (hx : c → Keeps r x) (hy : ¬ c → Keeps r y) :
    Keeps r (if c then x else y) := iteInduction hx hy

/-- What a program keeps, it keeps in every part. -/
theorem comp {ρ' : Type} (h : Keeps r x) (g : ρ → ρ') : Keeps (fun s => g (r s)) x :=
  fun s => wp_post (h s) fun _ _ he => congrArg g he

theorem forM {l : List β} {body : β → Prog σ ε PUnit} (h : ∀ b, Keeps r (body b)) :
    Keeps r (l.forM body) := Along.forM h

/-- A program over another component. -/
theorem zoom {read : σ → τ} {write : τ → σ → σ} {x : Prog τ ε α}
    (h : ∀ t s, r (write t s) = r s) : Keeps r (zoom read write x) := by
  intro s
  rw [wp_zoom]
  exact wp_of_ok fun _ t _ => h t s

end Keeps

end Prog
