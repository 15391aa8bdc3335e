import Xv6.Machine.Vm

/-!
# Counts wrap in `incref` only

The history variable `wraps` counts the increments that found 255.  The memory
code that does not call `incref` leaves it alone.
-/

namespace Xv6

open Prog


theorem kalloc_wraps : Keeps Mem.wraps kalloc := by
  intro m
  unfold kalloc
  rw [wp_bind, wp_get]
  cases m.freelist with
  | nil =>
    rw [wp_bind, wp_set, wp_pure]
    rfl
  | cons f fs =>
    rw [wp_bind, wp_set, wp_pure]
    rfl

theorem walkpgdir_wraps (pgdir va : Nat) (alloc : Bool) :
    Keeps Mem.wraps (walkpgdir pgdir va alloc) := by
  unfold walkpgdir loadWord
  refine .bind (.bind .get fun _ => .pure _) fun pde => .ite (fun _ => .pure _) fun _ =>
    .ite (fun _ => .bind kalloc_wraps fun r => ?_) fun _ => .pure _
  cases r with
  | none => exact .pure _
  | some f => exact .bind (.modify fun _ => rfl) fun _ => .bind (.modify fun _ => rfl) fun _ => .pure _

/-- One round of the loop of `mappages`, before the rest `k`. -/
theorem mapStep_wraps {k : M Bool} (pgdir a : Nat) (w : Word) (hk : Keeps Mem.wraps k) :
    Keeps Mem.wraps (do
      match ← walkpgdir pgdir a true with
      | none => pure false
      | some p => do
        let pte ← load p
        if flag pte pteP then panic "remap"
        else do
          store p w
          k) := by
  refine .bind (walkpgdir_wraps _ _ _) fun r => ?_
  cases r with
  | none => exact .pure _
  | some p =>
    exact .bind (.bind .get fun _ => .pure _) fun _ => .ite (fun _ => .throw _) fun _ =>
      .bind (.modify fun _ => rfl) fun _ => hk

theorem mapLoop_wraps (pgdir : Nat) (perm : Word) (n : Nat) :
    ∀ a pa, Keeps Mem.wraps (mapLoop pgdir perm n a pa) := by
  induction n with
  | zero =>
    intro a pa
    rw [mapLoop]
    exact mapStep_wraps _ a _ (.pure _)
  | succ n ih =>
    intro a pa
    rw [mapLoop]
    exact mapStep_wraps _ a _ (ih _ _)

theorem mappages_wraps (pgdir va size pa : Nat) (perm : Word) :
    Keeps Mem.wraps (mappages pgdir va size pa perm) :=
  mapLoop_wraps _ _ _ _ _

variable [Link]

theorem kfree_wraps (v : Nat) : Keeps Mem.wraps (kfree v) := by
  unfold kfree getRefCount
  refine .ite (fun _ => .throw _) fun _ => .bind (.ite (fun _ => .throw _) fun _ =>
    .bind .get fun _ => .pure _) fun n => .ite (fun _ => .pure _) fun _ => .modify fun _ => rfl

theorem deallocLoop_wraps (pgdir oldsz : Nat) (n : Nat) :
    ∀ a, oldsz - a = n → Keeps Mem.wraps (deallocLoop pgdir oldsz a) := by
  induction n using Nat.strong_induction_on with
  | _ n ih =>
    intro a hn
    rw [deallocLoop]
    refine .ite (fun hlt => ?_) fun _ => .pure _
    refine .bind (walkpgdir_wraps _ _ _) fun r => ?_
    have hnext : Keeps Mem.wraps (deallocLoop pgdir oldsz (a + pgsize)) :=
      ih (oldsz - (a + pgsize)) (by rw [pgsize_eq]; omega) _ rfl
    cases r with
    | none => exact ih (oldsz - (a / 2 ^ 22 + 1) * 2 ^ 22) (by omega) _ rfl
    | some p =>
      refine .bind (.bind .get fun _ => .pure _) fun _ => .ite (fun _ => ?_) fun _ => hnext
      exact .ite (fun _ => .throw _) fun _ => .bind (kfree_wraps _) fun _ =>
        .bind (.modify fun _ => rfl) fun _ => hnext

theorem deallocuvm_wraps (pgdir oldsz newsz : Nat) :
    Keeps Mem.wraps (deallocuvm pgdir oldsz newsz) := by
  unfold deallocuvm
  exact .ite (fun _ => .pure _) fun _ => .bind (deallocLoop_wraps _ _ _ _ rfl) fun _ => .pure _

theorem freevm_wraps (pgdir : Nat) : Keeps Mem.wraps (freevm pgdir) := by
  unfold freevm
  refine .ite (fun _ => .throw _) fun _ => .bind (deallocuvm_wraps _ _ _) fun _ => .bind ?_ fun _ =>
    kfree_wraps _
  refine .forM fun i => .bind (.bind .get fun _ => .pure _) fun _ => ?_
  exact .ite (fun _ => kfree_wraps _) fun _ => .pure _

omit [Link] in
theorem mapKmap_wraps (pgdir : Nat) (ks : List Kmap) : Keeps Mem.wraps (mapKmap pgdir ks) := by
  induction ks with
  | nil => exact .pure _
  | cons k ks ih =>
    rw [mapKmap]
    exact .bind (mappages_wraps _ _ _ _ _) fun _ => .ite (fun _ => ih) fun _ => .pure _

theorem setupkvm_wraps : Keeps Mem.wraps setupkvm := by
  unfold setupkvm
  refine .bind kalloc_wraps fun r => ?_
  cases r with
  | none => exact .pure _
  | some d =>
    refine .bind (.modify fun _ => rfl) fun _ => .ite (fun _ => .throw _) fun _ =>
      .bind (mapKmap_wraps _ _) fun _ => .ite (fun _ => .pure _) fun _ =>
      .bind (freevm_wraps _) fun _ => .pure _

end Xv6
