import Xv6.Machine.Vm

/-!
# Releasing page by page

Where a page table is missing, the loop of `deallocuvm` moves its own counter to one
page before the next 4 MB boundary, and the increment of the loop takes it there.
`releasePages` is the loop that visits every page.  The two are one program, whatever
the directory holds: the pages up to the boundary are all looked up through the one
missing entry, and nothing is written in between (`round_release`).

`deallocFor` is the loop with its `uint` counter and a bound on its rounds.
-/

namespace Xv6

open Prog

theorem walkpgdir_run (m : Mem) (d va : Nat) :
    walkpgdir d va false m =
      .ok (if flag (word (m.page d) (pdx va)) pteP then
        some (frame (word (m.page d) (pdx va)), ptx va) else none, m) := by
  unfold walkpgdir loadWord
  cases hp : flag (word (m.page d) (pdx va)) pteP <;>
    simp [hp, bind, StateT.bind, Except.bind, get, getThe, MonadStateOf.get, StateT.get, pure,
      StateT.pure, Except.pure]

theorem lt_npages_iff (v sz : Nat) : v < npages sz ↔ v * pgsize < sz := by
  rw [npages, pgsize_eq]
  omega

/-- A range from `v` on, cut at `u`. -/
theorem range'_cut {v n u : Nat} (h : v ≤ u) :
    List.range' v n = List.range' v (n - (v + n - u)) ++ List.range' u (v + n - u) := by
  obtain ⟨k, rfl⟩ : ∃ k, u = v + k := ⟨u - v, by omega⟩
  rw [Nat.add_sub_add_left]
  rcases Nat.le_total n k with hle | hle
  · rw [Nat.sub_eq_zero_of_le hle, List.range'_zero, List.append_nil, Nat.sub_zero]
  · rw [Nat.sub_sub_self hle, List.range'_append_1, Nat.add_sub_cancel' hle]

variable [Link] {α : Type}

/-! ## Visiting every page -/

/-- Release the page at `a`, if it is present.  Returns the frame handed to `kfree`. -/
def releasePage (pgdir a : Nat) : M (Option Nat) := do
  match ← walkpgdir pgdir a false with
  | none => pure none
  | some p => do
    let pte ← load p
    if flag pte pteP then
      if pteAddr pte = 0 then panic "kfree"
      else do
        kfree (p2v (pteAddr pte))
        store p 0#32
        pure (some (frame pte))
    else pure none

/-- Visit pages one after the other.  Returns the frames handed to `kfree`, in order. -/
def releasePages (pgdir : Nat) : List Nat → M (List Nat)
  | [] => pure []
  | v :: vs => do
    let f ← releasePage pgdir (v * pgsize)
    let fs ← releasePages pgdir vs
    pure (f.toList ++ fs)

/-- The body of the loop of `deallocuvm`, before the rest of the loop: `k`, or `skip`
where there is no page table. -/
def round (pgdir a : Nat) (k skip : M α) : M α := do
  match ← walkpgdir pgdir a false with
  | none => skip
  | some p => do
    let pte ← load p
    if flag pte pteP then
      if pteAddr pte = 0 then panic "kfree"
      else do
        kfree (p2v (pteAddr pte))
        store p 0#32
        k
    else k

omit [Link] in
theorem walkpgdir_bind {m : Mem} (d a : Nat) (f : Option PtePtr → M α) :
    (walkpgdir d a false >>= f) m = f (if flag (word (m.page d) (pdx a)) pteP then
      some (frame (word (m.page d) (pdx a)), ptx a) else none) m :=
  run_bind (walkpgdir_run m d a)

theorem releasePage_absent {m : Mem} {d a : Nat}
    (h : flag (word (m.page d) (pdx a)) pteP = false) : releasePage d a m = .ok (none, m) := by
  rw [releasePage, walkpgdir_bind, h]
  rfl

/-- Where there is a page table, the page is released. -/
theorem round_run (d a : Nat) (k skip : M α) (m : Mem) : round d a k skip m =
    if flag (word (m.page d) (pdx a)) pteP then (releasePage d a >>= fun _ => k) m
    else skip m := by
  rw [round, walkpgdir_bind]
  cases h : flag (word (m.page d) (pdx a)) pteP with
  | false => rfl
  | true =>
    rw [releasePage, bind_assoc, walkpgdir_bind, h, if_pos rfl, if_pos rfl]
    dsimp only
    rw [bind_assoc]
    refine congrFun (congrArg (load _ >>= ·) (funext fun pte => ?_)) m
    split
    · split
      · rfl
      · simp only [bind_assoc, pure_bind]
    · rw [pure_bind]

/-- Pages without a page table are passed over. -/
theorem releasePages_absent {m : Mem} {d : Nat} (ws : List Nat) (vs : List Nat)
    (h : ∀ v ∈ vs, flag (word (m.page d) (pdx (v * pgsize))) pteP = false) :
    releasePages d (vs ++ ws) m = releasePages d ws m := by
  induction vs with
  | nil => rfl
  | cons v vs ih =>
    obtain ⟨hv, hvs⟩ := List.forall_mem_cons.mp h
    rw [List.cons_append, releasePages, run_bind (releasePage_absent hv)]
    show (releasePages d (vs ++ ws) >>= fun fs => pure fs) m = _
    rw [bind_pure]
    exact ih hvs

/-- The first page after those of the page table of `v`. -/
def nextTable (v : Nat) : Nat := (v / npdentries + 1) * npdentries

omit [Link] in
theorem lt_nextTable (v : Nat) : v < nextTable v := by
  rw [nextTable, npdentries_eq]
  omega

omit [Link] in
theorem nextTable_mul (v : Nat) :
    (v * pgsize / 2 ^ 22 + 1) * 2 ^ 22 = nextTable v * pgsize := by
  rw [nextTable, npdentries_eq, pgsize_eq]
  omega

/-- One round of the loop, with the rest of it visiting every page. -/
theorem round_release (d v n : Nat) (y : M α) :
    round d (v * pgsize) (releasePages d (List.range' (v + 1) n) >>= fun _ => y)
      (releasePages d (List.range' (nextTable v) (v + (n + 1) - nextTable v)) >>= fun _ => y) =
    releasePages d (List.range' v (n + 1)) >>= fun _ => y := by
  funext m
  rw [round_run]
  cases hp : flag (word (m.page d) (pdx (v * pgsize))) pteP with
  | true =>
    rw [if_pos rfl, List.range'_succ, releasePages]
    simp only [bind_assoc, pure_bind]
  | false =>
    have hsame : ∀ u ∈ List.range' v (n + 1 - (v + (n + 1) - nextTable v)),
        flag (word (m.page d) (pdx (u * pgsize))) pteP = false := by
      intro u hu
      have hpdx : pdx (u * pgsize) = pdx (v * pgsize) := by
        rw [List.mem_range'_1, nextTable] at hu
        rw [pdx, pdx, pgsize_eq]
        rw [npdentries_eq] at *
        omega
      rw [hpdx, hp]
    rw [if_neg (by decide), range'_cut (Nat.le_of_lt (lt_nextTable v))]
    show _ = StateT.bind _ _ m
    rw [StateT.bind, releasePages_absent _ _ hsame]
    rfl

/-- The loop of `deallocuvm` is the loop over every page. -/
theorem deallocLoop_eq (d oldsz : Nat) (n : Nat) : ∀ v, npages oldsz - v = n →
    deallocLoop d oldsz (v * pgsize) = releasePages d (List.range' v n) >>= fun _ => pure () := by
  induction n using Nat.strong_induction_on with
  | _ n ih =>
    intro v hn
    have hlt := lt_npages_iff v oldsz
    rw [deallocLoop]
    cases n with
    | zero =>
      rw [if_neg fun h => by have := hlt.mpr h; omega]
      rfl
    | succ n =>
      have hnext := lt_nextTable v
      rw [if_pos (hlt.mp (by omega)), ← round_release, ← ih n (by omega) (v + 1) (by omega),
        ← ih (v + (n + 1) - nextTable v) (by omega) (nextTable v) (by omega), nextTable_mul,
        Nat.succ_mul]
      rfl

/-- The pages between two sizes. -/
def pagesBetween (lo hi : Nat) : List Nat := List.range' (npages lo) (npages hi - npages lo)

theorem deallocuvm_eq (d : Nat) {oldsz newsz : Nat} (h : newsz < oldsz) :
    deallocuvm d oldsz newsz = (do
      let _ ← releasePages d (pagesBetween newsz oldsz)
      pure newsz) := by
  rw [deallocuvm, if_neg (by omega), show pgroundup newsz = npages newsz * pgsize from rfl,
    deallocLoop_eq d oldsz _ _ rfl, bind_assoc]
  rfl

/-! ## The `uint` counter -/

/-- `PGADDR`. -/
def pgaddr (d t o : Word) : Word := d <<< 22 ||| t <<< 12 ||| o

/-- The loop of `deallocuvm` at the counter `a`.  Returns whether it ended in fewer
than `fuel` rounds. -/
def deallocFor (pgdir : Nat) (oldsz : Word) : Nat → Word → M Bool
  | 0, _ => pure false
  | fuel + 1, a =>
    if a < oldsz then
      round pgdir a.toNat (deallocFor pgdir oldsz fuel (a + 4096#32))
        (deallocFor pgdir oldsz fuel
          (pgaddr (BitVec.ofNat 32 (pdx a.toNat) + 1#32) 0#32 0#32 - 4096#32 + 4096#32))
    else pure true

/-- `deallocuvm`, with `none` for a loop that has not ended. -/
def deallocuvmFor (pgdir : Nat) (oldsz newsz : Word) (fuel : Nat) : M (Option Word) := do
  if oldsz ≤ newsz then pure (some oldsz)
  else do
    let done ← deallocFor pgdir oldsz fuel ((newsz + 4095#32) &&& ~~~4095#32)
    pure (if done then some newsz else none)

omit [Link] in
theorem jump_toNat {v : Nat} (h : v < userPages) :
    pgaddr (BitVec.ofNat 32 (pdx (v * pgsize)) + 1#32) 0#32 0#32 - 4096#32 + 4096#32 =
      BitVec.ofNat 32 (nextTable v * pgsize) := by
  rw [userPages_eq] at h
  rw [BitVec.sub_add_cancel, pgaddr, ← nextTable_mul]
  apply BitVec.eq_of_toNat_eq
  have hpdx : pdx (v * pgsize) = v * pgsize / 2 ^ 22 := by
    rw [pdx, npdentries_eq, pgsize_eq]
    omega
  simp only [BitVec.zero_shiftLeft, BitVec.or_zero, BitVec.toNat_shiftLeft, BitVec.toNat_add,
    BitVec.toNat_ofNat, hpdx, Nat.shiftLeft_eq]
  rw [pgsize_eq]
  omega

/-- Enough rounds for the pages that are left, and the loop has visited them. -/
theorem deallocFor_eq (d : Nat) {oldsz : Word} (hsz : oldsz.toNat ≤ kernbase) (fuel : Nat) :
    ∀ n v, npages oldsz.toNat - v = n → v ≤ userPages → n < fuel →
      deallocFor d oldsz fuel (BitVec.ofNat 32 (v * pgsize)) =
        releasePages d (List.range' v n) >>= fun _ => pure true := by
  have hnp : npages oldsz.toNat ≤ userPages := by
    rw [npages, userPages_eq, pgsize_eq]
    rw [kernbase_eq] at hsz
    omega
  induction fuel with
  | zero => intro n v _ _ hfuel; omega
  | succ fuel ih =>
    intro n v hn hv hfuel
    have hnat : (BitVec.ofNat 32 (v * pgsize)).toNat = v * pgsize := by
      rw [BitVec.toNat_ofNat]
      refine Nat.mod_eq_of_lt ?_
      rw [userPages_eq] at hv
      rw [pgsize_eq]
      omega
    have hlt : v < npages oldsz.toNat ↔ BitVec.ofNat 32 (v * pgsize) < oldsz := by
      rw [lt_npages_iff, BitVec.lt_def, hnat]
    rw [deallocFor, hnat]
    cases n with
    | zero =>
      rw [if_neg fun h => by have := hlt.mpr h; omega]
      rfl
    | succ n =>
      have hnext := lt_nextTable v
      have htop : nextTable v ≤ userPages := by
        have : v < userPages := by omega
        rw [nextTable, npdentries_eq]
        rw [userPages_eq] at *
        omega
      have hsucc : BitVec.ofNat 32 (v * pgsize) + 4096#32 = BitVec.ofNat 32 ((v + 1) * pgsize) := by
        rw [Nat.succ_mul, BitVec.ofNat_add]
        rfl
      rw [if_pos (hlt.mp (by omega)), jump_toNat (by omega), hsucc, ← round_release,
        ih n (v + 1) (by omega) (by omega) (by omega),
        ih (v + (n + 1) - nextTable v) (nextTable v) (by omega) htop (by omega)]

theorem deallocuvmFor_eq (d : Nat) {oldsz newsz : Word} {fuel : Nat} (hlt : newsz < oldsz)
    (hsz : oldsz.toNat ≤ kernbase) (hfuel : userPages < fuel) :
    deallocuvmFor d oldsz newsz fuel = (do
      let _ ← releasePages d (pagesBetween newsz.toNat oldsz.toNat)
      pure (some newsz)) := by
  have hlt' : newsz.toNat < oldsz.toNat := hlt
  have hstart : (newsz + 4095#32) &&& ~~~4095#32 = BitVec.ofNat 32 (npages newsz.toNat * pgsize) := by
    apply BitVec.eq_of_toNat_eq
    have haddr := pteAddr_eq (newsz + 4095#32)
    rw [pteAddr, frame] at haddr
    rw [show (4095#32 : Word) = 0xFFF#32 from rfl, haddr, BitVec.toNat_ushiftRight,
      BitVec.toNat_add, BitVec.toNat_ofNat, BitVec.toNat_ofNat, npages, Nat.shiftRight_eq_div_pow]
    rw [kernbase_eq] at hsz
    rw [pgsize_eq]
    omega
  have hle : npages newsz.toNat ≤ userPages ∧ npages oldsz.toNat ≤ userPages := by
    rw [npages, npages, userPages_eq, pgsize_eq]
    rw [kernbase_eq] at hsz
    omega
  rw [deallocuvmFor, if_neg (by rw [BitVec.le_def]; omega), hstart,
    deallocFor_eq d hsz fuel _ _ rfl hle.1 (by omega), bind_assoc]
  rfl

end Xv6
