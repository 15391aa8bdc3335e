import Xv6.Machine.Rep
import Xv6.Machine.Skip

/-!
# Mapping pages and looking them up

What `mappages` does to the translations of one directory, for a memory of which
nothing else is known.  The other modules reason about all page tables at once
through `Rep`; here the only assumption is `Tables`: the pages that make up the
page table are distinct frames, none of them on the free list.

*Lookup.*  `Mem.translation` is what `walkpgdir` without allocation finds, and
`va2pa` returns its address (`va2pa_run`).  It depends on the memory through one
entry (`translation_eq`).

*Update.*  A new page table changes no entry (`Tables.addTable`) and a store
through the pointer `walkpgdir` returns changes one (`Tables.storePte`).  The
loop of `mappages` is these two steps for each page, so that its pages get their
entries in turn and all others keep theirs (`Tables.mapLoop`).
-/

namespace Xv6

open Prog

variable {v d va : Nat} {perm : Word} {m : Mem}

/-! ## Lookup -/

/-- The entry for page `v` in the directory `d`, 0 where there is no page table. -/
def Mem.entry (m : Mem) (d v : Nat) : Word :=
  let pde := word (m.page d) (v / npdentries)
  if flag pde pteP then word (m.page (frame pde)) (v % npdentries) else 0#32

/-- What an entry says about an address of its page: the physical address and the
permissions. -/
def decodePte (va : Nat) (pte : Word) : Option (Nat × Word) :=
  if flag pte pteP then some (pteAddr pte + va % pgsize, pteFlags pte) else none

/-- The translation of an address by `walkpgdir`. -/
def Mem.translation (m : Mem) (pgdir va : Nat) : Option (Nat × Word) :=
  match walkpgdir pgdir va false m with
  | .ok (some p, _) => decodePte va (word (m.page p.1) p.2)
  | _ => none

/-- `va2pa`: the physical address for a virtual one, nothing for `FAILED`. -/
def va2pa (pgdir va : Nat) : M (Option Nat) := do
  match ← walkpgdir pgdir (pgrounddown va) false with
  | none => pure none
  | some p => do
    let pte ← load p
    if flag pte pteP then pure (some (pteAddr pte + va % pgsize)) else pure none

/-- A translation is read from one entry. -/
theorem translation_eq (hva : va < uintSize) :
    m.translation d va = decodePte va (m.entry d (va / pgsize)) := by
  rw [Mem.translation, walkpgdir_run, Mem.entry, pdx_eq hva, ptx_eq]
  cases hp : flag (word (m.page d) (va / pgsize / npdentries)) pteP
  · simp [decodePte]
  · simp

/-- `va2pa` returns the address of the translation and changes nothing. -/
theorem va2pa_run (hva : va < uintSize) :
    va2pa d va m = .ok ((m.translation d va).map Prod.fst, m) := by
  have hdown : pgrounddown va < uintSize := by
    rw [pgrounddown, pgsize_eq]
    omega
  have hpage : pgrounddown va / pgsize = va / pgsize := mul_pgsize_div _
  rw [translation_eq hva, Mem.entry]
  unfold va2pa
  simp only [bind, StateT.bind, walkpgdir_run, pdx_eq hdown, ptx_eq, hpage, Except.bind]
  cases hp : flag (word (m.page d) (va / pgsize / npdentries)) pteP
  · simp [decodePte, pure, StateT.pure, Except.pure]
  · simp only [if_true, decodePte, load, loadWord, bind, StateT.bind, Except.bind, get, getThe,
      MonadStateOf.get, StateT.get, pure, StateT.pure, Except.pure]
    split <;> rfl

/-! ## The pages of a page table -/

/-- The pages that make up the page table of `d`, the directory among them, are
distinct frames and not on the free list.  The free list is one of distinct
frames. -/
structure Tables (m : Mem) (d : Nat) : Prop where
  nodup : m.freelist.Nodup
  frames : ∀ f ∈ m.freelist, f < 2 ^ 20
  dir : d ∉ m.freelist
  table : ∀ i < npdentries, flag (word (m.page d) i) pteP → frame (word (m.page d) i) ≠ d ∧
    frame (word (m.page d) i) ∉ m.freelist
  inj : ∀ i < npdentries, ∀ j < npdentries, flag (word (m.page d) i) pteP →
    flag (word (m.page d) j) pteP → frame (word (m.page d) i) = frame (word (m.page d) j) → i = j

/-- An entry is unchanged when its directory entry and its page table are. -/
theorem entry_congr {m' : Mem}
    (hpde : word (m'.page d) (v / npdentries) = word (m.page d) (v / npdentries))
    (hpage : flag (word (m.page d) (v / npdentries)) pteP →
      m'.page (frame (word (m.page d) (v / npdentries))) =
        m.page (frame (word (m.page d) (v / npdentries)))) : m'.entry d v = m.entry d v := by
  rw [Mem.entry, Mem.entry, hpde]
  by_cases hp : flag (word (m.page d) (v / npdentries)) pteP
  · simp only [hp, if_true, hpage hp]
  · simp only [hp, if_false, Bool.false_eq_true]

namespace Tables

/-- The memory after `walkpgdir` has put a free frame `f` in the slot `i` of `d`. -/
def withTable (m : Mem) (d i f : Nat) (fs : List Nat) : Mem :=
  let m1 : Mem := { m.setCount f 1#8 with freelist := fs }
  let m2 := m1.setPage f (fill 0#8)
  m2.setPage d (setWord (m2.page d) i (mkPte (f * pgsize) (pteW ||| pteU)))

section

variable (h : Tables m d)
include h

/-- A new page table changes no entry. -/
theorem addTable {i f : Nat} {fs : List Nat} (hfree : m.freelist = f :: fs)
    (hnone : flag (word (m.page d) i) pteP = false) :
    Tables (withTable m d i f fs) d ∧
      frame (word ((withTable m d i f fs).page d) i) = f ∧
      flag (word ((withTable m d i f fs).page d) i) pteP = true ∧
      ∀ v < npdentries * npdentries, (withTable m d i f fs).entry d v = m.entry d v := by
  have hf : f < 2 ^ 20 := h.frames f (by simp [hfree])
  have hfd : f ≠ d := fun heq => h.dir (by simp [hfree, heq])
  have hnodup := h.nodup
  rw [hfree, List.nodup_cons] at hnodup
  have hself : word ((withTable m d i f fs).page d) i = mkPte (f * pgsize) (pteW ||| pteU) := by
    simp [withTable]
  have hother (j : Nat) (hj : j ≠ i) :
      word ((withTable m d i f fs).page d) j = word (m.page d) j := by
    rw [withTable, Mem.setPage_self, word_setWord_ne _ _ hj, Mem.setPage_ne _ _ hfd.symm]
    rfl
  have hframe : frame (word ((withTable m d i f fs).page d) i) = f := by
    rw [hself, frame_mkPte hf (by decide)]
  have hpage (g : Nat) (hgd : g ≠ d) (hgf : g ≠ f) : (withTable m d i f fs).page g = m.page g := by
    rw [withTable, Mem.setPage_ne _ _ hgd, Mem.setPage_ne _ _ hgf]
    rfl
  have hsub (g : Nat) (hg : g ∉ m.freelist) : g ∉ fs := fun hmem => hg (by simp [hfree, hmem])
  -- an old page table is neither the directory nor the frame taken
  have hold (j : Nat) (hj : j < npdentries) (hp : flag (word (m.page d) j) pteP) :
      frame (word (m.page d) j) ≠ d ∧ frame (word (m.page d) j) ≠ f := by
    obtain ⟨hd, hmem⟩ := h.table j hj hp
    exact ⟨hd, fun heq => hmem (by simp [hfree, heq])⟩
  refine ⟨⟨hnodup.2, fun g hg => h.frames g (hfree ▸ List.mem_cons_of_mem f hg),
    hsub d h.dir, ?_, ?_⟩, hframe, by rw [hself, flag_mkPte_pteP], fun v hv => ?_⟩
  · intro j hj hp
    by_cases hji : j = i
    · rw [hji, hframe]
      exact ⟨hfd, hnodup.1⟩
    · rw [hother j hji] at hp ⊢
      obtain ⟨hd, hmem⟩ := h.table j hj hp
      exact ⟨hd, hsub _ hmem⟩
  · intro j hj k hk hpj hpk heq
    by_cases hji : j = i
    · by_cases hki : k = i
      · rw [hji, hki]
      · rw [hji, hframe, hother k hki] at heq
        rw [hother k hki] at hpk
        exact absurd heq.symm (hold k hk hpk).2
    · by_cases hki : k = i
      · rw [hki, hframe, hother j hji] at heq
        rw [hother j hji] at hpj
        exact absurd heq (hold j hj hpj).2
      · rw [hother j hji] at hpj heq
        rw [hother k hki] at hpk heq
        exact h.inj j hj k hk hpj hpk heq
  · by_cases hvi : v / npdentries = i
    · rw [Mem.entry, Mem.entry, hvi, hframe, hself, flag_mkPte_pteP, hnone]
      simp [withTable, Mem.setPage_ne _ _ hfd]
    · refine entry_congr (hother _ hvi) fun hp => ?_
      obtain ⟨hd, hf⟩ := hold _ (div_lt_npdentries hv) hp
      exact hpage _ hd hf

/-- A store through the pointer for page `v` changes that entry. -/
theorem storePte {t : Nat} (w : Word) (hv : v < npdentries * npdentries)
    (hp : flag (word (m.page d) (v / npdentries)) pteP = true)
    (ht : frame (word (m.page d) (v / npdentries)) = t) :
    Tables (m.setPage t (setWord (m.page t) (v % npdentries) w)) d ∧
      ∀ u < npdentries * npdentries,
        (m.setPage t (setWord (m.page t) (v % npdentries) w)).entry d u =
          if u = v then w else m.entry d u := by
  have hi := div_lt_npdentries hv
  have htd : d ≠ t := by
    rw [← ht]
    exact (h.table _ hi hp).1.symm
  have hdir : (m.setPage t (setWord (m.page t) (v % npdentries) w)).page d = m.page d :=
    Mem.setPage_ne _ _ htd
  refine ⟨⟨h.nodup, h.frames, h.dir, ?_, ?_⟩, fun u hu => ?_⟩
  · rw [hdir]
    exact h.table
  · rw [hdir]
    exact h.inj
  · rw [Mem.entry, Mem.entry, hdir]
    by_cases hslot : u / npdentries = v / npdentries
    · simp only [hslot, hp, ht, if_true, Mem.setPage_self]
      by_cases huv : u = v
      · rw [huv, word_setWord_self, if_pos rfl]
      · have hmod : u % npdentries ≠ v % npdentries := fun hmod => huv (by
          rw [← Nat.div_add_mod u npdentries, ← Nat.div_add_mod v npdentries, hslot, hmod])
        rw [word_setWord_ne _ _ hmod, if_neg huv]
    · have huv : u ≠ v := fun huv => hslot (by rw [huv])
      by_cases hpu : flag (word (m.page d) (u / npdentries)) pteP
      · -- the page table of another slot is another page
        have hne : frame (word (m.page d) (u / npdentries)) ≠ t := by
          rw [← ht]
          exact fun heq => hslot (h.inj _ (div_lt_npdentries hu) _ hi hpu hp heq)
        simp only [hpu, if_true, Mem.setPage_ne _ _ hne, huv, if_false]
      · simp only [hpu, huv, if_false, Bool.false_eq_true]

/-- `walkpgdir` with allocation finds the page table or makes it, or finds no
frame.  No entry changes. -/
theorem walkpgdir (hva : va < uintSize) (F : Fault → Prop) :
    wp (Xv6.walkpgdir d va true) (fun r m' => Tables m' d ∧
      (∀ v < npdentries * npdentries, m'.entry d v = m.entry d v) ∧
      ∀ p, r = some p → flag (word (m'.page d) (va / pgsize / npdentries)) pteP = true ∧
        p = (frame (word (m'.page d) (va / pgsize / npdentries)), va / pgsize % npdentries)) F m := by
  have hi := div_lt_npdentries (page_lt hva)
  unfold Xv6.walkpgdir loadWord
  simp only [wp_bind, wp_get, wp_pure, pdx_eq hva, ptx_eq]
  cases hp : flag (word (m.page d) (va / pgsize / npdentries)) pteP with
  | true =>
    simp only [if_true, wp_pure]
    exact ⟨h, by simp, fun p heq => ⟨hp, (Option.some.inj heq).symm⟩⟩
  | false =>
    simp only [Bool.false_eq_true, if_false, if_true, wp_bind, kalloc, wp_get]
    cases hfree : m.freelist with
    | nil =>
      simp only [wp_bind, wp_set, wp_pure]
      exact ⟨⟨h.nodup, h.frames, h.dir, h.table, h.inj⟩, fun v _ => rfl, fun _ h => by cases h⟩
    | cons f fs =>
      simp only [wp_bind, wp_set, wp_pure, wp_memset, storeWord, wp_modify]
      obtain ⟨htables, hframe, hset, hentry⟩ := h.addTable hfree hp
      refine ⟨htables, hentry, fun p heq => ⟨hset, ?_⟩⟩
      rw [← Option.some.inj heq]
      exact congrArg (·, va / pgsize % npdentries) hframe.symm

/-- One round of the loop of `mappages`, before the rest `k` of the loop. -/
theorem mapStep {w : Word} {k : M Bool} {Q : Bool → Mem → Prop} {F : Fault → Prop}
    (hv : v < npdentries * npdentries) (hfree : flag (m.entry d v) pteP = false)
    (hfull : ∀ m', (∀ u < npdentries * npdentries, m'.entry d u = m.entry d u) → Q false m')
    (hok : ∀ m', Tables m' d →
      (∀ u < npdentries * npdentries, m'.entry d u = if u = v then w else m.entry d u) →
      wp k Q F m') :
    wp (do
      match ← Xv6.walkpgdir d (v * pgsize) true with
      | none => pure false
      | some p => do
        let pte ← load p
        if flag pte pteP then panic "remap"
        else do
          store p w
          k) Q F m := by
  rw [wp_bind]
  refine wp_post (h.walkpgdir (page_lt_uintSize hv) F) ?_
  rintro r m1 ⟨htables, hentry, hp⟩
  rw [mul_pgsize_div] at hp
  cases r with
  | none =>
    rw [wp_pure]
    exact hfull m1 hentry
  | some p =>
    obtain ⟨hset, rfl⟩ := hp p rfl
    have hload : word (m1.page (frame (word (m1.page d) (v / npdentries)))) (v % npdentries) =
        m.entry d v := by
      rw [← hentry v hv, Mem.entry]
      simp only [hset, if_true]
    simp only [load, loadWord, wp_bind, wp_get, wp_pure, hload, hfree, Bool.false_eq_true,
      if_false, wp_store]
    obtain ⟨htables, hstore⟩ := htables.storePte w hv hset rfl
    refine hok _ htables fun u hu => ?_
    rw [hstore u hu, hentry u hu]

/-- The loop of `mappages` gives its pages their entries in turn, up to the first
page table it cannot allocate, and leaves all others alone. -/
theorem mapLoop {n pa : Nat} (F : Fault → Prop)
    (hn : v + n < npdentries * npdentries) (hpa : pa < uintSize)
    (hfree : ∀ k ≤ n, flag (m.entry d (v + k)) pteP = false) :
    wp (Xv6.mapLoop d perm n (v * pgsize) pa) (fun ok m' =>
      (∀ u < npdentries * npdentries, u < v ∨ v + n < u → m'.entry d u = m.entry d u) ∧
      (ok = true → ∀ k ≤ n, m'.entry d (v + k) = mkPte ((pa + k * pgsize) % uintSize) perm)) F m := by
  induction n generalizing m v pa with
  | zero =>
    rw [Xv6.mapLoop]
    refine h.mapStep hn (hfree 0 (le_refl 0)) (fun m' hm' => ⟨fun u hu _ => hm' u hu, fun h => by cases h⟩) ?_
    intro m' _ hm'
    rw [wp_pure]
    refine ⟨fun u hu hout => ?_, fun _ k hk => ?_⟩
    · rw [hm' u hu, if_neg (by omega)]
    · obtain rfl : k = 0 := by omega
      rw [Nat.zero_mul, Nat.add_zero, Nat.add_zero, Nat.mod_eq_of_lt hpa, hm' v hn, if_pos rfl]
  | succ n ih =>
    have hnext : (v * pgsize + pgsize) % uintSize = (v + 1) * pgsize := by
      rw [npdentries_eq] at hn
      rw [pgsize_eq, uintSize_eq]
      omega
    rw [Xv6.mapLoop]
    refine h.mapStep (by omega) (hfree 0 (Nat.zero_le _))
      (fun m' hm' => ⟨fun u hu _ => hm' u hu, fun h => by cases h⟩) ?_
    intro m1 h1 hm1
    rw [hnext]
    refine wp_post (ih h1 (by omega) (Nat.mod_lt _ (by decide)) fun k hk => ?_) ?_
    · rw [hm1 _ (by omega), if_neg (by omega), Nat.add_assoc, Nat.add_comm 1 k]
      exact hfree (k + 1) (by omega)
    · rintro ok m' ⟨hout, hin⟩
      refine ⟨fun u hu hrange => ?_, fun hok k hk => ?_⟩
      · rw [hout u hu (by omega), hm1 u hu, if_neg (by omega)]
      · cases k with
        | zero =>
          rw [Nat.zero_mul, Nat.add_zero, Nat.add_zero, Nat.mod_eq_of_lt hpa,
            hout v (by omega) (by omega), hm1 v (by omega), if_pos rfl]
        | succ k =>
          have hk' := hin hok k (by omega)
          rw [Nat.mod_add_mod, Nat.add_assoc v, Nat.add_comm 1 k] at hk'
          rw [hk', Nat.add_assoc, Nat.add_mul, Nat.one_mul, Nat.add_comm pgsize]

end

end Tables

/-! ## `mappages` -/

theorem pteFlags_mkPte (f : Nat) (hp : Perm perm) :
    pteFlags (mkPte (f * pgsize) perm) = perm ||| pteP := by
  have hmask : perm &&& 0xFFF#32 = perm := by
    have hsplit : perm = (perm >>> 12) <<< 12 ||| (perm &&& 0xFFF#32) := by
      apply BitVec.eq_of_getLsbD_eq
      intro i hi
      interval_cases i <;> simp
    rw [show perm >>> 12 = 0#32 from hp] at hsplit
    simpa using hsplit.symm
  have haddr : BitVec.ofNat 32 (f * pgsize) &&& 0xFFF#32 = 0#32 := by
    apply BitVec.eq_of_getLsbD_eq
    intro i hi
    rw [BitVec.getLsbD_and]
    by_cases h12 : i < 12
    · rw [getLsbD_frame_addr f h12]
      simp
    · rw [show (0xFFF#32).getLsbD i = false from ?_]
      · simp
      · interval_cases i <;> rfl
  rw [pteFlags, mkPte, BitVec.and_or_distrib_right, BitVec.and_or_distrib_right, haddr, hmask,
    show pteP &&& 0xFFF#32 = pteP by decide]
  simp

/-- What an entry made by `mappages` says about an address of its page. -/
theorem decodePte_mkPte {f : Nat} (x : Nat) (hf : f < 2 ^ 20) (hp : Perm perm) :
    decodePte x (mkPte (f * pgsize) perm) = some (f * pgsize + x % pgsize, perm ||| pteP) := by
  rw [decodePte, flag_mkPte_pteP, if_pos rfl, pteAddr_eq, frame_mkPte hf hp, pteFlags_mkPte f hp]

/-- The offset of an address in a range, and in the frames the range is mapped to. -/
theorem page_offset_mod {q k x : Nat} (h : x / pgsize = v + k) :
    (q + k) % 2 ^ 20 * pgsize + x % pgsize = (q * pgsize + (x - v * pgsize)) % uintSize := by
  rw [pgsize_eq] at h ⊢
  rw [uintSize_eq]
  omega

/-- `mappages` makes one round for each page that the range touches. -/
theorem mappages_eq_mapLoop {n o pa : Nat} (ho : o < pgsize)
    (hv : v + n < npdentries * npdentries) :
    mappages d (v * pgsize) (n * pgsize + o + 1) pa perm = mapLoop d perm n (v * pgsize) pa := by
  rw [npdentries_eq] at hv
  rw [pgsize_eq] at ho
  have hfirst : pgrounddown (v * pgsize) = v * pgsize := by
    rw [pgrounddown, mul_pgsize_div]
  have hlast : pgrounddown ((v * pgsize + (n * pgsize + o + 1) + uintSize - 1) % uintSize) =
      (v + n) * pgsize := by
    rw [pgrounddown, pgsize_eq, uintSize_eq]
    omega
  have hcount : ((v + n) * pgsize + uintSize - v * pgsize) % uintSize / pgsize = n := by
    rw [pgsize_eq, uintSize_eq]
    omega
  simp only [mappages, hfirst, hlast, hcount]

/-- `mappages` of an aligned range without present pages.  When it returns 0, the
addresses of the range translate to those from `pa` on with permission `perm`;
whatever it returns, all other addresses translate as before. -/
theorem mappages_translation (m : Mem) (d va size pa : Nat) (perm : Word) (h : Tables m d)
    (hva : va % pgsize = 0) (hpa : pa % pgsize = 0) (hsize : 0 < size)
    (hwrap : va + size ≤ uintSize) (hpa32 : pa < uintSize) (hperm : Perm perm)
    (habsent : ∀ x, va ≤ x → x < va + size → m.translation d x = none) :
    ∃ ok m', mappages d va size pa perm m = .ok (ok, m') ∧
      (ok = true → ∀ x, va ≤ x → x < va + pgroundup size →
        m'.translation d x = some ((pa + (x - va)) % uintSize, perm ||| pteP)) ∧
      (∀ x < uintSize, x < va ∨ va + pgroundup size ≤ x →
        m'.translation d x = m.translation d x) ∧
      ∀ x < uintSize, va2pa d x m' = .ok ((m'.translation d x).map Prod.fst, m') := by
  obtain ⟨v, rfl⟩ : ∃ v, va = v * pgsize :=
    ⟨_, (Nat.div_mul_cancel (Nat.dvd_of_mod_eq_zero hva)).symm⟩
  obtain ⟨q, rfl⟩ : ∃ q, pa = q * pgsize :=
    ⟨_, (Nat.div_mul_cancel (Nat.dvd_of_mod_eq_zero hpa)).symm⟩
  obtain ⟨n, o, rfl, ho⟩ : ∃ n o, size = n * pgsize + o + 1 ∧ o < pgsize :=
    ⟨(size - 1) / pgsize, (size - 1) % pgsize, by
      rw [Nat.div_add_mod' (size - 1) pgsize]
      omega, Nat.mod_lt _ (by decide)⟩
  have hround : pgroundup (n * pgsize + o + 1) = (n + 1) * pgsize := by
    rw [pgsize_eq] at ho
    rw [pgroundup, pgsize_eq]
    omega
  have hbound : v + n < npdentries * npdentries := by
    rw [pgsize_eq, uintSize_eq] at hwrap
    rw [npdentries_eq]
    omega
  have hfree (k : Nat) (hk : k ≤ n) : flag (m.entry d (v + k)) pteP = false := by
    have hkn : k * pgsize ≤ n * pgsize := Nat.mul_le_mul_right _ hk
    have hx := habsent ((v + k) * pgsize) (by rw [Nat.add_mul]; omega) (by rw [Nat.add_mul]; omega)
    rw [translation_eq (by rw [Nat.add_mul]; omega), mul_pgsize_div, decodePte] at hx
    simpa using hx
  rw [hround, mappages_eq_mapLoop ho hbound]
  obtain ⟨ok, m', hrun, hout, hin⟩ := wp_total (h.mapLoop (fun _ => False) hbound hpa32 hfree)
  refine ⟨ok, m', hrun, fun hok x hlo hhi => ?_, fun x hx hrange => ?_, fun x hx => va2pa_run hx⟩
  · rw [npdentries_eq] at hbound
    rw [pgsize_eq] at hlo hhi
    obtain ⟨k, hk, hpage⟩ : ∃ k ≤ n, x / pgsize = v + k :=
      ⟨x / pgsize - v, by rw [pgsize_eq]; omega, by rw [pgsize_eq]; omega⟩
    have hx : x < uintSize := by
      rw [uintSize_eq]
      omega
    have haddr : (q * pgsize + k * pgsize) % uintSize = (q + k) % 2 ^ 20 * pgsize := by
      rw [pgsize_eq, uintSize_eq]
      omega
    rw [translation_eq hx, hpage, hin hok k hk, haddr,
      decodePte_mkPte x (Nat.mod_lt _ (by decide)) hperm]
    rw [page_offset_mod hpage]
  · rw [translation_eq hx, translation_eq hx, hout _ (page_lt hx)]
    rw [pgsize_eq] at hrange ⊢
    omega

/-- A memory of zeros with two free frames. -/
def zeroMem : Mem := ⟨[5, 6], fun _ => 0#8, fun _ => fill 0#8, 0⟩

theorem zeroMem_tables (d : Nat) (hd : d ∉ [5, 6]) : Tables zeroMem d := by
  have hnone (i : Nat) : flag (word (zeroMem.page d) i) pteP = false := by
    simp [zeroMem]
  refine ⟨by decide, by decide, hd, fun i _ hp => ?_, fun i _ j _ hp => ?_⟩
  · rw [hnone i] at hp
    cases hp
  · rw [hnone i] at hp
    cases hp

/-- The last page of the address space, in a directory without page tables. -/
theorem mappages_translation_top :
    ∃ ok m', mappages 1 0xFFFFF000 pgsize 0x3000 pteW zeroMem = .ok (ok, m') ∧
      (ok = true → ∀ x, 0xFFFFF000 ≤ x → x < 0xFFFFF000 + pgroundup pgsize →
        m'.translation 1 x = some ((0x3000 + (x - 0xFFFFF000)) % uintSize, pteW ||| pteP)) ∧
      (∀ x < uintSize, x < 0xFFFFF000 ∨ 0xFFFFF000 + pgroundup pgsize ≤ x →
        m'.translation 1 x = zeroMem.translation 1 x) ∧
      ∀ x < uintSize, va2pa 1 x m' = .ok ((m'.translation 1 x).map Prod.fst, m') := by
  refine mappages_translation zeroMem 1 0xFFFFF000 pgsize 0x3000 pteW
    (zeroMem_tables 1 (by decide)) (by decide) (by decide) (by decide) (by decide) (by decide)
    (by decide) fun x _ hx => ?_
  rw [translation_eq (by rw [pgsize_eq] at hx; rw [uintSize_eq]; omega)]
  simp [Mem.entry, zeroMem, decodePte]

end Xv6
