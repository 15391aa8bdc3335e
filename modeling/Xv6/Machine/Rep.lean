import Xv6.Machine.Space
import Xv6.Machine.Vm

/-!
# The memory represents an address space

`Rep m A` says that the bytes of the memory `m` hold the space `A`: the free list
and the counts are those of `A`, the words of a directory name its page tables,
and the words of a page table are the entries of its pages.  Nothing is said
about the bytes of other frames.

The first part is one lemma for each move of `Space`: the store the kernel does
for it keeps `Rep`.  The aliasing argument is there and nowhere else: a store to
one table does not show in another because a frame has one role.  The second part
runs the primitives of the memory code on a represented space.
-/

namespace Xv6

open Prog Function

variable {f d v t va : Nat} {F : Fault → Prop} {A : Space} {perm : Word}

/-- The entry of a directory for a page table. -/
def pdeWord : Option Nat → Word
  | none => 0#32
  | some t => mkPte (t * pgsize) (pteW ||| pteU)

@[simp] theorem flag_pdeWord_none (f : Word) : flag (pdeWord none) f = false := flag_zero f

@[simp] theorem flag_pdeWord_some (t : Nat) : flag (pdeWord (some t)) pteP = true :=
  flag_mkPte_pteP ..

theorem div_lt_npdentries (h : v < npdentries * npdentries) : v / npdentries < npdentries := by
  rw [npdentries_eq] at *
  omega

variable [Link]

theorem Managed.lt_frames (h : Managed f) : f < 2 ^ 20 := by
  have := h.lt
  rw [phystop_eq, pgsize_eq] at this
  omega

theorem frame_pdeWord (h : Managed t) : frame (pdeWord (some t)) = t :=
  frame_mkPte h.lt_frames (by decide)

/-- The bytes of `m` hold the space `A`. -/
structure Rep (m : Mem) (A : Space) : Prop where
  wf : A.WF
  free : m.freelist = A.free
  count : m.refCounts = A.count
  pde : ∀ d i, A.role d = .dir → i < npdentries → word (m.page d) i = pdeWord (A.tab d i)
  pte : ∀ d v t, A.role d = .dir → v < npdentries * npdentries →
    A.tab d (v / npdentries) = some t → word (m.page t) (v % npdentries) = A.pte d v

/-- User data and held frames keep their bytes. -/
def Keep (A : Space) (m m' : Mem) : Prop :=
  ∀ g, A.role g = .data ∨ A.role g = .held → m'.page g = m.page g

omit [Link] in
theorem Keep.refl (A : Space) (m : Mem) : Keep A m m := fun _ _ => rfl

namespace Rep

variable {m : Mem}

theorem table_role (h : Rep m A) (hd : A.role d = .dir) (hv : v < npdentries * npdentries)
    (ht : A.tab d (v / npdentries) = some t) : A.role t = .table d (v / npdentries) :=
  h.wf.tab_role d _ t hd (div_lt_npdentries hv) ht

/-! ## Stores -/

section

variable (h : Rep m A)
include h

/-- A store to a frame that is no table. -/
theorem setPage (pg : Page) (hf : (A.role f).isTable = false) :
    Rep (m.setPage f pg) A := by
  refine ⟨h.wf, h.free, h.count, ?_, ?_⟩
  · intro d i hd hi
    have hne : d ≠ f := by
      rintro rfl
      rw [hd] at hf
      cases hf
    rw [Mem.setPage_ne _ _ hne]
    exact h.pde d i hd hi
  · intro d v t hd hv ht
    have hne : t ≠ f := by
      rintro rfl
      rw [h.table_role hd hv ht] at hf
      cases hf
    rw [Mem.setPage_ne _ _ hne]
    exact h.pte d v t hd hv ht

theorem pop {fs : List Nat} (hf : A.free = f :: fs) :
    Rep { m.setCount f 1#8 with freelist := fs } (A.pop f) := by
  have hdir : ∀ d, (A.pop f).role d = .dir → A.role d = .dir := fun _ =>
    Space.dir_of_update (by decide)
  refine ⟨h.wf.pop hf, by simp [hf], ?_, ?_, ?_⟩
  · show Function.update m.refCounts f 1#8 = _
    rw [h.count]
    rfl
  · intro d i hd hi
    exact h.pde d i (hdir d hd) hi
  · intro d v t hd hv ht
    exact h.pte d v t (hdir d hd) hv ht

theorem oom : Rep (m.setCount oomIndex 1#8) A.oom := by
  refine ⟨h.wf.oom, h.free, ?_, h.pde, h.pte⟩
  show Function.update m.refCounts oomIndex 1#8 = _
  rw [h.count]
  rfl

theorem push (hm : Managed f) (hf : A.role f = .held ∨ A.role f = .data) :
    Rep (m.push f) (A.push f) := by
  have hnt : (A.role f).isTable = false := by rcases hf with hf | hf <;> rw [hf] <;> rfl
  have hp := h.setPage (setWord (fill 1#8) 0 (BitVec.ofNat 32 (listHead m.freelist))) hnt
  have hdir : ∀ d, (A.push f).role d = .dir → A.role d = .dir := fun _ =>
    Space.dir_of_update (by decide)
  refine ⟨h.wf.push hm hf, ?_, h.count, ?_, ?_⟩
  · show f :: m.freelist = _
    rw [h.free]
    rfl
  · intro d i hd hi
    exact hp.pde d i (hdir d hd) hi
  · intro d v t hd hv ht
    exact hp.pte d v t (hdir d hd) hv ht

theorem give (hf : A.role f = .held) : Rep m (A.give f) := by
  have hdir : ∀ d, (A.give f).role d = .dir → A.role d = .dir := fun _ =>
    Space.dir_of_update (by decide)
  exact ⟨h.wf.give hf, h.free, h.count, fun d i hd hi => h.pde d i (hdir d hd) hi,
    fun d v t hd hv ht => h.pte d v t (hdir d hd) hv ht⟩

theorem setCount (n : BitVec 8) (hf : (A.role f).isKernel = false) :
    Rep (m.setCount f n) (A.setCount f n) := by
  refine ⟨h.wf.setCount n hf, h.free, ?_, h.pde, h.pte⟩
  show Function.update m.refCounts f n = _
  rw [h.count]
  rfl

/-- The history variable is not part of the space. -/
theorem setWraps (n : Nat) : Rep { m with wraps := n } A :=
  ⟨h.wf, h.free, h.count, h.pde, h.pte⟩

theorem addDir (hd : A.role d = .held) :
    Rep (m.setPage d (fill 0#8)) (A.addDir d) := by
  have hp := h.setPage (f := d) (fill 0#8) (by rw [hd]; rfl)
  refine ⟨h.wf.addDir hd, h.free, h.count, ?_, ?_⟩
  · intro d' i hd' hi
    by_cases hdd : d' = d
    · subst hdd
      simp [Mem.setPage, Space.addDir, pdeWord]
    · have hd'' : A.role d' = .dir := by simpa [Space.addDir, hdd] using hd'
      simpa [Space.addDir, hdd] using hp.pde d' i hd'' hi
  · intro d' v t hd' hv ht
    by_cases hdd : d' = d
    · subst hdd
      simp [Space.addDir] at ht
    · have hd'' : A.role d' = .dir := by simpa [Space.addDir, hdd] using hd'
      simpa [Space.addDir, hdd] using
        hp.pte d' v t hd'' hv (by simpa [Space.addDir, hdd] using ht)

/-- A zeroed frame becomes a page table when the directory names it. -/
theorem addTable {i : Nat} (hd : A.role d = .dir) (hi : i < npdentries)
    (hnone : A.tab d i = none) (ht : A.role t = .held) :
    Rep ((m.setPage t (fill 0#8)).setPage d
      (setWord (m.page d) i (pdeWord (some t)))) (A.addTable d i t) := by
  have hdt : d ≠ t := by
    rintro rfl
    rw [hd] at ht
    cases ht
  have hdir : ∀ d', (A.addTable d i t).role d' = .dir → A.role d' = .dir := by
    intro d' hd'
    by_cases hdt' : d' = t
    · subst hdt'
      simp [Space.addTable] at hd'
    · simpa [Space.addTable, hdt'] using hd'
  have hpage : ∀ g, g ≠ d → g ≠ t → ((m.setPage t (fill 0#8)).setPage d
      (setWord (m.page d) i (pdeWord (some t)))).page g = m.page g := by
    intro g hgd hgt
    rw [Mem.setPage_ne _ _ hgd, Mem.setPage_ne _ _ hgt]
  refine ⟨h.wf.addTable hd hi hnone ht, h.free, h.count, ?_, ?_⟩
  · intro d' i' hd' hi'
    have hd'' := hdir d' hd'
    by_cases hdd : d' = d
    · subst hdd
      by_cases hii : i' = i
      · subst hii
        simp [Mem.setPage, Space.addTable]
      · have := h.pde d' i' hd'' hi'
        simpa [Mem.setPage, Space.addTable, hii, word_setWord_ne] using this
    · have hne : d' ≠ t := by
        rintro rfl
        rw [hd''] at ht
        cases ht
      rw [hpage d' hdd hne, h.pde d' i' hd'' hi']
      simp [Space.addTable, hdd]
  · intro d' v t' hd' hv ht'
    have hd'' := hdir d' hd'
    by_cases hk : d' = d ∧ v / npdentries = i
    · -- the new table: it is all zero, and so were the entries without it
      have htt : t = t' := by simpa [Space.addTable, hk] using ht'
      subst htt
      have hz : A.pte d' v = 0#32 := h.wf.tab_none d' v hd'' hv (by rw [hk.1, hk.2]; exact hnone)
      rw [Space.addTable_pte, hz, Mem.setPage_ne _ _ (Ne.symm hdt), Mem.setPage_self]
      exact word_fill_zero _
    · have ht'' : A.tab d' (v / npdentries) = some t' := by
        simpa [Space.addTable, hk] using ht'
      have hr := h.table_role hd'' hv ht''
      rw [hpage t' (by rintro rfl; rw [hd] at hr; cases hr) (by rintro rfl; rw [ht] at hr; cases hr)]
      exact h.pte d' v t' hd'' hv ht''

/-- A store to an entry. -/
theorem setPte (w : Word) (hd : A.role d = .dir) (hv : v < npdentries * npdentries)
    (ht : A.tab d (v / npdentries) = some t) :
    Rep (m.setPage t (setWord (m.page t) (v % npdentries) w)) (A.setPte d v w) := by
  have htr := h.table_role hd hv ht
  refine ⟨h.wf.setPte w ht, h.free, h.count, ?_, ?_⟩
  · intro d' i hd' hi
    have hne : d' ≠ t := by
      rintro rfl
      rw [Space.setPte_role, htr] at hd'
      cases hd'
    rw [Mem.setPage_ne _ _ hne]
    exact h.pde d' i hd' hi
  · intro d' v' t' hd' hv' ht'
    have htr' := h.table_role hd' hv' ht'
    by_cases htt : t' = t
    · -- one frame, so one directory and one slot: the entries differ by their index
      subst htt
      rw [htr] at htr'
      injection htr' with hdd hii
      subst hdd
      rw [Mem.setPage_self]
      by_cases hvv : v' = v
      · subst hvv
        rw [word_setWord_self, Space.setPte_self]
      · have hmod : v' % npdentries ≠ v % npdentries := by
          rw [npdentries_eq] at *
          omega
        rw [word_setWord_ne _ _ hmod, Space.setPte_ne _ _ (by omega)]
        exact h.pte d v' t' hd hv' ht'
    · have hk : ¬ (d' = d ∧ v' = v) := by
        rintro ⟨rfl, rfl⟩
        rw [Space.setPte_tab, ht] at ht'
        exact htt (by injection ht' with hx; exact hx.symm)
      rw [Mem.setPage_ne _ _ htt, Space.setPte_ne _ _ hk]
      exact h.pte d' v' t' hd' hv' ht'

theorem retire (d : Nat) : Rep m (A.retire d) := by
  have hdir : ∀ d', (A.retire d).role d' = .dir → A.role d' = .dir := by
    intro d' hd'
    by_cases hb : A.belongs d d' = true
    · simp [Space.retire, hb] at hd'
    · simpa [Space.retire, hb] using hd'
  exact ⟨h.wf.retire d, h.free, h.count, fun d' i hd' hi => h.pde d' i (hdir d' hd') hi,
    fun d' v t hd' hv ht => h.pte d' v t (hdir d' hd') hv ht⟩

end

end Rep

/-! ## Addresses -/

section

omit [Link]

theorem pdx_eq (h : va < uintSize) : pdx va = va / pgsize / npdentries := by
  rw [pdx, npdentries_eq, pgsize_eq]
  rw [uintSize_eq] at h
  omega

theorem ptx_eq (va : Nat) : ptx va = va / pgsize % npdentries := rfl

theorem page_lt (h : va < uintSize) : va / pgsize < npdentries * npdentries := by
  rw [npdentries_eq, pgsize_eq]
  rw [uintSize_eq] at h
  omega

theorem page_lt_uintSize (hv : v < npdentries * npdentries) : v * pgsize < uintSize := by
  rw [npdentries_eq] at hv
  rw [pgsize_eq, uintSize_eq]
  omega

theorem kva_eq (h : f * pgsize < phystop) : kva f = kernbase + f * pgsize := by
  rw [kva, p2v]
  rw [phystop_eq, pgsize_eq] at h
  rw [kernbase_eq, uintSize_eq, pgsize_eq]
  omega

theorem v2p_kva (h : f * pgsize < phystop) : v2p (kva f) = f * pgsize := by
  rw [kva_eq h, v2p]
  rw [phystop_eq, pgsize_eq] at h
  rw [kernbase_eq, uintSize_eq, pgsize_eq]
  omega

@[simp] theorem mul_pgsize_div (f : Nat) : f * pgsize / pgsize = f :=
  Nat.mul_div_cancel f (by decide)

@[simp] theorem p2v_pteAddr (w : Word) : p2v (pteAddr w) = kva (frame w) := by
  rw [pteAddr_eq, kva]

end

/-! ## The allocator -/

omit [Link] in
@[simp] theorem wp_store (t j : Nat) (w : Word) (Q : PUnit → Mem → Prop) (F : Fault → Prop)
    (m : Mem) : wp (store (t, j) w) Q F m ↔ Q () (m.setPage t (setWord (m.page t) j w)) :=
  wp_modify ..

omit [Link] in
@[simp] theorem wp_memset (f : Nat) (b : Byte) (Q : PUnit → Mem → Prop) (F : Fault → Prop)
    (m : Mem) : wp (memset f b) Q F m ↔ Q () (m.setPage f (fill b)) := wp_modify ..

omit [Link] in
@[simp] theorem wp_panic {σ α : Type} (msg : String) (Q : α → σ → Prop) (F : Fault → Prop)
    (s : σ) : wp (panic msg : Prog σ Fault α) Q F s ↔ F (.panic msg) := wp_throw ..

/-- `kfree` of a frame the allocator manages. -/
theorem wp_kfree (hm : Managed f) (Q : PUnit → Mem → Prop) (F : Fault → Prop) (m : Mem) :
    wp (kfree (kva f)) Q F m ↔
      if 1 < (m.refCounts f).toNat then Q () m else Q () (m.push f) := by
  have hk := kva_eq hm.2
  have hv := v2p_kva hm.2
  have h1 : ¬ (kva f % pgsize ≠ 0 ∨ kva f < Link.kend ∨ phystop ≤ v2p (kva f)) := by
    rw [hv, hk]
    have h2 := hm.1
    have h3 := hm.2
    rw [kernbase_eq, pgsize_eq] at *
    omega
  have h4 : ¬ phystop ≤ f * pgsize := by
    have := hm.2
    omega
  unfold kfree getRefCount
  rw [wp_ite, if_neg h1]
  simp only [wp_ite, hv, if_neg h4, wp_bind, wp_get, wp_pure, wp_modify, mul_pgsize_div]

/-- `kfree` of frame 0 is below the kernel. -/
theorem wp_kfree_zero {Q : PUnit → Mem → Prop} {m : Mem} (hF : F (.panic "kfree")) :
    wp (kfree (kva 0)) Q F m := by
  have h1 : kva 0 % pgsize ≠ 0 ∨ kva 0 < Link.kend ∨ phystop ≤ v2p (kva 0) := by
    refine .inr (.inl ?_)
    have := kernbase_lt_kend
    have h0 : kva 0 = kernbase := by decide
    omega
  unfold kfree
  rw [wp_ite, if_pos h1, wp_panic]
  exact hF

omit [Link] in
theorem wp_incref (hf : f * pgsize < phystop) (Q : PUnit → Mem → Prop) (F : Fault → Prop)
    (m : Mem) :
    wp (incref (f * pgsize)) Q F m ↔
      Q () { m.setCount f (m.refCounts f + 1#8) with
        wraps := if m.refCounts f = 255#8 then m.wraps + 1 else m.wraps } := by
  unfold incref
  simp only [if_neg (show ¬ phystop ≤ f * pgsize by omega), wp_modify, mul_pgsize_div]

/-- What `kalloc` does to a space. -/
inductive Alloc (A : Space) : Option Nat → Space → Prop where
  | none : A.free = [] → Alloc A none A.oom
  | some {f : Nat} {fs : List Nat} : A.free = f :: fs → Alloc A (some f) (A.pop f)

/-- Only free frames are put to other uses. -/
structure Grow (A A' : Space) : Prop where
  free : A'.free <:+ A.free
  role : ∀ f, A.role f ≠ .free → A'.role f = A.role f
  count : ∀ f, A.role f ≠ .free → f ≠ oomIndex → A'.count f = A.count f

omit [Link] in
theorem Grow.refl (A : Space) : Grow A A := ⟨List.suffix_refl _, fun _ _ => rfl, fun _ _ _ => rfl⟩

omit [Link] in
theorem Grow.trans {B C : Space} (h : Grow A B) (h' : Grow B C) : Grow A C := by
  refine ⟨h'.free.trans h.free, ?_, ?_⟩
  · intro f hf
    rw [h'.role f (by rwa [h.role f hf]), h.role f hf]
  · intro f hf hne
    rw [h'.count f (by rwa [h.role f hf]) hne, h.count f hf hne]

theorem Grow.pop (h : A.WF) {fs : List Nat} (hf : A.free = f :: fs) : Grow A (A.pop f) := by
  have hr := h.role_head hf
  refine ⟨List.tail_suffix _, ?_, ?_⟩
  · intro g hg
    exact update_of_ne (by rintro rfl; exact hg hr) ..
  · intro g hg _
    exact update_of_ne (by rintro rfl; exact hg hr) ..

omit [Link] in
theorem Grow.oom (A : Space) : Grow A A.oom :=
  ⟨List.suffix_refl _, fun _ _ => rfl, fun _ _ hne => update_of_ne hne ..⟩

omit [Link] in
theorem Grow.setPte (A : Space) (d v : Nat) (w : Word) : Grow A (A.setPte d v w) :=
  ⟨List.suffix_refl _, fun _ _ => rfl, fun _ _ _ => rfl⟩

omit [Link] in
/-- Bytes kept by two parts that each take only free frames. -/
theorem Keep.trans {B : Space} {m m1 m2 : Mem} (h : Keep A m m1) (hg : Grow A B)
    (h' : Keep B m1 m2) : Keep A m m2 := by
  intro g hr
  have hrole : B.role g = A.role g := hg.role g (by rcases hr with hr | hr <;> rw [hr] <;> decide)
  rw [h' g (by rw [hrole]; exact hr), h g hr]

/-- The space after `walkpgdir` found or made the page table of a slot. -/
inductive Ensure (A : Space) (d i : Nat) : Space → Prop where
  | there {t : Nat} : A.tab d i = some t → Ensure A d i A
  | new {f : Nat} {fs : List Nat} : A.tab d i = none → A.free = f :: fs →
      Ensure A d i ((A.pop f).addTable d i f)

namespace Ensure

variable {A' : Space} {i : Nat}

section

variable (h : Ensure A d i A')
include h

omit [Link] in
theorem pte_eq : A'.pte = A.pte := by
  cases h <;> rfl

omit [Link] in
theorem tab_some : ∃ t, A'.tab d i = some t := by
  cases h with
  | there ht => exact ⟨_, ht⟩
  | new _ _ => exact ⟨_, if_pos ⟨rfl, rfl⟩⟩

omit [Link] in
theorem tab_ne {d' i' : Nat} (hne : ¬ (d' = d ∧ i' = i)) :
    A'.tab d' i' = A.tab d' i' := by
  cases h with
  | there _ => rfl
  | new _ _ => exact if_neg hne

theorem grow (hwf : A.WF) : Grow A A' := by
  cases h with
  | there _ => exact Grow.refl A
  | @new f fs _ hf =>
    -- the frame taken was free, so the old frames keep their roles
    have hr := hwf.role_head hf
    have hpop := Grow.pop hwf hf
    refine ⟨hpop.free, ?_, hpop.count⟩
    intro g hg
    have hgf : g ≠ f := by
      rintro rfl
      exact hg hr
    show Function.update (A.pop f).role f (.table d i) g = A.role g
    rw [update_of_ne hgf, hpop.role g hg]

end

end Ensure

/-- The outcomes of `walkpgdir` with allocation, for page `v`. -/
inductive Walked (A : Space) (d v : Nat) : Option PtePtr → Space → Prop where
  | full : A.tab d (v / npdentries) = none → A.free = [] → Walked A d v none A.oom
  | ok {A' : Space} {t : Nat} : Ensure A d (v / npdentries) A' →
      A'.tab d (v / npdentries) = some t → Walked A d v (some (t, v % npdentries)) A'

namespace Rep

variable {m : Mem}

theorem kalloc (h : Rep m A) (F : Fault → Prop) :
    wp kalloc (fun r m' => ∃ A', Rep m' A' ∧ Alloc A r A' ∧ m'.page = m.page) F m := by
  unfold Xv6.kalloc
  rw [wp_bind, wp_get, h.free]
  cases hf : A.free with
  | nil =>
    simp only [wp_bind, wp_set, wp_pure]
    exact ⟨_, h.oom, .none hf, rfl⟩
  | cons f fs =>
    simp only [wp_bind, wp_set, wp_pure]
    exact ⟨_, h.pop hf, .some hf, rfl⟩

/-! ## Walking and mapping -/

section

variable (h : Rep m A) (hd : A.role d = .dir)
include h hd

theorem wp_walk (hva : va < uintSize)
    (Q : Option PtePtr → Mem → Prop) (F : Fault → Prop) :
    wp (walkpgdir d va false) Q F m ↔
      Q ((A.tab d (va / pgsize / npdentries)).map fun t => (t, va / pgsize % npdentries)) m := by
  have hi := div_lt_npdentries (page_lt hva)
  unfold walkpgdir loadWord
  simp only [wp_bind, wp_get, wp_pure, pdx_eq hva, ptx_eq, h.pde d _ hd hi]
  cases ht : A.tab d (va / pgsize / npdentries) with
  | none => simp
  | some t =>
    have hr := h.wf.tab_role d _ t hd hi ht
    have hm : Managed t := h.wf.managed t (by rw [hr]; exact Role.noConfusion)
    simp [frame_pdeWord hm]

theorem wp_load (hv : v < npdentries * npdentries)
    (ht : A.tab d (v / npdentries) = some t) (Q : Word → Mem → Prop) (F : Fault → Prop) :
    wp (load (t, v % npdentries)) Q F m ↔ Q (A.pte d v) m := by
  unfold load loadWord
  simp only [wp_bind, wp_get, wp_pure, h.pte d v t hd hv ht]

/-- `walkpgdir` with allocation finds the table, makes it, or finds no frame. -/
theorem walk_alloc (hva : va < uintSize) (F : Fault → Prop) :
    wp (walkpgdir d va true)
      (fun r m' => ∃ A', Rep m' A' ∧ Keep A m m' ∧ Walked A d (va / pgsize) r A') F m := by
  have hi := div_lt_npdentries (page_lt hva)
  unfold walkpgdir loadWord
  simp only [wp_bind, wp_get, wp_pure, pdx_eq hva, ptx_eq, h.pde d _ hd hi]
  cases ht : A.tab d (va / pgsize / npdentries) with
  | some t =>
    have hr := h.wf.tab_role d _ t hd hi ht
    have hm : Managed t := h.wf.managed t (by rw [hr]; exact Role.noConfusion)
    simp only [flag_pdeWord_some, if_true, wp_pure, frame_pdeWord hm]
    exact ⟨A, h, Keep.refl A m, .ok (.there ht) ht⟩
  | none =>
    simp only [flag_pdeWord_none, if_true, Bool.false_eq_true, if_false, wp_bind]
    refine wp_post (h.kalloc F) ?_
    rintro r m' ⟨A', hrep, halloc, hpage⟩
    cases halloc with
    | none hfree =>
      rw [wp_pure]
      exact ⟨_, hrep, fun g _ => by rw [hpage], .full ht hfree⟩
    | @some f fs hfree =>
      have hdf : d ≠ f := by
        rintro rfl
        rw [h.wf.role_head hfree] at hd
        cases hd
      have hd' : (A.pop f).role d = .dir := by
        rw [(Grow.pop h.wf hfree).role d (by rw [hd]; decide), hd]
      have hf' : (A.pop f).role f = .held := update_self ..
      have hadd := hrep.addTable hd' hi ht hf'
      simp only [wp_bind, wp_memset, wp_modify, wp_pure, storeWord]
      refine ⟨_, ?_, ?_, .ok (.new ht hfree) (if_pos ⟨rfl, rfl⟩)⟩
      · rw [Mem.setPage_ne _ _ hdf]
        exact hadd
      · intro g hg
        have hgd : g ≠ d := by
          rintro rfl
          rw [hd] at hg
          simp at hg
        have hgf : g ≠ f := by
          rintro rfl
          rw [h.wf.role_head hfree] at hg
          simp at hg
        rw [Mem.setPage_ne _ _ hgd, Mem.setPage_ne _ _ hgf, hpage]

end

end Rep

/-- What the loop of `mappages` does to a space, for `n` pages after page `v`, to
the frames from `q` on. -/
inductive Maps (d : Nat) (perm : Word) : Space → Nat → Nat → Nat → Bool → Space → Prop where
  | full {A : Space} {n v q : Nat} : A.tab d (v / npdentries) = none → A.free = [] →
      Maps d perm A n v q false A.oom
  | last {A A1 : Space} {v q : Nat} : Ensure A d (v / npdentries) A1 →
      flag (A.pte d v) pteP = false →
      Maps d perm A 0 v q true (A1.setPte d v (mkPte (q * pgsize) perm))
  | step {A A1 A' : Space} {n v q : Nat} {ok : Bool} : Ensure A d (v / npdentries) A1 →
      flag (A.pte d v) pteP = false →
      Maps d perm (A1.setPte d v (mkPte (q * pgsize) perm)) n (v + 1) (q + 1) ok A' →
      Maps d perm A (n + 1) v q ok A'

namespace Rep

variable {m : Mem}

/-- One round of the loop of `mappages`, before the rest `k` of the loop. -/
theorem mapStep (h : Rep m A) {w : Word} {k : M Bool} {Q : Bool → Mem → Prop} (hd : A.role d = .dir)
    (hv : v < npdentries * npdentries) (hF : F (.panic "remap") ∨ flag (A.pte d v) pteP = false)
    (hfull : ∀ m', Rep m' A.oom → Keep A m m' → A.tab d (v / npdentries) = none → A.free = [] →
      Q false m')
    (hok : ∀ A1 m', Rep m' (A1.setPte d v w) → Keep A m m' → Ensure A d (v / npdentries) A1 →
      flag (A.pte d v) pteP = false → wp k Q F m') :
    wp (do
      match ← walkpgdir d (v * pgsize) true with
      | none => pure false
      | some p => do
        let pte ← load p
        if flag pte pteP then panic "remap"
        else do
          store p w
          k) Q F m := by
  rw [wp_bind]
  refine wp_post (h.walk_alloc hd (page_lt_uintSize hv) F) ?_
  rintro r m1 ⟨A1, hrep, hkeep, hw⟩
  rw [mul_pgsize_div] at hw
  cases hw with
  | full hnone hfree =>
    rw [wp_pure]
    exact hfull m1 hrep hkeep hnone hfree
  | @ok _ t hens ht =>
    have hgrow := hens.grow h.wf
    have hd1 : A1.role d = .dir := by rw [hgrow.role d (by rw [hd]; decide), hd]
    rw [wp_bind, hrep.wp_load hd1 hv ht, hens.pte_eq, wp_ite]
    cases hp : flag (A.pte d v) pteP with
    | true =>
      rw [if_pos rfl, wp_panic]
      rcases hF with hF | hF
      · exact hF
      · rw [hp] at hF
        cases hF
    | false =>
      rw [if_neg (by decide), wp_bind, wp_store]
      refine hok A1 _ (hrep.setPte w hd1 hv ht) ?_ hens hp
      -- the only store is to the page table
      refine hkeep.trans hgrow ?_
      intro g hg
      have hgt : g ≠ t := by
        rintro rfl
        rw [hrep.table_role hd1 hv ht] at hg
        simp at hg
      exact Mem.setPage_ne _ _ hgt

theorem mapLoop {n : Nat} :
    ∀ {v q : Nat} {m : Mem} {A : Space}, Rep m A → A.role d = .dir →
      v + n < npdentries * npdentries → q + n < 2 ^ 20 →
      (F (.panic "remap") ∨ ∀ k ≤ n, flag (A.pte d (v + k)) pteP = false) →
      wp (Xv6.mapLoop d perm n (v * pgsize) (q * pgsize))
        (fun ok m' => ∃ A', Rep m' A' ∧ Keep A m m' ∧ Maps d perm A n v q ok A') F m := by
  induction n with
  | zero =>
    intro v q m A h hd hv hq hF
    rw [Xv6.mapLoop]
    refine h.mapStep hd hv (hF.imp_right fun hp => hp 0 (le_refl 0)) ?_ ?_
    · intro m' hrep hkeep hnone hfree
      exact ⟨_, hrep, hkeep, .full hnone hfree⟩
    · intro A1 m' hrep hkeep hens hp
      rw [wp_pure]
      exact ⟨_, hrep, hkeep, .last hens hp⟩
  | succ n ih =>
    intro v q m A h hd hv hq hF
    have hnext : (v * pgsize + pgsize) % uintSize = (v + 1) * pgsize := by
      rw [npdentries_eq] at hv
      rw [pgsize_eq, uintSize_eq]
      omega
    have hpa : (q * pgsize + pgsize) % uintSize = (q + 1) * pgsize := by
      rw [pgsize_eq, uintSize_eq]
      omega
    rw [Xv6.mapLoop]
    refine h.mapStep hd (by omega) (hF.imp_right fun hp => hp 0 (Nat.zero_le _)) ?_ ?_
    · intro m' hrep hkeep hnone hfree
      exact ⟨_, hrep, hkeep, .full hnone hfree⟩
    · intro A1 m' hrep hkeep hens hp
      have hgrow := (hens.grow h.wf).trans (Grow.setPte A1 d v (mkPte (q * pgsize) perm))
      rw [hnext, hpa]
      refine wp_post (ih hrep ?_ (by omega) (by omega) ?_) ?_
      · rw [hgrow.role d (by rw [hd]; decide), hd]
      · refine hF.imp_right fun hp k hk => ?_
        rw [Space.setPte_ne _ _ (by omega), hens.pte_eq, Nat.add_assoc, Nat.add_comm 1 k]
        exact hp (k + 1) (by omega)
      · rintro ok m'' ⟨A', hrep', hkeep', hmaps⟩
        exact ⟨A', hrep', hkeep.trans hgrow hkeep', .step hens hp hmaps⟩

/-- `mappages` of whole pages. -/
theorem mapRange (h : Rep m A) {q n : Nat} (hd : A.role d = .dir)
    (hv : v + n < npdentries * npdentries) (hq : q + n < 2 ^ 20)
    (hF : F (.panic "remap") ∨ ∀ k ≤ n, flag (A.pte d (v + k)) pteP = false) :
    wp (mappages d (v * pgsize) ((n + 1) * pgsize) (q * pgsize) perm)
      (fun ok m' => ∃ A', Rep m' A' ∧ Keep A m m' ∧ Maps d perm A n v q ok A') F m := by
  have h1 : pgrounddown (v * pgsize) = v * pgsize := by
    rw [pgrounddown, mul_pgsize_div]
  have h2 : pgrounddown ((v * pgsize + (n + 1) * pgsize + uintSize - 1) % uintSize) =
      (v + n) * pgsize := by
    rw [npdentries_eq] at hv
    rw [pgrounddown, pgsize_eq, uintSize_eq]
    omega
  have h3 : ((v + n) * pgsize + uintSize - v * pgsize) % uintSize / pgsize = n := by
    rw [npdentries_eq] at hv
    rw [pgsize_eq, uintSize_eq]
    omega
  rw [mappages, h1, h2]
  show wp (Xv6.mapLoop d perm (((v + n) * pgsize + uintSize - v * pgsize) % uintSize / pgsize) _ _)
    _ F m
  rw [h3]
  exact mapLoop h hd hv hq hF

/-- `mappages` of one page. -/
theorem mapPage (h : Rep m A) {q : Nat} (hd : A.role d = .dir) (hv : v < npdentries * npdentries)
    (hq : q < 2 ^ 20) (hF : F (.panic "remap") ∨ flag (A.pte d v) pteP = false) :
    wp (mappages d (v * pgsize) pgsize (q * pgsize) perm)
      (fun ok m' => ∃ A', Rep m' A' ∧ Keep A m m' ∧ Maps d perm A 0 v q ok A') F m := by
  have : wp (mappages d (v * pgsize) ((0 + 1) * pgsize) (q * pgsize) perm) _ F m := h.mapRange hd hv hq
    (hF.imp_right fun hp k hk => by rwa [show k = 0 by omega])
  rwa [Nat.zero_add, Nat.one_mul] at this

end Rep

end Xv6
