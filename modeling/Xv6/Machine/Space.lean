import Xv6.Lib.Count
import Xv6.Machine.Kalloc

/-!
# Address spaces

What the memory code is for, without bytes.  A `Space` says what every frame is
used for (`role`), which frames are free and in which order, the reference
counts, and for every directory its page tables (`tab`) and its entries (`pte`),
by page number.  A frame has one role, so a page table cannot also be free or be
a table of another directory.

`WF` ties the parts together.  Each operation below is one move of the memory
code, and comes with the lemma that it keeps `WF`.  The role `data` is a frame
that user entries may name, or one that nothing uses.
-/

namespace Xv6

open Function

variable {f d : Nat}

/-! ## Frames the allocator manages -/

section

variable [Link]

/-- A frame above the kernel and below the top of memory. -/
def Managed (f : Nat) : Prop := Link.kend ≤ kernbase + f * pgsize ∧ f * pgsize < phystop

theorem kernbase_lt_kend : kernbase + extmem < Link.kend :=
  Nat.lt_trans Link.kernlink_lt_data Link.data_lt_kend

theorem Managed.pos (h : Managed f) : 0 < f := by
  have h1 := kernbase_lt_kend
  have h2 := h.1
  rw [kernbase_eq, pgsize_eq] at *
  omega

theorem Managed.lt (h : Managed f) : f < phystop / pgsize := by
  have h2 := h.2
  rw [phystop_eq, pgsize_eq] at *
  omega

/-- The index of the count that `kalloc` sets when there is no frame. -/
def oomIndex : Nat := v2p 0 / pgsize

theorem Managed.ne_oom (h : Managed f) : f ≠ oomIndex := by
  have h1 := h.lt
  have h2 : oomIndex = 524288 := by decide
  rw [phystop_eq, pgsize_eq] at h1
  omega

end

/-! ## Spaces -/

/-- What a frame is used for. -/
inductive Role where
  /-- User data, or nothing. -/
  | data
  /-- On the free list. -/
  | free
  /-- Held by the kernel: a kernel stack, or a frame not yet put to use. -/
  | held
  /-- A page directory. -/
  | dir
  /-- The page table for slot `i` of the directory `d`. -/
  | table (d i : Nat)
deriving DecidableEq

/-- A page table or a directory. -/
def Role.isTable : Role → Bool
  | .dir => true
  | .table _ _ => true
  | _ => false

/-- The kernel's own use. -/
def Role.isKernel : Role → Bool
  | .held => true
  | r => r.isTable

/-- The frames, their counts, and the page tables of every directory. -/
structure Space where
  /-- The free list, head first. -/
  free : List Nat
  /-- The reference counts. -/
  count : Nat → BitVec 8
  /-- What each frame is used for. -/
  role : Nat → Role
  /-- The page tables of a directory. -/
  tab : Nat → Nat → Option Nat
  /-- The entry of a directory for a page number, 0 where there is no page table. -/
  pte : Nat → Nat → Word

/-- A space whose parts agree. -/
structure Space.WF [Link] (A : Space) : Prop where
  nodup : A.free.Nodup
  free_iff : ∀ f, f ∈ A.free ↔ A.role f = .free
  managed : ∀ f, A.role f ≠ .data → Managed f
  count_one : ∀ f, (A.role f).isKernel = true → A.count f = 1#8
  tab_role : ∀ d i t, A.role d = .dir → i < npdentries → A.tab d i = some t →
    A.role t = .table d i
  role_tab : ∀ t d i, A.role t = .table d i →
    A.role d = .dir ∧ i < npdentries ∧ A.tab d i = some t
  tab_none : ∀ d v, A.role d = .dir → v < npdentries * npdentries →
    A.tab d (v / npdentries) = none → A.pte d v = 0#32

/-! ## Moves -/

namespace Space

/-- Take the frame `f` off the head of the free list. -/
def pop (A : Space) (f : Nat) : Space :=
  { A with free := A.free.tail, count := Function.update A.count f 1#8
           role := Function.update A.role f .held }

/-- A `kalloc` that found no frame. -/
def oom (A : Space) : Space := { A with count := Function.update A.count oomIndex 1#8 }

/-- Put a frame on the free list. -/
def push (A : Space) (f : Nat) : Space :=
  { A with free := f :: A.free, role := Function.update A.role f .free }

/-- Hand a frame to user data. -/
def give (A : Space) (f : Nat) : Space := { A with role := Function.update A.role f .data }

def setCount (A : Space) (f : Nat) (n : BitVec 8) : Space :=
  { A with count := Function.update A.count f n }

/-- Make the held frame `d` an empty directory. -/
def addDir (A : Space) (d : Nat) : Space :=
  { A with role := Function.update A.role d .dir
           tab := fun d' i => if d' = d then none else A.tab d' i
           pte := fun d' v => if d' = d then 0#32 else A.pte d' v }

/-- Make the held frame `t` the page table for slot `i` of `d`. -/
def addTable (A : Space) (d i t : Nat) : Space :=
  { A with role := Function.update A.role t (.table d i)
           tab := fun d' i' => if d' = d ∧ i' = i then some t else A.tab d' i' }

def setPte (A : Space) (d v : Nat) (w : Word) : Space :=
  { A with pte := fun d' v' => if d' = d ∧ v' = v then w else A.pte d' v' }

/-- Whether a frame is the directory `d` or one of its page tables. -/
def belongs (A : Space) (d f : Nat) : Bool :=
  match A.role f with
  | .dir => f == d
  | .table d' _ => d' == d
  | _ => false

/-- Stop using `d` as a directory: it and its page tables are held frames. -/
def retire (A : Space) (d : Nat) : Space :=
  { A with role := fun f => if A.belongs d f then .held else A.role f }

section

variable (A : Space) (f : Nat)

@[simp] theorem pop_free : (A.pop f).free = A.free.tail := rfl
@[simp] theorem pop_tab : (A.pop f).tab = A.tab := rfl
@[simp] theorem pop_pte : (A.pop f).pte = A.pte := rfl
@[simp] theorem oom_free : A.oom.free = A.free := rfl
@[simp] theorem oom_role : A.oom.role = A.role := rfl
@[simp] theorem oom_tab : A.oom.tab = A.tab := rfl
@[simp] theorem oom_pte : A.oom.pte = A.pte := rfl
@[simp] theorem push_free : (A.push f).free = f :: A.free := rfl
@[simp] theorem push_count : (A.push f).count = A.count := rfl
@[simp] theorem push_tab : (A.push f).tab = A.tab := rfl
@[simp] theorem push_pte : (A.push f).pte = A.pte := rfl
@[simp] theorem give_free : (A.give f).free = A.free := rfl
@[simp] theorem give_count : (A.give f).count = A.count := rfl
@[simp] theorem give_tab : (A.give f).tab = A.tab := rfl
@[simp] theorem give_pte : (A.give f).pte = A.pte := rfl
@[simp] theorem setCount_free (n : BitVec 8) : (A.setCount f n).free = A.free := rfl
@[simp] theorem setCount_role (n : BitVec 8) : (A.setCount f n).role = A.role := rfl
@[simp] theorem setCount_tab (n : BitVec 8) : (A.setCount f n).tab = A.tab := rfl
@[simp] theorem setCount_pte (n : BitVec 8) : (A.setCount f n).pte = A.pte := rfl
@[simp] theorem addDir_free (d : Nat) : (A.addDir d).free = A.free := rfl
@[simp] theorem addDir_count (d : Nat) : (A.addDir d).count = A.count := rfl
@[simp] theorem addTable_free (d i t : Nat) : (A.addTable d i t).free = A.free := rfl
@[simp] theorem addTable_count (d i t : Nat) : (A.addTable d i t).count = A.count := rfl
@[simp] theorem addTable_pte (d i t : Nat) : (A.addTable d i t).pte = A.pte := rfl
@[simp] theorem setPte_free (d v : Nat) (w : Word) : (A.setPte d v w).free = A.free := rfl
@[simp] theorem setPte_count (d v : Nat) (w : Word) : (A.setPte d v w).count = A.count := rfl
@[simp] theorem setPte_role (d v : Nat) (w : Word) : (A.setPte d v w).role = A.role := rfl
@[simp] theorem setPte_tab (d v : Nat) (w : Word) : (A.setPte d v w).tab = A.tab := rfl
@[simp] theorem retire_free (d : Nat) : (A.retire d).free = A.free := rfl
@[simp] theorem retire_count (d : Nat) : (A.retire d).count = A.count := rfl
@[simp] theorem retire_pte (d : Nat) : (A.retire d).pte = A.pte := rfl

@[simp] theorem setPte_self (d v : Nat) (w : Word) : (A.setPte d v w).pte d v = w :=
  if_pos ⟨rfl, rfl⟩

theorem setPte_ne {v d' v' : Nat} (w : Word) (h : ¬ (d' = d ∧ v' = v)) :
    (A.setPte d v w).pte d' v' = A.pte d' v' := if_neg h

@[simp] theorem setPte_setPte (d v : Nat) (w w' : Word) :
    (A.setPte d v w).setPte d v w' = A.setPte d v w' := by
  unfold setPte
  congr 1
  funext d' v'
  by_cases h : d' = d ∧ v' = v <;> simp [h]

end

theorem retire_role_pos {A : Space} (h : A.belongs d f = true) :
    (A.retire d).role f = .held := if_pos h

theorem retire_role_neg {A : Space} (h : A.belongs d f = false) :
    (A.retire d).role f = A.role f := if_neg (by rw [h]; decide)

theorem belongs_iff (A : Space) (d f : Nat) : A.belongs d f = true ↔
    A.role f = .dir ∧ f = d ∨ ∃ i, A.role f = .table d i := by
  unfold belongs
  cases A.role f with
  | dir => simp
  | table d' i => simp
  | data => simp
  | free => simp
  | held => simp

/-- A frame that gets a role was no other directory. -/
theorem dir_of_update {A : Space} {r : Role} (hr : r ≠ .dir) (hd : Function.update A.role f r d = .dir) :
    A.role d = .dir := by
  by_cases hdf : d = f
  · rw [hdf, update_self] at hd
    exact absurd hd hr
  · rwa [update_of_ne hdf] at hd

end Space

/-! ## The moves keep the parts in agreement -/

namespace Space.WF

variable [Link] {A : Space}

section

variable (h : A.WF)
include h

theorem free_managed (hf : f ∈ A.free) : Managed f :=
  h.managed f (by rw [(h.free_iff f).mp hf]; decide)

theorem role_head {fs : List Nat} (hf : A.free = f :: fs) : A.role f = .free :=
  (h.free_iff f).mp (by rw [hf]; exact List.mem_cons_self)

/-- One frame that is no table gets another role that is no table. -/
theorem reRole {A' : Space} {r : Role} (hold : (A.role f).isTable = false)
    (hnew : r.isTable = false) (hrole : A'.role = Function.update A.role f r)
    (htab : A'.tab = A.tab) (hpte : A'.pte = A.pte) (hnodup : A'.free.Nodup)
    (hfree : ∀ g, g ∈ A'.free ↔ Function.update A.role f r g = .free) (hman : r ≠ .data → Managed f)
    (hone : r = .held → A'.count f = 1#8)
    (hcount : ∀ g, g ≠ f → (A.role g).isKernel = true → A'.count g = A.count g) : A'.WF := by
  have hdir : ∀ d, A'.role d = .dir → A.role d = .dir := fun d hd =>
    dir_of_update (by rintro rfl; cases hnew) (hrole ▸ hd)
  constructor
  · exact hnodup
  · rw [hrole]
    exact hfree
  · intro g hg
    by_cases hgf : g = f
    · subst hgf
      rw [hrole, update_self] at hg
      exact hman hg
    · rw [hrole, update_of_ne hgf] at hg
      exact h.managed g hg
  · intro g hg
    by_cases hgf : g = f
    · subst hgf
      rw [hrole, update_self] at hg
      apply hone
      cases r <;> simp_all [Role.isKernel, Role.isTable]
    · rw [hrole, update_of_ne hgf] at hg
      rw [hcount g hgf hg, h.count_one g hg]
  · intro d i t hd hi ht
    rw [htab] at ht
    have htr := h.tab_role d i t (hdir d hd) hi ht
    have htf : t ≠ f := by
      rintro rfl
      rw [htr] at hold
      cases hold
    rw [hrole, update_of_ne htf, htr]
  · intro t d i ht
    have htf : t ≠ f := by
      rintro rfl
      rw [hrole, update_self] at ht
      rw [ht] at hnew
      cases hnew
    rw [hrole, update_of_ne htf] at ht
    obtain ⟨hd, hi, htd⟩ := h.role_tab t d i ht
    have hdf : d ≠ f := by
      rintro rfl
      rw [hd] at hold
      cases hold
    rw [hrole, update_of_ne hdf, htab]
    exact ⟨hd, hi, htd⟩
  · intro d v hd hv ht
    rw [htab] at ht
    rw [hpte]
    exact h.tab_none d v (hdir d hd) hv ht

theorem pop {fs : List Nat} (hf : A.free = f :: fs) : (A.pop f).WF := by
  have hn := h.nodup
  have hr := h.role_head hf
  rw [hf, List.nodup_cons] at hn
  refine h.reRole (f := f) (r := .held) (by rw [hr]; rfl) rfl rfl rfl rfl ?_ ?_ ?_ ?_ ?_
  · simpa only [Space.pop, hf, List.tail_cons] using hn.2
  · intro g
    by_cases hg : g = f
    · subst hg
      simp [Space.pop, hf, hn.1]
    · have := h.free_iff g
      rw [hf, List.mem_cons] at this
      simpa [Space.pop, hf, hg] using this
  · intro _
    exact h.free_managed (by rw [hf]; exact List.mem_cons_self)
  · intro _
    exact update_self ..
  · intro g hg _
    exact update_of_ne hg ..

theorem oom : A.oom.WF := by
  refine ⟨h.nodup, h.free_iff, h.managed, ?_, h.tab_role, h.role_tab, h.tab_none⟩
  intro g hg
  have hm : Managed g := h.managed g (by intro hd; rw [show A.oom.role = A.role from rfl, hd] at hg; cases hg)
  show Function.update A.count oomIndex 1#8 g = 1#8
  rw [update_of_ne hm.ne_oom]
  exact h.count_one g hg

theorem push (hm : Managed f) (hf : A.role f = .held ∨ A.role f = .data) :
    (A.push f).WF := by
  have hnot : f ∉ A.free := by
    rw [h.free_iff]
    rcases hf with hf | hf <;> rw [hf] <;> decide
  refine h.reRole (f := f) (r := .free) ?_ rfl rfl rfl rfl ?_ ?_ ?_ ?_ ?_
  · rcases hf with hf | hf <;> rw [hf] <;> rfl
  · exact List.nodup_cons.mpr ⟨hnot, h.nodup⟩
  · intro g
    by_cases hg : g = f
    · subst hg
      simp [Space.push]
    · simpa [Space.push, hg] using h.free_iff g
  · intro _
    exact hm
  · intro hr
    cases hr
  · intro g _ _
    rfl

theorem give (hf : A.role f = .held) : (A.give f).WF := by
  refine h.reRole (f := f) (r := .data) (by rw [hf]; rfl) rfl rfl rfl rfl h.nodup ?_ ?_ ?_ ?_
  · intro g
    by_cases hg : g = f
    · subst hg
      show g ∈ A.free ↔ _
      rw [h.free_iff, hf, update_self]
      decide
    · show g ∈ A.free ↔ _
      rw [h.free_iff, update_of_ne hg]
  · intro hr
    exact absurd rfl hr
  · intro hr
    cases hr
  · intro g _ _
    rfl

theorem setCount (n : BitVec 8) (hf : (A.role f).isKernel = false) :
    (A.setCount f n).WF := by
  refine ⟨h.nodup, h.free_iff, h.managed, ?_, h.tab_role, h.role_tab, h.tab_none⟩
  intro g hg
  have hgf : g ≠ f := by
    rintro rfl
    rw [show (A.setCount g n).role = A.role from rfl, hf] at hg
    cases hg
  show Function.update A.count f n g = 1#8
  rw [update_of_ne hgf]
  exact h.count_one g hg

theorem setPte {v t : Nat} (w : Word) (ht : A.tab d (v / npdentries) = some t) :
    (A.setPte d v w).WF := by
  refine ⟨h.nodup, h.free_iff, h.managed, h.count_one, h.tab_role, h.role_tab, ?_⟩
  intro d' v' hd' hv' ht'
  have hne : ¬ (d' = d ∧ v' = v) := by
    rintro ⟨rfl, rfl⟩
    rw [show (A.setPte d' v' w).tab = A.tab from rfl, ht] at ht'
    cases ht'
  show (if d' = d ∧ v' = v then w else A.pte d' v') = 0#32
  rw [if_neg hne]
  exact h.tab_none d' v' hd' hv' ht'

theorem addDir (hd : A.role d = .held) : (A.addDir d).WF := by
  have hdir : ∀ d', d' ≠ d → (A.addDir d).role d' = A.role d' := fun d' hne =>
    update_of_ne hne ..
  constructor
  · exact h.nodup
  · intro g
    by_cases hg : g = d
    · subst hg
      simp [Space.addDir, h.free_iff, hd]
    · rw [hdir g hg]
      exact h.free_iff g
  · intro g hgr
    by_cases hg : g = d
    · subst hg
      exact h.managed g (by rw [hd]; decide)
    · rw [hdir g hg] at hgr
      exact h.managed g hgr
  · intro g hgr
    by_cases hg : g = d
    · subst hg
      exact h.count_one g (by rw [hd]; rfl)
    · rw [hdir g hg] at hgr
      exact h.count_one g hgr
  · intro d' i t hd' hi ht
    by_cases hdd : d' = d
    · subst hdd
      simp [Space.addDir] at ht
    · rw [hdir d' hdd] at hd'
      have ht' : A.tab d' i = some t := by simpa [Space.addDir, hdd] using ht
      have htr := h.tab_role d' i t hd' hi ht'
      rw [hdir t (by rintro rfl; rw [hd] at htr; cases htr), htr]
  · intro t d' i ht
    have htd : t ≠ d := by
      rintro rfl
      simp [Space.addDir] at ht
    rw [hdir t htd] at ht
    obtain ⟨hd', hi, htab⟩ := h.role_tab t d' i ht
    have hdd : d' ≠ d := by
      rintro rfl
      rw [hd] at hd'
      cases hd'
    rw [hdir d' hdd]
    exact ⟨hd', hi, by simpa [Space.addDir, hdd] using htab⟩
  · intro d' v hd' hv ht
    by_cases hdd : d' = d
    · subst hdd
      simp [Space.addDir]
    · rw [hdir d' hdd] at hd'
      have ht' : A.tab d' (v / npdentries) = none := by simpa [Space.addDir, hdd] using ht
      simpa [Space.addDir, hdd] using h.tab_none d' v hd' hv ht'

theorem addTable {i t : Nat} (hd : A.role d = .dir) (hi : i < npdentries)
    (hnone : A.tab d i = none) (ht : A.role t = .held) : (A.addTable d i t).WF := by
  have hdt : d ≠ t := by
    rintro rfl
    rw [hd] at ht
    cases ht
  have hrole : ∀ g, g ≠ t → (A.addTable d i t).role g = A.role g := fun g hne =>
    update_of_ne hne ..
  have hself : (A.addTable d i t).role t = .table d i := update_self ..
  have hdir : ∀ d', (A.addTable d i t).role d' = .dir → A.role d' = .dir := fun _ =>
    dir_of_update (by simp)
  constructor
  · exact h.nodup
  · intro g
    by_cases hg : g = t
    · subst hg
      rw [hself]
      simp [Space.addTable, h.free_iff, ht]
    · rw [hrole g hg]
      exact h.free_iff g
  · intro g hgr
    by_cases hg : g = t
    · subst hg
      exact h.managed g (by rw [ht]; decide)
    · rw [hrole g hg] at hgr
      exact h.managed g hgr
  · intro g hgr
    by_cases hg : g = t
    · subst hg
      exact h.count_one g (by rw [ht]; rfl)
    · rw [hrole g hg] at hgr
      exact h.count_one g hgr
  · intro d' i' t' hd' hi' ht'
    by_cases hk : d' = d ∧ i' = i
    · obtain ⟨rfl, rfl⟩ := hk
      have : t = t' := by simpa [Space.addTable] using ht'
      rw [← this, hself]
    · have ht'' : A.tab d' i' = some t' := by simpa [Space.addTable, hk] using ht'
      have htr := h.tab_role d' i' t' (hdir d' hd') hi' ht''
      rw [hrole t' (by rintro rfl; rw [ht] at htr; cases htr), htr]
  · intro t' d' i' ht'
    by_cases htt : t' = t
    · subst htt
      rw [hself] at ht'
      injection ht' with h1 h2
      subst h1 h2
      rw [hrole d hdt]
      exact ⟨hd, hi, if_pos ⟨rfl, rfl⟩⟩
    · rw [hrole t' htt] at ht'
      obtain ⟨hd', hi', htab⟩ := h.role_tab t' d' i' ht'
      have hne : d' ≠ t := by
        rintro rfl
        rw [ht] at hd'
        cases hd'
      have hk : ¬ (d' = d ∧ i' = i) := by
        rintro ⟨rfl, rfl⟩
        rw [hnone] at htab
        cases htab
      rw [hrole d' hne]
      exact ⟨hd', hi', by simpa [Space.addTable, hk] using htab⟩
  · intro d' v hd' hv ht'
    by_cases hk : d' = d ∧ v / npdentries = i
    · simp [Space.addTable, hk] at ht'
    · have ht'' : A.tab d' (v / npdentries) = none := by simpa [Space.addTable, hk] using ht'
      exact h.tab_none d' v (hdir d' hd') hv ht''

theorem retire (d : Nat) : (A.retire d).WF := by
  have hkernel : ∀ f, A.belongs d f = true → (A.role f).isKernel = true := by
    intro f hf
    rcases (A.belongs_iff d f).mp hf with ⟨hr, _⟩ | ⟨i, hr⟩ <;> rw [hr] <;> rfl
  have hsplit : ∀ f, (A.retire d).role f = .held ∧ (A.role f).isKernel = true ∨
      (A.retire d).role f = A.role f ∧ A.belongs d f = false := by
    intro f
    cases hb : A.belongs d f with
    | true => exact .inl ⟨if_pos hb, hkernel f hb⟩
    | false => exact .inr ⟨if_neg (by rw [hb]; decide), rfl⟩
  have hdir : ∀ d', (A.retire d).role d' = .dir → A.role d' = .dir ∧ d' ≠ d := by
    intro d' hd'
    rcases hsplit d' with ⟨hh, _⟩ | ⟨he, hb⟩
    · rw [hh] at hd'
      cases hd'
    · rw [he] at hd'
      refine ⟨hd', ?_⟩
      rintro rfl
      rw [(A.belongs_iff d' d').mpr (.inl ⟨hd', rfl⟩)] at hb
      cases hb
  constructor
  · exact h.nodup
  · intro f
    rw [retire_free, h.free_iff]
    rcases hsplit f with ⟨hh, hk⟩ | ⟨he, _⟩
    · rw [hh]
      constructor
      · intro hf
        rw [hf] at hk
        cases hk
      · intro hf
        cases hf
    · rw [he]
  · intro f hf
    rcases hsplit f with ⟨_, hk⟩ | ⟨he, _⟩
    · exact h.managed f (by intro hd; rw [hd] at hk; cases hk)
    · rw [he] at hf
      exact h.managed f hf
  · intro f hf
    rcases hsplit f with ⟨_, hk⟩ | ⟨he, _⟩
    · exact h.count_one f hk
    · rw [he] at hf
      exact h.count_one f hf
  · intro d' i t hd' hi ht
    obtain ⟨hd'', hne⟩ := hdir d' hd'
    have htr := h.tab_role d' i t hd'' hi ht
    rcases hsplit t with ⟨hh, _⟩ | ⟨he, _⟩
    · exfalso
      have hb : A.belongs d t = false := by simp [Space.belongs, htr, hne]
      simp [Space.retire, hb, htr] at hh
    · rw [he, htr]
  · intro t d' i ht
    rcases hsplit t with ⟨hh, _⟩ | ⟨he, hb⟩
    · rw [hh] at ht
      cases ht
    · rw [he] at ht
      obtain ⟨hd', hi, htab⟩ := h.role_tab t d' i ht
      have hne : d' ≠ d := by
        rintro rfl
        rw [(A.belongs_iff d' t).mpr (.inr ⟨i, ht⟩)] at hb
        cases hb
      have hb' : A.belongs d d' = false := by simp [Space.belongs, hd', hne]
      rw [retire_role_neg hb']
      exact ⟨hd', hi, htab⟩
  · intro d' v hd' hv ht
    exact h.tab_none d' v (hdir d' hd').1 hv ht

end

end Space.WF

end Xv6
