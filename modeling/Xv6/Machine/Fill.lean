import Xv6.Machine.Setup

/-!
# New user pages

A page is filled when a frame from the free list is mapped at it (`Fill`).
`inituvm`, `allocuvm` and the page fault trap do it.  `allocuvm` fills a range of
pages (`Fills`) and takes the whole range back when it runs out of memory
(`Released`).
-/

namespace Xv6

open Prog Function

variable {d v f oldsz newsz : Nat} {vs fs : List Nat} {F : Fault → Prop} {perm : Word}

/-- The page `v` of the directory `d` gets the frame `f` from the free list. -/
inductive Fill (A : Space) (d v : Nat) (perm : Word) : Nat → Space → Prop where
  | mk {f : Nat} {fs : List Nat} {A1 : Space} : A.free = f :: fs →
      Ensure (A.pop f) d (v / npdentries) A1 → flag (A.pte d v) pteP = false →
      Fill A d v perm f ((A1.setPte d v (mkPte (f * pgsize) perm)).give f)

/-- There is no frame for the page `v`, or none for the page table it needs. -/
def Space.Short (A : Space) (d v : Nat) : Prop :=
  A.free = [] ∨ A.free.length = 1 ∧ A.tab d (v / npdentries) = none

theorem Space.Short.length_le {A : Space} (h : A.Short d v) : A.free.length ≤ 1 := by
  rcases h with h | h
  · rw [h]
    exact Nat.zero_le _
  · exact h.1.le

theorem Fill.not_short {A A' : Space} (h : Fill A d v perm f A') : ¬ A.Short d v := by
  cases h with
  | mk hf hens _ =>
    rintro (hs | ⟨hs, htab⟩)
    · rw [hf] at hs
      cases hs
    · have hfree : (A.pop f).free = [] := by
        rw [hf, List.length_cons] at hs
        rw [Space.pop_free, hf, List.tail_cons]
        exact List.length_eq_zero_iff.mp (by omega)
      cases hens with
      | there ht => exact absurd (ht.symm.trans htab) nofun
      | new _ hf' => exact absurd (hf'.symm.trans hfree) nofun

variable [Link] {A A' B : Space} {x : Bool} {m : Mem}

/-! ## One page -/

theorem pop_dir (hwf : A.WF) (hf : A.free = f :: fs) (hd : A.role d = .dir) :
    (A.pop f).role d = .dir := by
  rw [(Grow.pop hwf hf).role d (by rw [hd]; decide), hd]

omit [Link] in
theorem of_pop_dir (hd : (A.pop f).role d = .dir) : A.role d = .dir :=
  Space.dir_of_update (by decide) hd

/-- Taking a frame touches no entry. -/
theorem Sane.pop (h : Sane A x) (hwf : A.WF) (hf : A.free = f :: fs) : Sane (A.pop f) x :=
  h.grow hwf (hwf.pop hf) (Grow.pop hwf hf) (fun _ => of_pop_dir) rfl

theorem Sane.oom (h : Sane A x) (hwf : A.WF) : Sane A.oom x :=
  h.grow hwf hwf.oom (Grow.oom A) (fun _ h => h) rfl

namespace Fill

theorem fresh (h : Fill A d v perm f A') (hwf : A.WF) : A.role f = .free := by
  cases h with
  | mk hf _ _ => exact hwf.role_head hf

/-- The frame stays held while its page table is made. -/
theorem held {A1 : Space} (hwf : A.WF) (hf : A.free = f :: fs)
    (hens : Ensure (A.pop f) d (v / npdentries) A1) : A1.role f = .held := by
  have hh : (A.pop f).role f = .held := update_self ..
  rw [(hens.grow (hwf.pop hf)).role f (by rw [hh]; decide), hh]

section

variable (h : Fill A d v perm f A')
include h

theorem wf (hwf : A.WF) (hd : A.role d = .dir)
    (hv : v < npdentries * npdentries) : A'.WF := by
  cases h with
  | mk hf hens hp =>
    obtain ⟨t, ht⟩ := hens.tab_some
    have hwf1 := hens.wf (hwf.pop hf) (pop_dir hwf hf hd) (div_lt_npdentries hv)
    refine (hwf1.setPte _ ht).give ?_
    rw [Space.setPte_role]
    exact held hwf hf hens

omit [Link] in
theorem pte_self : A'.pte d v = mkPte (f * pgsize) perm := by
  cases h with
  | mk _ _ _ => rw [Space.give_pte, Space.setPte_self]

omit [Link] in
theorem role_self : A'.role f = .data := by
  cases h with
  | mk _ _ _ => exact update_self ..

theorem count_self (hwf : A.WF) : A'.count f = 1#8 := by
  cases h with
  | @mk fs A1 hf hens _ =>
    have hh : (A.pop f).role f = .held := update_self ..
    have hm : Managed f := hwf.free_managed (by rw [hf]; exact List.mem_cons_self)
    show A1.count f = 1#8
    rw [(hens.grow (hwf.pop hf)).count f (by rw [hh]; decide) hm.ne_oom]
    exact update_self ..

theorem names_self (hwf : A.WF) (hperm : Perm perm) :
    names (A'.pte d v) f = true := by
  have hm : Managed f := hwf.managed f (by rw [h.fresh hwf]; decide)
  rw [h.pte_self]
  exact names_iff.mpr ⟨flag_mkPte_pteP .., frame_mkPte hm.lt_frames hperm⟩

end

end Fill

theorem Fill.extends (h : Fill A d v perm f A') (hwf : A.WF) (hv : v < userPages)
    (hperm : Perm perm) : Extends A A' d fun u => u = v := by
  have hself := h.names_self hwf hperm
  cases h with
  | @mk fs A1 hf hens hp =>
    have hfree := hwf.role_head hf
    have hpop := Grow.pop hwf hf
    have hext := hens.extends (hwf.pop hf) fun u => u = v
    have hne : ∀ g, g ≠ f → ((A1.setPte d v (mkPte (f * pgsize) perm)).give f).role g =
        A1.role g := fun g hg => update_of_ne hg ..
    have hself' : ((A1.setPte d v (mkPte (f * pgsize) perm)).give f).role f = .data :=
      update_self ..
    have hback : ∀ g r, r ≠ .data →
        ((A1.setPte d v (mkPte (f * pgsize) perm)).give f).role g = r → g ≠ f := by
      rintro g r hr hg rfl
      exact hr (hg.symm.trans hself')
    have hrole : ∀ g, g ≠ f → (A.pop f).role g = A.role g := fun g hg => by
      simp [Space.pop, hg]
    refine ⟨⟨hext.grow.free.trans hpop.free, ?_, ?_⟩, ?_, ?_, ?_, ?_, ?_, ?_, ?_⟩
    · intro g hg
      have hgf : g ≠ f := by
        rintro rfl
        exact hg hfree
      rw [hne g hgf, hext.grow.role g (by rwa [hrole g hgf]), hrole g hgf]
    · intro g hg hoom
      have hgf : g ≠ f := by
        rintro rfl
        exact hg hfree
      show A1.count g = _
      rw [hext.grow.count g (by rwa [hrole g hgf]) hoom]
      exact hpop.count g hg hoom
    · intro d' hd'
      have hdf := hback d' _ (by decide) hd'
      rw [hne d' hdf] at hd'
      exact of_pop_dir (hext.dir d' hd')
    · intro g hg
      have hgf := hback g _ (by decide) hg
      rw [hne g hgf] at hg
      rw [← hrole g hgf]
      exact hext.held g hg
    · intro g hg
      by_cases hgf : g = f
      · subst hgf
        exact .inr ⟨v, hv, hself⟩
      · rw [hne g hgf] at hg
        rcases hext.data g hg with hg' | ⟨u, hu, hn⟩
        · exact .inl (by rwa [hrole g hgf] at hg')
        · refine .inr ⟨u, hu, ?_⟩
          by_cases huv : u = v
          · subst huv
            rw [hens.pte_eq, Space.pop_pte] at hn
            rw [(names_iff.mp hn).1] at hp
            cases hp
          · rw [Space.give_pte, Space.setPte_ne _ _ fun hk => huv hk.2]
            exact hn
    · intro d' u hk
      rw [Space.give_pte, Space.setPte_ne _ _ hk, hens.pte_eq, Space.pop_pte]
    · intro u hu
      have huv : u ≠ v := by
        rintro rfl
        rw [hp] at hu
        cases hu
      rw [Space.give_pte, Space.setPte_ne _ _ fun hk => huv hk.2, hens.pte_eq, Space.pop_pte]
    · intro d' i hdd
      rw [Space.give_tab, Space.setPte_tab, hext.tab d' i hdd, Space.pop_tab]
    · intro i t ht
      rw [Space.give_tab, Space.setPte_tab]
      exact hext.tab_some i t (by rw [Space.pop_tab]; exact ht)

theorem Fill.sane (h : Fill A d v perm f A') (hwf : A.WF) (hd : A.role d = .dir) (hv : v < userPages)
    (hperm : Perm perm) (hs : Sane A x) : Sane A' x := by
  cases h with
  | mk hf hens hp =>
    have hwf1 := hwf.pop hf
    have hd1 := pop_dir hwf hf hd
    have hi := div_lt_npdentries (userPages_lt hv)
    have hs1 := (hs.pop hwf hf).ensure hwf1 hd1 hi hens
    exact hs1.mapFresh (hens.wf hwf1 hd1 hi) ((hens.extends hwf1 fun _ => True).role_dir hd1) hv
      (Fill.held hwf hf hens) hperm

omit [Link] in
/-- A page takes its frame and at most one page table. -/
theorem Fill.length (h : Fill A d v perm f A') : A.free.length ≤ A'.free.length + 2 := by
  cases h with
  | mk hf hens _ =>
    have := hens.length
    rw [Space.pop_free, hf, List.tail_cons] at this
    rw [Space.give_free, Space.setPte_free, hf, List.length_cons]
    split at this <;> omega

/-- `mappages` of a frame just taken. -/
theorem Rep.fillPage {m1 : Mem} (perm : Word) (hwf : A.WF) (hf : A.free = f :: fs)
    (h : Rep m1 (A.pop f)) (hd : A.role d = .dir) (hv : v < npdentries * npdentries)
    (hF : F (.panic "remap") ∨ flag (A.pte d v) pteP = false) :
    wp (mappages d (v * pgsize) pgsize (f * pgsize) perm)
      (fun ok m' => Keep (A.pop f) m1 m' ∧
        if ok then ∃ A', Rep m' A' ∧ Fill A d v perm f A'
        else Rep m' (A.pop f).oom ∧ A.tab d (v / npdentries) = none ∧ fs = []) F m1 := by
  have hm : Managed f := hwf.free_managed (by rw [hf]; exact List.mem_cons_self)
  refine wp_post (h.mapPage (pop_dir hwf hf hd) hv hm.lt_frames hF) ?_
  rintro ok m2 ⟨A2, h2, hkeep, hmaps⟩
  refine ⟨hkeep, ?_⟩
  cases hmaps with
  | full hnone hfree =>
    refine ⟨h2, hnone, ?_⟩
    rwa [Space.pop_free, hf, List.tail_cons] at hfree
  | last hens hp =>
    refine ⟨_, h2.give ?_, .mk hf hens hp⟩
    rw [Space.setPte_role]
    exact Fill.held hwf hf hens

/-- Take a frame and map it.  Both ways to fail leave the free list empty. -/
theorem Rep.inituvm (h : Rep m A) {init : List Byte} (hd : A.role d = .dir)
    (hp : flag (A.pte d 0) pteP = false) (hlen : 2 ≤ A.free.length)
    (hinit : F (.panic "inituvm: more than a page") ∨ init.length < pgsize) :
    wp (Xv6.inituvm d init)
      (fun _ m' => ∃ f A', Rep m' A' ∧ Fill A d 0 (pteW ||| pteU) f A') F m := by
  unfold Xv6.inituvm
  rw [wp_ite]
  split
  · rw [wp_panic]
    exact hinit.resolve_right (by omega)
  · rw [wp_bind]
    refine wp_post (h.kalloc F) ?_
    rintro r m1 ⟨A1, h1, halloc, _⟩
    cases halloc with
    | none hf =>
      rw [hf] at hlen
      cases hlen
    | @some f fs hf =>
      have hrole : (A.pop f).role f = .held := update_self ..
      have h2 := h1.setPage (f := f) (fill 0#8) (by rw [hrole]; rfl)
      have hmap := Rep.fillPage (v := 0) (pteW ||| pteU) (F := F) h.wf hf h2 hd (by decide)
        (.inr hp)
      rw [Nat.zero_mul] at hmap
      simp only [wp_bind, wp_memset]
      refine wp_post hmap ?_
      rintro ok m3 ⟨_, hok⟩
      cases ok with
      | false =>
        obtain ⟨_, _, hfs⟩ := hok
        rw [hf, hfs] at hlen
        simp at hlen
      | true =>
        obtain ⟨A', h3, hfill⟩ := hok
        rw [writeBytes, wp_modify]
        exact ⟨f, A', h3.setPage _ (by rw [hfill.role_self]; rfl), hfill⟩

/-! ## A range of pages -/

/-- The pages of a list are filled one after the other. -/
inductive Fills (d : Nat) (perm : Word) : Space → List Nat → Space → Prop where
  | nil {A : Space} : Fills d perm A [] A
  | cons {A A1 A' : Space} {v f : Nat} {vs : List Nat} : Fill A d v perm f A1 →
      Fills d perm A1 vs A' → Fills d perm A (v :: vs) A'

section

variable (h : Fills d perm A vs A') (hwf : A.WF) (hd : A.role d = .dir)
  (hvs : ∀ v ∈ vs, v < userPages) (hperm : Perm perm)
include h hwf hd hvs hperm

theorem Fills.extends :
    A'.WF ∧ Extends A A' d fun u => u ∈ vs := by
  induction h with
  | nil => exact ⟨hwf, Extends.refl _ d _⟩
  | @cons A A1 A' v f vs hfill _ ih =>
    have hv := hvs v List.mem_cons_self
    have hext := hfill.extends hwf hv hperm
    obtain ⟨hwf', hext'⟩ := ih (hfill.wf hwf hd (userPages_lt hv)) (hext.role_dir hd)
      fun u hu => hvs u (List.mem_cons_of_mem v hu)
    refine ⟨hwf', (hext.mono ?_).trans (hext'.mono fun u hu => List.mem_cons_of_mem v hu)⟩
    rintro u rfl
    exact List.mem_cons_self

theorem Fills.sane (hs : Sane A x) : Sane A' x := by
  induction h with
  | nil => exact hs
  | @cons A A1 A' v f vs hfill _ ih =>
    have hv := hvs v List.mem_cons_self
    exact ih (hfill.wf hwf hd (userPages_lt hv)) ((hfill.extends hwf hv hperm).role_dir hd)
      (fun u hu => hvs u (List.mem_cons_of_mem v hu)) (hfill.sane hwf hd hv hperm hs)

/-- Every page of the list has a frame of its own, which was free. -/
theorem Fills.fresh (hv : v ∈ vs) :
    ∃ f, names (A'.pte d v) f = true ∧ A.role f = .free ∧ A'.count f = 1#8 := by
  induction h with
  | nil => cases hv
  | @cons A A1 A' u f vs hfill hrest ih =>
    have hu := hvs u List.mem_cons_self
    have hwf1 := hfill.wf hwf hd (userPages_lt hu)
    have hext1 := hfill.extends hwf hu hperm
    have hd1 := hext1.role_dir hd
    have hvs' : ∀ w ∈ vs, w < userPages := fun w hw => hvs w (List.mem_cons_of_mem u hw)
    rcases List.mem_cons.mp hv with rfl | hv
    · have hext := (hrest.extends hwf1 hd1 hvs' hperm).2
      have hn := hfill.names_self hwf hperm
      have hm : Managed f := hwf.managed f (by rw [hfill.fresh hwf]; decide)
      refine ⟨f, ?_, hfill.fresh hwf, ?_⟩
      · rw [hext.present v (names_iff.mp hn).1]
        exact hn
      · rw [hext.grow.count f (by rw [hfill.role_self]; decide) hm.ne_oom]
        exact hfill.count_self hwf
    · obtain ⟨g, hn, hg, hc⟩ := ih hwf1 hd1 hvs' hv
      refine ⟨g, hn, ?_, hc⟩
      by_contra hne
      rw [hext1.grow.role g hne] at hg
      exact hne hg

theorem Fills.pte_mem (hv : v ∈ vs) :
    ∃ f, A'.pte d v = mkPte (f * pgsize) perm := by
  induction h with
  | nil => cases hv
  | @cons A A1 A' u f vs hfill hrest ih =>
    have hu := hvs u List.mem_cons_self
    have hwf1 := hfill.wf hwf hd (userPages_lt hu)
    have hd1 := (hfill.extends hwf hu hperm).role_dir hd
    have hvs' : ∀ w ∈ vs, w < userPages := fun w hw => hvs w (List.mem_cons_of_mem u hw)
    rcases List.mem_cons.mp hv with rfl | hv
    · refine ⟨f, ?_⟩
      rw [(hrest.extends hwf1 hd1 hvs' hperm).2.present v (by rw [hfill.pte_self, flag_mkPte_pteP]),
        hfill.pte_self]
    · exact ih hwf1 hd1 hvs' hv

end

section

omit [Link]

theorem Fill.tab_outside {i : Nat} (h : Fill A d v perm f A') (hi : v / npdentries ≠ i) :
    A'.tab d i = A.tab d i := by
  cases h with
  | mk _ hens _ =>
    rw [Space.give_tab, Space.setPte_tab, hens.tab_ne fun hk => hi hk.2.symm, Space.pop_tab]

theorem Fills.tab_outside {i : Nat} (h : Fills d perm A vs A') (hi : ∀ v ∈ vs, v / npdentries ≠ i) :
    A'.tab d i = A.tab d i := by
  induction h with
  | nil => rfl
  | cons hfill _ ih =>
    rw [ih fun v hv => hi v (List.mem_cons_of_mem _ hv)]
    exact hfill.tab_outside (hi _ List.mem_cons_self)

/-- Pages of the directory `d` were cleared, and frames with a count of at most one
went back to the free list. -/
structure Released (A A' : Space) (d : Nat) (vs : List Nat) : Prop where
  stay : ∀ f, A'.role f = A.role f ∨ A'.role f = .free ∧ ∃ v ∈ vs, names (A.pte d v) f = true
  gone : ∀ v ∈ vs, flag (A.pte d v) pteP = true → ¬ 1 < (A.count (frame (A.pte d v))).toNat →
    A'.role (frame (A.pte d v)) = .free
  pte_mem : ∀ v ∈ vs, flag (A'.pte d v) pteP = false
  pte_ne : ∀ d' v, ¬ (d' = d ∧ v ∈ vs) → A'.pte d' v = A.pte d' v
  tab : A'.tab = A.tab
  count : ∀ f, A.role f ≠ .free → f ≠ oomIndex → A'.count f = A.count f

theorem Space.released (A : Space) (d : Nat) (vs : List Nat) :
    Released A (A.unmapAll d vs) d vs := by
  refine ⟨?_, fun v hv hp hc => A.unmapAll_freed hv hp hc, fun v hv => A.unmapAll_pte_mem hv,
    fun d' v hk => A.unmapAll_pte_ne hk, by rw [Space.unmapAll_tab],
    fun f _ _ => by rw [Space.unmapAll_count]⟩
  intro f
  exact (A.unmapAll_role d vs f).imp_right fun h => ⟨h.1, h.2.1⟩

/-- Taking a frame, or failing to, before pages are cleared. -/
theorem Released.of_congr {C : Space} (h : Released C A' d vs) (hrole : C.role = A.role)
    (hpte : C.pte = A.pte) (htab : C.tab = A.tab)
    (hcount : ∀ f, C.count f = A.count f ∨ C.count f = 1#8)
    (hold : ∀ f, A.role f ≠ .free → f ≠ oomIndex → C.count f = A.count f) : Released A A' d vs := by
  refine ⟨?_, ?_, h.pte_mem, ?_, by rw [h.tab, htab], ?_⟩
  · intro f
    rw [← hrole, ← hpte]
    exact h.stay f
  · intro v hv hp hc
    rw [← hpte] at hp hc ⊢
    refine h.gone v hv hp ?_
    rcases hcount (Xv6.frame (C.pte d v)) with he | he
    · rw [he]
      exact hc
    · rw [he]
      decide
  · intro d' v hk
    rw [h.pte_ne d' v hk, hpte]
  · intro f hf hoom
    rw [h.count f (by rw [hrole]; exact hf) hoom, hold f hf hoom]

theorem Space.released_oom (A : Space) (d : Nat) (vs : List Nat) :
    Released A (A.oom.unmapAll d vs) d vs := by
  refine (A.oom.released d vs).of_congr rfl rfl rfl ?_
    fun f _ hoom => update_of_ne hoom ..
  intro f
  by_cases hf : f = oomIndex
  · right
    rw [hf]
    exact update_self oomIndex (1#8) A.count
  · exact .inl (update_of_ne hf ..)

end

/-- A frame was taken, pages were cleared, and the frame was given back. -/
theorem Space.released_pop (hwf : A.WF) (hf : A.free = f :: fs) :
    Released A (((A.pop f).oom.unmapAll d vs).push f) d vs := by
  have hfree := hwf.role_head hf
  have h := (A.pop f).released_oom d vs
  have hne : ∀ g, g ≠ f → (((A.pop f).oom.unmapAll d vs).push f).role g =
      ((A.pop f).oom.unmapAll d vs).role g := fun g hg => update_of_ne hg ..
  have hself : (((A.pop f).oom.unmapAll d vs).push f).role f = .free := update_self ..
  have hrole : ∀ g, g ≠ f → (A.pop f).role g = A.role g := fun g hg => by simp [Space.pop, hg]
  refine ⟨?_, ?_, ?_, ?_, ?_, ?_⟩
  · intro g
    by_cases hg : g = f
    · subst hg
      exact .inl (by rw [hself, hfree])
    · rw [hne g hg, ← hrole g hg]
      exact h.stay g
  · intro v hv hp hc
    by_cases hg : frame (A.pte d v) = f
    · rw [hg]
      exact hself
    · rw [hne _ hg]
      refine h.gone v hv hp ?_
      rw [show (A.pop f).count (frame ((A.pop f).pte d v)) = A.count (frame (A.pte d v)) from
        update_of_ne hg ..]
      exact hc
  · intro v hv
    rw [Space.push_pte]
    exact h.pte_mem v hv
  · intro d' v hk
    rw [Space.push_pte, h.pte_ne d' v hk, Space.pop_pte]
  · rw [Space.push_tab, h.tab, Space.pop_tab]
  · intro g hg hoom
    have hgf : g ≠ f := by
      rintro rfl
      exact hg hfree
    rw [Space.push_count, h.count g (by rw [hrole g hgf]; exact hg) hoom]
    exact update_of_ne hgf ..

/-- Only data frames are released. -/
theorem Released.role_of_ne_data (h : Released A A' d vs) (hmap : Mapped A) (hwf : A.WF)
    (hd : A.role d = .dir) (hvs : ∀ v ∈ vs, v < userPages) {g : Nat} (hg : A.role g ≠ .data) :
    A'.role g = A.role g := by
  rcases h.stay g with hr | ⟨_, v, hv, hn⟩
  · exact hr
  · obtain ⟨hp, hfr⟩ := names_iff.mp hn
    have hm := hwf.managed g hg
    rcases hmap.user d v hd (hvs v hv) hp with ⟨h0, _⟩ | ⟨_, hr⟩
    · have := hm.pos
      omega
    · rw [hfr] at hr
      exact absurd hr hg

/-! ## `allocuvm` -/

omit [Link] in
theorem mem_pagesBetween {lo hi : Nat} :
    v ∈ pagesBetween lo hi ↔ npages lo ≤ v ∧ v < npages hi := by
  rw [pagesBetween, List.mem_range'_1]
  omega

omit [Link] in
theorem npages_le_userPages {sz : Nat} (h : sz ≤ kernbase) : npages sz ≤ userPages := by
  rw [kernbase_eq] at h
  rw [npages, pgsize_eq, userPages_eq]
  omega

omit [Link] in
/-- A user page gets its frame, writable. -/
theorem perm_wu : Perm (pteW ||| pteU) := by decide

/-- Where the loop over the pages `vs` can end: every page has a frame of zeros, or it ran
out of memory part of the way and the whole range is released. -/
inductive Filling (A : Space) (m : Mem) (d oldsz newsz : Nat) (vs : List Nat) :
    Nat → Space → Mem → Prop where
  | done {A' : Space} {m' : Mem} : Fills d (pteW ||| pteU) A vs A' → KeepData A m m' →
      (∀ v ∈ vs, m'.page (frame (A'.pte d v)) = fill 0#8) → Filling A m d oldsz newsz vs newsz A' m'
  | gaveUp {A' B : Space} {m' : Mem} {us : List Nat} : us <+: vs → us ≠ vs →
      Fills d (pteW ||| pteU) A us B → Released B A' d (pagesBetween oldsz newsz) →
      (∀ g, A.role g = .data → A'.role g = .data → m'.page g = m.page g) →
      Filling A m d oldsz newsz vs 0 A' m'

theorem Filling.cons {m m1 m' : Mem} {A1 : Space} {r : Nat} (hwf : A.WF) (hd : A.role d = .dir)
    (hvs : ∀ u ∈ v :: vs, u < userPages) (hfill : Fill A d v (pteW ||| pteU) f A1)
    (hkeep : KeepData A m m1) (hzero : m1.page f = fill 0#8)
    (h : Filling A1 m1 d oldsz newsz vs r A' m') : Filling A m d oldsz newsz (v :: vs) r A' m' := by
  have hv := hvs v List.mem_cons_self
  have hext := hfill.extends hwf hv perm_wu
  have hdata : ∀ g, A.role g = .data → A1.role g = .data := fun g hg => by
    rw [hext.grow.role g (by rw [hg]; decide), hg]
  cases h with
  | done hrest hkeep' hzero' =>
    refine .done (.cons hfill hrest) (fun g hg => (hkeep' g (hdata g hg)).trans (hkeep g hg)) ?_
    intro u hu
    rcases List.mem_cons.mp hu with rfl | hu
    · have hext' := (hrest.extends (hfill.wf hwf hd (userPages_lt hv)) (hext.role_dir hd)
        (fun w hw => hvs w (List.mem_cons_of_mem u hw)) perm_wu).2
      have hn := names_iff.mp (hfill.names_self hwf perm_wu)
      rw [hext'.present u hn.1, hn.2, hkeep' f hfill.role_self, hzero]
    · exact hzero' u hu
  | gaveUp hpre hne hrest hrel hkeep' =>
    exact .gaveUp (List.cons_prefix_cons.mpr ⟨rfl, hpre⟩) (fun h => hne (List.cons.inj h).2)
      (.cons hfill hrest) hrel
      fun g hg hg' => (hkeep' g (hdata g hg) hg').trans (hkeep g hg)

section

omit [Link]

/-- A page takes a frame at least. -/
theorem Fill.length_le {g : Nat} (h : Fill A d v perm f A') (hf : A.free = g :: fs) :
    A'.free.length ≤ fs.length := by
  cases h with
  | @mk _ A1 hf' hens _ =>
    have hlen := hens.length
    rw [Space.pop_free, hf, List.tail_cons] at hlen
    show A1.free.length ≤ fs.length
    omega

/-- A page takes at most two frames. -/
theorem Fill.length_ge (h : Fill A d v perm f A') : A.free.length ≤ A'.free.length + 2 := by
  cases h with
  | @mk fs A1 hf hens _ =>
    have hfree : ((A1.setPte d v (mkPte (f * pgsize) perm)).give f).free = A1.free := rfl
    have htab := hens.length
    rw [Space.pop_free, hf, List.tail_cons] at htab
    rw [hfree, hf, List.length_cons]
    split at htab
    · omega
    · omega

theorem Fills.length_ge (h : Fills d perm A vs A') :
    A.free.length ≤ A'.free.length + 2 * vs.length := by
  induction h with
  | nil => exact Nat.le_add_right ..
  | cons hfill _ ih =>
    have := hfill.length_ge
    rw [List.length_cons]
    omega

theorem Fills.spent (h : Fills d perm A (pagesBetween oldsz newsz) A') :
    A.free.length ≤ A'.free.length + 2 * (npages newsz - npages oldsz) := by
  have := h.length_ge
  rwa [pagesBetween, List.length_range'] at this

end

theorem Fill.nonZero {us : List Nat} (h : Fill A d v (pteW ||| pteU) f A') (hwf : A.WF)
    (hv : v < userPages) (hn : NonZero A d us) : NonZero A' d us := by
  intro u hu hp
  by_cases huv : u = v
  · subst huv
    rw [(names_iff.mp (h.names_self hwf perm_wu)).2]
    have hm : Managed f := hwf.managed f (by rw [h.fresh hwf]; decide)
    exact hm.pos.ne'
  · have hpte := (h.extends hwf hv perm_wu).pte d u fun hc => huv hc.2
    rw [hpte] at hp ⊢
    exact hn u hu hp

theorem Rep.allocLoop (hlt : oldsz < newsz) (hsz : newsz < kernbase) (vs : List Nat) :
    ∀ {m : Mem} {A : Space}, Rep m A → Sane A x →
      A.role d = .dir → (∀ v ∈ vs, v < userPages) →
      (F (.panic "remap") ∨
        vs.Nodup ∧ ∀ v ∈ vs.take A.free.length, flag (A.pte d v) pteP = false) →
      (F (.panic "kfree") ∨ NonZero A d (pagesBetween oldsz newsz)) →
      wp (Xv6.allocLoop d oldsz newsz vs)
        (fun r m' => ∃ A', Rep m' A' ∧ Sane A' x ∧ Filling A m d oldsz newsz vs r A' m' ∧
          (2 * vs.length ≤ A.free.length → r = newsz)) F m := by
  have hrange : ∀ v ∈ pagesBetween oldsz newsz, v < userPages := by
    intro v hv
    exact lt_of_lt_of_le (mem_pagesBetween.mp hv).2 (npages_le_userPages (le_of_lt hsz))
  induction vs with
  | nil =>
    intro m A h hs hd _ _ _
    rw [Xv6.allocLoop, wp_pure]
    exact ⟨A, h, hs, .done .nil (fun _ _ => rfl) nofun, fun _ => rfl⟩
  | cons v vs ih =>
    intro m A h hs hd hvs hremap hnz
    rw [Xv6.allocLoop, wp_bind]
    refine wp_post (h.kalloc _) ?_
    rintro r m1 ⟨A1, h1, halloc, hpage⟩
    cases halloc with
    | none hf =>
      have hs1 := hs.oom h.wf
      rw [wp_bind]
      refine wp_post (h1.deallocuvm hd (le_of_lt hsz) hlt (hs1.mapped.clean hd hrange) hnz) ?_
      rintro _ m2 ⟨_, h2, hnz', hkeep⟩
      rw [wp_pure]
      refine ⟨_, h2, (hs1.unmapAll h1.wf hd hrange hnz').2.2,
        .gaveUp List.nil_prefix nofun .nil (A.released_oom d _) fun g _ hg => ?_, fun hlen => ?_⟩
      · rw [hkeep g hg, hpage]
      · rw [hf, List.length_cons, List.length_nil] at hlen
        omega
    | @some f fs hf =>
      have hrole : (A.pop f).role f = .held := update_self ..
      have hne : ∀ g, A.role g = .data → g ≠ f := by
        rintro g hg rfl
        rw [h.wf.role_head hf] at hg
        cases hg
      have h2 := h1.setPage (f := f) (fill 0#8) (by rw [hrole]; rfl)
      have hkeep2 : KeepData A m (m1.setPage f (fill 0#8)) := fun g hg => by
        rw [m1.setPage_ne _ (hne g hg), hpage]
      have hv := hvs v List.mem_cons_self
      have hmap := Rep.fillPage (v := v) (pteW ||| pteU) h.wf hf h2 hd (userPages_lt hv)
        (hremap.imp_right fun hr => hr.2 v (by rw [hf]; exact List.mem_cons_self))
      rw [wp_bind, wp_memset, wp_bind]
      refine wp_post hmap ?_
      rintro ok m3 ⟨hkeep3, hok⟩
      have hdata : ∀ g, A.role g = .data → (A.pop f).role g = .data := fun g hg =>
        (update_of_ne (hne g hg) ..).trans hg
      have hkeep : KeepData A m m3 := fun g hg => by
        rw [hkeep3 g (.inl (hdata g hg)), hkeep2 g hg]
      rw [wp_ite]
      cases ok with
      | true =>
        obtain ⟨A3, h3, hfill⟩ := hok
        have hext := hfill.extends h.wf hv perm_wu
        have hremap3 : F (.panic "remap") ∨
            vs.Nodup ∧ ∀ u ∈ vs.take A3.free.length, flag (A3.pte d u) pteP = false := by
          refine hremap.imp_right fun hr => ⟨(List.nodup_cons.mp hr.1).2, fun u hu => ?_⟩
          have huv : u ≠ v := by
            rintro rfl
            exact (List.nodup_cons.mp hr.1).1 (List.mem_of_mem_take hu)
          rw [hext.pte d u fun hc => huv hc.2]
          refine hr.2 u ?_
          rw [hf, List.length_cons, List.take_succ_cons]
          exact List.mem_cons_of_mem v (List.take_subset_take_left _ (hfill.length_le hf) hu)
        rw [if_pos rfl]
        refine wp_post (ih h3 (hfill.sane h.wf hd hv perm_wu hs) (hext.role_dir hd)
          (fun u hu => hvs u (List.mem_cons_of_mem v hu)) hremap3
          (hnz.imp_right fun hn => hfill.nonZero h.wf hv hn)) ?_
        rintro r m4 ⟨A4, h4, hs4, hrest, henough⟩
        refine ⟨A4, h4, hs4, .cons h.wf hd hvs hfill hkeep ?_ hrest, fun hlen => henough ?_⟩
        · rw [hkeep3 f (.inr hrole), Mem.setPage_self]
        · have := hfill.length_ge
          rw [List.length_cons] at hlen
          omega
      | false =>
        obtain ⟨h3, _, hfs⟩ := hok
        have hwf1 := h.wf.pop hf
        have hs3 := (hs.pop h.wf hf).oom hwf1
        have hd3 : (A.pop f).oom.role d = .dir := pop_dir h.wf hf hd
        rw [if_neg (by decide), wp_bind]
        refine wp_post (h3.deallocuvm hd3 (le_of_lt hsz) hlt (hs3.mapped.clean hd3 hrange)
          hnz) ?_
        rintro _ m4 ⟨_, h4, hnz', hkeep4⟩
        have hheld : ((A.pop f).oom.unmapAll d (pagesBetween oldsz newsz)).role f = .held := by
          rw [((A.pop f).oom.released d _).role_of_ne_data hs3.mapped h3.wf hd3 hrange]
          · exact hrole
          · rw [Space.oom_role, hrole]
            decide
        have hm : Managed f := h.wf.free_managed (by rw [hf]; exact List.mem_cons_self)
        have hs4 := (hs3.unmapAll h3.wf hd3 hrange hnz').2.2
        rw [wp_bind, wp_kfree hm, h4.count, h4.wf.count_one f (by rw [hheld]; rfl), if_neg (by decide),
          wp_pure]
        refine ⟨_, h4.push hm (.inl hheld), hs4.push h4.wf hm (.inl hheld)
          fun d' u hd' hu => hs4.mapped.names_held h4.wf hheld hd' hu,
          .gaveUp List.nil_prefix nofun .nil (Space.released_pop h.wf hf) fun g hg hg' => ?_,
          fun hlen => ?_⟩
        · have hgf := hne g hg
          rw [show (m4.push f).page g = m4.page g from update_of_ne hgf .., hkeep4 g, hkeep g hg]
          exact (update_of_ne hgf ..).symm.trans hg'
        · rw [hf, hfs, List.length_cons, List.length_singleton] at hlen
          omega

/-- `allocuvm` with the contents of the pages: it returns at once, or fills the range. -/
inductive Grows (A : Space) (m : Mem) (d oldsz newsz : Nat) : Nat → Space → Mem → Prop where
  | refused : kernbase ≤ newsz → Grows A m d oldsz newsz 0 A m
  | smaller : newsz < kernbase → newsz < oldsz → Grows A m d oldsz newsz oldsz A m
  | filling {r : Nat} {A' : Space} {m' : Mem} : newsz < kernbase → oldsz ≤ newsz →
      Filling A m d oldsz newsz (pagesBetween oldsz newsz) r A' m' →
      Grows A m d oldsz newsz r A' m'

theorem Rep.grows (h : Rep m A) (hs : Sane A x) (hd : A.role d = .dir) (oldsz newsz : Nat)
    (hF : F (.panic "remap") ∧ F (.panic "kfree") ∨
      (newsz < kernbase → NonZero A d (pagesBetween oldsz newsz) ∧
        ∀ v ∈ (pagesBetween oldsz newsz).take A.free.length, flag (A.pte d v) pteP = false)) :
    wp (Xv6.allocuvm d oldsz newsz)
      (fun r m' => ∃ A', Rep m' A' ∧ Sane A' x ∧ Grows A m d oldsz newsz r A' m' ∧
        (newsz < kernbase → 2 * (npages newsz - npages oldsz) ≤ A.free.length →
          r = max oldsz newsz)) F m := by
  unfold Xv6.allocuvm
  rw [wp_ite]
  split
  · rename_i hsz
    rw [wp_pure]
    exact ⟨A, h, hs, .refused hsz, fun hlt => absurd hsz (Nat.not_le.mpr hlt)⟩
  rename_i hsz
  rw [wp_ite]
  split
  · rename_i hlt
    rw [wp_pure]
    exact ⟨A, h, hs, .smaller (by omega) hlt, fun _ _ => (max_eq_left (le_of_lt hlt)).symm⟩
  rename_i hle
  rcases Nat.eq_or_lt_of_le (Nat.le_of_not_lt hle) with rfl | hlt
  · rw [Nat.sub_self, List.range'_zero, Xv6.allocLoop, wp_pure]
    refine ⟨A, h, hs, .filling (by omega) (le_refl _) ?_, fun _ _ => (max_self _).symm⟩
    rw [pagesBetween, Nat.sub_self]
    exact .done .nil (fun _ _ => rfl) (List.forall_mem_nil _)
  · refine wp_post (Rep.allocLoop hlt (by omega) (pagesBetween oldsz newsz) h hs hd ?_ ?_ ?_) ?_
    · intro v hv
      exact lt_of_lt_of_le (mem_pagesBetween.mp hv).2 (npages_le_userPages (by omega))
    · exact hF.imp (·.1) fun hp => ⟨List.nodup_range', (hp (by omega)).2⟩
    · exact hF.imp (·.2) fun hp => (hp (by omega)).1
    · rintro r m' ⟨A', h', hs', hfill, henough⟩
      refine ⟨A', h', hs', .filling (by omega) (by omega) hfill, fun _ hlen => ?_⟩
      rw [max_eq_right (le_of_lt hlt)]
      exact henough (by rw [pagesBetween, List.length_range']; exact hlen)

end Xv6
