import Xv6.Machine.Release

/-!
# New directories

`setupkvm` takes a frame for the directory and maps the kernel half, taking frames
for page tables on the way.  Nothing that was in use before changes (`Frame`).  With
65 free frames it succeeds: one for the directory, 56 for the tables of the memory
and 8 for those of the devices.

`Extends` is what mapping in one directory can do, and is composed along the loops.
-/

namespace Xv6

open Prog Function

variable {d v n q i : Nat} {ok : Bool} {perm : Word} {ks : List Kmap} {B : Space}

/-! ## What stays -/

/-- The directories and held frames outside `X` are the same, and so are the entries
of those directories outside `T`.  They lose no page table. -/
structure Frame (A A' : Space) (X : Nat → Prop) (T : Nat → Nat → Prop) : Prop where
  dir : ∀ d, ¬ X d → (A'.role d = .dir ↔ A.role d = .dir)
  held : ∀ f, ¬ X f → (A'.role f = .held ↔ A.role f = .held)
  pte : ∀ d v, A.role d = .dir → ¬ X d → ¬ T d v → A'.pte d v = A.pte d v
  tab : ∀ d i t, A.role d = .dir → ¬ X d → A.tab d i = some t → A'.tab d i = some t

theorem Frame.refl (A : Space) (X : Nat → Prop) (T : Nat → Nat → Prop) : Frame A A X T :=
  ⟨fun _ _ => Iff.rfl, fun _ _ => Iff.rfl, fun _ _ _ _ _ => rfl, fun _ _ _ _ _ h => h⟩

theorem Frame.trans {A C : Space} {X : Nat → Prop} {T : Nat → Nat → Prop} (h : Frame A B X T)
    (h' : Frame B C X T) : Frame A C X T := by
  refine ⟨fun d hx => (h'.dir d hx).trans (h.dir d hx),
    fun f hx => (h'.held f hx).trans (h.held f hx), ?_, ?_⟩
  · intro d v hd hx ht
    rw [h'.pte d v ((h.dir d hx).mpr hd) hx ht, h.pte d v hd hx ht]
  · intro d i t hd hx ht
    exact h'.tab d i t ((h.dir d hx).mpr hd) hx (h.tab d i t hd hx ht)

theorem Frame.mono {A : Space} {X X' : Nat → Prop} {T T' : Nat → Nat → Prop} (h : Frame A B X T)
    (hX : ∀ f, X f → X' f) (hT : ∀ d v, T d v → T' d v) : Frame A B X' T' :=
  ⟨fun d hx => h.dir d fun h => hx (hX d h), fun f hx => h.held f fun h => hx (hX f h),
    fun d v hd hx ht => h.pte d v hd (fun h => hx (hX d h)) fun h => ht (hT d v h),
    fun d i t hd hx => h.tab d i t hd fun h => hx (hX d h)⟩

/-- No frame is exempt. -/
def noFrame : Nat → Prop := fun _ => False

/-- No entry is exempt. -/
def noEntry : Nat → Nat → Prop := fun _ _ => False

/-- The directory `d` got page tables and entries: entries in `R` that were absent,
with frames that were free. -/
structure Extends (A A' : Space) (d : Nat) (R : Nat → Prop) : Prop where
  grow : Grow A A'
  dir : ∀ d', A'.role d' = .dir → A.role d' = .dir
  held : ∀ f, A'.role f = .held → A.role f = .held
  data : ∀ f, A'.role f = .data →
    A.role f = .data ∨ ∃ v < userPages, names (A'.pte d v) f = true
  pte : ∀ d' v, ¬ (d' = d ∧ R v) → A'.pte d' v = A.pte d' v
  present : ∀ v, flag (A.pte d v) pteP = true → A'.pte d v = A.pte d v
  tab : ∀ d' i, d' ≠ d → A'.tab d' i = A.tab d' i
  tab_some : ∀ i t, A.tab d i = some t → A'.tab d i = some t

namespace Extends

variable {A C : Space} {R R' : Nat → Prop}

theorem refl (A : Space) (d : Nat) (R : Nat → Prop) : Extends A A d R :=
  ⟨Grow.refl A, fun _ h => h, fun _ h => h, fun _ h => .inl h, fun _ _ _ => rfl, fun _ _ => rfl,
    fun _ _ _ => rfl, fun _ _ h => h⟩

section

variable (h : Extends A B d R)
include h

theorem trans (h' : Extends B C d R) : Extends A C d R := by
  have hkeep : ∀ v, flag (B.pte d v) pteP = true → C.pte d v = B.pte d v := h'.present
  refine ⟨h.grow.trans h'.grow, fun d' hd => h.dir d' (h'.dir d' hd),
    fun f hf => h.held f (h'.held f hf), ?_, ?_, ?_, ?_, ?_⟩
  · intro f hf
    rcases h'.data f hf with hf | hn
    · rcases h.data f hf with hf | ⟨v, hv, hn⟩
      · exact .inl hf
      · refine .inr ⟨v, hv, ?_⟩
        rw [hkeep v (names_iff.mp hn).1]
        exact hn
    · exact .inr hn
  · intro d' v hk
    rw [h'.pte d' v hk, h.pte d' v hk]
  · intro v hp
    rw [hkeep v (by rw [h.present v hp]; exact hp), h.present v hp]
  · intro d' i hne
    rw [h'.tab d' i hne, h.tab d' i hne]
  · intro i t ht
    exact h'.tab_some i t (h.tab_some i t ht)

theorem mono (hR : ∀ v, R v → R' v) : Extends A B d R' :=
  { h with pte := fun d' v hk => h.pte d' v fun hx => hk ⟨hx.1, hR v hx.2⟩ }

theorem role_dir {d' : Nat} (hd : A.role d' = .dir) : B.role d' = .dir := by
  rw [h.grow.role d' (by rw [hd]; decide), hd]

theorem frame : Frame A B noFrame fun d' v => d' = d ∧ R v := by
  refine ⟨fun d' _ => ⟨h.dir d', h.role_dir⟩, fun f _ => ⟨h.held f, ?_⟩,
    fun d' v _ _ hk => h.pte d' v hk, ?_⟩
  · intro hf
    rw [h.grow.role f (by rw [hf]; decide), hf]
  · intro d' i t _ _ ht
    by_cases hd : d' = d
    · subst hd
      exact h.tab_some i t ht
    · rw [h.tab d' i hd]
      exact ht

end

theorem oom (A : Space) (d : Nat) (R : Nat → Prop) : Extends A A.oom d R :=
  { refl A d R with grow := Grow.oom A }

theorem setPte (w : Word) (hp : flag (A.pte d v) pteP = false) (hR : R v) :
    Extends A (A.setPte d v w) d R := by
  refine { refl A d R with
    grow := Grow.setPte A d v w, data := fun _ h => .inl h, pte := ?_, present := ?_ }
  · intro d' u hk
    exact Space.setPte_ne _ _ fun hx => hk ⟨hx.1, hx.2 ▸ hR⟩
  · intro u hu
    refine Space.setPte_ne _ _ fun hx => ?_
    rw [hx.2, hp] at hu
    cases hu

end Extends

variable [Link] {A A' : Space} {x : Bool} {m : Mem}

theorem Ensure.extends (h : Ensure A d i A') (hwf : A.WF) (R : Nat → Prop) : Extends A A' d R := by
  have hback : ∀ r, r ≠ .table d i → ∀ f, A'.role f = r → A.role f = r := by
    intro r hr f hf
    cases h with
    | there _ => exact hf
    | @new g gs _ _ =>
      by_cases hg : f = g
      · subst hg
        exact absurd (by simpa [Space.addTable] using hf.symm) hr
      · simpa [Space.addTable, Space.pop, hg] using hf
  refine ⟨h.grow hwf, hback _ Role.noConfusion, hback _ Role.noConfusion,
    fun f hf => .inl (hback _ Role.noConfusion f hf), fun _ _ _ => by rw [h.pte_eq],
    fun _ _ => by rw [h.pte_eq], ?_, ?_⟩
  · intro d' i' hne
    exact h.tab_ne fun hk => hne hk.1
  · intro i' t ht
    cases h with
    | there _ => exact ht
    | new hnone _ =>
      by_cases hi : i' = i
      · subst hi
        rw [hnone] at ht
        cases ht
      · exact (if_neg fun hk => hi hk.2).trans ht

/-! ## Mapping a range -/

section

variable (h : Maps d perm A n v q ok A') (hwf : A.WF) (hd : A.role d = .dir)
  (hv : v + n < npdentries * npdentries)
include h hwf hd hv

theorem Maps.extends : A'.WF ∧ Extends A A' d fun u => v ≤ u ∧ u ≤ v + n := by
  induction h with
  | @full A n v q _ _ => exact ⟨hwf.oom, Extends.oom A d _⟩
  | @last A A1 v q hens hp =>
    obtain ⟨t, ht⟩ := hens.tab_some
    refine ⟨(hens.wf hwf hd (div_lt_npdentries (by omega))).setPte _ ht, ?_⟩
    exact (hens.extends hwf _).trans
      (Extends.setPte _ (by rw [hens.pte_eq]; exact hp) ⟨le_refl v, by omega⟩)
  | @step A A1 A' n v q ok hens hp _ ih =>
    obtain ⟨t, ht⟩ := hens.tab_some
    have hwf1 := hens.wf hwf hd (div_lt_npdentries (by omega))
    have h1 : Extends A (A1.setPte d v (mkPte (q * pgsize) perm)) d
        fun u => v ≤ u ∧ u ≤ v + (n + 1) :=
      (hens.extends hwf _).trans
        (Extends.setPte _ (by rw [hens.pte_eq]; exact hp) ⟨le_refl v, by omega⟩)
    have hd1 : (A1.setPte d v (mkPte (q * pgsize) perm)).role d = .dir := by
      rw [h1.grow.role d (by rw [hd]; decide), hd]
    obtain ⟨hwf', h2⟩ := ih (hwf1.setPte _ ht) hd1 (by omega)
    exact ⟨hwf', h1.trans (h2.mono fun u hu => by omega)⟩

/-- A range of the kernel half. -/
theorem Maps.kernel (hk : userPages ≤ v)
    (hperm : flag perm pteU = false ∧ flag perm pteCow = false) (hs : Sane A x) : Sane A' x := by
  have hw : ∀ q, flag (mkPte (q * pgsize) perm) pteU = false ∧
      flag (mkPte (q * pgsize) perm) pteCow = false := by
    intro q
    rw [flag_mkPte (by decide) (by decide), flag_mkPte (by decide) (by decide)]
    exact hperm
  induction h with
  | @full A n v q _ _ => exact hs.grow hwf hwf.oom (Grow.oom A) (fun _ h => h) rfl
  | @last A A1 v q hens _ =>
    obtain ⟨t, ht⟩ := hens.tab_some
    have hi := div_lt_npdentries (show v < npdentries * npdentries by omega)
    exact (hs.ensure hwf hd hi hens).kernelPte (hens.wf hwf hd hi) hk ht (hw q)
  | @step A A1 A' n v q ok hens _ _ ih =>
    obtain ⟨t, ht⟩ := hens.tab_some
    have hi := div_lt_npdentries (show v < npdentries * npdentries by omega)
    have hwf1 := hens.wf hwf hd hi
    have hd1 : A1.role d = .dir := by rw [(hens.grow hwf).role d (by rw [hd]; decide), hd]
    exact ih (hwf1.setPte _ ht) hd1 (by omega) (by omega)
      ((hs.ensure hwf hd hi hens).kernelPte hwf1 hk ht (hw q))

end

/-! ## Enough frames -/

/-- The page tables a range may still need. -/
def Space.need (A : Space) (d v n : Nat) : Nat :=
  (if A.tab d (v / npdentries) = none then 1 else 0) + ((v + n) / npdentries - v / npdentries)

omit [Link] in
theorem Ensure.length (h : Ensure A d i A') :
    A.free.length = A'.free.length + if A.tab d i = none then 1 else 0 := by
  cases h with
  | there ht => simp [ht]
  | new hnone hf => simp [hnone, hf]

omit [Link] in
/-- With enough free frames the range is mapped, and no more are taken. -/
theorem Maps.enough (h : Maps d perm A n v q ok A') (hfree : A.need d v n ≤ A.free.length) :
    ok = true ∧ A.free.length ≤ A'.free.length + A.need d v n := by
  induction h with
  | @full A n v q hnone hf =>
    rw [Space.need, if_pos hnone, hf] at hfree
    simp at hfree
  | @last A A1 v q hens _ =>
    have := hens.length
    rw [Space.need]
    exact ⟨rfl, by rw [Space.setPte_free]; omega⟩
  | @step A A1 A' n v q ok hens _ _ ih =>
    have hlen := hens.length
    obtain ⟨t, ht⟩ := hens.tab_some
    have hneed : (A1.setPte d v (mkPte (q * pgsize) perm)).need d (v + 1) n +
        (if A.tab d (v / npdentries) = none then 1 else 0) ≤ A.need d v (n + 1) := by
      unfold Space.need
      rw [Space.setPte_tab, show v + 1 + n = v + (n + 1) by omega]
      have hle : (v + 1) / npdentries ≤ (v + (n + 1)) / npdentries :=
        Nat.div_le_div_right (by omega)
      have hle' : v / npdentries ≤ (v + 1) / npdentries := Nat.div_le_div_right (by omega)
      by_cases he : (v + 1) / npdentries = v / npdentries
      · rw [he, ht, if_neg (by simp)]
        omega
      · generalize (v + 1) / npdentries = i at *
        generalize v / npdentries = j at *
        generalize (v + (n + 1)) / npdentries = k at *
        split <;> split <;> omega
    have hih := ih (by rw [Space.setPte_free]; omega)
    rw [Space.setPte_free] at hih
    exact ⟨hih.1, by omega⟩

/-- The slots of a mapped range have page tables. -/
theorem Maps.tables (h : Maps d perm A n v q true A') (hwf : A.WF) (hd : A.role d = .dir)
    (hv : v + n < npdentries * npdentries) {u : Nat} (hu : v ≤ u) (hu' : u ≤ v + n) :
    ∃ t, A'.tab d (u / npdentries) = some t := by
  generalize hok : true = ok at h
  induction h with
  | full _ _ => cases hok
  | @last A A1 v q hens _ =>
    rw [show u = v by omega]
    exact hens.tab_some
  | @step A A1 A' n v q ok hens _ hrest ih =>
    obtain ⟨t, ht⟩ := hens.tab_some
    have hi := div_lt_npdentries (show v < npdentries * npdentries by omega)
    have hwf1 := (hens.wf hwf hd hi).setPte (mkPte (q * pgsize) perm) ht
    have hd1 : (A1.setPte d v (mkPte (q * pgsize) perm)).role d = .dir := by
      rw [Space.setPte_role, (hens.grow hwf).role d (by rw [hd]; decide), hd]
    by_cases huv : u = v
    · subst huv
      exact ⟨t, (hrest.extends hwf1 hd1 (by omega)).2.tab_some _ t ht⟩
    · exact ih hwf1 hd1 (by omega) (by omega) (by omega) hok

/-! ## The rows of the kernel table -/

/-- A row maps `n + 1` pages of the kernel half, from `v` on to the frames from `q`
on. -/
structure Kmap.Spans (k : Kmap) (v n q : Nat) : Prop where
  virt : k.virt = v * pgsize
  phys : k.physStart = q * pgsize
  size : (k.physEnd + uintSize - k.physStart) % uintSize = (n + 1) * pgsize
  kernel : userPages ≤ v
  lt : v + n < npdentries * npdentries
  frames : q + n < 2 ^ 20
  perm : flag k.perm pteU = false ∧ flag k.perm pteCow = false

/-- The rows follow each other, from page `b` on. -/
inductive Rows : Nat → List Kmap → Prop where
  | nil {b : Nat} : Rows b []
  | cons {b v n q : Nat} {k : Kmap} {ks : List Kmap} : b ≤ v → k.Spans v n q →
      Rows (v + n + 1) ks → Rows b (k :: ks)

/-- The page number of the kernel's data. -/
def dataPage : Nat := Link.data / pgsize

theorem data_eq : Link.data = dataPage * pgsize := by
  have := Link.data_aligned
  rw [dataPage, pgsize_eq] at *
  omega

theorem dataPage_bounds : 0x80100 < dataPage ∧ dataPage < 0x80400 := by
  have h1 := Link.kernlink_lt_data
  have h2 := Link.data_lt_kend
  have h3 := Link.kend_le
  rw [data_eq, pgsize_eq] at h1 h2
  rw [show kernlink = 0x80100000 from rfl] at h1
  rw [kernbase_eq] at h3
  omega

omit [Link] in
theorem kmap_io : (⟨kernbase, 0, extmem, pteW⟩ : Kmap).Spans 0x80000 255 0 := by
  constructor <;> decide

theorem kmap_text : (⟨kernlink, v2p kernlink, v2p Link.data, 0#32⟩ : Kmap).Spans 0x80100
    (dataPage - 0x80101) 0x100 := by
  have hb := dataPage_bounds
  have h2 : v2p Link.data = (dataPage - 0x80000) * pgsize := by
    rw [v2p, data_eq, pgsize_eq, kernbase_eq, uintSize_eq]
    omega
  refine ⟨show kernlink = _ by decide, show v2p kernlink = _ by decide, ?_, by decide, ?_,
    by omega, show flag 0#32 _ = _ by decide, show flag 0#32 _ = _ by decide⟩
  · rw [h2, show v2p kernlink = 0x100000 from by decide, pgsize_eq, uintSize_eq]
    dsimp only
    omega
  · rw [npdentries_eq]
    omega

theorem kmap_data : (⟨Link.data, v2p Link.data, phystop, pteW⟩ : Kmap).Spans dataPage
    (0x8DFFF - dataPage) (dataPage - 0x80000) := by
  have hb := dataPage_bounds
  have h2 : v2p Link.data = (dataPage - 0x80000) * pgsize := by
    rw [v2p, data_eq, pgsize_eq, kernbase_eq, uintSize_eq]
    omega
  refine ⟨data_eq, h2, ?_, ?_, ?_, by omega, show flag pteW _ = _ by decide,
    show flag pteW _ = _ by decide⟩
  · rw [h2, phystop_eq, pgsize_eq, uintSize_eq]
    dsimp only
    omega
  · rw [userPages_eq]
    omega
  · rw [npdentries_eq]
    omega

omit [Link] in
theorem kmap_dev : (⟨devspace, devspace, 0, pteW⟩ : Kmap).Spans 0xFE000 8191 0xFE000 := by
  constructor <;> decide

theorem kmap_rows : Rows userPages kmap := by
  have hb := dataPage_bounds
  refine .cons (by decide) kmap_io (.cons (by decide) kmap_text ?_)
  exact .cons (by omega) kmap_data (.cons (by omega) kmap_dev .nil)

/-- What mapping the rows of a table does. -/
inductive MapsRows (d : Nat) : Space → List Kmap → Bool → Space → Prop where
  | nil {A : Space} : MapsRows d A [] true A
  | stop {A A' : Space} {k : Kmap} {ks : List Kmap} {v n q : Nat} : k.Spans v n q →
      Maps d k.perm A n v q false A' → MapsRows d A (k :: ks) false A'
  | cons {A A1 A' : Space} {k : Kmap} {ks : List Kmap} {v n q : Nat} {ok : Bool} :
      k.Spans v n q → Maps d k.perm A n v q true A1 → MapsRows d A1 ks ok A' →
      MapsRows d A (k :: ks) ok A'

theorem Rep.mapKmap {b : Nat} {F : Fault → Prop} (hrows : Rows b ks) :
    ∀ {m : Mem} {A : Space}, Rep m A → A.role d = .dir →
      (∀ v, b ≤ v → flag (A.pte d v) pteP = false) →
      wp (Xv6.mapKmap d ks)
        (fun ok m' => ∃ A', Rep m' A' ∧ Keep A m m' ∧ MapsRows d A ks ok A') F m := by
  induction hrows with
  | nil =>
    intro m A h hd _
    rw [Xv6.mapKmap, wp_pure]
    exact ⟨A, h, Keep.refl A m, .nil⟩
  | @cons b v n q k ks hb hk _ ih =>
    intro m A h hd habs
    rw [Xv6.mapKmap, wp_bind, hk.virt, hk.size, hk.phys]
    refine wp_post (h.mapRange hd hk.lt hk.frames (.inr fun j _ => habs _ (by omega))) ?_
    rintro ok m1 ⟨A1, h1, hkeep, hmaps⟩
    rw [wp_ite]
    obtain ⟨_, hext⟩ := hmaps.extends h.wf hd hk.lt
    cases ok with
    | false =>
      rw [if_neg (by decide), wp_pure]
      exact ⟨A1, h1, hkeep, .stop hk hmaps⟩
    | true =>
      rw [if_pos rfl]
      refine wp_post (ih h1 (hext.role_dir hd) ?_) ?_
      · intro u hu
        rw [hext.pte d u (by omega)]
        exact habs u (by omega)
      · rintro ok m2 ⟨A2, h2, hkeep2, hrest⟩
        exact ⟨A2, h2, hkeep.trans hext.grow hkeep2, .cons hk hmaps hrest⟩

section

variable (h : MapsRows d A ks ok A') (hwf : A.WF) (hd : A.role d = .dir)
include h hwf hd

theorem MapsRows.extends :
    A'.WF ∧ Extends A A' d fun v => userPages ≤ v := by
  induction h with
  | nil => exact ⟨hwf, Extends.refl _ d _⟩
  | stop hk hmaps =>
    obtain ⟨hwf', hext⟩ := hmaps.extends hwf hd hk.lt
    exact ⟨hwf', hext.mono fun v hv => le_trans hk.kernel hv.1⟩
  | cons hk hmaps _ ih =>
    obtain ⟨hwf1, hext⟩ := hmaps.extends hwf hd hk.lt
    obtain ⟨hwf', hext'⟩ := ih hwf1 (hext.role_dir hd)
    exact ⟨hwf', (hext.mono fun v hv => le_trans hk.kernel hv.1).trans hext'⟩

theorem MapsRows.sane
    (hs : Sane A x) : Sane A' x := by
  induction h with
  | nil => exact hs
  | stop hk hmaps => exact hmaps.kernel hwf hd hk.lt hk.kernel hk.perm hs
  | cons hk hmaps _ ih =>
    obtain ⟨hwf1, hext⟩ := hmaps.extends hwf hd hk.lt
    exact ih hwf1 (hext.role_dir hd) (hmaps.kernel hwf hd hk.lt hk.kernel hk.perm hs)

end

/-- The page tables of the kernel half. -/
def kernelTables : Nat := 64

omit [Link] in
theorem Kmap.Spans.unique {k : Kmap} {v' n' q' : Nat} (h : k.Spans v n q) (h' : k.Spans v' n' q') :
    v' = v ∧ n' = n ∧ q' = q := by
  have h1 := h.virt.symm.trans h'.virt
  have h2 := h.phys.symm.trans h'.phys
  have h3 := h.size.symm.trans h'.size
  rw [pgsize_eq] at h1 h2 h3
  omega

/-- Sixty-four frames are enough for the kernel half of a directory. -/
theorem MapsRows.enough (h : MapsRows d A kmap ok A') (hwf : A.WF) (hd : A.role d = .dir)
    (hfree : kernelTables ≤ A.free.length) :
    ok = true ∧ A.free.length ≤ A'.free.length + kernelTables := by
  have hb := dataPage_bounds
  rw [kernelTables] at *
  have hone : ∀ (B : Space) (v n : Nat), B.need d v n ≤ 1 + ((v + n) / 1024 - v / 1024) := by
    intro B v n
    rw [Space.need, npdentries_eq]
    split <;> omega
  have hzero : ∀ (B : Space) (v n : Nat), (∃ t, B.tab d (v / npdentries) = some t) →
      B.need d v n ≤ (v + n) / 1024 - v / 1024 := by
    rintro B v n ⟨t, ht⟩
    rw [Space.need, if_neg (by rw [ht]; simp), npdentries_eq]
    omega
  -- each row either stops, which the frames exclude, or leaves enough for the next
  have hrow : ∀ {B B' : Space} {k : Kmap} {ks : List Kmap} {v n q c : Nat} {ok : Bool},
      k.Spans v n q → MapsRows d B (k :: ks) ok B' → B.need d v n ≤ c → c ≤ B.free.length →
      ∃ B1, Maps d k.perm B n v q true B1 ∧ B.free.length ≤ B1.free.length + c ∧
        MapsRows d B1 ks ok B' := by
    intro B B' k ks v n q c ok hk h hc hle
    cases h with
    | stop hk' hmaps =>
      obtain ⟨rfl, rfl, rfl⟩ := hk.unique hk'
      cases (hmaps.enough (le_trans hc hle)).1
    | cons hk' hmaps hrest =>
      obtain ⟨rfl, rfl, rfl⟩ := hk.unique hk'
      have := (hmaps.enough (le_trans hc hle)).2
      exact ⟨_, hmaps, by omega, hrest⟩
  obtain ⟨B1, h1, hl1, hr1⟩ := hrow kmap_io h (c := 1) (by have := hone A 0x80000 255; omega) (by omega)
  obtain ⟨hwf1, hext1⟩ := h1.extends hwf hd (by decide)
  have hd1 := hext1.role_dir hd
  obtain ⟨t, ht⟩ : ∃ t, B1.tab d (0x80000 / npdentries) = some t :=
    h1.tables hwf hd (by decide) (le_refl _) (by omega)
  have hs2 : B1.need d 0x80100 (dataPage - 0x80101) ≤ 0 := by
    refine le_trans (hzero B1 _ _ ⟨t, ht⟩) ?_
    omega
  obtain ⟨B2, h2, hl2, hr2⟩ := hrow kmap_text hr1 (c := 0) hs2 (by omega)
  obtain ⟨hwf2, hext2⟩ := h2.extends hwf1 hd1 kmap_text.lt
  have ht2 := hext2.tab_some _ _ ht
  have hs3 : B2.need d dataPage (0x8DFFF - dataPage) ≤ 55 := by
    refine le_trans (hzero B2 _ _ ⟨t, ?_⟩) (by omega)
    rw [show dataPage / npdentries = 0x80000 / npdentries by rw [npdentries_eq]; omega]
    exact ht2
  obtain ⟨B3, h3, hl3, hr3⟩ := hrow kmap_data hr2 (c := 55) hs3 (by omega)
  have hs4 : B3.need d 0xFE000 8191 ≤ 8 := by
    have := hone B3 0xFE000 8191
    omega
  obtain ⟨B4, h4, hl4, hr4⟩ := hrow kmap_dev hr3 (c := 8) hs4 (by omega)
  cases hr4
  exact ⟨rfl, by omega⟩

/-! ## `setupkvm` -/

/-- A new directory with an empty user half. -/
structure NewDir (A A' : Space) (d : Nat) : Prop where
  free : A.role d = .free
  dir : A'.role d = .dir
  empty : ∀ v < userPages, A'.pte d v = 0#32
  grow : Grow A A'
  frame : Frame A A' (fun f => f = d) noEntry
  tab : ∀ d' i, d' ≠ d → A'.tab d' i = A.tab d' i
  data : ∀ f, A'.role f = .data → A.role f = .data
  sane : ∀ x, Sane A x → Sane A' x
  length : A.free.length ≤ A'.free.length + (kernelTables + 1)

/-- What was taken off the free list is back on it. -/
structure Restored (A A' : Space) : Prop where
  role : A'.role = A.role
  pte : ∀ d v, A.role d = .dir → A'.pte d v = A.pte d v
  count : ∀ f, A.role f ≠ .free → f ≠ oomIndex → A'.count f = A.count f

omit [Link] in
theorem Restored.refl (A : Space) : Restored A A :=
  ⟨rfl, fun _ _ _ => rfl, fun _ _ _ => rfl⟩

omit [Link] in
theorem Restored.oom (A : Space) : Restored A A.oom :=
  ⟨rfl, fun _ _ _ => rfl, fun _ _ hne => update_of_ne hne ..⟩

theorem Restored.sane (h : Restored A A') (hwf : A.WF) (hwf' : A'.WF) (hs : Sane A x) :
    Sane A' x := by
  have hdir : ∀ d, A'.role d = .dir → A.role d = .dir := by
    intro d hd
    rwa [h.role] at hd
  refine ⟨hs.mapped.congr hdir (fun d v hd => h.pte d v (hdir d hd)) ?_,
    hs.counted.congr hs.mapped hwf hwf' hdir (fun d v hd _ => h.pte d v (hdir d hd)) ?_⟩
  · intro d v _ _ _ hf
    rw [h.role]
    exact hf
  · intro f hm hf
    exact h.count f (by rw [hf]; decide) hm.ne_oom

/-- The outcomes of `setupkvm`. -/
inductive Setup (A : Space) (m m' : Mem) : Option Nat → Space → Prop where
  | some {A' : Space} {d : Nat} : NewDir A A' d → Keep A m m' → Setup A m m' (some d) A'
  | none {A' : Space} : Restored A A' → A.free.length ≤ kernelTables → KeepData A m m' →
      Setup A m m' none A'

/-- A frame that was free before a directory was extended is a table of the
directory, or named by it, or still free. -/
theorem Extends.of_free {f : Nat} {R : Nat → Prop} (h : Extends A A' d R) (hwf : A.WF)
    (hwf' : A'.WF) (hf : A.role f = .free) : A'.role f = .free ∨ (∃ i, A'.role f = .table d i) ∨
      ∃ v < userPages, names (A'.pte d v) f = true := by
  cases hr : A'.role f with
  | free => exact .inl rfl
  | data =>
    rcases h.data f hr with hr' | hn
    · rw [hf] at hr'
      cases hr'
    · exact .inr (.inr hn)
  | held =>
    have := h.held f hr
    rw [hf] at this
    cases this
  | dir =>
    have := h.dir f hr
    rw [hf] at this
    cases this
  | table d' i =>
    by_cases hdd : d' = d
    · subst hdd
      exact .inr (.inl ⟨i, rfl⟩)
    · obtain ⟨hd', hi, ht⟩ := hwf'.role_tab f d' i hr
      rw [h.tab d' i hdd] at ht
      rw [hwf.tab_role d' i f (h.dir d' hd') hi ht] at hf
      cases hf

theorem Clean.of_absent {vs : List Nat} (h : ∀ v ∈ vs, flag (A.pte d v) pteP = false) :
    Clean A d vs := by
  constructor
  · intro v hv hp
    rw [h v hv] at hp
    cases hp
  · intro u hu _ _ hp
    rw [h u hu] at hp
    cases hp

omit [Link] in
theorem NonZero.of_absent {vs : List Nat} (h : ∀ v ∈ vs, flag (A.pte d v) pteP = false) :
    NonZero A d vs := by
  intro v hv hp
  rw [h v hv] at hp
  cases hp

/-- Freeing a new directory gives back what building it took. -/
theorem Extends.restored {fs : List Nat} {R : Nat → Prop} (hwf : A.WF) (hf : A.free = d :: fs)
    (h : Extends ((A.pop d).addDir d) B d R) (hwfB : B.WF)
    (hempty : ∀ v < userPages, flag (B.pte d v) pteP = false) : Restored A (B.freevm d) := by
  have hd := hwf.role_head hf
  have hheld : (A.pop d).role d = .held := update_self ..
  have hwf1 : ((A.pop d).addDir d).WF := (hwf.pop hf).addDir hheld
  have hdB : B.role d = .dir := h.role_dir (update_self ..)
  have hne : ∀ f, f ≠ d → ((A.pop d).addDir d).role f = A.role f := by
    intro f hfd
    simp [Space.addDir, Space.pop, hfd]
  have habs : ∀ v ∈ allPages, flag (B.pte d v) pteP = false := fun v hv =>
    hempty v (mem_allPages.mp hv)
  have hclean : Clean B d allPages := .of_absent habs
  have hnz : NonZero B d allPages := .of_absent habs
  have hrole : ∀ f, (B.freevm d).role f = if B.belongs d f then .free else B.role f := by
    intro f
    rw [hclean.freevm_role hwfB hnz hdB, B.unmapAll_absent d allPages habs]
  have hold : ∀ f, A.role f ≠ .free → f ≠ d ∧ B.role f = A.role f := by
    intro f hff
    have hfd : f ≠ d := by
      rintro rfl
      exact hff hd
    refine ⟨hfd, ?_⟩
    rw [h.grow.role f (by rw [hne f hfd]; exact hff), hne f hfd]
  refine ⟨?_, ?_, ?_⟩
  · funext f
    rw [hrole f]
    by_cases hff : A.role f = .free
    · by_cases hfd : f = d
      · rw [if_pos ((Space.belongs_iff B d f).mpr (.inl ⟨by rw [hfd]; exact hdB, hfd⟩)), hff]
      · rcases h.of_free hwf1 hwfB (by rw [hne f hfd]; exact hff) with hr | ⟨i, hr⟩ | ⟨v, hv, hn⟩
        · rw [hr, hff, ite_self]
        · rw [if_pos ((Space.belongs_iff B d f).mpr (.inr ⟨i, hr⟩)), hff]
        · have := (names_iff.mp hn).1
          rw [hempty v hv] at this
          cases this
    · obtain ⟨hfd, hr⟩ := hold f hff
      rw [if_neg, hr]
      intro hb
      rcases (Space.belongs_iff B d f).mp hb with ⟨_, he⟩ | ⟨i, hi⟩
      · exact hfd he
      · -- a table of `d` was not in use before `d` was
        rw [hr] at hi
        rw [(hwf.role_tab f d i hi).1] at hd
        cases hd
  · intro d' v hd'
    obtain ⟨hdd, _⟩ := hold d' (by rw [hd']; decide)
    rw [B.freevm_pte hdd, h.pte d' v fun hk => hdd hk.1]
    exact if_neg hdd
  · intro f hff hoom
    obtain ⟨hfd, _⟩ := hold f hff
    rw [Space.freevm_count, h.grow.count f (by rw [hne f hfd]; exact hff) hoom]
    exact update_of_ne hfd ..

theorem Extends.newDir {fs : List Nat} (hwf : A.WF) (hf : A.free = d :: fs)
    (h : Extends ((A.pop d).addDir d) B d fun v => userPages ≤ v)
    (hsane : ∀ x, Sane ((A.pop d).addDir d) x → Sane B x)
    (hlen : fs.length ≤ B.free.length + kernelTables) : NewDir A B d := by
  have hd := hwf.role_head hf
  have hheld : (A.pop d).role d = .held := update_self ..
  have hne : ∀ f, f ≠ d → ((A.pop d).addDir d).role f = A.role f := by
    intro f hfd
    simp [Space.addDir, Space.pop, hfd]
  have hold : ∀ f, A.role f ≠ .free → f ≠ d := by
    rintro f hff rfl
    exact hff hd
  have hback : ∀ f, B.role f ≠ .dir → f ≠ d := by
    rintro f hff rfl
    exact hff (h.role_dir (update_self ..))
  refine ⟨hd, h.role_dir (update_self ..), ?_, ?_, ?_, ?_, ?_, ?_, ?_⟩
  · intro v hv
    rw [h.pte d v (by omega)]
    exact if_pos rfl
  · refine ⟨h.grow.free.trans ?_, ?_, ?_⟩
    · rw [Space.addDir_free, Space.pop_free]
      exact List.tail_suffix _
    · intro f hff
      rw [h.grow.role f (by rw [hne f (hold f hff)]; exact hff), hne f (hold f hff)]
    · intro f hff hoom
      rw [h.grow.count f (by rw [hne f (hold f hff)]; exact hff) hoom]
      exact update_of_ne (hold f hff) ..
  · refine ⟨?_, ?_, ?_, ?_⟩
    · intro d' hdd
      rw [← hne d' hdd]
      exact ⟨h.dir d', h.role_dir⟩
    · intro f hfd
      rw [← hne f hfd]
      exact (h.frame.held f id)
    · intro d' v hd' hdd _
      rw [h.pte d' v fun hk => hdd hk.1]
      exact if_neg hdd
    · intro d' i t hd' hdd ht
      rw [h.tab d' i hdd]
      exact (if_neg hdd).trans ht
  · intro d' i hdd
    rw [h.tab d' i hdd]
    exact if_neg hdd
  · intro f hff
    rcases h.data f hff with hff' | ⟨v, hv, hn⟩
    · rwa [hne f (hback f (by rw [hff]; decide))] at hff'
    · have := (names_iff.mp hn).1
      rw [h.pte d v (by omega), show ((A.pop d).addDir d).pte d v = 0#32 from if_pos rfl,
        flag_zero] at this
      cases this
  · intro x hs
    have hs1 : Sane (A.pop d) x :=
      hs.grow hwf (hwf.pop hf) (Grow.pop hwf hf) (fun d' hd' => by
        by_cases hdd : d' = d
        · subst hdd
          rw [hheld] at hd'
          cases hd'
        · simpa [Space.pop, hdd] using hd') rfl
    exact hsane x (hs1.addDir (hwf.pop hf) hheld)
  · rw [hf, List.length_cons]
    omega

/-! ## The frames it needs -/

omit [Link] in
/-- Mapping stops only when the free list is empty. -/
theorem Maps.out_of_frames (h : Maps d perm A n v q false A') : A'.free = [] := by
  generalize hok : false = ok at h
  induction h with
  | full _ hf => exact hf
  | last _ _ => cases hok
  | step _ _ _ ih => exact ih hok

omit [Link] in
theorem MapsRows.out_of_frames (h : MapsRows d A ks false A') : A'.free = [] := by
  generalize hok : false = ok at h
  induction h with
  | nil => cases hok
  | stop _ hmaps => exact hmaps.out_of_frames
  | cons _ _ _ ih => exact ih hok

/-- Every row that was mapped has its page tables. -/
theorem MapsRows.tables (h : MapsRows d A ks true A') (hwf : A.WF) (hd : A.role d = .dir) {k : Kmap}
    {u : Nat} (hk : k ∈ ks) (hs : k.Spans v n q) (hu : v ≤ u) (hu' : u ≤ v + n) :
    ∃ t, A'.tab d (u / npdentries) = some t := by
  generalize hok : true = ok at h
  induction h with
  | nil => cases hk
  | stop => cases hok
  | @cons A A1 A' k' ks v' n' q' ok hs' hmaps hrest ih =>
    obtain ⟨hwf1, hext1⟩ := hmaps.extends hwf hd hs'.lt
    have hd1 := hext1.role_dir hd
    rcases List.mem_cons.mp hk with rfl | hk
    · obtain ⟨rfl, rfl, rfl⟩ := hs.unique hs'
      obtain ⟨t, ht⟩ := hmaps.tables hwf hd hs'.lt hu hu'
      exact ⟨t, (hrest.extends hwf1 hd1).2.tab_some _ _ ht⟩
    · exact ih hwf1 hd1 hk hok

/-- The slots of a directory that the kernel half takes. -/
def kernelSlots : Finset Nat := Finset.Ico 512 568 ∪ Finset.Ico 1016 1024

theorem MapsRows.slot (h : MapsRows d A kmap true A') (hwf : A.WF) (hd : A.role d = .dir)
    (hi : i ∈ kernelSlots) : ∃ t, A'.tab d i = some t := by
  have hb := dataPage_bounds
  have hdiv : i * 1024 / npdentries = i := by rw [npdentries_eq]; omega
  rw [← hdiv]
  simp only [kernelSlots, Finset.mem_union, Finset.mem_Ico] at hi
  rcases hi with hi | hi
  · by_cases h0 : i = 512
    · subst h0
      exact h.tables hwf hd (.head _) kmap_io (by omega) (by omega)
    · exact h.tables hwf hd (.tail _ (.tail _ (.head _))) kmap_data (by omega) (by omega)
  · exact h.tables hwf hd (.tail _ (.tail _ (.tail _ (.head _)))) kmap_dev (by omega) (by omega)

omit [Link] in
theorem Maps.tab_outside (h : Maps d perm A n v q ok A')
    (hi : i < v / npdentries ∨ (v + n) / npdentries < i) : A'.tab d i = A.tab d i := by
  rw [npdentries_eq] at hi
  induction h with
  | full => rfl
  | last hens _ =>
    rw [Space.setPte_tab, hens.tab_ne]
    rintro ⟨-, rfl⟩
    rw [npdentries_eq] at hi
    omega
  | step hens _ _ ih =>
    rw [ih (by omega), Space.setPte_tab, hens.tab_ne]
    rintro ⟨-, rfl⟩
    rw [npdentries_eq] at hi
    omega

omit [Link] in
theorem MapsRows.tab_outside (h : MapsRows d A ks ok A')
    (hi : ∀ k ∈ ks, ∀ v n q, k.Spans v n q → i < v / npdentries ∨ (v + n) / npdentries < i) :
    A'.tab d i = A.tab d i := by
  induction h with
  | nil => rfl
  | stop hs hmaps => exact hmaps.tab_outside (hi _ List.mem_cons_self _ _ _ hs)
  | cons hs hmaps _ ih =>
    rw [ih fun k hk => hi k (List.mem_cons_of_mem _ hk)]
    exact hmaps.tab_outside (hi _ List.mem_cons_self _ _ _ hs)

/-- The kernel half takes no other slot of a new directory. -/
theorem MapsRows.slot_iff (h : MapsRows d A kmap true A') (hwf : A.WF) (hd : A.role d = .dir)
    (hnone : A.tab d i = none) (hlt : i < npdentries) :
    (∃ t, A'.tab d i = some t) ↔ i ∈ kernelSlots := by
  refine ⟨?_, h.slot hwf hd⟩
  rintro ⟨t, ht⟩
  by_contra hi
  have hb := dataPage_bounds
  simp only [kernelSlots, Finset.mem_union, Finset.mem_Ico] at hi
  rw [npdentries_eq] at hlt
  have hsame := h.tab_outside (i := i) (by
    intro k hk v n q hs
    rw [npdentries_eq]
    simp only [kmap, List.mem_cons, List.not_mem_nil, or_false] at hk
    rcases hk with rfl | rfl | rfl | rfl
    · obtain ⟨hv, hn, -⟩ := kmap_io.unique hs
      omega
    · obtain ⟨hv, hn, -⟩ := kmap_text.unique hs
      omega
    · obtain ⟨hv, hn, -⟩ := kmap_data.unique hs
      omega
    · obtain ⟨hv, hn, -⟩ := kmap_dev.unique hs
      omega)
  rw [hsame, hnone] at ht
  cases ht

theorem Space.WF.card_le {T : Finset Nat} (hwf : A.WF) (hT : ∀ f ∈ T, A.role f = .free) :
    T.card ≤ A.free.length := by
  rw [← List.toFinset_card_of_nodup hwf.nodup]
  exact Finset.card_le_card fun f hf => List.mem_toFinset.mpr ((hwf.free_iff f).mpr (hT f hf))

/-- A directory that was a free frame has its tables from free frames too. -/
theorem Space.WF.frames {S : Finset Nat} (hwf : A.WF) (hwf' : A'.WF)
    (hkeep : ∀ f, A.role f ≠ .free → A'.role f = A.role f) (hfree : A.role d = .free)
    (hd : A'.role d = .dir) (hS : ∀ i ∈ S, i < npdentries ∧ ∃ t, A'.tab d i = some t) :
    S.card + 1 + A'.free.length ≤ A.free.length := by
  choose! hlt t ht using hS
  have hrole : ∀ i ∈ S, A'.role (t i) = .table d i := fun i hi =>
    hwf'.tab_role d i _ hd (hlt i hi) (ht i hi)
  have hmem : ∀ i ∈ S, A.role (t i) = .free := by
    intro i hi
    by_contra hne
    have hold := hkeep (t i) hne
    rw [hrole i hi] at hold
    have hdir := (hwf.role_tab _ _ _ hold.symm).1
    rw [hfree] at hdir
    cases hdir
  have hinj : Set.InjOn t S := by
    intro i hi j hj hij
    have := (hrole i hi).symm.trans ((congrArg A'.role hij).trans (hrole j hj))
    cases this
    rfl
  -- the directory, its tables and what is still free are different frames
  have hd_notin : d ∉ S.image t := by
    intro hin
    obtain ⟨i, hi, rfl⟩ := Finset.mem_image.mp hin
    rw [hrole i hi] at hd
    cases hd
  have hdisj : Disjoint (insert d (S.image t)) A'.free.toFinset := by
    rw [Finset.disjoint_left]
    intro f hf hf'
    rw [List.mem_toFinset, hwf'.free_iff] at hf'
    rcases Finset.mem_insert.mp hf with rfl | hf
    · rw [hd] at hf'
      cases hf'
    · obtain ⟨i, hi, rfl⟩ := Finset.mem_image.mp hf
      rw [hrole i hi] at hf'
      cases hf'
  have hcard := hwf.card_le (T := insert d (S.image t) ∪ A'.free.toFinset) (by
    intro f hf
    rcases Finset.mem_union.mp hf with hf | hf
    · rcases Finset.mem_insert.mp hf with rfl | hf
      · exact hfree
      · obtain ⟨i, hi, rfl⟩ := Finset.mem_image.mp hf
        exact hmem i hi
    · rw [List.mem_toFinset, hwf'.free_iff] at hf
      by_contra hne
      exact hne ((hkeep f hne).symm.trans hf))
  rwa [Finset.card_union_of_disjoint hdisj, Finset.card_insert_of_notMem hd_notin,
    Finset.card_image_of_injOn hinj, List.toFinset_card_of_nodup hwf'.nodup] at hcard

omit [Link] in
theorem kernelSlots_lt (hi : i ∈ kernelSlots) : i < npdentries := by
  simp only [kernelSlots, Finset.mem_union, Finset.mem_Ico] at hi
  rw [npdentries_eq]
  omega

omit [Link] in
theorem card_kernelSlots : kernelSlots.card = kernelTables := by
  decide +kernel

/-- When `setupkvm` fails it has had every free frame: each is the directory or one of
its tables. -/
theorem Extends.count_one {f : Nat} (hwf : A.WF)
    (h : Extends ((A.pop d).addDir d) B d fun v => userPages ≤ v) (hwf1 : ((A.pop d).addDir d).WF)
    (hwfB : B.WF) (hempty : ∀ v < userPages, flag (B.pte d v) pteP = false) (hout : B.free = [])
    (hf : f ∈ A.free) : B.count f = 1#8 := by
  refine hwfB.count_one f ?_
  by_cases hfd : f = d
  · rw [hfd, h.role_dir (update_self ..)]
    rfl
  · have hrole : ((A.pop d).addDir d).role f = .free := by
      simpa [Space.addDir, Space.pop, hfd] using (hwf.free_iff f).mp hf
    rcases h.of_free hwf1 hwfB hrole with hr | ⟨i, hr⟩ | ⟨v, hv, hn⟩
    · have := (hwfB.free_iff f).mpr hr
      rw [hout] at this
      cases this
    · rw [hr]
      rfl
    · have := (names_iff.mp hn).1
      rw [hempty v hv] at this
      cases this

/-- `setupkvm` makes a directory with the kernel half, or gives everything back. -/
theorem Rep.setupkvm (h : Rep m A) (F : Fault → Prop) :
    wp Xv6.setupkvm (fun r m' => ∃ A', Rep m' A' ∧ Setup A m m' r A' ∧ match r with
      | some d => ∀ i < npdentries, flag (word (m'.page d) i) pteP = true ↔ i ∈ kernelSlots
      | none => ∀ f ∈ m.freelist, m'.refCounts f = 1#8) F m := by
  unfold Xv6.setupkvm
  rw [wp_bind, h.free]
  refine wp_post (h.kalloc F) ?_
  rintro r m1 ⟨A1, h1, halloc, hpage⟩
  cases halloc with
  | none hf =>
    rw [wp_pure]
    exact ⟨_, h1, .none (Restored.oom A) (by rw [hf]; exact Nat.zero_le _)
      fun g _ => congrFun hpage g, hf ▸ nofun⟩
  | @some d fs hf =>
    have hfree := h.wf.role_head hf
    have h2 := h1.addDir (update_self ..)
    have hd2 : ((A.pop d).addDir d).role d = .dir := update_self ..
    simp only [wp_bind, wp_memset, wp_ite]
    rw [if_neg (by decide)]
    refine wp_post (Rep.mapKmap kmap_rows h2 hd2 ?_) ?_
    · intro v _
      rw [show ((A.pop d).addDir d).pte d v = 0#32 from if_pos rfl]
      exact flag_zero _
    rintro ok m3 ⟨B, h3, hkeep, hrows⟩
    obtain ⟨hwfB, hext⟩ := hrows.extends h2.wf hd2
    have hempty : ∀ v < userPages, flag (B.pte d v) pteP = false := by
      intro v hv
      rw [hext.pte d v (by omega), show ((A.pop d).addDir d).pte d v = 0#32 from if_pos rfl]
      exact flag_zero _
    cases ok with
    | true =>
      rw [if_pos rfl, wp_pure]
      refine ⟨B, h3, .some (Extends.newDir h.wf hf hext
        (fun x => hrows.sane h2.wf hd2) ?_) ?_, fun i hi => ?_⟩
      · by_cases hle : kernelTables ≤ ((A.pop d).addDir d).free.length
        · have := (hrows.enough h2.wf hd2 hle).2
          rwa [Space.addDir_free, Space.pop_free, hf, List.tail_cons] at this
        · rw [Space.addDir_free, Space.pop_free, hf, List.tail_cons] at hle
          omega
      · -- the directory's own frame was free
        intro g hg
        have hgd : g ≠ d := by
          rintro rfl
          rw [hfree] at hg
          simp at hg
        rw [hkeep g (by simpa [Space.addDir, Space.pop, hgd] using hg),
          Mem.setPage_ne _ _ hgd, hpage]
      · rw [h3.pde d i (hext.role_dir hd2) hi, ← hrows.slot_iff h2.wf hd2 (if_pos rfl) hi]
        cases B.tab d i with
        | none => simp
        | some t => simp
    | false =>
      rw [if_neg (by decide)]
      have habs : ∀ v ∈ allPages, flag (B.pte d v) pteP = false := fun v hv =>
        hempty v (mem_allPages.mp hv)
      refine wp_post (h3.freevm (hext.role_dir hd2) (.of_absent habs) (.inr (.of_absent habs)))
        ?_
      rintro _ m4 ⟨h4, -, hkeep4⟩
      rw [wp_pure]
      have hres := Extends.restored h.wf hf hext hwfB hempty
      refine ⟨_, h4, .none hres ?_ ?_, fun f hff => ?_⟩
      · by_contra hle
        have hlen : ((A.pop d).addDir d).free.length + 1 = A.free.length := by
          rw [Space.addDir_free, Space.pop_free, hf, List.tail_cons, List.length_cons]
        cases (hrows.enough h2.wf hd2 (by omega)).1
      · intro g hg
        have hgd : g ≠ d := by
          rintro rfl
          rw [hfree] at hg
          cases hg
        rw [hkeep4 g (by rw [hres.role]; exact hg),
          hkeep g (.inl (by simpa [Space.addDir, Space.pop, hgd] using hg)),
          Mem.setPage_ne _ _ hgd, hpage]
      · rw [h4.count, Space.freevm_count]
        exact hext.count_one h.wf h2.wf hwfB hempty hrows.out_of_frames hff

end Xv6
