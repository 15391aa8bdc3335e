import Xv6.Machine.Share
import Xv6.Machine.Wraps
import Xv6.Kernel.Control

/-!
# `fork`

The two loops of `fork` run as `Copies` and `Shares` say, and `fork` is put
together from its parts: a slot with a kernel stack, a directory with the kernel
half, the pages below `sz`, and the pages of the mappings.
-/

namespace Xv6

open Prog

variable {F : Fault → Prop} {v p d c : Nat} {s : Kernel}

variable [Link] {A A' : Space} {x : Bool} {m : Mem}

/-! ## The loops -/

/-- `mappages` of a frame that is in use already, and then its count goes up. -/
theorem Rep.join (h : Rep m A) {w flags : Word} (hd : A.role d = .dir) (hv : v < userPages)
    (hF : F (.panic "remap") ∨ flag (A.pte d v) pteP = false)
    (hw : frame (mkPte (pteAddr w) flags) = frame w) (hdata : A.role (frame w) = .data)
    (hlt : frame w * pgsize < phystop) :
    wp (mappages d (v * pgsize) pgsize (pteAddr w) flags) (fun ok m1 =>
      if ok then wp (incref (pteAddr w)) (fun _ m' => ∃ A', Rep m' A' ∧ Keep A m m' ∧
        Join A d v (mkPte (pteAddr w) flags) A' ∧ m.wraps + A.full (frame w) ≤ m'.wraps) F m1
      else Rep m1 A.oom ∧ Keep A m m1 ∧ m1.wraps = m.wraps ∧ A.tab d (v / npdentries) = none ∧
        A.free = []) F m := by
  rw [pteAddr_eq] at hw ⊢
  refine wp_post ((mappages_wraps _ _ _ _ _).wp (h.mapPage hd (userPages_lt hv) (frame_lt w) hF)) ?_
  rintro ok m1 ⟨⟨A', hrep, hkeep, hmaps⟩, hwraps⟩
  cases hmaps with
  | full hnone hfree => exact ⟨hrep, hkeep, hwraps, hnone, hfree⟩
  | @last _ A1 _ _ hens hp =>
    have hgrow := hens.grow h.wf
    have hoom : frame w ≠ oomIndex := by
      intro he
      rw [he] at hlt
      exact absurd hlt (by decide)
    have hcount : m1.refCounts (frame w) = A.count (frame w) := by
      rw [hrep.count]
      exact hgrow.count _ (by rw [hdata]; decide) hoom
    have hrole : (A1.role (frame w)).isKernel = false := by
      rw [hgrow.role _ (by rw [hdata]; decide), hdata]
      rfl
    have hjoin : Join A d v (mkPte (frame w * pgsize) flags) _ := .mk hens hp
    rw [hw] at hjoin
    rw [if_pos (show true = true from rfl), wp_incref hlt, hcount]
    refine ⟨_, (hrep.setCount _ hrole).setWraps _, hkeep, hjoin, ?_⟩
    rw [← hwraps]
    show m1.wraps + A.full (frame w) ≤ if A.count (frame w) = 255#8 then m1.wraps + 1 else m1.wraps
    unfold Space.full
    split <;> split <;> simp_all

omit [Link] in
/-- The pages that follow are still absent. -/
theorem Join.remap {w : Word} {vs : List Nat} (h : Join A d v w A') (hnodup : (v :: vs).Nodup)
    (habs : ∀ u ∈ v :: vs, flag (A.pte d u) pteP = false) :
    vs.Nodup ∧ ∀ u ∈ vs, flag (A'.pte d u) pteP = false := by
  obtain ⟨hnot, hnodup⟩ := List.nodup_cons.mp hnodup
  refine ⟨hnodup, fun u hu => ?_⟩
  rw [h.pte_ne]
  · exact habs u (List.mem_cons_of_mem v hu)
  · rintro ⟨_, rfl⟩
    exact hnot hu

theorem Join.keep {w : Word} {m1 m2 : Mem} (h : Join A d v w A') (hwf : A.WF) (hk : Keep A m m1)
    (hk' : Keep A' m1 m2) : Keep A m m2 := by
  intro g hg
  have hne : A.role g ≠ .free := by rcases hg with hg | hg <;> rw [hg] <;> decide
  rw [hk' g (by rw [h.role hwf hne]; exact hg), hk g hg]

/-- The frame of a user entry is in memory. -/
theorem Mapped.frame_lt (h : Mapped A) (hp : A.role p = .dir) (hv : v < userPages) :
    frame (A.pte p v) * pgsize < phystop := by
  cases hpp : flag (A.pte p v) pteP with
  | false =>
    rw [h.absent p v hp hv hpp, frame_zero]
    decide
  | true =>
    rcases h.user p v hp hv hpp with ⟨h0, _⟩ | ⟨hm, _⟩
    · rw [h0]
      decide
    · exact hm.2

theorem Rep.shareLoop (vs : List Nat) : ∀ {m : Mem} {A : Space},
    Rep m A → Mapped A → A.role p = .dir → A.role d = .dir → (∀ v ∈ vs, v < userPages) →
      (F .nullDeref ∨ ∀ v ∈ vs, ∃ t, A.tab p (v / npdentries) = some t) →
      (F (.panic "remap") ∨ vs.Nodup ∧ ∀ v ∈ vs, flag (A.pte d v) pteP = false) →
      wp (Xv6.shareLoop p d (vs.map fun v => v * pgsize))
        (fun _ m' => ∃ A' n, Rep m' A' ∧ Keep A m m' ∧ Shares p d A vs n A' ∧
          m.wraps + n ≤ m'.wraps) F m := by
  induction vs with
  | nil =>
    intro m A h _ _ _ _ _ _
    rw [List.map_nil, Xv6.shareLoop, wp_pure]
    exact ⟨A, 0, h, Keep.refl A m, .nil, Nat.le_refl _⟩
  | cons v vs ih =>
    intro m A h hmap hp hd hvs hnull hremap
    have hv := hvs v List.mem_cons_self
    have hva := page_lt_uintSize (userPages_lt hv)
    have hvs' : ∀ u ∈ vs, u < userPages := fun u hu => hvs u (List.mem_cons_of_mem v hu)
    rw [List.map_cons, Xv6.shareLoop, wp_bind, h.wp_walk hp hva, mul_pgsize_div]
    cases ht : A.tab p (v / npdentries) with
    | none =>
      rw [Option.map_none, wp_throw]
      rcases hnull with hnull | hnull
      · exact hnull
      · obtain ⟨t, ht'⟩ := hnull v List.mem_cons_self
        rw [ht] at ht'
        cases ht'
    | some t =>
      rw [Option.map_some, wp_bind, h.wp_load hp (userPages_lt hv) ht]
      dsimp only
      rw [wp_bind]
      refine wp_post (h.join hd hv (hremap.imp_right fun hx => hx.2 v List.mem_cons_self)
        (frame_shareWord _) (hmap.data_or_zero h.wf hp hv) (hmap.frame_lt hp hv)) ?_
      intro ok m1 hok
      rw [wp_ite]
      cases ok with
      | false =>
        obtain ⟨h1, hk1, hw1, hnone, hfree⟩ := hok
        rw [if_neg (by decide)]
        refine wp_post (ih h1 hmap.oom hp hd hvs'
          (hnull.imp_right fun hx u hu => hx u (List.mem_cons_of_mem v hu))
          (hremap.imp_right fun hx => ⟨(List.nodup_cons.mp hx.1).2,
            fun u hu => hx.2 u (List.mem_cons_of_mem v hu)⟩)) ?_
        rintro _ m2 ⟨A', n, h2, hk2, hsh, hw2⟩
        exact ⟨A', n, h2, hk1.trans (Grow.oom A) hk2, .full hnone hfree hsh, by omega⟩
      | true =>
        rw [if_pos rfl, wp_bind]
        refine wp_post hok ?_
        rintro _ m2 ⟨A2, h2, hk2, hj, hw2⟩
        obtain ⟨hp2, hd2, hmap2⟩ := Shares.step h.wf hp hd hv hmap hj
        refine wp_post (ih h2 hmap2 hp2 hd2 hvs' ?_ ?_) ?_
        · refine hnull.imp_right fun hx u hu => ?_
          obtain ⟨t', ht'⟩ := hx u (List.mem_cons_of_mem v hu)
          exact ⟨t', (hj.frame h.wf).tab p _ t' hp id ht'⟩
        · exact hremap.imp_right fun hx => hj.remap hx.1 hx.2
        · rintro _ m3 ⟨A', n, h3, hk3, hsh, hw3⟩
          exact ⟨A', _, h3, hj.keep h.wf hk2 hk3, .cons hj hsh, by omega⟩

/-- The part of the loop of `copyuvm` that marks the parent's entry. -/
theorem wp_mark {t : Nat} {k : K Bool} {Q : Bool → Kernel → Prop} (h : Rep s.mem A)
    (hp : A.role p = .dir) (hv : v < npdentries * npdentries)
    (ht : A.tab p (v / npdentries) = some t)
    (hk : ∀ s', Keep A s.mem s'.mem → s'.mem.wraps = s.mem.wraps → Rep s'.mem (A.setPte p v (toCow (A.pte p v))) → wp k Q F s') :
    wp (do
      if flag (pteFlags (A.pte p v)) pteW then do
        lcr3 c p
        onMem (store (t, v % npdentries) (toCow (A.pte p v)))
        lcr3 c p
      let cur ← onMem (load (t, v % npdentries))
      onMem (store (t, v % npdentries) (toCow cur))
      lcr3 c p
      k) Q F s := by
  have hrole := h.table_role hp hv ht
  have hstore : ∀ (s1 : Kernel) (B : Space) (w : Word), Keep A s.mem s1.mem → Rep s1.mem B →
      B.role = A.role → B.tab = A.tab →
      Rep (s1.mem.setPage t (setWord (s1.mem.page t) (v % npdentries) w)) (B.setPte p v w) ∧
        Keep A s.mem (s1.mem.setPage t (setWord (s1.mem.page t) (v % npdentries) w)) := by
    intro s1 B w hkeep hB hBrole hBtab
    refine ⟨hB.setPte w (by rw [hBrole]; exact hp) hv (by rw [hBtab]; exact ht), fun g hg => ?_⟩
    -- user data is in no page table
    have hgt : g ≠ t := by
      rintro rfl
      rw [hrole] at hg
      simp at hg
    rw [Mem.setPage_ne _ _ hgt, hkeep g hg]
  have htail : ∀ (s1 : Kernel) (B : Space), Keep A s.mem s1.mem →
      s1.mem.wraps = s.mem.wraps → Rep s1.mem B → B.role = A.role → B.tab = A.tab →
      B.setPte p v (toCow (B.pte p v)) = A.setPte p v (toCow (A.pte p v)) →
      wp (do
        let cur ← onMem (load (t, v % npdentries))
        onMem (store (t, v % npdentries) (toCow cur))
        lcr3 c p
        k) Q F s1 := by
    intro s1 B hkeep hwraps hB hBrole hBtab heq
    obtain ⟨h2, hkeep2⟩ := hstore s1 B (toCow (B.pte p v)) hkeep hB hBrole hBtab
    rw [wp_bind, wp_onMem, hB.wp_load (by rw [hBrole]; exact hp) hv (by rw [hBtab]; exact ht),
      wp_bind, wp_onMem, wp_store, wp_bind, wp_lcr3]
    rw [heq] at h2
    exact hk _ hkeep2 hwraps h2
  dsimp only
  rw [wp_ite]
  split
  · rw [wp_bind, wp_lcr3, wp_bind, wp_onMem, wp_store, wp_bind, wp_lcr3]
    obtain ⟨h1, hkeep1⟩ := hstore (s.setCpu c _) A (toCow (A.pte p v)) (Keep.refl A s.mem) h rfl rfl
    refine htail _ _ hkeep1 rfl h1 rfl rfl ?_
    rw [Space.setPte_self, toCow_toCow, Space.setPte_setPte]
  · exact htail s A (Keep.refl A s.mem) rfl h rfl rfl rfl

theorem Rep.copyLoop (vs : List Nat) :
    ∀ {s : Kernel} {A : Space}, Rep s.mem A → Mapped A → A.role p = .dir → A.role d = .dir →
      p ≠ d → (∀ v ∈ vs, v < userPages) →
      (F (.panic "copyuvm: pte should exist") ∧ F (.panic "copyuvm: page not present") ∨
        ∀ v ∈ vs, flag (A.pte p v) pteP = true) →
      (F (.panic "remap") ∨ vs.Nodup ∧ ∀ v ∈ vs, flag (A.pte d v) pteP = false) →
      wp (Xv6.copyLoop c p d vs)
        (fun ok s' => ∃ A' n, Rep s'.mem A' ∧ Keep A s.mem s'.mem ∧
          Copies p d A vs ok n A' ∧ s.mem.wraps + n ≤ s'.mem.wraps) F s := by
  induction vs with
  | nil =>
    intro s A h _ _ _ _ _ _ _
    rw [Xv6.copyLoop, wp_pure]
    exact ⟨A, 0, h, Keep.refl A _, .nil, Nat.le_refl _⟩
  | cons v vs ih =>
    intro s A h hmap hp hd hpd hvs hpres hremap
    have hv := hvs v List.mem_cons_self
    have hva := page_lt_uintSize (userPages_lt hv)
    have hvs' : ∀ u ∈ vs, u < userPages := fun u hu => hvs u (List.mem_cons_of_mem v hu)
    rw [Xv6.copyLoop, wp_bind, wp_onMem, h.wp_walk hp hva, mul_pgsize_div]
    cases ht : A.tab p (v / npdentries) with
    | none =>
      rw [Option.map_none, wp_panic]
      rcases hpres with hpres | hpres
      · exact hpres.1
      · obtain ⟨t, ht'⟩ := Mapped.table_of_present h.wf hp (userPages_lt hv)
          (hpres v List.mem_cons_self)
        rw [ht] at ht'
        cases ht'
    | some t =>
      rw [Option.map_some, wp_bind, wp_onMem, h.wp_load hp (userPages_lt hv) ht, wp_ite]
      split
      · rename_i hn
        rw [wp_panic]
        rcases hpres with hpres | hpres
        · exact hpres.2
        · rw [hpres v List.mem_cons_self] at hn
          cases hn
      rename_i hpp
      simp only [Bool.not_eq_true', Bool.not_eq_false] at hpp
      refine wp_mark h hp (userPages_lt hv) ht ?_
      intro s1 hkeep1 hwraps1 h1
      have hwf1 := h1.wf
      have hdv : (A.setPte p v (toCow (A.pte p v))).pte d v = A.pte d v :=
        Space.setPte_ne _ _ fun hx => hpd hx.1.symm
      rw [wp_bind, wp_onMem]
      have hdata := hmap.not_kernel h.wf hp hv hpp
      refine wp_post (h1.join hd hv
        (hremap.imp_right fun hx => by rw [hdv]; exact hx.2 v List.mem_cons_self)
        (frame_childWord _) hdata (hmap.frame_lt hp hv)) ?_
      intro ok m2 hok
      rw [wp_ite]
      cases ok with
      | false =>
        obtain ⟨h2, hk2, hw2, hnone, hfree⟩ := hok
        rw [if_neg (by decide), wp_pure]
        refine ⟨_, 0, h2, fun g hg => (hk2 g hg).trans (hkeep1 g hg), .full hpp hnone hfree, ?_⟩
        exact Nat.le_of_eq (hw2.trans hwraps1).symm
      | true =>
        rw [if_pos rfl, wp_bind, wp_onMem]
        refine wp_post hok ?_
        rintro _ m3 ⟨A2, h3, hk3, hj, hw3⟩
        obtain ⟨_, hp2, hd2, hmap2, _⟩ :=
          Copies.step (x := false) h.wf hp hd hv hmap hpp hj
        refine wp_post (ih (s := { s1 with mem := m3 }) h3 hmap2 hp2 hd2 hpd hvs' ?_ ?_) ?_
        · refine hpres.imp_right fun hx u hu => ?_
          rw [Copies.parent_next hpd hj]
          split
          · rw [flag_toCow_pteP]
            exact hpp
          · exact hx u (List.mem_cons_of_mem v hu)
        · refine hremap.imp_right fun hx => hj.remap hx.1 fun u hu => ?_
          rw [Space.setPte_ne _ _ fun hx => hpd hx.1.symm]
          exact hx.2 u hu
        · rintro ok s4 ⟨A', n, h4, hk4, hcop, hw4⟩
          have hk3' : Keep A s.mem m3 := fun g hg => (hk3 g hg).trans (hkeep1 g hg)
          refine ⟨A', _, h4, hj.keep hwf1 hk3' hk4, .cons hpp hj hcop, ?_⟩
          have hw3' : s.mem.wraps + A.full (frame (A.pte p v)) ≤ m3.wraps := hwraps1 ▸ hw3
          have hw4' : m3.wraps + n ≤ s4.mem.wraps := hw4
          omega

/-! ## `fork` on memory -/

/-- What a successful fork does to memory: a stack `f`, a directory `d`, the pages
`vs` shared copy-on-write and the pages `us` shared as they are.  The number counts
the reference counts that were full. -/
inductive Forks (A : Space) (pd : Nat) (vs us : List Nat) (f d : Nat) : Nat → Space → Prop where
  | mk {fs : List Nat} {B C A' : Space} {n n' : Nat} : A.free = f :: fs →
      B.WF → NewDir (A.pop f) B d → Copies pd d B vs true n C → Shares pd d C us n' A' →
      Forks A pd vs us f d (n + n') A'

/-- What a failed fork does to memory. -/
inductive ForkFails (A : Space) (pd : Nat) (vs : List Nat) : Nat → Space → Prop where
  | stack : A.free = [] → ForkFails A pd vs 0 A.oom
  | setup {f : Nat} {fs : List Nat} {B : Space} : A.free = f :: fs → Restored (A.pop f) B →
      B.WF → fs.length ≤ kernelTables → ForkFails A pd vs 0 (B.push f)
  /-- The new directory is dropped. -/
  | copy {f d n : Nat} {fs : List Nat} {B C : Space} : A.free = f :: fs →
      NewDir (A.pop f) B d → Copies pd d B vs false n C → ForkFails A pd vs n (C.push f)

/-- The memory after a fork, by what it returned. -/
def ForkMem (A : Space) (m : Mem) (pd : Nat) (vs us : List Nat) : Option (Nat × Nat) → Mem → Prop
  | none, m' => ∃ A' n, Rep m' A' ∧ KeepData A m m' ∧ ForkFails A pd vs n A' ∧
      m.wraps + n ≤ m'.wraps
  | some (f, d), m' => ∃ A' n, Rep m' A' ∧ KeepData A m m' ∧ Forks A pd vs us f d n A' ∧
      m.wraps + n ≤ m'.wraps

omit [Link] in
theorem Keep.data {m' : Mem} (h : Keep A m m') : KeepData A m m' := fun g hg => h g (.inl hg)

omit [Link] in
theorem KeepData.trans {m1 m2 : Mem} (h : KeepData A m m1)
    (hdata : ∀ g, A.role g = .data → A'.role g = .data) (h' : KeepData A' m1 m2) :
    KeepData A m m2 := fun g hg => (h' g (hdata g hg)).trans (h g hg)

/-- A held frame goes back to the free list. -/
theorem Rep.kfreeHeld (h : Rep m A) {f : Nat} (hf : A.role f = .held) (F : Fault → Prop) :
    wp (kfree (kva f)) (fun _ m' => Rep m' (A.push f) ∧ m'.wraps = m.wraps ∧
      ∀ g ≠ f, m'.page g = m.page g) F m := by
  have hm := h.wf.managed f (by rw [hf]; decide)
  have hc : m.refCounts f = 1#8 := by
    rw [h.count]
    exact h.wf.count_one f (by rw [hf]; rfl)
  rw [wp_kfree hm, hc, if_neg (by decide)]
  exact ⟨h.push hm (.inl hf), rfl, fun g hg => Mem.setPage_ne _ _ hg⟩

theorem NewDir.ne_dir {d' : Nat} (h : NewDir A A' d) (hd' : A.role d' = .dir) : d' ≠ d := by
  rintro rfl
  rw [h.free] at hd'
  cases hd'

theorem NewDir.role_dir {d' : Nat} (h : NewDir A A' d) (hd' : A.role d' = .dir) :
    A'.role d' = .dir :=
  (h.frame.dir d' (h.ne_dir hd')).mpr hd'

theorem Rep.copyuvm {sz : Nat} (h : Rep s.mem A) (hs : Sane A x) (hp : A.role p = .dir)
    (hsz : sz ≤ kernbase)
    (hpres : F (.panic "copyuvm: pte should exist") ∧ F (.panic "copyuvm: page not present") ∨
      ∀ v < npages sz, flag (A.pte p v) pteP = true) :
    wp (Xv6.copyuvm c p sz)
      (fun o s' => ∃ A' n, Rep s'.mem A' ∧ KeepData A s.mem s'.mem ∧
        s.mem.wraps + n ≤ s'.mem.wraps ∧ match o with
        | none => n = 0 ∧ Restored A A' ∧ A.free.length ≤ kernelTables ∨
            ∃ B d, B.WF ∧ NewDir A B d ∧ Copies p d B (List.range (npages sz)) false n A'
        | some d => ∃ B, B.WF ∧ NewDir A B d ∧ Copies p d B (List.range (npages sz)) true n A')
      F s := by
  unfold Xv6.copyuvm
  rw [wp_bind, wp_onMem]
  refine wp_post (setupkvm_wraps.wp (h.setupkvm F)) ?_
  rintro o m1 ⟨⟨B, h1, hsetup, -⟩, hw1⟩
  cases hsetup with
  | none hres hfew hkeep =>
    rw [wp_pure]
    exact ⟨B, 0, h1, hkeep, Nat.le_of_eq hw1.symm, .inl ⟨rfl, hres, hfew⟩⟩
  | @some _ d hnew hkeep =>
    have hpd := hnew.ne_dir hp
    have hvs : ∀ v ∈ List.range (npages sz), v < userPages := fun v hv =>
      lt_of_lt_of_le (List.mem_range.mp hv) (npages_le_userPages hsz)
    have hpB := hnew.role_dir hp
    dsimp only
    rw [wp_bind]
    refine wp_post (Rep.copyLoop (s := { s with mem := m1 }) _ h1 (hnew.sane x hs).mapped hpB
      hnew.dir hpd hvs ?_ (.inr ⟨List.nodup_range, ?_⟩)) ?_
    · refine hpres.imp_right fun hx v hv => ?_
      rw [hnew.frame.pte p v hp hpd id]
      exact hx v (List.mem_range.mp hv)
    · intro v hv
      rw [hnew.empty v (hvs v hv)]
      exact flag_zero _
    · rintro ok s2 ⟨C, n, h2, hkeep2, hcop, hw2⟩
      rw [wp_bind, wp_lcr3, wp_ite]
      have hkeep' : KeepData A s.mem s2.mem := (hkeep.trans hnew.grow hkeep2).data
      have hw : s.mem.wraps + n ≤ s2.mem.wraps := by rw [← hw1]; exact hw2
      cases ok with
      | true =>
        rw [if_pos rfl, wp_pure]
        exact ⟨C, n, h2, hkeep', hw, B, h1.wf, hnew, hcop⟩
      | false =>
        rw [if_neg (by decide), wp_pure]
        exact ⟨C, n, h2, hkeep', hw, .inr ⟨B, d, h1.wf, hnew, hcop⟩⟩

/-- The memory part of `fork`, as `wp_fork` asks for it. -/
theorem Rep.forkMem {sz : Nat} {us : List Nat} (h : Rep m A) (hs : Sane A x) (hp : A.role p = .dir)
    (hsz : sz ≤ kernbase)
    (hpres : F (.panic "copyuvm: pte should exist") ∧ F (.panic "copyuvm: page not present") ∨
      ∀ v < npages sz, flag (A.pte p v) pteP = true) (hus : ∀ v ∈ us, v < userPages)
    (htab : F .nullDeref ∨ ∀ v ∈ us, ∃ t, A.tab p (v / npdentries) = some t)
    (hremap : F (.panic "remap") ∨ us.Nodup ∧ ∀ v ∈ us, npages sz ≤ v) :
    wp Xv6.kalloc (fun o m1 => match o with
      | none => ForkMem A m p (List.range (npages sz)) us none m1
      | some f => ∀ s1 : Kernel, s1.mem = m1 →
        wp (Xv6.copyuvm c p sz) (fun o s2 => match o with
          | none => wp (kfree (kva f))
              (fun _ m' => ForkMem A m p (List.range (npages sz)) us none m') F s2.mem
          | some d => wp (Xv6.shareLoop p d (us.map fun v => v * pgsize))
              (fun _ m' => ForkMem A m p (List.range (npages sz)) us (some (f, d)) m') F s2.mem)
          F s1) F m := by
  refine wp_post (kalloc_wraps.wp (h.kalloc F)) ?_
  rintro o m1 ⟨⟨A1, h1, halloc, hpage⟩, hw1⟩
  have hkeep1 : KeepData A m m1 := fun g _ => congrFun hpage g
  cases halloc with
  | none hf => exact ⟨_, 0, h1, hkeep1, .stack hf, Nat.le_of_eq hw1.symm⟩
  | @some f fs hf =>
    rintro s1 rfl
    have hfree := h.wf.role_head hf
    have hp1 := pop_dir h.wf hf hp
    have hs1 := hs.pop h.wf hf
    have hheld : (A.pop f).role f = .held := Function.update_self ..
    have hdata1 : ∀ g, A.role g = .data → (A.pop f).role g = .data := by
      intro g hg
      exact (Grow.pop h.wf hf).role g (by rw [hg]; decide) |>.trans hg
    refine wp_post (h1.copyuvm hs1 hp1 hsz hpres) ?_
    rintro o s2 ⟨C, n, h2, hkeep2, hw2, hcase⟩
    have hkeep : KeepData A m s2.mem := hkeep1.trans hdata1 hkeep2
    have hw : m.wraps + n ≤ s2.mem.wraps := by rw [← hw1]; exact hw2
    have hvs : ∀ v ∈ List.range (npages sz), v < userPages := fun v hv =>
      lt_of_lt_of_le (List.mem_range.mp hv) (npages_le_userPages hsz)
    cases o with
    | none =>
      have hheldC : C.role f = .held := by
        rcases hcase with ⟨-, hres, -⟩ | ⟨B, d, hwfB, hnew, hcop⟩
        · rw [hres.role]
          exact hheld
        · have hB : B.role f = .held := (hnew.grow.role f (by rw [hheld]; decide)).trans hheld
          exact (hcop.role hwfB (hnew.role_dir hp1) hnew.dir hvs
            (hnew.sane x hs1).mapped (by rw [hB]; decide)).trans hB
      dsimp only
      refine wp_post (h2.kfreeHeld hheldC F) ?_
      rintro _ m3 ⟨h3, hw3, hpage3⟩
      refine ⟨_, n, h3, ?_, ?_, by omega⟩
      · intro g hg
        rw [hpage3 g, hkeep g hg]
        rintro rfl
        rw [hfree] at hg
        cases hg
      · rcases hcase with ⟨rfl, hres, hfew⟩ | ⟨B, d, hwfB, hnew, hcop⟩
        · refine .setup hf hres h2.wf ?_
          rwa [Space.pop_free, hf, List.tail_cons] at hfew
        · exact .copy hf hnew hcop
    | some d =>
      obtain ⟨B, hwfB, hnew, hcop⟩ := hcase
      have hpd := hnew.ne_dir hp1
      have hpB := hnew.role_dir hp1
      have hmapB := (hnew.sane x hs1).mapped
      obtain ⟨hpC, hdC, hmapC⟩ := hcop.mapped hwfB hpB hnew.dir hvs hmapB
      have hframe := hcop.frame hwfB hpB hnew.dir hvs hmapB
      dsimp only
      refine wp_post (Rep.shareLoop us h2 hmapC hpC hdC hus ?_ ?_) ?_
      · refine htab.imp_right fun hx v hv => ?_
        obtain ⟨t, ht⟩ := hx v hv
        refine ⟨t, hframe.tab p _ t hpB id ?_⟩
        rw [hnew.tab p _ hpd]
        exact ht
      · refine hremap.imp_right fun hx => ⟨hx.1, fun v hv => ?_⟩
        rw [hcop.pte_ne, hnew.empty v (hus v hv)]
        · exact flag_zero _
        · rintro ⟨-, hmem⟩
          have := hx.2 v hv
          rw [List.mem_range] at hmem
          omega
      · rintro _ m3 ⟨A', n', h3, hkeep3, hsh, hw3⟩
        refine ⟨A', n + n', h3, ?_, .mk hf hwfB hnew hcop hsh, by omega⟩
        refine hkeep.trans ?_ hkeep3.data
        intro g hg
        have h1 := hdata1 g hg
        have hB : B.role g = .data := (hnew.grow.role g (by rw [h1]; decide)).trans h1
        exact (hcop.role hwfB hpB hnew.dir hvs hmapB (by rw [hB]; decide)).trans hB
/-! ## Regions as pages -/

/-- A region starts on a page boundary and ends, as `uint` arithmetic has it, inside
the range for mappings or before it. -/
structure MmapRegion.Ok (r : MmapRegion) : Prop where
  aligned : r.addr % pgsize = 0
  stop_le : r.stop ≤ mmapTop

/-- The pages of a region. -/
def MmapRegion.pages (r : MmapRegion) : List Nat :=
  List.range' (r.addr / pgsize) (npages (r.stop - r.addr))

/-- The pages the second loop of `fork` visits. -/
def sharedPages (mmap : Nat → MmapRegion) : List Nat :=
  (List.range maxMmaps).flatMap fun i =>
    if flag (mmap i).flags mapShared then (mmap i).pages else []

namespace MmapRegion

variable {r : MmapRegion}

omit [Link]

theorem addrs_eq (h : r.addr % pgsize = 0) : r.addrs = r.pages.map fun v => v * pgsize := by
  unfold addrs pages
  rw [List.range'_eq_map_range, List.map_map]
  refine List.map_congr_left fun k _ => ?_
  have := Nat.div_add_mod r.addr pgsize
  rw [h, Nat.add_zero, Nat.mul_comm] at this
  show r.addr + k * pgsize = (r.addr / pgsize + k) * pgsize
  rw [Nat.add_mul, this]

theorem mem_pages (h : r.addr % pgsize = 0) :
    v ∈ r.pages ↔ r.addr ≤ v * pgsize ∧ v * pgsize < r.stop := by
  unfold pages npages
  rw [List.mem_range'_1]
  unfold pgsize at *
  omega

theorem Ok.lt_userPages (h : r.Ok) (hv : v ∈ r.pages) : v < userPages := by
  have hlt := ((mem_pages h.aligned).mp hv).2
  have hle := h.stop_le
  rw [mmapTop_eq] at hle
  rw [userPages_eq]
  unfold pgsize at hlt
  omega

theorem nodup_pages : r.pages.Nodup := List.nodup_range'

theorem ok_zero : zero.Ok := ⟨rfl, by decide⟩

end MmapRegion

omit [Link] in
theorem mem_sharedPages {mmap : Nat → MmapRegion} :
    v ∈ sharedPages mmap ↔
      ∃ i < maxMmaps, flag (mmap i).flags mapShared = true ∧ v ∈ (mmap i).pages := by
  unfold sharedPages
  rw [List.mem_flatMap]
  constructor
  · rintro ⟨i, hi, hv⟩
    split at hv
    · exact ⟨i, List.mem_range.mp hi, ‹_›, hv⟩
    · cases hv
  · rintro ⟨i, hi, hflag, hv⟩
    exact ⟨i, List.mem_range.mpr hi, by rw [if_pos hflag]; exact hv⟩

omit [Link] in
theorem sharedAddrs_eq {mmap : Nat → MmapRegion} (h : ∀ i < maxMmaps, (mmap i).Ok) :
    sharedAddrs mmap = (sharedPages mmap).map fun v => v * pgsize := by
  unfold sharedAddrs sharedPages
  rw [List.map_flatMap]
  refine List.flatMap_congr fun i hi => ?_
  split
  · exact MmapRegion.addrs_eq (h i (List.mem_range.mp hi)).aligned
  · rfl

/-! ## `fork` as a whole -/

/-- What keeps the loops of `fork` from stopping, for a parent `pr`. -/
structure Forkable (F : Fault → Prop) (A : Space) (pr : Proc) : Prop where
  files : F (.panic "filedup") ∨ ∀ i < nofile, pr.ofile i = none
  present : F (.panic "copyuvm: pte should exist") ∧ F (.panic "copyuvm: page not present") ∨
    ∀ v < npages pr.sz, flag (A.pte pr.pgdir v) pteP = true
  table : F .nullDeref ∨
    ∀ v ∈ sharedPages pr.mmap, ∃ t, A.tab pr.pgdir (v / npdentries) = some t
  apart : F (.panic "remap") ∨
    (sharedPages pr.mmap).Nodup ∧ ∀ v ∈ sharedPages pr.mmap, npages pr.sz ≤ v

theorem Rep.fork (h : Rep s.mem A) (hs : Sane A x) (hcur : (s.cpu c).proc = some p)
    (hstate : (s.proc p).state ≠ .unused) (hdir : A.role (s.proc p).pgdir = .dir)
    (hsz : (s.proc p).sz ≤ kernbase) (hreg : ∀ i < maxMmaps, ((s.proc p).mmap i).Ok)
    (hF : Forkable F A (s.proc p)) :
    wp (Xv6.fork c) (fun r s' => Forked c p (fun _ o m' =>
      ForkMem A s.mem (s.proc p).pgdir (List.range (npages (s.proc p).sz))
        (sharedPages (s.proc p).mmap) o m') s r s') F s := by
  refine wp_fork hcur hstate hF.files fun np _ => ?_
  rw [sharedAddrs_eq hreg]
  refine h.forkMem hs hdir hsz hF.present ?_ hF.table hF.apart
  intro v hv
  obtain ⟨i, hi, -, hv⟩ := mem_sharedPages.mp hv
  exact (hreg i hi).lt_userPages hv

end Xv6
