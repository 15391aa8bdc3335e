import Xv6.Machine.Fill

/-!
# Pages shared by a fork

`fork` maps frames of the parent in the child and counts them.  `Join` is one such
page: the entry of the child gets the frame, and the frame's count goes up by one,
in eight bits.  `Copies` is the loop of `copyuvm`, which also takes the write bit
from the parent's entry.  `Shares` is the second loop of `fork`.  Both count the
increments that found 255.

With no such increment the counts stay at least the number of entries
(`Copies.sane`, `Shares.sane`).
-/

namespace Xv6

open Prog Function

variable {v p f : Nat} {A1 : Space}

/-! ## Words -/

/-- The child's entry for a page of the parent below `sz`. -/
def childWord (w : Word) : Word :=
  mkPte (pteAddr w) (if flag (pteFlags w) pteW then toCow (pteFlags w) else pteFlags w)

/-- The child's entry for a page of a mapping. -/
def shareWord (w : Word) : Word :=
  mkPte (pteAddr w) (if flag (pteFlags w) pteCow then pteFlags w &&& ~~~pteCow else pteFlags w)

theorem perm_child (w : Word) :
    Perm (if flag (pteFlags w) pteW then toCow (pteFlags w) else pteFlags w) := by
  split
  · exact (perm_pteFlags w).toCow
  · exact perm_pteFlags w

theorem perm_share (w : Word) :
    Perm (if flag (pteFlags w) pteCow then pteFlags w &&& ~~~pteCow else pteFlags w) := by
  split
  · exact (perm_pteFlags w).and _
  · exact perm_pteFlags w

@[simp] theorem frame_childWord (w : Word) : frame (childWord w) = frame w := by
  rw [childWord, pteAddr_eq, frame_mkPte (frame_lt w) (perm_child w)]

@[simp] theorem frame_shareWord (w : Word) : frame (shareWord w) = frame w := by
  rw [shareWord, pteAddr_eq, frame_mkPte (frame_lt w) (perm_share w)]

@[simp] theorem flag_childWord_pteP (w : Word) : flag (childWord w) pteP = true :=
  flag_mkPte_pteP ..

@[simp] theorem flag_shareWord_pteP (w : Word) : flag (shareWord w) pteP = true :=
  flag_mkPte_pteP ..

@[simp] theorem flag_childWord_pteW (w : Word) : flag (childWord w) pteW = false := by
  rw [childWord, pteAddr_eq, flag_mkPte (by decide) (by decide)]
  split
  · exact flag_toCow_pteW _
  · rename_i h
    exact Bool.not_eq_true _ ▸ h

@[simp] theorem flag_childWord_pteU (w : Word) : flag (childWord w) pteU = flag w pteU := by
  rw [childWord, pteAddr_eq, flag_mkPte (by decide) (by decide)]
  split
  · rw [flag_toCow_pteU, flag_pteFlags (by decide)]
  · exact flag_pteFlags (by decide) w

@[simp] theorem flag_shareWord_pteU (w : Word) : flag (shareWord w) pteU = flag w pteU := by
  rw [shareWord, pteAddr_eq, flag_mkPte (by decide) (by decide)]
  split
  · rw [flag_and (by decide), flag_pteFlags (by decide), show flag (~~~pteCow) pteU = true by decide,
      Bool.and_true]
  · exact flag_pteFlags (by decide) w

/-! ## One page -/

/-- The page `v` of the directory `d` gets the entry `w`, and the count of its frame
goes up. -/
inductive Join (A : Space) (d v : Nat) (w : Word) : Space → Prop where
  | mk {A1 : Space} : Ensure A d (v / npdentries) A1 → flag (A.pte d v) pteP = false →
      Join A d v w ((A1.setPte d v w).setCount (frame w) (A.count (frame w) + 1#8))

/-- Whether counting a frame other than 0 wraps. -/
def Space.full (A : Space) (f : Nat) : Nat := if f ≠ 0 ∧ A.count f = 255#8 then 1 else 0

variable [Link] {A A' : Space} {x : Bool} {m : Mem}

namespace Join

variable {d : Nat} {w : Word}

section

variable (h : Join A d v w A')
include h

theorem extends_count (hwf : A.WF) : ∃ B, Extends A B d (fun u => u = v) ∧
    A' = B.setCount (frame w) (A.count (frame w) + 1#8) := by
  cases h with
  | mk hens hp =>
    refine ⟨_, (hens.extends hwf _).trans ?_, rfl⟩
    exact Extends.setPte w (by rw [hens.pte_eq]; exact hp) rfl

theorem wf (hwf : A.WF) (hd : A.role d = .dir)
    (hv : v < npdentries * npdentries) (hf : (A.role (frame w)).isKernel = false)
    (hfree : A.role (frame w) ≠ .free) : A'.WF := by
  cases h with
  | mk hens hp =>
    obtain ⟨t, ht⟩ := hens.tab_some
    refine ((hens.wf hwf hd (div_lt_npdentries hv)).setPte w ht).setCount _ ?_
    rw [Space.setPte_role, (hens.grow hwf).role _ hfree]
    exact hf

omit [Link] in
theorem pte_self : A'.pte d v = w := by
  cases h with
  | mk _ _ => rw [Space.setCount_pte, Space.setPte_self]

omit [Link] in
theorem pte_ne {d' u : Nat} (hne : ¬ (d' = d ∧ u = v)) :
    A'.pte d' u = A.pte d' u := by
  cases h with
  | mk hens _ => rw [Space.setCount_pte, Space.setPte_ne _ _ hne, hens.pte_eq]

theorem role (hwf : A.WF) (hf : A.role f ≠ .free) : A'.role f = A.role f := by
  obtain ⟨B, hext, rfl⟩ := h.extends_count hwf
  rw [Space.setCount_role, hext.grow.role f hf]

theorem count (hwf : A.WF) (hf : A.role f ≠ .free) (hoom : f ≠ oomIndex) :
    A'.count f = if f = frame w then A.count f + 1#8 else A.count f := by
  obtain ⟨B, hext, rfl⟩ := h.extends_count hwf
  by_cases hfw : f = frame w
  · rw [if_pos hfw, hfw]
    exact update_self ..
  · rw [if_neg hfw, ← hext.grow.count f hf hoom]
    exact update_of_ne hfw ..

theorem frame (hwf : A.WF) :
    Frame A A' noFrame fun d' u => d' = d ∧ u = v := by
  obtain ⟨B, hext, rfl⟩ := h.extends_count hwf
  exact ⟨hext.frame.dir, hext.frame.held, hext.frame.pte, hext.frame.tab⟩

omit [Link] in
/-- A shared page takes at most a page table. -/
theorem length : A.free.length ≤ A'.free.length + 1 := by
  cases h with
  | mk hens _ =>
    have := hens.length
    rw [Space.setCount_free, Space.setPte_free]
    split at this <;> omega

end

/-- Making the page table does not touch the invariants. -/
theorem ensure {i : Nat} (hens : Ensure A d i A1) (hwf : A.WF) (hd : A.role d = .dir)
    (hi : i < npdentries) (hmap : Mapped A) : Mapped A1 ∧ (Counted A x → Counted A1 x) := by
  have hext := hens.extends hwf fun _ => False
  constructor
  · refine hmap.congr (fun d' => hens.dir) (fun _ _ _ => by rw [hens.pte_eq]) ?_
    intro d' u _ _ _ hr
    rw [hext.grow.role _ (by rw [hr]; decide), hr]
  · intro hc
    refine hc.congr hmap hwf (hens.wf hwf hd hi) (fun d' => hens.dir)
      (fun _ _ _ _ => by rw [hens.pte_eq]) ?_
    intro f hfm hf
    exact hext.grow.count f (by rw [hf]; decide) hfm.ne_oom

/-- The entry names frame 0, which no count is kept for. -/
theorem zero (h : Join A d v w A') (hwf : A.WF) (hd : A.role d = .dir) (hv : v < userPages)
    (h0 : Xv6.frame w = 0) (hU : flag w pteU = false) (hpw : flag w pteP = true)
    (hmap : Mapped A) : Mapped A' ∧ (Counted A x → Counted A' x) := by
  cases h with
  | @mk A1 hens hpd =>
    have hi := div_lt_npdentries (userPages_lt hv)
    have hext := hens.extends hwf fun _ => False
    obtain ⟨hmap1, hcount1⟩ := ensure (x := x) hens hwf hd hi hmap
    constructor
    · have hm : Mapped (A1.setPte d v w) := by
        refine hmap1.rewrite hv (fun _ => .inl ⟨h0, hU⟩) ?_ ?_
        · intro hn
          rw [hpw] at hn
          cases hn
        · intro _ hne
          exact absurd h0 hne
      exact hm.congr (fun _ h => h) (fun _ _ _ => rfl) (fun _ _ _ _ _ h => h)
    · intro hc
      refine (hcount1 hc).rewrite (hens.wf hwf hd hi) (hext.role_dir hd) hv rfl rfl ?_ ?_
      · intro f hm
        have hf : f ≠ Xv6.frame w := by
          rw [h0]
          exact Nat.ne_of_gt hm.pos
        have hn : names w f = false := by simp [names, Ne.symm hf]
        rw [hn, show ((A1.setPte d v w).setCount (Xv6.frame w)
          (A.count (Xv6.frame w) + 1#8)).count f = A1.count f from update_of_ne hf ..]
        exact le_trans ((hcount1 hc).le f hm) (Nat.le_add_right _ _)
      · intro _ _ hne
        exact absurd h0 hne

/-- The entry names a frame that the page `v` of another directory names. -/
theorem sane (h : Join A d v w A') (hwf : A.WF) (hd : A.role d = .dir) (hp : A.role p = .dir)
    (hv : v < userPages) (hpp : flag (A.pte p v) pteP = true)
    (hfr : Xv6.frame w = Xv6.frame (A.pte p v)) (hpw : flag w pteP = true)
    (hU : flag w pteU = true → flag (A.pte p v) pteU = true) (hmap : Mapped A) :
    Mapped A' ∧ (Counted A x → A.full (Xv6.frame w) = 0 →
      (x = true → flag w pteW = false ∧ flag (A.pte p v) pteW = false) → Counted A' x) := by
  rcases hmap.user p v hp hv hpp with ⟨h0, hU0⟩ | ⟨hm, hr⟩
  · have hU' : flag w pteU = false := by
      by_contra hu
      rw [hU (Bool.not_eq_false _ ▸ hu)] at hU0
      cases hU0
    obtain ⟨h1, h2⟩ := h.zero (x := x) hwf hd hv (by rw [hfr, h0]) hU' hpw hmap
    exact ⟨h1, fun hc _ _ => h2 hc⟩
  · cases h with
    | @mk A1 hens hpd =>
      have hi := div_lt_npdentries (userPages_lt hv)
      have hext := hens.extends hwf fun _ => False
      have hpte : A1.pte p v = A.pte p v := by rw [hens.pte_eq]
      obtain ⟨hmap1, hcount1⟩ := ensure (x := x) hens hwf hd hi hmap
      have hshare := hmap1.share (d := d) (hext.role_dir hp) hv (by rw [hpte]; exact hpp)
        (by rw [hpte]; exact hfr) (by rw [hpte]; exact hU) hpw
      refine ⟨hshare.congr (fun _ h => h) (fun _ _ _ => rfl) (fun _ _ _ _ _ h => h), ?_⟩
      intro hc hwrap hW
      -- the count read before the page table was made is the one of the frame
      have hcount : A1.count (Xv6.frame w) = A.count (Xv6.frame w) := by
        rw [hfr]
        exact hext.grow.count _ (by rw [hr]; decide) hm.ne_oom
      have hne : A1.count (Xv6.frame w) ≠ 255#8 := by
        intro he
        rw [hcount] at he
        rw [Space.full, if_pos ⟨by rw [hfr]; exact Nat.ne_of_gt hm.pos, he⟩] at hwrap
        cases hwrap
      have := (hcount1 hc).share (hens.wf hwf hd hi) (hext.role_dir hd) (hext.role_dir hp) hv
        (by rw [hpte]; exact hpp) (by rw [hpte]; exact hfr) hne (by rw [hpte]; exact hW)
      rwa [hcount] at this

end Join

/-! ## The loop of `copyuvm` -/

/-- What the loop of `copyuvm` does for some pages of the directory `p`, with the
new directory `d`.  It stops when no page table can be made. -/
inductive Copies (p d : Nat) : Space → List Nat → Bool → Nat → Space → Prop where
  | nil {A : Space} : Copies p d A [] true 0 A
  | full {A : Space} {v : Nat} {vs : List Nat} : flag (A.pte p v) pteP = true →
      A.tab d (v / npdentries) = none → A.free = [] →
      Copies p d A (v :: vs) false 0 (A.setPte p v (toCow (A.pte p v))).oom
  | cons {A A1 A' : Space} {v n : Nat} {vs : List Nat} {ok : Bool} :
      flag (A.pte p v) pteP = true →
      Join (A.setPte p v (toCow (A.pte p v))) d v (childWord (A.pte p v)) A1 →
      Copies p d A1 vs ok n A' → Copies p d A (v :: vs) ok (A.full (frame (A.pte p v)) + n) A'

/-- An entry loses its write bit. -/
theorem Mapped.mark (h : Mapped A) (hwf : A.WF) (hp : A.role p = .dir) (hv : v < userPages)
    (hpp : flag (A.pte p v) pteP = true) :
    (A.setPte p v (toCow (A.pte p v))).WF ∧ Mapped (A.setPte p v (toCow (A.pte p v))) := by
  obtain ⟨t, ht⟩ := Mapped.table_of_present hwf hp (userPages_lt hv) hpp
  exact ⟨hwf.setPte _ ht, h.share hp hv hpp (frame_toCow _) (by rw [flag_toCow_pteU]; exact id)
    (by rw [flag_toCow_pteP]; exact hpp)⟩

theorem Sane.mark (h : Sane A x) (hwf : A.WF) (hp : A.role p = .dir) (hv : v < userPages)
    (hpp : flag (A.pte p v) pteP = true) : Sane (A.setPte p v (toCow (A.pte p v))) x := by
  refine h.reflag hwf hp hv hpp (by rw [flag_toCow_pteP]; exact hpp) (frame_toCow _)
    (by rw [flag_toCow_pteU]; exact id) ?_
  intro _ hw
  rw [flag_toCow_pteW] at hw
  cases hw

/-- A frame a user entry names is no kernel frame. -/
theorem Mapped.not_kernel (h : Mapped A) (hwf : A.WF) (hp : A.role p = .dir) (hv : v < userPages)
    (hpp : flag (A.pte p v) pteP = true) : A.role (frame (A.pte p v)) = .data := by
  rcases h.user p v hp hv hpp with ⟨h0, _⟩ | ⟨_, hr⟩
  · by_contra hne
    have := (hwf.managed _ hne).pos
    omega
  · exact hr

namespace Copies

variable {d : Nat}

/-- One page of the loop. -/
theorem step (hwf : A.WF) (hp : A.role p = .dir) (hd : A.role d = .dir) (hv : v < userPages)
    (hmap : Mapped A) (hpp : flag (A.pte p v) pteP = true)
    (hj : Join (A.setPte p v (toCow (A.pte p v))) d v (childWord (A.pte p v)) A1) :
    A1.WF ∧ A1.role p = .dir ∧ A1.role d = .dir ∧ Mapped A1 ∧
      (Sane A x → A.full (frame (A.pte p v)) = 0 → Sane A1 x) := by
  obtain ⟨hwf1, hmap1⟩ := hmap.mark hwf hp hv hpp
  have hdata := hmap.not_kernel hwf hp hv hpp
  have hself : (A.setPte p v (toCow (A.pte p v))).pte p v = toCow (A.pte p v) := Space.setPte_self ..
  have hjoin := hj.sane (x := x) (p := p) hwf1 hd hp hv
    (by rw [hself, flag_toCow_pteP]; exact hpp) (by rw [hself, frame_childWord, frame_toCow])
    (flag_childWord_pteP _) (by rw [hself, flag_toCow_pteU, flag_childWord_pteU]; exact id) hmap1
  refine ⟨hj.wf hwf1 hd (userPages_lt hv) ?_ ?_, ?_, ?_, hjoin.1, ?_⟩
  · rw [frame_childWord, Space.setPte_role, hdata]
    rfl
  · rw [frame_childWord, Space.setPte_role, hdata]
    decide
  · rw [hj.role hwf1 (by rw [Space.setPte_role, hp]; decide)]
    exact hp
  · rw [hj.role hwf1 (by rw [Space.setPte_role, hd]; decide)]
    exact hd
  · intro hs hfull
    refine ⟨hjoin.1, hjoin.2 (hs.mark hwf hp hv hpp).counted ?_ ?_⟩
    · rw [frame_childWord]
      exact hfull
    · intro _
      exact ⟨flag_childWord_pteW _, by rw [hself, flag_toCow_pteW]⟩

variable {vs : List Nat} {ok : Bool} {n : Nat}

section

variable (h : Copies p d A vs ok n A')
include h

section

variable (hwf : A.WF) (hp : A.role p = .dir) (hd : A.role d = .dir) (hvs : ∀ v ∈ vs, v < userPages)
include hwf hp hd hvs

theorem mapped (hmap : Mapped A) :
    A'.role p = .dir ∧ A'.role d = .dir ∧ Mapped A' := by
  induction h with
  | nil => exact ⟨hp, hd, hmap⟩
  | @full A v vs hpp _ _ =>
    obtain ⟨hwf1, hmap1⟩ := hmap.mark hwf hp (hvs v List.mem_cons_self) hpp
    exact ⟨hp, hd, hmap1.congr (fun _ h => h) (fun _ _ _ => rfl) (fun _ _ _ _ _ h => h)⟩
  | @cons A A1 A' v n vs ok hpp hj _ ih =>
    obtain ⟨hwf1, hp1, hd1, hmap1, _⟩ :=
      step (x := false) hwf hp hd (hvs v List.mem_cons_self) hmap hpp hj
    exact ih hwf1 hp1 hd1 (fun u hu => hvs u (List.mem_cons_of_mem v hu)) hmap1

/-- Without a wrapped count the invariants hold at the end. -/
theorem sane (hs : Sane A x) (hn : n = 0) :
    Sane A' x := by
  induction h with
  | nil => exact hs
  | @full A v vs hpp _ _ =>
    have hv := hvs v List.mem_cons_self
    exact (hs.mark hwf hp hv hpp).oom (hs.mapped.mark hwf hp hv hpp).1
  | @cons A A1 A' v n vs ok hpp hj _ ih =>
    obtain ⟨hwf1, hp1, hd1, _, hs1⟩ :=
      step hwf hp hd (hvs v List.mem_cons_self) hs.mapped hpp hj
    exact ih hwf1 hp1 hd1 (fun u hu => hvs u (List.mem_cons_of_mem v hu)) (hs1 hs (by omega))
      (by omega)

/-- Only entries of the two directories change. -/
theorem frame (hmap : Mapped A) :
    Frame A A' noFrame (fun d' v => (d' = p ∨ d' = d) ∧ v ∈ vs) := by
  induction h with
  | nil => exact Frame.refl _ _ _
  | @full A v vs hpp _ _ =>
    refine ⟨fun _ _ => Iff.rfl, fun _ _ => Iff.rfl, ?_, fun _ _ _ _ _ h => h⟩
    intro d' u _ _ hk
    refine Space.setPte_ne _ _ ?_
    rintro ⟨rfl, rfl⟩
    exact hk ⟨.inl rfl, List.mem_cons_self⟩
  | @cons A A1 A' v n vs ok hpp hj _ ih =>
    have hv := hvs v List.mem_cons_self
    obtain ⟨hwf1, hp1, hd1, hmap1, _⟩ := step (x := false) hwf hp hd hv hmap hpp hj
    have hfr := ih hwf1 hp1 hd1 (fun u hu => hvs u (List.mem_cons_of_mem v hu)) hmap1
    have hj0 := hj.frame (hmap.mark hwf hp hv hpp).1
    have h1 : Frame A A1 noFrame (fun d' u => (d' = p ∨ d' = d) ∧ u ∈ v :: vs) := by
      refine ⟨hj0.dir, hj0.held, ?_, hj0.tab⟩
      intro d' u hd' hx hk
      rw [hj0.pte d' u hd' hx, Space.setPte_ne]
      · rintro ⟨rfl, rfl⟩
        exact hk ⟨.inl rfl, List.mem_cons_self⟩
      · rintro ⟨rfl, rfl⟩
        exact hk ⟨.inr rfl, List.mem_cons_self⟩
    exact h1.trans (hfr.mono (fun _ h => h) fun _ _ h => ⟨h.1, List.mem_cons_of_mem v h.2⟩)

theorem role (hmap : Mapped A)
    (hf : A.role f ≠ .free) : A'.role f = A.role f := by
  induction h with
  | nil => rfl
  | full => rfl
  | @cons A A1 A' v n vs ok hpp hj _ ih =>
    have hv := hvs v List.mem_cons_self
    obtain ⟨hwf1, hp1, hd1, hmap1, _⟩ := step (x := false) hwf hp hd hv hmap hpp hj
    have h1 : A1.role f = A.role f := hj.role (hmap.mark hwf hp hv hpp).1 hf
    rw [← h1] at hf ⊢
    exact ih hwf1 hp1 hd1 (fun u hu => hvs u (List.mem_cons_of_mem v hu)) hmap1 hf

end

omit [Link] in
/-- A free frame for each page is enough. -/
theorem enough (hlen : vs.length ≤ A.free.length) :
    ok = true ∧ A.free.length ≤ A'.free.length + vs.length := by
  induction h with
  | nil => exact ⟨rfl, Nat.le_refl _⟩
  | full _ _ hfree =>
    rw [hfree] at hlen
    cases hlen
  | cons _ hj _ ih =>
    have := hj.length
    rw [Space.setPte_free] at this
    rw [List.length_cons] at hlen ⊢
    obtain ⟨h1, h2⟩ := ih (by omega)
    exact ⟨h1, by omega⟩

omit [Link] in
theorem pte_ne {d' : Nat} (hk : ¬ ((d' = p ∨ d' = d) ∧ v ∈ vs)) :
    A'.pte d' v = A.pte d' v := by
  induction h with
  | nil => rfl
  | @full A u vs _ _ _ =>
    refine Space.setPte_ne _ _ ?_
    rintro ⟨rfl, rfl⟩
    exact hk ⟨.inl rfl, List.mem_cons_self⟩
  | @cons A A1 A' u n vs ok _ hj _ ih =>
    rw [ih fun hx => hk ⟨hx.1, List.mem_cons_of_mem u hx.2⟩, hj.pte_ne, Space.setPte_ne]
    · rintro ⟨rfl, rfl⟩
      exact hk ⟨.inl rfl, List.mem_cons_self⟩
    · rintro ⟨rfl, rfl⟩
      exact hk ⟨.inr rfl, List.mem_cons_self⟩

end

omit [Link] in
/-- A page of the parent after its own turn, before those of other pages. -/
theorem parent_next {u : Nat} (hpd : p ≠ d)
    (hj : Join (A.setPte p u (toCow (A.pte p u))) d u (childWord (A.pte p u)) A1) :
    A1.pte p v = if v = u then toCow (A.pte p u) else A.pte p v := by
  rw [hj.pte_ne fun hx => hpd hx.1]
  by_cases hvu : v = u
  · rw [if_pos hvu, hvu, Space.setPte_self]
  · rw [if_neg hvu, Space.setPte_ne _ _ fun hx => hvu hx.2]

omit [Link] in
/-- After the loop the page is copy-on-write in the parent, and in the child. -/
theorem entries (h : Copies p d A vs ok n A') (hpd : p ≠ d) (hok : ok = true) (hnodup : vs.Nodup)
    (hv : v ∈ vs) : flag (A.pte p v) pteP = true ∧
      A'.pte p v = toCow (A.pte p v) ∧ A'.pte d v = childWord (A.pte p v) := by
  induction h with
  | nil => cases hv
  | full _ _ _ => cases hok
  | @cons A A1 A' u n vs ok hpp hj hrest ih =>
    rw [List.nodup_cons] at hnodup
    rcases List.mem_cons.mp hv with rfl | hv'
    · refine ⟨hpp, ?_, ?_⟩
      · rw [hrest.pte_ne fun hx => hnodup.1 hx.2, parent_next hpd hj, if_pos rfl]
      · rw [hrest.pte_ne fun hx => hnodup.1 hx.2, hj.pte_self]
    · have hvu : v ≠ u := by
        rintro rfl
        exact hnodup.1 hv'
      have := ih hok hnodup.2 hv'
      rwa [parent_next hpd hj, if_neg hvu] at this

/-- No count wraps when no frame of the pages has a count of 255. -/
theorem no_wrap (h : Copies p d A vs ok n A') (hwf : A.WF) (hp : A.role p = .dir)
    (hd : A.role d = .dir) (hvs : ∀ v ∈ vs, v < userPages) (hmap : Mapped A) (hpd : p ≠ d)
    (hnodup : vs.Nodup) (hfull : ∀ v ∈ vs, A.full (Xv6.frame (A.pte p v)) = 0) : n = 0 := by
  induction h with
  | nil => rfl
  | full _ _ _ => rfl
  | @cons A A1 A' u n vs ok hpp hj hrest ih =>
    have hu := hvs u List.mem_cons_self
    have hvs' : ∀ v ∈ vs, v < userPages := fun v hv => hvs v (List.mem_cons_of_mem u hv)
    obtain ⟨hwf1, hp1, hd1, hmap1, _⟩ := step (x := false) hwf hp hd hu hmap hpp hj
    have hwf0 := (hmap.mark hwf hp hu hpp).1
    rw [List.nodup_cons] at hnodup
    rw [hfull u List.mem_cons_self, ih hwf1 hp1 hd1 hvs' hmap1 hnodup.2]
    intro v hv
    have hvu : v ≠ u := by
      rintro rfl
      exact hnodup.1 hv
    have h0 := hfull v (List.mem_cons_of_mem u hv)
    rw [parent_next hpd hj, if_neg hvu]
    unfold Space.full at h0 ⊢
    by_cases hz : Xv6.frame (A.pte p v) = 0
    · rw [if_neg fun hx => hx.1 hz]
    · -- another page of the parent has another frame
      by_cases hpv : flag (A.pte p v) pteP = true
      · have hdata := hmap.not_kernel hwf hp (hvs' v hv) hpv
        have hm : Managed (Xv6.frame (A.pte p v)) :=
          (hmap.user p v hp (hvs' v hv) hpv).resolve_left (fun hx => hz hx.1) |>.1
        have hne : Xv6.frame (A.pte p v) ≠ Xv6.frame (childWord (A.pte p u)) := by
          intro he
          rw [frame_childWord] at he
          exact hvu (hmap.same p u p v hp hp hu (hvs' v hv) hpp hpv he (by rw [← he]; exact hz))
        rw [hj.count hwf0 (by rw [Space.setPte_role, hdata]; decide) hm.ne_oom, if_neg hne]
        exact h0
      · rw [hmap.absent p v hp (hvs' v hv) (Bool.not_eq_true _ ▸ hpv)] at hz
        exact absurd frame_zero hz

end Copies

/-! ## The second loop of `fork` -/

/-- What the second loop of `fork` does for some pages.  A page whose page table
cannot be made is left out. -/
inductive Shares (p d : Nat) : Space → List Nat → Nat → Space → Prop where
  | nil {A : Space} : Shares p d A [] 0 A
  | full {A A' : Space} {v n : Nat} {vs : List Nat} : A.tab d (v / npdentries) = none →
      A.free = [] → Shares p d A.oom vs n A' → Shares p d A (v :: vs) n A'
  | cons {A A1 A' : Space} {v n : Nat} {vs : List Nat} :
      Join A d v (shareWord (A.pte p v)) A1 → Shares p d A1 vs n A' →
      Shares p d A (v :: vs) (A.full (frame (A.pte p v)) + n) A'

theorem Mapped.oom (h : Mapped A) : Mapped A.oom :=
  h.congr (fun _ h => h) (fun _ _ _ => rfl) (fun _ _ _ _ _ h => h)

/-- The frame of a user entry, or 0 for a page that is not there. -/
theorem Mapped.data_or_zero (h : Mapped A) (hwf : A.WF) (hp : A.role p = .dir)
    (hv : v < userPages) : A.role (frame (A.pte p v)) = .data := by
  cases hpp : flag (A.pte p v) pteP with
  | true => exact h.not_kernel hwf hp hv hpp
  | false =>
    rw [h.absent p v hp hv hpp, frame_zero]
    by_contra hne
    exact absurd (hwf.managed 0 hne).pos (by decide)

namespace Shares

variable {d : Nat}

/-- One page of the loop. -/
theorem step (hwf : A.WF) (hp : A.role p = .dir) (hd : A.role d = .dir) (hv : v < userPages)
    (hmap : Mapped A) (hj : Join A d v (shareWord (A.pte p v)) A1) :
    A1.role p = .dir ∧ A1.role d = .dir ∧ Mapped A1 := by
  refine ⟨?_, ?_, ?_⟩
  · rw [hj.role hwf (by rw [hp]; decide), hp]
  · rw [hj.role hwf (by rw [hd]; decide), hd]
  · cases hpp : flag (A.pte p v) pteP with
    | true =>
      exact (hj.sane (x := false) hwf hd hp hv hpp (frame_shareWord _)
        (flag_shareWord_pteP _) (by rw [flag_shareWord_pteU]; exact id) hmap).1
    | false =>
      have h0 := hmap.absent p v hp hv hpp
      exact (hj.zero (x := false) hwf hd hv (by rw [frame_shareWord, h0, frame_zero])
        (by rw [flag_shareWord_pteU, h0, flag_zero]) (flag_shareWord_pteP _) hmap).1

end Shares

end Xv6
