import Xv6.Machine.Rep

/-!
# Counts against entries

Two invariants of a space.  `Mapped` says what user entries may name: a data
frame, which is then mapped at one page number only, or frame 0 without the user
bit.  `Counted` says that no count is below the number of user entries that name
the frame.  With its flag set it also says that a writable entry is the only entry
of its frame, which is what copy-on-write relies on and what shared mappings give
up.

Counts above the number of entries are allowed.  The kernel produces them: `kfree`
leaves a count above one as it is.

Each move of the kernel that touches a user entry has a lemma here.  All of them go
through `Mapped.rewrite` and `Counted.rewrite`, which say what one rewritten entry
must satisfy.
-/

namespace Xv6

open Function

variable {d v f i : Nat} {w : Word}

/-- Whether an entry is present and names the frame `f`. -/
def names (w : Word) (f : Nat) : Bool := flag w pteP && frame w == f

theorem names_iff : names w f = true ↔ flag w pteP = true ∧ frame w = f := by
  simp [names]

@[simp] theorem names_zero (f : Nat) : names 0#32 f = false := by
  simp [names]

/-- The user entries: the directories with the pages of the user half. -/
@[irreducible] def Space.keys (A : Space) : Finset (Nat × Nat) :=
  ((Finset.range (phystop / pgsize)).filter fun d => A.role d = .dir) ×ˢ Finset.range userPages

/-- The number of user entries that name a frame. -/
def Space.mappers (A : Space) (f : Nat) : Nat :=
  Count.refs A.keys (fun k => A.pte k.1 k.2) fun w => names w f

variable [Link] {A A' : Space} {x : Bool}

/-- What user entries, and those of the kernel half, may hold. -/
structure Mapped (A : Space) : Prop where
  user : ∀ d v, A.role d = .dir → v < userPages → flag (A.pte d v) pteP = true →
    frame (A.pte d v) = 0 ∧ flag (A.pte d v) pteU = false ∨
      Managed (frame (A.pte d v)) ∧ A.role (frame (A.pte d v)) = .data
  absent : ∀ d v, A.role d = .dir → v < userPages → flag (A.pte d v) pteP = false →
    A.pte d v = 0#32
  kern : ∀ d v, A.role d = .dir → userPages ≤ v → v < npdentries * npdentries →
    flag (A.pte d v) pteP = true → flag (A.pte d v) pteU = false ∧ flag (A.pte d v) pteCow = false
  same : ∀ d v d' v', A.role d = .dir → A.role d' = .dir → v < userPages → v' < userPages →
    flag (A.pte d v) pteP = true → flag (A.pte d' v') pteP = true →
    frame (A.pte d' v') = frame (A.pte d v) → frame (A.pte d v) ≠ 0 → v' = v

/-- No count is below the number of entries.  With `x` a writable entry is alone. -/
structure Counted (A : Space) (x : Bool) : Prop where
  le : ∀ f, Managed f → A.mappers f ≤ (A.count f).toNat
  excl : x = true → ∀ d v d', A.role d = .dir → A.role d' = .dir → v < userPages →
    flag (A.pte d v) pteP = true → flag (A.pte d' v) pteP = true →
    frame (A.pte d' v) = frame (A.pte d v) → frame (A.pte d v) ≠ 0 →
    flag (A.pte d v) pteW = true → d' = d

/-- Both invariants. -/
structure Sane (A : Space) (x : Bool) : Prop where
  mapped : Mapped A
  counted : Counted A x

/-! ## Keys -/

theorem Space.WF.mem_keys (h : A.WF) : (d, v) ∈ A.keys ↔ A.role d = .dir ∧ v < userPages := by
  unfold Space.keys
  rw [Finset.mem_product, Finset.mem_filter, Finset.mem_range, Finset.mem_range]
  constructor
  · rintro ⟨⟨_, hd⟩, hv⟩
    exact ⟨hd, hv⟩
  · rintro ⟨hd, hv⟩
    exact ⟨⟨(h.managed d (by rw [hd]; decide)).lt, hd⟩, hv⟩

omit [Link] in
theorem Space.keys_congr (h : ∀ d, A'.role d = .dir ↔ A.role d = .dir) : A'.keys = A.keys := by
  unfold Space.keys
  rw [Finset.filter_congr fun d _ => h d]

/-- Only data frames have mappers. -/
theorem Mapped.mappers_eq_zero (h : Mapped A) (hwf : A.WF) (hm : Managed f)
    (hf : A.role f ≠ .data) : A.mappers f = 0 := by
  apply Count.refs_eq_zero.mpr
  rintro ⟨d, v⟩ hk
  obtain ⟨hd, hv⟩ := hwf.mem_keys.mp hk
  by_contra hn
  obtain ⟨hp, hfr⟩ := names_iff.mp (Bool.not_eq_false _ ▸ hn)
  change frame (A.pte d v) = f at hfr
  rcases h.user d v hd hv hp with ⟨h0, _⟩ | ⟨_, hr⟩
  · have := hm.pos
    omega
  · rw [hfr] at hr
    exact hf hr

/-- A frame with a count of at most one has at most one entry. -/
theorem Counted.alone (h : Counted A x) (hwf : A.WF) {d' v' : Nat} (hm : Managed f)
    (hc : (A.count f).toNat ≤ 1) (hd : A.role d = .dir) (hv : v < userPages)
    (hn : names (A.pte d v) f = true) (hd' : A.role d' = .dir) (hv' : v' < userPages)
    (hn' : names (A.pte d' v') f = true) : d' = d ∧ v' = v := by
  have hle : A.mappers f ≤ 1 := le_trans (h.le f hm) hc
  have := Count.refs_unique hle (hwf.mem_keys.mpr ⟨hd', hv'⟩) (hwf.mem_keys.mpr ⟨hd, hv⟩) hn' hn
  injection this with h1 h2
  exact ⟨h1, h2⟩

/-! ## Moves that leave the user entries alone -/

/-- The directories and their entries are as before, and the frames they name
stay data. -/
theorem Mapped.congr (h : Mapped A) (hdir : ∀ d, A'.role d = .dir → A.role d = .dir)
    (hpte : ∀ d v, A'.role d = .dir → A'.pte d v = A.pte d v)
    (hdata : ∀ d v, A.role d = .dir → v < userPages → flag (A.pte d v) pteP = true →
      A.role (frame (A.pte d v)) = .data → A'.role (frame (A.pte d v)) = .data) :
    Mapped A' := by
  constructor
  · intro d v hd hv hp
    rw [hpte d v hd] at hp ⊢
    exact (h.user d v (hdir d hd) hv hp).imp_right
      fun hr => ⟨hr.1, hdata d v (hdir d hd) hv hp hr.2⟩
  · intro d v hd hv hp
    rw [hpte d v hd] at hp ⊢
    exact h.absent d v (hdir d hd) hv hp
  · intro d v hd hv hv' hp
    rw [hpte d v hd] at hp ⊢
    exact h.kern d v (hdir d hd) hv hv' hp
  · intro d v d' v' hd hd' hv hv' hp hp' hf hne
    rw [hpte d v hd] at hp hf hne
    rw [hpte d' v' hd'] at hp' hf
    exact h.same d v d' v' (hdir d hd) (hdir d' hd') hv hv' hp hp' hf hne

theorem Counted.congr (h : Counted A x) (hmap : Mapped A) (hwf : A.WF) (hwf' : A'.WF)
    (hdir : ∀ d, A'.role d = .dir → A.role d = .dir)
    (hpte : ∀ d v, A'.role d = .dir → v < userPages → A'.pte d v = A.pte d v)
    (hcount : ∀ f, Managed f → A.role f = .data → A'.count f = A.count f) : Counted A' x := by
  constructor
  · intro f hm
    have hle : A'.mappers f ≤ A.mappers f := by
      have hsub : A'.keys ⊆ A.keys := by
        rintro ⟨d, v⟩ hk
        obtain ⟨hd, hv⟩ := hwf'.mem_keys.mp hk
        exact hwf.mem_keys.mpr ⟨hdir d hd, hv⟩
      refine le_trans (le_of_eq ?_) (Count.refs_mono _ _ hsub)
      apply Count.refs_congr
      rintro ⟨d, v⟩ hk
      show names (A'.pte d v) f = names (A.pte d v) f
      rw [hpte d v (hwf'.mem_keys.mp hk).1 (hwf'.mem_keys.mp hk).2]
    by_cases hf : A.role f = .data
    · rw [hcount f hm hf]
      exact le_trans hle (h.le f hm)
    · rw [hmap.mappers_eq_zero hwf hm hf] at hle
      omega
  · intro hx d v d' hd hd' hv hp hp' hf hne hw
    rw [hpte d v hd hv] at hp hf hne hw
    rw [hpte d' v hd' hv] at hp' hf
    exact h.excl hx d v d' (hdir d hd) (hdir d' hd') hv hp hp' hf hne hw

/-- Frames were taken off the free list, and no entry was touched. -/
theorem Sane.grow (h : Sane A x) (hwf : A.WF) (hwf' : A'.WF) (hg : Grow A A')
    (hdir : ∀ d, A'.role d = .dir → A.role d = .dir) (hpte : A'.pte = A.pte) : Sane A' x := by
  refine ⟨h.mapped.congr hdir (fun d v _ => by rw [hpte]) ?_,
    h.counted.congr h.mapped hwf hwf' hdir (fun d v _ _ => by rw [hpte]) ?_⟩
  · intro d v _ _ _ hf
    rw [hg.role _ (by rw [hf]; decide), hf]
  · intro f hm hf
    exact hg.count f (by rw [hf]; decide) hm.ne_oom

omit [Link] in
theorem Ensure.dir (h : Ensure A d i A') {d' : Nat} (hd : A'.role d' = .dir) :
    A.role d' = .dir := by
  cases h with
  | there _ => exact hd
  | @new f fs _ hf =>
    exact Space.dir_of_update (by decide) (Space.dir_of_update (A := A.pop f) (by simp) hd)

theorem Ensure.wf (h : Ensure A d i A') (hwf : A.WF) (hd : A.role d = .dir) (hi : i < npdentries) :
    A'.WF := by
  cases h with
  | there _ => exact hwf
  | @new f fs hnone hf =>
    refine (hwf.pop hf).addTable ?_ hi hnone (update_self ..)
    rw [(Grow.pop hwf hf).role d (by rw [hd]; decide), hd]

theorem Sane.ensure (h : Sane A x) (hwf : A.WF) (hd : A.role d = .dir) (hi : i < npdentries)
    (he : Ensure A d i A') : Sane A' x :=
  h.grow hwf (he.wf hwf hd hi) (he.grow hwf) (fun _ => he.dir) he.pte_eq

theorem Sane.give (h : Sane A x) (hwf : A.WF) (hf : A.role f = .held) : Sane (A.give f) x := by
  have hdir : ∀ d, (A.give f).role d = .dir → A.role d = .dir := fun _ =>
    Space.dir_of_update (by decide)
  refine ⟨h.mapped.congr hdir (fun _ _ _ => rfl) ?_,
    h.counted.congr h.mapped hwf (hwf.give hf) hdir (fun _ _ _ _ => rfl) (fun _ _ _ => rfl)⟩
  intro d v _ _ _ hr
  by_cases hfr : frame (A.pte d v) = f
  · rw [hfr]
    exact update_self ..
  · rw [← hr]
    exact update_of_ne hfr ..

/-- A frame that no entry names goes to the free list. -/
theorem Sane.push (h : Sane A x) (hwf : A.WF) (hm : Managed f)
    (hf : A.role f = .held ∨ A.role f = .data)
    (hno : ∀ d v, A.role d = .dir → v < userPages → names (A.pte d v) f = false) :
    Sane (A.push f) x := by
  have hdir : ∀ d, (A.push f).role d = .dir → A.role d = .dir := fun _ =>
    Space.dir_of_update (by decide)
  refine ⟨h.mapped.congr hdir (fun _ _ _ => rfl) ?_,
    h.counted.congr h.mapped hwf (hwf.push hm hf) hdir (fun _ _ _ _ => rfl) (fun _ _ _ => rfl)⟩
  intro d v hd hv hp hr
  have hfr : frame (A.pte d v) ≠ f := by
    intro hfr
    have hn := hno d v hd hv
    rw [names_iff.mpr ⟨hp, hfr⟩] at hn
    cases hn
  rw [← hr]
  exact update_of_ne hfr ..

/-- A held frame has no entries. -/
theorem Mapped.names_held (h : Mapped A) (hwf : A.WF) (hf : A.role f = .held) (hd : A.role d = .dir)
    (hv : v < userPages) : names (A.pte d v) f = false := by
  by_contra hn
  obtain ⟨hp, hfr⟩ := names_iff.mp (Bool.not_eq_false _ ▸ hn)
  have hm : Managed f := hwf.managed f (by rw [hf]; decide)
  rcases h.user d v hd hv hp with ⟨h0, _⟩ | ⟨_, hr⟩
  · have := hm.pos
    omega
  · rw [hfr, hf] at hr
    cases hr

theorem Sane.retire (h : Sane A x) (hwf : A.WF) (d : Nat) : Sane (A.retire d) x := by
  have hdir : ∀ d', (A.retire d).role d' = .dir → A.role d' = .dir := by
    intro d' hd'
    by_cases hb : A.belongs d d' = true
    · simp [Space.retire, hb] at hd'
    · simpa [Space.retire, hb] using hd'
  refine ⟨h.mapped.congr hdir (fun _ _ _ => rfl) ?_,
    h.counted.congr h.mapped hwf (hwf.retire d) hdir (fun _ _ _ _ => rfl) (fun _ _ _ => rfl)⟩
  intro d' v _ _ _ hr
  have hb : A.belongs d (frame (A.pte d' v)) = false := by simp [Space.belongs, hr]
  simp [Space.retire, hb, hr]

/-! ## One rewritten entry -/

theorem Mapped.rewrite (h : Mapped A) (hv : v < userPages) (huser : flag w pteP = true →
      frame w = 0 ∧ flag w pteU = false ∨ Managed (frame w) ∧ A.role (frame w) = .data)
    (habsent : flag w pteP = false → w = 0#32)
    (hsame : flag w pteP = true → frame w ≠ 0 → ∀ d' v', A.role d' = .dir → v' < userPages →
      ¬ (d' = d ∧ v' = v) → flag (A.pte d' v') pteP = true → frame (A.pte d' v') = frame w →
      v' = v) : Mapped (A.setPte d v w) := by
  constructor
  · intro d' v' hd' hv' hp
    by_cases hk : d' = d ∧ v' = v
    · obtain ⟨rfl, rfl⟩ := hk
      rw [Space.setPte_self] at hp ⊢
      exact huser hp
    · rw [Space.setPte_ne _ _ hk] at hp ⊢
      exact h.user d' v' hd' hv' hp
  · intro d' v' hd' hv' hp
    by_cases hk : d' = d ∧ v' = v
    · obtain ⟨rfl, rfl⟩ := hk
      rw [Space.setPte_self] at hp ⊢
      exact habsent hp
    · rw [Space.setPte_ne _ _ hk] at hp ⊢
      exact h.absent d' v' hd' hv' hp
  · intro d' v' hd' hv1 hv2 hp
    rw [Space.setPte_ne _ _ (by omega)] at hp ⊢
    exact h.kern d' v' hd' hv1 hv2 hp
  · intro d1 v1 d2 v2 hd1 hd2 hv1 hv2 hp1 hp2 hf hne
    by_cases hk1 : d1 = d ∧ v1 = v
    · obtain ⟨rfl, rfl⟩ := hk1
      rw [Space.setPte_self] at hp1 hf hne
      by_cases hk2 : d2 = d1 ∧ v2 = v1
      · exact hk2.2
      · rw [Space.setPte_ne _ _ hk2] at hp2 hf
        exact hsame hp1 hne d2 v2 hd2 hv2 hk2 hp2 hf
    · rw [Space.setPte_ne _ _ hk1] at hp1 hf hne
      by_cases hk2 : d2 = d ∧ v2 = v
      · obtain ⟨rfl, rfl⟩ := hk2
        rw [Space.setPte_self] at hp2 hf
        exact (hsame hp2 (by rw [hf]; exact hne) d1 v1 hd1 hv1 hk1 hp1 hf.symm).symm
      · rw [Space.setPte_ne _ _ hk2] at hp2 hf
        exact h.same d1 v1 d2 v2 hd1 hd2 hv1 hv2 hp1 hp2 hf hne

/-- The entry at `(d, v)` becomes `w`, and the counts become those of `A'`. -/
theorem Counted.rewrite (h : Counted A x) (hwf : A.WF) (hd : A.role d = .dir) (hv : v < userPages)
    (hrole : A'.role = A.role) (hpte : A'.pte = (A.setPte d v w).pte)
    (hle : ∀ f, Managed f → A.mappers f + (names w f).toNat ≤
      (A'.count f).toNat + (names (A.pte d v) f).toNat)
    (hexcl : x = true → flag w pteP = true → frame w ≠ 0 → ∀ d', A.role d' = .dir → d' ≠ d →
      flag (A.pte d' v) pteP = true → frame (A.pte d' v) = frame w →
      flag w pteW = false ∧ flag (A.pte d' v) pteW = false) : Counted A' x := by
  constructor
  · intro f hm
    have hkeys : A'.keys = A.keys := Space.keys_congr fun d => by rw [hrole]
    have hmove : A'.mappers f + (names (A.pte d v) f).toNat = A.mappers f + (names w f).toNat := by
      unfold Space.mappers
      rw [hkeys, hpte]
      have := Count.refs_update (t := fun k : Nat × Nat => A.pte k.1 k.2)
        (u := fun k => (A.setPte d v w).pte k.1 k.2) (fun u => names u f)
        (hwf.mem_keys.mpr ⟨hd, hv⟩) (by
          rintro ⟨d', v'⟩ _ hne
          exact Space.setPte_ne _ _ fun hk => hne (Prod.ext hk.1 hk.2))
      simpa using this
    have := hle f hm
    omega
  · intro hx d1 v1 d2 hd1 hd2 hv1 hp1 hp2 hf hne hw
    rw [hrole] at hd1 hd2
    rw [hpte] at hp1 hp2 hf hne hw
    by_contra hdd
    by_cases hk1 : d1 = d ∧ v1 = v
    · obtain ⟨rfl, rfl⟩ := hk1
      rw [Space.setPte_self] at hp1 hf hne hw
      rw [Space.setPte_ne _ _ (fun hk => hdd hk.1)] at hp2 hf
      rw [(hexcl hx hp1 hne d2 hd2 hdd hp2 hf).1] at hw
      cases hw
    · rw [Space.setPte_ne _ _ hk1] at hp1 hf hne hw
      by_cases hk2 : d2 = d ∧ v1 = v
      · obtain ⟨rfl, rfl⟩ := hk2
        rw [Space.setPte_self] at hp2 hf
        have := hexcl hx hp2 (by rw [hf]; exact hne) d1 hd1 (Ne.symm hdd) hp1 hf.symm
        rw [this.2] at hw
        cases hw
      · rw [Space.setPte_ne _ _ hk2] at hp2 hf
        exact hdd (h.excl hx d1 v1 d2 hd1 hd2 hv1 hp1 hp2 hf hne hw)

/-! ## Moves on one user entry -/

section

variable (h : Sane A x) (hwf : A.WF) (hd : A.role d = .dir) (hv : v < userPages)
  (hf : A.role f = .held)
include h hwf hd hv hf

/-- A held frame is mapped in place of what an entry named, and the count of that
may go down by one. -/
theorem Sane.mapHeld {perm : Word} (hperm : Perm perm)
    (hrole : A'.role = (A.give f).role)
    (hpte : A'.pte = (A.setPte d v (mkPte (f * pgsize) perm)).pte) (hone : A'.count f = 1#8)
    (hcount : ∀ g, Managed g → g ≠ f →
      (A.count g).toNat ≤ (A'.count g).toNat + (names (A.pte d v) g).toNat) : Sane A' x := by
  have hm : Managed f := hwf.managed f (by rw [hf]; decide)
  have hfr : frame (mkPte (f * pgsize) perm) = f := frame_mkPte hm.lt_frames hperm
  have hno : ∀ d' v', A.role d' = .dir → v' < userPages → names (A.pte d' v') f = false :=
    fun d' v' hd' hv' => h.mapped.names_held hwf hf hd' hv'
  have hg := h.give hwf hf
  have hdir : ∀ d', (A.give f).role d' = .dir → A.role d' = .dir := fun _ =>
    Space.dir_of_update (by decide)
  have hd' : (A.give f).role d = .dir := by
    have hdf : d ≠ f := by
      rintro rfl
      rw [hd] at hf
      cases hf
    simpa [Space.give, hdf] using hd
  have habs : ∀ d' v', A.role d' = .dir → v' < userPages → flag (A.pte d' v') pteP = true →
      frame (A.pte d' v') ≠ f := by
    intro d' v' hd' hv' hp' hfr'
    have hn := hno d' v' hd' hv'
    rw [names_iff.mpr ⟨hp', hfr'⟩] at hn
    cases hn
  have hmappers : (A.give f).mappers f = 0 := by
    apply Count.refs_eq_zero.mpr
    rintro ⟨d', v'⟩ hk
    obtain ⟨hd', hv'⟩ := (hwf.give hf).mem_keys.mp hk
    exact hno d' v' (hdir d' hd') hv'
  constructor
  · have hmap : Mapped ((A.give f).setPte d v (mkPte (f * pgsize) perm)) := by
      refine hg.mapped.rewrite hv ?_ ?_ ?_
      · intro _
        rw [hfr]
        exact .inr ⟨hm, update_self ..⟩
      · intro hn
        rw [flag_mkPte_pteP] at hn
        cases hn
      · intro _ _ d' v' hd' hv' _ hp' hfr'
        rw [hfr] at hfr'
        exact absurd hfr' (habs d' v' (hdir d' hd') hv' hp')
    refine hmap.congr (fun d' hd' => by rwa [hrole] at hd') (fun d' v' _ => by rw [hpte]; rfl) ?_
    intro d' v' _ _ _ hr
    rw [hrole]
    exact hr
  · refine hg.counted.rewrite (hwf.give hf) hd' hv hrole hpte ?_ ?_
    · intro g hgm
      have hle := hg.counted.le g hgm
      by_cases hgf : g = f
      · subst hgf
        have hb := Bool.toNat_le (names (mkPte (g * pgsize) perm) g)
        rw [hmappers, hone, Nat.zero_add]
        exact le_trans hb (Nat.le_add_right _ _)
      · have hn : names (mkPte (f * pgsize) perm) g = false := by
          simp [names, hfr, Ne.symm hgf]
        rw [hn]
        exact le_trans hle (hcount g hgm hgf)
    · intro _ _ _ d' hd' _ hp' hfr'
      rw [hfr] at hfr'
      exact absurd hfr' (habs d' v (hdir d' hd') hv hp')

/-- A held frame is mapped. -/
theorem Sane.mapFresh {perm : Word} (hperm : Perm perm) :
    Sane ((A.setPte d v (mkPte (f * pgsize) perm)).give f) x :=
  h.mapHeld hwf hd hv hf hperm rfl rfl (hwf.count_one f (by rw [hf]; rfl))
    fun _ _ _ => Nat.le_add_right _ _

end

omit [Link] in
theorem toNat_succ {c : BitVec 8} (h : c ≠ 255#8) : (c + 1#8).toNat = c.toNat + 1 := by
  have h1 : c.toNat ≠ 255 := fun hc => h (by
    apply BitVec.eq_of_toNat_eq
    rw [hc]
    rfl)
  have h2 := c.isLt
  rw [BitVec.toNat_add]
  show (c.toNat + 1) % 256 = _
  omega

/-- The frame of one entry is mapped at the same page of another directory. -/
theorem Mapped.share (h : Mapped A) {d0 : Nat} (hd0 : A.role d0 = .dir) (hv : v < userPages)
    (hp0 : flag (A.pte d0 v) pteP = true) (hfr : frame w = frame (A.pte d0 v))
    (hU : flag w pteU = true → flag (A.pte d0 v) pteU = true) (hp : flag w pteP = true) :
    Mapped (A.setPte d v w) := by
  refine h.rewrite hv ?_ ?_ ?_
  · intro _
    rw [hfr]
    refine (h.user d0 v hd0 hv hp0).imp_left fun h0 => ⟨h0.1, ?_⟩
    by_contra hu
    rw [hU (Bool.not_eq_false _ ▸ hu)] at h0
    cases h0.2
  · intro hn
    rw [hp] at hn
    cases hn
  · intro _ hne d' v' hd' hv' _ hp' hfr'
    rw [hfr] at hfr' hne
    exact h.same d0 v d' v' hd0 hd' hv hv' hp0 hp' hfr' hne

/-- The count of the frame goes up with a shared entry. -/
theorem Counted.share (h : Counted A x) (hwf : A.WF) {d0 : Nat} (hd : A.role d = .dir)
    (hd0 : A.role d0 = .dir) (hv : v < userPages) (hp0 : flag (A.pte d0 v) pteP = true)
    (hfr : frame w = frame (A.pte d0 v)) (hwrap : A.count (frame w) ≠ 255#8)
    (hW : x = true → flag w pteW = false ∧ flag (A.pte d0 v) pteW = false) :
    Counted ((A.setPte d v w).setCount (frame w) (A.count (frame w) + 1#8)) x := by
  refine h.rewrite hwf hd hv rfl rfl ?_ ?_
  · intro f hm
    have hle := h.le f hm
    by_cases hf : f = frame w
    · subst hf
      have hb := Bool.toNat_le (names w (frame w))
      have hc : ((A.setPte d v w).setCount (frame w) (A.count (frame w) + 1#8)).count (frame w) =
          A.count (frame w) + 1#8 := update_self ..
      rw [hc, toNat_succ hwrap]
      exact le_trans (by omega) (Nat.le_add_right _ _)
    · have hn : names w f = false := by simp [names, Ne.symm hf]
      have hc : ((A.setPte d v w).setCount (frame w) (A.count (frame w) + 1#8)).count f =
          A.count f := update_of_ne hf ..
      rw [hn, hc]
      exact le_trans hle (Nat.le_add_right _ _)
  · intro hx _ hne d' hd' _ hp' hfr'
    refine ⟨(hW hx).1, ?_⟩
    by_contra hw
    have hw' : flag (A.pte d' v) pteW = true := Bool.not_eq_false _ ▸ hw
    -- a writable entry would be alone, but `d0` maps the frame too
    have hdd := h.excl hx d' v d0 hd' hd0 hv hp' hp0 (by rw [hfr', hfr]) (by rw [hfr']; exact hne) hw'
    rw [← hdd, (hW hx).2] at hw'
    cases hw'

section

variable (h : Sane A x) (hwf : A.WF)
include h hwf

/-- An entry gets other flags. -/
theorem Sane.reflag (hd : A.role d = .dir) (hv : v < userPages)
    (hp : flag (A.pte d v) pteP = true) (hpw : flag w pteP = true)
    (hfr : frame w = frame (A.pte d v)) (hU : flag w pteU = true → flag (A.pte d v) pteU = true)
    (hW : x = true → flag w pteW = true → frame w ≠ 0 → ∀ d', A.role d' = .dir →
      flag (A.pte d' v) pteP = true → frame (A.pte d' v) = frame w → d' = d) :
    Sane (A.setPte d v w) x := by
  refine ⟨h.mapped.share hd hv hp hfr hU hpw, ?_⟩
  refine h.counted.rewrite hwf hd hv rfl rfl ?_ ?_
  · intro f hm
    have hle := h.counted.le f hm
    have hn : names w f = names (A.pte d v) f := by simp [names, hp, hpw, hfr]
    rw [hn]
    exact Nat.add_le_add_right hle _
  · intro hx _ hne d' hd' hdd hp' hfr'
    constructor
    · by_contra hw
      exact hdd (hW hx (Bool.not_eq_false _ ▸ hw) hne d' hd' hp' hfr')
    · by_contra hw
      have := h.counted.excl hx d' v d hd' hd hv hp' hp (by rw [hfr', hfr])
        (by rw [hfr']; exact hne) (Bool.not_eq_false _ ▸ hw)
      exact hdd this.symm

/-- An entry is cleared. -/
theorem Sane.clear (hd : A.role d = .dir) (hv : v < userPages) :
    Sane (A.setPte d v 0#32) x := by
  constructor
  · refine h.mapped.rewrite hv ?_ (fun _ => rfl) ?_
    · intro hn
      rw [flag_zero] at hn
      cases hn
    · intro hn
      rw [flag_zero] at hn
      cases hn
  · refine h.counted.rewrite hwf hd hv rfl rfl ?_ ?_
    · intro f hm
      rw [names_zero]
      exact le_trans (h.counted.le f hm) (Nat.le_add_right _ _)
    · intro _ hn
      rw [flag_zero] at hn
      cases hn

/-- An entry of the kernel half. -/
theorem Sane.kernelPte {t : Nat} (hv : userPages ≤ v)
    (ht : A.tab d (v / npdentries) = some t) (hw : flag w pteU = false ∧ flag w pteCow = false) :
    Sane (A.setPte d v w) x := by
  have hne : ∀ d' v', v' < userPages → (A.setPte d v w).pte d' v' = A.pte d' v' :=
    fun d' v' hv' => Space.setPte_ne _ _ (by omega)
  constructor
  · constructor
    · intro d' v' hd' hv' hp
      rw [hne d' v' hv'] at hp ⊢
      exact h.mapped.user d' v' hd' hv' hp
    · intro d' v' hd' hv' hp
      rw [hne d' v' hv'] at hp ⊢
      exact h.mapped.absent d' v' hd' hv' hp
    · intro d' v' hd' hv1 hv2 hp
      by_cases hk : d' = d ∧ v' = v
      · obtain ⟨rfl, rfl⟩ := hk
        rw [Space.setPte_self]
        exact hw
      · rw [Space.setPte_ne _ _ hk] at hp ⊢
        exact h.mapped.kern d' v' hd' hv1 hv2 hp
    · intro d1 v1 d2 v2 hd1 hd2 hv1 hv2 hp1 hp2 hf hne'
      rw [hne d1 v1 hv1] at hp1 hf hne'
      rw [hne d2 v2 hv2] at hp2 hf
      exact h.mapped.same d1 v1 d2 v2 hd1 hd2 hv1 hv2 hp1 hp2 hf hne'
  · exact h.counted.congr h.mapped hwf (hwf.setPte w ht) (fun _ hd' => hd')
      (fun d' v' _ hv' => hne d' v' hv') (fun _ _ _ => rfl)

/-- An empty directory. -/
theorem Sane.addDir (hd : A.role d = .held) : Sane (A.addDir d) x := by
  have hself : ∀ v, (A.addDir d).pte d v = 0#32 := fun v => if_pos rfl
  have hother : ∀ d' v, d' ≠ d → (A.addDir d).pte d' v = A.pte d' v := fun d' v hne => if_neg hne
  have hdir : ∀ d', (A.addDir d).role d' = .dir → d' ≠ d → A.role d' = .dir := by
    intro d' hd' hne
    simpa [Space.addDir, hne] using hd'
  have hp : ∀ d' v, flag ((A.addDir d).pte d' v) pteP = true → d' ≠ d := by
    rintro d' v hp rfl
    rw [hself, flag_zero] at hp
    cases hp
  constructor
  · constructor
    · intro d' v hd' hv hp'
      have hne := hp d' v hp'
      rw [hother d' v hne] at hp' ⊢
      refine (h.mapped.user d' v (hdir d' hd' hne) hv hp').imp_right fun hr => ⟨hr.1, ?_⟩
      have hfd : frame (A.pte d' v) ≠ d := by
        intro he
        rw [he, hd] at hr
        cases hr.2
      simpa [Space.addDir, hfd] using hr.2
    · intro d' v hd' hv hp'
      by_cases hne : d' = d
      · subst hne
        exact hself v
      · rw [hother d' v hne] at hp' ⊢
        exact h.mapped.absent d' v (hdir d' hd' hne) hv hp'
    · intro d' v hd' hv1 hv2 hp'
      have hne := hp d' v hp'
      rw [hother d' v hne] at hp' ⊢
      exact h.mapped.kern d' v (hdir d' hd' hne) hv1 hv2 hp'
    · intro d1 v1 d2 v2 hd1 hd2 hv1 hv2 hp1 hp2 hf hne
      have hne1 := hp d1 v1 hp1
      have hne2 := hp d2 v2 hp2
      rw [hother d1 v1 hne1] at hp1 hf hne
      rw [hother d2 v2 hne2] at hp2 hf
      exact h.mapped.same d1 v1 d2 v2 (hdir d1 hd1 hne1) (hdir d2 hd2 hne2) hv1 hv2 hp1 hp2 hf hne
  · constructor
    · intro f hm
      have hmap : (A.addDir d).mappers f ≤ A.mappers f := by
        apply Finset.card_le_card
        rintro ⟨d', v⟩ hk
        rw [Finset.mem_filter] at hk ⊢
        obtain ⟨hd', hv⟩ := (hwf.addDir hd).mem_keys.mp hk.1
        have hn : names ((A.addDir d).pte d' v) f = true := hk.2
        have hne := hp d' v (names_iff.mp hn).1
        rw [hother d' v hne] at hn
        exact ⟨hwf.mem_keys.mpr ⟨hdir d' hd' hne, hv⟩, hn⟩
      exact le_trans hmap (h.counted.le f hm)
    · intro hx d1 v1 d2 hd1 hd2 hv1 hp1 hp2 hf hne hw
      have hne1 := hp d1 v1 hp1
      have hne2 := hp d2 v1 hp2
      rw [hother d1 v1 hne1] at hp1 hf hne hw
      rw [hother d2 v1 hne2] at hp2 hf
      exact h.counted.excl hx d1 v1 d2 (hdir d1 hd1 hne1) (hdir d2 hd2 hne2) hv1 hp1 hp2 hf hne hw

end

end Xv6
