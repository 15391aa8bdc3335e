import Xv6.Machine.Refs
import Xv6.Machine.Skip

/-!
# Giving memory back

`unmap` is what `deallocuvm` and `wunmap` do to one page: `kfree` its frame, which
frees it only when its count is at most one, and clear the entry.  The loops over
pages refine `unmapAll`.  `freevm` then retires the directory and pushes its page
tables and itself.

The refinement asks only that the pages of the directory name distinct data frames
(`Clean`).  That the result is again sane needs the counts: a frame that is freed
must have no other entry.
-/

namespace Xv6

open Prog Function

variable {d v d' f : Nat} {vs : List Nat} {F : Fault → Prop}

/-! ## One page -/

/-- Release the page `v` of the directory `d`. -/
def Space.unmap (A : Space) (d v : Nat) : Space :=
  if flag (A.pte d v) pteP then
    if 1 < (A.count (frame (A.pte d v))).toNat then A.setPte d v 0#32
    else (A.push (frame (A.pte d v))).setPte d v 0#32
  else A

/-- Release pages one after the other. -/
def Space.unmapAll (A : Space) (d : Nat) : List Nat → Space
  | [] => A
  | v :: vs => (A.unmap d v).unmapAll d vs

namespace Space

variable {A : Space}

theorem unmap_absent (h : flag (A.pte d v) pteP = false) : A.unmap d v = A := by
  rw [unmap, h, if_neg (by decide)]

section

variable (A)

@[simp] theorem unmap_tab (d v : Nat) : (A.unmap d v).tab = A.tab := by
  unfold unmap
  split
  · split <;> rfl
  · rfl

@[simp] theorem unmap_count (d v : Nat) : (A.unmap d v).count = A.count := by
  unfold unmap
  split
  · split <;> rfl
  · rfl

theorem unmap_pte_ne {v' : Nat} (h : ¬ (d' = d ∧ v' = v)) :
    (A.unmap d v).pte d' v' = A.pte d' v' := by
  unfold unmap
  split
  · split
    · exact setPte_ne _ _ h
    · exact setPte_ne _ _ h
  · rfl

/-- After the release the page is not present. -/
theorem unmap_pte_self (d v : Nat) :
    flag ((A.unmap d v).pte d v) pteP = false := by
  unfold unmap
  split
  · split
    · rw [setPte_self, flag_zero]
    · rw [setPte_self, flag_zero]
  · rename_i h
    simpa using h

/-- A frame changes its role only by going to the free list from the page. -/
theorem unmap_role (d v f : Nat) : (A.unmap d v).role f = A.role f ∨
    (A.unmap d v).role f = .free ∧ names (A.pte d v) f = true ∧ ¬ 1 < (A.count f).toNat := by
  unfold unmap
  split
  · rename_i hp
    split
    · exact .inl rfl
    · rename_i hc
      by_cases hf : f = frame (A.pte d v)
      · subst hf
        exact .inr ⟨update_self .., names_iff.mpr ⟨hp, rfl⟩, hc⟩
      · exact .inl (update_of_ne hf ..)
  · exact .inl rfl

@[simp] theorem unmapAll_tab (d : Nat) (vs : List Nat) :
    (A.unmapAll d vs).tab = A.tab := by
  induction vs generalizing A with
  | nil => rfl
  | cons v vs ih => rw [unmapAll, ih, unmap_tab]

@[simp] theorem unmapAll_count (d : Nat) (vs : List Nat) :
    (A.unmapAll d vs).count = A.count := by
  induction vs generalizing A with
  | nil => rfl
  | cons v vs ih => rw [unmapAll, ih, unmap_count]

theorem unmapAll_pte_ne (h : ¬ (d' = d ∧ v ∈ vs)) :
    (A.unmapAll d vs).pte d' v = A.pte d' v := by
  induction vs generalizing A with
  | nil => rfl
  | cons u us ih =>
    have h1 : ¬ (d' = d ∧ v ∈ us) := fun hk => h ⟨hk.1, List.mem_cons_of_mem _ hk.2⟩
    have h2 : ¬ (d' = d ∧ v = u) := fun hk => h ⟨hk.1, by rw [hk.2]; exact List.mem_cons_self⟩
    rw [unmapAll, ih _ h1, unmap_pte_ne _ h2]

theorem unmapAll_pte_mem (h : v ∈ vs) :
    flag ((A.unmapAll d vs).pte d v) pteP = false := by
  induction vs generalizing A with
  | nil => cases h
  | cons u us ih =>
    rw [unmapAll]
    by_cases hv : v ∈ us
    · exact ih _ hv
    · rw [unmapAll_pte_ne _ fun hk => hv hk.2]
      rcases List.mem_cons.mp h with rfl | h
      · exact unmap_pte_self A d v
      · exact absurd h hv

/-- Pages that are not present are passed over. -/
theorem unmapAll_absent (d : Nat) (vs : List Nat)
    (h : ∀ v ∈ vs, flag (A.pte d v) pteP = false) : A.unmapAll d vs = A := by
  induction vs with
  | nil => rfl
  | cons v vs ih =>
    rw [unmapAll, unmap_absent (h v List.mem_cons_self)]
    exact ih fun u hu => h u (List.mem_cons_of_mem _ hu)

/-- A role changes only from a page of the list to the free list. -/
theorem unmapAll_role (d : Nat) (vs : List Nat) (f : Nat) :
    (A.unmapAll d vs).role f = A.role f ∨ (A.unmapAll d vs).role f = .free ∧
      (∃ v ∈ vs, names (A.pte d v) f = true) ∧ ¬ 1 < (A.count f).toNat := by
  induction vs generalizing A with
  | nil => exact .inl rfl
  | cons v vs ih =>
    rw [unmapAll]
    rcases ih (A.unmap d v) with he | ⟨hfree, ⟨u, hu, hn⟩, hc⟩
    · rw [he]
      rcases A.unmap_role d v f with hr | ⟨hr, hn, hc⟩
      · exact .inl hr
      · exact .inr ⟨hr, ⟨v, List.mem_cons_self, hn⟩, hc⟩
    · rw [unmap_count] at hc
      refine .inr ⟨hfree, ⟨u, List.mem_cons_of_mem _ hu, ?_⟩, hc⟩
      by_cases huv : u = v
      · subst huv
        rw [names_iff, unmap_pte_self] at hn
        cases hn.1
      · rwa [unmap_pte_ne _ fun hk => huv hk.2] at hn

end

end Space

variable [Link] {A : Space} {x : Bool} {m : Mem}

/-- The pages of a list name distinct data frames, or frame 0. -/
structure Clean (A : Space) (d : Nat) (vs : List Nat) : Prop where
  user : ∀ v ∈ vs, flag (A.pte d v) pteP = true → frame (A.pte d v) ≠ 0 →
    Managed (frame (A.pte d v)) ∧ A.role (frame (A.pte d v)) = .data
  inj : ∀ u ∈ vs, ∀ v ∈ vs, flag (A.pte d u) pteP = true → flag (A.pte d v) pteP = true →
    frame (A.pte d u) = frame (A.pte d v) → frame (A.pte d u) ≠ 0 → u = v

theorem Mapped.clean (h : Mapped A) (hd : A.role d = .dir) (hvs : ∀ v ∈ vs, v < userPages) :
    Clean A d vs := by
  constructor
  · intro v hv hp hne
    rcases h.user d v hd (hvs v hv) hp with ⟨h0, _⟩ | hr
    · exact absurd h0 hne
    · exact hr
  · intro u hu v hv hpu hpv hf hne
    exact h.same d v d u hd hd (hvs v hv) (hvs u hu) hpv hpu hf (by rw [← hf]; exact hne)

omit [Link] in
theorem unmap_dir (hd : A.role d = .dir)
    (hdata : flag (A.pte d v) pteP = true → A.role (frame (A.pte d v)) = .data) :
    (A.unmap d v).role d = .dir := by
  rcases A.unmap_role d v d with hr | ⟨_, hn, _⟩
  · rw [hr, hd]
  · obtain ⟨hp, hf⟩ := names_iff.mp hn
    have hr := hdata hp
    rw [hf, hd] at hr
    cases hr

theorem Clean.tail (h : Clean A d (v :: vs)) : Clean (A.unmap d v) d vs := by
  have hkeep : ∀ u ∈ vs, flag ((A.unmap d v).pte d u) pteP = true →
      u ≠ v ∧ (A.unmap d v).pte d u = A.pte d u := by
    intro u _ hp
    have huv : u ≠ v := by
      rintro rfl
      rw [A.unmap_pte_self d u] at hp
      cases hp
    exact ⟨huv, A.unmap_pte_ne fun hk => huv hk.2⟩
  constructor
  · intro u hu hp hne
    obtain ⟨huv, he⟩ := hkeep u hu hp
    rw [he] at hp hne ⊢
    have hus := List.mem_cons_of_mem v hu
    obtain ⟨hm, hr⟩ := h.user u hus hp hne
    refine ⟨hm, ?_⟩
    rcases A.unmap_role d v (frame (A.pte d u)) with hr' | ⟨_, hn, _⟩
    · rw [hr', hr]
    · obtain ⟨hpv, hf⟩ := names_iff.mp hn
      exact absurd (h.inj u hus v List.mem_cons_self hp hpv hf.symm hne) huv
  · intro u hu u' hu' hp hp' hf hne
    obtain ⟨_, he⟩ := hkeep u hu hp
    obtain ⟨_, he'⟩ := hkeep u' hu' hp'
    rw [he] at hp hf hne
    rw [he'] at hp' hf
    exact h.inj u (List.mem_cons_of_mem v hu) u' (List.mem_cons_of_mem v hu') hp hp' hf hne

/-! ## The loop of `deallocuvm` -/

/-- The pages of user data are as before. -/
def KeepData (A : Space) (m m' : Mem) : Prop := ∀ g, A.role g = .data → m'.page g = m.page g

/-- `kfree` of the frame of a page, before its entry is cleared. -/
theorem Rep.unmap (h : Rep m A) {t : Nat} (hd : A.role d = .dir) (hv : v < npdentries * npdentries)
    (ht : A.tab d (v / npdentries) = some t) (hp : flag (A.pte d v) pteP = true)
    (hm : Managed (frame (A.pte d v))) (hr : A.role (frame (A.pte d v)) = .data) :
    wp (kfree (kva (frame (A.pte d v))))
      (fun _ m' => Rep (m'.setPage t (setWord (m'.page t) (v % npdentries) 0#32)) (A.unmap d v) ∧
        KeepData (A.unmap d v) m (m'.setPage t (setWord (m'.page t) (v % npdentries) 0#32)))
      F m := by
  have htab := h.table_role hd hv ht
  rw [wp_kfree hm, h.count, Space.unmap, if_pos hp]
  split
  · refine ⟨h.setPte 0#32 hd hv ht, ?_⟩
    intro g hg
    refine Mem.setPage_ne _ _ ?_
    rintro rfl
    rw [Space.setPte_role, htab] at hg
    cases hg
  · have hd' : (A.push (frame (A.pte d v))).role d = .dir := by
      have hne : d ≠ frame (A.pte d v) := by
        intro he
        rw [← he, hd] at hr
        cases hr
      rw [← hd]
      exact update_of_ne hne ..
    refine ⟨(h.push hm (.inr hr)).setPte 0#32 hd' hv ht, ?_⟩
    intro g hg
    rw [Space.setPte_role] at hg
    have hgf : g ≠ frame (A.pte d v) := by
      rintro rfl
      rw [show (A.push _).role _ = .free from update_self ..] at hg
      cases hg
    have hgr : A.role g = .data := (update_of_ne hgf ..).symm.trans hg
    have hgt : g ≠ t := by
      rintro rfl
      rw [htab] at hgr
      cases hgr
    exact (Mem.setPage_ne _ _ hgt).trans (Mem.setPage_ne _ _ hgf)

/-- No page of a list names frame 0. -/
def NonZero (A : Space) (d : Nat) (vs : List Nat) : Prop :=
  ∀ v ∈ vs, flag (A.pte d v) pteP = true → frame (A.pte d v) ≠ 0

section

omit [Link]

theorem NonZero.tail (h : NonZero A d (v :: vs)) : NonZero (A.unmap d v) d vs := by
  intro u hu hp
  have huv : u ≠ v := by
    rintro rfl
    rw [A.unmap_pte_self d u] at hp
    cases hp
  rw [A.unmap_pte_ne fun hk => huv hk.2] at hp ⊢
  exact h u (List.mem_cons_of_mem v hu) hp

theorem NonZero.cons (h : NonZero (A.unmap d v) d vs)
    (hv : flag (A.pte d v) pteP = true → frame (A.pte d v) ≠ 0) : NonZero A d (v :: vs) := by
  intro u hu hp
  by_cases huv : u = v
  · subst huv
    exact hv hp
  · rcases List.mem_cons.mp hu with hu | hu
    · exact absurd hu huv
    · have := h u hu
      rw [A.unmap_pte_ne fun hk => huv hk.2] at this
      exact this hp

theorem Clean.mono [Link] {us : List Nat} (h : Clean A d vs) (hs : us ⊆ vs) : Clean A d us :=
  ⟨fun v hv => h.user v (hs hv), fun u hu v hv => h.inj u (hs hu) v (hs hv)⟩

theorem pteAddr_eq_zero (w : Word) : pteAddr w = 0 ↔ frame w = 0 := by
  rw [pteAddr_eq, pgsize_eq]
  omega

theorem userPages_lt (hv : v < userPages) : v < npdentries * npdentries := by
  rw [userPages_eq] at hv
  rw [npdentries_eq]
  omega

end

/-- The frames of the present pages of a list. -/
def Space.handed (A : Space) (d : Nat) (vs : List Nat) : List Nat :=
  (vs.filter fun v => flag (A.pte d v) pteP).map fun v => frame (A.pte d v)

theorem Rep.releasePage (h : Rep m A) (hd : A.role d = .dir) (hv : v < userPages)
    (hclean : Clean A d (v :: vs)) (hzero : F (.panic "kfree") ∨ NonZero A d (v :: vs)) :
    wp (Xv6.releasePage d (v * pgsize))
      (fun f m' => f.toList = A.handed d [v] ∧ Rep m' (A.unmap d v) ∧
        KeepData (A.unmap d v) m m' ∧ (A.unmap d v).role d = .dir ∧
        (flag (A.pte d v) pteP = true → frame (A.pte d v) ≠ 0)) F m := by
  have hv' := userPages_lt hv
  have hva := page_lt_uintSize (userPages_lt hv)
  have habsent (hp : flag (A.pte d v) pteP = false) :
      [] = A.handed d [v] ∧ Rep m (A.unmap d v) ∧ KeepData (A.unmap d v) m m ∧
        (A.unmap d v).role d = .dir ∧ (flag (A.pte d v) pteP = true → frame (A.pte d v) ≠ 0) := by
    rw [Space.unmap_absent hp, hp]
    exact ⟨by simp [Space.handed, hp], h, fun _ _ => rfl, hd, nofun⟩
  unfold Xv6.releasePage
  rw [wp_bind, h.wp_walk hd hva, mul_pgsize_div]
  cases ht : A.tab d (v / npdentries) with
  | none =>
    refine (wp_pure ..).mpr (habsent ?_)
    rw [h.wf.tab_none d v hd hv' ht, flag_zero]
  | some t =>
    simp only [Option.map_some]
    rw [wp_bind, h.wp_load hd hv' ht, wp_ite]
    cases hp : flag (A.pte d v) pteP with
    | false =>
      rw [hp] at habsent
      exact (wp_pure ..).mpr (habsent rfl)
    | true =>
      rw [if_pos rfl, wp_ite]
      split
      · rename_i h0
        rw [wp_panic]
        refine hzero.resolve_right fun hne => ?_
        exact hne v List.mem_cons_self hp ((pteAddr_eq_zero _).mp h0)
      · rename_i h0
        have hne : frame (A.pte d v) ≠ 0 := fun hz => h0 ((pteAddr_eq_zero _).mpr hz)
        obtain ⟨hm, hr⟩ := hclean.user v List.mem_cons_self hp hne
        rw [p2v_pteAddr, wp_bind]
        refine wp_post (h.unmap hd hv' ht hp hm hr) ?_
        rintro _ m' ⟨hrep, hkeep⟩
        rw [wp_bind, wp_store, wp_pure]
        refine ⟨?_, hrep, hkeep, unmap_dir hd fun _ => hr, fun _ => hne⟩
        simp [Space.handed, hp]

/-- The loop over the pages of a list. -/
theorem Rep.releasePages (vs : List Nat) :
    ∀ {m : Mem} {A : Space}, Rep m A → A.role d = .dir → (∀ v ∈ vs, v < userPages) → vs.Nodup →
      Clean A d vs → (F (.panic "kfree") ∨ NonZero A d vs) →
      wp (Xv6.releasePages d vs)
        (fun fs m' => fs = A.handed d vs ∧ Rep m' (A.unmapAll d vs) ∧ NonZero A d vs ∧
          KeepData (A.unmapAll d vs) m m') F m := by
  induction vs with
  | nil =>
    intro m A h _ _ _ _ _
    rw [Xv6.releasePages, wp_pure]
    exact ⟨rfl, h, fun _ hv => absurd hv List.not_mem_nil, fun _ _ => rfl⟩
  | cons v vs ih =>
    intro m A h hd hlt hnodup hclean hzero
    obtain ⟨hv, hvs⟩ := List.forall_mem_cons.mp hlt
    obtain ⟨hnot, hnodup⟩ := List.nodup_cons.mp hnodup
    rw [Xv6.releasePages, wp_bind]
    refine wp_post (h.releasePage hd hv hclean hzero) ?_
    rintro f m1 ⟨hf, h1, hkeep1, hd1, hne⟩
    rw [wp_bind]
    refine wp_post (ih h1 hd1 hvs hnodup hclean.tail (hzero.imp_right NonZero.tail)) ?_
    rintro fs m2 ⟨hfs, h2, hz, hkeep2⟩
    rw [wp_pure]
    refine ⟨?_, h2, hz.cons hne, fun g hg => (hkeep2 g hg).trans (hkeep1 g ?_)⟩
    · have hsame : (A.unmap d v).handed d vs = A.handed d vs := by
        have hpte : ∀ u ∈ vs, (A.unmap d v).pte d u = A.pte d u := fun u hu =>
          A.unmap_pte_ne fun hk => hnot (hk.2 ▸ hu)
        unfold Space.handed
        rw [List.filter_congr fun u hu => by rw [hpte u hu]]
        exact List.map_congr_left fun u hu => by rw [hpte u (List.mem_filter.mp hu).1]
      rw [hf, hfs, hsame]
      unfold Space.handed
      rw [← List.map_append, ← List.filter_append]
      rfl
    · rcases (A.unmap d v).unmapAll_role d vs g with hr | ⟨hr, -, -⟩
      · rw [← hr]
        exact hg
      · rw [show (A.unmapAll d (v :: vs)).role g = .free from hr] at hg
        cases hg

omit [Link] in
theorem pagesBetween_lt {lo hi : Nat} (hhi : hi ≤ kernbase) (hv : v ∈ pagesBetween lo hi) :
    v < userPages := by
  rw [pagesBetween, List.mem_range'_1, npages, npages, pgsize_eq] at hv
  rw [kernbase_eq] at hhi
  rw [userPages_eq]
  omega

theorem Rep.deallocuvm (h : Rep m A) {oldsz newsz : Nat} (hd : A.role d = .dir)
    (hsz : oldsz ≤ kernbase) (hlt : newsz < oldsz) (hclean : Clean A d (pagesBetween newsz oldsz))
    (hzero : F (.panic "kfree") ∨ NonZero A d (pagesBetween newsz oldsz)) :
    wp (Xv6.deallocuvm d oldsz newsz)
      (fun r m' => r = newsz ∧ Rep m' (A.unmapAll d (pagesBetween newsz oldsz)) ∧
        NonZero A d (pagesBetween newsz oldsz) ∧
        KeepData (A.unmapAll d (pagesBetween newsz oldsz)) m m') F m := by
  rw [deallocuvm_eq d hlt, wp_bind]
  refine wp_post (Rep.releasePages _ h hd (fun _ => pagesBetween_lt hsz) List.nodup_range' hclean
    hzero) ?_
  rintro fs m' ⟨-, hpost⟩
  rw [wp_pure]
  exact ⟨rfl, hpost⟩

/-! ## Sanity after a release -/

theorem Mapped.table_of_present (hwf : A.WF) (hd : A.role d = .dir)
    (hv : v < npdentries * npdentries) (hp : flag (A.pte d v) pteP = true) :
    ∃ t, A.tab d (v / npdentries) = some t := by
  cases ht : A.tab d (v / npdentries) with
  | some t => exact ⟨t, rfl⟩
  | none =>
    rw [hwf.tab_none d v hd hv ht, flag_zero] at hp
    cases hp

theorem Sane.unmap (h : Sane A x) (hwf : A.WF) (hd : A.role d = .dir) (hv : v < userPages)
    (hne : flag (A.pte d v) pteP = true → frame (A.pte d v) ≠ 0) :
    (A.unmap d v).WF ∧ (A.unmap d v).role d = .dir ∧ Sane (A.unmap d v) x := by
  cases hp : flag (A.pte d v) pteP with
  | false =>
    rw [Space.unmap_absent hp]
    exact ⟨hwf, hd, h⟩
  | true =>
    obtain ⟨t, ht⟩ := Mapped.table_of_present hwf hd (userPages_lt hv) hp
    have hu : Managed (frame (A.pte d v)) ∧ A.role (frame (A.pte d v)) = .data := by
      rcases h.mapped.user d v hd hv hp with ⟨h0, _⟩ | hr
      · exact absurd h0 (hne hp)
      · exact hr
    refine ⟨?_, unmap_dir hd fun _ => hu.2, ?_⟩
    · rw [Space.unmap, if_pos hp]
      split
      · exact hwf.setPte 0#32 ht
      · exact (hwf.push hu.1 (.inr hu.2)).setPte 0#32 ht
    · rw [Space.unmap, if_pos hp]
      split
      · exact h.clear hwf hd hv
      · rename_i hc
        -- the entry was the only one, and it is cleared first
        refine (h.clear hwf hd hv).push (hwf.setPte 0#32 ht) hu.1 (.inr hu.2) ?_
        intro d' v' hd' hv'
        by_cases hk : d' = d ∧ v' = v
        · rw [hk.1, hk.2, Space.setPte_self, names_zero]
        · rw [Space.setPte_ne _ _ hk]
          by_contra hn
          exact hk (h.counted.alone hwf hu.1 (by omega) hd hv (names_iff.mpr ⟨hp, rfl⟩) hd' hv'
            (Bool.not_eq_false _ ▸ hn))

theorem Sane.unmapAll (h : Sane A x) (hwf : A.WF) (hd : A.role d = .dir)
    (hvs : ∀ v ∈ vs, v < userPages) (hne : NonZero A d vs) :
    (A.unmapAll d vs).WF ∧ (A.unmapAll d vs).role d = .dir ∧ Sane (A.unmapAll d vs) x := by
  induction vs generalizing A with
  | nil => exact ⟨hwf, hd, h⟩
  | cons v vs ih =>
    obtain ⟨hwf', hd', h'⟩ := h.unmap hwf hd (hvs v List.mem_cons_self)
      (hne v List.mem_cons_self)
    exact ih h' hwf' hd' (fun u hu => hvs u (List.mem_cons_of_mem v hu)) hne.tail

/-- The directories stay. -/
theorem Mapped.unmapAll_dir (h : Mapped A) (hwf : A.WF) (hd : A.role d = .dir)
    (hvs : ∀ v ∈ vs, v < userPages) (hd' : A.role d' = .dir) :
    (A.unmapAll d vs).role d' = .dir := by
  rcases A.unmapAll_role d vs d' with hr | ⟨_, ⟨v, hv, hn⟩, _⟩
  · rw [hr, hd']
  · obtain ⟨hp, hf⟩ := names_iff.mp hn
    have hm := hwf.managed d' (by rw [hd']; decide)
    rcases h.user d v hd (hvs v hv) hp with ⟨h0, _⟩ | ⟨_, hr⟩
    · have := hm.pos
      omega
    · rw [hf, hd'] at hr
      cases hr

omit [Link] in
/-- A page with a count of at most one gives its frame to the free list. -/
theorem Space.unmapAll_freed (A : Space) (hv : v ∈ vs) (hp : flag (A.pte d v) pteP = true)
    (hc : ¬ 1 < (A.count (frame (A.pte d v))).toNat) :
    (A.unmapAll d vs).role (frame (A.pte d v)) = .free := by
  induction vs generalizing A with
  | nil => cases hv
  | cons u us ih =>
    rw [Space.unmapAll]
    by_cases huv : v = u
    · subst huv
      have hfree : (A.unmap d v).role (frame (A.pte d v)) = .free := by
        rw [Space.unmap, if_pos hp, if_neg hc]
        exact update_self ..
      rcases (A.unmap d v).unmapAll_role d us (frame (A.pte d v)) with hr | ⟨hr, _⟩
      · rw [hr, hfree]
      · exact hr
    · rcases List.mem_cons.mp hv with hv | hv
      · exact absurd hv huv
      · have he : (A.unmap d u).pte d v = A.pte d v := A.unmap_pte_ne fun hk => huv hk.2
        have := ih (A.unmap d u) hv (by rw [he]; exact hp) (by rw [he, Space.unmap_count]; exact hc)
        rwa [he] at this

/-! ## `freevm` -/

/-- Put frames on the free list one after the other. -/
def Space.pushAll (A : Space) : List Nat → Space
  | [] => A
  | f :: fs => (A.push f).pushAll fs

/-- The page tables of a directory. -/
def Space.tables (A : Space) (d : Nat) : List Nat := (List.range npdentries).filterMap (A.tab d)

/-- The pages of the user half. -/
@[irreducible] def allPages : List Nat := List.range userPages

omit [Link] in
theorem mem_allPages : v ∈ allPages ↔ v < userPages := by
  unfold allPages
  exact List.mem_range

omit [Link] in
theorem pagesBetween_all : pagesBetween 0 kernbase = allPages := by
  unfold allPages
  rw [pagesBetween, List.range_eq_range', show npages 0 = 0 by decide,
    show npages kernbase = userPages by decide, Nat.sub_zero]

/-- Release the user pages, the page tables and the directory. -/
def Space.freevm (A : Space) (d : Nat) : Space :=
  (((A.unmapAll d allPages).retire d).pushAll (A.tables d)).push d

namespace Space

section

omit [Link]

@[simp] theorem pushAll_count (A : Space) (fs : List Nat) : (A.pushAll fs).count = A.count := by
  induction fs generalizing A with
  | nil => rfl
  | cons f fs ih => exact ih _

@[simp] theorem pushAll_pte (A : Space) (fs : List Nat) : (A.pushAll fs).pte = A.pte := by
  induction fs generalizing A with
  | nil => rfl
  | cons f fs ih => exact ih _

theorem pushAll_free (A : Space) (fs : List Nat) : (A.pushAll fs).free = fs.reverse ++ A.free := by
  induction fs generalizing A with
  | nil => rfl
  | cons f fs ih =>
    rw [pushAll, ih, push_free, List.reverse_cons, List.append_assoc]
    rfl

theorem pushAll_role (A : Space) (fs : List Nat) (f : Nat) :
    (A.pushAll fs).role f = if f ∈ fs then .free else A.role f := by
  induction fs generalizing A with
  | nil => rfl
  | cons g gs ih =>
    rw [pushAll, ih]
    by_cases hg : f = g
    · subst hg
      simp [push]
    · simp [push, hg]

end

end Space

theorem Space.WF.mem_tables (hwf : A.WF) (hd : A.role d = .dir) (hf : f ∈ A.tables d) :
    ∃ i, A.role f = .table d i := by
  obtain ⟨i, hi, ht⟩ := List.mem_filterMap.mp hf
  exact ⟨i, hwf.tab_role d i f hd (List.mem_range.mp hi) ht⟩

theorem Space.WF.tables_of_role (hwf : A.WF) {i : Nat} (hf : A.role f = .table d i) :
    f ∈ A.tables d := by
  obtain ⟨_, hi, ht⟩ := hwf.role_tab f d i hf
  exact List.mem_filterMap.mpr ⟨i, List.mem_range.mpr hi, ht⟩

/-- The loop of `freevm` over the slots of the directory.  The directory itself is
still held, with its words as they were. -/
theorem Rep.freeTables {tab : Nat → Option Nat} (is : List Nat) :
    ∀ {m : Mem} {B : Space}, Rep m B → B.role d = .held → (is.filterMap tab).Nodup →
      (∀ t ∈ is.filterMap tab, B.role t = .held ∧ t ≠ d) →
      (∀ i ∈ is, word (m.page d) i = pdeWord (tab i)) →
      wp (is.forM fun i => do
          let pde ← loadWord d i
          if flag pde pteP then kfree (p2v (pteAddr pde)) else pure ())
        (fun _ m' => Rep m' (B.pushAll (is.filterMap tab)) ∧
          ∀ g, g ∉ is.filterMap tab → m'.page g = m.page g) F m := by
  induction is with
  | nil =>
    intro m B h _ _ _ _
    rw [List.forM_eq_forM, List.forM_nil, wp_pure]
    exact ⟨h, fun _ _ => rfl⟩
  | cons i is ih =>
    intro m B h hd hnodup hheld hword
    have hrest : ∀ j ∈ is, word (m.page d) j = pdeWord (tab j) :=
      fun j hj => hword j (List.mem_cons_of_mem i hj)
    rw [List.forM_eq_forM, List.forM_cons, wp_bind, wp_bind]
    unfold loadWord
    rw [wp_bind, wp_get, wp_pure, hword i List.mem_cons_self, wp_ite]
    cases ht : tab i with
    | none =>
      rw [List.filterMap_cons_none ht] at hnodup hheld ⊢
      rw [flag_pdeWord_none, if_neg (by decide), wp_pure]
      exact ih h hd hnodup hheld hrest
    | some t =>
      rw [List.filterMap_cons_some ht] at hnodup hheld ⊢
      obtain ⟨htr, htd⟩ := hheld t List.mem_cons_self
      have hm : Managed t := h.wf.managed t (by rw [htr]; decide)
      have hone : B.count t = 1#8 := h.wf.count_one t (by rw [htr]; rfl)
      rw [List.nodup_cons] at hnodup
      rw [flag_pdeWord_some, if_pos rfl, p2v_pteAddr, frame_pdeWord hm, wp_kfree hm, h.count,
        hone, if_neg (by decide)]
      refine wp_post (ih (h.push hm (.inl htr)) ?_ hnodup.2 ?_ ?_) ?_
      · rw [← hd]
        exact update_of_ne (Ne.symm htd) ..
      · intro u hu
        obtain ⟨hur, hud⟩ := hheld u (List.mem_cons_of_mem t hu)
        refine ⟨?_, hud⟩
        rw [← hur]
        exact update_of_ne (by rintro rfl; exact hnodup.1 hu) ..
      · intro j hj
        rw [show (m.push t).page d = m.page d from Mem.setPage_ne _ _ (Ne.symm htd)]
        exact hrest j hj
      · rintro _ m' ⟨hrep, hkeep⟩
        refine ⟨hrep, fun g hg => ?_⟩
        rw [List.mem_cons, not_or] at hg
        exact (hkeep g hg.2).trans (Mem.setPage_ne _ _ hg.1)

theorem Space.WF.tables_nodup (hwf : A.WF) (hd : A.role d = .dir) : (A.tables d).Nodup := by
  unfold Space.tables
  rw [List.Nodup, List.pairwise_filterMap]
  refine List.nodup_range.imp_of_mem ?_
  intro i j hi hj hne t ht u hu htu
  subst htu
  have h1 := hwf.tab_role d i t hd (List.mem_range.mp hi) ht
  have h2 := hwf.tab_role d j t hd (List.mem_range.mp hj) hu
  rw [h1] at h2
  injection h2 with _ hij
  exact hne hij

theorem Rep.freevm (h : Rep m A) (hd : A.role d = .dir) (hclean : Clean A d allPages)
    (hzero : F (.panic "kfree") ∨ NonZero A d allPages) :
    wp (Xv6.freevm d)
      (fun _ m' => Rep m' (A.freevm d) ∧ NonZero A d allPages ∧ KeepData (A.freevm d) m m') F m := by
  have hm : Managed d := h.wf.managed d (by rw [hd]; decide)
  have hd0 : d ≠ 0 := Nat.ne_of_gt hm.pos
  unfold Xv6.freevm
  rw [wp_ite, if_neg hd0, wp_bind]
  rw [← pagesBetween_all] at hclean hzero
  refine wp_post (h.deallocuvm hd (le_refl _) (by decide) hclean hzero) ?_
  rintro _ m1 ⟨_, h1, hnz, hkeep1⟩
  rw [pagesBetween_all] at h1 hnz hclean hkeep1
  -- the directory and its tables become held frames before they are freed
  have hd1 : (A.unmapAll d allPages).role d = .dir := by
    rcases A.unmapAll_role d allPages d with hr | ⟨_, ⟨v, hv, hn⟩, _⟩
    · rw [hr, hd]
    · obtain ⟨hp, hf⟩ := names_iff.mp hn
      have := (hclean.user v hv hp (hnz v hv hp)).2
      rw [hf, hd] at this
      cases this
  have htab : ∀ i, (A.unmapAll d allPages).tab d i = A.tab d i := by
    intro i
    rw [Space.unmapAll_tab]
  have htables : (A.unmapAll d allPages).tables d = A.tables d := by
    unfold Space.tables
    rw [Space.unmapAll_tab]
  have hword : ∀ i ∈ List.range npdentries, word (m1.page d) i = pdeWord (A.tab d i) := by
    intro i hi
    rw [h1.pde d i hd1 (List.mem_range.mp hi), htab]
  have h2 := h1.retire d
  have hbel : ∀ f, (A.unmapAll d allPages).belongs d f = true →
      ((A.unmapAll d allPages).retire d).role f = .held := 
    fun f hb => Space.retire_role_pos hb
  have hd2 := hbel d ((Space.belongs_iff _ d d).mpr (.inl ⟨hd1, rfl⟩))
  rw [wp_bind]
  refine wp_post (Rep.freeTables (List.range npdentries) h2 hd2 ?_ ?_ hword) ?_
  · have := h1.wf.tables_nodup hd1
    rwa [htables] at this
  · intro t ht
    have ht' : t ∈ (A.unmapAll d allPages).tables d := by rw [htables]; exact ht
    obtain ⟨i, hi⟩ := h1.wf.mem_tables hd1 ht'
    refine ⟨hbel t ((Space.belongs_iff _ d t).mpr (.inr ⟨i, hi⟩)), ?_⟩
    rintro rfl
    rw [hd1] at hi
    cases hi
  · rintro _ m3 ⟨h3, hkeep3⟩
    have hnot : d ∉ A.tables d := by
      intro hmem
      rw [← htables] at hmem
      obtain ⟨i, hi⟩ := h1.wf.mem_tables hd1 hmem
      rw [hd1] at hi
      cases hi
    have hd3 : (((A.unmapAll d allPages).retire d).pushAll (A.tables d)).role d =
        .held := by
      rw [Space.pushAll_role, if_neg hnot, hd2]
    have h4 : Rep m3 (((A.unmapAll d allPages).retire d).pushAll (A.tables d)) := h3
    have hone := h4.wf.count_one d (by rw [hd3]; rfl)
    rw [wp_kfree hm, h4.count, hone, if_neg (by decide)]
    refine ⟨h4.push hm (.inl hd3), hnz, ?_⟩
    intro g hg
    have hgd : g ≠ d := by
      rintro rfl
      rw [show (A.freevm g).role g = .free from update_self ..] at hg
      cases hg
    have hg : (((A.unmapAll d allPages).retire d).pushAll (A.tables d)).role g = .data :=
      (update_of_ne hgd ..).symm.trans hg
    rw [Space.pushAll_role] at hg
    split at hg
    · cases hg
    rename_i hgt
    have hg1 : (A.unmapAll d allPages).role g = .data := by
      cases hb : (A.unmapAll d allPages).belongs d g with
      | true =>
        rw [Space.retire_role_pos hb] at hg
        cases hg
      | false => rwa [Space.retire_role_neg hb] at hg
    exact (Mem.setPage_ne _ _ hgd).trans ((hkeep3 g hgt).trans (hkeep1 g hg1))

/-! ## Every page once -/

/-- A release of pages: the frames `fs` of those that are present went to `kfree`, each
once, and no page is left. -/
structure HandedOver (m : Mem) (A : Space) (d : Nat) (vs fs : List Nat) (m' : Mem) : Prop where
  run : releasePages d vs m = .ok (fs, m')
  handed : fs = A.handed d vs
  nodup : fs.Nodup
  rep : Rep m' (A.unmapAll d vs)
  gone : ∀ v ∈ vs, flag ((A.unmapAll d vs).pte d v) pteP = false

theorem Rep.handsOver (h : Rep m A) (hd : A.role d = .dir) (hvs : ∀ v ∈ vs, v < userPages)
    (hnodup : vs.Nodup) (hclean : Clean A d vs) (hnz : NonZero A d vs) :
    ∃ fs m', HandedOver m A d vs fs m' := by
  obtain ⟨fs, m', hrun, rfl, hrep, -⟩ := wp_total (Rep.releasePages vs h hd hvs hnodup hclean (.inr hnz))
  refine ⟨_, m', hrun, rfl, ?_, hrep, fun v hv => A.unmapAll_pte_mem hv⟩
  refine (List.nodup_map_iff_inj_on (hnodup.filter _)).mpr fun u hu v hv hf => ?_
  obtain ⟨hu, hpu⟩ := List.mem_filter.mp hu
  obtain ⟨hv, hpv⟩ := List.mem_filter.mp hv
  exact hclean.inj u hu v hv hpu hpv hf (hnz u hu hpu)

/-- Passing over whole page tables is not noticed. -/
structure SkipsTables (d : Nat) (oldsz newsz : Word) : Prop where
  /-- The loop ends, and the call does what the loop over every page does. -/
  ends : ∀ fuel, userPages < fuel → deallocuvmFor d oldsz newsz fuel = (do
    let _ ← releasePages d (pagesBetween newsz.toNat oldsz.toNat)
    pure (some newsz))
  same : deallocuvm d oldsz.toNat newsz.toNat = (do
    let _ ← releasePages d (pagesBetween newsz.toNat oldsz.toNat)
    pure newsz.toNat)
  /-- On a directory whose user pages are data frames, nothing stops it. -/
  release : ∀ {m A}, Rep m A → A.role d = .dir → Clean A d allPages → NonZero A d allPages →
    ∃ fs m', HandedOver m A d (pagesBetween newsz.toNat oldsz.toNat) fs m'
  /-- And `freevm` releases every user page before the page tables and the directory. -/
  freevm : ∀ {m A}, Rep m A → A.role d = .dir → Clean A d allPages → NonZero A d allPages →
    ∃ fs m', HandedOver m A d allPages fs m' ∧ Xv6.freevm d m = (do
      (List.range npdentries).forM fun i => do
        let pde ← loadWord d i
        if flag pde pteP then kfree (p2v (pteAddr pde)) else pure ()
      kfree (kva d)) m'

theorem deallocuvm_skips (d : Nat) (oldsz newsz : Word) (hlt : newsz < oldsz)
    (hsz : oldsz.toNat ≤ kernbase) : SkipsTables d oldsz newsz where
  ends fuel hfuel := deallocuvmFor_eq d hlt hsz hfuel
  same := deallocuvm_eq d hlt
  release h hd hclean hnz := by
    have hsub : ∀ v ∈ pagesBetween newsz.toNat oldsz.toNat, v ∈ allPages := fun v hv =>
      mem_allPages.mpr (pagesBetween_lt hsz hv)
    exact h.handsOver hd (fun v => pagesBetween_lt hsz) List.nodup_range' (hclean.mono hsub)
      fun v hv => hnz v (hsub v hv)
  freevm h hd hclean hnz := by
    have hd0 : d ≠ 0 := (h.wf.managed d (by rw [hd]; decide)).pos.ne'
    have hnodup : allPages.Nodup := by
      rw [← pagesBetween_all]
      exact List.nodup_range'
    obtain ⟨fs, m', hrel⟩ := h.handsOver hd (fun v => mem_allPages.mp) hnodup hclean hnz
    refine ⟨fs, m', hrel, ?_⟩
    rw [Xv6.freevm, if_neg hd0, deallocuvm_eq d (by decide), pagesBetween_all, bind_assoc,
      run_bind hrel.run, pure_bind]

/-! ## The space after `freevm` -/

namespace Space

omit [Link] in
@[simp] theorem freevm_count (A : Space) (d : Nat) : (A.freevm d).count = A.count := by
  rw [freevm, push_count, pushAll_count, retire_count, unmapAll_count]

omit [Link] in
theorem freevm_pte (A : Space) (h : d' ≠ d) (v : Nat) : (A.freevm d).pte d' v = A.pte d' v := by
  rw [freevm, push_pte, pushAll_pte, retire_pte, unmapAll_pte_ne _ fun hk => h hk.1]

end Space

/-- A frame the kernel uses keeps its role while pages are released. -/
theorem Clean.unmapAll_kernel (h : Clean A d vs) (hne : NonZero A d vs) (hf : A.role f ≠ .data) :
    (A.unmapAll d vs).role f = A.role f := by
  rcases A.unmapAll_role d vs f with hr | ⟨_, ⟨v, hv, hn⟩, _⟩
  · exact hr
  · obtain ⟨hp, hfr⟩ := names_iff.mp hn
    have := (h.user v hv hp (hne v hv hp)).2
    rw [hfr] at this
    exact absurd this hf

/-- The directory and its tables are freed.  Other frames go as with `unmapAll`. -/
theorem Clean.retire_role (h : Clean A d vs) (hwf : A.WF) (hne : NonZero A d vs)
    (hd : A.role d = .dir) (f : Nat) :
    ((((A.unmapAll d vs).retire d).pushAll (A.tables d)).push d).role f =
      if A.belongs d f then .free else (A.unmapAll d vs).role f := by
  have hbel : (A.unmapAll d vs).belongs d f = A.belongs d f := by
    by_cases hf : A.role f = .data
    · have h1 : A.belongs d f = false := by simp [Space.belongs, hf]
      have h2 : (A.unmapAll d vs).belongs d f = false := by
        rcases A.unmapAll_role d vs f with hr | ⟨hr, _⟩
        · simp [Space.belongs, hr, hf]
        · simp [Space.belongs, hr]
      rw [h1, h2]
    · unfold Space.belongs
      rw [h.unmapAll_kernel hne hf]
  have hpush : ∀ (B : Space) (ts : List Nat), ((B.pushAll ts).push d).role f =
      if f = d then .free else if f ∈ ts then .free else B.role f := by
    intro B ts
    rw [← B.pushAll_role]
    unfold Space.push
    by_cases hfd : f = d <;> simp [hfd]
  rw [hpush]
  by_cases hb : A.belongs d f = true
  · rw [if_pos hb]
    rcases (Space.belongs_iff A d f).mp hb with ⟨_, hfd⟩ | ⟨i, hi⟩
    · rw [if_pos hfd]
    · rw [if_pos (hwf.tables_of_role hi), ite_self]
  · have hb' : A.belongs d f = false := Bool.not_eq_true _ ▸ hb
    have hfd : f ≠ d := by
      rintro rfl
      exact hb ((Space.belongs_iff A f f).mpr (.inl ⟨hd, rfl⟩))
    have hft : f ∉ A.tables d := fun hf =>
      hb ((Space.belongs_iff A d f).mpr (.inr (hwf.mem_tables hd hf)))
    rw [if_neg hb, if_neg hfd, if_neg hft, Space.retire_role_neg (by rw [hbel, hb'])]

theorem Clean.freevm_role (h : Clean A d allPages) (hwf : A.WF) (hne : NonZero A d allPages)
    (hd : A.role d = .dir) (f : Nat) : (A.freevm d).role f =
      if A.belongs d f then .free else (A.unmapAll d allPages).role f :=
  h.retire_role hwf hne hd f

/-- Held frames go to the free list. -/
theorem Sane.pushAll (h : Sane A x) (hwf : A.WF) {fs : List Nat} (hnodup : fs.Nodup)
    (hheld : ∀ f ∈ fs, A.role f = .held) : (A.pushAll fs).WF ∧ Sane (A.pushAll fs) x := by
  induction fs generalizing A with
  | nil => exact ⟨hwf, h⟩
  | cons f fs ih =>
    have hf := hheld f List.mem_cons_self
    have hm : Managed f := hwf.managed f (by rw [hf]; decide)
    rw [List.nodup_cons] at hnodup
    refine ih (h.push hwf hm (.inl hf) fun d v hd hv => h.mapped.names_held hwf hf hd hv)
      (hwf.push hm (.inl hf)) hnodup.2 ?_
    intro g hg
    rw [← hheld g (List.mem_cons_of_mem f hg)]
    exact update_of_ne (by rintro rfl; exact hnodup.1 hg) ..

theorem Sane.release (h : Sane A x) (hwf : A.WF) (hd : A.role d = .dir)
    (hvs : ∀ v ∈ vs, v < userPages) (hne : NonZero A d vs) :
    Sane ((((A.unmapAll d vs).retire d).pushAll (A.tables d)).push d) x := by
  obtain ⟨hwf1, hd1, h1⟩ := h.unmapAll hwf hd hvs hne
  have htables : (A.unmapAll d vs).tables d = A.tables d := by
    unfold Space.tables
    rw [Space.unmapAll_tab]
  have hbel : ∀ f, (A.unmapAll d vs).belongs d f = true →
      ((A.unmapAll d vs).retire d).role f = .held := fun f hb => Space.retire_role_pos hb
  have hheld : ∀ f ∈ A.tables d, ((A.unmapAll d vs).retire d).role f = .held := by
    intro f hf
    rw [← htables] at hf
    exact hbel f ((Space.belongs_iff _ d f).mpr (.inr (hwf1.mem_tables hd1 hf)))
  have hnodup : (A.tables d).Nodup := by
    rw [← htables]
    exact hwf1.tables_nodup hd1
  obtain ⟨hwf3, h3⟩ := (h1.retire hwf1 d).pushAll (hwf1.retire d) hnodup hheld
  have hnot : d ∉ A.tables d := by
    intro hmem
    obtain ⟨i, hi⟩ := hwf.mem_tables hd hmem
    rw [hd] at hi
    cases hi
  have hd3 : (((A.unmapAll d vs).retire d).pushAll (A.tables d)).role d = .held := by
    rw [Space.pushAll_role, if_neg hnot]
    exact hbel d ((Space.belongs_iff _ d d).mpr (.inl ⟨hd1, rfl⟩))
  exact h3.push hwf3 (hwf.managed d (by rw [hd]; decide)) (.inl hd3)
    fun d' v hd' hv => h3.mapped.names_held hwf3 hd3 hd' hv

theorem Sane.freevm (h : Sane A x) (hwf : A.WF) (hd : A.role d = .dir)
    (hne : NonZero A d allPages) : Sane (A.freevm d) x :=
  h.release hwf hd (fun _ hv => mem_allPages.mp hv) hne

end Xv6
