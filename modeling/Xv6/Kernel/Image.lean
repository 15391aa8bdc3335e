import Xv6.Kernel.Exec
import Xv6.Machine.Fill

/-!
# The image of a program

An `Image` is what a program may see of its memory: for each page its bytes, and whether a user
may write it and use it.  `Shows` says that the user half of a directory is an image.

While `exec` builds an image the new directory is its own: every frame it names was free before
and has a count of 1 (`Img`).  So nothing outside the image changes, and `freevm` of an image
that was not finished gives every frame back (`Img.restored`).

`Holds` is the state between the steps of `exec`.  Each function that `exec` calls has a lemma
that says how it moves the image.  The fault postcondition is free wherever the function cannot
fault, which is everywhere but in `copyout`: there a page table may be missing
(`Stands.copyout_gap`).
-/

namespace Xv6

open Prog Function

variable {v oldsz newsz : Nat}

/-! ## Images -/

/-- A page of an image: its bytes, and whether a user may write it and use it. -/
structure UPage where
  bytes : Page
  write : Bool
  user : Bool

/-- The page that `allocuvm` adds. -/
def UPage.fresh : UPage := ⟨fill 0#8, true, true⟩

/-- An image: its pages from address 0 on. -/
structure Image where
  size : Nat
  page : Nat → UPage

namespace Image

def empty : Image := ⟨0, fun _ => .fresh⟩

/-- The image with new pages up to the page `n`. -/
def grow (I : Image) (n : Nat) : Image :=
  ⟨n, fun v => if v < I.size then I.page v else .fresh⟩

/-- The image with one page replaced. -/
def put (I : Image) (v : Nat) (pg : UPage) : Image :=
  { I with page := Function.update I.page v pg }

/-- The byte at an address. -/
def byte (I : Image) (a : Nat) : Byte := (I.page (a / pgsize)).bytes (a % pgsize)

@[simp] theorem grow_size (I : Image) (n : Nat) : (I.grow n).size = n := rfl

theorem grow_page_lt (I : Image) (n : Nat) (h : v < I.size) :
    (I.grow n).page v = I.page v := if_pos h

theorem grow_page_ge (I : Image) (n : Nat) (h : I.size ≤ v) :
    (I.grow n).page v = .fresh := if_neg (Nat.not_lt.mpr h)

@[simp] theorem put_size (I : Image) (v : Nat) (pg : UPage) : (I.put v pg).size = I.size := rfl

@[simp] theorem put_page_self (I : Image) (v : Nat) (pg : UPage) : (I.put v pg).page v = pg :=
  update_self ..

theorem put_page_ne (I : Image) {u : Nat} (pg : UPage) (h : u ≠ v) :
    (I.put v pg).page u = I.page u := update_of_ne h ..

@[simp] theorem put_put (I : Image) (v : Nat) (pg pg' : UPage) :
    (I.put v pg).put v pg' = I.put v pg' := by
  simp [put]

end Image

/-- The same pages for the user, with other bytes. -/
structure Image.Alike (I J : Image) : Prop where
  size : J.size = I.size
  user : ∀ v, (J.page v).user = (I.page v).user

namespace Image.Alike

theorem refl (I : Image) : I.Alike I := ⟨rfl, fun _ => rfl⟩

theorem trans {I J K : Image} (h : I.Alike J) (h' : J.Alike K) : I.Alike K :=
  ⟨h'.size.trans h.size, fun v => (h'.user v).trans (h.user v)⟩

theorem put (I : Image) (v : Nat) (pg : Page) : I.Alike (I.put v { I.page v with bytes := pg }) := by
  refine ⟨rfl, fun u => ?_⟩
  by_cases huv : u = v
  · rw [huv, Image.put_page_self]
  · rw [Image.put_page_ne _ _ huv]

end Image.Alike

/-! ## The directory of an image -/

variable [Link]

/-- The directory `d` holds an image, built in the space `A0`. -/
structure Img (x : Bool) (A0 A : Space) (d : Nat) : Prop where
  free : A0.role d = .free
  dir : A.role d = .dir
  sane : Sane A x
  old : ∀ f, A0.role f ≠ .free → A.role f = A0.role f
  count : ∀ f, A0.role f ≠ .free → f ≠ oomIndex → A.count f = A0.count f
  new : ∀ f, A0.role f = .free → f ≠ d → A.role f = .free ∨ (∃ i, A.role f = .table d i) ∨
    ∃ v < userPages, names (A.pte d v) f = true
  mine : ∀ v < userPages, flag (A.pte d v) pteP = true →
    A0.role (frame (A.pte d v)) = .free ∧ A.count (frame (A.pte d v)) = 1#8
  pte : ∀ d' v, A0.role d' = .dir → A.pte d' v = A0.pte d' v

variable {x : Bool} {A0 A B : Space} {d : Nat} {m : Mem}

/-! ## Moves on an image -/

namespace Img

theorem ne_dir (h : Img x A0 A d) {d' : Nat} (hd' : A0.role d' = .dir) : d' ≠ d := by
  rintro rfl
  rw [h.free] at hd'
  cases hd'

theorem start (hwf : A0.WF) (hwf' : A.WF) (h : NewDir A0 A d) (hs : Sane A0 x) :
    Img x A0 A d := by
  refine ⟨h.free, h.dir, h.sane x hs, h.grow.role, h.grow.count, ?_, ?_, ?_⟩
  · intro f hf hfd
    cases hr : A.role f with
    | free => exact .inl rfl
    | data =>
      have := h.data f hr
      rw [hf] at this
      cases this
    | held =>
      have := (h.frame.held f hfd).mp hr
      rw [hf] at this
      cases this
    | dir =>
      have := (h.frame.dir f hfd).mp hr
      rw [hf] at this
      cases this
    | table d' i =>
      by_cases hdd : d' = d
      · subst hdd
        exact .inr (.inl ⟨i, rfl⟩)
      · obtain ⟨hd', hi, ht⟩ := hwf'.role_tab f d' i hr
        rw [h.tab d' i hdd] at ht
        rw [hwf.tab_role d' i f ((h.frame.dir d' hdd).mp hd') hi ht] at hf
        cases hf
  · intro v hv hp
    rw [h.empty v hv, flag_zero] at hp
    cases hp
  · intro d' v hd'
    have hdd : d' ≠ d := by
      rintro rfl
      rw [h.free] at hd'
      cases hd'
    exact h.frame.pte d' v hd' hdd id

section

variable (h : Img x A0 A d)
include h

theorem managed (hwf : A0.WF) (hv : v < userPages)
    (hp : flag (A.pte d v) pteP = true) : Managed (Xv6.frame (A.pte d v)) :=
  hwf.managed _ (by rw [(h.mine v hv hp).1]; decide)

theorem data (hwf : A0.WF) (hv : v < userPages)
    (hp : flag (A.pte d v) pteP = true) : A.role (Xv6.frame (A.pte d v)) = .data := by
  rcases h.sane.mapped.user d v h.dir hv hp with ⟨h0, _⟩ | ⟨_, hr⟩
  · have := (h.managed hwf hv hp).pos
    omega
  · exact hr

theorem fills {vs : List Nat} {perm : Word} (hwf0 : A0.WF) (hwf : A.WF)
    (hfills : Fills d perm A vs B) (hvs : ∀ v ∈ vs, v < userPages) (hperm : Perm perm) :
    Img x A0 B d := by
  obtain ⟨hwf', hext⟩ := hfills.extends hwf h.dir hvs hperm
  have hold : ∀ f, A0.role f ≠ .free → A.role f ≠ .free := fun f hf => by rwa [h.old f hf]
  refine ⟨h.free, hext.role_dir h.dir, hfills.sane hwf h.dir hvs hperm h.sane, ?_, ?_, ?_, ?_,
    ?_⟩
  · intro f hf
    rw [hext.grow.role f (hold f hf), h.old f hf]
  · intro f hf hoom
    rw [hext.grow.count f (hold f hf) hoom, h.count f hf hoom]
  · intro f hf hfd
    rcases h.new f hf hfd with hr | ⟨i, hr⟩ | ⟨v, hv, hn⟩
    · exact hext.of_free hwf hwf' hr
    · exact .inr (.inl ⟨i, by rw [hext.grow.role f (by rw [hr]; exact Role.noConfusion), hr]⟩)
    · exact .inr (.inr ⟨v, hv, by rw [hext.present v (names_iff.mp hn).1]; exact hn⟩)
  · intro v hv hp
    by_cases hp0 : flag (A.pte d v) pteP = true
    · rw [hext.present v hp0]
      obtain ⟨h1, h2⟩ := h.mine v hv hp0
      refine ⟨h1, ?_⟩
      rw [hext.grow.count _ (by rw [h.data hwf0 hv hp0]; decide) (h.managed hwf0 hv hp0).ne_oom, h2]
    · by_cases hmem : v ∈ vs
      · obtain ⟨f, hn, hf, hc⟩ := hfills.fresh hwf h.dir hvs hperm hmem
        rw [(names_iff.mp hn).2]
        refine ⟨?_, hc⟩
        by_contra hne
        exact hold f hne hf
      · rw [hext.pte d v fun hk => hmem hk.2] at hp
        exact absurd hp hp0
  · intro d' v hd'
    rw [hext.pte d' v fun hk => h.ne_dir hd' hk.1, h.pte d' v hd']

theorem released {vs : List Nat} (hwf0 : A0.WF) (hwf : A.WF)
    (hrel : Released A B d vs) (hvs : ∀ v ∈ vs, v < userPages) (hs : Sane B x) :
    Img x A0 B d := by
  have hold : ∀ f, A0.role f ≠ .free → A.role f ≠ .free := fun f hf => by rwa [h.old f hf]
  have hdir := hrel.role_of_ne_data h.sane.mapped hwf h.dir hvs (g := d) (by rw [h.dir]; decide)
  refine ⟨h.free, by rw [hdir, h.dir], hs, ?_, ?_, ?_, ?_, ?_⟩
  · intro f hf
    rcases hrel.stay f with hr | ⟨_, v, hv, hn⟩
    · rw [hr, h.old f hf]
    · obtain ⟨hp, hfr⟩ := names_iff.mp hn
      rw [← hfr] at hf
      exact absurd (h.mine v (hvs v hv) hp).1 hf
  · intro f hf hoom
    rw [hrel.count f (hold f hf) hoom, h.count f hf hoom]
  · intro f hf hfd
    rcases h.new f hf hfd with hr | ⟨i, hr⟩ | ⟨v, hv, hn⟩
    · rcases hrel.stay f with he | ⟨he, _⟩
      · exact .inl (by rw [he, hr])
      · exact .inl he
    · refine .inr (.inl ⟨i, ?_⟩)
      rw [hrel.role_of_ne_data h.sane.mapped hwf h.dir hvs (by rw [hr]; exact Role.noConfusion), hr]
    · by_cases hmem : v ∈ vs
      · obtain ⟨hp, rfl⟩ := names_iff.mp hn
        refine .inl (hrel.gone v hmem hp ?_)
        rw [(h.mine v hv hp).2]
        decide
      · exact .inr (.inr ⟨v, hv, by rw [hrel.pte_ne d v fun hk => hmem hk.2]; exact hn⟩)
  · intro v hv hp
    by_cases hmem : v ∈ vs
    · rw [hrel.pte_mem v hmem] at hp
      cases hp
    · rw [hrel.pte_ne d v fun hk => hmem hk.2] at hp ⊢
      obtain ⟨h1, h2⟩ := h.mine v hv hp
      refine ⟨h1, ?_⟩
      rw [hrel.count _ (by rw [h.data hwf0 hv hp]; decide) (h.managed hwf0 hv hp).ne_oom, h2]
  · intro d' v hd'
    rw [hrel.pte_ne d' v fun hk => h.ne_dir hd' hk.1, h.pte d' v hd']

/-- A page of the image gets other flags. -/
theorem reflag (hwf0 : A0.WF) (hwf : A.WF) {w : Word} (hv : v < userPages)
    (hp : flag (A.pte d v) pteP = true) (hpw : flag w pteP = true)
    (hfr : Xv6.frame w = Xv6.frame (A.pte d v))
    (hU : flag w pteU = true → flag (A.pte d v) pteU = true) : Img x A0 (A.setPte d v w) d := by
  have hn : ∀ u f, names ((A.setPte d v w).pte d u) f = names (A.pte d u) f := by
    intro u f
    by_cases huv : u = v
    · subst huv
      rw [Space.setPte_self]
      simp [names, hp, hpw, hfr]
    · rw [Space.setPte_ne _ _ fun hk => huv hk.2]
  refine ⟨h.free, h.dir, ?_, h.old, h.count, ?_, ?_, ?_⟩
  · refine h.sane.reflag hwf h.dir hv hp hpw hfr hU ?_
    intro _ _ _ d' hd' hp' hfr'
    -- the count is 1, so the entry is alone
    refine (h.sane.counted.alone hwf (h.managed hwf0 hv hp) ?_ h.dir hv (names_iff.mpr ⟨hp, rfl⟩)
      hd' hv (names_iff.mpr ⟨hp', by rw [hfr', hfr]⟩)).1
    rw [(h.mine v hv hp).2]
    decide
  · intro f hf hfd
    rcases h.new f hf hfd with hr | hr | ⟨u, hu, hnu⟩
    · exact .inl hr
    · exact .inr (.inl hr)
    · exact .inr (.inr ⟨u, hu, by rw [hn]; exact hnu⟩)
  · intro u hu hpu
    by_cases huv : u = v
    · subst huv
      rw [Space.setPte_self, hfr]
      exact h.mine u hv hp
    · rw [Space.setPte_ne _ _ fun hk => huv hk.2] at hpu ⊢
      exact h.mine u hu hpu
  · intro d' u hd'
    rw [Space.setPte_ne _ _ fun hk => h.ne_dir hd' hk.1, h.pte d' u hd']

theorem nonZero (hwf0 : A0.WF) : NonZero A d allPages := by
  intro v hv hp
  exact Nat.ne_of_gt (h.managed hwf0 (mem_allPages.mp hv) hp).pos

/-- Dropping an image gives every frame back. -/
theorem restored (hwf0 : A0.WF) (hwf : A.WF) : Restored A0 (A.freevm d) := by
  have hvs : ∀ v ∈ allPages, v < userPages := fun v hv => mem_allPages.mp hv
  have hrole := (h.sane.mapped.clean h.dir hvs).freevm_role hwf (h.nonZero hwf0) h.dir
  have hrel := A.released d allPages
  refine ⟨?_, ?_, ?_⟩
  · funext f
    rw [hrole f]
    by_cases hf : A0.role f = .free
    · by_cases hfd : f = d
      · rw [if_pos ((Space.belongs_iff A d f).mpr (.inl ⟨by rw [hfd]; exact h.dir, hfd⟩)), hf]
      · rcases h.new f hf hfd with hr | ⟨i, hr⟩ | ⟨v, hv, hn⟩
        · rcases hrel.stay f with he | ⟨he, _⟩
          · rw [he, hr, hf, ite_self]
          · rw [he, hf, ite_self]
        · rw [if_pos ((Space.belongs_iff A d f).mpr (.inr ⟨i, hr⟩)), hf]
        · obtain ⟨hp, rfl⟩ := names_iff.mp hn
          rw [hrel.gone v (mem_allPages.mpr hv) hp (by rw [(h.mine v hv hp).2]; decide), hf,
            ite_self]
    · rw [if_neg]
      · rcases hrel.stay f with he | ⟨_, v, hv, hn⟩
        · rw [he, h.old f hf]
        · obtain ⟨hp, hfr⟩ := names_iff.mp hn
          rw [← hfr] at hf
          exact absurd (h.mine v (hvs v hv) hp).1 hf
      · intro hb
        rcases (Space.belongs_iff A d f).mp hb with ⟨_, rfl⟩ | ⟨i, hi⟩
        · exact hf h.free
        · rw [h.old f hf] at hi
          have := (hwf0.role_tab f d i hi).1
          rw [h.free] at this
          cases this
  · intro d' v hd'
    rw [A.freevm_pte (h.ne_dir hd'), h.pte d' v hd']
  · intro f hf hoom
    rw [Space.freevm_count, h.count f hf hoom]

end

end Img

/-! ## What a directory shows -/

/-- The directory `d` shows the image `I`: its user pages are those of `I`. -/
structure Shows (m : Mem) (A : Space) (d : Nat) (I : Image) : Prop where
  le : I.size ≤ userPages
  present : ∀ v < userPages, flag (A.pte d v) pteP = true ↔ v < I.size
  bytes : ∀ v < I.size, m.page (frame (A.pte d v)) = (I.page v).bytes
  write : ∀ v < I.size, flag (A.pte d v) pteW = (I.page v).write
  user : ∀ v < I.size, flag (A.pte d v) pteU = (I.page v).user

/-- The kernel half of a directory has the page tables of `kmap` and no others. -/
def KernelHalf (A : Space) (d : Nat) : Prop :=
  ∀ i, userPages / npdentries ≤ i → i < npdentries → ((∃ t, A.tab d i = some t) ↔ i ∈ kernelSlots)

/-- The image `I` stands in the directory `d`, built in the memory `m0`. -/
structure Stands (x : Bool) (A0 : Space) (m0 : Mem) (d : Nat) (I : Image) (m : Mem) (A : Space) :
    Prop where
  rep : Rep m A
  img : Img x A0 A d
  shows : Shows m A d I
  kern : KernelHalf A d
  keep : KeepData A0 m0 m

def Holds (x : Bool) (A0 : Space) (m0 : Mem) (d : Nat) (I : Image) (m : Mem) : Prop :=
  ∃ A, Stands x A0 m0 d I m A

variable {m0 : Mem} {I J : Image}

omit [Link] in
/-- Only the pages below the size count. -/
theorem Shows.congr (h : Shows m A d I) (hsize : J.size = I.size)
    (hpage : ∀ v < I.size, J.page v = I.page v) : Shows m A d J := by
  refine ⟨hsize ▸ h.le, hsize ▸ h.present, ?_, ?_, ?_⟩
  · intro v hv
    rw [hsize] at hv
    rw [hpage v hv, h.bytes v hv]
  · intro v hv
    rw [hsize] at hv
    rw [hpage v hv, h.write v hv]
  · intro v hv
    rw [hsize] at hv
    rw [hpage v hv, h.user v hv]

namespace Stands

section

variable (h : Stands x A0 m0 d I m A)
include h

theorem lt (hv : v < I.size) : v < userPages :=
  lt_of_lt_of_le hv h.shows.le

theorem present (hv : v < I.size) :
    flag (A.pte d v) pteP = true := (h.shows.present v (h.lt hv)).mpr hv

theorem data (hwf0 : A0.WF) (hv : v < I.size) :
    A.role (frame (A.pte d v)) = .data := h.img.data hwf0 (h.lt hv) (h.present hv)

theorem table (hv : v < I.size) :
    ∃ t, A.tab d (v / npdentries) = some t :=
  Mapped.table_of_present h.rep.wf h.img.dir (userPages_lt (h.lt hv)) (h.present hv)

/-- Different pages have different frames. -/
theorem frame_ne (hwf0 : A0.WF) {u : Nat} (hu : u < I.size)
    (hv : v < I.size) (hne : u ≠ v) : frame (A.pte d u) ≠ frame (A.pte d v) := fun he =>
  hne (h.img.sane.mapped.same d v d u h.img.dir h.img.dir (h.lt hv) (h.lt hu) (h.present hv)
    (h.present hu) he (Nat.ne_of_gt (h.img.managed hwf0 (h.lt hv) (h.present hv)).pos))

theorem congr (hsize : J.size = I.size)
    (hpage : ∀ v < I.size, J.page v = I.page v) : Stands x A0 m0 d J m A :=
  ⟨h.rep, h.img, h.shows.congr hsize hpage, h.kern, h.keep⟩

/-- Bytes are written to a page. -/
theorem write (hwf0 : A0.WF) (hv : v < I.size) (pg : Page) :
    Stands x A0 m0 d (I.put v { I.page v with bytes := pg })
      (m.setPage (frame (A.pte d v)) pg) A := by
  refine ⟨h.rep.setPage pg (by rw [h.data hwf0 hv]; rfl), h.img,
    ⟨h.shows.le, h.shows.present, ?_, ?_, ?_⟩, h.kern, ?_⟩
  · intro u hu
    by_cases huv : u = v
    · subst huv
      rw [Image.put_page_self]
      exact update_self ..
    · rw [Image.put_page_ne _ _ huv, ← h.shows.bytes u hu]
      exact update_of_ne (h.frame_ne hwf0 hu hv huv) ..
  · intro u hu
    by_cases huv : u = v
    · subst huv
      rw [Image.put_page_self, h.shows.write u hu]
    · rw [Image.put_page_ne _ _ huv, h.shows.write u hu]
  · intro u hu
    by_cases huv : u = v
    · subst huv
      rw [Image.put_page_self, h.shows.user u hu]
    · rw [Image.put_page_ne _ _ huv, h.shows.user u hu]
  · intro g hg
    rw [← h.keep g hg]
    refine update_of_ne ?_ ..
    rintro rfl
    rw [(h.img.mine v (h.lt hv) (h.present hv)).1] at hg
    cases hg

/-- A page gets other flags. -/
theorem reflag (hwf0 : A0.WF) (hv : v < I.size) {t : Nat} {w : Word}
    (ht : A.tab d (v / npdentries) = some t) (hpw : flag w pteP = true)
    (hfr : frame w = frame (A.pte d v))
    (hU : flag w pteU = true → flag (A.pte d v) pteU = true) :
    Stands x A0 m0 d (I.put v { I.page v with write := flag w pteW, user := flag w pteU })
      (m.setPage t (setWord (m.page t) (v % npdentries) w)) (A.setPte d v w) := by
  have hlt := userPages_lt (h.lt hv)
  have htab := h.rep.table_role h.img.dir hlt ht
  have hpte : ∀ u, u ≠ v → (A.setPte d v w).pte d u = A.pte d u := fun u hne =>
    A.setPte_ne w fun hk => hne hk.2
  -- the table is not a page of the image, nor was it one of another process
  have hpage : ∀ g, A.role g = .data →
      (m.setPage t (setWord (m.page t) (v % npdentries) w)).page g = m.page g := by
    intro g hg
    refine update_of_ne ?_ ..
    rintro rfl
    rw [htab] at hg
    cases hg
  refine ⟨h.rep.setPte w h.img.dir hlt ht,
    h.img.reflag hwf0 h.rep.wf (h.lt hv) (h.present hv) hpw hfr hU,
    ⟨h.shows.le, ?_, ?_, ?_, ?_⟩, h.kern, ?_⟩
  · intro u hu
    by_cases huv : u = v
    · subst huv
      rw [Space.setPte_self]
      exact ⟨fun _ => hv, fun _ => hpw⟩
    · rw [hpte u huv]
      exact h.shows.present u hu
  · intro u hu
    by_cases huv : u = v
    · subst huv
      rw [Space.setPte_self, Image.put_page_self, hfr, hpage _ (h.data hwf0 hv)]
      exact h.shows.bytes u hu
    · rw [hpte u huv, Image.put_page_ne _ _ huv, hpage _ (h.data hwf0 hu)]
      exact h.shows.bytes u hu
  · intro u hu
    by_cases huv : u = v
    · subst huv
      rw [Space.setPte_self, Image.put_page_self]
    · rw [hpte u huv, Image.put_page_ne _ _ huv, h.shows.write u hu]
  · intro u hu
    by_cases huv : u = v
    · subst huv
      rw [Space.setPte_self, Image.put_page_self]
    · rw [hpte u huv, Image.put_page_ne _ _ huv, h.shows.user u hu]
  · intro g hg
    rw [hpage g (by rw [h.img.old g (by rw [hg]; decide), hg]), h.keep g hg]

/-- `allocuvm` added the pages up to `newsz`. -/
theorem grown (hwf0 : A0.WF) {m' : Mem} (hI : I.size = npages oldsz)
    (hle : oldsz ≤ newsz) (hsz : newsz < kernbase) (hrep : Rep m' B)
    (hfills : Fills d (pteW ||| pteU) A (pagesBetween oldsz newsz) B) (hkeep : KeepData A m m')
    (hzero : ∀ v ∈ pagesBetween oldsz newsz, m'.page (frame (B.pte d v)) = fill 0#8) :
    Stands x A0 m0 d (I.grow (npages newsz)) m' B := by
  have hvs : ∀ v ∈ pagesBetween oldsz newsz, v < userPages := fun v hv =>
    lt_of_lt_of_le (mem_pagesBetween.mp hv).2 (npages_le_userPages (le_of_lt hsz))
  have hext := (hfills.extends h.rep.wf h.img.dir hvs perm_wu).2
  have hold : ∀ v < I.size, B.pte d v = A.pte d v := fun v hv => hext.present v (h.present hv)
  have hnew : ∀ v, I.size ≤ v → v < npages newsz →
      ∃ f, B.pte d v = mkPte (f * pgsize) (pteW ||| pteU) := fun v hlo hhi =>
    hfills.pte_mem h.rep.wf h.img.dir hvs perm_wu (mem_pagesBetween.mpr ⟨hI ▸ hlo, hhi⟩)
  have hnum : I.size ≤ npages newsz := by
    rw [hI]
    unfold npages
    rw [pgsize_eq]
    omega
  refine ⟨hrep, h.img.fills hwf0 h.rep.wf hfills hvs perm_wu,
    ⟨npages_le_userPages (le_of_lt hsz), ?_, ?_, ?_, ?_⟩, ?_, ?_⟩
  · intro v hv
    rw [Image.grow_size]
    by_cases hlo : v < I.size
    · rw [hold v hlo, h.shows.present v hv]
      omega
    · by_cases hhi : v < npages newsz
      · obtain ⟨f, hf⟩ := hnew v (Nat.le_of_not_lt hlo) hhi
        rw [hf, flag_mkPte_pteP]
        exact ⟨fun _ => hhi, fun _ => rfl⟩
      · rw [hext.pte d v fun hk => hhi (mem_pagesBetween.mp hk.2).2, h.shows.present v hv]
        omega
  · intro v hv
    by_cases hlo : v < I.size
    · rw [Image.grow_page_lt _ _ hlo, hold v hlo, hkeep _ (h.data hwf0 hlo), h.shows.bytes v hlo]
    · rw [Image.grow_page_ge _ _ (Nat.le_of_not_lt hlo)]
      exact hzero v (mem_pagesBetween.mpr ⟨by omega, hv⟩)
  · intro v hv
    by_cases hlo : v < I.size
    · rw [Image.grow_page_lt _ _ hlo, hold v hlo, h.shows.write v hlo]
    · obtain ⟨f, hf⟩ := hnew v (Nat.le_of_not_lt hlo) hv
      rw [Image.grow_page_ge _ _ (Nat.le_of_not_lt hlo), hf, flag_mkPte (by decide) (by decide)]
      rfl
  · intro v hv
    by_cases hlo : v < I.size
    · rw [Image.grow_page_lt _ _ hlo, hold v hlo, h.shows.user v hlo]
    · obtain ⟨f, hf⟩ := hnew v (Nat.le_of_not_lt hlo) hv
      rw [Image.grow_page_ge _ _ (Nat.le_of_not_lt hlo), hf, flag_mkPte (by decide) (by decide)]
      rfl
  · intro i hlo hhi
    rw [hfills.tab_outside fun v hv => ?_]
    · exact h.kern i hlo hhi
    · have := hvs v hv
      rw [userPages_eq, npdentries_eq] at *
      omega
  · intro g hg
    rw [hkeep g (by rw [h.img.old g (by rw [hg]; decide), hg]), h.keep g hg]

/-- `allocuvm` gave up and took the pages it had added back. -/
theorem gaveUp (hwf0 : A0.WF) {m' : Mem} {us : List Nat} {C : Space}
    (hI : I.size = npages oldsz) (hsz : newsz < kernbase) (hrep : Rep m' C) (hs : Sane C x)
    (hsub : us ⊆ pagesBetween oldsz newsz) (hfills : Fills d (pteW ||| pteU) A us B)
    (hrel : Released B C d (pagesBetween oldsz newsz))
    (hkeep : ∀ g, A.role g = .data → C.role g = .data → m'.page g = m.page g) :
    Stands x A0 m0 d I m' C := by
  have hvs : ∀ v ∈ pagesBetween oldsz newsz, v < userPages := fun v hv =>
    lt_of_lt_of_le (mem_pagesBetween.mp hv).2 (npages_le_userPages (le_of_lt hsz))
  have hus : ∀ v ∈ us, v < userPages := fun v hv => hvs v (hsub hv)
  obtain ⟨hwfB, hext⟩ := hfills.extends h.rep.wf h.img.dir hus perm_wu
  have himg := (h.img.fills hwf0 h.rep.wf hfills hus perm_wu).released hwf0 hwfB hrel hvs hs
  have hout : ∀ v, v ∉ pagesBetween oldsz newsz → C.pte d v = A.pte d v := fun v hv => by
    rw [hrel.pte_ne d v fun hk => hv hk.2, hext.pte d v fun hk => hv (hsub hk.2)]
  have hold : ∀ v < I.size, C.pte d v = A.pte d v := fun v hv => hout v fun hm => by
    have := (mem_pagesBetween.mp hm).1
    omega
  refine ⟨hrep, himg, ⟨h.shows.le, ?_, ?_, ?_, ?_⟩, ?_, ?_⟩
  · intro v hv
    by_cases hm : v ∈ pagesBetween oldsz newsz
    · rw [hrel.pte_mem v hm, hI]
      have := (mem_pagesBetween.mp hm).1
      exact ⟨nofun, fun hk => by omega⟩
    · rw [hout v hm]
      exact h.shows.present v hv
  · intro v hv
    have hdata : C.role (frame (A.pte d v)) = .data := by
      rw [← hold v hv]
      exact himg.data hwf0 (h.lt hv) (by rw [hold v hv]; exact h.present hv)
    rw [hold v hv, hkeep _ (h.data hwf0 hv) hdata, h.shows.bytes v hv]
  · intro v hv
    rw [hold v hv, h.shows.write v hv]
  · intro v hv
    rw [hold v hv, h.shows.user v hv]
  · intro i hlo hhi
    rw [hrel.tab, hfills.tab_outside fun v hv => ?_]
    · exact h.kern i hlo hhi
    · have := hus v hv
      rw [userPages_eq, npdentries_eq] at *
      omega
  · intro g hg
    have hg' : A0.role g ≠ .free := by
      rw [hg]
      decide
    rw [hkeep g (by rw [h.img.old g hg', hg]) (by rw [himg.old g hg', hg]), h.keep g hg]

end

end Stands

/-! ## The steps of `exec` -/

/-- What was built is gone: every frame is back and no process's memory changed. -/
def Undone (x : Bool) (A0 : Space) (m0 m : Mem) : Prop :=
  ∃ A, Rep m A ∧ Sane A x ∧ Restored A0 A ∧ KeepData A0 m0 m

theorem Rep.undone (h : Rep m A) (hs : Sane A x) : Undone x A m m :=
  ⟨A, h, hs, .refl A, fun _ _ => rfl⟩

/-- A new directory shows the empty image. -/
theorem Rep.newImage (h : Rep m A) (hs : Sane A x) {F : Fault → Prop} :
    wp Xv6.setupkvm (fun r m' => match r with
      | none => Undone x A m m' ∧ m.freelist.length ≤ kernelTables
      | some d => Holds x A m d .empty m' ∧
          m.freelist.length ≤ m'.freelist.length + (kernelTables + 1)) F m := by
  refine wp_post (h.setupkvm F) ?_
  rintro r m1 ⟨A1, h1, hsetup, hframes⟩
  cases hsetup with
  | none hres hlen hkeep =>
    rw [← h.free] at hlen
    exact ⟨⟨A1, h1, hres.sane h.wf h1.wf hs, hres, hkeep⟩, hlen⟩
  | @some _ d hnew hkeep =>
    have hlen := hnew.length
    rw [← h.free, ← h1.free] at hlen
    refine ⟨⟨A1, h1, Img.start h.wf h1.wf hnew hs, ⟨Nat.zero_le _, ?_, nofun, nofun, nofun⟩, ?_,
      fun g hg => hkeep g (.inl hg)⟩, hlen⟩
    · intro v hv
      rw [hnew.empty v hv, flag_zero]
      exact ⟨nofun, nofun⟩
    · intro i _ hlt
      rw [← hframes i hlt, h1.pde d i hnew.dir hlt]
      cases A1.tab d i with
      | none => simp
      | some t => simp

namespace Holds

variable {F : Fault → Prop} {va : Nat}

/-- Dropping an image undoes all of it. -/
theorem freevm (h : Holds x A0 m0 d I m) (hwf0 : A0.WF) :
    wp (Xv6.freevm d) (fun _ m' => Undone x A0 m0 m') F m := by
  obtain ⟨A, h⟩ := h
  have hvs : ∀ v ∈ allPages, v < userPages := fun v hv => mem_allPages.mp hv
  have hres := h.img.restored hwf0 h.rep.wf
  refine wp_post (h.rep.freevm h.img.dir (h.img.sane.mapped.clean h.img.dir hvs)
    (.inr (h.img.nonZero hwf0))) ?_
  rintro _ m2 ⟨h2, hnz, hkeep⟩
  refine ⟨_, h2, h.img.sane.freevm h.rep.wf h.img.dir hnz, hres, ?_⟩
  intro g hg
  rw [hkeep g (by rw [hres.role, hg]), h.keep g hg]

theorem allocuvm (h : Holds x A0 m0 d I m) (hwf0 : A0.WF) (hI : I.size = npages oldsz)
    (hsz : oldsz < kernbase ∨ oldsz ≤ newsz) :
    wp (Xv6.allocuvm d oldsz newsz)
      (fun r m' => r < kernbase ∧
        (r = 0 → Holds x A0 m0 d I m' ∧ ¬ (newsz < kernbase ∧ 0 < newsz ∧
          2 * (npages newsz - npages oldsz) ≤ m.freelist.length)) ∧
        (r ≠ 0 → r = max oldsz newsz ∧ Holds x A0 m0 d (I.grow (npages r)) m' ∧
          m.freelist.length ≤ m'.freelist.length + 2 * (npages newsz - npages oldsz))) F m := by
  obtain ⟨A, h⟩ := h
  have habs : newsz < kernbase → ∀ v ∈ pagesBetween oldsz newsz, flag (A.pte d v) pteP = false := by
    intro hlt v hv
    obtain ⟨hlo, hhi⟩ := mem_pagesBetween.mp hv
    have hv' := lt_of_lt_of_le hhi (npages_le_userPages (le_of_lt hlt))
    rw [← Bool.not_eq_true, h.shows.present v hv']
    omega
  refine wp_post (h.rep.grows h.img.sane h.img.dir oldsz newsz (.inr fun hlt =>
    ⟨.of_absent (habs hlt), fun v hv => habs hlt v (List.mem_of_mem_take hv)⟩)) ?_
  rintro r m' ⟨C, hrep, hs, hgrows, henough⟩
  -- it fails only for lack of frames
  have hfail : r = 0 → ¬ (newsz < kernbase ∧ 0 < newsz ∧
      2 * (npages newsz - npages oldsz) ≤ m.freelist.length) := by
    rintro h0 ⟨hlt, hpos, hlen⟩
    have := henough hlt (h.rep.free ▸ hlen)
    omega
  cases hgrows with
  | refused hge => exact ⟨by decide, fun _ => ⟨⟨A, h⟩, hfail rfl⟩, fun hr => absurd rfl hr⟩
  | smaller hlt hle =>
    refine ⟨hsz.resolve_right (by omega), fun hr => ⟨⟨A, h⟩, hfail hr⟩, fun _ =>
      ⟨(max_eq_left (le_of_lt hle)).symm, ⟨A, h.congr hI.symm ?_⟩, Nat.le_add_right ..⟩⟩
    exact fun v hv => Image.grow_page_lt _ _ hv
  | filling hlt hle hf =>
    cases hf with
    | done hfills hkeep hzero =>
      have hgrown := h.grown hwf0 hI hle hlt hrep hfills hkeep hzero
      refine ⟨hlt, ?_, fun _ => ⟨(max_eq_right hle).symm, ⟨C, hgrown⟩, ?_⟩⟩
      · rintro rfl
        have h0 : I.size = 0 := by
          rw [hI, Nat.le_zero.mp hle]
          rfl
        exact ⟨⟨C, hgrown.congr h0 fun v hv => absurd hv (Nat.not_lt_zero v)⟩, hfail rfl⟩
      · rw [h.rep.free, hrep.free]
        exact hfills.spent
    | gaveUp hpre _ hfills hrel hkeep =>
      exact ⟨by decide, fun _ =>
        ⟨⟨C, h.gaveUp hwf0 hI hlt hrep hs hpre.subset hfills hrel hkeep⟩, hfail rfl⟩,
        fun hr => absurd rfl hr⟩

/-- A page becomes one that no user may use. -/
theorem clearpteu (h : Holds x A0 m0 d I m) (hwf0 : A0.WF) (hv : v < I.size) :
    wp (Xv6.clearpteu d (v * pgsize))
      (fun _ m' => Holds x A0 m0 d (I.put v { I.page v with user := false }) m') F m := by
  obtain ⟨A, h⟩ := h
  have hlt := h.lt hv
  have hva := page_lt_uintSize (userPages_lt hlt)
  obtain ⟨t, ht⟩ := h.table hv
  unfold Xv6.clearpteu
  rw [wp_bind, h.rep.wp_walk h.img.dir hva, mul_pgsize_div, ht, Option.map_some, wp_bind,
    h.rep.wp_load h.img.dir (userPages_lt hlt) ht, wp_store]
  have hU : flag (A.pte d v &&& ~~~pteU) pteU = false := by
    rw [flag_and (by decide)]
    exact Bool.and_false _
  have hW : flag (A.pte d v &&& ~~~pteU) pteW = (I.page v).write := by
    rw [flag_and (by decide), ← h.shows.write v hv]
    exact Bool.and_true _
  have := h.reflag hwf0 hv ht (w := A.pte d v &&& ~~~pteU)
    (by rw [flag_and (by decide), h.present hv]; decide) (frame_and_not _ (by decide))
    (fun hk => by rw [hU] at hk; cases hk)
  rw [hU, hW] at this
  exact ⟨_, this⟩

end Holds

/-! ## Copying to an image -/

section

variable {F : Fault → Prop} {va : Nat} {buf : List Byte}

/-- The frame behind an address of the image, where a user may use it. -/
theorem Stands.uva2ka (h : Stands x A0 m0 d I m A) (hva : va < uintSize)
    (htab : F .nullDeref ∨ ∃ t, A.tab d (va / pgsize / npdentries) = some t) :
    wp (Xv6.uva2ka d va) (fun r m' => m' = m ∧
      r = if va / pgsize < I.size ∧ (I.page (va / pgsize)).user = true
        then some (frame (A.pte d (va / pgsize))) else none) F m := by
  unfold Xv6.uva2ka
  rw [wp_bind, h.rep.wp_walk h.img.dir hva]
  cases ht : A.tab d (va / pgsize / npdentries) with
  | none =>
    rw [Option.map_none, wp_throw]
    refine htab.resolve_right ?_
    rw [ht]
    exact nofun
  | some t =>
    rw [Option.map_some, wp_bind, h.rep.wp_load h.img.dir (page_lt hva) ht]
    by_cases hv : va / pgsize < I.size
    · rw [h.present hv, h.shows.user _ hv]
      cases (I.page (va / pgsize)).user <;> simp [hv]
    · have hno : ¬ (va / pgsize < I.size ∧ (I.page (va / pgsize)).user = true) := fun hk => hv hk.1
      cases hp : flag (A.pte d (va / pgsize)) pteP with
      | false => simp [hno]
      | true =>
        have hk : userPages ≤ va / pgsize := by
          by_contra hlt
          exact hv ((h.shows.present _ (Nat.lt_of_not_le hlt)).mp hp)
        rw [(h.img.sane.mapped.kern d _ h.img.dir hk (page_lt hva) hp).1]
        simp [hno]

omit [Link] in
theorem pgrounddown_div (va : Nat) : pgrounddown va / pgsize = va / pgsize :=
  mul_pgsize_div _

/-- The first page of a copy. -/
theorem Stands.copyout (h : Stands x A0 m0 d I m A) (hva : va < uintSize) (hbuf : buf ≠ [])
    (htab : F .nullDeref ∨ ∃ t, A.tab d (va / pgsize / npdentries) = some t)
    {Q : Bool → Mem → Prop}
    (hno : ¬ (va / pgsize < I.size ∧ (I.page (va / pgsize)).user = true) → Q false m)
    (hyes : va / pgsize < I.size → (I.page (va / pgsize)).user = true →
      wp (Xv6.copyout d (va / pgsize * pgsize + pgsize) (buf.drop (pgsize - va % pgsize))) Q F
        (m.setPage (frame (A.pte d (va / pgsize)))
          (setBytes (m.page (frame (A.pte d (va / pgsize)))) (va % pgsize)
            (buf.take (pgsize - va % pgsize))))) :
    wp (Xv6.copyout d va buf) Q F m := by
  have hmod : va - pgrounddown va = va % pgsize := by
    rw [pgrounddown, pgsize_eq]
    omega
  rw [Xv6.copyout, if_neg (by simpa using hbuf)]
  dsimp only
  rw [wp_bind]
  refine wp_post (h.uva2ka (lt_of_le_of_lt (Nat.div_mul_le_self _ _) hva) ?_) ?_
  · rw [pgrounddown_div]
    exact htab
  rw [pgrounddown_div]
  rintro r m' ⟨rfl, rfl⟩
  by_cases hok : va / pgsize < I.size ∧ (I.page (va / pgsize)).user = true
  · have hnext : (pgrounddown va + pgsize) % uintSize = va / pgsize * pgsize + pgsize := by
      have := h.lt hok.1
      rw [userPages_eq] at this
      rw [pgrounddown, pgsize_eq, uintSize_eq] at *
      omega
    have htake : buf.take (min (pgsize - va % pgsize) buf.length) = buf.take (pgsize - va % pgsize) := by
      rcases Nat.le_total (pgsize - va % pgsize) buf.length with hle | hle
      · rw [Nat.min_eq_left hle]
      · rw [Nat.min_eq_right hle, List.take_length, List.take_of_length_le hle]
    have hdrop : buf.drop (min (pgsize - va % pgsize) buf.length) = buf.drop (pgsize - va % pgsize) := by
      rcases Nat.le_total (pgsize - va % pgsize) buf.length with hle | hle
      · rw [Nat.min_eq_left hle]
      · rw [Nat.min_eq_right hle, List.drop_length, List.drop_of_length_le hle]
    rw [if_pos hok]
    dsimp only
    rw [wp_bind, writeBytes, wp_modify, hmod, hnext, htake, hdrop]
    exact hyes hok.1 hok.2
  · rw [if_neg hok, wp_pure]
    exact hno hok

/-- A copy inside one page. -/
theorem Stands.copyout_page (h : Stands x A0 m0 d I m A) (hv : v < I.size)
    (hu : (I.page v).user = true) {o : Nat} (hbuf : buf ≠ []) (hlen : o + buf.length ≤ pgsize) :
    wp (Xv6.copyout d (v * pgsize + o) buf) (fun ok m' => ok = true ∧
      m' = m.setPage (frame (A.pte d v)) (setBytes (m.page (frame (A.pte d v))) o buf)) F m := by
  have hpos : 0 < buf.length := List.length_pos_iff.mpr hbuf
  have hdiv : (v * pgsize + o) / pgsize = v := by
    rw [pgsize_eq] at *
    omega
  have hmod : (v * pgsize + o) % pgsize = o := by
    rw [pgsize_eq] at *
    omega
  have hva : v * pgsize + o < uintSize := by
    have := h.lt hv
    rw [userPages_eq] at this
    rw [pgsize_eq, uintSize_eq] at *
    omega
  refine h.copyout hva hbuf (.inr (by rw [hdiv]; exact h.table hv)) ?_ ?_
  · rw [hdiv]
    exact fun hno => absurd ⟨hv, hu⟩ hno
  · intro _ _
    rw [hdiv, hmod, List.take_of_length_le (by omega), List.drop_of_length_le (by omega),
      Xv6.copyout, if_pos List.isEmpty_nil, wp_pure]
    exact ⟨rfl, rfl⟩

/-- A copy keeps the pages and their flags.  It succeeds only on pages that a user may use, and
a missing page table is met only outside the image and the kernel's tables. -/
theorem Holds.copyout (hwf0 : A0.WF) (len : Nat) : ∀ {I : Image} {m : Mem} {va : Nat}
    {buf : List Byte}, buf.length = len → Holds x A0 m0 d I m → va < uintSize →
      (F .nullDeref ∨ va + buf.length ≤ I.size * pgsize ∨
        userPages ≤ va / pgsize ∧ va / pgsize / npdentries ∈ kernelSlots) →
      wp (Xv6.copyout d va buf) (fun ok m' => ∃ J, I.Alike J ∧ Holds x A0 m0 d J m' ∧
        (ok = true → buf ≠ [] → va + buf.length ≤ I.size * pgsize ∧
          ∀ v, va / pgsize ≤ v → v * pgsize < va + buf.length → (I.page v).user = true)) F m := by
  induction len using Nat.strong_induction_on with
  | _ len ih =>
    intro I m va buf hlen h hva hnull
    by_cases hbuf : buf = []
    · rw [Xv6.copyout, if_pos (by simp [hbuf]), wp_pure]
      exact ⟨I, .refl I, h, fun _ hne => absurd hbuf hne⟩
    obtain ⟨A, h⟩ := h
    have hpos : 0 < buf.length := List.length_pos_iff.mpr hbuf
    have htab : F .nullDeref ∨ ∃ t, A.tab d (va / pgsize / npdentries) = some t := by
      rcases hnull with hF | hin | ⟨hk, hslot⟩
      · exact .inl hF
      · refine .inr (h.table ?_)
        rw [pgsize_eq] at *
        omega
      · refine .inr ((h.kern _ ?_ (kernelSlots_lt hslot)).mpr hslot)
        rw [userPages_eq, npdentries_eq] at *
        omega
    refine h.copyout hva hbuf htab ?_ ?_
    · exact fun _ => ⟨I, .refl I, ⟨A, h⟩, nofun⟩
    intro hv hu
    have hnext : va / pgsize * pgsize + pgsize ≤ I.size * pgsize := by
      rw [pgsize_eq] at *
      omega
    have hend : va % pgsize + va / pgsize * pgsize = va := by
      rw [Nat.mul_comm]
      exact Nat.mod_add_div va pgsize
    have hmod : va % pgsize < pgsize := Nat.mod_lt _ (by decide)
    have hsize := h.shows.le
    refine wp_post (ih _ ?_ rfl ⟨A, h.write hwf0 hv _⟩ ?_ ?_) ?_
    · rw [List.length_drop]
      omega
    · rw [userPages_eq] at hsize
      rw [pgsize_eq, uintSize_eq] at *
      omega
    · refine hnull.imp_right fun hin => .inl ?_
      rw [List.length_drop, Image.put_size]
      rcases hin with hin | ⟨hk, _⟩
      · omega
      · omega
    · rintro ok m' ⟨J, halike, hJ, hok⟩
      refine ⟨J, (Image.Alike.put I _ _).trans halike, hJ, fun htrue _ => ?_⟩
      by_cases hrest : buf.drop (pgsize - va % pgsize) = []
      · rw [List.drop_eq_nil_iff] at hrest
        refine ⟨by omega, fun u hlo hhi => ?_⟩
        have : u = va / pgsize := by
          rw [pgsize_eq] at *
          omega
        rw [this]
        exact hu
      · obtain ⟨hle, hall⟩ := hok htrue hrest
        rw [List.length_drop, Image.put_size] at hle
        rw [List.drop_eq_nil_iff] at hrest
        refine ⟨by omega, fun u hlo hhi => ?_⟩
        rcases Nat.eq_or_lt_of_le hlo with rfl | hlt
        · exact hu
        · rw [← (Image.Alike.put I _ _).user u]
          refine hall u ?_ ?_
          · rw [← Nat.succ_mul, mul_pgsize_div]
            exact hlt
          · rw [List.length_drop]
            omega

/-- A copy to an address without a page table dereferences a null pointer. -/
theorem Stands.copyout_gap (h : Stands x A0 m0 d I m A) (hva : va < uintSize) (hbuf : buf ≠ [])
    (hk : userPages ≤ va / pgsize) (hgap : va / pgsize / npdentries ∉ kernelSlots) :
    wp (Xv6.copyout d va buf) (fun _ _ => False) (fun e => e = .nullDeref) m := by
  have hnone : A.tab d (va / pgsize / npdentries) = none := by
    refine Option.eq_none_iff_forall_ne_some.mpr fun t ht => hgap ((h.kern _ ?_ ?_).mp ⟨t, ht⟩)
    · rw [userPages_eq, npdentries_eq] at *
      omega
    · exact div_lt_npdentries (page_lt hva)
  have hdown : pgrounddown va < uintSize := lt_of_le_of_lt (Nat.div_mul_le_self _ _) hva
  rw [Xv6.copyout, if_neg (by simpa using hbuf)]
  dsimp only
  rw [wp_bind, Xv6.uva2ka, wp_bind, h.rep.wp_walk h.img.dir hdown, pgrounddown_div, hnone,
    Option.map_none, wp_throw]

end

/-! ## The commit -/

/-- The image stays when the old directory is freed. -/
theorem Stands.commit (h : Stands x A0 m0 d I m A) (hwf0 : A0.WF) {old : Nat} {F : Fault → Prop}
    (hold : A0.role old = .dir) (hF : F (.panic "kfree") ∨ NonZero A0 old allPages) :
    wp (Xv6.freevm old) (fun _ m' => ∃ B, Rep m' B ∧ Sane B x ∧ B.role d = .dir ∧ Shows m' B d I)
      F m := by
  have hdir : A.role old = .dir := by rw [h.img.old old (by rw [hold]; decide), hold]
  have hne : d ≠ old := (h.img.ne_dir hold).symm
  have hvs : ∀ v ∈ allPages, v < userPages := fun v hv => mem_allPages.mp hv
  have hclean := h.img.sane.mapped.clean hdir hvs
  have hF' : F (.panic "kfree") ∨ NonZero A old allPages := hF.imp_right fun hn v hv => by
    rw [h.img.pte old v hold]
    exact hn v hv
  refine wp_post (h.rep.freevm hdir hclean hF') ?_
  rintro _ m' ⟨hrep, hnz, hkeep⟩
  have hrole := hclean.freevm_role h.rep.wf hnz hdir
  -- a page of the image is named by nobody else
  have hdata : ∀ v < I.size, (A.freevm old).role (frame (A.pte d v)) = .data := by
    intro v hv
    have hd := h.data hwf0 hv
    rw [hrole, if_neg]
    · rcases A.unmapAll_role old allPages (frame (A.pte d v)) with hr | ⟨-, ⟨u, hu, hn⟩, -⟩
      · rw [hr, hd]
      · refine absurd (h.img.sane.counted.alone h.rep.wf (h.img.managed hwf0 (h.lt hv) (h.present hv))
          ?_ hdir (hvs u hu) hn h.img.dir (h.lt hv) (names_iff.mpr ⟨h.present hv, rfl⟩)).1 hne
        rw [(h.img.mine v (h.lt hv) (h.present hv)).2]
        decide
    · intro hb
      rcases (Space.belongs_iff A old _).mp hb with ⟨he, -⟩ | ⟨i, he⟩
      · rw [hd] at he
        cases he
      · rw [hd] at he
        cases he
  have hpte : ∀ v, (A.freevm old).pte d v = A.pte d v := fun v => A.freevm_pte hne v
  refine ⟨_, hrep, h.img.sane.freevm h.rep.wf hdir hnz, ?_, h.shows.le, ?_, ?_, ?_, ?_⟩
  · rw [hrole, if_neg]
    · exact h.img.sane.mapped.unmapAll_dir h.rep.wf hdir hvs h.img.dir
    · intro hb
      rcases (Space.belongs_iff A old d).mp hb with ⟨-, he⟩ | ⟨i, he⟩
      · exact hne he
      · rw [h.img.dir] at he
        cases he
  · intro v hv
    rw [hpte]
    exact h.shows.present v hv
  · intro v hv
    rw [hpte, hkeep _ (hdata v hv), h.shows.bytes v hv]
  · intro v hv
    rw [hpte, h.shows.write v hv]
  · intro v hv
    rw [hpte, h.shows.user v hv]

end Xv6
