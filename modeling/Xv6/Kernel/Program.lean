import Xv6.Kernel.Elf
import Xv6.Kernel.Growing

/-!
# The program a process runs

`Runs p I s` says that the process `p` has the image `I`: the pages of its directory
are those of `I` and no others, and its size is theirs.  `exec` that returns 0 leaves
the process with `programImage`, the segments of the file with the stack above them.
It returns -1 only where a check failed, the frames ran out or the arguments do not
fit, and then only the memory has changed.

Three facts about the images of programs follow.  The bytes are those of the file
where there are any, and zeros.  The pages have the permissions of their segments as
far as the file part goes, since `loaduvm` sets them on its way.  And the copies of the
argument strings stay in the image as long as no string is overlong.
-/

namespace Xv6

open Prog

variable {A : Space} {d n f g ncpu : Nat} {x : Bool}

variable [Link] {c p v : Nat} {s s' : Kernel} {I : Image} {readi : Readi}
  {argv : List (List Byte)} {F : Fault → Prop}

/-! ## The image of a process -/

/-- The image of the process `p` is `I`. -/
structure Runs (p : Nat) (I : Image) (s : Kernel) : Prop where
  mem : ∃ A x, Rep s.mem A ∧ Sane A x ∧ A.role (s.proc p).pgdir = .dir ∧
    Shows s.mem A (s.proc p).pgdir I
  sz : (s.proc p).sz = I.size * pgsize

namespace Runs

theorem of_pgdir (hpgdir : (s.proc p).pgdir = d) (hsz : (s.proc p).sz = I.size * pgsize)
    (hrep : Rep s.mem A) (hs : Sane A x) (hd : A.role d = .dir) (hshows : Shows s.mem A d I) :
    Runs p I s := by
  subst hpgdir
  exact ⟨⟨A, x, hrep, hs, hd, hshows⟩, hsz⟩

theorem present (h : Runs p I s) (hv : v < userPages) :
    flag (s.mem.entry (s.proc p).pgdir v) pteP = true ↔ v < I.size := by
  obtain ⟨A, x, hrep, -, hd, hshows⟩ := h.mem
  rw [hrep.entry hd (userPages_lt hv)]
  exact hshows.present v hv

theorem flags (h : Runs p I s) (hv : v < I.size) :
    flag (s.mem.entry (s.proc p).pgdir v) pteP = true ∧
    flag (s.mem.entry (s.proc p).pgdir v) pteW = (I.page v).write ∧
    flag (s.mem.entry (s.proc p).pgdir v) pteU = (I.page v).user := by
  obtain ⟨A, x, hrep, -, hd, hshows⟩ := h.mem
  have hlt := lt_of_lt_of_le hv hshows.le
  rw [hrep.entry hd (userPages_lt hlt)]
  exact ⟨(hshows.present v hlt).mpr hv, hshows.write v hv, hshows.user v hv⟩

theorem permits (h : Runs p I s) (hv : v < I.size) (w : Bool) :
    Xv6.permits (s.mem.entry (s.proc p).pgdir v) w =
      ((I.page v).user && (!w || (I.page v).write)) := by
  obtain ⟨hp, hw, hu⟩ := h.flags hv
  rw [Xv6.permits, hp, hw, hu, Bool.true_and]

/-- The process sees the bytes of the pages that a user may use. -/
theorem sees (h : Runs p I s) {a : Nat} (ha : a < I.size * pgsize)
    (hu : (I.page (a / pgsize)).user = true) : s.sees p a = some (I.byte a) := by
  obtain ⟨A, x, hrep, -, hd, hshows⟩ := h.mem
  have hv : a / pgsize < I.size := (Nat.div_lt_iff_lt_mul (by decide)).mpr ha
  have hlt := lt_of_lt_of_le hv hshows.le
  have hau : a < uintSize := by
    have := Image.top_le hshows.le
    rw [kernbase_eq] at this
    rw [uintSize_eq]
    omega
  have hperm : Xv6.permits (A.pte (s.proc p).pgdir (a / pgsize)) false = true := by
    rw [Xv6.permits, (hshows.present _ hlt).mpr hv, hshows.user _ hv, hu]
    rfl
  rw [Kernel.sees, hrep.translate hd hau, if_pos hperm, Option.map_some, hshows.bytes _ hv]
  rfl

end Runs

/-! ## `exec` -/

/-- The image of a program that was started with some arguments. -/
def programImage (readi : Readi) (argv : List (List Byte)) : Image :=
  (elfImage readi).withStack.pushed argv

omit [Link] in
@[simp] theorem programImage_size (readi : Readi) (argv : List (List Byte)) :
    (programImage readi argv).size = (elfImage readi).size + 2 := rfl

omit [Link] in
theorem programImage_page_lt (argv : List (List Byte)) (hv : v < (elfImage readi).size) :
    (programImage readi argv).page v = (elfImage readi).page v := by
  have hsize : (elfImage readi).withStack.size - 1 = (elfImage readi).size + 1 := rfl
  rw [programImage, Image.pushed, Image.put_page_ne _ _ (by omega), Image.withStack_page_lt _ hv]

omit [Link] in
theorem programImage_guard (readi : Readi) (argv : List (List Byte)) :
    ((programImage readi argv).page (elfImage readi).size).user = false := by
  have hsize : (elfImage readi).withStack.size - 1 = (elfImage readi).size + 1 := rfl
  rw [programImage, Image.pushed, Image.put_page_ne _ _ (by omega), Image.withStack,
    Image.put_page_self]

/-- What `exec` has done when it returns 0. -/
structure Started (p : Nat) (readi : Readi) (argv : List (List Byte)) (s' : Kernel) : Prop where
  ok : ∀ seg ∈ elfSegments readi, seg.Ok readi
  roomy : (elfImage readi).withStack.Roomy argv
  lt : (programImage readi argv).size * pgsize < kernbase
  runs : Runs p (programImage readi argv) s'

/-- The file is accepted, the frames suffice and the arguments fit. -/
def Startable (readi : Readi) (argv : List (List Byte)) (m : Mem) : Prop :=
  (∃ elf, Accepted readi elf) ∧ EnoughFor readi m ∧ (elfImage readi).withStack.Roomy argv

/-- The image was built, and a string of the list is overlong for its stack. -/
def HasOverlong (readi : Readi) (argv : List (List Byte)) (m : Mem) : Prop :=
  ∃ d sz m', stackImage readi m = .ok (some (d, sz), m') ∧ Overlong (sz - pgsize) sz 0 argv

/-- `exec` starts the program, or it fails and only the memory has changed. -/
theorem wp_exec (hcur : (s.cpu c).proc = some p) (hrep : Rep s.mem A) (hs : Sane A x)
    (hd : A.role (s.proc p).pgdir = .dir) (hlen : ∀ arg ∈ argv, arg.length + 1 < uintSize)
    (hkfree : F (.panic "kfree") ∨ NonZero A (s.proc p).pgdir allPages)
    (hk : F (.panic "switchuvm: no kstack") ∨ (s.proc p).kstack ≠ 0)
    (hnull : F .nullDeref ∨ ¬ HasOverlong readi argv s.mem) :
    wp (exec c (some readi) argv) (fun r s' =>
      (r = 0 ∧ Started p readi argv s') ∨
      (r = -1 ∧ ¬ Startable readi argv s.mem ∧ s' = { s with mem := s'.mem } ∧
        Undone x A s.mem s'.mem)) F s := by
  simp only [Xv6.exec, wp_bind, wp_myproc, hcur, wp_onMem]
  rw [wp_execImage]
  refine wp_post (wp_run (hrep.stackImage hs readi)) ?_
  rintro (_ | ⟨d, sz⟩) m1 ⟨hrun, h1⟩
  · rw [wp_pure]
    exact .inr ⟨rfl, fun hst => h1.2 ⟨hst.1, hst.2.1⟩, rfl, h1.1⟩
  obtain ⟨hok, rfl, hlt, B, hB⟩ := h1
  have hstack := (elfImage readi).stacked_withStack
  dsimp only
  have hnull' : F .nullDeref ∨ ¬ Overlong (elfImage readi).withStack.base
      ((elfImage readi).withStack.size * pgsize) 0 argv :=
    hnull.imp_right fun hno hover => hno ⟨d, _, m1, hrun, by rw [hstack.base_sub]; exact hover⟩
  refine wp_post (hB.pushStack hrep.wf hstack hlen hnull') ?_
  rintro (_ | esp) m2 h2
  · obtain ⟨⟨J, -, hJ⟩, hno⟩ := h2
    refine wp_post (hJ.freevm hrep.wf) fun _ m3 h3 => ?_
    rw [wp_pure]
    exact .inr ⟨rfl, fun hst => hno hst.2.2, rfl, h3⟩
  obtain ⟨hroomy, -, rfl⟩ := h2
  have hC := hB.pushed hrep.wf hstack argv
  simp only [wp_bind, wp_getProc, wp_setProc]
  refine wp_switchuvm ?_ ?_ ?_
  · simpa using hk
  · rw [Kernel.setProc_self]
    exact (hB.rep.wf.managed d (by rw [hB.img.dir]; decide)).pos.ne'
  · rw [wp_onMem]
    refine wp_post (hC.commit hrep.wf hd hkfree) ?_
    rintro _ m3 ⟨C, hrep3, hs3, hd3, hshows⟩
    rw [wp_pure]
    refine .inl ⟨rfl, hok, hroomy, hlt, .of_pgdir (d := d) ?_ ?_ hrep3 hs3 hd3 hshows⟩
    · simp [Kernel.setCpu, Kernel.setProc]
    · simp [Kernel.setCpu, Kernel.setProc, programImage, Image.pushed]

/-- A file that is accepted is started when the frames suffice and the arguments fit. -/
theorem exec_starts (hcur : (s.cpu c).proc = some p) (himg : Imaged p s)
    (hlen : ∀ arg ∈ argv, arg.length + 1 < uintSize) (hst : Startable readi argv s.mem) :
    ∃ s', exec c (some readi) argv s = .ok (0, s') ∧ Started p readi argv s' := by
  obtain ⟨A, x, hrep, hs, hd⟩ := himg.paged.mem
  have hnz : NonZero A (s.proc p).pgdir allPages := by
    intro v hv hp
    have hlt := mem_allPages.mp hv
    rw [← hrep.entry hd (userPages_lt hlt)] at hp ⊢
    by_cases hsz : v < npages (s.proc p).sz
    · exact (himg.pages v hsz).2
    · rw [himg.rest v (Nat.le_of_not_lt hsz) hlt] at hp
      cases hp
  have hover : ¬ HasOverlong readi argv s.mem := by
    rintro ⟨d, sz, m', hrun, hover⟩
    have hsz := (wp_ok (hrep.stackImage hs readi (F := fun _ => True)) hrun).size
    rw [hsz, (elfImage readi).stacked_withStack.base_sub] at hover
    exact hst.2.2.fits.not_overlong argv hover
  obtain ⟨r, s', hrun, h⟩ := wp_total (wp_exec (F := fun _ => False) hcur hrep hs hd hlen
    (.inr hnz) (.inr himg.kstack) (.inr hover))
  rcases h with ⟨rfl, hstarted⟩ | ⟨-, hno, -⟩
  · exact ⟨s', hrun, hstarted⟩
  · exact absurd hst hno

/-! ## The bytes of the image -/

section

omit [Link]

variable {ip : Inode} {seg : Segment}

/-- A full page read from an inode did not wrap around. -/
theorem Inode.read_full {off : Nat} {bs : List Byte} (hread : ip.read off n = some bs)
    (hlen : bs.length = n) (hoff : off < uintSize) (hn : n < uintSize) :
    off + n ≤ ip.size ∧ bs = (List.range n).map fun i => ip.data (off + i) := by
  unfold Inode.read at hread
  split at hread
  · cases hread
  rename_i hno
  rw [not_or, Nat.not_lt, Nat.not_lt] at hno
  have hmod : (off + n) % uintSize = off + n := by
    rw [uintSize_eq] at *
    omega
  rw [hmod] at hread
  have hbs := Option.some.inj hread
  split at hbs
  · rw [← hbs, List.length_map, List.length_range] at hlen
    omega
  · exact ⟨by omega, hbs.symm⟩

/-- The pages of a segment that could be read are those of the file. -/
theorem Segment.Ok.reads (h : seg.Ok ip.read) (hsize : ip.size < uintSize)
    (hoff : seg.off < uintSize) :
    seg.Reads ip.read ip.data ∧ (0 < seg.filesz → seg.off + seg.filesz ≤ ip.size) := by
  have hcount : ∀ k, seg.count k < uintSize := by
    intro k
    unfold Segment.count
    rw [pgsize_eq, uintSize_eq]
    split
    · omega
    · omega
  -- no offset wraps around, since the page before it was read in full
  have hwrap : ∀ k < npages seg.filesz, seg.off + k * pgsize < uintSize := by
    intro k
    induction k with
    | zero => exact fun _ => by rw [Nat.zero_mul]; exact hoff
    | succ k ih =>
      intro hk
      have hlt := ih (Nat.lt_of_succ_lt hk)
      obtain ⟨bs, hread, hlen⟩ := h.read k (Nat.lt_of_succ_lt hk)
      rw [Segment.read, Nat.mod_eq_of_lt hlt] at hread
      have hfull : seg.count k = pgsize := by
        unfold npages at hk
        rw [Segment.count, if_neg]
        rw [pgsize_eq] at *
        omega
      have hle := (Inode.read_full hread hlen hlt (hcount k)).1
      rw [hfull, Nat.add_assoc, ← Nat.succ_mul] at hle
      exact lt_of_le_of_lt hle hsize
  have hall : ∀ k < npages seg.filesz, seg.off + k * pgsize + seg.count k ≤ ip.size ∧
      seg.chunk ip.read k = (List.range (seg.count k)).map fun i =>
        ip.data (seg.off + k * pgsize + i) := by
    intro k hk
    obtain ⟨bs, hread, hlen⟩ := h.read k hk
    have hread' := hread
    rw [Segment.read, Nat.mod_eq_of_lt (hwrap k hk)] at hread'
    obtain ⟨hle, hbs⟩ := Inode.read_full hread' hlen (hwrap k hk) (hcount k)
    refine ⟨hle, ?_⟩
    rw [Segment.chunk, hread, Option.getD_some, hbs]
  refine ⟨fun k hk => ?_, fun hpos => ?_⟩
  · rw [(hall k hk).2]
    refine ⟨by rw [List.length_map, List.length_range], fun r hr => ?_⟩
    simp [hr]
  · -- the last page
    have hlast : npages seg.filesz - 1 < npages seg.filesz := by
      unfold npages
      rw [pgsize_eq]
      omega
    have hle := (hall _ hlast).1
    unfold Segment.count npages at hle
    rw [pgsize_eq] at hle
    split at hle
    · omega
    · omega

end

/-- The process has the image that the file describes. -/
structure Describes (p : Nat) (ip : Inode) (segs : List Segment) (s : Kernel) : Prop where
  aligned : (s.proc p).sz % pgsize = 0
  below : (s.proc p).sz < kernbase
  ends : ∀ seg ∈ segs, seg.vaddr + seg.memsz + 2 * pgsize ≤ (s.proc p).sz
  pages : ∀ v < userPages,
    flag (s.mem.entry (s.proc p).pgdir v) pteP = true ↔ v * pgsize < (s.proc p).sz
  bytes : ∀ seg ∈ segs, ∀ j < seg.filesz, seg.off + j < ip.size ∧
    s.sees p (seg.vaddr + j) = some (ip.data (seg.off + j))
  zero : ∀ a, a + 2 * pgsize < (s.proc p).sz →
    (∀ seg ∈ segs, ¬ (seg.vaddr ≤ a ∧ a < seg.vaddr + seg.filesz)) → s.sees p a = some 0#8
  guard : 2 * pgsize ≤ (s.proc p).sz ∧
    flag (s.mem.entry (s.proc p).pgdir ((s.proc p).sz / pgsize - 2)) pteU = false

theorem Started.describes {ip : Inode} (h : Started p ip.read argv s') (hsize : ip.size < uintSize)
    (hdisj : PageDisjoint (elfSegments ip.read)) : Describes p ip (elfSegments ip.read) s' := by
  have hreads := fun seg hseg => (h.ok seg hseg).reads hsize (elfSegments_off_lt hseg)
  have hlaid := elfImage_laid h.ok hdisj
  have hfilled := elfImage_filled h.ok hdisj fun seg hseg => (hreads seg hseg).1
  have hsz : (s'.proc p).sz = ((elfImage ip.read).size + 2) * pgsize := h.runs.sz
  have hsees : ∀ a < (elfImage ip.read).size * pgsize,
      s'.sees p a = some ((elfImage ip.read).byte a) := by
    intro a ha
    have hv : a / pgsize < (elfImage ip.read).size := (Nat.div_lt_iff_lt_mul (by decide)).mpr ha
    have hpage := programImage_page_lt argv hv
    rw [h.runs.sees, Image.byte, hpage]
    · rfl
    · refine lt_of_lt_of_le ha (Nat.mul_le_mul_right _ ?_)
      rw [programImage_size]
      exact Nat.le_add_right ..
    · rw [hpage]
      exact hlaid.user _ hv
  have htop : ((elfImage ip.read).size + 2) * pgsize =
      (elfImage ip.read).size * pgsize + 2 * pgsize := Nat.add_mul ..
  refine ⟨?_, ?_, ?_, ?_, ?_, ?_, ?_, ?_⟩
  · rw [hsz]
    exact Nat.mul_mod_left ..
  · rw [h.runs.sz]
    exact h.lt
  · intro seg hseg
    have := hlaid.below seg hseg
    omega
  · intro v hv
    rw [h.runs.present hv, hsz, programImage_size]
    exact (Nat.mul_lt_mul_right (by decide)).symm
  · intro seg hseg j hj
    have hle := (hreads seg hseg).2 (by omega)
    have hend := hlaid.below seg hseg
    have hmem := (h.ok seg hseg).le
    refine ⟨by omega, ?_⟩
    rw [hsees _ (by omega), hfilled.bytes seg hseg j hj]
  · intro a ha hno
    have hlt : a < (elfImage ip.read).size * pgsize := by omega
    rw [hsees a hlt, hfilled.zero a hlt hno]
  · omega
  · rw [hsz, mul_pgsize_div, Nat.add_sub_cancel]
    have hv : (elfImage ip.read).size < (programImage ip.read argv).size := by
      rw [programImage_size]
      omega
    rw [(h.runs.flags hv).2.2]
    exact programImage_guard ..

/-- When `exec` returns 0 the process has the image that the file describes, and no
file makes it panic while it builds one. -/
theorem exec_describes {ip : Inode} (hcur : (s.cpu c).proc = some p) (hpaged : Paged p s)
    (hsize : ip.size < uintSize) (hlen : ∀ arg ∈ argv, arg.length + 1 < uintSize) :
    wp (exec c (some ip.read) argv) (fun r s' => r = 0 → PageDisjoint (elfSegments ip.read) →
        Describes p ip (elfSegments ip.read) s')
      (fun e => e ≠ .panic "remap" ∧ e ≠ .panic "loaduvm: address should exist" ∧
        e ≠ .panic "loaduvm: addr must be page aligned") s := by
  obtain ⟨A, x, hrep, hs, hd⟩ := hpaged.mem
  refine wp_post (wp_exec hcur hrep hs hd hlen (.inl ?_) (.inl ?_) (.inl ?_)) ?_
  · decide
  · decide
  · decide
  · rintro r s' (⟨-, hst⟩ | ⟨rfl, -⟩) hr hdisj
    · exact hst.describes hsize hdisj
    · cases hr

/-! ## The permissions of the image -/

section

omit [Link]

variable {seg t : Segment} {segs : List Segment}

/-- No page belongs to two segments. -/
theorem PageDisjoint.eq (h : PageDisjoint segs) (hseg : seg ∈ segs) (ht : t ∈ segs)
    (hv : seg.Covers v) (hv' : t.Covers v) : seg = t := by
  have : Std.Symm fun s t : Segment => ∀ v, ¬ (s.Covers v ∧ t.Covers v) :=
    ⟨fun _ _ hR u hu => hR u hu.symm⟩
  by_contra hne
  exact List.Pairwise.forall h hseg ht hne v ⟨hv, hv'⟩

theorem Segment.Ok.covers_iff (h : seg.Ok readi) :
    seg.Covers v ↔ seg.vaddr / pgsize ≤ v ∧ v < seg.vaddr / pgsize + npages seg.memsz := by
  have hal := h.aligned
  constructor
  · rintro ⟨a, rfl, hlo, hhi⟩
    unfold npages
    rw [pgsize_eq] at *
    omega
  · rintro ⟨hlo, hhi⟩
    refine ⟨v * pgsize, mul_pgsize_div v, ?_, ?_⟩
    · rw [pgsize_eq] at *
      omega
    · unfold npages at hhi
      rw [pgsize_eq] at *
      omega

/-- Whether every page of the segment has a byte from the file. -/
theorem Segment.Ok.all_filePage (h : seg.Ok readi) :
    (∀ v, seg.Covers v → seg.FilePage v) ↔ npages seg.memsz = npages seg.filesz := by
  have hle := npages_mono h.le
  constructor
  · intro hall
    by_contra hne
    have := (hall (seg.vaddr / pgsize + npages seg.filesz) (h.covers_iff.mpr (by omega))).2
    omega
  · intro heq v hv
    have := h.covers_iff.mp hv
    rw [heq] at this
    exact this

end

/-- The user can write a page of a segment if the segment says so, or if no byte of the
page comes from the file. -/
theorem Started.writable (h : Started p readi argv s') (hdisj : PageDisjoint (elfSegments readi))
    {seg : Segment} (hseg : seg ∈ elfSegments readi) (hv : seg.Covers v) :
    permits (s'.mem.entry (s'.proc p).pgdir v) true = true ↔ seg.write = true ∨ ¬ seg.FilePage v := by
  have hlaid := elfImage_laid h.ok hdisj
  have hlt : v < (elfImage readi).size := by
    obtain ⟨a, rfl, -, ha⟩ := hv
    exact (Nat.div_lt_iff_lt_mul (by decide)).mpr (lt_of_lt_of_le ha (hlaid.below seg hseg))
  have hlt' : v < (programImage readi argv).size := by
    rw [programImage_size]
    omega
  rw [h.runs.permits hlt', programImage_page_lt argv hlt, hlaid.user v hlt]
  simp only [Bool.not_true, Bool.false_or, Bool.true_and]
  rw [hlaid.write v hlt]
  constructor
  · intro hall
    by_cases hf : seg.FilePage v
    · exact .inl (hall seg hseg hf)
    · exact .inr hf
  · intro hor t ht hft
    obtain rfl := hdisj.eq hseg ht hv (hft.covers (h.ok t ht))
    exact hor.resolve_right (not_not.mpr hft)

/-- After `exec` has returned 0 the permissions are those of the segments, if and only if
no read-only segment has a page without a byte from the file. -/
theorem exec_permissions (hcur : (s.cpu c).proc = some p) (hpaged : Paged p s)
    (hlen : ∀ arg ∈ argv, arg.length + 1 < uintSize) :
    wp (exec c (some readi) argv) (fun r s' => r = 0 → PageDisjoint (elfSegments readi) →
      ((∀ seg ∈ elfSegments readi, ∀ v, seg.Covers v →
          (permits (s'.mem.entry (s'.proc p).pgdir v) true = true ↔ seg.write = true)) ↔
        ∀ seg ∈ elfSegments readi, seg.write = false → npages seg.memsz = npages seg.filesz))
      (fun _ => True) s := by
  obtain ⟨A, x, hrep, hs, hd⟩ := hpaged.mem
  refine wp_post (wp_exec hcur hrep hs hd hlen (.inl trivial) (.inl trivial) (.inl trivial)) ?_
  rintro r s' (⟨-, hst⟩ | ⟨rfl, -⟩) hr hdisj
  swap
  · cases hr
  refine forall₂_congr fun seg hseg => ?_
  have hiff : (∀ v, seg.Covers v →
      (permits (s'.mem.entry (s'.proc p).pgdir v) true = true ↔ seg.write = true)) ↔
      ∀ v, seg.Covers v → (seg.write = true ∨ ¬ seg.FilePage v ↔ seg.write = true) :=
    forall₂_congr fun v hv => iff_congr (hst.writable hdisj hseg hv) .rfl
  rw [hiff, ← (hst.ok seg hseg).all_filePage]
  cases seg.write with
  | true => simp
  | false => simp

/-! ## Overlong strings -/

/-- An overlong string makes `exec` follow a null pointer. -/
theorem exec_null {sz : Nat} {m' : Mem} (hcur : (s.cpu c).proc = some p) (hpaged : Paged p s)
    (hlen : ∀ arg ∈ argv, arg.length < phystop)
    (hrun : stackImage readi s.mem = .ok (some (d, sz), m'))
    (hover : Overlong (sz - pgsize) sz 0 argv) :
    exec c (some readi) argv s = .error .nullDeref := by
  obtain ⟨A, x, hrep, hs, hd⟩ := hpaged.mem
  obtain ⟨hok, rfl, hlt, B, hB⟩ := wp_ok (hrep.stackImage hs readi (F := fun _ => True)) hrun
  have hstack := (elfImage readi).stacked_withStack
  rw [hstack.base_sub] at hover
  have hwp : wp (exec c (some readi) argv) (fun _ _ => False) (fun e => e = .nullDeref) s := by
    simp only [Xv6.exec, wp_bind, wp_myproc, hcur, wp_onMem]
    rw [wp_execImage]
    refine wp_of_run hrun ?_
    dsimp only
    unfold pushStack
    rw [wp_bind]
    exact wp_post (hB.pushArgs_null hrep.wf argv hstack hstack.top hlen hover) fun _ _ h => h.elim
  obtain ⟨e, he, rfl⟩ := wp_stops hwp
  exact he

/-- `exec` follows no null pointer if and only if no string of the list is overlong for
the stack of the image it built. -/
theorem exec_overlong (hcur : (s.cpu c).proc = some p) (hpaged : Paged p s)
    (hlen : ∀ arg ∈ argv, arg.length < phystop) :
    exec c (some readi) argv s ≠ .error .nullDeref ↔ ∀ d sz m',
      stackImage readi s.mem = .ok (some (d, sz), m') → ¬ Overlong (sz - pgsize) sz 0 argv := by
  constructor
  · intro hne d sz m' hrun hover
    exact hne (exec_null hcur hpaged hlen hrun hover)
  · intro hno he
    obtain ⟨A, x, hrep, hs, hd⟩ := hpaged.mem
    have hlen' : ∀ arg ∈ argv, arg.length + 1 < uintSize := by
      intro arg harg
      have := hlen arg harg
      rw [phystop_eq] at this
      rw [uintSize_eq]
      omega
    refine wp_error (wp_exec (F := fun e => e ≠ .nullDeref) hcur hrep hs hd hlen' (.inl nofun)
      (.inl nofun) (.inr ?_)) he rfl
    rintro ⟨d, sz, m', hrun, hover⟩
    exact hno d sz m' hrun hover

/-! ## A small program -/

/-- An ELF file of 84 bytes with one program header: 8192 bytes at address 0, the first
84 of them the file, and not to be written. -/
def sampleElf : List Byte :=
  [0x7f#8, 0x45#8, 0x4c#8, 0x46#8] ++ List.replicate 24 0#8 ++ uintBytes 52 ++
    List.replicate 12 0#8 ++ [1#8, 0#8] ++ List.replicate 6 0#8 ++
    uintBytes 1 ++ uintBytes 0 ++ uintBytes 0 ++ uintBytes 0 ++ uintBytes 84 ++ uintBytes 8192 ++
    uintBytes 5 ++ uintBytes 4096

def sampleProgram : Inode := ⟨1, 2, .file, 0, 1, 84, fun i => sampleElf.getD i 0#8⟩

section

omit [Link]

theorem sample_segments : elfSegments sampleProgram.read = [⟨0, 8192, 84, 0, 5#32⟩] := by
  decide +kernel

theorem sample_size : (elfImage sampleProgram.read).size = 2 := by
  rw [elfImage, sample_segments]
  decide +kernel

theorem sample_header : readExact sampleProgram.read 0 elfhdrSize = some (sampleElf.take 52) := by
  decide +kernel

theorem sample_ok : (⟨0, 8192, 84, 0, 5#32⟩ : Segment).Ok sampleProgram.read := by
  refine ⟨rfl, by decide, by decide, fun k hk => ?_⟩
  obtain rfl : k = 0 := Nat.lt_one_iff.mp hk
  exact ⟨sampleElf, by decide +kernel, by decide +kernel⟩

theorem sample_accepted : Accepted sampleProgram.read (sampleElf.take 52) := by
  have hoffs : headerOffsets (sampleElf.take 52) = [52] := by decide +kernel
  have hsegs : loadHeaders sampleProgram.read (headerOffsets (sampleElf.take 52)) =
      [⟨0, 8192, 84, 0, 5#32⟩] := by
    have := sample_segments
    rwa [elfSegments, sample_header] at this
  refine ⟨sample_header, by decide +kernel, ⟨?_, ?_, ?_⟩, ?_⟩
  · rw [hoffs]
    decide +kernel
  · rw [hsegs]
    exact List.forall_mem_singleton.mpr sample_ok
  · rw [hsegs]
    decide
  · show ((elfImage sampleProgram.read).size + 2) * pgsize < kernbase
    rw [sample_size]
    decide

theorem sample_disjoint : PageDisjoint (elfSegments sampleProgram.read) := by
  rw [sample_segments]
  exact List.pairwise_singleton ..

end

/-- The first process can start the program. -/
theorem Booted.startable (h : Booted s A d f g) :
    Startable sampleProgram.read [] (s.dispatch 0 0).mem := by
  have hrep : Rep (s.dispatch 0 0).mem A := h.rep
  have hfree := h.free
  have htables : kernelTables = 64 := rfl
  refine ⟨⟨_, sample_accepted⟩, ?_, trivial, by decide, ?_⟩
  · show kernelTables + 1 + 2 * ((elfImage sampleProgram.read).size + 2) ≤ _
    rw [sample_size, hrep.free]
    omega
  · show ((elfImage sampleProgram.read).size + 2 - 1) * pgsize + (3 + 0 + 1) * 4 ≤
      ((elfImage sampleProgram.read).size + 2) * pgsize
    rw [sample_size]
    decide

/-! ## A caller with a long string -/

/-- With frames for its pages a process grows, and gets pages of zeros that it can
write. -/
theorem Rep.growproc_enough {new : Nat} (h : Rep s.mem A) (hs : Sane A x)
    (hcur : (s.cpu c).proc = some p) (hd : A.role (s.proc p).pgdir = .dir)
    (hk : (s.proc p).kstack ≠ 0) (hpos : 0 < n) (hnew : (s.proc p).sz + n = new)
    (hlt : new < kernbase)
    (habs : ∀ v ∈ pagesBetween (s.proc p).sz new, flag (A.pte (s.proc p).pgdir v) pteP = false)
    (hlen : 2 * (npages new - npages (s.proc p).sz) ≤ s.mem.freelist.length) :
    wp (growproc c n) (fun _ s' => ∃ m' A', s' = { s with mem := m' }.resize c p new ∧
      Rep m' A' ∧ Sane A' x ∧ A'.role (s.proc p).pgdir = .dir ∧
      s.mem.freelist.length ≤ m'.freelist.length + 2 * (npages new - npages (s.proc p).sz) ∧
      ∀ v ∈ pagesBetween (s.proc p).sz new, permits (A'.pte (s.proc p).pgdir v) true = true ∧
        m'.page (frame (A'.pte (s.proc p).pgdir v)) = fill 0#8) (fun _ => False) s := by
  have hkern := kernbase_eq
  refine wp_growproc hcur (.inr hk) (h.wf.managed _ (by rw [hd]; nofun)).pos.ne' ?_
  dsimp only
  rw [if_pos (by omega), uadd_of_nonneg (k := new) (by omega) (by rw [uintSize_eq]; omega)]
  refine wp_post (h.grows hs hd _ new (.inr fun _ => ⟨.of_absent habs, fun v hv =>
    habs v (List.mem_of_mem_take hv)⟩)) ?_
  rintro r m' ⟨A', h', hs', hgrows, henough⟩
  have hr := henough hlt (h.free ▸ hlen)
  rw [Nat.max_eq_right (by omega)] at hr
  rw [if_neg (by omega)]
  cases hgrows with
  | refused => omega
  | smaller => omega
  | filling _ hle hfill =>
    obtain ⟨hd', -⟩ := hfill.outside h hd hs hlt
    cases hfill with
    | gaveUp => omega
    | done hfills _ hzero =>
      refine ⟨m', A', rfl, h', hs', hd', ?_, fun v hv => ⟨?_, hzero v hv⟩⟩
      · rw [h.free, h'.free]
        exact hfills.spent
      obtain ⟨f, hf⟩ := hfills.pte_mem h.wf hd
        (fun u hu => lt_userPages_of_mem (le_of_lt hlt) hu) perm_wu hv
      rw [hf, permits, flag_mkPte_pteP, flag_mkPte (by decide) (by decide),
        flag_mkPte (by decide) (by decide)]
      decide

/-- A byte of a frame is replaced. -/
def Mem.put (m : Mem) (f o : Nat) (b : Byte) : Mem := m.setPage f (setByte (m.page f) o b)

/-- A process stores to a page that it may write. -/
theorem Rep.step_store {a : Nat} (h : Rep s.mem A) (hc : c < ncpu) (hcur : (s.cpu c).proc = some p)
    (hcr3 : (s.cpu c).cr3 = d) (hd : A.role d = .dir) (ha : a < uintSize)
    (hperm : permits (A.pte d (a / pgsize)) true = true) (b : Byte) :
    Step ncpu s (.access c a (some b) none)
      { s with mem := s.mem.put (frame (A.pte d (a / pgsize))) (a % pgsize) b } := by
  obtain ⟨_, hstep, rfl⟩ := step_of_total (Q := fun s' => s' =
      { s with mem := s.mem.put (frame (A.pte d (a / pgsize))) (a % pgsize) b })
    (e := .access c a (some b) none) ⟨hc, by rw [hcur]; rfl, ha⟩ (by
      unfold Event.run access
      rw [wp_bind, wp_get, hcr3, Option.isSome_some, h.translate hd ha, if_pos hperm]
      dsimp only
      rw [wp_onMem, wp_modify]
      rfl)
  exact hstep

/-- A process fills a range of its memory with one byte. -/
theorem Rep.run_store (hs : Sane A x) (hd : A.role d = .dir) (hc : c < ncpu) (b : Byte) (lo n : Nat)
    (hperm : ∀ a, lo ≤ a → a < lo + n → a / pgsize < userPages ∧
      permits (A.pte d (a / pgsize)) true = true) (hrep : Rep s.mem A)
    (hcur : (s.cpu c).proc = some p) (hcr3 : (s.cpu c).cr3 = d) :
    ∃ m', Trace.Run (Step ncpu) s ((List.range' lo n).map fun a => .access c a (some b) none)
        { s with mem := m' } ∧ Rep m' A ∧ m'.freelist = s.mem.freelist ∧
      ∀ a, a / pgsize < userPages → permits (A.pte d (a / pgsize)) true = true →
        m'.page (frame (A.pte d (a / pgsize))) (a % pgsize) =
          if lo ≤ a ∧ a < lo + n then b
          else s.mem.page (frame (A.pte d (a / pgsize))) (a % pgsize) := by
  induction n with
  | zero =>
    refine ⟨s.mem, .nil, hrep, rfl, fun a _ _ => ?_⟩
    rw [if_neg (by omega)]
  | succ n ih =>
    obtain ⟨m', hrun, hrep', hfree, hpages⟩ := ih fun a h1 h2 => hperm a h1 (by omega)
    obtain ⟨hu, hw⟩ := hperm (lo + n) (by omega) (by omega)
    have hau : lo + n < uintSize := by
      rw [userPages_eq, pgsize_eq] at hu
      rw [uintSize_eq]
      omega
    have hpres : ∀ a, permits (A.pte d (a / pgsize)) true = true →
        flag (A.pte d (a / pgsize)) pteP = true ∧ flag (A.pte d (a / pgsize)) pteU = true := by
      intro a ha
      rw [permits, Bool.and_eq_true, Bool.and_eq_true] at ha
      exact ha.1
    have hdata : Managed (frame (A.pte d ((lo + n) / pgsize))) ∧
        A.role (frame (A.pte d ((lo + n) / pgsize))) = .data := by
      rcases hs.mapped.user d _ hd hu (hpres _ hw).1 with ⟨-, hno⟩ | hm
      · rw [(hpres _ hw).2] at hno
        cases hno
      · exact hm
    have hstep := Rep.step_store (s := { s with mem := m' }) hrep' hc hcur hcr3 hd hau hw b
    refine ⟨m'.put (frame (A.pte d ((lo + n) / pgsize))) ((lo + n) % pgsize) b, ?_,
      hrep'.setPage _ (by rw [hdata.2]; rfl), hfree, fun a hau' haw => ?_⟩
    · rw [List.range'_1_concat, List.map_append]
      exact .snoc hrun hstep
    · have hprev := hpages a hau' haw
      by_cases hf : frame (A.pte d (a / pgsize)) = frame (A.pte d ((lo + n) / pgsize))
      · -- the same frame is the same page
        have hv := hs.mapped.same d _ d _ hd hd hu hau' (hpres _ hw).1 (hpres _ haw).1 hf
          hdata.1.pos.ne'
        rw [hf] at hprev ⊢
        rw [Mem.put, Mem.setPage_self, setByte]
        by_cases ho : a % pgsize = (lo + n) % pgsize
        · have ha : a = lo + n := by
            rw [← Nat.div_add_mod a pgsize, ← Nat.div_add_mod (lo + n) pgsize, hv, ho]
          rw [if_pos ho, if_pos (by omega)]
        · have hne : a ≠ lo + n := fun he => ho (by rw [he])
          rw [if_neg ho, hprev]
          exact if_congr (by omega) rfl rfl
      · have hne : a ≠ lo + n := fun he => hf (by rw [he])
        rw [Mem.put, Mem.setPage_ne _ _ hf, hprev]
        exact if_congr (by omega) rfl rfl

/-- The first process grows, and fills its new memory with a string of `n` bytes. -/
theorem Booted.longString {w : Word} (h : Booted s A d f g) (hn : 0 < ncpu)
    (hw : w.toInt = (n + pgsize : Nat)) (hlen : n < 50000000) (b : Byte) :
    ∃ es s', Trace.Run (Step ncpu) s es s' ∧ (s'.cpu 0).proc = some 0 ∧ Paged 0 s' ∧
      (s'.proc 0).sz = pgsize + n + pgsize ∧ 1000 ≤ s'.mem.freelist.length ∧
      (∀ j < n, s'.sees 0 (pgsize + j) = some b) ∧ s'.sees 0 (pgsize + n) = some 0#8 := by
  have hpr := h.dispatched
  have hat := at_dispatch s 0 0
  have hrep : Rep (s.dispatch 0 0).mem A := h.rep
  have hpgdir : ((s.dispatch 0 0).proc 0).pgdir = d := by rw [hpr]
  have hsz : ((s.dispatch 0 0).proc 0).sz = pgsize := by rw [hpr]
  have hkill : ((s.dispatch 0 0).proc 0).killed = false := by rw [hpr]; rfl
  have hkern := kernbase_eq
  have hps := pgsize_eq
  have hnp : npages (pgsize + n + pgsize) - npages pgsize ≤ 12209 := by
    unfold npages
    rw [pgsize_eq]
    omega
  have hone : npages pgsize = 1 := by decide
  have hnew : ((s.dispatch 0 0).proc 0).sz + (n + pgsize) = pgsize + n + pgsize := by omega
  have hfree := h.free
  rw [← hrep.free] at hfree
  have hrange : ∀ {v}, v ∈ pagesBetween pgsize (pgsize + n + pgsize) → v < userPages := fun hv =>
    lt_userPages_of_mem (by rw [hkern, hps]; omega) hv
  obtain ⟨s2, hstep, m', A', rfl, hrep', hs', hd', hspent, hpages⟩ := step_of_total
    (Q := fun s' => ∃ m' A', s' = { s.dispatch 0 0 with mem := m' }.resize 0 0 (pgsize + n + pgsize) ∧
      Rep m' A' ∧ Sane A' true ∧ A'.role d = .dir ∧
      (s.dispatch 0 0).mem.freelist.length ≤ m'.freelist.length +
        2 * (npages (pgsize + n + pgsize) - npages pgsize) ∧
      ∀ v ∈ pagesBetween pgsize (pgsize + n + pgsize), permits (A'.pte d v) true = true ∧
        m'.page (Xv6.frame (A'.pte d v)) = fill 0#8)
    (e := .syscall 0 (.sbrk w)) (s := s.dispatch 0 0) ⟨hn, by rw [hat.cur]; rfl⟩ (by
      refine wp_syscall hat.cur hkill ?_
      simp only [Call.body, wp_bind, wp_pure]
      rw [hw]
      refine wp_post (hrep.growproc_enough (h.sane true) hat.cur (by rw [hpgdir]; exact h.dir)
        h.imaged.kstack (by omega) hnew (by omega) ?_ (by rw [hsz]; omega)) ?_
      · intro v hv
        rw [hsz] at hv
        have := (mem_pagesBetween.mp hv).1
        rw [hpgdir, h.rest v (hrange hv) (by omega), flag_zero]
      · rintro _ s' ⟨m', A', rfl, hpost⟩
        rw [hpgdir, hsz] at hpost
        refine wp_exitIfKilled (p := 0) ?_ ?_ ⟨m', A', rfl, hpost⟩
        · rw [Kernel.resize_cpu]
          exact hat.cur
        · rw [Kernel.resize_proc]
          exact hkill)
  have hin : ∀ a, pgsize ≤ a → a < pgsize + n + pgsize →
      a / pgsize ∈ pagesBetween pgsize (pgsize + n + pgsize) := by
    intro a hlo hhi
    rw [mem_pagesBetween, hone]
    unfold npages
    rw [pgsize_eq] at *
    omega
  have hcur2 : ((({ s.dispatch 0 0 with mem := m' } : Kernel).resize 0 0 (pgsize + n + pgsize)).cpu
      0).proc = some 0 := by
    rw [Kernel.resize_cpu]
    exact hat.cur
  have hcr3 : ((({ s.dispatch 0 0 with mem := m' } : Kernel).resize 0 0 (pgsize + n + pgsize)).cpu
      0).cr3 = d := by
    rw [Kernel.resize_cpu]
    exact hpgdir
  have hpg2 : ((({ s.dispatch 0 0 with mem := m' } : Kernel).resize 0 0 (pgsize + n + pgsize)).proc
      0).pgdir = d := by
    rw [Kernel.resize_proc]
    exact hpgdir
  obtain ⟨m3, hrun, hrep3, hfree3, hbytes⟩ := Rep.run_store hs' hd' hn b pgsize n
    (fun a hlo hhi => ⟨hrange (hin a hlo (by omega)), (hpages _ (hin a hlo (by omega))).1⟩) hrep' hcur2 hcr3
  have hsees : ∀ a, pgsize ≤ a → a < pgsize + n + pgsize →
      Kernel.sees { ({ s.dispatch 0 0 with mem := m' } : Kernel).resize 0 0 (pgsize + n + pgsize) with
        mem := m3 } 0 a = some (if a < pgsize + n then b else 0#8) := by
    intro a hlo hhi
    obtain ⟨hperm, hzero⟩ := hpages _ (hin a hlo hhi)
    have hread : permits (A'.pte d (a / pgsize)) false = true := by
      rw [permits, Bool.and_eq_true] at hperm
      rw [permits, hperm.1]
      rfl
    unfold Kernel.sees
    dsimp only
    rw [hpg2, hrep3.translate hd' (by rw [uintSize_eq]; omega), if_pos hread, Option.map_some,
      hbytes a (hrange (hin a hlo hhi)) hperm]
    congr 1
    by_cases hlt : a < pgsize + n
    · rw [if_pos ⟨hlo, hlt⟩, if_pos hlt]
    · rw [if_neg fun hc => hlt hc.2, if_neg hlt]
      exact congrFun hzero _
  refine ⟨_, _, ((Trace.Run.single (h.sched hn)).append (.single hstep)).append hrun, hcur2,
    ⟨A', true, hrep3, hs', hpg2 ▸ hd'⟩, Kernel.resize_sz _ 0 0 _, ?_, fun j hj => ?_, ?_⟩
  · show 1000 ≤ m3.freelist.length
    rw [hfree3]
    change 1000 ≤ m'.freelist.length
    omega
  · rw [hsees _ (by omega) (by omega), if_pos (by omega)]
  · rw [hsees _ (by omega) (by omega), if_neg (by omega)]

/-! ## The small program in the first process -/

/-- The image is built when the file is accepted and the frames suffice. -/
theorem Paged.stackImage_enough {elf : List Byte} (h : Paged p s) (hacc : Accepted readi elf)
    (hlen : EnoughFor readi s.mem) : ∃ d sz m', stackImage readi s.mem = .ok (some (d, sz), m') ∧
      sz = (elfImage readi).withStack.size * pgsize := by
  obtain ⟨A, x, hrep, hs, -⟩ := h.mem
  obtain ⟨r, m', hrun, hr⟩ := wp_total (hrep.stackImage (F := fun _ => False) hs readi)
  cases r with
  | none => exact absurd ⟨⟨elf, hacc⟩, hlen⟩ hr.2
  | some r => exact ⟨r.1, r.2, m', hrun, hr.size⟩

theorem Booted.starts (h : Booted s A d f g) :
    ∃ s', exec 0 (some sampleProgram.read) [] (s.dispatch 0 0) = .ok (0, s') ∧
      Started 0 sampleProgram.read [] s' :=
  exec_starts (at_dispatch s 0 0).cur h.imaged nofun h.startable

section

omit [Link]

theorem exec_describes_sample : ∃ s0 s s', @Boot sampleLink 2 s0 ∧
    Trace.Run (@Step sampleLink 2) s0 [.sched 0 0] s ∧
    @exec sampleLink 0 (some sampleProgram.read) [] s = .ok (0, s') ∧
    Describes 0 sampleProgram (elfSegments sampleProgram.read) s' := by
  let : Link := sampleLink
  obtain ⟨s0, A, d, f, g, hboot, hb⟩ := sample_boot
  obtain ⟨s', hrun, -⟩ := hb.starts
  refine ⟨s0, _, s', hboot, .single (hb.sched (by decide)), hrun, ?_⟩
  exact wp_ok (exec_describes (at_dispatch s0 0 0).cur hb.imaged.paged (by decide) (by simp)) hrun rfl
    sample_disjoint

theorem exec_permissions_sample : ∃ s0 s s', @Boot sampleLink 2 s0 ∧
    Trace.Run (@Step sampleLink 2) s0 [.sched 0 0] s ∧
    @exec sampleLink 0 (some sampleProgram.read) [] s = .ok (0, s') ∧
    ((∀ seg ∈ elfSegments sampleProgram.read, ∀ v, seg.Covers v →
        (permits (s'.mem.entry (s'.proc 0).pgdir v) true = true ↔ seg.write = true)) ↔
      ∀ seg ∈ elfSegments sampleProgram.read, seg.write = false →
        npages seg.memsz = npages seg.filesz) := by
  let : Link := sampleLink
  obtain ⟨s0, A, d, f, g, hboot, hb⟩ := sample_boot
  obtain ⟨s', hrun, -⟩ := hb.starts
  refine ⟨s0, _, s', hboot, .single (hb.sched (by decide)), hrun, ?_⟩
  exact wp_ok (exec_permissions (at_dispatch s0 0 0).cur hb.imaged.paged (by simp)) hrun rfl
    sample_disjoint

/-- The second page of the read-only segment of the small program can be written. -/
theorem exec_leaves_writable : ∃ s0 s s' seg, @Boot sampleLink 2 s0 ∧
    Trace.Run (@Step sampleLink 2) s0 [.sched 0 0] s ∧
    @exec sampleLink 0 (some sampleProgram.read) [] s = .ok (0, s') ∧
    elfSegments sampleProgram.read = [seg] ∧ seg.write = false ∧ seg.Covers 0 ∧ seg.Covers 1 ∧
    permits (s'.mem.entry (s'.proc 0).pgdir 0) true = false ∧
    permits (s'.mem.entry (s'.proc 0).pgdir 1) true = true := by
  let : Link := sampleLink
  obtain ⟨s0, A, d, f, g, hboot, hb⟩ := sample_boot
  obtain ⟨s', hrun, hst⟩ := hb.starts
  have hseg : (⟨0, 8192, 84, 0, 5#32⟩ : Segment) ∈ elfSegments sampleProgram.read := by
    rw [sample_segments]
    exact List.mem_cons_self
  have h0 : (⟨0, 8192, 84, 0, 5#32⟩ : Segment).Covers 0 := ⟨0, by decide, by decide, by decide⟩
  have h1 : (⟨0, 8192, 84, 0, 5#32⟩ : Segment).Covers 1 := ⟨4096, by decide, by decide, by decide⟩
  refine ⟨s0, _, s', _, hboot, .single (hb.sched (by decide)), hrun, sample_segments, by decide, h0,
    h1, ?_, ?_⟩
  · rw [← Bool.not_eq_true, hst.writable sample_disjoint hseg h0]
    rintro (hw | hf)
    · exact absurd hw (by decide)
    · exact hf ⟨by decide, by decide⟩
  · rw [hst.writable sample_disjoint hseg h1]
    exact .inr fun hf => absurd hf.2 (by decide)

theorem exec_overlong_sample : ∃ s0 s, @Boot sampleLink 2 s0 ∧
    Trace.Run (@Step sampleLink 2) s0 [.sched 0 0] s ∧
    @exec sampleLink 0 (some sampleProgram.read) [[0x61#8]] s ≠ .error .nullDeref := by
  let : Link := sampleLink
  obtain ⟨s0, A, d, f, g, hboot, hb⟩ := sample_boot
  refine ⟨s0, _, hboot, .single (hb.sched (by decide)), ?_⟩
  refine (exec_overlong (at_dispatch s0 0 0).cur hb.imaged.paged (by simp [phystop_eq])).mpr ?_
  rintro d sz m' hrun ⟨-, hover⟩
  obtain ⟨A, x, hrep, hs, -⟩ := hb.imaged.paged.mem
  have hsz := (wp_ok (hrep.stackImage hs sampleProgram.read (F := fun _ => True)) hrun).size
  change sz = ((elfImage sampleProgram.read).size + 2) * pgsize at hsz
  rw [sample_size] at hsz
  subst hsz
  rw [if_pos (by decide)] at hover
  exact hover

/-- A process with a string of more than 32 MB starts the small program with it, and the
kernel follows a null pointer. -/
theorem exec_null_string : ∃ s0 es s, @Boot sampleLink 2 s0 ∧
    Trace.Run (@Step sampleLink 2) s0 es s ∧ (s.cpu 0).proc = some 0 ∧
    (s.proc 0).sz = 33628160 ∧ (∀ j < 33619968, s.sees 0 (4096 + j) = some 0x61#8) ∧
    s.sees 0 (4096 + 33619968) = some 0#8 ∧
    @exec sampleLink 0 (some sampleProgram.read) [List.replicate 33619968 0x61#8] s =
      .error .nullDeref := by
  let : Link := sampleLink
  obtain ⟨s0, A, d, f, g, hboot, hb⟩ := sample_boot
  obtain ⟨es, s, hrun, hcur, hpaged, hsz, hfree, hbytes, hend⟩ := hb.longString
    (n := 33619968) (w := 33624064#32) (show 0 < 2 by decide) (by decide) (by decide) 0x61#8
  have htables : kernelTables = 64 := rfl
  obtain ⟨d, sz, m', himg, hsize⟩ := hpaged.stackImage_enough sample_accepted (by
    show kernelTables + 1 + 2 * ((elfImage sampleProgram.read).size + 2) ≤ _
    rw [sample_size]
    omega)
  change sz = ((elfImage sampleProgram.read).size + 2) * pgsize at hsize
  rw [sample_size] at hsize
  refine ⟨s0, es, s, hboot, hrun, hcur, hsz, hbytes, hend, exec_null hcur hpaged ?_ himg ?_⟩
  · intro arg harg
    rw [List.mem_singleton.mp harg, List.length_replicate, phystop_eq]
    decide
  · subst hsize
    refine ⟨by decide, ?_⟩
    rw [List.length_replicate, if_neg (by decide)]
    decide

end

end Xv6
