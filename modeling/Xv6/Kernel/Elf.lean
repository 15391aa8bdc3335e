import Xv6.Kernel.Args

/-!
# Loading the segments of a program

`elfSegments` decodes the `LOAD` headers of a program file, and `elfImage` is the image that
loading them one after the other gives.  `Rep.stackImage` says that `exec`, as far as its two
stack pages, builds exactly that image or undoes all of it.

What the image is for is said apart from how it is built.  `Image.Laid` is about its pages: the
segments lie below its size, and a page is read-only when a read-only segment was loaded to it.
`Image.Filled` is about its bytes: those of the file where a segment has some, and zeros.  Both
are kept by `Image.addSegment`, one segment at a time, as long as no two segments share a page.

A segment is loaded page by page for the length of its file part, `filesz`, and that is as far as
its permission goes (`Segment.FilePage`).
-/

namespace Xv6

open Prog

/-! ## Segments -/

/-- A program header of type `LOAD`. -/
structure Segment where
  vaddr : Nat
  memsz : Nat
  filesz : Nat
  off : Nat
  flags : Word
deriving DecidableEq

namespace Segment

def ofHeader (ph : List Byte) : Segment :=
  ⟨field ph 8 4, field ph 20 4, field ph 16 4, field ph 4 4, BitVec.ofNat 32 (field ph 24 4)⟩

/-- The write flag. -/
def write (s : Segment) : Bool := flag s.flags elfProgFlagWrite

/-- The page `v` has an address of the segment. -/
def Covers (s : Segment) (v : Nat) : Prop :=
  ∃ a, a / pgsize = v ∧ s.vaddr ≤ a ∧ a < s.vaddr + s.memsz

/-- The page `v` is one of those that `loaduvm` loads. -/
def FilePage (s : Segment) (v : Nat) : Prop :=
  s.vaddr / pgsize ≤ v ∧ v < s.vaddr / pgsize + npages s.filesz

instance (s : Segment) (v : Nat) : Decidable (s.FilePage v) := inferInstanceAs (Decidable (_ ∧ _))

/-- The number of bytes of the file on page `k` of the segment. -/
def count (s : Segment) (k : Nat) : Nat :=
  if s.filesz - k * pgsize < pgsize then s.filesz - k * pgsize else pgsize

/-- The result of reading page `k` of the segment. -/
def read (s : Segment) (readi : Readi) (k : Nat) : Option (List Byte) :=
  readi ((s.off + k * pgsize) % uintSize) (s.count k)

def chunk (s : Segment) (readi : Readi) (k : Nat) : List Byte := (s.read readi k).getD []

/-- What `exec` checks of a segment, and that all of it could be read. -/
structure Ok (s : Segment) (readi : Readi) : Prop where
  aligned : s.vaddr % pgsize = 0
  le : s.filesz ≤ s.memsz
  lt : s.vaddr + s.memsz < kernbase
  read : ∀ k < npages s.filesz, ∃ bs, s.read readi k = some bs ∧ bs.length = s.count k

end Segment

/-- The offsets of the program headers. -/
def headerOffsets (elf : List Byte) : List Nat :=
  (List.range (field elf 44 2)).map fun i => (field elf 28 4 + i * proghdrSize) % uintSize

/-- The `LOAD` headers at some offsets. -/
def loadHeaders (readi : Readi) (offs : List Nat) : List Segment :=
  offs.filterMap fun off => (readExact readi off proghdrSize).bind fun ph =>
    if field ph 0 4 = elfProgLoad then some (.ofHeader ph) else none

/-- The segments of a program. -/
def elfSegments (readi : Readi) : List Segment :=
  match readExact readi 0 elfhdrSize with
  | none => []
  | some elf => loadHeaders readi (headerOffsets elf)

/-! ## The image of the segments -/

namespace Image

/-- A page is read from the file. -/
def load (I : Image) (v : Nat) (bs : List Byte) (w : Bool) : Image :=
  I.put v { I.page v with bytes := setBytes (I.page v).bytes 0 bs, write := w }

/-- Pages from `b` on are read from the file. -/
def loads (I : Image) (b : Nat) (w : Bool) (chunk : Nat → List Byte) (ks : List Nat) : Image :=
  ks.foldl (fun I k => I.load (b + k) (chunk k) w) I

/-- A segment is added. -/
def addSegment (readi : Readi) (I : Image) (s : Segment) : Image :=
  (I.grow (max I.size (npages (s.vaddr + s.memsz)))).loads (s.vaddr / pgsize) s.write
    (s.chunk readi) (List.range (npages s.filesz))

theorem loads_size (b : Nat) (w : Bool) (chunk : Nat → List Byte) (ks : List Nat) :
    ∀ I : Image, (I.loads b w chunk ks).size = I.size := by
  induction ks with
  | nil => exact fun _ => rfl
  | cons k ks ih => exact fun I => ih (I.load (b + k) (chunk k) w)

theorem loads_range_page (I : Image) (b : Nat) (w : Bool) (chunk : Nat → List Byte) (n v : Nat) :
    (I.loads b w chunk (List.range n)).page v = if b ≤ v ∧ v < b + n
      then { I.page v with bytes := setBytes (I.page v).bytes 0 (chunk (v - b)), write := w }
      else I.page v := by
  induction n with
  | zero => rw [if_neg (by omega)]; rfl
  | succ n ih =>
    rw [loads, List.range_succ, List.foldl_append]
    change ((I.loads b w chunk (List.range n)).load (b + n) (chunk n) w).page v = _
    by_cases hv : v = b + n
    · subst hv
      rw [load, put_page_self, ih, if_neg (by omega), if_pos (by omega), Nat.add_sub_cancel_left]
    · rw [load, put_page_ne _ _ hv, ih]
      exact if_congr (by omega) rfl rfl

theorem addSegment_size (readi : Readi) (I : Image) (s : Segment) :
    (I.addSegment readi s).size = max I.size (npages (s.vaddr + s.memsz)) := loads_size ..

/-- A page after a segment was added. -/
theorem addSegment_page (readi : Readi) (I : Image) (s : Segment) (v : Nat) :
    (I.addSegment readi s).page v =
      let pg := if v < I.size then I.page v else .fresh
      if s.FilePage v then
        { pg with bytes := setBytes pg.bytes 0 (s.chunk readi (v - s.vaddr / pgsize))
                  write := s.write }
      else pg := by
  rw [addSegment, loads_range_page]
  rfl

/-- The bytes of a page after a segment was added. -/
theorem addSegment_bytes (readi : Readi) (I : Image) (s : Segment) (v : Nat) :
    ((I.addSegment readi s).page v).bytes =
      let pg := (if v < I.size then I.page v else .fresh).bytes
      if s.FilePage v then setBytes pg 0 (s.chunk readi (v - s.vaddr / pgsize)) else pg := by
  rw [addSegment_page]
  dsimp only
  split
  · rfl
  · rfl

end Image

/-- The image that the segments of a program give. -/
def elfImage (readi : Readi) : Image := (elfSegments readi).foldl (Image.addSegment readi) .empty

/-! ## Building it -/

variable [Link] {x : Bool} {A0 A : Space} {m0 m : Mem} {d : Nat} {F : Fault → Prop}

omit [Link] in
/-- `loaduvm` changes the write bit only. -/
theorem loadFlags (w flags : Word) (hp : flag w pteP = true) :
    let w' := if flag flags elfProgFlagWrite then w ||| elfProgFlagWrite
      else w &&& ~~~elfProgFlagWrite
    flag w' pteP = true ∧ frame w' = frame w ∧ flag w' pteU = flag w pteU ∧
      flag w' pteW = flag flags elfProgFlagWrite := by
  dsimp only
  split
  · rename_i hf
    refine ⟨?_, frame_or _ (by decide), ?_, ?_⟩
    · rw [flag_or (by decide), hp, Bool.true_or]
    · rw [flag_or (by decide), show flag elfProgFlagWrite pteU = false by decide, Bool.or_false]
    · rw [flag_or (by decide), show flag elfProgFlagWrite pteW = true by decide, Bool.or_true, hf]
  · rename_i hf
    refine ⟨?_, frame_and_not _ (by decide), ?_, ?_⟩
    · rw [flag_and (by decide), hp]
      decide
    · rw [flag_and (by decide), show flag (~~~elfProgFlagWrite) pteU = true by decide,
        Bool.and_true]
    · rw [flag_and (by decide), show flag (~~~elfProgFlagWrite) pteW = false by decide,
        Bool.and_false, Bool.eq_false_iff.mpr hf]

/-- The page `k` of a segment is read into its frame and its permission set. -/
theorem Stands.loadPage {I : Image} (h : Stands x A0 m0 d I m A) (hwf0 : A0.WF) {v t : Nat}
    (hv : v < I.size) (ht : A.tab d (v / npdentries) = some t) (bs : List Byte) (flags : Word) :
    let m1 := m.setPage (frame (A.pte d v)) (setBytes (m.page (frame (A.pte d v))) 0 bs)
    let w := if flag flags elfProgFlagWrite then A.pte d v ||| elfProgFlagWrite
      else A.pte d v &&& ~~~elfProgFlagWrite
    Holds x A0 m0 d (I.load v bs (flag flags elfProgFlagWrite))
      (m1.setPage t (setWord (m1.page t) (v % npdentries) w)) := by
  dsimp only
  obtain ⟨hp, hfr, hU, hW⟩ := loadFlags (A.pte d v) flags (h.present hv)
  have h1 := h.write hwf0 hv (setBytes (m.page (frame (A.pte d v))) 0 bs)
  have h2 := h1.reflag hwf0 hv ht hp hfr fun hk => hU ▸ hk
  rw [hU, hW, h.shows.user v hv, h.shows.bytes v hv, Image.put_put, Image.put_page_self] at h2
  rw [h.shows.bytes v hv]
  exact ⟨_, h2⟩

theorem Holds.loadLoop (hwf0 : A0.WF) (readi : Readi) (s : Segment) {b : Nat}
    (hb : s.vaddr = b * pgsize) (ks : List Nat) : ∀ {I : Image} {m : Mem}, Holds x A0 m0 d I m →
      (∀ k ∈ ks, b + k < I.size) →
      wp (Xv6.loadLoop d s.vaddr readi s.off s.filesz s.flags ks) (fun ok m' =>
        m'.freelist = m.freelist ∧
        (ok = true ↔ ∀ k ∈ ks, ∃ bs, s.read readi k = some bs ∧ bs.length = s.count k) ∧
        if ok then Holds x A0 m0 d (I.loads b s.write (s.chunk readi) ks) m'
        else ∃ J, J.size = I.size ∧ Holds x A0 m0 d J m') F m := by
  induction ks with
  | nil =>
    intro I m h _
    rw [Xv6.loadLoop, wp_pure]
    exact ⟨rfl, ⟨fun _ => nofun, fun _ => rfl⟩, h⟩
  | cons k ks ih =>
    intro I m h hks
    obtain ⟨A, h⟩ := h
    have hv := hks k List.mem_cons_self
    have hlt := h.lt hv
    have hva : s.vaddr + k * pgsize < uintSize := by
      rw [userPages_eq] at hlt
      rw [hb, pgsize_eq, uintSize_eq]
      omega
    have hpage : (s.vaddr + k * pgsize) / pgsize = b + k := by
      rw [hb, ← Nat.add_mul, mul_pgsize_div]
    obtain ⟨t, ht⟩ := h.table hv
    rw [Xv6.loadLoop, wp_bind, h.rep.wp_walk h.img.dir hva, hpage, ht, Option.map_some, wp_bind,
      h.rep.wp_load h.img.dir (userPages_lt hlt) ht]
    dsimp only
    change wp (match s.read readi k with
      | none => pure false
      | some bs => _) _ F m
    cases hread : s.read readi k with
    | none =>
      rw [wp_pure]
      refine ⟨rfl, ⟨nofun, fun hall => ?_⟩, I, rfl, A, h⟩
      obtain ⟨bs, hbs, -⟩ := hall k List.mem_cons_self
      rw [hread] at hbs
      cases hbs
    | some bs =>
      have h1 := h.write hwf0 hv (setBytes (m.page (frame (A.pte d (b + k)))) 0
        (bs.take (s.count k)))
      change wp (do
        writeBytes (frame (A.pte d (b + k))) 0 (bs.take (s.count k))
        if bs.length ≠ s.count k then pure false else _) _ F m
      rw [wp_bind, writeBytes, wp_modify, wp_ite]
      split
      · rename_i hcount
        rw [wp_pure]
        refine ⟨rfl, ⟨nofun, fun hall => ?_⟩, _, Image.put_size .., A, h1⟩
        obtain ⟨bs', hbs, hlen⟩ := hall k List.mem_cons_self
        rw [hread, Option.some.injEq] at hbs
        exact absurd (hbs ▸ hlen) hcount
      rename_i hcount
      rw [not_not] at hcount
      rw [wp_bind, h1.rep.wp_load h.img.dir (userPages_lt hlt) ht, wp_bind, wp_store]
      have hload := h.loadPage hwf0 hv ht bs s.flags
      rw [← hcount, List.take_length]
      refine wp_post (ih hload fun j hj => hks j (List.mem_cons_of_mem k hj)) ?_
      rintro ok m' ⟨hfree, hiff, hok⟩
      have hchunk : s.chunk readi k = bs := by
        rw [Segment.chunk, hread]
        rfl
      refine ⟨hfree, hiff.trans ?_, ?_⟩
      · rw [List.forall_mem_cons]
        exact (and_iff_right ⟨bs, hread, hcount⟩).symm
      · rw [← hchunk] at hok
        exact hok

theorem Holds.loaduvm {I : Image} (h : Holds x A0 m0 d I m) (hwf0 : A0.WF) (readi : Readi)
    (s : Segment) (hal : s.vaddr % pgsize = 0) (hsize : npages (s.vaddr + s.filesz) ≤ I.size) :
    wp (Xv6.loaduvm d s.vaddr readi s.off s.filesz s.flags) (fun ok m' =>
      m'.freelist = m.freelist ∧ (ok = true ↔
        ∀ k < npages s.filesz, ∃ bs, s.read readi k = some bs ∧ bs.length = s.count k) ∧
      if ok then Holds x A0 m0 d (I.loads (s.vaddr / pgsize) s.write (s.chunk readi)
        (List.range (npages s.filesz))) m'
      else ∃ J, J.size = I.size ∧ Holds x A0 m0 d J m') F m := by
  have hb : s.vaddr = s.vaddr / pgsize * pgsize := by
    rw [pgsize_eq] at *
    omega
  rw [Xv6.loaduvm, if_neg (by rw [hal]; decide)]
  refine wp_post (Holds.loadLoop hwf0 readi s hb _ h fun k hk => ?_) ?_
  · rw [List.mem_range] at hk
    refine lt_of_lt_of_le ?_ hsize
    unfold npages at *
    rw [pgsize_eq] at *
    omega
  · rintro ok m' ⟨hfree, hiff, hok⟩
    exact ⟨hfree, by simpa only [List.mem_range] using hiff, hok⟩

section

omit [Link]

theorem field_lt (bs : List Byte) (o n : Nat) : field bs o n < 256 ^ n := by
  induction n generalizing o with
  | zero => exact Nat.one_pos
  | succ n ih =>
    have h1 := ih (o + 1)
    have h2 := (bs.getD o 0#8).isLt
    rw [field, Nat.pow_succ]
    omega

theorem elfSegments_off_lt {readi : Readi} {s : Segment} (hs : s ∈ elfSegments readi) :
    s.off < uintSize := by
  unfold elfSegments at hs
  split at hs
  · cases hs
  · obtain ⟨off, -, hph⟩ := List.mem_filterMap.mp hs
    obtain ⟨ph, -, hif⟩ := Option.bind_eq_some_iff.mp hph
    split at hif
    · cases hif
      exact field_lt ph 4 4
    · cases hif

theorem npages_max (a b : Nat) : npages (max a b) = max (npages a) (npages b) := by
  unfold npages
  rw [pgsize_eq]
  omega

/-- The headers at the offsets are decoded one after the other. -/
theorem loadHeaders_cons (readi : Readi) (off : Nat) (offs : List Nat) :
    loadHeaders readi (off :: offs) = match readExact readi off proghdrSize with
      | none => loadHeaders readi offs
      | some ph => if field ph 0 4 = elfProgLoad
          then Segment.ofHeader ph :: loadHeaders readi offs else loadHeaders readi offs := by
  rw [loadHeaders, List.filterMap_cons]
  cases readExact readi off proghdrSize with
  | none => rfl
  | some ph =>
    by_cases htype : field ph 0 4 = elfProgLoad
    · simp only [Option.bind_some, if_pos htype]
      rfl
    · simp only [Option.bind_some, if_neg htype]
      rfl

/-- The segments that were loaded. -/
structure Segments (readi : Readi) (offs : List Nat) (I J : Image) (sz : Nat) : Prop where
  ok : ∀ s ∈ loadHeaders readi offs, s.Ok readi
  image : J = (loadHeaders readi offs).foldl (Image.addSegment readi) I
  size : J.size = npages sz

/-- The headers at the offsets pass every check of `exec`. -/
structure Loadable (readi : Readi) (offs : List Nat) : Prop where
  headers : ∀ off ∈ offs, (readExact readi off proghdrSize).isSome = true
  ok : ∀ s ∈ loadHeaders readi offs, s.Ok readi
  pos : ∀ s ∈ loadHeaders readi offs, 0 < s.vaddr + s.memsz

theorem Image.size_le_foldl (readi : Readi) (segs : List Segment) :
    ∀ I : Image, I.size ≤ (segs.foldl (Image.addSegment readi) I).size := by
  induction segs with
  | nil => exact fun I => le_refl _
  | cons s segs ih =>
    intro I
    refine le_trans ?_ (ih (I.addSegment readi s))
    rw [Image.addSegment_size]
    exact le_max_left _ _

end

/-- Loading the segments fails only where a check fails or the frames run out. -/
theorem Holds.loadSegments (hwf0 : A0.WF) (readi : Readi) (offs : List Nat) :
    ∀ {I : Image} {m : Mem} {sz : Nat}, Holds x A0 m0 d I m → I.size = npages sz → sz < kernbase →
      wp (Xv6.loadSegments d readi offs sz) (fun r m' => match r with
        | none => (∃ J, Holds x A0 m0 d J m') ∧ ¬ (Loadable readi offs ∧
            2 * (((loadHeaders readi offs).foldl (Image.addSegment readi) I).size - I.size) ≤
              m.freelist.length)
        | some sz' => ∃ J, Segments readi offs I J sz' ∧ Holds x A0 m0 d J m' ∧
            m.freelist.length ≤ m'.freelist.length + 2 * (J.size - I.size)) F m := by
  induction offs with
  | nil =>
    intro I m sz h hI _
    rw [Xv6.loadSegments, wp_pure]
    exact ⟨I, ⟨nofun, rfl, hI⟩, h, Nat.le_add_right ..⟩
  | cons off offs ih =>
    intro I m sz h hI hsz
    rw [Xv6.loadSegments]
    cases hread : readExact readi off proghdrSize with
    | none =>
      rw [wp_pure]
      refine ⟨⟨I, h⟩, fun hok => ?_⟩
      have := hok.1.headers off List.mem_cons_self
      rw [hread] at this
      cases this
    | some ph =>
      have hcons := loadHeaders_cons readi off offs
      rw [hread] at hcons
      dsimp only at hcons ⊢
      rw [wp_ite]
      split
      · -- not a segment to load
        rename_i htype
        rw [if_neg htype] at hcons
        rw [hcons]
        refine wp_post (ih h hI hsz) ?_
        rintro (_ | sz') m' hr
        · refine ⟨hr.1, fun hok => hr.2 ⟨⟨?_, ?_, ?_⟩, hok.2⟩⟩
          · exact fun o ho => hok.1.headers o (List.mem_cons_of_mem off ho)
          · rw [← hcons]
            exact hok.1.ok
          · rw [← hcons]
            exact hok.1.pos
        · obtain ⟨J, hJ, hm⟩ := hr
          exact ⟨J, ⟨by rw [hcons]; exact hJ.ok, by rw [hcons]; exact hJ.image, hJ.size⟩, hm⟩
      rename_i htype
      rw [if_pos (not_not.mp htype)] at hcons
      rw [hcons, List.foldl_cons]
      have hfinal := Image.size_le_foldl readi (loadHeaders readi offs)
        (I.addSegment readi (.ofHeader ph))
      rw [Image.addSegment_size] at hfinal
      -- what the checks ask of this segment
      have hthis : Loadable readi (off :: offs) → (Segment.ofHeader ph).Ok readi ∧
          0 < field ph 8 4 + field ph 20 4 ∧ Loadable readi offs := by
        intro hl
        have hok := hl.ok
        have hpos := hl.pos
        rw [hcons] at hok hpos
        exact ⟨hok _ List.mem_cons_self, hpos _ List.mem_cons_self,
          fun o ho => hl.headers o (List.mem_cons_of_mem off ho),
          fun s hs => hok s (List.mem_cons_of_mem _ hs),
          fun s hs => hpos s (List.mem_cons_of_mem _ hs)⟩
      have hend : (Segment.ofHeader ph).Ok readi → field ph 8 4 + field ph 20 4 < kernbase :=
        fun hok => hok.lt
      rw [wp_ite]
      split
      · rename_i hmem
        rw [wp_pure]
        exact ⟨⟨I, h⟩, fun hok => absurd (hthis hok.1).1.le (Nat.not_le.mpr hmem)⟩
      rename_i hmem
      rw [wp_ite]
      split
      · rename_i hwrap
        rw [wp_pure]
        refine ⟨⟨I, h⟩, fun hok => ?_⟩
        have hlt := hend (hthis hok.1).1
        rw [kernbase_eq] at hlt
        rw [uintSize_eq] at hwrap
        omega
      rename_i hwrap
      -- the sum did not wrap
      have hsum : (field ph 8 4 + field ph 20 4) % uintSize = field ph 8 4 + field ph 20 4 := by
        have h1 := field_lt ph 8 4
        have h2 := field_lt ph 20 4
        rw [uintSize_eq] at hwrap ⊢
        omega
      rw [wp_bind, hsum]
      refine wp_post (h.allocuvm hwf0 hI (.inl hsz)) ?_
      rintro r m1 ⟨hlt, hzero, hgrown⟩
      rw [← hI] at hzero hgrown
      rw [wp_ite]
      split
      · rename_i hr
        rw [wp_pure]
        obtain ⟨h1, hno⟩ := hzero hr
        refine ⟨⟨I, h1⟩, fun hok => hno ?_⟩
        obtain ⟨hseg, hpos, -⟩ := hthis hok.1
        refine ⟨hend hseg, hpos, le_trans ?_ hok.2⟩
        have := le_trans (le_max_right _ _) hfinal
        exact Nat.mul_le_mul_left 2 (Nat.sub_le_sub_right this _)
      rename_i hr
      obtain ⟨hmax, h1, hspent⟩ := hgrown hr
      rw [wp_ite]
      split
      · rename_i hal
        rw [wp_pure]
        exact ⟨⟨_, h1⟩, fun hok => hal (hthis hok.1).1.aligned⟩
      rename_i hal
      rw [not_not] at hal
      have hnum : npages r = max I.size (npages (field ph 8 4 + field ph 20 4)) := by
        rw [hmax, npages_max, hI]
      rw [wp_bind]
      refine wp_post (h1.loaduvm hwf0 readi (.ofHeader ph) hal ?_) ?_
      · rw [Image.grow_size, hnum]
        refine le_trans ?_ (le_max_right _ _)
        show npages (field ph 8 4 + field ph 16 4) ≤ _
        unfold npages
        rw [pgsize_eq]
        omega
      rintro ok m2 ⟨hfree, hiff, hok⟩
      rw [wp_ite]
      cases ok with
      | false =>
        rw [if_neg (by decide), wp_pure]
        obtain ⟨J, -, hJ⟩ := hok
        exact ⟨⟨J, hJ⟩, fun hall => absurd (hiff.mpr (hthis hall.1).1.read) (by decide)⟩
      | true =>
        have hall := hiff.mp rfl
        rw [if_pos rfl] at hok ⊢
        have hadd : (I.grow (npages r)).loads ((Segment.ofHeader ph).vaddr / pgsize)
            (Segment.ofHeader ph).write ((Segment.ofHeader ph).chunk readi)
            (List.range (npages (Segment.ofHeader ph).filesz)) =
            I.addSegment readi (.ofHeader ph) := by
          rw [Image.addSegment, hnum]
          rfl
        rw [hadd] at hok
        have hsize : (I.addSegment readi (.ofHeader ph)).size =
            max I.size (npages (field ph 8 4 + field ph 20 4)) := Image.addSegment_size ..
        rw [← hfree] at hspent
        refine wp_post (ih hok (hsize.trans hnum.symm) hlt) ?_
        rw [hsize]
        rintro (_ | sz') m' hr
        · refine ⟨hr.1, fun hall' => hr.2 ⟨(hthis hall'.1).2.2, ?_⟩⟩
          have := hall'.2
          change max I.size (npages (field ph 8 4 + field ph 20 4)) ≤ _ at hfinal
          omega
        · obtain ⟨J, hJ, hm, hspent'⟩ := hr
          refine ⟨J, ⟨?_, by rw [hcons]; exact hJ.image, hJ.size⟩, hm, ?_⟩
          · intro s hs
            rw [hcons] at hs
            rcases List.mem_cons.mp hs with rfl | hs
            · refine ⟨hal, Nat.le_of_not_lt hmem, ?_, hall⟩
              show field ph 8 4 + field ph 20 4 < kernbase
              omega
            · exact hJ.ok s hs
          · rw [← hJ.image] at hfinal
            change max I.size (npages (field ph 8 4 + field ph 20 4)) ≤ _ at hfinal
            omega

/-! ## `exec` as far as the arguments -/

/-- `exec` up to the two pages of the stack.  Returns the directory and the size. -/
def stackImage (readi : Readi) : M (Option (Nat × Nat)) := do
  match readExact readi 0 elfhdrSize with
  | none => pure none
  | some elf =>
    if field elf 0 4 ≠ elfMagic then pure none
    else do
      match ← setupkvm with
      | none => pure none
      | some d => do
        match ← loadSegments d readi (headerOffsets elf) 0 with
        | none => do
          freevm d
          pure none
        | some sz => do
          let sz ← allocStack d sz
          if sz = 0 then do
            freevm d
            pure none
          else pure (some (d, sz))

/-- The rest of `execImage` pushes the arguments. -/
theorem wp_execImage (readi : Readi) (argv : List (List Byte))
    (Q : Option (Nat × Nat) → Mem → Prop) (F : Fault → Prop) (m : Mem) :
    wp (execImage readi argv) Q F m ↔ wp (stackImage readi) (fun r m1 => match r with
      | none => Q none m1
      | some (d, sz) => wp (pushStack d sz argv) (fun r m2 => match r with
          | none => wp (freevm d) (fun _ m3 => Q none m3) F m2
          | some _ => Q (some (d, sz)) m2) F m1) F m := by
  unfold execImage stackImage
  cases readExact readi 0 elfhdrSize with
  | none => simp only [wp_pure]
  | some elf =>
    dsimp only
    rw [wp_ite, wp_ite]
    split
    · simp only [wp_pure]
    simp only [wp_bind]
    refine wp_congr fun r m1 => ?_
    cases r with
    | none => simp only [wp_pure]
    | some d =>
      simp only [wp_bind]
      refine wp_congr fun r m2 => ?_
      cases r with
      | none => simp only [wp_bind, wp_pure]
      | some sz =>
        simp only [wp_bind, wp_ite]
        rw [wp_buildStack]
        refine wp_congr fun r m3 => ?_
        split
        · simp only [wp_bind, wp_pure]
        · rw [wp_pure]
          refine wp_congr fun r m4 => ?_
          cases r with
          | none => simp only [Option.map_none, wp_bind, wp_pure]
          | some _ => simp only [Option.map_some, wp_pure]

/-- What stands before the arguments are pushed. -/
structure Prepared (x : Bool) (A0 : Space) (m0 : Mem) (readi : Readi) (d sz : Nat) (m : Mem) : Prop where
  ok : ∀ s ∈ elfSegments readi, s.Ok readi
  size : sz = (elfImage readi).withStack.size * pgsize
  lt : sz < kernbase
  holds : Holds x A0 m0 d (elfImage readi).withStack m

/-- The file passes every check of `exec`, and leaves room for the stack. -/
structure Accepted (readi : Readi) (elf : List Byte) : Prop where
  header : readExact readi 0 elfhdrSize = some elf
  magic : field elf 0 4 = elfMagic
  segments : Loadable readi (headerOffsets elf)
  below : (elfImage readi).withStack.size * pgsize < kernbase

/-- Enough frames for a directory with the pages of the image and their tables. -/
def EnoughFor (readi : Readi) (m : Mem) : Prop :=
  kernelTables + 1 + 2 * (elfImage readi).withStack.size ≤ m.freelist.length

/-- `exec` builds the image of the program, or a check failed or the frames ran out and
it undid what it did. -/
theorem Rep.stackImage (h : Rep m A) (hs : Sane A x) (readi : Readi) :
    wp (Xv6.stackImage readi) (fun r m' => match r with
      | none => Undone x A m m' ∧ ¬ ((∃ elf, Accepted readi elf) ∧ EnoughFor readi m)
      | some (d, sz) => Prepared x A m readi d sz m') F m := by
  unfold Xv6.stackImage
  cases helf : readExact readi 0 elfhdrSize with
  | none =>
    rw [wp_pure]
    refine ⟨h.undone hs, ?_⟩
    rintro ⟨⟨elf, hacc⟩, -⟩
    exact absurd (helf.symm.trans hacc.header) nofun
  | some elf =>
    have hread : ∀ {elf'}, Accepted readi elf' → elf' = elf := fun hacc =>
      Option.some.inj (hacc.header.symm.trans helf)
    dsimp only
    rw [wp_ite]
    split
    · rename_i hmagic
      rw [wp_pure]
      refine ⟨h.undone hs, ?_⟩
      rintro ⟨⟨elf', hacc⟩, -⟩
      exact hmagic (hread hacc ▸ hacc.magic)
    have hsegs : elfSegments readi = loadHeaders readi (headerOffsets elf) := by
      rw [elfSegments, helf]
    have hsize : (elfImage readi).withStack.size = (elfImage readi).size + 2 := rfl
    rw [EnoughFor, hsize]
    rw [wp_bind]
    refine wp_post (h.newImage hs) ?_
    rintro (_ | d) m1 h1
    · rw [wp_pure]
      obtain ⟨h1, hfew⟩ := h1
      exact ⟨h1, fun hok => by have := hok.2; omega⟩
    -- every failure from here on frees the new directory
    have hbad : ∀ {m' : Mem} {J : Image}, Holds x A m d J m' →
        wp (do
          Xv6.freevm d
          pure none : M (Option (Nat × Nat))) (fun r m' => r = none ∧ Undone x A m m') F m' := by
      intro m' J hJ
      rw [wp_bind]
      refine wp_post (hJ.freevm h.wf) fun _ m2 h2 => ?_
      rw [wp_pure]
      exact ⟨rfl, h2⟩
    obtain ⟨h1, hspent⟩ := h1
    dsimp only
    rw [wp_bind]
    refine wp_post (Holds.loadSegments h.wf readi (headerOffsets elf) h1
      (show Image.empty.size = npages 0 from rfl) (by decide)) ?_
    rw [← hsegs]
    rintro (_ | sz) m2 h2
    · obtain ⟨⟨J, hJ⟩, hno⟩ := h2
      refine wp_post (hbad hJ) ?_
      rintro _ m3 ⟨rfl, h3⟩
      refine ⟨h3, ?_⟩
      rintro ⟨⟨elf', hacc⟩, hlen⟩
      refine hno ⟨hread hacc ▸ hacc.segments, ?_⟩
      change 2 * ((elfImage readi).size - 0) ≤ _
      omega
    obtain ⟨J, hseg, hJ, hspent'⟩ := h2
    have himage : J = elfImage readi := by
      rw [hseg.image, elfImage, hsegs]
    subst himage
    dsimp only
    rw [wp_bind]
    refine wp_post (hJ.allocStack h.wf hseg.size) ?_
    rintro r m3 ⟨hzero, hdone⟩
    rw [wp_ite]
    split
    · rename_i hr
      obtain ⟨⟨J, hJ⟩, hno⟩ := hzero hr
      refine wp_post (hbad hJ) ?_
      rintro _ m4 ⟨rfl, h4⟩
      refine ⟨h4, ?_⟩
      rintro ⟨⟨elf', hacc⟩, hlen⟩
      refine hno ⟨hacc.below, ?_⟩
      change _ ≤ _ + 2 * ((elfImage readi).size - 0) at hspent'
      omega
    · rename_i hr
      obtain ⟨hsz, hlt, h3⟩ := hdone hr
      rw [wp_pure]
      exact ⟨by rw [hsegs]; exact hseg.ok, hsz, hlt, h3⟩

/-! ## What the image is -/

section

omit [Link]

/-- No two segments share a page. -/
def PageDisjoint (segs : List Segment) : Prop :=
  segs.Pairwise fun s t => ∀ v, ¬ (s.Covers v ∧ t.Covers v)

/-- The pages of an image with these segments. -/
structure Image.Laid (segs : List Segment) (I : Image) : Prop where
  below : ∀ s ∈ segs, s.vaddr + s.memsz ≤ I.size * pgsize
  write : ∀ v < I.size, (I.page v).write = true ↔ ∀ s ∈ segs, s.FilePage v → s.write = true
  user : ∀ v < I.size, (I.page v).user = true

/-- The bytes of an image with these segments. -/
structure Image.Filled (file : Nat → Byte) (segs : List Segment) (I : Image) : Prop where
  bytes : ∀ s ∈ segs, ∀ j < s.filesz, I.byte (s.vaddr + j) = file (s.off + j)
  zero : ∀ a < I.size * pgsize,
    (∀ s ∈ segs, ¬ (s.vaddr ≤ a ∧ a < s.vaddr + s.filesz)) → I.byte a = 0#8

/-- The bytes of the segment are those of the file. -/
def Segment.Reads (s : Segment) (readi : Readi) (file : Nat → Byte) : Prop :=
  ∀ k < npages s.filesz, (s.chunk readi k).length = s.count k ∧
    ∀ r < s.count k, (s.chunk readi k).getD r 0#8 = file (s.off + k * pgsize + r)

variable {readi : Readi} {file : Nat → Byte} {s t : Segment} {segs : List Segment} {I : Image}
  {v : Nat}

namespace Segment

theorem FilePage.covers (h : s.FilePage v) (hok : s.Ok readi) : s.Covers v := by
  obtain ⟨hlo, hhi⟩ := h
  have hal := hok.aligned
  have hle := hok.le
  refine ⟨v * pgsize, mul_pgsize_div v, ?_, ?_⟩
  · rw [pgsize_eq] at *
    omega
  · unfold npages at hhi
    rw [pgsize_eq] at *
    omega

/-- The page of an address in the file part. -/
theorem filePage_div (hok : s.Ok readi) {j : Nat} (hj : j < s.filesz) :
    s.FilePage ((s.vaddr + j) / pgsize) ∧
      (s.vaddr + j) / pgsize - s.vaddr / pgsize = j / pgsize ∧
      (s.vaddr + j) % pgsize = j % pgsize ∧ j / pgsize < npages s.filesz ∧
      j % pgsize < s.count (j / pgsize) := by
  have hal := hok.aligned
  unfold FilePage npages
  rw [pgsize_eq] at hal
  rw [count, pgsize_eq]
  refine ⟨by omega, by omega, by omega, by omega, ?_⟩
  split
  · omega
  · omega

end Segment

theorem Image.Laid.lt_of_filePage (h : I.Laid segs) (hs : s ∈ segs) (hok : s.Ok readi)
    (hv : s.FilePage v) : v < I.size := by
  have hbelow := h.below s hs
  obtain ⟨a, rfl, -, ha⟩ := hv.covers hok
  rw [pgsize_eq] at *
  omega

/-- A page below the old size is as it was, unless the segment was loaded to it. -/
theorem Image.addSegment_page_old (hv : v < I.size) (hno : ¬ s.FilePage v) :
    (I.addSegment readi s).page v = I.page v := by
  rw [Image.addSegment_page, if_neg hno, if_pos hv]

/-- Adding a segment that shares no page with the others. -/
theorem Image.Laid.addSegment (h : I.Laid segs) (hok : ∀ t ∈ segs ++ [s], t.Ok readi)
    (hdisj : ∀ t ∈ segs, ∀ v, ¬ (t.Covers v ∧ s.Covers v)) :
    (I.addSegment readi s).Laid (segs ++ [s]) := by
  have hoks := hok s (List.mem_append_right _ List.mem_cons_self)
  have hokt : ∀ t ∈ segs, t.Ok readi := fun t ht => hok t (List.mem_append_left _ ht)
  refine ⟨?_, ?_, ?_⟩
  · intro t ht
    rw [Image.addSegment_size]
    rcases List.mem_append.mp ht with ht | ht
    · exact le_trans (h.below t ht) (Nat.mul_le_mul_right _ (le_max_left _ _))
    · rw [List.mem_singleton.mp ht]
      refine le_trans ?_ (Nat.mul_le_mul_right _ (le_max_right _ _))
      unfold npages
      rw [pgsize_eq]
      omega
  · intro v _
    rw [Image.addSegment_page]
    by_cases hf : s.FilePage v
    · -- no other segment was loaded here
      rw [if_pos hf]
      refine ⟨fun hw t ht hft => ?_, fun hall => hall s (by simp) hf⟩
      rcases List.mem_append.mp ht with ht | ht
      · exact absurd ⟨hft.covers (hokt t ht), hf.covers hoks⟩ (hdisj t ht v)
      · rw [List.mem_singleton.mp ht]
        exact hw
    · rw [if_neg hf]
      have hiff : (∀ t ∈ segs ++ [s], t.FilePage v → t.write = true) ↔
          ∀ t ∈ segs, t.FilePage v → t.write = true := by
        refine ⟨fun hall t ht => hall t (List.mem_append_left _ ht), fun hall t ht hft => ?_⟩
        rcases List.mem_append.mp ht with ht | ht
        · exact hall t ht hft
        · rw [List.mem_singleton.mp ht] at hft
          exact absurd hft hf
      rw [hiff]
      by_cases hv : v < I.size
      · rw [if_pos hv]
        exact h.write v hv
      · rw [if_neg hv]
        exact ⟨fun _ t ht hft => absurd (h.lt_of_filePage ht (hokt t ht) hft) hv, fun _ => rfl⟩
  · intro v _
    rw [Image.addSegment_page]
    by_cases hv : v < I.size
    · rw [if_pos hv]
      split
      · exact h.user v hv
      · exact h.user v hv
    · rw [if_neg hv]
      split
      · rfl
      · rfl

theorem Image.Filled.addSegment (h : I.Filled file segs) (hlaid : I.Laid segs)
    (hok : ∀ t ∈ segs ++ [s], t.Ok readi) (hread : s.Reads readi file)
    (hdisj : ∀ t ∈ segs, ∀ v, ¬ (t.Covers v ∧ s.Covers v)) :
    (I.addSegment readi s).Filled file (segs ++ [s]) := by
  have hoks := hok s (List.mem_append_right _ List.mem_cons_self)
  have hokt : ∀ t ∈ segs, t.Ok readi := fun t ht => hok t (List.mem_append_left _ ht)
  refine ⟨?_, ?_⟩
  · intro t ht j hj
    rcases List.mem_append.mp ht with ht | ht
    · -- the page belongs to the other segment
      obtain ⟨hft, -⟩ := Segment.filePage_div (hokt t ht) hj
      have hno : ¬ s.FilePage ((t.vaddr + j) / pgsize) := fun hf =>
        hdisj t ht _ ⟨hft.covers (hokt t ht), hf.covers hoks⟩
      rw [Image.byte, Image.addSegment_page_old (hlaid.lt_of_filePage ht (hokt t ht) hft) hno]
      exact h.bytes t ht j hj
    · rw [List.mem_singleton.mp ht] at hj ⊢
      obtain ⟨hf, hk, hr, hlt, hcount⟩ := Segment.filePage_div hoks hj
      obtain ⟨hlen, hbytes⟩ := hread _ hlt
      have hin : setBytes (if (s.vaddr + j) / pgsize < I.size then
          I.page ((s.vaddr + j) / pgsize) else .fresh).bytes 0 (s.chunk readi (j / pgsize))
          (0 + j % pgsize) = _ := setBytes_in _ 0 (hcount.trans_eq hlen.symm)
      rw [Nat.zero_add] at hin
      rw [Image.byte, Image.addSegment_bytes, if_pos hf, hk, hr, hin, hbytes _ hcount,
        Nat.add_assoc, Nat.mul_comm, Nat.div_add_mod]
  · intro a ha hno
    have hold : (if a / pgsize < I.size then I.page (a / pgsize) else .fresh : UPage).bytes
        (a % pgsize) = 0#8 := by
      split
      · rename_i hv
        exact h.zero a ((Nat.div_lt_iff_lt_mul (by decide)).mp hv) fun t ht =>
          hno t (List.mem_append_left _ ht)
      · rfl
    rw [Image.byte, Image.addSegment_bytes]
    dsimp only
    split
    · rename_i hf
      -- past the end of the file part
      have hkn : a / pgsize - s.vaddr / pgsize < npages s.filesz := by
        have := hf.1
        have := hf.2
        omega
      rw [setBytes_out _ (.inr ?_)]
      · exact hold
      · rw [(hread _ hkn).1]
        have hout := hno s (by simp)
        have hlo := hf.1
        have hal := hoks.aligned
        unfold npages at hkn
        rw [Segment.count]
        rw [pgsize_eq] at *
        split
        · omega
        · omega
    · exact hold

/-- Loading segments that share no page, from any image. -/
theorem Image.laid_foldl (rest : List Segment) : ∀ {segs : List Segment} {I : Image},
    I.Laid segs → (∀ t ∈ segs ++ rest, t.Ok readi) → PageDisjoint (segs ++ rest) →
      (rest.foldl (Image.addSegment readi) I).Laid (segs ++ rest) ∧
      (I.Filled file segs → (∀ t ∈ rest, t.Reads readi file) →
        (rest.foldl (Image.addSegment readi) I).Filled file (segs ++ rest)) := by
  induction rest with
  | nil =>
    intro segs I h _ _
    rw [List.append_nil]
    exact ⟨h, fun hf _ => hf⟩
  | cons s rest ih =>
    intro segs I h hok hdisj
    have hassoc : segs ++ s :: rest = (segs ++ [s]) ++ rest := by simp
    have hoks : ∀ t ∈ segs ++ [s], t.Ok readi := fun t ht =>
      hok t (by rw [hassoc]; exact List.mem_append_left _ ht)
    have hapart : ∀ t ∈ segs, ∀ v, ¬ (t.Covers v ∧ s.Covers v) := fun t ht =>
      (List.pairwise_append.mp hdisj).2.2 t ht s List.mem_cons_self
    have hl := h.addSegment hoks hapart
    rw [hassoc] at hok hdisj ⊢
    obtain ⟨h1, h2⟩ := ih hl hok hdisj
    exact ⟨h1, fun hf hr => h2 (hf.addSegment h hoks (hr s List.mem_cons_self) hapart)
      fun t ht => hr t (List.mem_cons_of_mem s ht)⟩

section

variable (hok : ∀ s ∈ elfSegments readi, s.Ok readi) (hdisj : PageDisjoint (elfSegments readi))
include hok hdisj

theorem elfImage_laid : (elfImage readi).Laid (elfSegments readi) :=
  (@Image.laid_foldl readi (fun _ => 0#8) (elfSegments readi) [] .empty ⟨nofun, nofun, nofun⟩ hok
    hdisj).1

theorem elfImage_filled (hread : ∀ s ∈ elfSegments readi, s.Reads readi file) :
    (elfImage readi).Filled file (elfSegments readi) :=
  (@Image.laid_foldl readi file (elfSegments readi) [] .empty ⟨nofun, nofun, nofun⟩ hok hdisj).2 ⟨nofun, fun a ha => absurd ha (by simp [Image.empty])⟩ hread

end

end

end Xv6
