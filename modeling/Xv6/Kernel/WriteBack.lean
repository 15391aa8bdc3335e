import Xv6.Kernel.Steps

/-!
# Writing a mapped file back

One process has a shared region over a whole file and reads and writes inside it.
A page is loaded from the file when it is first touched, and `wunmap` writes every
present page back, the last one as a whole page.  `filewrite` cuts a page into
transactions of `filewriteMax` bytes, and stops at the first that would reach past
the largest size of a file.

`View` records what the process saw: the value of each byte when it was last read or
written, and the pages that were touched.
-/

namespace Xv6

open Prog Function

variable {off n f va j : Nat} {fs : Files} {bs : List Byte} {ip : Inode} {b : Option Byte}
  {u : FileWrite}

/-! ## Writes to an inode -/

/-- An inode with the bytes `bs` at `off`. -/
def Inode.put (ip : Inode) (off : Nat) (bs : List Byte) : Inode :=
  { ip with
    data := fun i => if off ≤ i ∧ i < off + bs.length then bs.getD (i - off) 0#8 else ip.data i
    size := max ip.size (off + bs.length) }

theorem Inode.put_nil (ip : Inode) (h : off ≤ ip.size) : ip.put off [] = ip := by
  unfold put
  rw [List.length_nil, Nat.add_zero, Nat.max_eq_left h]
  congr 1
  funext i
  rw [if_neg (by omega)]

theorem Inode.put_put (ip : Inode) (off : Nat) (bs bs' : List Byte) :
    (ip.put off bs).put (off + bs.length) bs' = ip.put off (bs ++ bs') := by
  unfold put
  rw [List.length_append]
  congr 1
  · dsimp only
    omega
  · funext i
    dsimp only
    by_cases hlo : off ≤ i
    · by_cases hmid : i < off + bs.length
      · rw [if_neg (by omega), if_pos ⟨hlo, hmid⟩, if_pos ⟨hlo, by omega⟩,
          List.getD_append _ _ _ _ (by omega)]
      · by_cases hhi : i < off + bs.length + bs'.length
        · rw [if_pos ⟨by omega, hhi⟩, if_pos ⟨hlo, by omega⟩,
            List.getD_append_right _ _ _ _ (by omega)]
          congr 1
          omega
        · rw [if_neg (by omega), if_neg (by omega), if_neg (by omega)]
    · rw [if_neg (by omega), if_neg (by omega), if_neg (by omega)]

/-- A write that starts inside the file and ends below the largest size. -/
theorem Inode.write_eq (ip : Inode) (hoff : off ≤ ip.size)
    (hend : off + bs.length ≤ maxfile * bsize) : ip.write bs off = some (ip.put off bs) := by
  have hmax : maxfile * bsize < uintSize := by decide
  have hmod : (off + bs.length) % uintSize = off + bs.length := Nat.mod_eq_of_lt (by omega)
  unfold write put
  rw [hmod, if_neg (by omega), if_neg (by omega)]
  congr 2
  split <;> omega

/-- A write that would end past the largest size. -/
theorem Inode.write_none (ip : Inode) (hlt : off + bs.length < uintSize)
    (hend : maxfile * bsize < off + bs.length) : ip.write bs off = none := by
  unfold write
  rw [Nat.mod_eq_of_lt hlt, if_pos hend]
  split <;> rfl

/-! ## `filewrite` -/

theorem filewriteMax_eq : filewriteMax = 1536 := by decide

theorem maxsize_eq : maxfile * bsize = 71680 := by decide

/-- How many of `n` bytes at `off` reach the file: all of them, or the transactions
that end below the largest size. -/
def written (off n : Nat) : Nat :=
  if off + n ≤ maxfile * bsize then n else (maxfile * bsize - off) / filewriteMax * filewriteMax

theorem written_le (off n : Nat) : written off n ≤ n := by
  unfold written
  rw [maxsize_eq, filewriteMax_eq]
  split <;> omega

/-- One transaction that succeeds, and the rest. -/
theorem written_step {k : Nat} (hk : k = min filewriteMax n) (h : off + k ≤ maxfile * bsize) :
    written off n = k + written (off + k) (n - k) := by
  unfold written
  rw [maxsize_eq, filewriteMax_eq] at *
  split <;> split <;> omega

theorem written_refused {k : Nat} (hk : k = min filewriteMax n) (h : maxfile * bsize < off + k) :
    written off n = 0 := by
  unfold written
  rw [maxsize_eq, filewriteMax_eq] at *
  split <;> omega

/-- The files after `bs` were written through `f` at its offset. -/
def Files.wrote (fs : Files) (f : Nat) (bs : List Byte) : Files :=
  { fs with
    file := Function.update fs.file f { fs.file f with off := (fs.file f).off + bs.length }
    inode := Function.update fs.inode (fs.file f).ip
      ((fs.inode (fs.file f).ip).put (fs.file f).off bs) }

theorem Files.wrote_nil (fs : Files) (h : (fs.file f).off ≤ (fs.inode (fs.file f).ip).size) :
    fs.wrote f [] = fs := by
  unfold wrote
  rw [Inode.put_nil _ h, update_eq_self, List.length_nil, Nat.add_zero,
    update_eq_self]

theorem Files.wrote_wrote (fs : Files) (f : Nat) (bs bs' : List Byte) :
    (fs.wrote f bs).wrote f bs' = fs.wrote f (bs ++ bs') := by
  unfold wrote
  simp only [update_self, update_idem, Inode.put_put, List.length_append,
    Nat.add_assoc]

variable {F : Fault → Prop}

theorem wp_filewriteLoop {Q : Bool → Files → Prop} (fuel : Nat) :
    ∀ {bs : List Byte} {fs : Files}, bs.length ≤ fuel → bs.length ≤ pgsize →
      (fs.inode (fs.file f).ip).type ≠ .dev →
      (fs.file f).off ≤ (fs.inode (fs.file f).ip).size → (fs.file f).off + pgsize < uintSize →
      (∀ ok, Q ok (fs.wrote f (bs.take (written (fs.file f).off bs.length)))) →
      wp (filewriteLoop f fuel bs) Q F fs := by
  induction fuel with
  | zero =>
    intro bs fs hlen _ _ hoff _ hq
    obtain rfl : bs = [] := List.length_eq_zero_iff.mp (by omega)
    rw [filewriteLoop, wp_pure]
    have := hq true
    rwa [List.take_nil, fs.wrote_nil hoff] at this
  | succ fuel ih =>
    intro bs fs hlen hpage htype hoff hmax hq
    cases bs with
    | nil =>
      rw [filewriteLoop, wp_pure]
      have := hq true
      rwa [List.take_nil, fs.wrote_nil hoff] at this
    | cons b bs =>
      generalize hbs : b :: bs = cs at *
      have hpos : 0 < cs.length := by rw [← hbs]; exact Nat.succ_pos _
      have hk : (cs.take filewriteMax).length = min filewriteMax cs.length := List.length_take ..
      have hmaxlt : maxfile * bsize + pgsize < uintSize := by decide
      have hmaxpos : 0 < filewriteMax := by decide
      rw [← hbs, filewriteLoop, wp_bind, wp_get, hbs, wp_bind]
      unfold writei
      rw [wp_bind, wp_get, wp_ite, if_neg htype]
      by_cases hend : (fs.file f).off + (cs.take filewriteMax).length ≤ maxfile * bsize
      · have hwrote := written_step hk hend
        rw [(fs.inode (fs.file f).ip).write_eq hoff hend]
        dsimp only
        rw [wp_bind, wp_set, wp_pure, wp_ite, if_pos rfl, wp_bind]
        unfold setFile
        rw [wp_modify]
        show wp (filewriteLoop f fuel (cs.drop filewriteMax)) Q F (fs.wrote f (cs.take filewriteMax))
        have hfile : (fs.wrote f (cs.take filewriteMax)).file f =
            { fs.file f with off := (fs.file f).off + (cs.take filewriteMax).length } :=
          update_self ..
        have hinode : (fs.wrote f (cs.take filewriteMax)).inode (fs.file f).ip =
            (fs.inode (fs.file f).ip).put (fs.file f).off (cs.take filewriteMax) :=
          update_self ..
        refine ih ?_ ?_ ?_ ?_ ?_ ?_
        · rw [List.length_drop]
          omega
        · rw [List.length_drop]
          omega
        · rw [hfile, hinode]
          exact htype
        · rw [hfile, hinode]
          exact Nat.le_max_right ..
        · rw [hfile]
          dsimp only
          omega
        · intro ok
          rw [hfile, Files.wrote_wrote]
          convert hq ok using 2
          rw [hwrote, hk, List.length_drop]
          rcases Nat.le_total cs.length filewriteMax with hle | hle
          · rw [List.take_of_length_le hle, List.drop_of_length_le hle, List.take_nil,
              List.append_nil, Nat.min_eq_right hle, List.take_of_length_le (by omega)]
          · rw [Nat.min_eq_left hle, List.take_add]
      · rw [(fs.inode (fs.file f).ip).write_none (by omega) (by omega)]
        dsimp only
        rw [wp_pure, wp_ite, if_neg (by decide), wp_pure]
        have := hq false
        rwa [written_refused hk (by omega), List.take_zero, fs.wrote_nil hoff] at this

/-! ## Pages written back -/

/-- Where the bytes of a page that reach the file end. -/
def FileWrite.upto (w : FileWrite) : Nat := w.off + written w.off pgsize

/-- Where the last transaction of a page that fits a file ends. -/
def writeLimit : Nat := maxfile * bsize / pgsize * pgsize + filewriteMax

theorem writeLimit_eq : writeLimit = 71168 := by decide

theorem FileWrite.upto_eq {w : FileWrite} (hal : w.off % pgsize = 0)
    (hlt : w.off < maxfile * bsize) : w.upto = min (w.off + pgsize) writeLimit := by
  unfold upto written
  rw [writeLimit_eq, filewriteMax_eq]
  rw [maxsize_eq] at *
  rw [pgsize_eq] at *
  split <;> omega

/-- The inode after whole pages were handed to `filewrite`. -/
def Inode.flushed (ip : Inode) : List FileWrite → Inode
  | [] => ip
  | w :: ws => (ip.put w.off ((pageBytes w.data).take (written w.off pgsize))).flushed ws

@[simp] theorem length_pageBytes (pg : Page) : (pageBytes pg).length = pgsize := by
  unfold pageBytes
  exact (List.length_map _).trans List.length_range

theorem getElem_pageBytes (pg : Page) {o : Nat} (h : o < pgsize) :
    (pageBytes pg)[o]? = some (pg o) := by
  unfold pageBytes
  refine (List.getElem?_map ..).trans ?_
  rw [List.getElem?_range h]
  rfl

theorem length_flushed (w : FileWrite) :
    ((pageBytes w.data).take (written w.off pgsize)).length = written w.off pgsize := by
  have hle := written_le w.off pgsize
  rw [List.length_take, length_pageBytes]
  omega

theorem Inode.flushed_size_le (ws : List FileWrite) : ∀ (ip : Inode) (n : Nat),
    (ip.flushed ws).size ≤ n ↔ ip.size ≤ n ∧ ∀ w ∈ ws, w.upto ≤ n := by
  induction ws with
  | nil => simp [flushed]
  | cons w ws ih =>
    intro ip n
    rw [flushed, ih, List.forall_mem_cons]
    unfold put
    dsimp only
    rw [length_flushed, ← FileWrite.upto, Nat.max_le, and_assoc]

/-- A file keeps its size if and only if no write ends past it. -/
theorem Inode.flushed_size (ip : Inode) (ws : List FileWrite) :
    (ip.flushed ws).size = ip.size ↔ ∀ w ∈ ws, w.upto ≤ ip.size := by
  have hge := ((flushed_size_le ws ip _).mp (Nat.le_refl _)).1
  have hle := flushed_size_le ws ip ip.size
  constructor
  · intro heq
    exact (hle.mp (Nat.le_of_eq heq)).2
  · intro hall
    exact Nat.le_antisymm (hle.mpr ⟨Nat.le_refl _, hall⟩) hge

/-- A byte that every write over it sets to `b`. -/
theorem Inode.flushed_data {i : Nat} {b : Byte} (ws : List FileWrite) : ∀ {ip : Inode},
    (∀ w ∈ ws, w.off ≤ i → i < w.upto → w.data (i - w.off) = b) →
    (ip.data i = b ∨ ∃ w ∈ ws, w.off ≤ i ∧ i < w.upto) → (ip.flushed ws).data i = b := by
  induction ws with
  | nil =>
    rintro ip - (h | ⟨w, hw, -⟩)
    · exact h
    · cases hw
  | cons w ws ih =>
    intro ip hall h
    obtain ⟨hw, hws⟩ := List.forall_mem_cons.mp hall
    rw [flushed]
    refine ih hws ?_
    unfold put
    dsimp only
    rw [length_flushed, ← FileWrite.upto]
    by_cases hcov : w.off ≤ i ∧ i < w.upto
    · left
      have hlt : i - w.off < written w.off pgsize := by
        have := hcov.2
        unfold FileWrite.upto at this
        omega
      have hpg : i - w.off < pgsize := Nat.lt_of_lt_of_le hlt (written_le _ _)
      rw [if_pos hcov, List.getD_eq_getElem?_getD, List.getElem?_take_of_lt hlt,
        getElem_pageBytes _ hpg]
      exact hw hcov.1 hcov.2
    · rw [if_neg hcov]
      refine h.imp_right ?_
      rintro ⟨u, hu, hin⟩
      rcases List.mem_cons.mp hu with rfl | hmem
      · exact absurd hin hcov
      · exact ⟨u, hmem, hin⟩

/-- The file `f` is the regular file `n`, opened for reading and writing. -/
structure Files.Regular (fs : Files) (f n : Nat) : Prop where
  type : (fs.file f).type = .inode
  readable : (fs.file f).readable = true
  writable : (fs.file f).writable = true
  ip : (fs.file f).ip = n
  inode : (fs.inode n).type = .file

section

variable (h : fs.Regular f n)
include h

/-- Another offset. -/
theorem Files.Regular.seek (off : Nat) :
    Files.Regular { fs with
      file := Function.update fs.file f { fs.file f with off := off } } f n := by
  constructor <;> dsimp only <;> try rw [update_self]
  · exact h.type
  · exact h.readable
  · exact h.writable
  · exact h.ip
  · exact h.inode

theorem Files.Regular.wrote (bs : List Byte) :
    (fs.wrote f bs).Regular f n ∧
      (fs.wrote f bs).inode n = (fs.inode n).put (fs.file f).off bs := by
  have hinode : (fs.wrote f bs).inode n = (fs.inode n).put (fs.file f).off bs := by
    unfold Files.wrote
    rw [h.ip]
    exact update_self ..
  have hfile : (fs.wrote f bs).file f =
      { fs.file f with off := (fs.file f).off + bs.length } := update_self ..
  refine ⟨⟨?_, ?_, ?_, ?_, ?_⟩, hinode⟩
  · rw [hfile]
    exact h.type
  · rw [hfile]
    exact h.readable
  · rw [hfile]
    exact h.writable
  · rw [hfile]
    exact h.ip
  · rw [hinode]
    exact h.inode

theorem wp_filewrite {Q : Int → Files → Prop} (hlen : bs.length ≤ pgsize)
    (hoff : (fs.file f).off ≤ (fs.inode n).size) (hmax : (fs.file f).off + pgsize < uintSize)
    (hq : ∀ r, Q r (fs.wrote f (bs.take (written (fs.file f).off bs.length)))) :
    wp (filewrite f bs) Q F fs := by
  unfold filewrite
  rw [wp_bind, wp_get, wp_ite, h.writable, if_neg (by decide), h.type]
  dsimp only
  rw [wp_bind]
  refine wp_filewriteLoop _ (Nat.le_refl _) hlen ?_ ?_ hmax ?_
  · rw [h.ip, h.inode]
    decide
  · rw [h.ip]
    exact hoff
  · intro ok
    rw [wp_ite]
    split
    · exact (wp_pure ..).mpr (hq _)
    · exact (wp_pure ..).mpr (hq _)

theorem wp_flush {w : FileWrite} (hf : w.file = f)
    (hoff : w.off ≤ (fs.inode n).size) (hmax : w.off + pgsize < uintSize) :
    wp (flush w) (fun _ fs' => fs'.Regular f n ∧ fs'.inode n = (fs.inode n).flushed [w]) F fs := by
  subst hf
  have h1 := h.seek w.off
  unfold flush setFile
  rw [wp_bind, wp_modify, wp_bind]
  generalize hfs1 : ({ fs with file := _ } : Files) = fs1 at h1 ⊢
  have hoff1 : (fs1.file w.file).off = w.off := by
    rw [← hfs1]
    dsimp only
    rw [update_self]
  have hinode1 : fs1.inode = fs.inode := by rw [← hfs1]
  refine wp_filewrite h1 (Nat.le_of_eq (length_pageBytes _)) ?_ ?_ ?_
  · rw [hoff1, hinode1]
    exact hoff
  · rw [hoff1]
    exact hmax
  · intro r
    obtain ⟨h2, hinode2⟩ := h1.wrote ((pageBytes w.data).take (written w.off pgsize))
    rw [wp_pure, hoff1, length_pageBytes]
    refine ⟨h2, ?_⟩
    rw [hinode2, hoff1, hinode1]
    rfl

end

theorem wp_flushAll (ws : List FileWrite) : ∀ {fs : Files}, fs.Regular f n →
    (∀ w ∈ ws, w.file = f ∧ w.off ≤ (fs.inode n).size ∧ w.off + pgsize < uintSize) →
    wp (ws.forM flush) (fun _ fs' => fs'.inode n = (fs.inode n).flushed ws) F fs := by
  induction ws with
  | nil =>
    intro fs _ _
    rw [List.forM_eq_forM, List.forM_nil, wp_pure]
    rfl
  | cons w ws ih =>
    intro fs h hws
    obtain ⟨⟨hf, hoff, hmax⟩, hrest⟩ := List.forall_mem_cons.mp hws
    rw [List.forM_eq_forM, List.forM_cons, wp_bind]
    refine wp_post (wp_flush h hf hoff hmax) ?_
    rintro _ fs1 ⟨h1, heq⟩
    have hsize : (fs.inode n).size ≤ (fs1.inode n).size := by
      rw [heq]
      exact Nat.le_max_left ..
    refine wp_post (ih h1 fun u hu => ?_) ?_
    · obtain ⟨hfu, hou, hmu⟩ := hrest u hu
      exact ⟨hfu, Nat.le_trans hou hsize, hmu⟩
    · intro _ fs2 h2
      rw [h2, heq]
      rfl

/-! ## A region over a file -/

/-- The last page of a region. -/
def MmapRegion.lastPage (r : MmapRegion) : Nat := (r.stop - 1) / pgsize

/-- What a process saw of a region. -/
structure View where
  /-- The byte at each offset, when it was last read or written. -/
  seen : Nat → Byte
  /-- The pages of the accesses so far. -/
  touched : List Nat

/-- An attempt at an access of the region at `base`.  One that faults shows nothing
yet. -/
def View.access (w : View) (base : Nat) (m : Mem) (dir va : Nat) (b : Option Byte) : View :=
  { seen := match translate m dir va b.isSome with
      | none => w.seen
      | some g => Function.update w.seen (va - base) (b.getD (m.page g (va % pgsize)))
    touched := va / pgsize :: w.touched }

/-- Before the first access: what the file holds. -/
def Inode.view (ip : Inode) : View := ⟨ip.data, []⟩

/-- Slot `i` of the running process `p` is the region `r` over the open file `f`. -/
structure OverFile (c p i : Nat) (r : MmapRegion) (f : Nat) (s : Os) : Prop where
  cur : (s.kernel.cpu c).proc = some p
  region : ∃ k, (s.kernel.proc p).mmap i = { r with nLoadedPages := k }
  good : r.Good
  backed : flag r.flags mapAnonymous = false
  found : ∀ va, r.addr ≤ va → va < r.stop → findRegion (s.kernel.proc p).mmap va = some i
  opened : openFile (s.kernel.proc p) r.fd = some f

/-- Slot `i` of the running process `p` is a shared region, of the length of the file
`n`, over `f`, which is that file opened for reading and writing. -/
structure FileRegion (c p i : Nat) (r : MmapRegion) (f n : Nat) (s : Os) : Prop where
  cur : (s.kernel.cpu c).proc = some p
  cr3 : (s.kernel.cpu c).cr3 = (s.kernel.proc p).pgdir
  alive : (s.kernel.proc p).killed = false
  region : ∃ k, (s.kernel.proc p).mmap i = { r with nLoadedPages := k }
  good : r.Good
  inside : r.addr < mmapTop
  shared : flag r.flags mapShared = true
  backed : flag r.flags mapAnonymous = false
  found : ∀ va, r.addr ≤ va → va < r.stop → findRegion (s.kernel.proc p).mmap va = some i
  opened : openFile (s.kernel.proc p) r.fd = some f
  regular : s.files.Regular f n
  length : r.length = (s.files.inode n).size
  bound : (s.files.inode n).size ≤ maxfile * bsize

/-- One attempt at an access inside the region, by a process that is not killed for
it. -/
def RegionStep [Link] (ncpu c p : Nat) (r : MmapRegion) (s : Os × View)
    (e : Nat × Option Byte × Option (List Byte)) (s' : Os × View) : Prop :=
  OsStep ncpu s.1 (.kernel (.access c e.1 e.2.1 e.2.2)) s'.1 ∧ r.addr ≤ e.1 ∧ e.1 < r.stop ∧
    (s'.1.kernel.cpu c).proc = some p ∧
    s'.2 = s.2.access r.addr s.1.kernel.mem (s.1.kernel.cpu c).cr3 e.1 e.2.1

variable [Link] {A A' : Space} {x : Bool} {d : Nat} {r : MmapRegion} {data : Nat → Byte}
  {m m' : Mem} {w : View}

/-- The pages of a region hold what the process saw, and the file the rest. -/
structure Viewed (A : Space) (x : Bool) (d : Nat) (r : MmapRegion) (data : Nat → Byte) (m : Mem)
    (w : View) : Prop where
  rep : Rep m A
  sane : Sane A x
  dir : A.role d = .dir
  touched : ∀ v ∈ r.pages, flag (A.pte d v) pteP = true ↔ v ∈ w.touched
  perm : ∀ v ∈ r.pages, flag (A.pte d v) pteP = true →
    flag (A.pte d v) pteU = true ∧ flag (A.pte d v) pteW = true
  here : ∀ va, r.addr ≤ va → va < r.stop → flag (A.pte d (va / pgsize)) pteP = true →
    m.page (frame (A.pte d (va / pgsize))) (va % pgsize) = w.seen (va - r.addr)
  away : ∀ va, r.addr ≤ va → va < r.stop → flag (A.pte d (va / pgsize)) pteP = false →
    w.seen (va - r.addr) = data (va - r.addr)

namespace Viewed

/-- Before the first access. -/
theorem start (hrep : Rep m A) (hs : Sane A x) (hd : A.role d = .dir) (hgood : r.Good)
    (habs : ∀ v ∈ r.pages, flag (A.pte d v) pteP = false) : Viewed A x d r ip.data m ip.view := by
  refine ⟨hrep, hs, hd, fun v hv => ?_, fun v hv hp => ?_, fun va hlo hhi hp => ?_,
    fun _ _ _ _ => rfl⟩
  · rw [habs v hv]
    exact ⟨nofun, nofun⟩
  · rw [habs v hv] at hp
    cases hp
  · rw [habs _ (hgood.page_mem hlo hhi)] at hp
    cases hp

section

variable (h : Viewed A x d r data m w)
include h

section

variable (hgood : r.Good)
include hgood

theorem translate (hlo : r.addr ≤ va)
    (hhi : va < r.stop) (write : Bool) : Xv6.translate m d va write =
      if flag (A.pte d (va / pgsize)) pteP then some (frame (A.pte d (va / pgsize))) else none := by
  have hv := hgood.page_mem hlo hhi
  have hva : va < uintSize := by
    have := hgood.stop
    rw [mmapTop_eq] at this
    rw [uintSize_eq]
    omega
  rw [h.rep.translate h.dir hva]
  unfold permits
  cases hp : flag (A.pte d (va / pgsize)) pteP with
  | false => rw [Bool.false_and, Bool.false_and]
  | true =>
    obtain ⟨hu, hw⟩ := h.perm _ hv hp
    rw [hu, hw, Bool.or_true]
    rfl

/-- The frame of a present page. -/
theorem frame_ne {v : Nat} (hv : v ∈ r.pages)
    (hp : flag (A.pte d v) pteP = true) :
    A.role (frame (A.pte d v)) = .data ∧ frame (A.pte d v) ≠ 0 := by
  have hlt := hgood.ok.lt_userPages hv
  refine ⟨h.sane.mapped.not_kernel h.rep.wf h.dir hlt hp, fun h0 => ?_⟩
  rcases h.sane.mapped.user d v h.dir hlt hp with ⟨-, hu⟩ | ⟨hm, -⟩
  · rw [(h.perm v hv hp).1] at hu
    cases hu
  · have := hm.pos
    omega

section

variable (hlo : r.addr ≤ va) (hhi : va < r.stop) (hp : flag (A.pte d (va / pgsize)) pteP = true)
include hlo hhi hp

/-- A touched page is touched again. -/
theorem touch {seen : Nat → Byte} (hrep : Rep m' A)
    (hhere : ∀ u, r.addr ≤ u → u < r.stop → flag (A.pte d (u / pgsize)) pteP = true →
      m'.page (frame (A.pte d (u / pgsize))) (u % pgsize) = seen (u - r.addr))
    (haway : ∀ u, r.addr ≤ u → u < r.stop → flag (A.pte d (u / pgsize)) pteP = false →
      seen (u - r.addr) = w.seen (u - r.addr)) :
    Viewed A x d r data m' ⟨seen, va / pgsize :: w.touched⟩ := by
  refine ⟨hrep, h.sane, h.dir, ?_, h.perm, hhere, ?_⟩
  · intro v hv
    rw [h.touched v hv, List.mem_cons]
    refine ⟨.inr, ?_⟩
    rintro (rfl | hmem)
    · exact (h.touched _ (hgood.page_mem hlo hhi)).mp hp
    · exact hmem
  · intro u hlo' hhi' hp'
    exact (haway u hlo' hhi' hp').trans (h.away u hlo' hhi' hp')

/-- A read of a page that is present. -/
theorem read :
    Viewed A x d r data m (w.access r.addr m d va none) := by
  have hsame : Function.update w.seen (va - r.addr)
      (m.page (frame (A.pte d (va / pgsize))) (va % pgsize)) = w.seen := by
    rw [h.here va hlo hhi hp, update_eq_self]
  unfold View.access
  rw [h.translate hgood hlo hhi, hp, if_pos rfl]
  dsimp only
  rw [Option.getD_none, hsame]
  exact h.touch hgood hlo hhi hp h.rep h.here fun _ _ _ _ => rfl

/-- A write to a page that is present. -/
theorem write {b : Byte} :
    Viewed A x d r data (m.setPage (frame (A.pte d (va / pgsize)))
      (setByte (m.page (frame (A.pte d (va / pgsize)))) (va % pgsize) b))
      (w.access r.addr m d va (some b)) := by
  have hv := hgood.page_mem hlo hhi
  obtain ⟨hdata, hne0⟩ := h.frame_ne hgood hv hp
  unfold View.access
  rw [h.translate hgood hlo hhi, hp, if_pos rfl]
  dsimp only
  rw [Option.getD_some]
  refine h.touch hgood hlo hhi hp (h.rep.setPage _ (by rw [hdata]; rfl)) ?_ ?_
  · intro u hlo' hhi' hp'
    by_cases hu : u = va
    · rw [hu, Mem.setPage_self, setByte_self, update_self]
    rw [update_of_ne (by omega), ← h.here u hlo' hhi' hp']
    by_cases hpage : u / pgsize = va / pgsize
    · -- another byte of the same page
      rw [hpage, Mem.setPage_self, setByte_ne _ _ ?_]
      rw [pgsize_eq] at hpage ⊢
      omega
    · -- two pages of a region have different frames
      rw [Mem.setPage_ne _ _ fun heq => hpage ?_]
      exact h.sane.mapped.same d _ d _ h.dir h.dir (hgood.ok.lt_userPages hv)
        (hgood.ok.lt_userPages (hgood.page_mem hlo' hhi')) hp hp' heq hne0
  · intro u hlo' hhi' hp'
    refine update_of_ne ?_ ..
    intro heq
    obtain rfl : u = va := by omega
    rw [hp] at hp'
    cases hp'

end

/-- The first access to a page loads it. -/
theorem load {g : Nat} (hlo : r.addr ≤ va)
    (hhi : va < r.stop) (hp : flag (A.pte d (va / pgsize)) pteP = false)
    (hfill : Fill A d (va / pgsize) (pteW ||| pteU) g A') (hrep : Rep m' A')
    (hkeep : KeepData A m m') (hpage : ∀ u, u / pgsize = va / pgsize → r.addr ≤ u → u < r.stop →
      m'.page g (u % pgsize) = data (u - r.addr)) :
    Viewed A' x d r data m' (w.access r.addr m d va b) := by
  have hv := hgood.page_mem hlo hhi
  have hlt := hgood.ok.lt_userPages hv
  have hext := hfill.extends h.rep.wf hlt perm_wu
  have hman : Managed g := h.rep.wf.managed g (by rw [hfill.fresh h.rep.wf]; nofun)
  have hpte : ∀ v, v ≠ va / pgsize → A'.pte d v = A.pte d v := fun v hne =>
    hext.pte d v fun hn => hne hn.2
  have hself : flag (A'.pte d (va / pgsize)) pteP = true := by
    rw [hfill.pte_self]
    exact flag_mkPte_pteP ..
  unfold View.access
  rw [h.translate hgood hlo hhi, hp, if_neg (by decide)]
  dsimp only
  refine ⟨hrep, hfill.sane h.rep.wf h.dir hlt perm_wu h.sane, hext.role_dir h.dir, ?_, ?_, ?_, ?_⟩
  · intro v hv'
    rw [List.mem_cons]
    by_cases hne : v = va / pgsize
    · rw [hne]
      exact ⟨fun _ => .inl rfl, fun _ => hself⟩
    · rw [hpte v hne, h.touched v hv']
      exact ⟨.inr, fun hor => hor.resolve_left hne⟩
  · intro v hv' hp'
    by_cases hne : v = va / pgsize
    · rw [hne, hfill.pte_self, flag_mkPte (by decide) (by decide), flag_mkPte (by decide) (by decide)]
      decide
    · rw [hpte v hne] at hp' ⊢
      exact h.perm v hv' hp'
  · intro u hlo' hhi' hp'
    by_cases hne : u / pgsize = va / pgsize
    · rw [hne, hfill.pte_self, frame_mkPte hman.lt_frames perm_wu, hpage u hne hlo' hhi']
      exact (h.away u hlo' hhi' (by rw [hne]; exact hp)).symm
    · rw [hpte _ hne] at hp' ⊢
      rw [hkeep _ (h.frame_ne hgood (hgood.page_mem hlo' hhi') hp').1]
      exact h.here u hlo' hhi' hp'
  · intro u hlo' hhi' hp'
    by_cases hne : u / pgsize = va / pgsize
    · rw [hne, hself] at hp'
      cases hp'
    · rw [hpte _ hne] at hp'
      exact h.away u hlo' hhi' hp'

end

end

end Viewed

/-! ## Accesses inside the region -/

omit [Link] in
/-- What a page fault reads: the bytes from the start of the page to the end of the
file, and zeros. -/
theorem Inode.lazyPage_read {o : Nat} (hanon : flag r.flags mapAnonymous = false)
    (hoff : off ≤ ip.size) (hlt : off + pgsize < uintSize) (ho : o < pgsize) :
    lazyPage r (ip.read off pgsize) o = if off + o < ip.size then ip.data (off + o) else 0#8 := by
  have hread : ip.read off pgsize =
      some ((List.range (min pgsize (ip.size - off))).map fun i => ip.data (off + i)) := by
    unfold read
    rw [Nat.mod_eq_of_lt hlt, if_neg (by omega)]
    dsimp only
    congr 3
    split <;> omega
  unfold lazyPage
  rw [hanon, if_neg (by decide), hread, Option.getD_some]
  refine (if_pos (Nat.zero_le o)).trans ?_
  rw [Nat.sub_zero, List.getD_eq_getElem?_getD, List.getElem?_take_of_lt ho, List.getElem?_map]
  by_cases hsize : off + o < ip.size
  · rw [List.getElem?_range (show o < min pgsize (ip.size - off) by omega), if_pos hsize]
    rfl
  · rw [List.getElem?_eq_none (by rw [List.length_range]; omega), if_neg hsize]
    rfl

variable {c p i ncpu : Nat} {s s' : Os}

namespace FileRegion

section

variable (h : FileRegion c p i r f n s)
include h

section

omit [Link]

theorem congr {k : Kernel} (hcpu : k.cpu c = s.kernel.cpu c)
    (hpgdir : (k.proc p).pgdir = (s.kernel.proc p).pgdir)
    (hkilled : (k.proc p).killed = (s.kernel.proc p).killed)
    (hofile : (k.proc p).ofile = (s.kernel.proc p).ofile)
    (hregion : ∃ j, (k.proc p).mmap i = { r with nLoadedPages := j })
    (hfound : ∀ a, findRegion (k.proc p).mmap a = findRegion (s.kernel.proc p).mmap a) :
    FileRegion c p i r f n { s with kernel := k } where
  cur := by rw [hcpu]; exact h.cur
  cr3 := by rw [hcpu, hpgdir]; exact h.cr3
  alive := by rw [hkilled]; exact h.alive
  region := hregion
  good := h.good
  inside := h.inside
  shared := h.shared
  backed := h.backed
  found va hlo hhi := by rw [hfound]; exact h.found va hlo hhi
  opened := by
    have := h.opened
    unfold openFile at this ⊢
    rw [hofile]
    exact this
  regular := h.regular
  length := h.length
  bound := h.bound

theorem setMem (m : Mem) :
    FileRegion c p i r f n { s with kernel := { s.kernel with mem := m } } :=
  h.congr rfl rfl rfl rfl h.region fun _ => rfl

theorem loadedPage (m : Mem) :
    FileRegion c p i r f n { s with kernel := s.kernel.loadedPage p i m } := by
  obtain ⟨j, hj⟩ := h.region
  have hproc := s.kernel.loadedPage_proc p i m
  refine h.congr rfl ?_ ?_ ?_ ⟨j + 1, ?_⟩ (s.kernel.loadedPage_find p i m)
  · rw [hproc]
    rfl
  · rw [hproc]
    rfl
  · rw [hproc]
    rfl
  · rw [s.kernel.loadedPage_mmap, hj]

/-- The end of the region, without wrap-around. -/
theorem stop : r.stop = r.addr + (s.files.inode n).size := by
  have hin := h.good.inside h.inside
  have hlen := h.length
  rw [mmapTop_eq] at hin
  have hsum : (r.stop : Int) = r.addr + r.length :=
    uadd_of_lt (a := r.addr) h.good.pos.le (by rw [uintSize_eq]; omega)
  omega

/-- The page that the first access to it finds in the file. -/
theorem loaded {io : Option (List Byte)} (hlo : r.addr ≤ va)
    (hhi : va < r.stop) (hfed : (Event.access c va b io).Fed s) {u : Nat}
    (hu : u / pgsize = va / pgsize) (hulo : r.addr ≤ u) (huhi : u < r.stop) :
    lazyPage ((s.kernel.proc p).mmap i) io (u % pgsize) = (s.files.inode n).data (u - r.addr) := by
  obtain ⟨k, hk⟩ := h.region
  have hio := hfed p i f h.cur (h.found va hlo hhi) (by rw [hk]; exact h.opened) h.regular.type
    (by rw [h.regular.ip, h.regular.inode]; decide)
  have hstop := h.stop
  have hal := h.good.aligned
  have htop := h.good.stop
  have hdown : pgrounddown va = u / pgsize * pgsize := by rw [hu]; rfl
  have hmod := Nat.div_add_mod u pgsize
  have hlt := Nat.mod_lt u (show 0 < pgsize by decide)
  rw [mmapTop_eq] at htop
  unfold Files.lazyRead at hio
  rw [h.regular.readable, if_pos rfl, h.regular.ip, hk, hdown] at hio
  dsimp only at hio
  rw [hio, hk]
  rw [pgsize_eq] at hal hmod hlt
  rw [show u - r.addr = (u / pgsize * pgsize - r.addr) + u % pgsize by rw [pgsize_eq]; omega]
  refine (Inode.lazyPage_read h.backed ?_ ?_ (by rw [pgsize_eq]; exact hlt)).trans (if_pos ?_)
  · rw [pgsize_eq]
    omega
  · rw [pgsize_eq, uintSize_eq]
    omega
  · rw [pgsize_eq]
    omega

end

/-- An attempt at an access inside the region, by a process that survives it. -/
theorem access {io : Option (List Byte)}
    (hview : Viewed A x (s.kernel.proc p).pgdir r (s.files.inode n).data s.kernel.mem w)
    (hlo : r.addr ≤ va) (hhi : va < r.stop) (hfed : (Event.access c va b io).Fed s) :
    wp (Xv6.access c va b io) (fun _ k => (k.cpu c).proc = some p →
      k.filewrites = s.kernel.filewrites ∧ FileRegion c p i r f n { s with kernel := k } ∧
      ∃ A', Viewed A' x (k.proc p).pgdir r (s.files.inode n).data k.mem
        (w.access r.addr s.kernel.mem (s.kernel.cpu c).cr3 va b)) (fun _ => True) s.kernel := by
  obtain ⟨j, hj⟩ := h.region
  have hva : va < uintSize := by
    have := h.good.stop
    rw [mmapTop_eq] at this
    rw [uintSize_eq]
    omega
  rw [h.cr3]
  unfold Xv6.access
  rw [wp_bind, wp_get, h.cr3, hview.translate h.good hlo hhi]
  cases hp : flag (A.pte (s.kernel.proc p).pgdir (va / pgsize)) pteP with
  | true =>
    rw [if_pos rfl]
    cases b with
    | none => exact (wp_pure ..).mpr fun _ => ⟨rfl, h, A, hview.read h.good hlo hhi hp⟩
    | some b =>
      dsimp only
      rw [wp_onMem, wp_modify]
      exact fun _ => ⟨rfl, h.setMem _, A, hview.write h.good hlo hhi hp⟩
  | false =>
    rw [if_neg (by decide)]
    refine hview.rep.trapPgflt_absent h.cur hview.dir hva hp ?_
    unfold pagefaultDefault
    rw [wp_bind, wp_getProc, h.found va hlo hhi]
    refine hview.rep.lazyAlloc hview.dir hva (.inr hp) ?_ ?_ ?_ ?_
    · rw [hj]
      exact .inr (.inr (by rw [h.opened]; rfl))
    · intro m' A' _ _ _ _
      exact wp_killSelf_gone h.cur
    · intro g m' A' _ _ _ _ _
      exact wp_killSelf_gone h.cur
    · intro g m' A' hfill hrep hkeep hpage _ _
      refine ⟨rfl, h.loadedPage m', A', ?_⟩
      rw [Kernel.loadedPage_pgdir]
      refine hview.load h.good hlo hhi hp hfill hrep hkeep fun u hu hulo huhi => ?_
      show m'.page g (u % pgsize) = _
      rw [hpage]
      exact h.loaded hlo hhi hfed hu hulo huhi

theorem step {e : Nat × Option Byte × Option (List Byte)} {w w' : View}
    (hview : ∃ A, Viewed A x (s.kernel.proc p).pgdir r (s.files.inode n).data s.kernel.mem w)
    (hstep : RegionStep ncpu c p r (s, w) e (s', w')) :
    FileRegion c p i r f n s' ∧ s'.files = s.files ∧
      ∃ A, Viewed A x (s'.kernel.proc p).pgdir r (s'.files.inode n).data s'.kernel.mem w' := by
  obtain ⟨va, b, io⟩ := e
  obtain ⟨hos, hlo, hhi, hcur, rfl⟩ := hstep
  obtain ⟨A, hview⟩ := hview
  obtain ⟨hw, hreg, hview'⟩ := wp_ok (F := fun _ => True)
    (h.access hview hlo hhi (hos.1.2 : (Event.access c va b io).Fed s)) hos.kernel.2 hcur
  have hfiles := hos.files hw
  have hs' : s' = { s with kernel := s'.kernel } := by
    rw [← hfiles]
  rw [hs']
  exact ⟨hreg, rfl, hview'⟩

end

end FileRegion

/-! ## `wunmap` -/

namespace OverFile

omit [Link] in
/-- The writes of `wunmap`: one for each present page. -/
theorem mem_writes {m : Mem} (h : OverFile c p i r f s) :
    u ∈ A.writes m (s.kernel.proc p) r r.pages ↔ ∃ v ∈ r.pages,
      flag (A.pte (s.kernel.proc p).pgdir v) pteP = true ∧
      u = ⟨f, v * pgsize - r.addr, m.page (frame (A.pte (s.kernel.proc p).pgdir v))⟩ := by
  unfold Space.writes
  rw [List.mem_flatMap]
  refine exists_congr fun v => and_congr_right fun _ => ?_
  unfold pageWrite
  rw [h.backed, if_neg (by decide : ¬ false = true), h.opened]
  dsimp only
  split
  next hp => rw [List.mem_singleton, and_iff_right hp]
  next hp => simp [hp]

omit [Link] in
/-- Every write is inside what a `uint` can hold. -/
theorem write_lt {m : Mem} (h : OverFile c p i r f s)
    (hu : u ∈ A.writes m (s.kernel.proc p) r r.pages) : u.off + pgsize < uintSize := by
  obtain ⟨v, hv, -, rfl⟩ := h.mem_writes.mp hu
  have hstop := h.good.stop
  obtain ⟨-, hvhi⟩ := (r.mem_pages h.good.aligned).mp hv
  rw [mmapTop_eq] at hstop
  rw [pgsize_eq, uintSize_eq] at *
  dsimp only
  omega

/-- The pages are handed to `filewrite`, and the descriptors stay. -/
theorem unmap {addr : Word} (h : OverFile c p i r f s) (hk : (s.kernel.proc p).killed = false)
    (hrep : Rep s.kernel.mem A) (hmap : Mapped A) (hd : A.role (s.kernel.proc p).pgdir = .dir)
    (hlo : r.addr ≤ addr.toNat) (hhi : addr.toNat < r.stop)
    (hun : OsStep ncpu s (.kernel (.syscall c (.wunmap addr))) s') :
    (s'.kernel.proc p).ofile = (s.kernel.proc p).ofile ∧
      (A.writes s.kernel.mem (s.kernel.proc p) r r.pages).forM flush s.files = .ok ((), s'.files) := by
  obtain ⟨j, hj⟩ := h.region
  have hbase := h.good.base
  have htop := h.good.stop
  refine wp_ok (Q := fun _ s' => (s'.kernel.proc p).ofile = (s.kernel.proc p).ofile ∧
    (A.writes s.kernel.mem (s.kernel.proc p) r r.pages).forM flush s.files = .ok ((), s'.files))
    (F := fun _ => True) ?_ hun.2
  refine wp_flushing_append (A.writes s.kernel.mem (s.kernel.proc p) r r.pages) ?_
  rw [wp_onKernel]
  refine wp_syscall h.cur hk ?_
  unfold Call.body sysWunmap
  rw [wp_bind, wp_ite, if_neg (by omega)]
  refine wp_post (hrep.wunmap hmap h.cur hd fun k hk => ?_) ?_
  · obtain rfl : i = k := Option.some.inj ((h.found _ hlo hhi).symm.trans hk)
    rw [hj]
    exact ⟨⟨h.good.aligned, h.good.stop⟩, .inl trivial, .inl trivial⟩
  · intro _ k hcase
    rw [h.found _ hlo hhi] at hcase
    obtain ⟨-, k1, hk1, rfl⟩ := hcase
    rw [hj] at hk1
    rw [wp_pure]
    refine wp_exitIfKilled (p := p) ?_ ?_ ⟨?_, wp_of_ok fun _ fs hfs => ⟨?_, hfs⟩⟩
    · show (k1.cpu c).proc = some p
      rw [hk1.eq]
      exact h.cur
    · rw [Kernel.setProc_self, hk1.eq]
      exact hk
    · show k1.filewrites = _
      rw [hk1.eq]
      rfl
    · show ((k1.setProc p fun pr => pr.dropRegion i).proc p).ofile = _
      rw [Kernel.setProc_self, hk1.eq]
      rfl

end OverFile

namespace FileRegion

section

variable (h : FileRegion c p i r f n s)
include h

omit [Link] in
theorem overFile : OverFile c p i r f s :=
  ⟨h.cur, h.region, h.good, h.backed, h.found, h.opened⟩

section

variable (hview : Viewed A x (s.kernel.proc p).pgdir r (s.files.inode n).data s.kernel.mem w)
include hview

theorem unmap {addr : Word}
    (hlo : r.addr ≤ addr.toNat) (hhi : addr.toNat < r.stop)
    (hun : OsStep ncpu s (.kernel (.syscall c (.wunmap addr))) s') :
    s'.files.inode n =
      (s.files.inode n).flushed (A.writes s.kernel.mem (s.kernel.proc p) r r.pages) := by
  have hflush := (h.overFile.unmap h.alive hview.rep hview.sane.mapped hview.dir hlo hhi hun).2
  have hall : ∀ u ∈ A.writes s.kernel.mem (s.kernel.proc p) r r.pages,
      u.file = f ∧ u.off ≤ (s.files.inode n).size ∧ u.off + pgsize < uintSize := by
    intro u hu
    have hlt := h.overFile.write_lt hu
    obtain ⟨v, hv, -, rfl⟩ := h.overFile.mem_writes.mp hu
    have hstop := h.stop
    obtain ⟨hvlo, hvhi⟩ := (r.mem_pages h.good.aligned).mp hv
    refine ⟨rfl, ?_, hlt⟩
    dsimp only
    omega
  have hpost := wp_ok (wp_flushAll (F := fun _ => True) _ h.regular hall) hflush
  exact hpost

/-- Every write has the bytes that were seen, and ends at the end of its page or where
the last transaction does. -/
theorem write_spec
    (hu : u ∈ A.writes s.kernel.mem (s.kernel.proc p) r r.pages) :
    u.off % pgsize = 0 ∧ u.off < (s.files.inode n).size ∧
      u.upto = min (u.off + pgsize) writeLimit ∧ (r.addr + u.off) / pgsize ∈ w.touched ∧
      ∀ j < (s.files.inode n).size, u.off ≤ j → j < u.off + pgsize → u.data (j - u.off) = w.seen j := by
  obtain ⟨v, hv, hp, rfl⟩ := h.overFile.mem_writes.mp hu
  obtain ⟨hvlo, hvhi⟩ := (r.mem_pages h.good.aligned).mp hv
  have hstop := h.stop
  have hbound := h.bound
  have hal := h.good.aligned
  have hoff : (v * pgsize - r.addr) % pgsize = 0 := by
    rw [pgsize_eq] at hal ⊢
    omega
  have hpage : (r.addr + (v * pgsize - r.addr)) / pgsize = v := by
    rw [pgsize_eq] at hvlo ⊢
    omega
  refine ⟨hoff, ?_, FileWrite.upto_eq hoff ?_, ?_, ?_⟩
  · dsimp only
    omega
  · dsimp only
    omega
  · rw [hpage]
    exact (hview.touched v hv).mp hp
  · intro j hj hlo hhi
    dsimp only at hlo hhi ⊢
    have hdiv : (r.addr + j) / pgsize = v := by
      rw [pgsize_eq] at *
      omega
    have hmod : (r.addr + j) % pgsize = j - (v * pgsize - r.addr) := by
      rw [pgsize_eq] at *
      omega
    have hseen := hview.here (r.addr + j) (by omega) (by omega) (by rw [hdiv]; exact hp)
    rw [hdiv, hmod, Nat.add_sub_cancel_left] at hseen
    exact hseen

end

omit [Link] in
/-- The write of the page of a byte, if the page is present. -/
theorem write_exists (hj : j < (s.files.inode n).size)
    (hp : flag (A.pte (s.kernel.proc p).pgdir ((r.addr + j) / pgsize)) pteP = true) :
    ∃ u ∈ A.writes s.kernel.mem (s.kernel.proc p) r r.pages,
      u.off = j / pgsize * pgsize := by
  have hal := h.good.aligned
  have hstop := h.stop
  refine ⟨_, h.overFile.mem_writes.mpr ⟨(r.addr + j) / pgsize, h.good.page_mem (by omega) (by omega), hp, rfl⟩,
    ?_⟩
  dsimp only
  rw [pgsize_eq] at *
  omega

section

variable (hview : Viewed A x (s.kernel.proc p).pgdir r (s.files.inode n).data s.kernel.mem w)
include hview

/-- The byte at `j` after `wunmap`: what was seen, unless no transaction reached it. -/
theorem flushed_seen
    (hj : j < (s.files.inode n).size)
    (hreach : j < writeLimit ∨ (r.addr + j) / pgsize ∉ w.touched) :
    ((s.files.inode n).flushed (A.writes s.kernel.mem (s.kernel.proc p) r r.pages)).data j =
      w.seen j := by
  have hstop := h.stop
  have hv := h.good.page_mem (a := r.addr + j) (by omega) (by omega)
  refine Inode.flushed_data _ ?_ ?_
  · intro u hu hlo hhi
    have hle := written_le u.off pgsize
    unfold FileWrite.upto at hhi
    exact (h.write_spec hview hu).2.2.2.2 j hj hlo (by omega)
  · cases hp : flag (A.pte (s.kernel.proc p).pgdir ((r.addr + j) / pgsize)) pteP with
    | false =>
      left
      have := hview.away (r.addr + j) (by omega) (by omega) hp
      rw [Nat.add_sub_cancel_left] at this
      exact this.symm
    | true =>
      right
      obtain ⟨u, hu, hoff⟩ := h.write_exists hj hp
      obtain ⟨-, -, hupto, -, -⟩ := h.write_spec hview hu
      have hlim := hreach.resolve_right fun hn => hn ((hview.touched _ hv).mp hp)
      refine ⟨u, hu, ?_⟩
      rw [hupto, hoff, pgsize_eq]
      omega

/-- A byte that no transaction reached keeps the value of the file. -/
theorem flushed_lost
    (hj : writeLimit ≤ j) :
    ((s.files.inode n).flushed (A.writes s.kernel.mem (s.kernel.proc p) r r.pages)).data j =
      (s.files.inode n).data j := by
  refine Inode.flushed_data _ ?_ (.inl rfl)
  intro u hu _ hhi
  obtain ⟨-, -, hupto, -, -⟩ := h.write_spec hview hu
  omega

end

omit [Link] in
/-- The last page of the region, and where it starts in the file. -/
theorem last_page (hal : off % pgsize = 0) :
    (r.addr + off) / pgsize = r.lastPage ↔
      off < (s.files.inode n).size ∧ (s.files.inode n).size ≤ off + pgsize := by
  have hstop := h.stop
  have hr := h.good.aligned
  have hpos := h.good.pos
  have hlen := h.length
  unfold MmapRegion.lastPage
  rw [pgsize_eq] at *
  omega

/-- When the file is what the process saw, after the pages were written back. -/
theorem flushed_iff
    (hview : Viewed A x (s.kernel.proc p).pgdir r (s.files.inode n).data s.kernel.mem w) (hip : ip =
      (s.files.inode n).flushed (A.writes s.kernel.mem (s.kernel.proc p) r r.pages)) :
    (ip.size = (s.files.inode n).size ∧ ∀ j < (s.files.inode n).size, ip.data j = w.seen j) ↔
      (s.files.inode n).size % pgsize = 0 ∨ r.lastPage ∉ w.touched ∨
        writeLimit ≤ (s.files.inode n).size ∧
          ∀ j < (s.files.inode n).size, writeLimit ≤ j → w.seen j = (s.files.inode n).data j := by
  subst hip
  have hbound := h.bound
  have hpos := h.good.pos
  have hlen := h.length
  have hspec := fun u hu => h.write_spec (u := u) hview hu
  rw [Inode.flushed_size]
  constructor
  · rintro ⟨hsize, hdata⟩
    by_contra hno
    obtain ⟨hmod, hno⟩ := not_or.mp hno
    obtain ⟨htouch, hno⟩ := not_or.mp hno
    rw [not_not] at htouch
    -- the write of the last page
    have hlast : (r.addr + ((s.files.inode n).size - 1)) / pgsize = r.lastPage := by
      unfold MmapRegion.lastPage
      rw [h.stop]
      congr 1
      omega
    have hp : flag (A.pte (s.kernel.proc p).pgdir
        ((r.addr + ((s.files.inode n).size - 1)) / pgsize)) pteP = true := by
      rw [hlast]
      refine (hview.touched _ ?_).mpr htouch
      have hstop := h.stop
      rw [← hlast]
      exact h.good.page_mem (by omega) (by omega)
    obtain ⟨u, hu, hoff⟩ := h.write_exists (by omega) hp
    have hle := hsize u hu
    obtain ⟨-, -, hupto, -, -⟩ := hspec u hu
    have hlim : writeLimit ≤ (s.files.inode n).size := by
      rw [hupto, hoff] at hle
      rw [pgsize_eq] at *
      omega
    refine hno ⟨hlim, fun j hj hge => ?_⟩
    rw [← hdata j hj]
    exact h.flushed_lost hview hge
  · intro hcond
    have hreach : ∀ off, off % pgsize = 0 → off < (s.files.inode n).size →
        (r.addr + off) / pgsize ∈ w.touched → min (off + pgsize) writeLimit ≤ (s.files.inode n).size := by
      intro off hal hlt htouch
      have hiff := h.last_page hal
      rcases hcond with hmod | hnot | ⟨hlim, -⟩
      · rw [pgsize_eq] at *
        omega
      · have hne : (r.addr + off) / pgsize ≠ r.lastPage := fun heq => hnot (heq ▸ htouch)
        have hover := mt hiff.mpr hne
        omega
      · omega
    refine ⟨fun u hu => ?_, fun j hj => ?_⟩
    · obtain ⟨hal, hlt, hupto, htouch, -⟩ := hspec u hu
      rw [hupto]
      exact hreach _ hal hlt htouch
    · rcases Nat.lt_or_ge j writeLimit with hlt | hge
      · exact h.flushed_seen hview hj (.inl hlt)
      -- only the last page reaches past the limit
      have hal : j / pgsize * pgsize % pgsize = 0 := Nat.mul_mod_left ..
      have hsame : (r.addr + j / pgsize * pgsize) / pgsize = (r.addr + j) / pgsize := by
        have := h.good.aligned
        rw [pgsize_eq] at *
        omega
      have hlast : (r.addr + j) / pgsize = r.lastPage := by
        rw [← hsame, h.last_page hal]
        rw [writeLimit_eq] at hge
        rw [maxsize_eq] at hbound
        rw [pgsize_eq]
        omega
      rcases hcond with hmod | hnot | ⟨-, hsame⟩
      · rw [writeLimit_eq] at hge
        rw [maxsize_eq] at hbound
        rw [pgsize_eq] at hmod
        omega
      · exact h.flushed_seen hview hj (.inr (by rw [hlast]; exact hnot))
      · rw [hsame j hj hge]
        exact h.flushed_lost hview hge

end

end FileRegion

omit [Link] in
theorem FileRegion.fd (h : FileRegion c p i r f n s) : r.Fd := by
  have := h.opened
  unfold openFile at this
  split at this
  · cases this
  · exact .inr (by omega)

/-- The region is unmapped. -/
theorem FileRegion.step_wunmap (addr : Word) (h : FileRegion c p i r f n s)
    (hview : Viewed A x (s.kernel.proc p).pgdir r (s.files.inode n).data s.kernel.mem w)
    (hc : c < ncpu) (hat : At c p d s.kernel) (hlo : r.addr ≤ addr.toNat)
    (hhi : addr.toNat < r.stop) :
    ∃ s', OsStep ncpu s (.kernel (.syscall c (.wunmap addr))) s' := by
  obtain ⟨j, hj⟩ := h.region
  have hbase := h.good.base
  have htop := h.good.stop
  have hdir := hview.dir
  obtain ⟨k1, hk1, hstep⟩ := hview.rep.step_wunmap addr hview.sane hc hat h.alive
    (by rw [← hat.pgdir]; exact hdir) (by omega) (by omega) (h.found _ hlo hhi)
    (by rw [hj]; exact ⟨h.good.aligned, h.good.stop⟩)
    (by
      rw [hj, ← hat.pgdir]
      exact fun v hv hp => (hview.frame_ne h.good hv hp).2)
    (by rw [hj]; exact h.fd)
  rw [hj] at hk1
  have hwrites : wp (flushing (onKernel (Event.run (.syscall c (.wunmap addr))))) (fun _ _ => True)
      (fun _ => False) s := by
    refine wp_flushing_append (A.writes s.kernel.mem (s.kernel.proc p) r r.pages) ?_
    rw [wp_onKernel]
    refine wp_of_run hstep.2 ⟨?_, ?_⟩
    · show k1.filewrites = _
      rw [hk1.eq]
      rfl
    · refine wp_post (wp_flushAll (f := f) (n := n) _ h.regular fun u hu => ?_)
        (fun _ _ _ => trivial)
      have hsize := (h.write_spec hview hu).2.1
      have hlt := h.overFile.write_lt hu
      obtain ⟨v, -, -, rfl⟩ := h.overFile.mem_writes.mp hu
      exact ⟨rfl, hsize.le, hlt⟩
  obtain ⟨_, s', hs', -⟩ := wp_total hwrites
  exact ⟨s', ⟨hstep.1, trivial⟩, hs'⟩

/-- The region the first process maps over its first file. -/
def firstRegion (length : Word) : MmapRegion :=
  ⟨0x60000000, length.toInt, mapShared ||| mapFixed, true, 1, 0⟩

section
variable {k : Kernel} {d g : Nat} {length : Word}

/-- The first process has opened a file and mapped it. -/
structure FirstMapped (k : Kernel) (A : Space) (d : Nat) (fs : Files) (length : Word) (s : Os) :
    Prop where
  region : FileRegion 0 0 0 (firstRegion length) 0 0 s
  slot : (s.kernel.proc 0).mmap 0 = firstRegion length
  opened : openFile (s.kernel.proc 0) 0 = some 0
  inode : s.files.inode = fs.inode
  off : (s.files.file 0).off = 0
  mem : s.kernel.mem = k.mem
  here : At 0 0 d s.kernel
  cr3 : (s.kernel.cpu 0).cr3 = d
  absent : ∀ v ∈ (firstRegion length).pages, flag (A.pte d v) pteP = false

theorem Booted.mapsFile (hb : Booted k A d f g) (hn : 0 < ncpu) (fs : Files) (length : Word)
    (hslot : wmapSlot (fun _ => .zero) 0x60000000#32 length (mapShared ||| mapFixed) = some 0)
    (htype : (fs.inode 0).type = .file) (hlen : length.toInt = (fs.inode 0).size)
    (hbound : (fs.inode 0).size ≤ maxfile * bsize) :
    ∃ es fs1 s, Trace.Run (OsStep ncpu) ⟨k, fs⟩ es ⟨(k.dispatch 0 0).openFirst 0, fs1⟩ ∧
      OsStep ncpu ⟨(k.dispatch 0 0).openFirst 0, fs1⟩
        (.kernel (.syscall 0 (.wmap 0x60000000#32 length (mapShared ||| mapFixed) 0#32))) s ∧
      s.files = fs1 ∧ FirstMapped k A d fs length s := by
  obtain ⟨fs1, hsched, hopen, hfile, hinode⟩ := hb.opened hn fs 0 (by rw [htype]; nofun)
  have hmap := hb.mappedFile hn fs1 length hslot
  have hpr := hb.mapFirst length
  refine ⟨_, fs1, _, .snoc (.single hsched) hopen, hmap, rfl, ?_⟩
  generalize hk1 : ((k.dispatch 0 0).openFirst 0).mapFirst length = k1 at hpr
  have hmem : k1.mem = k.mem := by rw [← hk1]; rfl
  have hcpu : k1.cpu 0 = ⟨some 0, d⟩ := by
    rw [← hk1]
    show Function.update k.cpu 0 ⟨some 0, (k.proc 0).pgdir⟩ 0 = _
    rw [update_self, hb.init]
  have hat : At 0 0 d k1 := ⟨by rw [hcpu], by rw [hpr]; rfl, by rw [hpr]; rfl⟩
  have hmmap : (k1.proc 0).mmap = Function.update (fun _ => .zero) 0 (firstRegion length) := by
    rw [hpr]
    rfl
  have hgood : (firstRegion length).Good := (wmapSlot_good hslot (firstRegion length)).1
  have hfound : ∀ va, 0x60000000 ≤ va → va < (firstRegion length).stop →
      findRegion (k1.proc 0).mmap va = some 0 := by
    intro va hlo hhi
    unfold findRegion
    rw [hmmap, show List.range maxMmaps = 0 :: (List.range maxMmaps).tail by decide, List.find?_cons,
      update_self]
    have hholds : (firstRegion length).holds va = true := by
      unfold MmapRegion.holds
      rw [Bool.and_eq_true, Bool.and_eq_true]
      exact ⟨⟨rfl, decide_eq_true hlo⟩, decide_eq_true hhi⟩
    rw [hholds]
  have hslot0 : (k1.proc 0).mmap 0 = firstRegion length := by rw [hmmap, update_self]
  refine ⟨?_, hslot0, by rw [hpr]; rfl, hinode, ?_, hmem, hat, by rw [hcpu], fun v hv => ?_⟩
  · refine ⟨hat.cur, by rw [hcpu, hat.pgdir], by rw [hpr]; rfl, ⟨0, hslot0⟩, hgood,
      (by decide : 0x60000000 < mmapTop), (by decide : flag (mapShared ||| mapFixed) mapShared = true),
      (by decide : flag (mapShared ||| mapFixed) mapAnonymous = false), hfound, ?_,
      ⟨by rw [hfile]; rfl, by rw [hfile]; rfl, by rw [hfile]; rfl, by rw [hfile]; rfl, ?_⟩, ?_, ?_⟩
    · show openFile (k1.proc 0) 1 = some 0
      rw [hpr]
      rfl
    · show (fs1.inode 0).type = .file
      rw [hinode, htype]
    · show length.toInt = ((fs1.inode 0).size : Int)
      rw [hinode, hlen]
    · show (fs1.inode 0).size ≤ _
      rw [hinode]
      exact hbound
  · show (fs1.file 0).off = 0
    rw [hfile]
    rfl
  · have hbase := hgood.page_base hv
    rw [hb.rest v (hgood.ok.lt_userPages hv) (by rintro rfl; exact absurd hbase (by decide))]
    exact flag_zero _

/-- The first process opens a file, maps it, reads its first byte and unmaps it. -/
theorem Booted.readMapped (hb : Booted k A d f g) (hn : 0 < ncpu)
    (fs : Files) (length : Word)
    (hslot : wmapSlot (fun _ => .zero) 0x60000000#32 length (mapShared ||| mapFixed) = some 0)
    (htype : (fs.inode 0).type = .file) (hlen : length.toInt = (fs.inode 0).size)
    (hbound : (fs.inode 0).size ≤ maxfile * bsize) :
    ∃ es s1 io s2 w s3 A, Trace.Run (OsStep ncpu) ⟨k, fs⟩ es s1 ∧
      FileRegion 0 0 0 (firstRegion length) 0 0 s1 ∧ s1.files.inode = fs.inode ∧
      Paged 0 s1.kernel ∧
      (∀ v ∈ (firstRegion length).pages, s1.kernel.mem.present (s1.kernel.proc 0).pgdir v = false) ∧
      RegionStep ncpu 0 0 (firstRegion length) (s1, (fs.inode 0).view) (0x60000000, none, io) (s2, w) ∧
      FileRegion 0 0 0 (firstRegion length) 0 0 s2 ∧
      Viewed A false (s2.kernel.proc 0).pgdir (firstRegion length) (fs.inode 0).data s2.kernel.mem w ∧
      s2.files = s1.files ∧
      OsStep ncpu s2 (.kernel (.syscall 0 (.wunmap 0x60000000#32))) s3 := by
  obtain ⟨es, fs1, s1, hrun, hmap, -, hm⟩ := hb.mapsFile hn fs length hslot htype hlen hbound
  have hreg := hm.region
  have hat := hm.here
  have hrep : Rep s1.kernel.mem A := by rw [hm.mem]; exact hb.rep
  have hdir : A.role (s1.kernel.proc 0).pgdir = .dir := by rw [hat.pgdir]; exact hb.dir
  have hpos := hreg.good.pos
  have hsize := hreg.length
  have hhi : 0x60000000 < (firstRegion length).stop := by
    rw [hreg.stop]
    show 0x60000000 < 0x60000000 + (s1.files.inode 0).size
    omega
  have hvpage : 0x60000000 / pgsize ∈ (firstRegion length).pages :=
    hreg.good.page_mem (Nat.le_refl _) hhi
  have hempty : ∀ v ∈ (firstRegion length).pages,
      s1.kernel.mem.present (s1.kernel.proc 0).pgdir v = false := by
    intro v hv
    rw [hrep.present hdir (userPages_lt (hreg.good.ok.lt_userPages hv)), hat.pgdir]
    exact hm.absent v hv
  obtain ⟨j, hj⟩ := hreg.region
  have hread : (s1.files.lazyRead 0 (firstRegion length) 0x60000000).isSome = true := by
    unfold Files.lazyRead Inode.read
    rw [hreg.regular.readable, if_pos rfl, if_neg (by
      rw [show pgrounddown 0x60000000 - (firstRegion length).addr = 0 from
        (by decide : pgrounddown 0x60000000 - 0x60000000 = 0)]
      omega)]
    rfl
  obtain ⟨fr, m', A', hfill, hrep', hload⟩ := hrep.step_load (b := none) hn hat
    hm.cr3 hb.dir (by decide) (hm.absent _ hvpage) (hreg.found _ (Nat.le_refl _) hhi)
    (.inr ⟨by rw [hj, hreg.opened]; rfl, hread⟩) (by have := hb.free; omega)
  have hfed : (Event.access 0 0x60000000 none
      (s1.files.lazyRead 0 (firstRegion length) 0x60000000)).Fed s1 := by
    intro p i f hp hi hf _ _
    obtain rfl : 0 = p := Option.some.inj (hat.cur.symm.trans hp)
    obtain rfl : 0 = i := Option.some.inj ((hreg.found _ (Nat.le_refl _) hhi).symm.trans hi)
    rw [hj] at hf ⊢
    obtain rfl : 0 = f := Option.some.inj (hreg.opened.symm.trans hf)
    rfl
  have hos := osStep_of_step hload hfed rfl
  have hview : Viewed A false (s1.kernel.proc 0).pgdir (firstRegion length) (s1.files.inode 0).data
      s1.kernel.mem (fs.inode 0).view := by
    rw [← hm.inode]
    exact .start hrep (hb.sane false) hdir hreg.good fun v hv => by
      rw [hat.pgdir]
      exact hm.absent v hv
  have hregion : RegionStep ncpu 0 0 (firstRegion length) (s1, (fs.inode 0).view)
      (0x60000000, none, s1.files.lazyRead 0 (firstRegion length) 0x60000000) (_, _) :=
    ⟨hos, Nat.le_refl _, hhi, hat.cur, rfl⟩
  obtain ⟨hreg2, hfiles2, A2, hview2⟩ := hreg.step (x := false) ⟨A, hview⟩ hregion
  obtain ⟨s3, hun⟩ := hreg2.step_wunmap 0x60000000#32 hview2 hn (hat.loadedPage 0 m') (Nat.le_refl _) hhi
  refine ⟨_, s1, _, _, _, s3, A2, .snoc hrun hmap, hreg, hm.inode, ⟨A, false, hrep, hb.sane false, hdir⟩,
    hempty, hregion, hreg2, ?_, rfl, hun⟩
  have hdata : (s1.files.inode 0).data = (fs.inode 0).data := by rw [hm.inode]
  rw [← hdata]
  exact hview2
end

/-- A disk with one regular file of 100 bytes. -/
def shortFiles : Files :=
  { sampleFiles with inode := fun _ => ⟨1, 1, .file, 0, 1, 100, fun _ => 0#8⟩ }

end Xv6
