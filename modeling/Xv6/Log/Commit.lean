import Xv6.Lib.Crash
import Xv6.Machine.Kalloc

/-!
# The redo log on disk (`log.c`)

The log is a header block at `start` and a data block for each logged block after
it.  `commit` copies the cached blocks to the log, writes the header, copies the
log to the home blocks and writes the header again with a count of 0.
`recover_from_log` does the last two from what is on the disk.

A block is its words.  `buf` is what `bread` gives: the cached contents of a block
if it is cached, and its contents on disk otherwise.  A crash loses it.  `writes`
is the history of the calls of `bwrite`, each atomic, so a crash of a procedure
leaves the disk with a prefix of its writes.

Block numbers are `uint`.  The superblock keeps the log inside them (`Geometry`),
and the array in `struct logheader` has `LOGSIZE` entries (`LogHeader`).  Reading a
header with a larger count leaves the array.
-/

namespace Xv6

open Prog Crash Function

variable {bs : List Word} {start tail : Nat}

/-- Most blocks an operation writes. -/
def maxopblocks : Nat := 10
/-- Data blocks in the log. -/
def logsize : Nat := maxopblocks * 3

theorem logsize_eq : logsize = 30 := rfl

/-- The words of a disk block. -/
abbrev Block := Nat → Word

variable {buf : Nat → Block} {w : Nat × Block} {blk : Block}

/-- `struct logheader`: the `n` block numbers. -/
structure LogHeader where
  block : List Word
  le : block.length ≤ logsize

/-- `log.lh.n = 0`. -/
def LogHeader.empty : LogHeader := ⟨[], Nat.zero_le _⟩

/-- Where the superblock puts the log. -/
structure Geometry where
  start : Nat
  size : Nat
  fits : start + size ≤ uintSize

/-- The blocks of the log, header and data. -/
def Geometry.Inside (g : Geometry) (b : Nat) : Prop := g.start ≤ b ∧ b < g.start + g.size

/-- The disk, the buffer cache and `struct log`. -/
structure LogDisk where
  geo : Geometry
  lh : LogHeader
  disk : Nat → Block
  buf : Nat → Block
  writes : List (Nat × Block)

variable {s : LogDisk}

/-- File system code over the log. -/
abbrev L := Prog LogDisk Fault

/-! ## The code -/

def bread (b : Nat) : L Block := do
  let s ← get
  pure (s.buf b)

/-- The state after some writes through the cache. -/
def LogDisk.wrote (s : LogDisk) (ws : List (Nat × Block)) : LogDisk :=
  { s with disk := applyAll s.disk ws, buf := applyAll s.buf ws, writes := s.writes ++ ws }

/-- Write a buffer with new contents to its block. -/
def bwrite (b : Nat) (data : Block) : L Unit := modify fun s => s.wrote [(b, data)]

/-- `install_trans` from the log block `tail` on. -/
def installFrom : Nat → List Word → L Unit
  | _, [] => pure ()
  | tail, b :: bs => do
    let s ← get
    let lbuf ← bread (s.geo.start + tail + 1)
    let _ ← bread b.toNat
    bwrite b.toNat lbuf
    installFrom (tail + 1) bs

/-- Copy committed blocks from log to their home location. -/
def installTrans : L Unit := do
  let s ← get
  installFrom 0 s.lh.block

/-- The count in a header block, an `int`. -/
def headCount (blk : Block) : Int := (blk 0).toInt

/-- Read the log header from disk. -/
def readHead : L Unit := do
  let s ← get
  let blk ← bread s.geo.start
  if h : (headCount blk).toNat ≤ logsize then
    set { s with lh := ⟨(List.range (headCount blk).toNat).map fun i => blk (i + 1), by
      rw [List.length_map, List.length_range]; exact h⟩ }
  else throw .outOfBounds

/-- A header block with the count and the block numbers rewritten. -/
def setHead (blk : Block) (bs : List Word) : Block := fun i =>
  if i = 0 then BitVec.ofNat 32 bs.length else bs.getD (i - 1) (blk i)

/-- Write the log header to disk. -/
def writeHead : L Unit := do
  let s ← get
  let blk ← bread s.geo.start
  bwrite s.geo.start (setHead blk s.lh.block)

/-- `log.lh.n = 0`. -/
def clearHead : L Unit := modify fun s => { s with lh := .empty }

def recoverFromLog : L Unit := do
  readHead
  installTrans
  clearHead
  writeHead

/-- `write_log` from the log block `tail` on. -/
def writeLogFrom : Nat → List Word → L Unit
  | _, [] => pure ()
  | tail, b :: bs => do
    let s ← get
    let _ ← bread (s.geo.start + tail + 1)
    let from_ ← bread b.toNat
    bwrite (s.geo.start + tail + 1) from_
    writeLogFrom (tail + 1) bs

/-- Copy modified blocks from cache to log. -/
def writeLog : L Unit := do
  let s ← get
  writeLogFrom 0 s.lh.block

def commit : L Unit := do
  let s ← get
  if 0 < s.lh.block.length then do
    writeLog
    writeHead
    installTrans
    clearHead
    writeHead
  else pure ()

/-- The state `initlog` recovers from, on a disk after a crash. -/
def reboot (g : Geometry) (d : Nat → Block) : LogDisk :=
  { geo := g, lh := .empty, disk := d, buf := d, writes := [] }

/-- Recovery, started on `d`, makes the writes `ws`. -/
def RecoveryRun (g : Geometry) (d : Nat → Block) (ws : List (Nat × Block)) : Prop :=
  ∃ s, recoverFromLog (reboot g d) = .ok ((), s) ∧ s.writes = ws

/-! ## The writes of each part -/

@[simp] theorem wp_bread (b : Nat) (Q : Block → LogDisk → Prop) (F : Fault → Prop) (s : LogDisk) :
    wp (bread b) Q F s ↔ Q (s.buf b) s := by
  unfold bread
  rw [wp_bind, wp_get, wp_pure]

@[simp] theorem wp_bwrite (b : Nat) (data : Block) (Q : Unit → LogDisk → Prop) (F : Fault → Prop)
    (s : LogDisk) : wp (bwrite b data) Q F s ↔ Q () (s.wrote [(b, data)]) := wp_modify ..

theorem LogDisk.wrote_wrote (s : LogDisk) (ws vs : List (Nat × Block)) :
    (s.wrote ws).wrote vs = s.wrote (ws ++ vs) := by
  unfold LogDisk.wrote
  simp only [applyAll_append, List.append_assoc]

/-- The writes of `write_log`. -/
def copies (start : Nat) (buf : Nat → Block) : Nat → List Word → List (Nat × Block)
  | _, [] => []
  | tail, b :: bs => (start + tail + 1, buf b.toNat) :: copies start buf (tail + 1) bs

/-- The writes of `install_trans`. -/
def installs (start : Nat) (buf : Nat → Block) : Nat → List Word → List (Nat × Block)
  | _, [] => []
  | tail, b :: bs => (b.toNat, buf (start + tail + 1)) :: installs start buf (tail + 1) bs

theorem mem_copies (h : w ∈ copies start buf tail bs) :
    start + tail < w.1 ∧ w.1 ≤ start + tail + bs.length := by
  induction bs generalizing tail with
  | nil => cases h
  | cons b bs ih =>
    rw [List.length_cons]
    rcases List.mem_cons.mp h with rfl | h
    · dsimp only
      omega
    · have := ih h
      omega

theorem copies_congr {buf' : Nat → Block} (h : ∀ b ∈ bs, buf b.toNat = buf' b.toNat) :
    copies start buf tail bs = copies start buf' tail bs := by
  induction bs generalizing tail with
  | nil => rfl
  | cons b bs ih =>
    rw [copies, copies, h b List.mem_cons_self, ih fun c hc => h c (List.mem_cons_of_mem b hc)]

/-- After the copies the log block of each entry holds the entry's block. -/
theorem applyAll_copies {d : Nat → Block} {i : Nat} (hi : i < bs.length) :
    applyAll d (copies start buf tail bs) (start + tail + i + 1) = buf (bs.get ⟨i, hi⟩).toNat := by
  induction bs generalizing tail i d with
  | nil => cases hi
  | cons b bs ih =>
    rw [copies, applyAll_cons]
    cases i with
    | zero =>
      rw [applyAll_of_ne]
      · rw [show start + tail + 0 + 1 = start + tail + 1 by omega, update_self]
        rfl
      · intro w hw
        have := mem_copies hw
        omega
    | succ i =>
      rw [show start + tail + (i + 1) + 1 = start + (tail + 1) + i + 1 by omega]
      exact ih (Nat.lt_of_succ_lt_succ hi)

/-- The writes of the home blocks with contents `new`. -/
def homeWrites (new : Nat → Block) (bs : List Word) : List (Nat × Block) :=
  bs.map fun b => (b.toNat, new b.toNat)

theorem mem_homeWrites {new : Nat → Block} :
    w ∈ homeWrites new bs ↔ ∃ b ∈ bs, (b.toNat, new b.toNat) = w := List.mem_map

/-- Installing from a log that holds `new` writes `new` to the home blocks. -/
theorem installs_eq {new : Nat → Block}
    (h : ∀ i (hi : i < bs.length), buf (start + tail + i + 1) = new (bs.get ⟨i, hi⟩).toNat) :
    installs start buf tail bs = homeWrites new bs := by
  induction bs generalizing tail with
  | nil => rfl
  | cons b bs ih =>
    rw [installs, show buf (start + tail + 1) = new b.toNat from h 0 (Nat.succ_pos _)]
    refine congrArg _ (ih fun i hi => ?_)
    rw [show start + (tail + 1) + i + 1 = start + tail + (i + 1) + 1 by omega]
    exact h (i + 1) (Nat.succ_lt_succ hi)

theorem installs_congr {buf' : Nat → Block}
    (h : ∀ i < bs.length, buf (start + tail + i + 1) = buf' (start + tail + i + 1)) :
    installs start buf tail bs = installs start buf' tail bs := by
  induction bs generalizing tail with
  | nil => rfl
  | cons b bs ih =>
    rw [installs, installs, show buf (start + tail + 1) = buf' (start + tail + 1) from
      h 0 (Nat.succ_pos _)]
    refine congrArg _ (ih fun i hi => ?_)
    rw [show start + (tail + 1) + i + 1 = start + tail + (i + 1) + 1 by omega]
    exact h (i + 1) (Nat.succ_lt_succ hi)

/-- The entries of a transaction: distinct home blocks outside the log, which has room. -/
structure Fits (g : Geometry) (bs : List Word) : Prop where
  nodup : bs.Nodup
  outside : ∀ b ∈ bs, ¬ g.Inside b.toNat
  room : bs.length + 1 ≤ g.size

theorem Fits.nodup_homes {g : Geometry} (h : Fits g bs) (new : Nat → Block) :
    ((homeWrites new bs).map Prod.fst).Nodup := by
  rw [homeWrites, List.map_map]
  exact h.nodup.map fun _ _ heq => BitVec.eq_of_toNat_eq heq

theorem wp_writeLogFrom {g : Geometry} (tail : Nat) (hg : s.geo = g)
    (hout : ∀ b ∈ bs, ¬ g.Inside b.toNat) (hroom : tail + bs.length + 1 ≤ g.size) :
    wp (writeLogFrom tail bs) (fun _ s' => s' = s.wrote (copies g.start s.buf tail bs))
      (fun _ => False) s := by
  subst hg
  induction bs generalizing tail s with
  | nil =>
    rw [writeLogFrom, wp_pure, copies]
    simp [LogDisk.wrote]
  | cons b bs ih =>
    rw [List.length_cons] at hroom
    rw [writeLogFrom, wp_bind, wp_get, wp_bind, wp_bread, wp_bind, wp_bread, wp_bind, wp_bwrite]
    refine wp_post (ih (tail + 1) (s := s.wrote _) (fun c hc => hout c (List.mem_cons_of_mem b hc))
      (show tail + 1 + bs.length + 1 ≤ s.geo.size by omega)) ?_
    rintro _ s' rfl
    -- the copies so far went to the log, so the rest reads what was cached before
    have hbuf : ∀ c ∈ bs, (s.wrote [(s.geo.start + tail + 1, s.buf b.toNat)]).buf c.toNat
        = s.buf c.toNat := by
      intro c hc
      refine update_of_ne (fun heq => ?_) ..
      refine hout c (List.mem_cons_of_mem b hc) ⟨?_, ?_⟩
      · omega
      · omega
    show (s.wrote _).wrote (copies s.geo.start _ (tail + 1) bs) = _
    rw [copies_congr hbuf, LogDisk.wrote_wrote, copies]
    rfl

theorem wp_installFrom {g : Geometry} (tail : Nat) (hg : s.geo = g)
    (hout : ∀ b ∈ bs, ¬ g.Inside b.toNat) (hroom : tail + bs.length + 1 ≤ g.size) :
    wp (installFrom tail bs) (fun _ s' => s' = s.wrote (installs g.start s.buf tail bs))
      (fun _ => False) s := by
  subst hg
  induction bs generalizing tail s with
  | nil =>
    rw [installFrom, wp_pure, installs]
    simp [LogDisk.wrote]
  | cons b bs ih =>
    rw [List.length_cons] at hroom
    rw [installFrom, wp_bind, wp_get, wp_bind, wp_bread, wp_bind, wp_bread, wp_bind, wp_bwrite]
    refine wp_post (ih (tail + 1) (s := s.wrote _) (fun c hc => hout c (List.mem_cons_of_mem b hc))
      (show tail + 1 + bs.length + 1 ≤ s.geo.size by omega)) ?_
    rintro _ s' rfl
    -- a home block is not in the log, so the log blocks still to read are as before
    have hbuf : ∀ i < bs.length,
        (s.wrote [(b.toNat, s.buf (s.geo.start + tail + 1))]).buf
          (s.geo.start + (tail + 1) + i + 1) = s.buf (s.geo.start + (tail + 1) + i + 1) := by
      intro i hi
      refine update_of_ne (fun heq => ?_) ..
      refine hout b List.mem_cons_self ⟨?_, ?_⟩
      · omega
      · omega
    show (s.wrote _).wrote (installs s.geo.start _ (tail + 1) bs) = _
    rw [installs_congr hbuf, LogDisk.wrote_wrote, installs]
    rfl

/-! ## Headers -/

theorem setHead_succ (blk : Block) {i : Nat} (hi : i < bs.length) :
    setHead blk bs (i + 1) = bs.get ⟨i, hi⟩ := by
  unfold setHead
  rw [if_neg (Nat.succ_ne_zero i), Nat.add_sub_cancel, List.getD_eq_getElem _ _ hi]
  rfl

/-- A header block that says `bs`. -/
structure Says (blk : Block) (bs : List Word) : Prop where
  count : blk 0 = BitVec.ofNat 32 bs.length
  entry : ∀ i (hi : i < bs.length), blk (i + 1) = bs.get ⟨i, hi⟩

theorem says_setHead (blk : Block) (bs : List Word) : Says (setHead blk bs) bs :=
  ⟨rfl, fun _ hi => setHead_succ blk hi⟩

theorem Says.headCount (h : Says blk bs) (hle : bs.length ≤ logsize) :
    headCount blk = bs.length := by
  have hsize := logsize_eq
  rw [Xv6.headCount, h.count, BitVec.toInt_eq_toNat_of_lt, BitVec.toNat_ofNat, Nat.mod_eq_of_lt]
  · omega
  · rw [BitVec.toNat_ofNat, Nat.mod_eq_of_lt] <;> omega

theorem Says.entries (h : Says blk bs) :
    ((List.range bs.length).map fun i => blk (i + 1)) = bs := by
  refine List.ext_get (by simp) ?_
  intro i h1 h2
  simp only [List.get_eq_getElem, List.getElem_map, List.getElem_range]
  exact h.entry i h2

/-- `read_head` finds the header that is on disk. -/
theorem wp_readHead (lh : LogHeader) (h : Says (s.buf s.geo.start) lh.block) :
    wp readHead (fun _ s' => s' = { s with lh := lh }) (fun _ => False) s := by
  have hn : (headCount (s.buf s.geo.start)).toNat = lh.block.length := by
    rw [h.headCount lh.le, Int.toNat_natCast]
  unfold readHead
  rw [wp_bind, wp_get, wp_bind, wp_bread]
  split
  · rw [wp_set]
    congr 1
    cases lh with
    | mk bs hle =>
      congr 1
      dsimp only at hn h ⊢
      rw [hn]
      exact h.entries
  · next hgt =>
    rw [hn] at hgt
    exact absurd lh.le hgt

theorem wp_writeHead :
    wp writeHead (fun _ s' => ∃ blk, s' = s.wrote [(s.geo.start, setHead blk s.lh.block)])
      (fun _ => False) s := by
  unfold writeHead
  rw [wp_bind, wp_get, wp_bind, wp_bread, wp_bwrite]
  exact ⟨_, rfl⟩

/-! ## Recovery -/

/-- A disk with no committed transaction, and the blocks of `d0` outside the log. -/
structure Unlogged (g : Geometry) (d0 d : Nat → Block) : Prop where
  count : d g.start 0 = 0#32
  home : ∀ b, ¬ g.Inside b → d b = d0 b

/-- A disk whose log has committed the contents `new` for the blocks `bs`.  The
other blocks outside the log are those of `d0`. -/
structure Pending (g : Geometry) (bs : List Word) (new d0 d : Nat → Block) : Prop where
  head : Says (d g.start) bs
  log : ∀ i (hi : i < bs.length), d (g.start + i + 1) = new (bs.get ⟨i, hi⟩).toNat
  home : ∀ b, ¬ g.Inside b → (∀ c ∈ bs, c.toNat ≠ b) → d b = d0 b

theorem Unlogged.says {g : Geometry} {d0 d : Nat → Block} (h : Unlogged g d0 d) :
    Says (d g.start) [] :=
  ⟨h.count, fun _ hi => absurd hi (Nat.not_lt_zero _)⟩

/-- Recovery from a header that says `bs`. -/
theorem recovery_run {g : Geometry} (lh : LogHeader) {d : Nat → Block} (hfits : Fits g lh.block)
    (h : Says (d g.start) lh.block) :
    ∃ blk : Block, ∃ s, recoverFromLog (reboot g d) = .ok ((), s) ∧
      s.writes = installs g.start d 0 lh.block ++ [(g.start, setHead blk [])] ∧
      s.disk = applyAll d s.writes := by
  have hwp : wp recoverFromLog (fun _ s => ∃ blk : Block,
      s.writes = installs g.start d 0 lh.block ++ [(g.start, setHead blk [])] ∧
      s.disk = applyAll d s.writes) (fun _ => False) (reboot g d) := by
    have hroom := hfits.room
    unfold recoverFromLog
    rw [wp_bind]
    refine wp_post (wp_readHead lh h) ?_
    rintro _ s1 rfl
    rw [wp_bind, installTrans, wp_bind, wp_get]
    refine wp_post (wp_installFrom (g := g) 0 rfl hfits.outside
      (show 0 + lh.block.length + 1 ≤ g.size by omega)) ?_
    rintro _ s2 rfl
    rw [wp_bind, clearHead, wp_modify]
    refine wp_post wp_writeHead ?_
    rintro _ s3 ⟨blk, rfl⟩
    refine ⟨blk, rfl, ?_⟩
    show applyAll (applyAll d _) _ = applyAll d _
    rw [← applyAll_append]
    rfl
  obtain ⟨_, s, hrun, blk, hw, hd⟩ := wp_total hwp
  exact ⟨blk, s, hrun, hw, hd⟩

/-- From a disk with nothing committed, recovery writes the header only. -/
theorem Unlogged.recovery {g : Geometry} {d0 d : Nat → Block} (hsize : 1 ≤ g.size)
    (h : Unlogged g d0 d) (hs : recoverFromLog (reboot g d) = .ok ((), s)) (k : Nat) :
    Unlogged g d0 (applyAll d (s.writes.take k)) ∧ Unlogged g d0 s.disk := by
  obtain ⟨blk, s', hrun, hw, hd⟩ := recovery_run .empty
    ⟨List.nodup_nil, fun _ h => absurd h List.not_mem_nil, hsize⟩ h.says
  rw [hs] at hrun
  obtain ⟨-, rfl⟩ : (() : Unit) = () ∧ s = s' := by simpa using hrun
  have hkeep : ∀ d, ∀ w ∈ [(g.start, setHead blk [])], Unlogged g d0 d →
      Unlogged g d0 (Function.update d w.1 w.2) := by
    intro d w hw hd
    obtain rfl := List.mem_singleton.mp hw
    refine ⟨by rw [update_self]; rfl, fun b hb => ?_⟩
    have hne : b ≠ g.start := fun heq => hb ⟨heq.ge, by omega⟩
    rw [update_of_ne hne, hd.home b hb]
  have hwrites : s.writes = [(g.start, setHead blk [])] := hw
  refine ⟨?_, ?_⟩
  · rw [hwrites]
    exact applyAll_take_induct h hkeep k
  · rw [hd, hwrites, ← List.take_length (l := [(g.start, setHead blk [])])]
    exact applyAll_take_induct h hkeep _

section

variable {g : Geometry} {new d0 d : Nat → Block}

section

variable (hfits : Fits g bs) (h : Pending g bs new d0 d)
include hfits h

/-- The home blocks written and the count cleared. -/
theorem Pending.all (blk : Block) :
    Unlogged g (applyAll d0 (homeWrites new bs))
      (applyAll d (homeWrites new bs ++ [(g.start, setHead blk [])])) := by
  have hroom := hfits.room
  rw [applyAll_append, applyAll_cons, applyAll_nil]
  refine ⟨by rw [update_self]; rfl, fun b hb => ?_⟩
  have hstart : b ≠ g.start := fun heq => hb ⟨heq.ge, by omega⟩
  rw [update_of_ne hstart]
  by_cases hc : ∃ c ∈ bs, c.toNat = b
  · obtain ⟨c, hc, rfl⟩ := hc
    have hmem : (c.toNat, new c.toNat) ∈ homeWrites new bs := mem_homeWrites.mpr ⟨c, hc, rfl⟩
    rw [applyAll_of_mem (hfits.nodup_homes new) hmem, applyAll_of_mem (hfits.nodup_homes new) hmem]
  · have hcs : ∀ c ∈ bs, c.toNat ≠ b := fun c hmem heq => hc ⟨c, hmem, heq⟩
    have hne : ∀ w ∈ homeWrites new bs, w.1 ≠ b := by
      intro w hw
      obtain ⟨c, hmem, rfl⟩ := mem_homeWrites.mp hw
      exact hcs c hmem
    rw [applyAll_of_ne hne, applyAll_of_ne hne, h.home b hb hcs]

/-- A write of a home block does not touch the log. -/
theorem Pending.update
    (hw : w ∈ homeWrites new bs) : Pending g bs new d0 (Function.update d w.1 w.2) := by
  obtain ⟨c, hc, rfl⟩ := mem_homeWrites.mp hw
  have hroom := hfits.room
  have hne : ∀ b, g.Inside b → b ≠ c.toNat := fun b hb heq => hfits.outside c hc (heq ▸ hb)
  refine ⟨?_, ?_, ?_⟩
  · rw [update_of_ne (hne _ ⟨le_rfl, by omega⟩)]
    exact h.head
  · intro i hi
    rw [update_of_ne (hne _ ⟨by omega, by omega⟩)]
    exact h.log i hi
  · intro b hb hcs
    rw [update_of_ne (hcs c hc).symm, h.home b hb hcs]

/-- A committed log stays committed until the count is cleared, and then all home
blocks are new. -/
theorem Pending.take (blk : Block) (k : Nat) :
    Pending g bs new d0
      (applyAll d ((homeWrites new bs ++ [(g.start, setHead blk [])]).take k)) ∨
    Unlogged g (applyAll d0 (homeWrites new bs))
      (applyAll d ((homeWrites new bs ++ [(g.start, setHead blk [])]).take k)) := by
  rcases take_append_singleton (homeWrites new bs) (g.start, setHead blk []) k with ⟨j, hj⟩ | hj
  · rw [hj]
    exact .inl (applyAll_take_induct h (fun _ _ hw hd => hd.update hfits hw) j)
  · rw [hj]
    exact .inr (h.all hfits blk)

end

end

/-- Recovery from a committed log. -/
theorem Pending.recovery {g : Geometry} {lh : LogHeader} {new d0 d : Nat → Block}
    (hfits : Fits g lh.block) (h : Pending g lh.block new d0 d)
    (hs : recoverFromLog (reboot g d) = .ok ((), s)) (k : Nat) :
    (Pending g lh.block new d0 (applyAll d (s.writes.take k)) ∨
      Unlogged g (applyAll d0 (homeWrites new lh.block)) (applyAll d (s.writes.take k))) ∧
    Unlogged g (applyAll d0 (homeWrites new lh.block)) s.disk := by
  obtain ⟨blk, s', hrun, hw, hd⟩ := recovery_run _ hfits h.head
  rw [hs] at hrun
  obtain ⟨-, rfl⟩ : (() : Unit) = () ∧ s = s' := by simpa using hrun
  rw [installs_eq fun i hi => h.log i hi] at hw
  rw [hd, hw]
  exact ⟨h.take hfits blk k, h.all hfits blk⟩

/-! ## Commit -/

/-- The writes of `commit`: the copies, the header, the home blocks, the header. -/
theorem commit_run (hpos : 0 < s.lh.block.length) (hfits : Fits s.geo s.lh.block) :
    ∃ blk blk' : Block, ∃ s', commit s = .ok ((), s') ∧ s'.writes = s.writes ++
      (copies s.geo.start s.buf 0 s.lh.block ++ (s.geo.start, setHead blk s.lh.block) ::
        (homeWrites s.buf s.lh.block ++ [(s.geo.start, setHead blk' [])])) := by
  have hwp : wp commit (fun _ s' => ∃ blk blk' : Block, s'.writes = s.writes ++
      (copies s.geo.start s.buf 0 s.lh.block ++ (s.geo.start, setHead blk s.lh.block) ::
        (homeWrites s.buf s.lh.block ++ [(s.geo.start, setHead blk' [])])))
      (fun _ => False) s := by
    have hroom := hfits.room
    unfold commit
    rw [wp_bind, wp_get, if_pos hpos, wp_bind, writeLog, wp_bind, wp_get]
    refine wp_post (wp_writeLogFrom 0 rfl hfits.outside
      (show 0 + s.lh.block.length + 1 ≤ s.geo.size by omega)) ?_
    rintro _ s1 rfl
    rw [wp_bind]
    refine wp_post wp_writeHead ?_
    rintro _ s2 ⟨blk, rfl⟩
    rw [LogDisk.wrote_wrote, wp_bind, installTrans, wp_bind, wp_get]
    refine wp_post (wp_installFrom (g := s.geo) 0 rfl hfits.outside
      (show 0 + s.lh.block.length + 1 ≤ s.geo.size by omega)) ?_
    rintro _ s3 rfl
    rw [wp_bind, clearHead, wp_modify]
    refine wp_post wp_writeHead ?_
    rintro _ s4 ⟨blk', rfl⟩
    refine ⟨blk, blk', ?_⟩
    -- what is installed is what the copies left in the log
    have hinst : installs s.geo.start (applyAll s.buf (copies s.geo.start s.buf 0 s.lh.block ++
        [(s.geo.start, setHead blk s.lh.block)])) 0 s.lh.block = homeWrites s.buf s.lh.block := by
      refine installs_eq fun i hi => ?_
      rw [applyAll_append, applyAll_cons, applyAll_nil, update_of_ne (by omega)]
      exact applyAll_copies hi
    show ((s.writes ++ (copies s.geo.start s.buf 0 s.lh.block ++
        [(s.geo.start, setHead blk s.lh.block)])) ++ installs s.geo.start (applyAll s.buf
        (copies s.geo.start s.buf 0 s.lh.block ++ [(s.geo.start, setHead blk s.lh.block)])) 0
        s.lh.block) ++ [(s.geo.start, setHead blk' [])] = _
    rw [hinst]
    simp only [List.append_assoc, List.cons_append, List.nil_append]
  obtain ⟨_, s', hrun, blk, blk', hw⟩ := wp_total hwp
  exact ⟨blk, blk', s', hrun, hw⟩

/-- A crash of `commit` leaves nothing committed, or the log committed, or all done. -/
theorem commit_crash (hfits : Fits s.geo s.lh.block) (hcount : s.disk s.geo.start 0 = 0#32)
    (blk blk' : Block) (k : Nat) {d : Nat → Block}
    (hd : d = applyAll s.disk ((copies s.geo.start s.buf 0 s.lh.block ++
      (s.geo.start, setHead blk s.lh.block) ::
        (homeWrites s.buf s.lh.block ++ [(s.geo.start, setHead blk' [])])).take k)) :
    Unlogged s.geo s.disk d ∨ Pending s.geo s.lh.block s.buf s.disk d ∨
      Unlogged s.geo (applyAll s.disk (homeWrites s.buf s.lh.block)) d := by
  have hroom := hfits.room
  -- the copies stay in the data blocks of the log
  have hcopies : ∀ w ∈ copies s.geo.start s.buf 0 s.lh.block,
      s.geo.Inside w.1 ∧ w.1 ≠ s.geo.start := by
    intro w hw
    have := mem_copies hw
    exact ⟨⟨by omega, by omega⟩, by omega⟩
  have hpending : Pending s.geo s.lh.block s.buf s.disk
      (Function.update (applyAll s.disk (copies s.geo.start s.buf 0 s.lh.block)) s.geo.start
        (setHead blk s.lh.block)) := by
    refine ⟨?_, ?_, ?_⟩
    · rw [update_self]
      exact says_setHead ..
    · intro i hi
      rw [update_of_ne (by omega)]
      exact applyAll_copies hi
    · intro b hb _
      have hne : b ≠ s.geo.start := fun heq => hb ⟨heq.ge, by omega⟩
      rw [update_of_ne hne]
      exact applyAll_of_ne fun w hw heq => hb (heq ▸ (hcopies w hw).1)
  rw [List.take_append] at hd
  rcases Nat.lt_or_ge (copies s.geo.start s.buf 0 s.lh.block).length k with hk | hk
  · obtain ⟨m, hm⟩ : ∃ m, k - (copies s.geo.start s.buf 0 s.lh.block).length = m + 1 :=
      ⟨k - (copies s.geo.start s.buf 0 s.lh.block).length - 1, by omega⟩
    rw [List.take_of_length_le hk.le, hm, List.take_succ_cons, applyAll_append, applyAll_cons] at hd
    rw [hd]
    exact .inr (hpending.take hfits blk' m)
  · left
    rw [Nat.sub_eq_zero_of_le hk, List.take_zero, List.append_nil] at hd
    subst hd
    refine ⟨?_, fun b hb => ?_⟩
    · rw [applyAll_of_ne fun w hw => (hcopies w (List.mem_of_mem_take hw)).2]
      exact hcount
    · exact applyAll_of_ne fun w hw heq => hb (heq ▸ (hcopies w (List.mem_of_mem_take hw)).1)

theorem word_eq_zero_of_headCount (h : headCount blk = 0) : blk 0 = 0#32 :=
  BitVec.eq_of_toInt_eq h

/-- A crash of `commit` at any write, and then any number of crashes of recovery,
leave a disk from which recovery ends with an empty log and with the home blocks all
old or all new.  The new contents are the cached ones. -/
theorem commit_crash_atomic (s : LogDisk) (hcount : headCount (s.disk s.geo.start) = 0)
    (hpos : 1 ≤ s.lh.block.length) (hroom : s.lh.block.length ≤ s.geo.size - 1)
    (hnodup : s.lh.block.Nodup) (hout : ∀ b ∈ s.lh.block, ¬ s.geo.Inside b.toNat) :
    ∃ s' ws, commit s = .ok ((), s') ∧ s'.writes = s.writes ++ ws ∧
      ∀ k d, Crashes (RecoveryRun s.geo) (applyAll s.disk (ws.take k)) d →
        ∃ r, recoverFromLog (reboot s.geo d) = .ok ((), r) ∧
          headCount (r.disk s.geo.start) = 0 ∧
          ((∀ b ∈ s.lh.block, r.disk b.toNat = s.disk b.toNat) ∨
            ∀ b ∈ s.lh.block, r.disk b.toNat = s.buf b.toNat) ∧
          ∀ b, ¬ s.geo.Inside b → (∀ c ∈ s.lh.block, c.toNat ≠ b) → r.disk b = s.disk b := by
  have hfits : Fits s.geo s.lh.block := ⟨hnodup, hout, by omega⟩
  obtain ⟨blk, blk', s', hrun, hw⟩ := commit_run hpos hfits
  refine ⟨s', _, hrun, hw, fun k d hd => ?_⟩
  -- the three kinds of disk are kept by a crash of recovery
  have hinv := hd.invariant (I := fun d => Unlogged s.geo s.disk d ∨
      Pending s.geo s.lh.block s.buf s.disk d ∨
      Unlogged s.geo (applyAll s.disk (homeWrites s.buf s.lh.block)) d)
    (commit_crash hfits (word_eq_zero_of_headCount hcount) blk blk' k rfl) (by
      rintro d ws j hd ⟨r, hr, rfl⟩
      rcases hd with h | h | h
      · exact .inl (h.recovery (by omega) hr j).1
      · exact .inr (h.recovery hfits hr j).1
      · exact .inr (.inr (h.recovery (by omega) hr j).1))
  have hnew : ∀ b ∈ s.lh.block,
      applyAll s.disk (homeWrites s.buf s.lh.block) b.toNat = s.buf b.toNat := fun b hb =>
    applyAll_of_mem (hfits.nodup_homes s.buf) (mem_homeWrites.mpr ⟨b, hb, rfl⟩)
  have hother : ∀ b, (∀ c ∈ s.lh.block, c.toNat ≠ b) →
      applyAll s.disk (homeWrites s.buf s.lh.block) b = s.disk b := by
    intro b hb
    refine applyAll_of_ne fun w hw => ?_
    obtain ⟨c, hc, rfl⟩ := mem_homeWrites.mp hw
    exact hb c hc
  have hzero : ∀ {d0 d : Nat → Block}, Unlogged s.geo d0 d → headCount (d s.geo.start) = 0 := by
    intro d0 d h
    rw [headCount, h.count]
    rfl
  have hnone : Fits s.geo LogHeader.empty.block :=
    ⟨List.nodup_nil, fun _ h => absurd h List.not_mem_nil, by
      show 0 + 1 ≤ s.geo.size
      omega⟩
  rcases hinv with h | h | h
  · obtain ⟨_, r, hr, -, -⟩ := recovery_run .empty hnone h.says
    have hend := (h.recovery (by omega) hr 0).2
    exact ⟨r, hr, hzero hend, .inl fun b hb => hend.home _ (hout b hb), fun b hb _ => hend.home b hb⟩
  · obtain ⟨_, r, hr, -, -⟩ := recovery_run _ hfits h.head
    have hend := (h.recovery hfits hr 0).2
    refine ⟨r, hr, hzero hend, .inr fun b hb => ?_, fun b hb hc => ?_⟩
    · rw [hend.home _ (hout b hb), hnew b hb]
    · rw [hend.home b hb, hother b hc]
  · obtain ⟨_, r, hr, -, -⟩ := recovery_run .empty hnone h.says
    have hend := (h.recovery (by omega) hr 0).2
    refine ⟨r, hr, hzero hend, .inr fun b hb => ?_, fun b hb hc => ?_⟩
    · rw [hend.home _ (hout b hb), hnew b hb]
    · rw [hend.home b hb, hother b hc]

/-- A log of thirty blocks at block 2, with one cached block to commit. -/
def sampleLog : LogDisk :=
  { geo := ⟨2, 30, by decide⟩
    lh := ⟨[70#32], by decide⟩
    disk := fun _ _ => 0#32
    buf := fun b _ => if b = 70 then 1#32 else 0#32
    writes := [] }

theorem commit_crash_atomic_sample :
    ∃ s' ws, commit sampleLog = .ok ((), s') ∧ s'.writes = sampleLog.writes ++ ws ∧
      ∀ k d, Crashes (RecoveryRun sampleLog.geo) (applyAll sampleLog.disk (ws.take k)) d →
        ∃ r, recoverFromLog (reboot sampleLog.geo d) = .ok ((), r) ∧
          headCount (r.disk sampleLog.geo.start) = 0 ∧
          ((∀ b ∈ sampleLog.lh.block, r.disk b.toNat = sampleLog.disk b.toNat) ∨
            ∀ b ∈ sampleLog.lh.block, r.disk b.toNat = sampleLog.buf b.toNat) ∧
          ∀ b, ¬ sampleLog.geo.Inside b → (∀ c ∈ sampleLog.lh.block, c.toNat ≠ b) →
            r.disk b = sampleLog.disk b :=
  commit_crash_atomic sampleLog (by decide) (by decide) (by decide) (by decide) (by
    intro b hb
    obtain rfl := List.mem_singleton.mp hb
    unfold Geometry.Inside
    decide)

end Xv6
