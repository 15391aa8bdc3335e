import Xv6.Kernel.File

/-!
# The disk format (`fs.h`)

A block is its bytes.  The disk is what `bread` shows, so it includes what the buffer
cache holds back.  Inodes and the bits of the free map are read out of blocks and written
into them byte by byte, as the C structures lie there: a `struct dinode` has 64 bytes, four
shorts, the size and 13 block numbers.

`Layout` is what a superblock has to satisfy so that inode blocks, bitmap blocks and data
blocks are apart.  Under it a write of one inode, one bit or one data block leaves every
other inode, bit and data block alone.
-/

namespace Xv6.Fs

open Function

variable {k j : Nat} {x : Dinode}

/-- Direct block numbers of an inode. -/
def ndirect : Nat := 12
/-- Block numbers in an indirect block. -/
def nindirect : Nat := bsize / 4
/-- Inodes of a block. -/
def ipb : Nat := bsize / 64
/-- Bitmap bits of a block. -/
@[irreducible] def bpb : Nat := bsize * 8
/-- Bytes of a name in a directory entry. -/
def dirsiz : Nat := 14
/-- Bytes of a directory entry. -/
def direntSize : Nat := 16
def rootino : Nat := 1
def rootdev : Nat := 1

theorem bpb_eq : bpb = 4096 := by
  rw [bpb]
  rfl

abbrev Short := BitVec 16

def tDir : Short := 1#16
def tFile : Short := 2#16
def tDev : Short := 3#16

/-- The bytes of a disk block. -/
abbrev Block := Page

abbrev Disk := Nat → Block

/-! ## Shorts and bits of a block -/

/-- The `i`-th short of a block. -/
def half (b : Block) (i : Nat) : Short := b (2 * i + 1) ++ b (2 * i)

/-- `1 << (k % 8)`. -/
def mask (k : Nat) : Byte := 1#8 <<< (k % 8)

/-- The `k`-th bit of a bitmap block. -/
def bit (b : Block) (k : Nat) : Bool := b (k / 8) &&& mask k != 0#8

def setBit (b : Block) (k : Nat) : Block := setByte b (k / 8) (b (k / 8) ||| mask k)

def clearBit (b : Block) (k : Nat) : Block := setByte b (k / 8) (b (k / 8) &&& ~~~mask k)

theorem mask_eq (k : Nat) : mask k = BitVec.twoPow 8 (k % 8) := rfl

theorem getLsbD_mask (k j : Nat) : (mask k).getLsbD j = decide (k % 8 = j) := by
  have : k % 8 < 8 := Nat.mod_lt _ (by decide)
  rw [mask_eq, BitVec.getLsbD_twoPow]
  simp [this]

theorem bit_eq (b : Block) (k : Nat) : bit b k = (b (k / 8)).getLsbD (k % 8) := by
  have hk : (mask k).getLsbD (k % 8) = true := by simp [getLsbD_mask]
  rw [bit, mask_eq, BitVec.and_twoPow, ← mask_eq]
  split
  · rename_i h
    have hne : mask k ≠ 0#8 := by
      intro h0
      simp [h0] at hk
    simp [h, hne]
  · rename_i h
    simp [h]

theorem bit_setBit_self (b : Block) (k : Nat) : bit (setBit b k) k = true := by
  rw [bit_eq, setBit, setByte_self, BitVec.getLsbD_or, getLsbD_mask]
  simp

theorem bit_setBit_ne (b : Block) (h : j ≠ k) : bit (setBit b k) j = bit b j := by
  rw [bit_eq, bit_eq, setBit]
  by_cases hb : j / 8 = k / 8
  · rw [hb, setByte_self, BitVec.getLsbD_or, getLsbD_mask]
    have : k % 8 ≠ j % 8 := by omega
    simp [this]
  · rw [setByte_ne _ _ hb]

/-! ## Inodes in a block -/

/-- `struct dinode`. -/
@[ext] structure Dinode where
  type : Short
  major : Short
  minor : Short
  nlink : Short
  size : Word
  addrs : Fin 13 → Word

instance neZero_addrs : NeZero 13 := ⟨by decide⟩

/-- An inode of zeros with a type. -/
def Dinode.blank (type : Short) : Dinode := ⟨type, 0#16, 0#16, 0#16, 0#32, fun _ => 0#32⟩

/-- The bytes of an inode. -/
def Dinode.byte (d : Dinode) (o : Nat) : Byte :=
  if o < 2 then d.type.extractLsb' (8 * (o % 2)) 8
  else if o < 4 then d.major.extractLsb' (8 * (o % 2)) 8
  else if o < 6 then d.minor.extractLsb' (8 * (o % 2)) 8
  else if o < 8 then d.nlink.extractLsb' (8 * (o % 2)) 8
  else if o < 12 then d.size.extractLsb' (8 * (o % 4)) 8
  else (d.addrs ⟨(o - 12) / 4 % 13, Nat.mod_lt _ (by decide)⟩).extractLsb' (8 * (o % 4)) 8

/-- The `k`-th inode of a block. -/
def dinode (b : Block) (k : Nat) : Dinode where
  type := half b (32 * k)
  major := half b (32 * k + 1)
  minor := half b (32 * k + 2)
  nlink := half b (32 * k + 3)
  size := word b (16 * k + 2)
  addrs j := word b (16 * k + 3 + j)

/-- A block with its `k`-th inode rewritten. -/
def setDinode (b : Block) (k : Nat) (d : Dinode) : Block := fun o =>
  if o / 64 = k then d.byte (o % 64) else b o

/-- A short put together from its bytes. -/
theorem half_of_bytes {b : Block} {i : Nat} {w : Short} (h0 : b (2 * i) = w.extractLsb' 0 8)
    (h1 : b (2 * i + 1) = w.extractLsb' 8 8) : half b i = w := by
  rw [half, h0, h1, BitVec.extractLsb'_append_extractLsb'_eq_extractLsb' (by decide)]
  exact BitVec.extractLsb'_eq_self

/-- A word put together from its bytes. -/
theorem word_of_bytes {b : Block} {i : Nat} {w : Word}
    (h : ∀ r < 4, b (4 * i + r) = w.extractLsb' (8 * r) 8) : word b i = w := by
  rw [word, h 3 (by decide), h 2 (by decide), h 1 (by decide), show b (4 * i) = _ from h 0 (by decide),
    BitVec.extractLsb'_append_extractLsb'_eq_extractLsb' (by decide),
    BitVec.extractLsb'_append_extractLsb'_eq_extractLsb' (by decide),
    BitVec.extractLsb'_append_extractLsb'_eq_extractLsb' (by decide)]
  exact BitVec.extractLsb'_eq_self

theorem dinode_setDinode_self (b : Block) (k : Nat) (d : Dinode) :
    dinode (setDinode b k d) k = d := by
  have hbyte : ∀ o < 64, setDinode b k d (64 * k + o) = d.byte o := by
    intro o ho
    rw [setDinode, if_pos (by omega), show (64 * k + o) % 64 = o by omega]
  have hhalf : ∀ (j : Nat) (w : Short), j < 32 → d.byte (2 * j) = w.extractLsb' 0 8 →
      d.byte (2 * j + 1) = w.extractLsb' 8 8 → half (setDinode b k d) (32 * k + j) = w := by
    intro j w hj h0 h1
    refine half_of_bytes ?_ ?_
    · rw [show 2 * (32 * k + j) = 64 * k + 2 * j by omega, hbyte _ (by omega), h0]
    · rw [show 2 * (32 * k + j) + 1 = 64 * k + (2 * j + 1) by omega, hbyte _ (by omega), h1]
  have hword : ∀ (j : Nat) (w : Word), j < 16 → (∀ r < 4, d.byte (4 * j + r) = w.extractLsb' (8 * r) 8) →
      word (setDinode b k d) (16 * k + j) = w := by
    intro j w hj h
    refine word_of_bytes fun r hr => ?_
    rw [show 4 * (16 * k + j) + r = 64 * k + (4 * j + r) by omega, hbyte _ (by omega), h r hr]
  ext1
  · exact hhalf 0 _ (by decide) rfl rfl
  · exact hhalf 1 _ (by decide) rfl rfl
  · exact hhalf 2 _ (by decide) rfl rfl
  · exact hhalf 3 _ (by decide) rfl rfl
  · refine hword 2 _ (by decide) fun r hr => ?_
    interval_cases r <;> rfl
  · funext j
    have hj := j.isLt
    show word (setDinode b k d) (16 * k + 3 + j) = d.addrs j
    rw [Nat.add_assoc]
    refine hword (3 + j) _ (by omega) fun r hr => ?_
    rw [Dinode.byte, if_neg (by omega), if_neg (by omega), if_neg (by omega), if_neg (by omega),
      if_neg (by omega)]
    have hidx : (⟨(4 * (3 + j.val) + r - 12) / 4 % 13, Nat.mod_lt _ (by decide)⟩ : Fin 13) = j :=
      Fin.ext (by dsimp only; omega)
    rw [hidx, show (4 * (3 + j.val) + r) % 4 = r by omega]

theorem dinode_setDinode_ne (b : Block) (d : Dinode) (h : j ≠ k) :
    dinode (setDinode b k d) j = dinode b j := by
  have hbyte : ∀ o < 64, setDinode b k d (64 * j + o) = b (64 * j + o) := by
    intro o ho
    rw [setDinode, if_neg (by omega)]
  have hhalf : ∀ i < 32, half (setDinode b k d) (32 * j + i) = half b (32 * j + i) := by
    intro i hi
    rw [half, half, show 2 * (32 * j + i) + 1 = 64 * j + (2 * i + 1) by omega,
      show 2 * (32 * j + i) = 64 * j + 2 * i by omega, hbyte _ (by omega), hbyte _ (by omega)]
  have hword : ∀ i < 16, word (setDinode b k d) (16 * j + i) = word b (16 * j + i) := by
    intro i hi
    rw [word, word, show 4 * (16 * j + i) + 3 = 64 * j + (4 * i + 3) by omega,
      show 4 * (16 * j + i) + 2 = 64 * j + (4 * i + 2) by omega,
      show 4 * (16 * j + i) + 1 = 64 * j + (4 * i + 1) by omega,
      show 4 * (16 * j + i) = 64 * j + 4 * i by omega, hbyte _ (by omega), hbyte _ (by omega),
      hbyte _ (by omega), hbyte _ (by omega)]
  ext1
  · exact hhalf 0 (by decide)
  · exact hhalf 1 (by decide)
  · exact hhalf 2 (by decide)
  · exact hhalf 3 (by decide)
  · exact hword 2 (by decide)
  · funext i
    have hi := i.isLt
    show word (setDinode b k d) (16 * j + 3 + i) = word b (16 * j + 3 + i)
    rw [Nat.add_assoc]
    exact hword (3 + i) (by omega)

/-! ## The superblock -/

/-- `struct superblock`. -/
structure Superblock where
  size : Nat
  nblocks : Nat
  ninodes : Nat
  nlog : Nat
  logstart : Nat
  inodestart : Nat
  bmapstart : Nat

/-- The superblock on the disk. -/
def readsb (d : Disk) : Superblock where
  size := (word (d 1) 0).toNat
  nblocks := (word (d 1) 1).toNat
  ninodes := (word (d 1) 2).toNat
  nlog := (word (d 1) 3).toNat
  logstart := (word (d 1) 4).toNat
  inodestart := (word (d 1) 5).toNat
  bmapstart := (word (d 1) 6).toNat

/-- Block containing inode `i`. -/
def iblock (sb : Superblock) (i : Nat) : Nat := i / ipb + sb.inodestart

/-- Block of the free map containing the bit for block `b`. -/
def bblock (sb : Superblock) (b : Nat) : Nat := b / bpb + sb.bmapstart

/-- The first data block. -/
def Superblock.data (sb : Superblock) : Nat := sb.size - sb.nblocks

/-- Inode blocks, bitmap blocks and data blocks follow each other, every inode number fits
in a directory entry and every block number in an `int`. -/
structure Layout (sb : Superblock) : Prop where
  inodes : ∀ i < sb.ninodes, iblock sb i < sb.bmapstart
  bits : ∀ b < sb.size, bblock sb b < sb.data
  ninodes : sb.ninodes ≤ 65536
  size : sb.size < 2 ^ 31

section

variable (sb : Superblock)

/-- The bit of block `b` in the free map. -/
def used (d : Disk) (b : Nat) : Bool := bit (d (bblock sb b)) (b % bpb)

/-- The free map with the bit of block `b` set. -/
def setUsed (d : Disk) (b : Nat) : Disk :=
  Function.update d (bblock sb b) (setBit (d (bblock sb b)) (b % bpb))

/-- Inode `i` on the disk. -/
def dinodeAt (d : Disk) (i : Nat) : Dinode := dinode (d (iblock sb i)) (i % ipb)

def putDinode (d : Disk) (i : Nat) (x : Dinode) : Disk :=
  Function.update d (iblock sb i) (setDinode (d (iblock sb i)) (i % ipb) x)

end

variable {sb : Superblock} {d : Disk} {b i : Nat}

theorem eq_of_div_mod {n : Nat} (hd : j / n = k / n) (hm : j % n = k % n) : j = k := by
  rw [← Nat.div_add_mod j n, ← Nat.div_add_mod k n, hd, hm]

@[simp] theorem used_setUsed_self : used sb (setUsed sb d b) b = true := by
  rw [used, setUsed, update_self, bit_setBit_self]

theorem used_setUsed_ne {c : Nat} (h : c ≠ b) : used sb (setUsed sb d b) c = used sb d c := by
  unfold used setUsed
  by_cases hb : bblock sb c = bblock sb b
  · have hne : c % bpb ≠ b % bpb := fun he => h (eq_of_div_mod (Nat.add_right_cancel hb) he)
    rw [hb, update_self, bit_setBit_ne _ hne]
  · rw [update_of_ne hb]

@[simp] theorem dinodeAt_putDinode_self : dinodeAt sb (putDinode sb d i x) i = x := by
  rw [dinodeAt, putDinode, update_self, dinode_setDinode_self]

theorem dinodeAt_putDinode_ne (h : j ≠ i) :
    dinodeAt sb (putDinode sb d i x) j = dinodeAt sb d j := by
  unfold dinodeAt putDinode
  by_cases hb : iblock sb j = iblock sb i
  · have hne : j % ipb ≠ i % ipb := fun he => h (eq_of_div_mod (Nat.add_right_cancel hb) he)
    rw [hb, update_self, dinode_setDinode_ne _ _ hne]
  · rw [update_of_ne hb]

/-! ## Inodes, bits and data are apart -/

theorem used_update {x : Block} (h : bblock sb b ≠ k) :
    used sb (Function.update d k x) b = used sb d b := by
  rw [used, used, update_of_ne h]

theorem dinodeAt_update {x : Block} (h : iblock sb i ≠ k) :
    dinodeAt sb (Function.update d k x) i = dinodeAt sb d i := by
  rw [dinodeAt, dinodeAt, update_of_ne h]

namespace Layout

section

variable (h : Layout sb)
include h

section

variable (hi : i < sb.ninodes)
include hi

theorem inode_ne_bit (b : Nat) :
    iblock sb i ≠ bblock sb b := by
  have h1 := h.inodes i hi
  have h2 : sb.bmapstart ≤ bblock sb b := Nat.le_add_left _ _
  omega

theorem inode_lt_data (hb : b < sb.size) :
    iblock sb i < sb.data := by
  have h1 := h.inodes i hi
  have h2 := h.bits b hb
  have h3 : sb.bmapstart ≤ bblock sb b := Nat.le_add_left _ _
  omega

theorem used_putDinode :
    used sb (putDinode sb d i x) b = used sb d b :=
  used_update (h.inode_ne_bit hi b).symm

theorem dinodeAt_setUsed :
    dinodeAt sb (setUsed sb d b) i = dinodeAt sb d i :=
  dinodeAt_update (h.inode_ne_bit hi b)

end

theorem used_data {x : Block} (hb : b < sb.size) (hk : sb.data ≤ k) :
    used sb (Function.update d k x) b = used sb d b :=
  used_update (by have := h.bits b hb; omega)

theorem dinodeAt_data {x : Block} (hi : i < sb.ninodes) (hk : sb.data ≤ k)
    (hs : k < sb.size) : dinodeAt sb (Function.update d k x) i = dinodeAt sb d i :=
  dinodeAt_update (by have := h.inode_lt_data hi hs; omega)

theorem data_setUsed (hb : b < sb.size) (hk : sb.data ≤ k) :
    setUsed sb d b k = d k :=
  update_of_ne (by have := h.bits b hb; omega) _ _

theorem data_putDinode (hi : i < sb.ninodes) (hk : sb.data ≤ k) (hs : k < sb.size) :
    putDinode sb d i x k = d k :=
  update_of_ne (by have := h.inode_lt_data hi hs; omega) _ _

end

end Layout

end Xv6.Fs
