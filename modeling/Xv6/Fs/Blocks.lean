import Xv6.Fs.Inode
import Xv6.Lib.Owner

/-!
# The blocks of inodes

An inode has 141 places for block numbers: twelve direct blocks, the indirect table, and
the 128 blocks that the table lists.  `blockRef` reads a place, `dataBlock` the place of a
block of the file, `fileByte` a byte of the file if its block is there.

`Fine` is the discipline of the block allocator, for the inodes `N`.  While a call works on
an inode, its copy in the cache is ahead of the disk, so `N` need not be the inodes on the
disk.  The changes that `balloc`, `bmap`, `writei` and `itrunc` make to blocks keep `Fine`
and leave the bytes of all other inodes alone.
-/

namespace Xv6.Fs

open Owner Function

variable {n m : Nat}

/-- The place `k` of an inode: direct blocks, the table, the listed blocks. -/
def blockRef (d : Disk) (x : Dinode) (k : Nat) : Nat :=
  if h : k < 13 then (x.addrs ⟨k, h⟩).toNat
  else if x.addrs 12 = 0#32 ∨ 141 ≤ k then 0
  else (word (d (x.addrs 12).toNat) (k - 13)).toNat

/-- The place of the `n`-th block of a file. -/
def place (n : Nat) : Nat := if n < ndirect then n else n + 1

/-- The `n`-th block of a file, 0 if there is none. -/
def dataBlock (d : Disk) (x : Dinode) (n : Nat) : Nat := blockRef d x (place n)

/-- The byte at offset `o` of a file, if its block is there. -/
def fileByte (d : Disk) (x : Dinode) (o : Nat) : Option Byte :=
  if dataBlock d x (o / bsize) = 0 then none
  else some (d (dataBlock d x (o / bsize)) (o % bsize))

theorem place_ne_table (n : Nat) : place n ≠ 12 := by
  unfold place ndirect
  split <;> omega

theorem place_inj (h : place n = place m) : n = m := by
  unfold place ndirect at h
  split at h <;> split at h <;> omega

/-! ## Places that are not written -/

section

variable {d d' : Disk} {x : Dinode}

theorem blockRef_table : blockRef d x 12 = (x.addrs 12).toNat := rfl

theorem blockRef_direct (j : Fin 13) : blockRef d x j = (x.addrs j).toNat := by
  rw [blockRef, dif_pos j.isLt]

theorem blockRef_listed (ht : x.addrs 12 ≠ 0#32) (hm : m < nindirect) :
    blockRef d x (13 + m) = (word (d (x.addrs 12).toNat) m).toNat := by
  have hm : m < 128 := hm
  rw [blockRef, dif_neg (by omega), if_neg (by simp [ht]; omega), Nat.add_sub_cancel_left]

theorem blockRef_of_table_zero {k : Nat} (ht : x.addrs 12 = 0#32) (hk : 13 ≤ k) :
    blockRef d x k = 0 := by
  rw [blockRef, dif_neg (by omega), if_pos (.inl ht)]

theorem blockRef_past {k : Nat} (hk : 141 ≤ k) : blockRef d x k = 0 := by
  rw [blockRef, dif_neg (by omega), if_pos (.inr hk)]

/-- An inode without addresses has no blocks. -/
theorem blockRef_of_zero (h : ∀ j, x.addrs j = 0#32) (k : Nat) : blockRef d x k = 0 := by
  by_cases hk : k < 13
  · rw [blockRef, dif_pos hk, h]
    rfl
  · exact blockRef_of_table_zero (h 12) (by omega)

theorem blockRef_addrs {y : Dinode} (h : x.addrs = y.addrs) (k : Nat) :
    blockRef d x k = blockRef d y k := by
  rw [blockRef, blockRef, h]

theorem fileByte_addrs {y : Dinode} (h : x.addrs = y.addrs) (o : Nat) :
    fileByte d x o = fileByte d y o := by
  rw [fileByte, fileByte, dataBlock, dataBlock, blockRef_addrs h]

/-- Only the table decides about the places of an inode. -/
theorem blockRef_congr (h : blockRef d x 12 ≠ 0 → d' (blockRef d x 12) = d (blockRef d x 12))
    (k : Nat) : blockRef d' x k = blockRef d x k := by
  unfold blockRef
  split
  · rfl
  split
  · rfl
  · rename_i hk
    have ht : blockRef d x 12 ≠ 0 := by
      rw [blockRef_table]
      intro h0
      exact hk (.inl (BitVec.eq_of_toNat_eq h0))
    have := h ht
    rw [blockRef_table] at this
    rw [this]

theorem fileByte_congr (h : ∀ k, blockRef d x k ≠ 0 → d' (blockRef d x k) = d (blockRef d x k))
    (o : Nat) : fileByte d' x o = fileByte d x o := by
  have hd : dataBlock d' x (o / bsize) = dataBlock d x (o / bsize) := blockRef_congr (h 12) _
  rw [fileByte, fileByte, hd]
  split
  · rfl
  · rename_i hne
    rw [dataBlock, h _ hne]

end

/-! ## The allocator's discipline -/

section

variable (sb : Superblock)

/-- A data block whose bit is set. -/
def inUse (d : Disk) (b : Nat) : Prop := sb.data ≤ b ∧ b < sb.size ∧ used sb d b = true

/-- The block that stands in place `r.2` of inode `r.1`, if the inode is allocated. -/
def ref (N : Nat → Dinode) (d : Disk) (r : Nat × Nat) : Option Nat :=
  if r.1 < sb.ninodes ∧ (N r.1).type ≠ 0#16 ∧ blockRef d (N r.1) r.2 ≠ 0 then
    some (blockRef d (N r.1) r.2)
  else none

/-- Every data block in use stands in one place of one inode, or is pending, and the bits of
the blocks before the data are set. -/
structure Fine (N : Nat → Dinode) (d : Disk) (pend : Set Nat) : Prop where
  own : Owned (ref sb N d) (inUse sb d) pend
  reserved : ∀ b < sb.data, used sb d b = true

end

variable {sb : Superblock} {N N' : Nat → Dinode} {d d' : Disk} {pend : Set Nat} {i j k b : Nat}

theorem ref_eq_some {r : Nat × Nat} : ref sb N d r = some b ↔ r.1 < sb.ninodes ∧
    (N r.1).type ≠ 0#16 ∧ blockRef d (N r.1) r.2 ≠ 0 ∧ blockRef d (N r.1) r.2 = b := by
  unfold ref
  split
  · rename_i h
    simp [h]
  · rename_i h
    simp only [reduceCtorEq, false_iff]
    rintro ⟨h1, h2, h3, _⟩
    exact h ⟨h1, h2, h3⟩

theorem ref_of_ne_zero (hi : i < sb.ninodes) (ht : (N i).type ≠ 0#16) (hk : blockRef d (N i) k ≠ 0) :
    ref sb N d (i, k) = some (blockRef d (N i) k) :=
  ref_eq_some.mpr ⟨hi, ht, hk, rfl⟩

theorem ref_eq_none (hi : i < sb.ninodes) (ht : (N i).type ≠ 0#16) :
    ref sb N d (i, k) = none ↔ blockRef d (N i) k = 0 := by
  unfold ref
  simp [hi, ht]

/-- Two inodes with the same type and the same places hold the same blocks. -/
theorem ref_congr {r : Nat × Nat} (ht : r.1 < sb.ninodes → (N' r.1).type = (N r.1).type)
    (hk : r.1 < sb.ninodes → (N r.1).type ≠ 0#16 → blockRef d' (N' r.1) r.2 = blockRef d (N r.1) r.2) :
    ref sb N' d' r = ref sb N d r := by
  unfold ref
  by_cases hi : r.1 < sb.ninodes
  · rw [ht hi]
    by_cases h0 : (N r.1).type = 0#16
    · simp [h0]
    · rw [hk hi h0]
  · simp [hi]

namespace Fine

section

variable (h : Fine sb N d pend)
include h

theorem inUse (hi : i < sb.ninodes) (ht : (N i).type ≠ 0#16)
    (hk : blockRef d (N i) k ≠ 0) : inUse sb d (blockRef d (N i) k) :=
  h.own.used_of_own (ref_of_ne_zero hi ht hk)

/-- A block stands in one place only. -/
theorem place_eq (hi : i < sb.ninodes) (ht : (N i).type ≠ 0#16)
    (hj : j < sb.ninodes) (hu : (N j).type ≠ 0#16) (hk : blockRef d (N i) k ≠ 0)
    (he : blockRef d (N j) m = blockRef d (N i) k) : j = i ∧ m = k := by
  have hm : ref sb N d (j, m) = some (blockRef d (N i) k) :=
    ref_eq_some.mpr ⟨hj, hu, by rwa [he], he⟩
  exact Prod.mk.inj (h.own.inj hm (ref_of_ne_zero hi ht hk))

/-- Of an inode only the type and the addresses count. -/
theorem congr_inodes
    (hN : ∀ i < sb.ninodes, (N' i).type = (N i).type ∧ (N' i).addrs = (N i).addrs) :
    Fine sb N' d pend where
  own := h.own.congr (fun _ => ref_congr (fun hi => (hN _ hi).1) fun hi _ =>
    blockRef_addrs (hN _ hi).2 _) fun _ => Iff.rfl
  reserved := h.reserved

/-- A disk that has the same blocks in all places, and the same bits. -/
theorem congr_disk
    (hd : ∀ i < sb.ninodes, (N i).type ≠ 0#16 → ∀ k, blockRef d (N i) k ≠ 0 →
      d' (blockRef d (N i) k) = d (blockRef d (N i) k))
    (hu : ∀ b < sb.size, used sb d' b = used sb d b) : Fine sb N d' pend where
  own := by
    refine h.own.congr (fun r => ref_congr (fun _ => rfl) fun hi ht => ?_) fun b => ?_
    · exact blockRef_congr (hd _ hi ht 12) _
    · unfold Fs.inUse
      constructor
      · rintro ⟨h1, h2, h3⟩
        exact ⟨h1, h2, by rwa [hu b h2] at h3⟩
      · rintro ⟨h1, h2, h3⟩
        exact ⟨h1, h2, by rwa [hu b h2]⟩
  reserved b hb := by
    rw [hu b (lt_of_lt_of_le hb (Nat.sub_le _ _))]
    exact h.reserved b hb

end

end Fine

/-! ## A block is taken -/

/-- The disk after `balloc` has taken block `b`. -/
def taken (sb : Superblock) (d : Disk) (b : Nat) : Disk :=
  Function.update (setUsed sb d b) b (fill 0#8)

theorem taken_data {c : Nat} (hL : Layout sb) (hs : b < sb.size) (hc : sb.data ≤ c) (hcb : c ≠ b) :
    taken sb d b c = d c := by
  rw [taken, update_of_ne hcb, hL.data_setUsed hs hc]

theorem dinodeAt_taken (hL : Layout sb) (hb : sb.data ≤ b) (hs : b < sb.size) (hi : i < sb.ninodes) :
    dinodeAt sb (taken sb d b) i = dinodeAt sb d i := by
  rw [taken, hL.dinodeAt_data hi hb hs, hL.dinodeAt_setUsed hi]

theorem used_taken {c : Nat} (hL : Layout sb) (hb : sb.data ≤ b) (hc : c < sb.size) :
    used sb (taken sb d b) c = true ↔ c = b ∨ used sb d c = true := by
  rw [taken, hL.used_data hc hb]
  by_cases hcb : c = b
  · subst hcb
    simp
  · rw [used_setUsed_ne hcb]
    simp [hcb]

theorem taken_self : taken sb d b b = fill 0#8 := update_self _ _ _

namespace Fine

/-- A free block is no block of an inode. -/
theorem taken_ref (hL : Layout sb) (hs : b < sb.size) (hfree : used sb d b = false)
    (h : Fine sb N d pend) (hi : i < sb.ninodes) (ht : (N i).type ≠ 0#16) (hk : blockRef d (N i) k ≠ 0) : taken sb d b (blockRef d (N i) k) = d (blockRef d (N i) k) := by
  obtain ⟨h1, _, h3⟩ := h.inUse hi ht hk
  refine taken_data hL hs h1 ?_
  intro he
  rw [he, hfree] at h3
  cases h3

theorem alloc (hL : Layout sb) (hb : sb.data ≤ b) (hs : b < sb.size) (hfree : used sb d b = false)
    (h : Fine sb N d pend) : Fine sb N (taken sb d b) (insert b pend) where
  own := by
    have hown : Owned (ref sb N (taken sb d b)) (Fs.inUse sb d) pend := by
      refine h.own.congr (fun r => ref_congr (fun _ => rfl) fun hi ht => ?_) fun _ => Iff.rfl
      exact blockRef_congr (h.taken_ref hL hs hfree hi ht) _
    refine hown.alloc (fun hu => ?_) fun c => ?_
    · have h3 := hu.2.2
      rw [hfree] at h3
      cases h3
    · unfold Fs.inUse
      constructor
      · rintro ⟨h1, h2, h3⟩
        exact ((used_taken hL hb h2).mp h3).imp_right fun h4 => ⟨h1, h2, h4⟩
      · rintro (rfl | ⟨h1, h2, h3⟩)
        · exact ⟨hb, hs, (used_taken hL hb hs).mpr (.inl rfl)⟩
        · exact ⟨h1, h2, (used_taken hL hb h2).mpr (.inr h3)⟩
  reserved c hc :=
    (used_taken hL hb (lt_of_lt_of_le hc (Nat.sub_le _ _))).mpr (.inr (h.reserved c hc))

end Fine

/-! ## A block is put into its place -/

/-- The inode with one of its 13 addresses set. -/
def withAddr (x : Dinode) (j : Fin 13) (b : Nat) : Dinode :=
  { x with addrs := Function.update x.addrs j (BitVec.ofNat 32 b) }

section

variable {x x' : Dinode}

theorem withAddr_self {j : Fin 13} : (withAddr x j b).addrs j = BitVec.ofNat 32 b :=
  update_self _ _ _

theorem withAddr_ne {j l : Fin 13} (h : l ≠ j) : (withAddr x j b).addrs l = x.addrs l :=
  update_of_ne h _ _

theorem toNat_ofNat (hb : b < 2 ^ 32) : (BitVec.ofNat 32 b).toNat = b := by
  rw [BitVec.toNat_ofNat, Nat.mod_eq_of_lt hb]

/-- Setting an address changes its place and no other, also if it is that of the table: a
new table is a block of zeros. -/
theorem blockRef_withAddr {j : Fin 13} (h0 : j = 12 → x.addrs j = 0#32) (hb : b < 2 ^ 32)
    (hz : j = 12 → d b = fill 0#8) (k : Nat) :
    blockRef d (withAddr x j b) k = if k = j then b else blockRef d x k := by
  by_cases hk : k < 13
  · have hwk : blockRef d (withAddr x j b) k = ((withAddr x j b).addrs ⟨k, hk⟩).toNat := dif_pos hk
    have hxk : blockRef d x k = (x.addrs ⟨k, hk⟩).toNat := dif_pos hk
    rw [hwk, hxk]
    by_cases hkj : k = j
    · obtain rfl : (⟨k, hk⟩ : Fin 13) = j := Fin.ext hkj
      rw [withAddr_self, if_pos rfl, toNat_ofNat hb]
    · rw [withAddr_ne (fun he => hkj (congrArg Fin.val he)), if_neg hkj]
  · rw [if_neg (by have := j.isLt; omega)]
    by_cases hj : j = 12
    · subst hj
      rw [blockRef_of_table_zero (h0 rfl) (by omega), blockRef, dif_neg hk]
      split
      · rfl
      · rw [withAddr_self, toNat_ofNat hb, hz rfl, word_fill_zero]
        rfl
    · rw [blockRef, blockRef, dif_neg hk, dif_neg hk, withAddr_ne (Ne.symm hj)]

/-- The table with one of its words set. -/
def withListed (d : Disk) (x : Dinode) (m b : Nat) : Disk :=
  Function.update d (x.addrs 12).toNat
    (setWord (d (x.addrs 12).toNat) m (BitVec.ofNat 32 b))

theorem blockRef_withListed (ht : x.addrs 12 ≠ 0#32) (hm : m < nindirect) (hb : b < 2 ^ 32) (k : Nat) :
    blockRef (withListed d x m b) x k = if k = 13 + m then b else blockRef d x k := by
  have hm : m < 128 := hm
  by_cases hk : k < 13
  · rw [if_neg (by omega), blockRef, blockRef, dif_pos hk, dif_pos hk]
  by_cases hlast : 141 ≤ k
  · rw [if_neg (by omega), blockRef_past hlast, blockRef_past hlast]
  have hval : ∀ d : Disk, blockRef d x k = (word (d (x.addrs 12).toNat) (k - 13)).toNat := by
    intro d
    rw [blockRef, dif_neg hk, if_neg (by simp [ht]; omega)]
  rw [hval, hval, withListed, update_self]
  by_cases hkm : k = 13 + m
  · rw [if_pos hkm, show k - 13 = m by omega, word_setWord_self, toNat_ofNat hb]
  · rw [if_neg hkm, word_setWord_ne _ _ (by omega)]

end

namespace Fine

/-- A pending block is put into a place of an inode that was empty. -/
theorem record {x' : Dinode} (h : Fine sb N d {b}) (hi : i < sb.ninodes) (ht : (N i).type ≠ 0#16)
    (htype : x'.type = (N i).type) (h0 : blockRef d (N i) k = 0) (hb : b ≠ 0)
    (hk : ∀ k', blockRef d' x' k' = if k' = k then b else blockRef d (N i) k')
    (hd : ∀ j < sb.ninodes, j ≠ i → (N j).type ≠ 0#16 → ∀ k', blockRef d' (N j) k' = blockRef d (N j) k')
    (hu : ∀ c < sb.size, used sb d' c = used sb d c) : Fine sb (Function.update N i x') d' ∅ where
  own := by
    have hown := h.own.record (ref sb (Function.update N i x') d') (r := (i, k)) (b := b) rfl
      ((ref_eq_none hi ht).mpr h0) ?_ ?_
    · rw [sdiff_self] at hown
      refine hown.congr (fun _ => rfl) fun c => ?_
      unfold Fs.inUse
      exact and_congr_right fun _ => and_congr_right fun hc => by rw [hu c hc]
    · refine ref_eq_some.mpr ⟨hi, ?_, ?_, ?_⟩ <;> simp only [update_self]
      · rwa [htype]
      · rwa [hk, if_pos rfl]
      · rw [hk, if_pos rfl]
    · intro r hr
      obtain ⟨j, k'⟩ := r
      by_cases hj : j = i
      · subst hj
        have hk' : k' ≠ k := fun he => hr (by rw [he])
        refine ref_congr (fun _ => ?_) fun _ _ => ?_ <;> simp only [update_self]
        · exact htype
        · rw [hk, if_neg hk']
      · refine ref_congr (fun _ => ?_) fun hlt htj => ?_ <;> simp only [update_of_ne hj]
        exact hd j hlt hj htj k'
  reserved c hc := by
    rw [hu c (lt_of_lt_of_le hc (Nat.sub_le _ _))]
    exact h.reserved c hc

/-! ## A block of a file is written -/

section

variable (h : Fine sb N d pend) (hi : i < sb.ninodes) (ht : (N i).type ≠ 0#16)
  (hn : dataBlock d (N i) n ≠ 0) (blk : Block)
include h hi ht hn

/-- A block of a file is no table and stands in no other file. -/
theorem write_ref (hj : j < sb.ninodes) (hu : (N j).type ≠ 0#16)
    (hk : blockRef d (N j) k ≠ 0) (hne : (j, k) ≠ (i, place n)) :
    Function.update d (dataBlock d (N i) n) blk (blockRef d (N j) k) = d (blockRef d (N j) k) := by
  refine update_of_ne (fun he => hne ?_) _ _
  obtain ⟨rfl, rfl⟩ := h.place_eq hi ht hj hu hn he
  rfl

theorem write_places (hj : j < sb.ninodes) (hu : (N j).type ≠ 0#16) :
    blockRef (Function.update d (dataBlock d (N i) n) blk) (N j) k = blockRef d (N j) k := by
  refine blockRef_congr (fun h12 => ?_) k
  exact h.write_ref hi ht hn blk hj hu h12 fun he => place_ne_table n (Prod.mk.inj he).2.symm

theorem write (hL : Layout sb) :
    Fine sb N (Function.update d (dataBlock d (N i) n) blk) pend := by
  have hdata : sb.data ≤ dataBlock d (N i) n := (h.inUse hi ht hn).1
  constructor
  · refine h.own.congr (fun r => ref_congr (fun _ => rfl) fun hj hu => ?_) fun c => ?_
    · exact h.write_places hi ht hn blk hj hu
    · unfold Fs.inUse
      exact and_congr_right fun _ => and_congr_right fun hc => by rw [hL.used_data hc hdata]
  · intro c hc
    rw [hL.used_data (lt_of_lt_of_le hc (Nat.sub_le _ _)) hdata]
    exact h.reserved c hc

/-- The bytes of the other files stay. -/
theorem write_other (hj : j < sb.ninodes) (hu : (N j).type ≠ 0#16)
    (hji : j ≠ i) (o : Nat) :
    fileByte (Function.update d (dataBlock d (N i) n) blk) (N j) o = fileByte d (N j) o :=
  fileByte_congr (fun _ hk => h.write_ref hi ht hn blk hj hu hk fun he => hji (Prod.mk.inj he).1) o

/-- The bytes of the file itself. -/
theorem write_self (o : Nat) :
    fileByte (Function.update d (dataBlock d (N i) n) blk) (N i) o =
      if o / bsize = n then some (blk (o % bsize)) else fileByte d (N i) o := by
  have hp : dataBlock (Function.update d (dataBlock d (N i) n) blk) (N i) (o / bsize) =
      dataBlock d (N i) (o / bsize) := h.write_places hi ht hn blk hi ht
  rw [fileByte, fileByte, hp]
  by_cases ho : o / bsize = n
  · rw [if_pos ho, ho, if_neg hn, update_self]
  · rw [if_neg ho]
    split
    · rfl
    · rename_i hne
      exact congrArg (fun blk : Block => some (blk (o % bsize)))
        (h.write_ref hi ht hn blk hi ht hne fun he => ho (place_inj (Prod.mk.inj he).2))

end

end Fine

end Xv6.Fs
