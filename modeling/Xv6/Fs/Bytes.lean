import Xv6.Fs.Tree

/-!
# A file is an array of bytes

`readi` and `writei` on a regular file read and write an array of bytes whose length is the
size of the file, however the range lies over direct and listed blocks.

`writei` logs every block of its range in one transaction, and `log_write` panics when the
log is full.  So a range that lies in more blocks than the log takes is never written: the
callers have to cut it.  `LogGrows` is what every run leaves of the log, and the data
blocks of the range are in it at the end of a run that returns.
-/

namespace Xv6.Fs

open Prog Absorb

/-- The contents of the inode of entry `e`. -/
def contents (s : State) (e : Nat) : Node := nodeOf s.disk (s.inode e).di

variable {sb : Superblock} {s : State} {N : Nat → Dinode} {i e off : Nat} {src : List Byte}

/-! ## The log fills up -/

namespace Cached

/-- A range that lies in more blocks than the log takes is never written. -/
theorem writei_too_big (off : Nat) (src : List Byte) (hL : Layout sb) (hC : Cached sb s e)
    (hdev : (s.inode e).di.type ≠ tDev)
    (hout : 0 < s.outstanding) (hlen : src.length < uintSize)
    (hre : ¬ Refused (s.inode e).di.size.toNat off src.length) (hlh : s.lh.length ≤ logCap sb)
    (hbig : logCap sb < (span off src.length).card) :
    wp (Fs.writei sb e src off) (fun _ _ => False) (fun _ => True) s := by
  obtain ⟨h1, h2⟩ := not_or.mp fun h => hre ((hC.refused_iff off hlen).mp h)
  simp only [Fs.writei, getInode, wp_bind, wp_get, wp_pure, wp_ite, if_neg hdev, if_neg h1, if_neg h2]
  unfold Refused at hre
  have hend : off + src.length ≤ maxfile * bsize := by omega
  have hcopy := hC.copy
  have ht : (dinodeAt sb s.disk (s.inode e).inum).type ≠ 0#16 := by
    rw [← hcopy]
    exact hC.type
  refine wp_post (wp_writeLoop (K := places off src.length) hL hC.num _ off src (Nat.le_refl _)
    hC.fine ht hcopy hout ⟨fun _ => trivial, fun _ => trivial⟩ hend
    fun bn hbn => Finset.subset_biUnion_of_mem _ hbn) ?_
  rintro _ s1 ⟨x, -, hw, -, -, hgrow, hlogged⟩
  exfalso
  have hself : Function.update (dinodeAt sb s.disk) (s.inode e).inum x (s.inode e).inum = x :=
    Function.update_self _ _ _
  have htype : (Function.update (dinodeAt sb s.disk) (s.inode e).inum x (s.inode e).inum).type ≠ 0#16 := by
    rw [hself, hw.type]
    exact ht
  -- Different blocks of the file are different blocks of the disk, and all are in the log.
  have hcard : (span off src.length).card ≤ s1.lh.toFinset.card := by
    refine Finset.card_le_card_of_injOn (dataBlock s1.disk x) (fun bn hbn => ?_) ?_
    · exact List.mem_toFinset.mpr (hlogged bn hbn).2
    · intro m hm n _ he
      have hplace := hw.fine.place_eq (k := place m) (m := place n) hC.num htype hC.num htype
      rw [hself] at hplace
      exact (place_inj (hplace (hlogged m hm).1 he.symm).2).symm
  have := hgrow.bound hlh
  have := List.toFinset_card_le s1.lh
  omega

end Cached

/-! ## A new file system with one inode -/

/-- The superblock that `mkfs` writes. -/
def sampleSb : Superblock := ⟨1000, 941, 200, 30, 2, 32, 58⟩

/-- The bits of the 59 blocks before the data are set. -/
def sampleBitmap : Block := fun o => if o < 7 then 255#8 else if o = 7 then 7#8 else 0#8

/-- The inode 1, without contents. -/
def sampleInode (type : Short) : Dinode := { Dinode.blank type with nlink := 1#16 }

def sampleDisk (type : Short) : Disk :=
  putDinode sampleSb (fun b => if b = 58 then sampleBitmap else fill 0#8) 1 (sampleInode type)

/-- The inode is in entry 0 and locked, a transaction is open, and file 0 is open on it. -/
def sampleState (type : Short) : State where
  disk := sampleDisk type
  inode e := if e = 0 then ⟨rootdev, 1, 1, true, true, sampleInode type⟩
    else ⟨0, 0, 0, false, false, .blank 0#16⟩
  outstanding := 1
  lh := []
  file _ := ⟨.inode, 1, true, true, 0, 0⟩
  proc _ := ⟨none, fun _ => none⟩
  console := none

theorem sample_layout : Layout sampleSb where
  inodes i hi := by
    have hi : i < 200 := hi
    show i / 8 + 32 < 58
    omega
  bits b hb := by
    have hb : b < 1000 := hb
    rw [bblock, bpb_eq]
    show b / 4096 + 58 < 59
    omega
  ninodes := by decide
  size := by decide

theorem sample_bit : ∀ b < 1000, bit sampleBitmap b = decide (b < 59) := by decide +kernel

theorem sample_used {type : Short} {b : Nat} (hb : b < 1000) :
    used sampleSb (sampleDisk type) b = decide (b < 59) := by
  have hmod : b % bpb = b := by
    rw [bpb_eq]
    omega
  have hblock : bblock sampleSb b = 58 := by
    rw [bblock, bpb_eq]
    show b / 4096 + 58 = 58
    omega
  rw [sampleDisk, sample_layout.used_putDinode (by decide), used, hblock, if_pos rfl, hmod]
  exact sample_bit b hb

theorem half_fill_zero (i : Nat) : half (fill 0#8) i = 0#16 := half_of_bytes rfl rfl

theorem sample_dinodeAt {type : Short} {i : Nat} (hi : i < 200) :
    dinodeAt sampleSb (sampleDisk type) i = if i = 1 then sampleInode type else .blank 0#16 := by
  unfold sampleDisk
  split
  · rename_i h1
    rw [h1, dinodeAt_putDinode_self]
  · rename_i h1
    have hblock : iblock sampleSb i ≠ 58 := by
      show i / 8 + 32 ≠ 58
      omega
    rw [dinodeAt_putDinode_ne h1, dinodeAt, if_neg hblock]
    ext1
    · exact half_fill_zero _
    · exact half_fill_zero _
    · exact half_fill_zero _
    · exact half_fill_zero _
    · exact word_fill_zero _
    · exact funext fun j => word_fill_zero _

theorem sample_fine (type : Short) :
    Fine sampleSb (dinodeAt sampleSb (sampleDisk type)) (sampleDisk type) ∅ := by
  have hnone : ∀ r, ref sampleSb (dinodeAt sampleSb (sampleDisk type)) (sampleDisk type) r = none := by
    intro r
    refine if_neg fun h => h.2.2 (blockRef_of_zero (fun j => ?_) _)
    rw [sample_dinodeAt h.1]
    split <;> rfl
  have hfree : ∀ b, ¬ inUse sampleSb (sampleDisk type) b := by
    rintro b ⟨h1, h2, h3⟩
    have h1 : 59 ≤ b := h1
    rw [sample_used h2, decide_eq_true_eq] at h3
    omega
  refine ⟨⟨?_, ?_, ?_, ?_, ?_⟩, ?_⟩
  · intro r b hr
    rw [hnone] at hr
    cases hr
  · intro r r' b hr
    rw [hnone] at hr
    cases hr
  · exact fun hb => absurd hb (hfree _)
  · exact fun hb => hb.elim
  · exact fun hb => hb.elim
  · intro b hb
    have hb : b < 59 := hb
    rw [sample_used (by omega), decide_eq_true_eq]
    exact hb

theorem sample_cached (type : Short) (ht : type ≠ 0#16) : Cached sampleSb (sampleState type) 0 where
  num := by
    show 1 < 200
    decide
  copy := by
    show sampleInode type = dinodeAt sampleSb (sampleDisk type) 1
    rw [sample_dinodeAt (by decide), if_pos rfl]
  type := ht
  fine := sample_fine type
  filled o ho := absurd ho (Nat.not_lt_zero o)

/-- Every data block is free. -/
theorem sample_free (type : Short) : (freeBlocks sampleSb (sampleDisk type)).card = 941 := by
  have hset : freeBlocks sampleSb (sampleDisk type) = Finset.Ico 59 1000 := by
    ext b
    rw [mem_freeBlocks, Finset.mem_Ico]
    constructor
    · rintro ⟨hb, hf⟩
      rw [sample_used hb, decide_eq_false_iff_not] at hf
      exact ⟨by omega, hb⟩
    · rintro ⟨h1, h2⟩
      refine ⟨h2, ?_⟩
      rw [sample_used h2, decide_eq_false_iff_not]
      omega
  rw [hset, Nat.card_Ico]

/-! ## Reading and writing -/

/-- What a write to the new file needs. -/
theorem sample_needs (type : Short) (off n : Nat) (hn : n ≤ 12288) :
    (missing (sampleState type).disk ((sampleState type).inode 0).di (places off n)).card ≤
      (freeBlocks sampleSb (sampleState type).disk).card ∧
    demand sampleSb 1 (places off n) [] (sampleState type).disk ((sampleState type).inode 0).di <
      logCap sampleSb := by
  have hspan : (span off n).card ≤ 25 := by
    refine (card_span_le off n).trans ?_
    show (n + 1022) / 512 ≤ 25
    omega
  have hplaces := card_places_le off n
  have hbitmaps : (bitmaps sampleSb).card ≤ 1 := card_bitmaps_le (by rw [bpb_eq]; decide)
  constructor
  · refine card_missing_le.trans ?_
    rw [show (sampleState type).disk = sampleDisk type from rfl, sample_free]
    omega
  · refine lt_of_le_of_lt demand_le ?_
    rw [List.length_nil]
    show _ < 29
    omega

end Xv6.Fs
