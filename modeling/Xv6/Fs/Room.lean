import Xv6.Fs.Blocks
import Xv6.Lib.Absorb

/-!
# Room in the log and on the disk

Writing to an inode can run out of two things.  `balloc` panics when no block is free, and
`log_write` panics when the log is full.  For an operation that needs the places `K` of
inode `i`, `missing` are the places that have no block yet: each takes one free block.
`charged` are the blocks that the operation may log as the inode stands, the bitmap, the
inode's own block and the blocks of `K`.  `demand` bounds the length of the log: what it
holds once all of `charged` is in, and one more block for each missing place.

Filling a place moves a block from `missing` to `charged` and takes it from the free ones.
So `demand` does not grow, and free blocks and missing places go down together (`Spent`).
-/

namespace Xv6.Fs

open Absorb

section

variable (sb : Superblock)

/-- How many blocks `log_write` takes. -/
def logCap : Nat := min logsize (sb.nlog - 1)

/-- The blocks of the free map. -/
def bitmaps : Finset Nat := (Finset.range sb.size).image (bblock sb)

/-- The blocks that `balloc` can take. -/
def freeBlocks (d : Disk) : Finset Nat := (Finset.range sb.size).filter (used sb d · = false)

/-- The places of `K` that have no block. -/
def missing (d : Disk) (x : Dinode) (K : Finset Nat) : Finset Nat :=
  K.filter (blockRef d x · = 0)

/-- The blocks that may be logged for the places `K` of inode `i`. -/
def charged (i : Nat) (K : Finset Nat) (d : Disk) (x : Dinode) : Finset Nat :=
  insert (iblock sb i) (bitmaps sb) ∪ (K.filter (blockRef d x · ≠ 0)).image (blockRef d x)

/-- How long the log can get. -/
def demand (i : Nat) (K : Finset Nat) (lh : List Nat) (d : Disk) (x : Dinode) : Nat :=
  after lh (charged sb i K d x) + (missing d x K).card

/-- The places that `bmap` looks at for block `bn` of a file. -/
def placesOf (bn : Nat) : Finset Nat := if bn < ndirect then {bn} else {12, bn + 1}

/-- The blocks of a file that `n` bytes from `off` on lie in. -/
def span (off n : Nat) : Finset Nat :=
  if n = 0 then ∅ else Finset.Icc (off / bsize) ((off + n - 1) / bsize)

/-- The places that reading or writing `n` bytes from `off` on looks at. -/
def places (off n : Nat) : Finset Nat := (span off n).biUnion placesOf

/-- If log or disk are too small for the places `K`, then `F` allows for the panic. -/
structure Affords (F : Stop → Prop) (i : Nat) (K : Finset Nat) (s : State) (x : Dinode) : Prop where
  log : logCap sb ≤ demand sb i K s.lh s.disk x → F (.panic "too big a transaction")
  blocks : (freeBlocks sb s.disk).card < (missing s.disk x K).card →
    F (.panic "balloc: out of blocks")

/-- What filling places of `K` costs. -/
structure Spent (i : Nat) (K : Finset Nat) (s : State) (x : Dinode) (s' : State) (x' : Dinode) :
    Prop where
  log : demand sb i K s'.lh s'.disk x' ≤ demand sb i K s.lh s.disk x
  blocks : (freeBlocks sb s'.disk).card + (missing s.disk x K).card =
    (freeBlocks sb s.disk).card + (missing s'.disk x' K).card

end

variable {sb : Superblock} {F : Stop → Prop} {i k : Nat} {K : Finset Nat} {s s' s'' : State}
  {d : Disk} {x x' x'' : Dinode} {lh : List Nat}

theorem mem_freeBlocks {b : Nat} : b ∈ freeBlocks sb d ↔ b < sb.size ∧ used sb d b = false := by
  simp [freeBlocks]

theorem mem_missing : k ∈ missing d x K ↔ k ∈ K ∧ blockRef d x k = 0 := by simp [missing]

theorem bitmap_charged {b : Nat} (hb : b < sb.size) : bblock sb b ∈ charged sb i K d x := by
  refine Finset.mem_union_left _ (Finset.mem_insert_of_mem ?_)
  exact Finset.mem_image_of_mem _ (Finset.mem_range.mpr hb)

theorem iblock_charged : iblock sb i ∈ charged sb i K d x :=
  Finset.mem_union_left _ (Finset.mem_insert_self _ _)

theorem ref_charged (hk : k ∈ K) (h0 : blockRef d x k ≠ 0) : blockRef d x k ∈ charged sb i K d x :=
  Finset.mem_union_right _ (Finset.mem_image_of_mem _ (Finset.mem_filter.mpr ⟨hk, h0⟩))

theorem place_mem_placesOf (bn : Nat) : place bn ∈ placesOf bn := by
  unfold place placesOf
  split <;> simp

theorem table_mem_placesOf {bn : Nat} (h : ¬ bn < ndirect) : 12 ∈ placesOf bn := by
  rw [placesOf, if_neg h]
  simp

theorem mem_span {off n bn : Nat} : bn ∈ span off n ↔
    0 < n ∧ off / bsize ≤ bn ∧ bn ≤ (off + n - 1) / bsize := by
  unfold span
  split
  · rename_i h0
    simp [h0]
  · rename_i h0
    simp [Nat.pos_of_ne_zero h0]

/-- The log is no longer than what is demanded. -/
theorem length_le_demand : lh.length ≤ demand sb i K lh d x :=
  Nat.le_trans length_le_after (Nat.le_add_right _ _)

/-! ## How much is demanded -/

/-- Counting every place as a block of its own. -/
theorem demand_le : demand sb i K lh d x ≤ lh.length + ((bitmaps sb).card + 1 + K.card) := by
  have hcharged : (charged sb i K d x).card ≤
      (bitmaps sb).card + 1 + (K.filter (blockRef d x · ≠ 0)).card :=
    (Finset.card_union_le _ _).trans (Nat.add_le_add (Finset.card_insert_le _ _) Finset.card_image_le)
  have hsplit : (missing d x K).card + (K.filter (blockRef d x · ≠ 0)).card = K.card :=
    Finset.card_filter_add_card_filter_not _
  have hafter : after lh (charged sb i K d x) ≤ lh.length + (charged sb i K d x).card := after_le
  rw [demand]
  omega

/-- A disk of at most 4096 blocks has one bitmap block. -/
theorem card_bitmaps_le (h : sb.size ≤ bpb) : (bitmaps sb).card ≤ 1 := by
  have hsub : bitmaps sb ⊆ {sb.bmapstart} := by
    intro c hc
    obtain ⟨b, hb, rfl⟩ := Finset.mem_image.mp hc
    have hb : b < bpb := lt_of_lt_of_le (Finset.mem_range.mp hb) h
    rw [bblock, Nat.div_eq_of_lt hb, Nat.zero_add]
    exact Finset.mem_singleton_self _
  exact (Finset.card_le_card hsub).trans (Finset.card_singleton _).le

/-- The places of a range are its blocks and perhaps the table. -/
theorem card_places_le (off n : Nat) : (places off n).card ≤ (span off n).card + 1 := by
  have hsub : places off n ⊆ insert 12 ((span off n).image place) := by
    intro k hk
    obtain ⟨bn, hbn, hk⟩ := Finset.mem_biUnion.mp hk
    have hplace : place bn ∈ insert 12 ((span off n).image place) :=
      Finset.mem_insert_of_mem (Finset.mem_image_of_mem _ hbn)
    unfold placesOf at hk
    unfold place at hplace
    split at hk
    · rename_i hlt
      rw [if_pos hlt] at hplace
      rwa [Finset.mem_singleton.mp hk]
    · rename_i hge
      rw [if_neg hge] at hplace
      rcases Finset.mem_insert.mp hk with rfl | hk
      · exact Finset.mem_insert_self _ _
      · rwa [Finset.mem_singleton.mp hk]
  refine (Finset.card_le_card hsub).trans ((Finset.card_insert_le _ _).trans ?_)
  exact Nat.add_le_add_right Finset.card_image_le _

theorem card_span_le (off n : Nat) : (span off n).card ≤ (n + 1022) / bsize := by
  unfold span
  split
  · exact Nat.zero_le _
  · rw [Nat.card_Icc]
    show (off + n - 1) / 512 + 1 - off / 512 ≤ (n + 1022) / 512
    omega

/-- Inside a file without holes no place is missing. -/
theorem missing_places {off n m : Nat} (hfill : ∀ o < m, fileByte d x o ≠ none) (h : off + n ≤ m) :
    missing d x (places off n) = ∅ := by
  refine Finset.filter_eq_empty_iff.mpr fun k hk => ?_
  obtain ⟨bn, hbn, hk⟩ := Finset.mem_biUnion.mp hk
  obtain ⟨hpos, _, hhi⟩ := mem_span.mp hbn
  -- The first byte of the block is inside the file.
  have hbyte : fileByte d x (bn * bsize) ≠ none := by
    refine hfill _ ?_
    have := (Nat.mul_le_mul_right bsize hhi).trans (Nat.div_mul_le_self _ _)
    omega
  have hblock : dataBlock d x bn ≠ 0 := by
    intro h0
    rw [fileByte, Nat.mul_div_cancel _ (by decide : 0 < bsize), if_pos h0] at hbyte
    exact hbyte rfl
  unfold placesOf at hk
  unfold dataBlock place at hblock
  split at hk
  · rename_i hlt
    rw [if_pos hlt] at hblock
    rwa [Finset.mem_singleton.mp hk]
  · rename_i hge
    have hge' : 12 ≤ bn := Nat.le_of_not_lt hge
    rw [if_neg hge] at hblock
    rcases Finset.mem_insert.mp hk with rfl | hk
    · intro h0
      rw [blockRef_of_table_zero (BitVec.eq_of_toNat_eq h0) (by omega)] at hblock
      exact hblock rfl
    · rwa [Finset.mem_singleton.mp hk]

theorem card_missing_le : (missing d x K).card ≤ K.card := Finset.card_filter_le _ _

namespace Spent

theorem refl : Spent sb i K s x s x := ⟨Nat.le_refl _, rfl⟩

theorem trans (h : Spent sb i K s x s' x') (h' : Spent sb i K s' x' s'' x'') :
    Spent sb i K s x s'' x'' := by
  have h1 := h.blocks
  have h2 := h'.blocks
  exact ⟨h'.log.trans h.log, by omega⟩

/-- Charged blocks are logged, and neither places nor the bitmap change. -/
theorem write {bs : List Nat} (hlh : s'.lh = bs.foldl absorb s.lh)
    (hbs : ∀ b ∈ bs, b ∈ charged sb i K s.disk x)
    (hk : ∀ k, blockRef s'.disk x' k = blockRef s.disk x k)
    (hu : ∀ b < sb.size, used sb s'.disk b = used sb s.disk b) : Spent sb i K s x s' x' := by
  have hrefs : blockRef s'.disk x' = blockRef s.disk x := funext hk
  have hmiss : missing s'.disk x' K = missing s.disk x K := by rw [missing, missing, hrefs]
  have hcharged : charged sb i K s'.disk x' = charged sb i K s.disk x := by
    rw [charged, charged, hrefs]
  have hfree : freeBlocks sb s'.disk = freeBlocks sb s.disk := by
    refine Finset.filter_congr fun b hb => ?_
    rw [hu b (Finset.mem_range.mp hb)]
  constructor
  · rw [demand, demand, hcharged, hmiss, hlh, after_foldl hbs]
  · rw [hfree, hmiss]

/-- A block is taken for a missing place. -/
theorem alloc {a : Nat} {bs : List Nat} (hlh : s'.lh = bs.foldl absorb s.lh)
    (hbs : ∀ b ∈ bs, b ∈ insert a (charged sb i K s.disk x)) (hkK : k ∈ K)
    (h0 : blockRef s.disk x k = 0) (ha : a ≠ 0)
    (hk : ∀ k', blockRef s'.disk x' k' = if k' = k then a else blockRef s.disk x k')
    (hs : a < sb.size) (hfree : used sb s.disk a = false)
    (hu : ∀ b < sb.size, used sb s'.disk b = true ↔ b = a ∨ used sb s.disk b = true) :
    Spent sb i K s x s' x' := by
  have hmiss : missing s.disk x K = insert k (missing s'.disk x' K) := by
    ext k'
    simp only [Finset.mem_insert, mem_missing, hk k']
    by_cases hkk : k' = k
    · subst hkk
      simp [hkK, h0]
    · simp [hkk]
  have hnot : k ∉ missing s'.disk x' K := by
    rw [mem_missing, hk k, if_pos rfl]
    exact fun h => ha h.2
  have hblocks : freeBlocks sb s.disk = insert a (freeBlocks sb s'.disk) := by
    ext b
    simp only [Finset.mem_insert, mem_freeBlocks]
    constructor
    · rintro ⟨hb, hbf⟩
      by_cases hba : b = a
      · exact .inl hba
      · refine .inr ⟨hb, ?_⟩
        rw [← Bool.not_eq_true, hu b hb, not_or, Bool.not_eq_true]
        exact ⟨hba, hbf⟩
    · rintro (rfl | ⟨hb, hbf⟩)
      · exact ⟨hs, hfree⟩
      · rw [← Bool.not_eq_true, hu b hb, not_or, Bool.not_eq_true] at hbf
        exact ⟨hb, hbf.2⟩
  have hnota : a ∉ freeBlocks sb s'.disk := by
    rw [mem_freeBlocks, ← Bool.not_eq_true]
    exact fun h => h.2 ((hu a hs).mpr (.inl rfl))
  have hcharged : charged sb i K s'.disk x' ⊆ insert a (charged sb i K s.disk x) := by
    intro b hb
    rw [charged, Finset.mem_union] at hb
    rcases hb with hb | hb
    · exact Finset.mem_insert_of_mem (Finset.mem_union_left _ hb)
    · obtain ⟨k', hk', rfl⟩ := Finset.mem_image.mp hb
      obtain ⟨hkK', hne⟩ := Finset.mem_filter.mp hk'
      rw [hk k'] at hne ⊢
      split
      · exact Finset.mem_insert_self _ _
      · rename_i hkk
        rw [if_neg hkk] at hne
        exact Finset.mem_insert_of_mem (ref_charged hkK' hne)
  constructor
  · calc demand sb i K s'.lh s'.disk x'
        ≤ after s'.lh (insert a (charged sb i K s.disk x)) + (missing s'.disk x' K).card :=
          Nat.add_le_add_right (after_mono hcharged) _
      _ = after s.lh (insert a (charged sb i K s.disk x)) + (missing s'.disk x' K).card := by
          rw [hlh, after_foldl hbs]
      _ ≤ after s.lh (charged sb i K s.disk x) + 1 + (missing s'.disk x' K).card :=
          Nat.add_le_add_right after_insert_le _
      _ = demand sb i K s.lh s.disk x := by
          rw [demand, hmiss, Finset.card_insert_of_notMem hnot]
          omega
  · rw [hblocks, hmiss, Finset.card_insert_of_notMem hnot, Finset.card_insert_of_notMem hnota]
    omega

end Spent

namespace Affords

/-- What was affordable stays so. -/
theorem spent (h : Affords sb F i K s x) (hs : Spent sb i K s x s' x') : Affords sb F i K s' x' := by
  have hb := hs.blocks
  exact ⟨fun hl => h.log (hl.trans hs.log), fun hl => h.blocks (by omega)⟩

/-- The log takes what is charged, and one more block if a place is missing. -/
theorem room (bs : List Nat) (h : Affords sb F i K s x)
    (hbs : ∀ b ∈ bs, b ∈ charged sb i K s.disk x)
    (hfull : logCap sb ≤ (bs.foldl absorb s.lh).length) : F (.panic "too big a transaction") := by
  refine h.log (hfull.trans ?_)
  calc (bs.foldl absorb s.lh).length
      ≤ after (bs.foldl absorb s.lh) (charged sb i K s.disk x) := length_le_after
    _ = after s.lh (charged sb i K s.disk x) := after_foldl hbs
    _ ≤ demand sb i K s.lh s.disk x := Nat.le_add_right _ _

theorem room_missing {bs : List Nat} {a : Nat} (h : Affords sb F i K s x)
    (hbs : ∀ b ∈ bs, b ∈ insert a (charged sb i K s.disk x)) (hk : k ∈ K)
    (h0 : blockRef s.disk x k = 0) (hfull : logCap sb ≤ (bs.foldl absorb s.lh).length) :
    F (.panic "too big a transaction") := by
  have hpos : 0 < (missing s.disk x K).card := Finset.card_pos.mpr ⟨k, mem_missing.mpr ⟨hk, h0⟩⟩
  refine h.log (hfull.trans ?_)
  calc (bs.foldl absorb s.lh).length
      ≤ after (bs.foldl absorb s.lh) (insert a (charged sb i K s.disk x)) := length_le_after
    _ = after s.lh (insert a (charged sb i K s.disk x)) := after_foldl hbs
    _ ≤ after s.lh (charged sb i K s.disk x) + 1 := after_insert_le
    _ ≤ demand sb i K s.lh s.disk x := Nat.add_le_add_left hpos _

/-- A place is missing and nothing is free. -/
theorem no_block (h : Affords sb F i K s x) (hk : k ∈ K) (h0 : blockRef s.disk x k = 0)
    (hfull : ∀ b < sb.size, used sb s.disk b = true) : F (.panic "balloc: out of blocks") := by
  refine h.blocks ?_
  have hnone : freeBlocks sb s.disk = ∅ := by
    refine Finset.filter_eq_empty_iff.mpr fun b hb => ?_
    rw [hfull b (Finset.mem_range.mp hb)]
    exact Bool.noConfusion
  rw [hnone, Finset.card_empty]
  exact Finset.card_pos.mpr ⟨k, mem_missing.mpr ⟨hk, h0⟩⟩

end Affords

end Xv6.Fs
