import Xv6.Fs.Room
import Xv6.Fs.Track

/-!
# What the functions of `fs.c` do to blocks

One specification for each function that works on the blocks of an inode.  `N` are the
inodes with the copy in the cache in place of the inode `i` on the disk, as long as the
copy is ahead.  A function that only runs out of room in the log or on the disk if `F` says
so takes this as a hypothesis, and with `F` false it returns.
-/

namespace Xv6.Fs

open Prog Absorb Function

variable {off o m k : Nat} {s s' : State} {x : Dinode}

/-- Blocks have been written, and `bs` were passed to `log_write`: only the disk and the log
may differ. -/
structure Logged (s : State) (d : Disk) (bs : List Nat) (s' : State) : Prop where
  disk : s'.disk = d
  lh : s'.lh = bs.foldl absorb s.lh
  inode : s'.inode = s.inode
  ops : s'.outstanding = s.outstanding
  file : s'.file = s.file

theorem Logged.trans {s1 s2 : State} {d1 d2 : Disk} {bs cs : List Nat} (h : Logged s d1 bs s1)
    (h' : Logged s1 d2 cs s2) : Logged s d2 (bs ++ cs) s2 where
  disk := h'.disk
  lh := by rw [h'.lh, h.lh, List.foldl_append]
  inode := h'.inode.trans h.inode
  ops := h'.ops.trans h.ops
  file := h'.file.trans h.file

variable {sb : Superblock} {F : Stop → Prop} {N : Nat → Dinode} {i e : Nat}
  {K : Finset Nat}

theorem wp_logWrite (hF : logCap sb ≤ s.lh.length → F (.panic "too big a transaction"))
    (hout : 0 < s.outstanding) (b : Nat) (data : Block) :
    wp (logWrite sb b data) (fun _ s' => Logged s (Function.update s.disk b data) [b] s') F s := by
  simp only [logWrite, panic, wp_bind, wp_get, wp_ite, wp_throw, wp_set]
  split
  · rename_i hfull
    exact hF (min_le_iff.mpr hfull)
  split
  · omega
  · exact ⟨rfl, rfl, rfl, rfl, rfl⟩

/-! ## Taking and freeing a block -/

section

variable (hlog : ∀ b < sb.size, logCap sb ≤ (absorb s.lh (bblock sb b)).length →
    F (.panic "too big a transaction"))
  (hfree : (∀ b < sb.size, used sb s.disk b = true) → F (.panic "balloc: out of blocks"))
include hlog hfree

section

variable (hres : ∀ b < sb.data, used sb s.disk b = true) (hout : 0 < s.outstanding)
include hres hout

theorem wp_ballocLoop
    (fuel b : Nat) (hb : b % bpb = 0) (hend : sb.size ≤ b + fuel * bpb)
    (hused : ∀ c < b, c < sb.size → used sb s.disk c = true) :
    wp (ballocLoop sb fuel b) (fun a s' => sb.data ≤ a ∧ a < sb.size ∧ used sb s.disk a = false ∧
      Logged s (taken sb s.disk a) [bblock sb a, a] s') F s := by
  -- Every block before `b` is in use, so at the end of the loop all of them are.
  induction fuel generalizing b with
  | zero =>
    rw [ballocLoop, panic, wp_throw]
    exact hfree fun c hc => hused c (by omega) hc
  | succ fuel ih =>
    simp only [ballocLoop, bread, panic, wp_bind, wp_get, wp_pure, wp_ite, wp_throw]
    -- The bit `bi` of the bitmap block of `b` is the bit of `b + bi`.
    have hblock : ∀ bi < bpb, bblock sb (b + bi) = bblock sb b := by
      intro bi hlt
      rw [bpb_eq] at hb hlt
      rw [bblock, bblock, bpb_eq]
      omega
    have hmod : ∀ bi < bpb, (b + bi) % bpb = bi := by
      intro bi hlt
      rw [Nat.add_mod, hb, Nat.zero_add, Nat.mod_mod, Nat.mod_eq_of_lt hlt]
    have hbit : ∀ bi < bpb, bit (s.disk (bblock sb b)) bi = used sb s.disk (b + bi) := by
      intro bi hlt
      rw [used, hblock bi hlt, hmod bi hlt]
    split
    · split
      · rename_i bi hbi
        have hfound := List.find?_some hbi
        simp only [Bool.and_eq_true, decide_eq_true_eq, Bool.not_eq_true'] at hfound
        have hlt : bi < bpb := List.mem_range.mp (List.mem_of_find?_eq_some hbi)
        have hunused : used sb s.disk (b + bi) = false := by
          rw [← hbit bi hlt]
          exact hfound.2
        have hdata : sb.data ≤ b + bi := by
          by_contra hlow
          rw [hres _ (by omega)] at hunused
          cases hunused
        have hset : setUsed sb s.disk (b + bi) =
            Function.update s.disk (bblock sb b) (setBit (s.disk (bblock sb b)) bi) := by
          rw [setUsed, hblock bi hlt, hmod bi hlt]
        simp only [bzero, wp_bind, wp_pure]
        refine wp_post (wp_logWrite (fun hcap => ?_) hout _ _) fun _ s1 h1 => ?_
        · exact hlog _ hfound.1 (hcap.trans length_le_absorb)
        refine wp_post (wp_logWrite (fun hcap => ?_) (by rw [h1.ops]; exact hout) _ _) fun _ s2 h2 => ?_
        · refine hlog _ hfound.1 ?_
          rw [h1.lh] at hcap
          rw [hblock bi hlt]
          exact hcap
        have h12 := h1.trans h2
        rw [h1.disk, ← hset, ← hblock bi hlt] at h12
        exact ⟨hdata, hfound.1, hunused, h12⟩
      · rename_i hnone
        refine ih _ (by rw [Nat.add_mod_right, hb]) (by rw [Nat.add_mul, Nat.one_mul] at hend; omega) ?_
        intro c hc hcs
        by_cases hlow : c < b
        · exact hused c hlow hcs
        · have hcbit := List.find?_eq_none.mp hnone (c - b) (List.mem_range.mpr (by omega))
          rw [hbit _ (by omega), Nat.add_sub_cancel' (Nat.le_of_not_lt hlow)] at hcbit
          simpa [hcs] using hcbit
    · exact hfree fun c hc => hused c (by omega) hc

theorem wp_balloc :
    wp (balloc sb) (fun a s' => sb.data ≤ a ∧ a < sb.size ∧ used sb s.disk a = false ∧
      Logged s (taken sb s.disk a) [bblock sb a, a] s') F s := by
  refine wp_ballocLoop hlog hfree hres hout _ _ (Nat.zero_mod _) ?_ fun c hc => absurd hc (Nat.not_lt_zero c)
  have hpos : 1 ≤ bpb := by rw [bpb_eq]; decide
  exact (Nat.le_mul_of_pos_right sb.size hpos).trans (Nat.le_add_left _ _)

end

end

section

variable (hF : logCap sb ≤ s.lh.length → F (.panic "too big a transaction"))
include hF

theorem wp_iupdate (hout : 0 < s.outstanding) : wp (iupdate sb e)
    (fun _ s' => Logged s (putDinode sb s.disk (s.inode e).inum (s.inode e).di)
      [iblock sb (s.inode e).inum] s') F s := by
  simp only [iupdate, getInode, bread, wp_bind, wp_get, wp_pure]
  exact wp_logWrite hF hout _ _

end

section

variable (hF : ∀ e, Harmless e → F e)
include hF

end

/-! ## An inode changes -/

/-- The blocks of inode `i` have changed, and its copy in the cache is `x` now.  The inodes on
the disk and the bytes of the other inodes are as before. -/
structure Changed (sb : Superblock) (N : Nat → Dinode) (i : Nat) (d : Disk) (pend : Set Nat)
    (x : Dinode) (d' : Disk) : Prop where
  fine : Fine sb (Function.update N i x) d' pend
  attrs : { x with addrs := (N i).addrs } = N i
  inodes : ∀ j < sb.ninodes, dinodeAt sb d' j = dinodeAt sb d j
  other : ∀ j < sb.ninodes, j ≠ i → (N j).type ≠ 0#16 → ∀ o, fileByte d' (N j) o = fileByte d (N j) o

namespace Changed

variable {d d' d'' : Disk} {pend pend' : Set Nat} {x' : Dinode}

theorem refl (h : Fine sb N d pend) : Changed sb N i d pend (N i) d where
  fine := by rwa [update_eq_self]
  attrs := rfl
  inodes _ _ := rfl
  other _ _ _ _ _ := rfl

theorem type (h : Changed sb N i d pend x d') : x.type = (N i).type := by
  rw [← h.attrs]

theorem trans (h : Changed sb N i d pend x d')
    (h' : Changed sb (Function.update N i x) i d' pend' x' d'') : Changed sb N i d pend' x' d'' where
  fine := by
    have := h'.fine
    rwa [update_idem] at this
  attrs := by
    have := h'.attrs
    rw [update_self] at this
    rw [← h.attrs, ← this]
  inodes j hj := (h'.inodes j hj).trans (h.inodes j hj)
  other j hj hji ht o := by
    have := h'.other j hj hji (by rwa [update_of_ne hji]) o
    rw [update_of_ne hji] at this
    exact this.trans (h.other j hj hji ht o)

end Changed

/-! ## The place of a taken block -/

namespace Fine

variable {d : Disk} {b : Nat} {j : Fin 13}

section

variable (hL : Layout sb) (h : Fine sb N d ∅) (hi : i < sb.ninodes) (ht : (N i).type ≠ 0#16)
  (hs : b < sb.size) (hfree : used sb d b = false)
include hL h hi ht hs hfree

theorem refs_taken (k : Nat) : blockRef (taken sb d b) (N i) k = blockRef d (N i) k :=
  blockRef_congr (h.taken_ref hL hs hfree hi ht) k

/-- The block's number goes into one of the 13 addresses. -/
theorem refs_direct (h0 : (N i).addrs j = 0#32) (k : Nat) :
    blockRef (taken sb d b) (withAddr (N i) j b) k = if k = j then b else blockRef d (N i) k := by
  have hlt : b < 2 ^ 32 := by have := hL.size; omega
  rw [blockRef_withAddr (fun _ => h0) hlt (fun _ => taken_self), h.refs_taken hL hi ht hs hfree]

/-- The block's number goes into the table. -/
theorem refs_listed (hm : m < nindirect) (htab : (N i).addrs 12 ≠ 0#32) (k : Nat) :
    blockRef (withListed (taken sb d b) (N i) m b) (N i) k =
      if k = 13 + m then b else blockRef d (N i) k := by
  have hlt : b < 2 ^ 32 := by have := hL.size; omega
  rw [blockRef_withListed htab hm hlt, h.refs_taken hL hi ht hs hfree]

end

/-- The table is a data block. -/
theorem table_data (h : Fine sb N d ∅) (hi : i < sb.ninodes) (ht : (N i).type ≠ 0#16)
    (htab : (N i).addrs 12 ≠ 0#32) : sb.data ≤ ((N i).addrs 12).toNat ∧
      ((N i).addrs 12).toNat < sb.size := by
  have h12 : blockRef d (N i) 12 ≠ 0 := by
    rw [blockRef_table]
    intro hz
    exact htab (BitVec.eq_of_toNat_eq hz)
  obtain ⟨hdata, hsize, _⟩ := h.inUse hi ht h12
  exact ⟨hdata, hsize⟩

theorem used_listed (hL : Layout sb) (h : Fine sb N d ∅) (hi : i < sb.ninodes)
    (ht : (N i).type ≠ 0#16) (htab : (N i).addrs 12 ≠ 0#32) (hb : sb.data ≤ b) {c : Nat}
    (hc : c < sb.size) : used sb (withListed (taken sb d b) (N i) m b) c = true ↔
      c = b ∨ used sb d c = true := by
  rw [withListed, hL.used_data hc (h.table_data hi ht htab).1, used_taken hL hb hc]

end Fine

/-! ## An inode grows -/

/-- The inode `i` has got blocks in places that were empty, and has kept its bytes. -/
structure Grown (sb : Superblock) (N : Nat → Dinode) (i : Nat) (d : Disk) (x : Dinode) (d' : Disk) :
    Prop extends Changed sb N i d ∅ x d' where
  keep : ∀ k, blockRef d (N i) k ≠ 0 → blockRef d' x k = blockRef d (N i) k
  bytes : ∀ n, dataBlock d (N i) n ≠ 0 → d' (dataBlock d (N i) n) = d (dataBlock d (N i) n)

namespace Grown

variable {d d' d'' : Disk} {x' : Dinode} {b : Nat}

theorem refl (h : Fine sb N d ∅) : Grown sb N i d (N i) d where
  toChanged := .refl h
  keep _ _ := rfl
  bytes _ _ := rfl

theorem trans (h : Grown sb N i d x d') (h' : Grown sb (Function.update N i x) i d' x' d'') :
    Grown sb N i d x' d'' where
  toChanged := h.toChanged.trans h'.toChanged
  keep k hk := by
    have h1 := h.keep k hk
    have h2 := h'.keep k (by rwa [update_self, h1])
    rw [update_self] at h2
    exact h2.trans h1
  bytes n hn := by
    have h1 : dataBlock d' x n = dataBlock d (N i) n := h.keep _ hn
    have h2 := h'.bytes n (by rwa [update_self, h1])
    rw [update_self, h1] at h2
    exact h2.trans (h.bytes n hn)

section

variable (hL : Layout sb) (h : Fine sb N d ∅) (hi : i < sb.ninodes) (ht : (N i).type ≠ 0#16)
  (hb : sb.data ≤ b) (hs : b < sb.size) (hfree : used sb d b = false)
include hL h hi ht hb hs hfree

/-- A block is taken and its number goes into one of the 13 addresses. -/
theorem direct {j : Fin 13} (h0 : (N i).addrs j = 0#32) :
    Grown sb N i d (withAddr (N i) j b) (taken sb d b) := by
  have hb0 : b ≠ 0 := by have := hL.bits b hs; omega
  have hplace := h.refs_taken hL hi ht hs hfree
  have hk := h.refs_direct hL hi ht hs hfree h0
  have hj0 : blockRef d (N i) j = 0 := by rw [blockRef_direct, h0]; rfl
  have hfine : Fine sb N (taken sb d b) {b} := by
    have := h.alloc hL hb hs hfree
    rwa [insert_empty_eq] at this
  refine ⟨⟨?_, rfl, fun l hl => dinodeAt_taken hL hb hs hl, ?_⟩, ?_, ?_⟩
  · refine hfine.record (k := j) hi ht rfl ?_ hb0 ?_ (fun _ _ _ _ _ => rfl) fun _ _ => rfl
    · rw [hplace, hj0]
    · intro k
      rw [hk, hplace]
  · exact fun l hl _ hu o => fileByte_congr (fun _ hk' => h.taken_ref hL hs hfree hl hu hk') o
  · intro k hne
    rw [hk, if_neg]
    rintro rfl
    exact hne hj0
  · exact fun n hn => h.taken_ref hL hs hfree hi ht hn

/-- A block is taken and its number goes into the table. -/
theorem listed (hm : m < nindirect) (htab : (N i).addrs 12 ≠ 0#32)
    (h0 : word (d ((N i).addrs 12).toNat) m = 0#32) :
    Grown sb N i d (N i) (withListed (taken sb d b) (N i) m b) := by
  have hb0 : b ≠ 0 := by have := hL.bits b hs; omega
  have h12 : blockRef d (N i) 12 ≠ 0 := by
    rw [blockRef_table]
    intro hz
    exact htab (BitVec.eq_of_toNat_eq hz)
  obtain ⟨hdata, hsize⟩ := h.table_data hi ht htab
  have hz : blockRef d (N i) (13 + m) = 0 := by rw [blockRef_listed htab hm, h0]; rfl
  have hk := h.refs_listed hL hi ht hs hfree hm htab
  -- The table stands in no other place.
  have hother : ∀ l < sb.ninodes, (N l).type ≠ 0#16 → ∀ k, blockRef d (N l) k ≠ 0 →
      (l, k) ≠ (i, 12) →
      withListed (taken sb d b) (N i) m b (blockRef d (N l) k) = d (blockRef d (N l) k) := by
    intro l hl hu k hne hlk
    rw [withListed, update_of_ne, h.taken_ref hL hs hfree hl hu hne]
    intro he
    obtain ⟨rfl, rfl⟩ := h.place_eq hi ht hl hu h12 he
    exact hlk rfl
  have hfine : Fine sb N (taken sb d b) {b} := by
    have := h.alloc hL hb hs hfree
    rwa [insert_empty_eq] at this
  refine ⟨⟨?_, rfl, ?_, ?_⟩, ?_, ?_⟩
  · refine hfine.record (k := 13 + m) hi ht rfl ?_ hb0 ?_ ?_ ?_
    · rw [h.refs_taken hL hi ht hs hfree, hz]
    · intro k
      rw [hk, h.refs_taken hL hi ht hs hfree]
    · intro l hl hli hu k
      rw [h.refs_taken hL hl hu hs hfree]
      exact blockRef_congr (fun h12 => hother l hl hu 12 h12 fun he => hli (Prod.mk.inj he).1) k
    · intro c hc
      exact hL.used_data hc hdata
  · intro l hl
    rw [withListed, hL.dinodeAt_data hl hdata hsize, dinodeAt_taken hL hb hs hl]
  · intro l hl hli hu o
    exact fileByte_congr (fun k hne => hother l hl hu k hne fun he => hli (Prod.mk.inj he).1) o
  · intro k hne
    rw [hk, if_neg]
    rintro rfl
    exact hne hz
  · exact fun n hn => hother i hi ht _ hn fun he => place_ne_table n (Prod.mk.inj he).2

end

/-- Bytes that were there are there. -/
theorem fileByte_old (h : Grown sb N i d x d') {c : Byte} (ho : fileByte d (N i) o = some c) :
    fileByte d' x o = some c := by
  unfold fileByte at ho
  split at ho
  · cases ho
  rename_i hne
  have heq : dataBlock d' x (o / bsize) = dataBlock d (N i) (o / bsize) := h.keep _ hne
  rw [fileByte, heq, if_neg hne, h.bytes _ hne]
  exact ho

end Grown

/-! ## `bmap` -/

/-- The copy of an inode in the cache has changed, and perhaps the disk. -/
structure Recached (s : State) (e : Nat) (x : Dinode) (s' : State) : Prop where
  inode : s'.inode = Function.update s.inode e { s.inode e with di := x }
  ops : s'.outstanding = s.outstanding
  file : s'.file = s.file

theorem Recached.self (s : State) (e : Nat) : Recached s e (s.inode e).di s :=
  ⟨(update_eq_self _ _).symm, rfl, rfl⟩

theorem Recached.di (h : Recached s e x s') : (s'.inode e).di = x := by
  rw [h.inode, update_self]

theorem Recached.trans {s'' : State} {x' : Dinode} (h : Recached s e x s')
    (h' : Recached s' e x' s'') : Recached s e x' s'' := by
  refine ⟨?_, h'.ops.trans h.ops, h'.file.trans h.file⟩
  rw [h'.inode, h.inode, update_idem, update_self]

theorem Logged.recached {s'' : State} {d : Disk} {bs : List Nat} (h : Recached s e x s')
    (h' : Logged s' d bs s'') : Recached s e x s'' :=
  ⟨h'.inode.trans h.inode, h'.ops.trans h.ops, h'.file.trans h.file⟩

/-- If the block is there, `bmap` returns it and changes nothing. -/
theorem wp_bmap_hit {bn : Nat} (hbn : dataBlock s.disk (s.inode e).di bn ≠ 0) :
    wp (bmap sb e bn) (fun a s' => a = dataBlock s.disk (s.inode e).di bn ∧ s' = s) F s := by
  unfold bmap
  split
  · rename_i hlt
    have hval : dataBlock s.disk (s.inode e).di bn =
        ((s.inode e).di.addrs ⟨bn, Nat.lt_succ_of_lt hlt⟩).toNat := by
      rw [dataBlock, place, if_pos hlt]
      exact blockRef_direct ⟨bn, Nat.lt_succ_of_lt hlt⟩
    have hne : (s.inode e).di.addrs ⟨bn, Nat.lt_succ_of_lt hlt⟩ ≠ 0#32 := by
      intro h0
      rw [hval, h0] at hbn
      exact hbn rfl
    simp only [mapAddr, getInode, wp_bind, wp_get, wp_pure, wp_ite, if_neg hne]
    exact ⟨hval.symm, trivial⟩
  · rename_i hge
    have hge' : ¬ bn < 12 := hge
    have hp : dataBlock s.disk (s.inode e).di bn = blockRef s.disk (s.inode e).di (13 + (bn - 12)) := by
      rw [dataBlock, place, if_neg hge]
      congr 1
      omega
    have htab : (s.inode e).di.addrs 12 ≠ 0#32 := by
      intro h0
      rw [hp, blockRef_of_table_zero h0 (by omega)] at hbn
      exact hbn rfl
    have hm : bn - ndirect < nindirect := by
      show bn - 12 < 128
      by_contra hge2
      rw [hp, blockRef_past (by omega)] at hbn
      exact hbn rfl
    have hval : dataBlock s.disk (s.inode e).di bn =
        (word (s.disk ((s.inode e).di.addrs 12).toNat) (bn - ndirect)).toNat := by
      rw [hp]
      exact blockRef_listed htab hm
    have hne : word (s.disk ((s.inode e).di.addrs 12).toNat) (bn - ndirect) ≠ 0#32 := by
      intro h0
      rw [hval, h0] at hbn
      exact hbn rfl
    simp only [mapAddr, getInode, bread, wp_bind, wp_get, wp_pure, wp_ite, if_pos hm, if_neg htab,
      if_neg hne]
    exact ⟨hval.symm, trivial⟩

section

variable (hL : Layout sb) (hi : i < sb.ninodes)
include hL hi

section

variable (h : Fine sb N s.disk ∅) (ht : (N i).type ≠ 0#16) (hN : (s.inode e).di = N i)
  (hout : 0 < s.outstanding) (hA : Affords sb F i K s (N i))
include h ht hN hout hA

theorem wp_mapAddr (j : Fin 13) (hj : (j : Nat) ∈ K) :
    wp (mapAddr sb e j) (fun a s' => ∃ x, Recached s e x s' ∧ Grown sb N i s.disk x s'.disk ∧
      (blockRef s'.disk x j = a ∧ a ≠ 0) ∧ Spent sb i K s (N i) s' x) F s := by
  simp only [mapAddr, getInode, wp_bind, wp_get, wp_pure, wp_ite, hN]
  split
  · rename_i h0
    have hj0 : blockRef s.disk (N i) j = 0 := by rw [blockRef_direct, h0]; rfl
    refine wp_post (wp_balloc (fun b hb hcap => ?_) (hA.no_block hj hj0) h.reserved hout) ?_
    · exact hA.room [bblock sb b] (by simpa using bitmap_charged hb) hcap
    rintro b s1 ⟨hb, hs, hfree, hlog⟩
    simp only [setAddr, setDi, setInode, wp_modify]
    have hlt : b < 2 ^ 32 := by have := hL.size; omega
    have hb0 : b ≠ 0 := by have := hL.bits b hs; omega
    refine ⟨withAddr (N i) j b, ⟨?_, hlog.ops, hlog.file⟩, ?_, ⟨?_, hb0⟩, ?_⟩
    · rw [hlog.inode, ← hN]
      rfl
    · show Grown sb N i s.disk _ s1.disk
      rw [hlog.disk]
      exact .direct hL h hi ht hb hs hfree h0
    · rw [blockRef_direct, withAddr_self, toNat_ofNat hlt]
    · refine .alloc (k := j) (a := b) hlog.lh ?_ hj hj0 hb0 (fun k => ?_) hs hfree fun c hc => ?_
      · simpa using Or.inr (bitmap_charged hs)
      · show blockRef s1.disk _ k = _
        rw [hlog.disk, h.refs_direct hL hi ht hs hfree h0]
      · show used sb s1.disk c = true ↔ _
        rw [hlog.disk, used_taken hL hb hc]
  · rename_i hne
    refine ⟨N i, hN ▸ Recached.self s e, .refl h, ⟨blockRef_direct j, ?_⟩, .refl⟩
    intro h0
    exact hne (BitVec.eq_of_toNat_eq h0)

/-- `bmap` finds or makes the block, and makes at most the table besides. -/
theorem wp_bmap {bn : Nat} (hbn : bn < maxfile)
    (hK : placesOf bn ⊆ K) :
    wp (bmap sb e bn) (fun a s' => ∃ x, Recached s e x s' ∧
      Grown sb N i s.disk x s'.disk ∧ (dataBlock s'.disk x bn = a ∧ a ≠ 0) ∧
      (dataBlock s.disk (N i) bn ≠ 0 → x = N i) ∧ Spent sb i K s (N i) s' x) F s := by
  by_cases hhit : dataBlock s.disk (N i) bn ≠ 0
  · refine wp_post (wp_bmap_hit (by rwa [hN])) ?_
    rintro _ _ ⟨rfl, rfl⟩
    rw [hN]
    exact ⟨N i, hN ▸ Recached.self _ e, .refl h, ⟨rfl, hhit⟩, fun _ => rfl, .refl⟩
  have hmem : place bn ∈ K := hK (place_mem_placesOf bn)
  unfold bmap
  split
  · rename_i hlt
    have hplace : place bn = bn := if_pos hlt
    refine wp_post (wp_mapAddr hL hi h ht hN hout hA ⟨bn, Nat.lt_succ_of_lt hlt⟩
      (by rwa [hplace] at hmem)) ?_
    rintro a s1 ⟨x, hr, hg, ⟨ha, ha0⟩, hspent⟩
    refine ⟨x, hr, hg, ⟨?_, ha0⟩, fun hne => absurd hne hhit, hspent⟩
    rw [dataBlock, hplace]
    exact ha
  · rename_i hge
    have hge' : ¬ bn < 12 := hge
    have htabK : 12 ∈ K := hK (table_mem_placesOf hge)
    have hplace : place bn = 13 + (bn - ndirect) := by
      rw [place, if_neg hge]
      show bn + 1 = 13 + (bn - 12)
      omega
    have hm : bn - ndirect < nindirect := by
      have hbn : bn < 140 := hbn
      show bn - 12 < 128
      omega
    simp only [bread, wp_bind, wp_get, wp_pure, wp_ite, if_pos hm]
    refine wp_post (wp_mapAddr hL hi h ht hN hout hA 12 htabK) ?_
    rintro t s1 ⟨x, hr, hg, ⟨htab, ht0⟩, hspent⟩
    have hA1 := hA.spent hspent
    have hxtab : (x.addrs 12).toNat = t := htab
    have hxne : x.addrs 12 ≠ 0#32 := by
      intro h0
      rw [h0] at hxtab
      exact ht0 hxtab.symm
    have hself : Function.update N i x i = x := update_self _ _ _
    have htype : (Function.update N i x i).type ≠ 0#16 := by
      rw [hself, hg.type]
      exact ht
    have hlisted : blockRef s1.disk x (13 + (bn - ndirect)) = (word (s1.disk t) (bn - ndirect)).toNat := by
      rw [blockRef_listed hxne hm, hxtab]
    have hcharged : t ∈ charged sb i K s1.disk x := by
      have hmem : blockRef s1.disk x 12 ∈ charged sb i K s1.disk x :=
        ref_charged htabK (show blockRef s1.disk x 12 ≠ 0 by rwa [← htab] at ht0)
      rwa [show blockRef s1.disk x 12 = t from htab] at hmem
    split
    · rename_i h0
      have hz : blockRef s1.disk x (13 + (bn - ndirect)) = 0 := by rw [hlisted, h0]; rfl
      have hlK : 13 + (bn - ndirect) ∈ K := hplace ▸ hmem
      refine wp_post (wp_balloc (fun b hb hcap => ?_) (hA1.no_block hlK hz) hg.fine.reserved
        (by rw [hr.ops]; exact hout)) ?_
      · exact hA1.room [bblock sb b] (by simpa using bitmap_charged hb) hcap
      rintro b s2 ⟨hb, hs, hfree, hlog⟩
      refine wp_post (wp_logWrite (fun hcap => ?_) (by rw [hlog.ops, hr.ops]; exact hout) _ _)
        fun _ s3 hlog3 => ?_
      · rw [hlog.lh] at hcap
        exact hA1.room_missing (a := b) (by simpa using Or.inr (bitmap_charged hs)) hlK hz hcap
      have hlt : b < 2 ^ 32 := by have := hL.size; omega
      have hb0 : b ≠ 0 := by have := hL.bits b hs; omega
      have hgl := Grown.listed hL hg.fine hi htype hb hs hfree hm
        (by rwa [hself]) (by rwa [hself, hxtab])
      have hrefs := hg.fine.refs_listed hL hi htype hs hfree hm (by rwa [hself])
      have hused := fun c => hg.fine.used_listed (c := c) (m := bn - ndirect) hL hi htype
        (by rwa [hself]) hb
      rw [hself] at hgl hrefs hused
      -- The table was read before the block was taken, and has not changed since.
      have hdisk : s3.disk = withListed (taken sb s1.disk b) x (bn - ndirect) b := by
        have hsame := hg.fine.taken_ref (k := 12) hL hs hfree hi htype
          (by rw [hself, blockRef_table, hxtab]; exact ht0)
        rw [hself, blockRef_table, hxtab] at hsame
        rw [hlog3.disk, hlog.disk, withListed, hxtab, hsame]
      refine ⟨x, hlog3.recached (hlog.recached hr), ?_, ⟨?_, hb0⟩, fun hne => absurd hne hhit,
        hspent.trans ?_⟩
      · rw [hdisk]
        exact hg.trans hgl
      · rw [dataBlock, hplace, hdisk, hrefs, if_pos rfl]
      · refine .alloc (a := b) (hlog.trans hlog3).lh ?_ hlK hz hb0 (fun k => ?_) hs hfree fun c hc => ?_
        · simpa using ⟨Or.inr (bitmap_charged hs), Or.inr hcharged⟩
        · rw [hdisk, hrefs]
        · rw [hdisk]
          exact hused c hc
    · rename_i hne
      refine ⟨x, hr, hg, ⟨?_, fun h0 => hne (BitVec.eq_of_toNat_eq h0)⟩,
        fun hne => absurd hne hhit, hspent⟩
      rw [dataBlock, hplace, hlisted]

end

end

/-! ## Reading -/

/-- The bytes of a file from `off` on. -/
def fileBytes (d : Disk) (x : Dinode) (off n : Nat) : List Byte :=
  (List.range n).map fun k => (fileByte d x (off + k)).getD 0#8

/-- Offsets of one block. -/
theorem add_div_bsize (hk : k < bsize - off % bsize) : (off + k) / bsize = off / bsize := by
  rw [show bsize = 512 from rfl] at *
  omega

theorem add_mod_bsize (hk : k < bsize - off % bsize) : (off + k) % bsize = off % bsize + k := by
  rw [show bsize = 512 from rfl] at *
  omega

theorem bsize_sub_pos (off : Nat) : 0 < bsize - off % bsize :=
  Nat.sub_pos_of_lt (Nat.mod_lt _ (by decide))

/-- Where there is no hole, `readi`'s loop returns the bytes and changes nothing. -/
theorem wp_readLoop (fuel off n : Nat) (hn : n ≤ fuel)
    (hole : ∀ k < n, fileByte s.disk (s.inode e).di (off + k) ≠ none) :
    wp (readLoop sb e fuel off n)
      (fun bs s' => bs = fileBytes s.disk (s.inode e).di off n ∧ s' = s) F s := by
  induction fuel generalizing off n with
  | zero =>
    obtain rfl : n = 0 := by omega
    rw [readLoop, wp_pure]
    exact ⟨rfl, rfl⟩
  | succ fuel ih =>
    simp only [readLoop, wp_ite, wp_pure]
    split
    · rename_i h0
      subst h0
      exact ⟨rfl, trivial⟩
    rename_i hpos
    have hblk : dataBlock s.disk (s.inode e).di (off / bsize) ≠ 0 := by
      intro h0
      have := hole 0 (by omega)
      rw [Nat.add_zero, fileByte, if_pos h0] at this
      exact this rfl
    simp only [bread, wp_bind, wp_get, wp_pure]
    refine wp_post (wp_bmap_hit hblk) ?_
    rintro _ _ ⟨rfl, rfl⟩
    have hroom := bsize_sub_pos off
    -- The bytes of this round lie in one block.
    obtain ⟨m, hm⟩ : ∃ m, m = min n (bsize - off % bsize) := ⟨_, rfl⟩
    rw [← hm]
    refine wp_post (ih (off + m) (n - m) (by omega) fun k hk => ?_) ?_
    · have := hole (m + k) (by omega)
      rwa [← Nat.add_assoc] at this
    rintro rest _ ⟨rfl, rfl⟩
    refine ⟨?_, rfl⟩
    have hsplit : n = m + (n - m) := by omega
    conv_rhs => rw [fileBytes, hsplit, List.range_add, List.map_append, List.map_map]
    congr 1
    · refine List.map_congr_left fun k hk => ?_
      have hk : k < bsize - off % bsize := by have := List.mem_range.mp hk; omega
      rw [fileByte, add_div_bsize hk, if_neg hblk, add_mod_bsize hk]
      rfl
    · refine List.map_congr_left fun k _ => ?_
      rw [Function.comp, Nat.add_assoc]

/-! ## Writing -/

/-- The bytes `src` have been written at `off`. -/
structure Wrote (sb : Superblock) (N : Nat → Dinode) (i : Nat) (d : Disk) (off : Nat)
    (src : List Byte) (x : Dinode) (d' : Disk) : Prop extends Changed sb N i d ∅ x d' where
  inside : ∀ k < src.length, fileByte d' x (off + k) = src[k]?
  outside : ∀ o c, o < off ∨ off + src.length ≤ o → fileByte d (N i) o = some c →
    fileByte d' x o = some c
  keep : ∀ k, blockRef d (N i) k ≠ 0 → blockRef d' x k = blockRef d (N i) k

theorem splice_inside {blk : Block} {bs : List Byte} (hk : k < bs.length) :
    some (splice blk o bs (o + k)) = bs[k]? := by
  rw [splice, if_pos ⟨by omega, by omega⟩, Nat.add_sub_cancel_left, List.getD_eq_getElem?_getD,
    List.getElem?_eq_getElem hk]
  rfl

theorem splice_outside {blk : Block} {l : Nat} {bs : List Byte} (hl : l < o ∨ o + bs.length ≤ l) :
    splice blk o bs l = blk l := by
  rw [splice, if_neg (by omega)]

/-- One round of the loop of `writei`, and the rest. -/
theorem Wrote.round {d d1 d2 : Disk} {x1 x2 : Dinode} {src : List Byte} (hL : Layout sb)
    (hi : i < sb.ninodes) (ht : (N i).type ≠ 0#16)
    (hg : Grown sb N i d x1 d1) (hblk : dataBlock d1 x1 (off / bsize) ≠ 0)
    (hm : m = min src.length (bsize - off % bsize))
    (hw : Wrote sb (Function.update N i x1) i (Function.update d1 (dataBlock d1 x1 (off / bsize))
      (splice (d1 (dataBlock d1 x1 (off / bsize))) (off % bsize) (src.take m))) (off + m) (src.drop m)
      x2 d2) : Wrote sb N i d off src x2 d2 := by
  have hroom := bsize_sub_pos off
  have hlen : (src.take m).length = m := by rw [List.length_take]; omega
  have hdrop : (src.drop m).length = src.length - m := List.length_drop
  have ht1 : (Function.update N i x1 i).type ≠ 0#16 := by
    rw [update_self, hg.type]
    exact ht
  have hblk1 : dataBlock d1 (Function.update N i x1 i) (off / bsize) ≠ 0 := by
    rwa [update_self]
  -- What the round does to the bytes of the inode, and of the others.
  have hself := hg.fine.write_self hi ht1 hblk1
    (splice (d1 (dataBlock d1 x1 (off / bsize))) (off % bsize) (src.take m))
  have hother : ∀ j < sb.ninodes, j ≠ i → (N j).type ≠ 0#16 → ∀ o, fileByte (Function.update d1
      (dataBlock d1 x1 (off / bsize)) (splice (d1 (dataBlock d1 x1 (off / bsize))) (off % bsize)
        (src.take m))) (N j) o = fileByte d1 (N j) o := by
    intro j hj hji hu o
    have := hg.fine.write_other hi ht1 hblk1 (splice (d1 (dataBlock d1 x1 (off / bsize))) (off % bsize)
      (src.take m)) hj (by rwa [update_of_ne hji]) hji o
    rwa [update_self, update_of_ne hji] at this
  obtain ⟨hdata, hsize, _⟩ := hg.fine.inUse hi ht1 hblk1
  have hdata : sb.data ≤ dataBlock d1 x1 (off / bsize) := by rwa [update_self] at hdata
  have hsize : dataBlock d1 x1 (off / bsize) < sb.size := by rwa [update_self] at hsize
  have hwfine := hw.fine
  have hwattrs := hw.attrs
  have hwout := hw.outside
  simp only [update_self, update_idem] at hself hwfine hwattrs hwout
  have hwkeep := hw.keep
  have hplaces := fun k => hg.fine.write_places (k := k) hi ht1 hblk1
    (splice (d1 (dataBlock d1 x1 (off / bsize))) (off % bsize) (src.take m)) hi ht1
  simp only [update_self] at hwkeep hplaces
  refine ⟨⟨hwfine, ?_, ?_, ?_⟩, ?_, ?_, ?_⟩
  · rw [← hg.attrs, ← hwattrs]
  · intro j hj
    rw [hw.inodes j hj, hL.dinodeAt_data hj hdata hsize, hg.inodes j hj]
  · intro j hj hji hu o
    have := hw.other j hj hji (by rwa [update_of_ne hji]) o
    rw [update_of_ne hji] at this
    rw [this, hother j hj hji hu, hg.other j hj hji hu]
  · intro k hk
    by_cases hkm : k < m
    · have hk' : k < bsize - off % bsize := by omega
      rw [hwout (off + k) _ (.inl (by omega)) ((hself _).trans (if_pos (add_div_bsize hk'))),
        add_mod_bsize hk', splice_inside (by omega), List.getElem?_take, if_pos hkm]
    · have := hw.inside (k - m) (by omega)
      rw [List.getElem?_drop, show m + (k - m) = k by omega, show off + m + (k - m) = off + k by omega]
        at this
      exact this
  · intro o c ho hc
    have h1 := hg.fileByte_old hc
    refine hwout o c (by omega) ?_
    rw [hself]
    split
    · rename_i hdiv
      rw [fileByte, hdiv, if_neg hblk] at h1
      rw [splice_outside, h1]
      rw [show bsize = 512 from rfl] at *
      omega
    · exact h1
  · intro k hk
    have h1 := hg.keep k hk
    have h2 := hplaces k
    rw [hwkeep k (by rwa [h2, h1]), h2, h1]

/-! ## The log only grows -/

/-- Blocks stay in the log, and the log stays within its bound. -/
structure LogGrows (sb : Superblock) (s s' : State) : Prop where
  keeps : ∀ b ∈ s.lh, b ∈ s'.lh
  bound : s.lh.length ≤ logCap sb → s'.lh.length ≤ logCap sb

instance : IsPreorder State (LogGrows sb) where
  refl _ := ⟨fun _ h => h, fun h => h⟩
  trans _ _ _ h h' := ⟨fun b hb => h'.keeps b (h.keeps b hb), fun hb => h'.bound (h.bound hb)⟩

theorem LogGrows.of_lh (h : s'.lh = s.lh) : LogGrows sb s s' :=
  ⟨fun _ hb => by rwa [h], fun hb => by rwa [h]⟩

theorem along_logWrite (sb : Superblock) (b : Nat) (data : Block) : Along (LogGrows sb) (logWrite sb b data) := by
  intro s
  simp only [logWrite, panic, wp_bind, wp_get, wp_ite, wp_throw, wp_set]
  split
  · trivial
  rename_i hroom
  have hroom : ¬ logCap sb ≤ s.lh.length := fun h => hroom (min_le_iff.mp h)
  split
  · trivial
  refine ⟨fun c hc => mem_absorb.mpr (.inl hc), fun _ => ?_⟩
  show (absorb s.lh b).length ≤ logCap sb
  unfold absorb
  split
  · omega
  · rw [List.length_append, List.length_singleton]
    omega

theorem along_bread (b : Nat) : Along (LogGrows sb) (bread b) := .bind .get fun _ => .pure _

theorem along_getInode : Along (LogGrows sb) (getInode e) := .bind .get fun _ => .pure _

theorem along_ballocLoop (fuel b : Nat) : Along (LogGrows sb) (ballocLoop sb fuel b) := by
  induction fuel generalizing b with
  | zero => exact .throw _
  | succ fuel ih =>
    refine .ite (.bind (along_bread _) fun blk => ?_) (.throw _)
    split
    · exact .bind (along_logWrite _ _ _) fun _ => .bind (along_logWrite _ _ _) fun _ => .pure _
    · exact ih _

theorem along_mapAddr (j : Fin 13) : Along (LogGrows sb) (mapAddr sb e j) := by
  refine .bind along_getInode fun ip => .ite ?_ (.pure _)
  exact .bind (along_ballocLoop _ _) fun a => .bind (.modify fun _ => .of_lh rfl) fun _ => .pure _

theorem along_bmap (sb : Superblock) (bn : Nat) : Along (LogGrows sb) (bmap sb e bn) := by
  unfold bmap
  split
  · exact along_mapAddr _
  refine .ite ?_ (.throw _)
  refine .bind (along_mapAddr _) fun a => .bind (along_bread _) fun blk => .ite ?_ (.pure _)
  exact .bind (along_ballocLoop _ _) fun b => .bind (along_logWrite _ _ _) fun _ => .pure _

/-- The blocks of a range: the first one, and those of the rest. -/
theorem mem_span_cases {n bn : Nat} (hbn : bn ∈ span off n) : bn = off / bsize ∨
    bn ∈ span (off + min n (bsize - off % bsize)) (n - min n (bsize - off % bsize)) := by
  obtain ⟨h1, h2, h3⟩ := mem_span.mp hbn
  by_cases hfirst : bn = off / bsize
  · exact .inl hfirst
  · refine .inr (mem_span.mpr ?_)
    rw [show bsize = 512 from rfl] at *
    omega

/-- The blocks of the bytes after the first `m`. -/
theorem span_drop {n : Nat} (hm : m ≤ n) : span (off + m) (n - m) ⊆ span off n := by
  intro bn
  rw [mem_span, mem_span, show off + m + (n - m) = off + n by omega]
  rintro ⟨h1, h2, h3⟩
  exact ⟨by omega, (Nat.div_le_div_right (Nat.le_add_right _ _)).trans h2, h3⟩

theorem first_mem_span {n : Nat} (hn : 0 < n) : off / bsize ∈ span off n :=
  mem_span.mpr ⟨hn, Nat.le_refl _, Nat.div_le_div_right (by omega)⟩

theorem wp_writeLoop (hL : Layout sb) (hi : i < sb.ninodes) (fuel off : Nat) (src : List Byte)
    (hfuel : src.length ≤ fuel) (h : Fine sb N s.disk ∅) (ht : (N i).type ≠ 0#16)
    (hN : (s.inode e).di = N i) (hout : 0 < s.outstanding) (hA : Affords sb F i K s (N i))
    (hend : off + src.length ≤ maxfile * bsize) (hK : ∀ bn ∈ span off src.length, placesOf bn ⊆ K) :
    wp (writeLoop sb e fuel off src) (fun _ s' => ∃ x, Recached s e x s' ∧
      Wrote sb N i s.disk off src x s'.disk ∧
      ((∀ k < src.length, fileByte s.disk (N i) (off + k) ≠ none) → x = N i) ∧
      Spent sb i K s (N i) s' x ∧ LogGrows sb s s' ∧
      ∀ bn ∈ span off src.length, dataBlock s'.disk x bn ≠ 0 ∧ dataBlock s'.disk x bn ∈ s'.lh)
      F s := by
  have hnil : Wrote sb N i s.disk off [] (N i) s.disk :=
    ⟨.refl h, nofun, fun _ _ _ h => h, fun _ _ => rfl⟩
  induction fuel generalizing off src s N with
  | zero =>
    obtain rfl : src = [] := List.length_eq_zero_iff.mp (by omega)
    rw [writeLoop, wp_pure]
    exact ⟨N i, hN ▸ Recached.self s e, hnil, fun _ => rfl, .refl, refl s, nofun⟩
  | succ fuel ih =>
    simp only [writeLoop, wp_ite, wp_pure]
    split
    · rename_i h0
      subst h0
      exact ⟨N i, hN ▸ Recached.self s e, hnil, fun _ => rfl, .refl, refl s, nofun⟩
    rename_i hne
    have hpos : 0 < src.length := List.length_pos_of_ne_nil hne
    have hroom := bsize_sub_pos off
    have hbn : off / bsize < maxfile := Nat.div_lt_of_lt_mul (by rw [Nat.mul_comm]; omega)
    have hKbn : placesOf (off / bsize) ⊆ K := hK _ (first_mem_span hpos)
    simp only [bread, wp_bind, wp_get, wp_pure]
    refine wp_post (wp_and_ok (wp_bmap hL hi h ht hN hout hA hbn hKbn) (along_bmap sb _ s)) ?_
    rintro a s1 ⟨⟨x1, hr1, hg, ⟨rfl, ha⟩, hhit, hspent1⟩, hgrow1⟩
    have hself : Function.update N i x1 i = x1 := update_self _ _ _
    have hA1 := hA.spent hspent1
    have hcharged : dataBlock s1.disk x1 (off / bsize) ∈ charged sb i K s1.disk x1 :=
      ref_charged (hKbn (place_mem_placesOf _)) ha
    refine wp_post (wp_and_ok (wp_logWrite (hA1.room [] (List.forall_mem_nil _))
      (by rw [hr1.ops]; exact hout) _ _) (along_logWrite sb _ _ s1)) ?_
    rintro _ s2 ⟨hlog, hgrow2⟩
    have ht1 : (Function.update N i x1 i).type ≠ 0#16 := by
      rw [hself, hg.type]
      exact ht
    have hr2 : Recached s e x1 s2 := hlog.recached hr1
    have hblk1 : dataBlock s1.disk (Function.update N i x1 i) (off / bsize) ≠ 0 := by rwa [hself]
    have hsame2 (k : Nat) : blockRef s2.disk x1 k = blockRef s1.disk x1 k := by
      have := hg.fine.write_places (k := k) hi ht1 hblk1
        (splice (s1.disk (dataBlock s1.disk x1 (off / bsize))) (off % bsize)
          (src.take (min src.length (bsize - off % bsize)))) hi ht1
      rw [hself] at this
      rw [hlog.disk, this]
    have hspent2 : Spent sb i K s1 x1 s2 x1 := by
      refine .write hlog.lh (by simpa using hcharged) hsame2 fun b hb => ?_
      · have hdata : sb.data ≤ dataBlock s1.disk x1 (off / bsize) := by
          have := (hg.fine.inUse hi ht1 hblk1).1
          rwa [hself] at this
        rw [hlog.disk, hL.used_data hb hdata]
    have hspent := hspent1.trans hspent2
    have hfine2 : Fine sb (Function.update N i x1) s2.disk ∅ := by
      have := fun blk => hg.fine.write hi ht1 (n := off / bsize) hblk1 blk hL
      rw [hlog.disk]
      rw [hself] at this
      exact this _
    have hm : min src.length (bsize - off % bsize) ≤ src.length := Nat.min_le_left _ _
    refine wp_post (ih _ _ (by rw [List.length_drop]; omega) hfine2 ht1
      (by rw [hr2.di, hself]) (by rw [hr2.ops]; exact hout) (by rw [hself]; exact hA.spent hspent)
      (by rw [List.length_drop]; omega)
      (fun bn hbn => hK bn (span_drop hm (by rwa [List.length_drop] at hbn)))
      ⟨.refl hfine2, nofun, fun _ _ _ h => h, fun _ _ => rfl⟩) ?_
    rintro _ s3 ⟨x2, hr3, hw, hsame, hspent3, hgrow3, hlogged⟩
    rw [hself] at hspent3
    refine ⟨x2, hr2.trans hr3, Wrote.round hL hi ht hg ha rfl ?_, fun hfull => ?_,
      hspent.trans hspent3, trans_of _ hgrow1 (trans_of _ hgrow2 hgrow3), fun bn hbn => ?_⟩
    · rwa [hlog.disk] at hw
    · obtain rfl : x1 = N i := by
        refine hhit fun h0 => hfull 0 hpos ?_
        rw [Nat.add_zero, fileByte, if_pos h0]
      rw [hself] at hsame
      refine hsame fun k hk => ?_
      rw [List.length_drop] at hk
      have hold : fileByte s.disk (N i) (off + (min src.length (bsize - off % bsize) + k)) ≠ none :=
        hfull _ (by omega)
      obtain ⟨c, hc⟩ := Option.ne_none_iff_exists'.mp hold
      have h1 := hg.fileByte_old hc
      have h2 := hg.fine.write_self hi ht1 (n := off / bsize) hblk1
      simp only [update_self] at h2
      rw [hlog.disk, Nat.add_assoc, h2]
      split
      · exact Option.some_ne_none _
      · rw [h1]
        exact Option.some_ne_none _
    · rcases mem_span_cases hbn with rfl | hbn
      · -- The block of this round is in the log, and the rest of the loop leaves its place.
        have hkeep := hw.keep (place (off / bsize))
        rw [hself, hsame2] at hkeep
        have hlast : dataBlock s3.disk x2 (off / bsize) = dataBlock s1.disk x1 (off / bsize) :=
          hkeep ha
        rw [hlast]
        refine ⟨ha, hgrow3.keeps _ ?_⟩
        rw [hlog.lh]
        exact mem_absorb.mpr (.inr rfl)
      · exact hlogged bn (by rwa [List.length_drop])

end Xv6.Fs
