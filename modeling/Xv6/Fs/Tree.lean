import Xv6.Fs.Contents
import Xv6.Fs.Refs

/-!
# What the disk means

A `Node` is what an inode is for: a type, a link count and a sequence of bytes.  `tree` reads
the nodes off the disk.  `readi` and `writei` of an inode that the cache holds read and
write the bytes of its node, and leave the other nodes alone.
-/

namespace Xv6.Fs

open Prog Function

variable {d d' d1 : Disk} {x0 : Dinode}

/-! ## Nodes -/

/-- An inode as its user sees it. -/
@[ext] structure Node where
  type : Short
  major : Short
  minor : Short
  nlink : Short
  size : Nat
  bytes : Nat → Byte

namespace Node

/-- An inode that is not allocated. -/
def free : Node := ⟨0#16, 0#16, 0#16, 0#16, 0, fun _ => 0#8⟩

/-- Bytes are written at `off`. -/
def write (v : Node) (off : Nat) (src : List Byte) : Node :=
  { v with
    size := max v.size (off + src.length)
    bytes := fun o => if off ≤ o ∧ o < off + src.length then src.getD (o - off) 0#8 else v.bytes o }

/-- The bytes from `off` on. -/
def read (v : Node) (off n : Nat) : List Byte := (List.range n).map fun k => v.bytes (off + k)

/-- The `k`-th entry of a directory. -/
def entry (v : Node) (k : Nat) : Dirent := .ofBytes (v.read (k * direntSize) direntSize)

/-- The number of entries of a directory. -/
def entries (v : Node) : Nat := v.size / direntSize

end Node

/-- The node of an inode on the disk. -/
def nodeOf (d : Disk) (x : Dinode) : Node :=
  if x.type = 0#16 then .free
  else ⟨x.type, x.major, x.minor, x.nlink, x.size.toNat,
    fun o => if o < x.size.toNat then (fileByte d x o).getD 0#8 else 0#8⟩

theorem nodeOf_of_type {x : Dinode} (ht : x.type ≠ 0#16) : nodeOf d x =
    ⟨x.type, x.major, x.minor, x.nlink, x.size.toNat,
      fun o => if o < x.size.toNat then (fileByte d x o).getD 0#8 else 0#8⟩ := if_neg ht

/-- The nodes of all inodes. -/
def tree (sb : Superblock) (d : Disk) (i : Nat) : Node :=
  if i < sb.ninodes then nodeOf d (dinodeAt sb d i) else .free

/-! ## One node changes -/

variable {sb : Superblock} {t : Prop} {F : Stop → Prop} {q : Option Nat} {h : Multiset Nat}
  {L : Multiset (Nat × Short)} {n : Nat} {s s' : State} {e i : Nat} {u : Short} {x : Dinode}

/-- Inode `i` on the disk is `x` now, and the other inodes have kept their bytes. -/
structure Redisk (sb : Superblock) (d : Disk) (i : Nat) (x : Dinode) (d' : Disk) : Prop where
  self : dinodeAt sb d' i = x
  others : ∀ j < sb.ninodes, j ≠ i → dinodeAt sb d' j = dinodeAt sb d j
  bytes : ∀ j < sb.ninodes, j ≠ i → (dinodeAt sb d j).type ≠ 0#16 → ∀ o,
    fileByte d' (dinodeAt sb d j) o = fileByte d (dinodeAt sb d j) o
  fine : Fine sb (dinodeAt sb d') d' ∅

/-- The inode of entry `e` has been rewritten, in the cache and on the disk. -/
structure Rewritten (sb : Superblock) (s : State) (e i : Nat) (x : Dinode) (s' : State) : Prop
    extends Redisk sb s.disk i x s'.disk where
  inode : s'.inode = Function.update s.inode e { s.inode e with di := x }

theorem nodeOf_congr (hb : x.type ≠ 0#16 → ∀ o, fileByte d' x o = fileByte d x o) :
    nodeOf d' x = nodeOf d x := by
  unfold nodeOf
  split
  · rfl
  · rename_i ht
    simp only [hb ht]

/-- The tree changes in one place. -/
theorem Redisk.tree (hr : Redisk sb d i x d') (hi : i < sb.ninodes) :
    tree sb d' = Function.update (tree sb d) i (nodeOf d' x) := by
  funext j
  by_cases hji : j = i
  · subst hji
    rw [update_self, Fs.tree, if_pos hi, hr.self]
  · rw [update_of_ne hji, Fs.tree, Fs.tree]
    split
    · rename_i hj
      rw [hr.others j hj hji]
      exact nodeOf_congr fun ht o => hr.bytes j hj hji ht o
    · rfl

/-! ## Writing an inode back -/

/-- The disk after `iupdate` holds the changed inode. -/
theorem Redisk.commit (hL : Layout sb) (hi : i < sb.ninodes)
    (hc : Changed sb (dinodeAt sb d) i d ∅ x0 d1) (ht0 : x0.type ≠ 0#16) (ht : x.type = x0.type)
    (hx : x.addrs = x0.addrs) (hd : d' = putDinode sb d1 i x) :
    Redisk sb d i x d' ∧ ∀ o, fileByte d' x o = fileByte d1 x0 o := by
  -- Blocks of inodes are data blocks, so the inode block is none of them.
  have hkeep : ∀ j < sb.ninodes, (Function.update (dinodeAt sb d) i x0 j).type ≠ 0#16 → ∀ k,
      blockRef d1 (Function.update (dinodeAt sb d) i x0 j) k ≠ 0 →
      d' (blockRef d1 (Function.update (dinodeAt sb d) i x0 j) k) =
        d1 (blockRef d1 (Function.update (dinodeAt sb d) i x0 j) k) := by
    intro j hj htj k hk
    obtain ⟨h1, h2, _⟩ := hc.fine.inUse hj htj hk
    rw [hd, hL.data_putDinode hi h1 h2]
  have hself : dinodeAt sb d' i = x := by rw [hd, dinodeAt_putDinode_self]
  have hothers : ∀ j < sb.ninodes, j ≠ i → dinodeAt sb d' j = dinodeAt sb d j := by
    intro j hj hji
    rw [hd, dinodeAt_putDinode_ne hji, hc.inodes j hj]
  refine ⟨⟨hself, hothers, ?_, ?_⟩, ?_⟩
  · intro j hj hji htj o
    rw [← hc.other j hj hji htj o]
    have hj' : Function.update (dinodeAt sb d) i x0 j = dinodeAt sb d j := update_of_ne hji _ _
    have := hkeep j hj
    rw [hj'] at this
    exact fileByte_congr (this htj) o
  · refine (hc.fine.congr_disk hkeep fun b _ => ?_).congr_inodes fun j hj => ?_
    · rw [hd, hL.used_putDinode hi]
    · by_cases hji : j = i
      · rw [hji, hself, update_self]
        exact ⟨ht, hx⟩
      · rw [hothers j hj hji, update_of_ne hji]
        exact ⟨rfl, rfl⟩
  · intro o
    have := hkeep i hi
    rw [update_self] at this
    rw [fileByte_addrs hx]
    exact fileByte_congr (this ht0) o

/-- The node of a file that has been written. -/
theorem Wrote.node {N : Nat → Dinode} {off : Nat} {src : List Byte}
    (hw : Wrote sb N i d off src x0 d1) (ht : (N i).type ≠ 0#16)
    (hfill : ∀ o < (N i).size.toNat, fileByte d (N i) o ≠ none) (hoff : off ≤ (N i).size.toNat)
    (hx : x.type = (N i).type ∧ x.major = (N i).major ∧ x.minor = (N i).minor ∧ x.nlink = (N i).nlink)
    (hsize : x.size.toNat = max (N i).size.toNat (off + src.length))
    (hb : ∀ o, fileByte d' x o = fileByte d1 x0 o) :
    nodeOf d' x = (nodeOf d (N i)).write off src := by
  rw [nodeOf_of_type ht, nodeOf_of_type (by rwa [hx.1]), Node.write]
  ext1
  · exact hx.1
  · exact hx.2.1
  · exact hx.2.2.1
  · exact hx.2.2.2
  · exact hsize
  · funext o
    simp only [hb]
    by_cases hin : off ≤ o ∧ o < off + src.length
    · have hk := hw.inside (o - off) (by omega)
      rw [Nat.add_sub_cancel' hin.1] at hk
      rw [if_pos (by omega), if_pos hin, hk, List.getD_eq_getElem?_getD]
    · rw [if_neg hin]
      by_cases ho : o < (N i).size.toNat
      · obtain ⟨c, hc⟩ := Option.ne_none_iff_exists'.mp (hfill o ho)
        rw [if_pos ho, if_pos (by omega), hc, hw.outside o c (by omega) hc]
      · rw [if_neg ho, if_neg (by omega)]

section

variable (hF : ∀ e, Harmless e → F e) (hL : Layout sb)
include hF hL

end

/-! ## Reading and writing one inode -/

/-- The copy of an inode in the cache is the inode on the disk, and the file has no hole. -/
structure Cached (sb : Superblock) (s : State) (e : Nat) : Prop where
  num : (s.inode e).inum < sb.ninodes
  copy : (s.inode e).di = dinodeAt sb s.disk (s.inode e).inum
  type : (s.inode e).di.type ≠ 0#16
  fine : Fine sb (dinodeAt sb s.disk) s.disk ∅
  filled : ∀ o < (s.inode e).di.size.toNat, fileByte s.disk (s.inode e).di o ≠ none

/-- What `writei` refuses: `n` bytes at `off` into a file of `size` bytes. -/
def Refused (size off n : Nat) : Prop := size < off ∨ uintSize ≤ off + n ∨ maxfile * bsize < off + n

instance (size off n : Nat) : Decidable (Refused size off n) :=
  inferInstanceAs (Decidable (_ ∨ _ ∨ _))

/-- `src` has been written at `off` of the inode of entry `e`. -/
structure Written (sb : Superblock) (s : State) (e off : Nat) (src : List Byte) (s' : State) : Prop
    extends Rewritten sb s e (s.inode e).inum (s'.inode e).di s' where
  cached : Cached sb s' e
  ops : s'.outstanding = s.outstanding
  file : s'.file = s.file
  node : nodeOf s'.disk (s'.inode e).di = (nodeOf s.disk (s.inode e).di).write off src

namespace Cached

/-- A file is no longer than `MAXFILE` blocks. -/
theorem size_le (hC : Cached sb s e) : (s.inode e).di.size.toNat ≤ maxfile * bsize := by
  by_contra hlt
  refine hC.filled (maxfile * bsize) (by omega) ?_
  rw [fileByte, if_pos]
  rw [Nat.mul_div_cancel _ (by decide : 0 < bsize)]
  exact blockRef_past (by decide)

theorem size_node (hC : Cached sb s e) :
    (nodeOf s.disk (s.inode e).di).size = (s.inode e).di.size.toNat := by
  rw [nodeOf_of_type hC.type]

/-- The node of the inode in the tree. -/
theorem tree_eq (hC : Cached sb s e) :
    tree sb s.disk (s.inode e).inum = nodeOf s.disk (s.inode e).di := by
  rw [Fs.tree, if_pos hC.num, ← hC.copy]

/-- What the tests of `writei` on 32-bit numbers say. -/
theorem refused_iff (off : Nat) {n : Nat} (hC : Cached sb s e) (hn : n < uintSize) :
    ((s.inode e).di.size.toNat < off ∨ (off + n) % uintSize < off) ∨
      maxfile * bsize < (off + n) % uintSize ↔ Refused (s.inode e).di.size.toNat off n := by
  have hsize : (s.inode e).di.size.toNat ≤ 71680 := hC.size_le
  unfold Refused
  rw [show maxfile * bsize = 71680 from rfl]
  rw [uintSize_eq] at *
  omega

/-- `readi` on an inode that is no device returns the bytes up to the end of the file, and
changes nothing. -/
theorem readi (hC : Cached sb s e) (hdev : (s.inode e).di.type ≠ tDev) (off n : Nat)
    (hn : n < uintSize) :
    wp (readi sb e off n) (fun r s' => s' = s ∧
      r = if (s.inode e).di.size.toNat < off ∨ uintSize ≤ off + n then none
        else some ((nodeOf s.disk (s.inode e).di).read off
          (min n ((s.inode e).di.size.toNat - off)))) F s := by
  have hsize : (s.inode e).di.size.toNat ≤ 71680 := hC.size_le
  have hlt : (s.inode e).di.size.toNat < 2 ^ 32 := (s.inode e).di.size.isLt
  have hiff : ((s.inode e).di.size.toNat < off ∨ (off + n) % uintSize < off) ↔
      ((s.inode e).di.size.toNat < off ∨ uintSize ≤ off + n) := by
    rw [uintSize_eq] at *
    omega
  simp only [Fs.readi, getInode, wp_bind, wp_get, wp_pure, wp_ite, if_neg hdev, hiff]
  split
  · exact ⟨trivial, rfl⟩
  rename_i hok
  have hwrap : (off + n) % uintSize = off + n := Nat.mod_eq_of_lt (by omega)
  have hm : (if (s.inode e).di.size.toNat < (off + n) % uintSize then
      (s.inode e).di.size.toNat - off else n) = min n ((s.inode e).di.size.toNat - off) := by
    rw [hwrap]
    split <;> omega
  rw [hm]
  refine wp_post (wp_readLoop _ off _ (Nat.le_refl _) fun k hk => hC.filled _ (by omega)) ?_
  rintro bs _ ⟨rfl, rfl⟩
  refine ⟨rfl, congrArg some ?_⟩
  rw [nodeOf_of_type hC.type, fileBytes, Node.read]
  refine List.map_congr_left fun k hk => ?_
  have hk := List.mem_range.mp hk
  exact (if_pos (by omega)).symm

section

variable {K : Finset Nat} {off : Nat} {src : List Byte}

/-- Once the changed inode is on the disk, the bytes are written. -/
theorem written {N : Nat → Dinode} (hC : Cached sb s e)
    (hw : Wrote sb N (s.inode e).inum s.disk off src x0 d1)
    (hN : N (s.inode e).inum = (s.inode e).di) (hoff : off ≤ (s.inode e).di.size.toNat)
    (hr : Rewritten sb s e (s.inode e).inum x s') (hops : s'.outstanding = s.outstanding)
    (hfile : s'.file = s.file)
    (hx : x.type = x0.type ∧ x.major = x0.major ∧ x.minor = x0.minor ∧ x.nlink = x0.nlink)
    (hsize : x.size.toNat = max (s.inode e).di.size.toNat (off + src.length))
    (hb : ∀ o, fileByte s'.disk x o = fileByte d1 x0 o) : Written sb s e off src s' := by
  have hattrs : x0.type = (s.inode e).di.type ∧ x0.major = (s.inode e).di.major ∧
      x0.minor = (s.inode e).di.minor ∧ x0.nlink = (s.inode e).di.nlink := by
    rw [← hN, ← hw.attrs]
    exact ⟨rfl, rfl, rfl, rfl⟩
  obtain ⟨ha1, ha2, ha3, ha4⟩ := hattrs
  have hdi : s'.inode e = { s.inode e with di := x } := by rw [hr.inode, update_self]
  have hx' : (s'.inode e).di = x := by rw [hdi]
  have hnum : (s'.inode e).inum = (s.inode e).inum := by rw [hdi]
  have hnode : nodeOf s'.disk x = (nodeOf s.disk (s.inode e).di).write off src := by
    rw [← hN]
    refine hw.node (by rw [hN]; exact hC.type) (by rw [hN]; exact hC.filled) (by rwa [hN]) ?_
      (by rw [hN]; exact hsize) hb
    rw [hN, hx.1, hx.2.1, hx.2.2.1, hx.2.2.2]
    exact ⟨ha1, ha2, ha3, ha4⟩
  refine ⟨by rw [hx']; exact hr, ⟨?_, ?_, ?_, hr.fine, ?_⟩, hops, hfile, by rw [hx', hnode]⟩
  · rw [hnum]
    exact hC.num
  · rw [hx', hnum, hr.self]
  · rw [hx', hx.1, ha1]
    exact hC.type
  · intro o ho
    rw [hx'] at ho ⊢
    rw [hb]
    by_cases hin : off ≤ o ∧ o < off + src.length
    · have hk := hw.inside (o - off) (by omega)
      rw [Nat.add_sub_cancel' hin.1] at hk
      rw [hk]
      intro h0
      rw [List.getElem?_eq_none_iff] at h0
      omega
    · obtain ⟨c, hc⟩ := Option.ne_none_iff_exists'.mp (hC.filled o (by omega))
      rw [hw.outside o c (by omega) (by rwa [hN])]
      exact Option.some_ne_none _

/-- `writei` on an inode that is no device writes the bytes, or refuses and changes nothing. -/
theorem writei (off : Nat) (src : List Byte) (hL : Layout sb) (hC : Cached sb s e)
    (hdev : (s.inode e).di.type ≠ tDev)
    (hout : 0 < s.outstanding) (hlen : src.length < uintSize)
    (hK : ∀ bn ∈ span off src.length, placesOf bn ⊆ K)
    (hA : ¬ Refused (s.inode e).di.size.toNat off src.length →
      Affords sb F (s.inode e).inum K s (s.inode e).di) :
    wp (writei sb e src off) (fun r s' =>
      if Refused (s.inode e).di.size.toNat off src.length then r = none ∧ s' = s
      else r = some src.length ∧ Written sb s e off src s' ∧
        Spent sb (s.inode e).inum K s (s.inode e).di s' (s'.inode e).di) F s := by
  have hiff := hC.refused_iff off hlen
  simp only [Fs.writei, getInode, wp_bind, wp_get, wp_pure, wp_ite, if_neg hdev]
  by_cases hre : Refused (s.inode e).di.size.toNat off src.length
  · simp only [if_pos hre]
    rcases hiff.mpr hre with h1 | h2
    · rw [if_pos h1]
      exact ⟨trivial, trivial⟩
    · split
      · exact ⟨trivial, trivial⟩
      · exact ⟨trivial, trivial⟩
  simp only [if_neg hre]
  have hA := hA hre
  obtain ⟨h1, h2⟩ := not_or.mp fun h => hre (hiff.mp h)
  rw [if_neg h1, if_neg h2]
  unfold Refused at hre
  have hoff : off ≤ (s.inode e).di.size.toNat := by omega
  have hend : off + src.length ≤ maxfile * bsize := by omega
  have hend' : off + src.length ≤ 71680 := hend
  have hcopy := hC.copy
  have ht : (dinodeAt sb s.disk (s.inode e).inum).type ≠ 0#16 := by
    rw [← hcopy]
    exact hC.type
  refine wp_post (wp_writeLoop hL hC.num _ off src (Nat.le_refl _) hC.fine ht hcopy hout
    (by rwa [hcopy] at hA) hend hK) ?_
  rintro _ s1 ⟨x0, hr1, hw, hsame, hspent, -⟩
  rw [← hcopy] at hspent
  have hA1 := hA.spent hspent
  have ht0 : x0.type ≠ 0#16 := by
    rw [hw.type]
    exact ht
  have hsize0 : x0.size = (s.inode e).di.size := by rw [hcopy, ← hw.attrs]
  split
  · rename_i hgrow
    -- The file grows: the new size and addresses go to the disk.
    simp only [setDi, setInode, wp_modify]
    refine wp_post (wp_iupdate (hA1.room [] (List.forall_mem_nil _))
      (by dsimp only; rw [hr1.ops]; exact hout)) fun _ s2 hlog => ?_
    have hino := hlog.inode
    have hdisk := hlog.disk
    have hlh := hlog.lh
    simp only [hr1.inode, update_self, update_idem] at hino hdisk hlh
    obtain ⟨hr, hb⟩ := Redisk.commit (x := { x0 with size := BitVec.ofNat 32 (off + src.length) })
      hL hC.num hw.toChanged ht0 rfl rfl hdisk
    have hx2 : (s2.inode e).di = { x0 with size := BitVec.ofNat 32 (off + src.length) } := by
      rw [hino, update_self]
    refine ⟨trivial, hC.written hw hcopy.symm hoff ⟨hr, hino⟩ (hlog.ops.trans hr1.ops)
      (hlog.file.trans hr1.file) ⟨rfl, rfl, rfl, rfl⟩ ?_ hb, hspent.trans ?_⟩
    · rw [toNat_ofNat (by omega)]
      omega
    · rw [hx2]
      refine .write hlh (by simpa using iblock_charged) (fun k => ?_) fun b _ => ?_
      · rw [blockRef_addrs (y := x0) rfl]
        refine blockRef_congr (fun h12 => ?_) k
        have hself : Function.update (dinodeAt sb s.disk) (s.inode e).inum x0 (s.inode e).inum = x0 :=
          update_self _ _ _
        obtain ⟨h1, h2, _⟩ := hw.fine.inUse (k := 12) hC.num (by rwa [hself]) (by rwa [hself])
        rw [hself] at h1 h2
        rw [hdisk]
        exact hL.data_putDinode hC.num h1 h2
      · rw [hdisk, hL.used_putDinode hC.num]
  · rename_i hgrow
    -- The file does not grow: all its blocks were there, so its addresses are as before.
    have hx0 : x0 = dinodeAt sb s.disk (s.inode e).inum := by
      refine hsame fun k hk => ?_
      rw [← hcopy]
      exact hC.filled _ (by omega)
    have hr : Rewritten sb s e (s.inode e).inum x0 s1 := by
      refine ⟨⟨?_, fun j hj _ => hw.inodes j hj, fun j hj hji htj o => hw.other j hj hji htj o, ?_⟩,
        hr1.inode⟩
      · rw [hw.inodes _ hC.num, hx0]
      · refine hw.fine.congr_inodes fun j hj => ?_
        rw [hw.inodes j hj]
        by_cases hji : j = (s.inode e).inum
        · rw [hji, update_self, hx0]
          exact ⟨rfl, rfl⟩
        · rw [update_of_ne hji]
          exact ⟨rfl, rfl⟩
    refine ⟨trivial, hC.written hw hcopy.symm hoff hr hr1.ops hr1.file ⟨rfl, rfl, rfl, rfl⟩ ?_
      fun _ => rfl, ?_⟩
    · rw [hsize0]
      omega
    · rw [hr1.di]
      exact hspent

end

end Cached

end Xv6.Fs
