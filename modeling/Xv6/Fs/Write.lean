import Xv6.Fs.Bytes

/-!
# Writing to an open file (`file.c`)

`filewrite` cuts a request into transactions of at most 1536 bytes.  One of them logs at
most seven blocks: four blocks of data, the table, the bitmap and the inode.

Each transaction moves the offset of the file.  If a later one would reach past the largest
file, `writei` refuses it and `filewrite` returns -1, although the earlier ones have been
committed.
-/

namespace Xv6.Fs

open Prog Absorb Function

variable {K : Finset Nat}

/-- Blocks of the file system that `mkfs` makes. -/
def fssize : Nat := 1000

/-- What `filewrite` does between `begin_op` and `end_op` for one piece of the request. -/
def writeChunk (sb : Superblock) (f : Nat) (chunk : List Byte) : M (Option Nat) := do
  let g ← getFile f
  ilock sb g.ip
  let r ← writei sb g.ip chunk g.off
  match r with
  | some n => setFile f fun g => { g with off := g.off + n }
  | none => pure ()
  iunlock g.ip
  pure r

variable {sb : Superblock} {F : Stop → Prop} {s s' : State} {e f off : Nat} {src : List Byte}
  {x : Dinode}

/-- The loop of `filewrite`, cut at the ends of the transaction. -/
theorem wp_filewriteLoop {fuel : Nat} {Q : Bool → State → Prop} :
    wp (filewriteLoop sb f (fuel + 1) src) Q F s ↔ if src = [] then Q true s else
      wp beginOp (fun _ s1 => wp (writeChunk sb f (src.take filewriteMax)) (fun r s2 =>
        wp endOp (fun _ s3 => wp (match r with
          | none => pure false
          | some n => if n ≠ (src.take filewriteMax).length then panic "short filewrite"
            else filewriteLoop sb f fuel (src.drop filewriteMax)) Q F s3) F s2) F s1) F s := by
  simp only [filewriteLoop, writeChunk, getFile, wp_bind, wp_get, wp_pure, wp_ite]
  split
  · exact Iff.rfl
  · simp only [beginOp, wp_bind, wp_get, wp_ite, wp_throw, wp_set]
    split
    · exact Iff.rfl
    · refine iff_of_eq (congrArg (wp _ · F _) (funext fun _ => funext fun s1 => ?_))
      refine congrArg (wp _ · F _) (funext fun r => funext fun s2 => ?_)
      cases r <;> simp only [wp_bind, wp_pure]

/-! ## Locking an inode -/

/-- Nobody holds the inode of entry `e`, its copy is that of the disk if it has been read, and
the file has no hole. -/
structure Ready (sb : Superblock) (s : State) (e : Nat) : Prop where
  num : (s.inode e).inum < sb.ninodes
  ref : 0 < (s.inode e).ref
  free : (s.inode e).locked = false
  copy : (s.inode e).valid = true → (s.inode e).di = dinodeAt sb s.disk (s.inode e).inum
  type : (dinodeAt sb s.disk (s.inode e).inum).type ≠ 0#16
  fine : Fine sb (dinodeAt sb s.disk) s.disk ∅
  filled : ∀ o < (dinodeAt sb s.disk (s.inode e).inum).size.toNat,
    fileByte s.disk (dinodeAt sb s.disk (s.inode e).inum) o ≠ none

/-- The state with entry `e` locked. -/
def State.hold (s : State) (sb : Superblock) (e : Nat) : State :=
  s.putInode e { s.inode e with
    locked := true, valid := true, di := dinodeAt sb s.disk (s.inode e).inum }

/-- The state with entry `e` unlocked. -/
def State.release (s : State) (e : Nat) : State := s.putInode e { s.inode e with locked := false }

theorem State.hold_inode (s : State) (sb : Superblock) (e : Nat) : (s.hold sb e).inode e = { s.inode e with
    locked := true, valid := true, di := dinodeAt sb s.disk (s.inode e).inum } :=
  s.inode_putInode_self e _

@[simp] theorem State.hold_locked (s : State) (sb : Superblock) (e : Nat) : ((s.hold sb e).inode e).locked = true := by
  rw [hold_inode]

@[simp] theorem State.hold_ref (s : State) (sb : Superblock) (e : Nat) :
    ((s.hold sb e).inode e).ref = (s.inode e).ref := by
  rw [hold_inode]

@[simp] theorem State.release_ref (s : State) (e : Nat) :
    ((s.release e).inode e).ref = (s.inode e).ref := by
  rw [release, inode_putInode_self]

theorem Ready.wp_ilock (hR : Ready sb s e) :
    wp (ilock sb e) (fun _ s' => s' = s.hold sb e) F s := by
  have href : ¬ (s.inode e).ref < 1 := Nat.not_lt.mpr hR.ref
  have hdi : dinode (s.disk (iblock sb (s.inode e).inum)) ((s.inode e).inum % ipb) =
      dinodeAt sb s.disk (s.inode e).inum := rfl
  simp only [ilock, getInode, acquiresleep, setInode, bread, panic, wp_bind, wp_get, wp_pure, wp_ite,
    wp_modify, wp_throw, if_neg href, hR.free, update_self, update_idem, hdi,
    if_neg hR.type]
  rw [if_neg Bool.false_ne_true]
  split
  · rfl
  · rename_i hval
    have hval : (s.inode e).valid = true := by simpa using hval
    rw [State.hold, ← hR.copy hval, ← hval]
    rfl

theorem Ready.cached (hR : Ready sb s e) : Cached sb (s.hold sb e) e := by
  have hnum : ((s.hold sb e).inode e).inum = (s.inode e).inum := by rw [s.hold_inode]
  have hdi : ((s.hold sb e).inode e).di = dinodeAt sb s.disk (s.inode e).inum := by rw [s.hold_inode]
  refine ⟨?_, ?_, ?_, hR.fine, ?_⟩
  · rw [hnum]
    exact hR.num
  · rw [hdi, hnum]
    rfl
  · rw [hdi]
    exact hR.type
  · rw [hdi]
    exact hR.filled

theorem wp_iunlock (hlock : (s.inode e).locked = true) (href : 0 < (s.inode e).ref) :
    wp (iunlock e) (fun _ s' => s' = s.release e) F s := by
  have h : ¬ ((s.inode e).locked = false ∨ (s.inode e).ref < 1) := by
    rw [hlock]
    exact fun h => h.elim Bool.noConfusion (Nat.not_lt.mpr href)
  simp only [iunlock, getInode, releasesleep, setInode, wp_bind, wp_get, wp_pure, wp_ite, wp_modify,
    if_neg h]
  rfl

/-- An unlocked inode is ready. -/
theorem Cached.ready (hC : Cached sb s e) (href : 0 < (s.inode e).ref) : Ready sb (s.release e) e := by
  have hino : (s.release e).inode e = { s.inode e with locked := false } := s.inode_putInode_self e _
  have hnum : ((s.release e).inode e).inum = (s.inode e).inum := by rw [hino]
  have hcopy : dinodeAt sb (s.release e).disk ((s.release e).inode e).inum = (s.inode e).di := by
    rw [hnum]
    exact hC.copy.symm
  refine ⟨?_, ?_, ?_, fun _ => ?_, ?_, hC.fine, ?_⟩
  · rw [hnum]
    exact hC.num
  · rw [hino]
    exact href
  · rw [hino]
  · rw [hcopy, hino]
  · rw [hcopy]
    exact hC.type
  · rw [hcopy]
    exact hC.filled

theorem Cached.congr (hC : Cached sb s e) (hd : s'.disk = s.disk) (hi : s'.inode e = s.inode e) :
    Cached sb s' e := by
  obtain ⟨h1, h2, h3, h4, h5⟩ := hC
  refine ⟨?_, ?_, ?_, ?_, ?_⟩ <;> simp only [hd, hi] <;> assumption

/-! ## One transaction -/

/-- The inode on the disk that file `f` is open on. -/
def fileInode (sb : Superblock) (s : State) (f : Nat) : Dinode :=
  dinodeAt sb s.disk (s.inode (s.file f).ip).inum

/-- What `writeChunk` leaves. -/
structure Chunked (sb : Superblock) (s : State) (f : Nat) (chunk : List Byte) (K : Finset Nat)
    (r : Option Nat) (s' : State) : Prop where
  ready : Ready sb s' (s.file f).ip
  num : (s'.inode (s.file f).ip).inum = (s.inode (s.file f).ip).inum
  ops : s'.outstanding = s.outstanding
  refused : Refused (fileInode sb s f).size.toNat (s.file f).off chunk.length →
    r = none ∧ s'.disk = s.disk ∧ s'.lh = s.lh ∧ s'.file = s.file
  wrote : ¬ Refused (fileInode sb s f).size.toNat (s.file f).off chunk.length →
    r = some chunk.length ∧
    s'.file = Function.update s.file f { s.file f with off := (s.file f).off + chunk.length } ∧
    tree sb s'.disk = Function.update (tree sb s.disk) (s.inode (s.file f).ip).inum
      ((tree sb s.disk (s.inode (s.file f).ip).inum).write (s.file f).off chunk) ∧
    Spent sb (s.inode (s.file f).ip).inum K s (fileInode sb s f) s'
      (dinodeAt sb s'.disk (s.inode (s.file f).ip).inum)

theorem Ready.writeChunk {chunk : List Byte} (hL : Layout sb) (hR : Ready sb s (s.file f).ip)
    (hdev : (fileInode sb s f).type ≠ tDev) (hout : 0 < s.outstanding)
    (hlen : chunk.length < uintSize) (hK : ∀ bn ∈ span (s.file f).off chunk.length, placesOf bn ⊆ K)
    (hA : ¬ Refused (fileInode sb s f).size.toNat (s.file f).off chunk.length →
      Affords sb F (s.inode (s.file f).ip).inum K s (fileInode sb s f)) :
    wp (writeChunk sb f chunk) (Chunked sb s f chunk K) F s := by
  have hC := hR.cached
  have hino := s.hold_inode sb (s.file f).ip
  have hdi : ((s.hold sb (s.file f).ip).inode (s.file f).ip).di = fileInode sb s f := by rw [hino]; rfl
  have hnum : ((s.hold sb (s.file f).ip).inode (s.file f).ip).inum = (s.inode (s.file f).ip).inum := by
    rw [hino]
  have hwritei := hC.writei (F := F) (s.file f).off chunk (K := K) hL
    (by rwa [hdi]) hout hlen hK (by rw [hdi, hnum]; exact fun h => ⟨(hA h).log, (hA h).blocks⟩)
  rw [hdi, hnum] at hwritei
  simp only [Fs.writeChunk, getFile, wp_bind, wp_get, wp_pure]
  refine wp_post hR.wp_ilock ?_
  rintro _ _ rfl
  refine wp_post hwritei fun r s2 h2 => ?_
  split at h2
  · rename_i hre
    obtain ⟨rfl, rfl⟩ := h2
    simp only [wp_bind, wp_pure]
    refine wp_post (wp_iunlock (by rw [hino]) (by rw [hino]; exact hR.ref)) ?_
    rintro _ _ rfl
    refine ⟨hC.ready (by rw [hino]; exact hR.ref), ?_, rfl, fun _ => ⟨rfl, rfl, rfl, rfl⟩,
      fun h => absurd hre h⟩
    rw [State.release, State.inode_putInode_self, hino]
  · rename_i hre
    obtain ⟨rfl, hw, hspent⟩ := h2
    have hino2 : s2.inode (s.file f).ip = { (s.hold sb (s.file f).ip).inode (s.file f).ip with
        di := (s2.inode (s.file f).ip).di } := by
      have := congrFun hw.inode (s.file f).ip
      rwa [update_self] at this
    have hlock2 : (s2.inode (s.file f).ip).locked = true := by rw [hino2, hino]
    have href2 : 0 < (s2.inode (s.file f).ip).ref := by
      rw [hino2, hino]
      exact hR.ref
    have hnum2 : (s2.inode (s.file f).ip).inum = (s.inode (s.file f).ip).inum := by rw [hino2, hino]
    simp only [setFile, wp_bind, wp_modify, wp_pure]
    refine wp_post (wp_iunlock (by exact hlock2) (by exact href2)) ?_
    rintro _ _ rfl
    refine ⟨Cached.ready (hw.cached.congr rfl rfl) href2, ?_, hw.ops, fun h => absurd h hre,
      fun _ => ⟨rfl, ?_, ?_, ?_⟩⟩
    · rw [State.release, State.inode_putInode_self]
      exact hnum2
    · show Function.update s2.file f _ = _
      rw [hw.file]
      rfl
    · have htree := hw.toRedisk.tree (by rw [hnum]; exact hR.num)
      rw [hw.node, ← hC.tree_eq, hnum] at htree
      exact htree
    · have hcopy := hw.cached.copy
      rw [hnum2] at hcopy
      rw [hcopy] at hspent
      exact ⟨hspent.log, hspent.blocks⟩

/-- A piece of a request demands at most seven blocks of an empty log. -/
theorem demand_chunk_le {i : Nat} {d : Disk} (hsize : sb.size ≤ fssize) (off : Nat) (src : List Byte) :
    demand sb i (places off (src.take filewriteMax).length) [] d x ≤ 7 := by
  have hlen : (src.take filewriteMax).length ≤ 1536 := by
    rw [List.length_take]
    exact Nat.min_le_left _ _
  have hspan : (span off (src.take filewriteMax).length).card ≤ 4 := by
    refine (card_span_le _ _).trans ?_
    show ((src.take filewriteMax).length + 1022) / 512 ≤ 4
    omega
  have hplaces := card_places_le off (src.take filewriteMax).length
  have hbitmaps : (bitmaps sb).card ≤ 1 := by
    refine card_bitmaps_le (hsize.trans ?_)
    rw [bpb_eq]
    decide
  refine demand_le.trans ?_
  rw [List.length_nil]
  omega

/-- Writing to a device logs nothing. -/
theorem Ready.writeChunk_device {chunk : List Byte} (hR : Ready sb s (s.file f).ip)
    (hdev : (fileInode sb s f).type = tDev) :
    wp (Fs.writeChunk sb f chunk) (fun _ s' => s'.lh = s.lh) F s := by
  have hino := s.hold_inode sb (s.file f).ip
  have hdi : ((s.hold sb (s.file f).ip).inode (s.file f).ip).di = fileInode sb s f := by rw [hino]; rfl
  have hlock : ((s.hold sb (s.file f).ip).inode (s.file f).ip).locked = true := by rw [hino]
  have href : 0 < ((s.hold sb (s.file f).ip).inode (s.file f).ip).ref := by rw [hino]; exact hR.ref
  simp only [Fs.writeChunk, getFile, wp_bind, wp_get, wp_pure]
  refine wp_post hR.wp_ilock ?_
  rintro _ _ rfl
  simp only [writei, consolewrite, getInode, wp_bind, wp_get, wp_pure, wp_ite, hdi, if_pos hdev]
  split
  · refine wp_post (wp_iunlock hlock href) ?_
    rintro _ _ rfl
    refine wp_post (hR.cached.ready href).wp_ilock ?_
    rintro _ _ rfl
    have hlock3 := State.hold_locked ((s.hold sb (s.file f).ip).release (s.file f).ip) sb
      (s.file f).ip
    have href3 := State.hold_ref ((s.hold sb (s.file f).ip).release (s.file f).ip) sb
      (s.file f).ip
    rw [State.release_ref] at href3
    simp only [setFile, wp_modify]
    refine wp_post (wp_iunlock hlock3 (by rw [← href3] at href; exact href)) ?_
    rintro _ _ rfl
    rfl
  · refine wp_post (wp_iunlock hlock href) ?_
    rintro _ _ rfl
    rfl

/-- Between `begin_op` and `end_op`, `filewrite` passes at most `MAXOPBLOCKS` different blocks
to `log_write`, whatever the inode, the offset and the request: from an empty log, this is
what the log holds at the end.  Unless the log is smaller than one reservation, it does not
overflow. -/
theorem transaction_fits (hL : Layout sb) (hsize : sb.size ≤ fssize)
    (hR : Ready sb s (s.file f).ip) (src : List Byte) :
    wp (writeChunk sb f (src.take filewriteMax)) (fun _ s' => s'.lh.length ≤ maxopblocks)
      (fun err => err = .panic "balloc: out of blocks" ∨
        err = .panic "too big a transaction" ∧ sb.nlog ≤ maxopblocks)
      { s with outstanding := s.outstanding + 1, lh := [] } := by
  have hR0 : Ready sb { s with outstanding := s.outstanding + 1, lh := [] } (s.file f).ip :=
    ⟨hR.num, hR.ref, hR.free, hR.copy, hR.type, hR.fine, hR.filled⟩
  by_cases hdev : (fileInode sb s f).type = tDev
  · refine wp_post (hR0.writeChunk_device hdev) fun _ s' h => ?_
    rw [h]
    exact Nat.zero_le _
  have hdemand := demand_chunk_le (i := (s.inode (s.file f).ip).inum) (d := s.disk)
    (x := fileInode sb s f) hsize (s.file f).off src
  have hlen : (src.take filewriteMax).length < uintSize := by
    rw [List.length_take]
    exact lt_of_le_of_lt (Nat.min_le_left _ _) (by decide)
  refine wp_post (hR0.writeChunk hL hdev (Nat.succ_pos _) hlen
    (fun bn hbn => Finset.subset_biUnion_of_mem _ hbn) fun _ => ⟨fun hfull => .inr ⟨rfl, ?_⟩,
      fun _ => .inl rfl⟩) fun r s' h => ?_
  · have hcap : logCap sb ≤ 7 := hfull.trans hdemand
    unfold logCap at hcap
    rw [show logsize = 30 from rfl] at hcap
    show sb.nlog ≤ 10
    omega
  · by_cases hre : Refused (fileInode sb s f).size.toNat (s.file f).off (src.take filewriteMax).length
    · rw [(h.refused hre).2.2.1]
      exact Nat.zero_le _
    · have hspent := (h.wrote hre).2.2.2.log
      exact length_le_demand.trans (hspent.trans (hdemand.trans (by decide)))

/-- A transaction of the new file. -/
theorem transaction_fits_sample : wp (writeChunk sampleSb 0 ([7#8].take filewriteMax))
    (fun _ s' => s'.lh.length ≤ maxopblocks)
    (fun err => err = .panic "balloc: out of blocks" ∨
      err = .panic "too big a transaction" ∧ sampleSb.nlog ≤ maxopblocks)
    { (sampleState tFile).release 0 with outstanding := 2, lh := [] } :=
  transaction_fits sample_layout (by decide) (s := (sampleState tFile).release 0) (f := 0)
    ((sample_cached tFile (by decide)).ready (by decide)) [7#8]

/-! ## The whole request -/

namespace Node

/-- Exactly the bytes `src` at `off` are replaced. -/
def replace (v : Node) (off : Nat) (src : List Byte) : Node := if src = [] then v else v.write off src

theorem replace_of_ne_nil {v : Node} (h : src ≠ []) : v.replace off src = v.write off src := if_neg h

theorem write_append (v : Node) (off : Nat) (a b : List Byte) :
    (v.write off a).write (off + a.length) b = v.write off (a ++ b) := by
  unfold write
  ext1
  · rfl
  · rfl
  · rfl
  · rfl
  · simp only [List.length_append]
    omega
  · funext o
    simp only [List.length_append, List.getD_eq_getElem?_getD]
    by_cases ha : off ≤ o ∧ o < off + a.length
    · rw [if_neg (by omega), if_pos ha, if_pos (by omega), List.getElem?_append_left (by omega)]
    · by_cases hb : off + a.length ≤ o ∧ o < off + a.length + b.length
      · rw [if_pos hb, if_pos (by omega), List.getElem?_append_right (by omega),
          show o - off - a.length = o - (off + a.length) by omega]
      · rw [if_neg hb, if_neg ha, if_neg (by omega)]

/-- A request is replaced piece by piece. -/
theorem replace_take_drop (v : Node) (off n : Nat) (src : List Byte) (hne : src.take n ≠ []) :
    (v.write off (src.take n)).replace (off + (src.take n).length) (src.drop n) = v.replace off src := by
  have hsrc : src ≠ [] := fun h => hne (by rw [h, List.take_nil])
  rw [replace, replace, if_neg hsrc]
  split
  · rename_i hrest
    rw [List.drop_eq_nil_iff] at hrest
    rw [List.take_of_length_le hrest]
  · rw [write_append, List.take_append_drop]

end Node

/-- File `f` is open for writing on a regular file, and no transaction is open. -/
structure Opened (sb : Superblock) (s : State) (f : Nat) : Prop where
  kind : (s.file f).type = .inode
  writable : (s.file f).writable = true
  ready : Ready sb s (s.file f).ip
  regular : (fileInode sb s f).type = tFile
  idle : s.outstanding = 0
  log : s.lh = []

/-- The contents of the file that `f` is open on. -/
def fileNode (sb : Superblock) (s : State) (f : Nat) : Node :=
  tree sb s.disk (s.inode (s.file f).ip).inum

theorem Ready.tree_eq (hR : Ready sb s e) : tree sb s.disk (s.inode e).inum =
    nodeOf s.disk (dinodeAt sb s.disk (s.inode e).inum) := by
  rw [Fs.tree, if_pos hR.num]

theorem Opened.size_eq (hO : Opened sb s f) :
    (fileNode sb s f).size = (fileInode sb s f).size.toNat := by
  rw [fileNode, hO.ready.tree_eq, nodeOf_of_type hO.ready.type]
  rfl

/-- The request `src` has been written and the offset has moved on. -/
structure Advanced (sb : Superblock) (s : State) (f : Nat) (src : List Byte) (K : Finset Nat)
    (s' : State) : Prop where
  opened : Opened sb s' f
  ip : (s'.file f).ip = (s.file f).ip
  num : (s'.inode (s.file f).ip).inum = (s.inode (s.file f).ip).inum
  off : (s'.file f).off = (s.file f).off + src.length
  tree : tree sb s'.disk = Function.update (tree sb s.disk) (s.inode (s.file f).ip).inum
    ((fileNode sb s f).replace (s.file f).off src)
  blocks : (freeBlocks sb s'.disk).card + (missing s.disk (fileInode sb s f) K).card =
    (freeBlocks sb s.disk).card + (missing s'.disk (fileInode sb s' f) K).card

namespace Advanced

variable {s1 s2 : State}

theorem refl (hO : Opened sb s f) : Advanced sb s f [] K s where
  opened := hO
  ip := rfl
  num := rfl
  off := rfl
  tree := (update_eq_self _ _).symm
  blocks := rfl

theorem node (h : Advanced sb s f src K s') :
    fileNode sb s' f = (fileNode sb s f).replace (s.file f).off src := by
  rw [fileNode, h.ip, h.num, h.tree, update_self]

theorem trans {n : Nat} (hne : src.take n ≠ []) (h : Advanced sb s f (src.take n) K s1)
    (h' : Advanced sb s1 f (src.drop n) K s2) : Advanced sb s f src K s2 where
  opened := h'.opened
  ip := h'.ip.trans h.ip
  num := by
    have := h'.num
    rw [h.ip] at this
    exact this.trans h.num
  off := by
    have hlen : (src.take n).length + (src.drop n).length = src.length := by
      rw [← List.length_append, List.take_append_drop]
    rw [h'.off, h.off]
    omega
  tree := by
    rw [h'.tree, h.node, h.off, h.ip, h.num, h.tree, update_idem, Node.replace_of_ne_nil hne,
      Node.replace_take_drop _ _ _ _ hne]
  blocks := by
    have h1 := h.blocks
    have h2 := h'.blocks
    omega

end Advanced

/-- The file system is one that `mkfs` could have made. -/
structure Made (sb : Superblock) : Prop where
  layout : Layout sb
  size : sb.size ≤ fssize
  nlog : maxopblocks < sb.nlog

theorem missing_mono {d : Disk} {K' : Finset Nat} (h : K ⊆ K') :
    (missing d x K).card ≤ (missing d x K').card :=
  Finset.card_le_card (Finset.filter_subset_filter _ h)

/-- One transaction of `filewrite`. -/
theorem Opened.round (hM : Made sb) (hO : Opened sb s f) (hne : src ≠ [])
    (hK : ∀ bn ∈ span (s.file f).off (src.take filewriteMax).length, placesOf bn ⊆ K)
    (hA : ¬ Refused (fileNode sb s f).size (s.file f).off (src.take filewriteMax).length →
      F (.panic "balloc: out of blocks") ∨
        (missing s.disk (fileInode sb s f) K).card ≤ (freeBlocks sb s.disk).card) :
    wp beginOp (fun _ s1 => wp (writeChunk sb f (src.take filewriteMax)) (fun r s2 =>
      wp endOp (fun _ s' =>
        (Refused (fileNode sb s f).size (s.file f).off (src.take filewriteMax).length →
          r = none ∧ s'.disk = s.disk ∧ s'.file = s.file) ∧
        (¬ Refused (fileNode sb s f).size (s.file f).off (src.take filewriteMax).length →
          r = some (src.take filewriteMax).length ∧ Advanced sb s f (src.take filewriteMax) K s'))
        F s2) F s1) F s := by
  have hlen : (src.take filewriteMax).length < uintSize := by
    rw [List.length_take]
    exact lt_of_le_of_lt (Nat.min_le_left _ _) (by decide)
  have hchunk : src.take filewriteMax ≠ [] := by
    rw [ne_eq, List.take_eq_nil_iff, not_or]
    exact ⟨by decide, hne⟩
  have hdev : (fileInode sb s f).type ≠ tDev := by
    rw [hO.regular]
    decide
  rw [hO.size_eq] at hA ⊢
  simp only [beginOp, endOp, wp_bind, wp_get, wp_ite, wp_throw, wp_set, wp_modify]
  rw [if_neg (by rw [hO.idle, hO.log]; decide)]
  have hR : Ready sb { s with outstanding := s.outstanding + 1 } (s.file f).ip :=
    ⟨hO.ready.num, hO.ready.ref, hO.ready.free, hO.ready.copy, hO.ready.type, hO.ready.fine,
      hO.ready.filled⟩
  -- The log is judged by the places of this piece, the disk by those of the whole request.
  have hlog := hR.writeChunk (F := F) hM.layout hdev (Nat.succ_pos _) hlen
    (fun bn hbn => Finset.subset_biUnion_of_mem _ hbn) fun hre => ⟨fun hfull => ?_, fun hfew => ?_⟩
  · have hdisk := hR.writeChunk (F := fun _ => True) hM.layout hdev (Nat.succ_pos _) hlen hK
      fun _ => ⟨fun _ => trivial, fun _ => trivial⟩
    refine wp_post (wp_and_ok hlog hdisk) ?_
    rintro r s2 ⟨-, h2⟩
    refine ⟨fun hre => ?_, fun hre => ?_⟩
    · obtain ⟨hr, hd, _, hf⟩ := h2.refused hre
      exact ⟨hr, hd, hf⟩
    · obtain ⟨hr, hf, htree, hspent⟩ := h2.wrote hre
      have hfile : s2.file f = { s.file f with
          off := (s.file f).off + (src.take filewriteMax).length } := by
        rw [hf, update_self]
      have hip : (s2.file f).ip = (s.file f).ip := by rw [hfile]
      have hops : s2.outstanding = s.outstanding + 1 := h2.ops
      have hinode : fileInode sb s2 f = dinodeAt sb s2.disk (s.inode (s.file f).ip).inum := by
        rw [fileInode, hip, h2.num]
      have hready : Ready sb s2 (s2.file f).ip := by
        rw [hip]
        exact h2.ready
      refine ⟨hr, ⟨?_, ?_, ⟨hready.num, hready.ref, hready.free, hready.copy, hready.type, hready.fine,
        hready.filled⟩, ?_, ?_, ?_⟩, hip, h2.num, by rw [hfile], ?_, ?_⟩
      · rw [hfile]
        exact hO.kind
      · rw [hfile]
        exact hO.writable
      · -- The type of the inode is that of the node, and writing keeps it.
        have hnode := congrArg Node.type (congrFun htree (s.inode (s.file f).ip).inum)
        rw [update_self, Node.write, hO.ready.tree_eq, nodeOf_of_type hO.ready.type, ← h2.num,
          h2.ready.tree_eq, nodeOf_of_type h2.ready.type, h2.num, ← hinode] at hnode
        exact hnode.trans hO.regular
      · show s2.outstanding - 1 = 0
        rw [hops, hO.idle]
      · show (if s2.outstanding - 1 = 0 then [] else s2.lh) = []
        rw [if_pos (by rw [hops, hO.idle])]
      · rw [Node.replace_of_ne_nil hchunk]
        exact htree
      · show (freeBlocks sb s2.disk).card + _ = _ + (missing s2.disk (fileInode sb s2 f) K).card
        rw [hinode]
        exact hspent.blocks
  · have hdemand := demand_chunk_le (i := (s.inode (s.file f).ip).inum) (d := s.disk)
      (x := fileInode sb s f) hM.size (s.file f).off src
    rw [← hO.log] at hdemand
    have hcap : logCap sb ≤ 7 := hfull.trans hdemand
    have hnlog : 10 < sb.nlog := hM.nlog
    unfold logCap at hcap
    rw [show logsize = 30 from rfl] at hcap
    omega
  · refine (hA hre).resolve_right fun hfree => ?_
    have hsub : places (s.file f).off (src.take filewriteMax).length ⊆ K :=
      Finset.biUnion_subset.mpr hK
    have hfew : (freeBlocks sb s.disk).card < (missing s.disk (fileInode sb s f)
      (places (s.file f).off (src.take filewriteMax).length)).card := hfew
    have := missing_mono (d := s.disk) (x := fileInode sb s f) hsub
    omega

theorem span_mono {off m n : Nat} (h : m ≤ n) : span off m ⊆ span off n := by
  intro bn
  rw [mem_span, mem_span]
  rintro ⟨h1, h2, h3⟩
  exact ⟨by omega, h2, h3.trans (Nat.div_le_div_right (by omega))⟩

/-- The loop of `filewrite` writes all of the request if it ends within the largest file.  If
not, it stops with the offset moved, unless the first piece is refused already. -/
theorem Opened.wp_filewriteLoop (hM : Made sb) (fuel : Nat) (hfuel : src.length ≤ fuel)
    (hO : Opened sb s f) (hK : ∀ bn ∈ span (s.file f).off src.length, placesOf bn ⊆ K)
    (hA : ¬ Refused (fileNode sb s f).size (s.file f).off (src.take filewriteMax).length →
      F (.panic "balloc: out of blocks") ∨ ((s.file f).off + src.length ≤ maxfile * bsize ∧
        (missing s.disk (fileInode sb s f) K).card ≤ (freeBlocks sb s.disk).card)) :
    wp (filewriteLoop sb f fuel src) (fun r s' =>
      (r = true ∧ Advanced sb s f src K s' ∧ (src ≠ [] → (s.file f).off ≤ (fileNode sb s f).size ∧
        (s.file f).off + src.length ≤ maxfile * bsize)) ∨
      (r = false ∧ src ≠ [] ∧ ((s.file f).off ≤ (fileNode sb s f).size →
        maxfile * bsize < (s.file f).off + src.length) ∧
        (Refused (fileNode sb s f).size (s.file f).off (src.take filewriteMax).length →
          s'.disk = s.disk ∧ s'.file = s.file) ∧
        (¬ Refused (fileNode sb s f).size (s.file f).off (src.take filewriteMax).length →
          (s.file f).off < (s'.file f).off))) F s := by
  induction fuel generalizing s src with
  | zero =>
    obtain rfl : src = [] := List.length_eq_zero_iff.mp (by omega)
    rw [filewriteLoop, wp_pure]
    exact .inl ⟨rfl, .refl hO, fun h => absurd rfl h⟩
  | succ fuel ih =>
    rw [Fs.wp_filewriteLoop]
    split
    · rename_i hnil
      subst hnil
      exact .inl ⟨rfl, .refl hO, fun h => absurd rfl h⟩
    rename_i hne
    have hpos : 0 < src.length := List.length_pos_of_ne_nil hne
    have hmax : 0 < filewriteMax := by decide
    have htake : (src.take filewriteMax).length = min filewriteMax src.length := List.length_take
    have hdrop : (src.drop filewriteMax).length = src.length - filewriteMax := List.length_drop
    have hchunk : src.take filewriteMax ≠ [] := List.ne_nil_of_length_pos (by omega)
    refine wp_post (hO.round (K := K) hM hne (fun bn hbn => hK bn (span_mono (by omega) hbn))
      fun hre => (hA hre).imp_right And.right) fun _ s1 h1 => ?_
    refine wp_post h1 fun r s2 h2 => ?_
    refine wp_post h2 fun _ s3 h3 => ?_
    by_cases hre : Refused (fileNode sb s f).size (s.file f).off (src.take filewriteMax).length
    · obtain ⟨rfl, hd, hf⟩ := h3.1 hre
      simp only [wp_pure]
      refine .inr ⟨trivial, hne, fun hoff => ?_, fun _ => ⟨hd, hf⟩, fun h => absurd hre h⟩
      unfold Refused at hre
      rw [uintSize_eq] at hre
      have : maxfile * bsize = 71680 := rfl
      omega
    · obtain ⟨rfl, hadv⟩ := h3.2 hre
      have hnode := hadv.node
      rw [Node.replace_of_ne_nil hchunk] at hnode
      have hsize : (fileNode sb s3 f).size =
          max (fileNode sb s f).size ((s.file f).off + (src.take filewriteMax).length) := by
        rw [hnode]
        rfl
      have hoff := hadv.off
      have hblocks := hadv.blocks
      have hfit : (s.file f).off ≤ (fileNode sb s f).size ∧
          (s.file f).off + (src.take filewriteMax).length ≤ maxfile * bsize := by
        unfold Refused at hre
        omega
      simp only [ne_eq, not_true_eq_false, if_false]
      refine wp_post (ih (by omega) hadv.opened (fun bn hbn => hK bn ?_) fun hre' => ?_) ?_
      · rw [hoff, htake, hdrop] at hbn
        refine span_drop (m := min filewriteMax src.length) (by omega) ?_
        rwa [show src.length - min filewriteMax src.length = src.length - filewriteMax by omega]
      · refine (hA hre).imp_right ?_
        rintro ⟨h1, h2⟩
        exact ⟨by omega, by omega⟩
      · rintro r s4 (⟨rfl, hadv', hfit'⟩ | ⟨rfl, hne', hlong, hsame, hmore⟩)
        · refine .inl ⟨rfl, hadv.trans hchunk hadv', fun _ => ⟨hfit.1, ?_⟩⟩
          by_cases hnil : src.drop filewriteMax = []
          · rw [List.drop_eq_nil_iff] at hnil
            omega
          · have := (hfit' hnil).2
            omega
        · have := hlong (by omega)
          refine .inr ⟨rfl, hne, fun _ => by omega, fun h => absurd h hre, fun _ => ?_⟩
          by_cases hre' : Refused (fileNode sb s3 f).size (s3.file f).off
              ((src.drop filewriteMax).take filewriteMax).length
          · rw [(hsame hre').2]
            omega
          · have := hmore hre'
            omega

/-- After a request has been written, no place of it is missing. -/
theorem Advanced.filled (h : Advanced sb s f src K s') :
    missing s'.disk (fileInode sb s' f) (places (s.file f).off src.length) = ∅ := by
  by_cases hnil : src = []
  · subst hnil
    rfl
  · refine missing_places h.opened.ready.filled ?_
    show _ ≤ (fileInode sb s' f).size.toNat
    rw [← h.opened.size_eq, h.node, Node.replace_of_ne_nil hnil]
    exact Nat.le_max_right _ _

/-- `filewrite` on an open file is its loop. -/
theorem Opened.wp_filewrite (hO : Opened sb s f) {Q : Int → State → Prop} :
    wp (filewrite sb f src) Q F s ↔ wp (filewriteLoop sb f src.length src)
      (fun r s' => Q (if r then src.length else -1) s') F s := by
  simp only [filewrite, getFile, wp_bind, wp_get, wp_pure, wp_ite, hO.writable, hO.kind]
  rw [if_neg (by decide)]
  refine iff_of_eq (congrArg (wp _ · F _) (funext fun r => funext fun s' => ?_))
  cases r <;> rfl

/-- The two ways in which `filewrite` returns. -/
theorem Opened.filewrite (src : List Byte) (hM : Made sb) (hO : Opened sb s f)
    (hA : ¬ Refused (fileNode sb s f).size (s.file f).off (min src.length filewriteMax) →
      F (.panic "balloc: out of blocks") ∨ ((s.file f).off + src.length ≤ maxfile * bsize ∧
        (missing s.disk (fileInode sb s f) (places (s.file f).off src.length)).card ≤
          (freeBlocks sb s.disk).card)) :
    wp (filewrite sb f src) (fun r s' =>
      (r = src.length ∧ Advanced sb s f src (places (s.file f).off src.length) s' ∧
        (src ≠ [] → (s.file f).off + src.length ≤ maxfile * bsize)) ∨
      (r = -1 ∧ ((s.file f).off ≤ (fileNode sb s f).size →
        maxfile * bsize < (s.file f).off + src.length) ∧
        (Refused (fileNode sb s f).size (s.file f).off (min src.length filewriteMax) →
          s'.disk = s.disk ∧ s'.file = s.file) ∧
        (¬ Refused (fileNode sb s f).size (s.file f).off (min src.length filewriteMax) →
          (s.file f).off < (s'.file f).off))) F s := by
  have htake : (src.take filewriteMax).length = min src.length filewriteMax := by
    rw [List.length_take, Nat.min_comm]
  rw [← htake] at hA ⊢
  refine hO.wp_filewrite.mpr (wp_post (hO.wp_filewriteLoop hM _ (Nat.le_refl _)
    (fun bn hbn => Finset.subset_biUnion_of_mem _ hbn) hA) ?_)
  rintro r s' (⟨rfl, hadv, hfit⟩ | ⟨rfl, -, hrest⟩)
  · exact .inl ⟨rfl, hadv, fun hne => (hfit hne).2⟩
  · exact .inr ⟨rfl, hrest⟩

/-- `filewrite` returns the length of the request, with exactly these bytes replaced and the
offset moved behind them, or -1 with the contents of the file and the offset as before. -/
def AllOrNothing (sb : Superblock) (s : State) (f : Nat) (src : List Byte) : Prop :=
  ∃ r s', filewrite sb f src s = .ok (r, s') ∧
    ((r = src.length ∧ (s'.file f).off = (s.file f).off + src.length ∧
        tree sb s'.disk = Function.update (tree sb s.disk) (s.inode (s.file f).ip).inum
          ((fileNode sb s f).replace (s.file f).off src)) ∨
      (r = -1 ∧ (s'.file f).off = (s.file f).off ∧
        tree sb s'.disk (s.inode (s.file f).ip).inum = fileNode sb s f))

/-- What a write needs to be all or nothing: it is empty, or its first piece is refused, or it
ends within the largest file and there are blocks for it. -/
def Whole (sb : Superblock) (s : State) (f : Nat) (src : List Byte) : Prop :=
  src = [] ∨ Refused (fileNode sb s f).size (s.file f).off (min src.length filewriteMax) ∨
    ((s.file f).off + src.length ≤ maxfile * bsize ∧
      (missing s.disk (fileInode sb s f) (places (s.file f).off src.length)).card ≤
        (freeBlocks sb s.disk).card)

theorem Opened.whole (hM : Made sb) (hO : Opened sb s f) (h : AllOrNothing sb s f src) :
    Whole sb s f src := by
  obtain ⟨r, s', hrun, hres⟩ := h
  by_contra hcond
  obtain ⟨hne, hcond⟩ := not_or.mp hcond
  obtain ⟨hre, hcond⟩ := not_or.mp hcond
  rcases wp_ok (hO.filewrite (F := fun _ => True) src hM fun _ => .inl trivial) hrun with
    ⟨-, hadv, hfit⟩ | ⟨rfl, -, -, hmoved⟩
  · -- Everything was written, so every missing place has got a free block.
    have hblocks := hadv.blocks
    rw [hadv.filled, Finset.card_empty] at hblocks
    exact hcond ⟨hfit hne, by omega⟩
  · have hmoved := hmoved hre
    rcases hres with ⟨hr, -⟩ | ⟨-, hoff, -⟩
    · omega
    · omega

theorem Opened.allOrNothing (hM : Made sb) (hO : Opened sb s f) (hcond : Whole sb s f src) :
    AllOrNothing sb s f src := by
  by_cases hnil : src = []
  · subst hnil
    have hempty : wp (Fs.filewrite sb f []) (fun r s' => r = 0 ∧ s' = s) (fun _ => False) s := by
      rw [hO.wp_filewrite, List.length_nil, filewriteLoop, wp_pure]
      exact ⟨rfl, rfl⟩
    obtain ⟨r, s', hrun, rfl, rfl⟩ := wp_total hempty
    exact ⟨0, s', hrun, .inl ⟨rfl, rfl, (update_eq_self _ _).symm⟩⟩
  have hcond := hcond.resolve_left hnil
  obtain ⟨r, s', hrun, hpost⟩ := wp_total (hO.filewrite (F := fun _ => False) src hM
    fun hre => .inr (hcond.resolve_left hre))
  refine ⟨r, s', hrun, ?_⟩
  rcases hpost with ⟨hr, hadv, -⟩ | ⟨hr, hlong, hsame, -⟩
  · exact .inl ⟨hr, hadv.off, hadv.tree⟩
  · have hre : Refused (fileNode sb s f).size (s.file f).off (min src.length filewriteMax) := by
      by_contra hre
      have hfit := (hcond.resolve_left hre).1
      have := hlong (by unfold Refused at hre; omega)
      omega
    refine .inr ⟨hr, ?_⟩
    rw [(hsame hre).1, (hsame hre).2]
    exact ⟨rfl, rfl⟩

/-- A write to a regular file is all or nothing exactly if it is empty, or its first piece is
refused, or it ends within the largest file and there are blocks for it. -/
theorem write_all_or_nothing_iff (hM : Made sb) (hO : Opened sb s f) (src : List Byte) :
    AllOrNothing sb s f src ↔ Whole sb s f src :=
  ⟨hO.whole hM, hO.allOrNothing hM⟩

/-- The new file, open with nothing going on. -/
def sampleIdle : State := { (sampleState tFile).release 0 with outstanding := 0 }

theorem sample_made : Made sampleSb := ⟨sample_layout, by decide, by decide⟩

theorem sample_opened : Opened sampleSb sampleIdle 0 := by
  have hR : Ready sampleSb ((sampleState tFile).release 0) 0 :=
    (sample_cached tFile (by decide)).ready (by decide)
  refine ⟨rfl, rfl, ⟨hR.num, hR.ref, hR.free, hR.copy, hR.type, hR.fine, hR.filled⟩, ?_, rfl, rfl⟩
  show (dinodeAt sampleSb (sampleDisk tFile) 1).type = tFile
  rw [sample_dinodeAt (by decide), if_pos rfl]
  rfl

theorem sample_size : (fileNode sampleSb sampleIdle 0).size = 0 := by
  rw [sample_opened.size_eq]
  show (dinodeAt sampleSb (sampleDisk tFile) 1).size.toNat = 0
  rw [sample_dinodeAt (by decide), if_pos rfl]
  rfl

/-- One byte is written to the new file. -/
theorem write_all_or_nothing_byte : AllOrNothing sampleSb sampleIdle 0 [7#8] := by
  refine (write_all_or_nothing_iff sample_made sample_opened [7#8]).mpr (.inr (.inr ⟨by decide, ?_⟩))
  refine card_missing_le.trans ((card_places_le _ _).trans ?_)
  have hspan := card_span_le 0 1
  rw [show (1 + 1022) / bsize = 1 from rfl] at hspan
  have hfree : (freeBlocks sampleSb sampleIdle.disk).card = 941 := sample_free tFile
  have hlen : (span (sampleIdle.file 0).off [7#8].length).card ≤ 1 := hspan
  omega

/-- A request that ends one byte past the largest file is written in part. -/
theorem long_write_partial : ∃ src : List Byte, src.length = 71681 ∧
    Opened sampleSb sampleIdle 0 ∧ ¬ AllOrNothing sampleSb sampleIdle 0 src := by
  obtain ⟨src, hlen⟩ : ∃ src : List Byte, src.length = 71681 :=
    ⟨List.replicate 71681 0#8, List.length_replicate⟩
  refine ⟨src, hlen, sample_opened, fun h => ?_⟩
  have hoff : (sampleIdle.file 0).off = 0 := rfl
  rcases sample_opened.whole sample_made h with rfl | hre | ⟨hfit, -⟩
  · cases hlen
  · rw [sample_size, hlen, hoff] at hre
    exact absurd hre (by decide)
  · rw [hlen, hoff] at hfit
    exact absurd hfit (by decide)

end Xv6.Fs
