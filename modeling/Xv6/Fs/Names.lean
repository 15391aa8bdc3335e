import Xv6.Fs.Write

/-!
# A directory is a finite map (`fs.c`)

The bytes of a directory are entries of 16 bytes.  An entry with inode number 0 is empty, and
the others map the name they hold to their inode number.  Names are compared by their first
14 bytes up to a zero, and `strncpy` stores exactly these, so a stored name is found again
whatever its length.

`lookup` is what `dirlookup` computes.  `dirlink` adds a name to it and erasing an entry
removes one, and no name stands in two entries.  Looking a name up takes a reference to its
inode, and `dirlink` drops it again when the name is there already.  If that inode is the
directory itself, which `dirlink`'s caller has locked, `iput` waits for the lock for ever.
-/

namespace Xv6.Fs

open Prog Absorb Function

/-! ## Names -/

theorem strn_of_short {bs : List Byte} (hlen : bs.length ≤ dirsiz) (h0 : ∀ b ∈ bs, b ≠ 0#8) (n : Nat) :
    strn (bs ++ List.replicate n 0#8) = bs := by
  have htake : ∀ l : List Byte, (bs ++ l).take dirsiz = bs ++ l.take (dirsiz - bs.length) := by
    intro l
    rw [List.take_append, List.take_of_length_le hlen]
  rw [strn, htake, List.takeWhile_append_of_pos fun b hb => by simpa using h0 b hb, List.take_replicate]
  cases min (dirsiz - bs.length) n <;> simp [List.replicate_succ]

theorem strn_mem {name : List Byte} {b : Byte} (hb : b ∈ strn name) : b ≠ 0#8 := by
  have := List.mem_takeWhile_imp hb
  simpa using this

theorem length_strn_le (name : List Byte) : (strn name).length ≤ dirsiz :=
  ((List.takeWhile_sublist _).length_le).trans (List.length_take_le _ _)

/-- What `strncpy` stores is what `strncmp` sees. -/
theorem strn_strncpy (name : List Byte) : strn (strncpy name) = strn name :=
  strn_of_short (length_strn_le name) (fun _ => strn_mem) _

theorem length_strncpy (name : List Byte) : (strncpy name).length = dirsiz := by
  have := length_strn_le name
  rw [strncpy, List.length_append, List.length_replicate]
  omega

theorem namecmp_iff {s t : List Byte} : namecmp s t = true ↔ strn s = strn t := decide_eq_true_iff

theorem namecmp_strncpy {s t : List Byte} : namecmp s (strncpy t) = namecmp s t := by
  rw [namecmp, namecmp, strn_strncpy]

/-! ## Entries -/

/-- An empty entry, as `sys_unlink` writes it. -/
def Dirent.empty : Dirent := ⟨0#16, List.replicate dirsiz 0#8⟩

theorem Dirent.ofBytes_bytes (de : Dirent) : Dirent.ofBytes de.bytes = de := by
  obtain ⟨inum, name⟩ := de
  rw [Dirent.bytes, Dirent.ofBytes]
  congr 1
  show inum.extractLsb' 8 8 ++ inum.extractLsb' 0 8 = inum
  rw [BitVec.extractLsb'_append_extractLsb'_eq_extractLsb' (by decide)]
  exact BitVec.extractLsb'_eq_self

theorem Dirent.length_bytes {de : Dirent} (h : de.name.length = dirsiz) :
    de.bytes.length = direntSize := by
  rw [Dirent.bytes, List.length_append, h]
  rfl

namespace Node

variable {v : Node} {name nm : List Byte} {i j k : Nat} {de : Dirent}

/-- Entry `k` is in use. -/
def Live (v : Node) (k : Nat) : Prop := k < v.entries ∧ (v.entry k).inum ≠ 0#16

/-- Entry `k` is in use for `name`. -/
def Has (v : Node) (name : List Byte) (k : Nat) : Prop :=
  v.Live k ∧ namecmp name (v.entry k).name = true

/-- The first entry for `name`, from entry `k` on. -/
def findFrom (v : Node) (name : List Byte) (k : Nat) : Option Nat :=
  (List.range' k (v.entries - k)).find? fun j =>
    (v.entry j).inum ≠ 0#16 ∧ namecmp name (v.entry j).name = true

/-- The inode number of a name, and the offset of its entry. -/
def lookup (v : Node) (name : List Byte) : Option (Nat × Nat) :=
  (v.findFrom name 0).map fun k => ((v.entry k).inum.toNat, k * direntSize)

/-- The first empty entry from entry `k` on, or the end of the directory. -/
def slotFrom (v : Node) (k : Nat) : Nat :=
  ((List.range' k (v.entries - k)).find? fun j => (v.entry j).inum = 0#16).getD v.entries

/-- No two entries in use have the same name. -/
def Unique (v : Node) : Prop := ∀ j k, v.Live j → v.Live k →
  namecmp (v.entry j).name (v.entry k).name = true → j = k

theorem range_cons (h : k < v.entries) :
    List.range' k (v.entries - k) = k :: List.range' (k + 1) (v.entries - (k + 1)) := by
  rw [show v.entries - k = v.entries - (k + 1) + 1 by omega, List.range'_succ]

theorem findFrom_of_lt (name : List Byte) (h : k < v.entries) : v.findFrom name k =
    if (v.entry k).inum ≠ 0#16 ∧ namecmp name (v.entry k).name = true then some k
    else v.findFrom name (k + 1) := by
  rw [findFrom, range_cons h, List.find?_cons]
  split <;> rename_i hc
  · rw [if_pos (of_decide_eq_true hc)]
  · rw [if_neg (of_decide_eq_false hc)]
    rfl

theorem findFrom_of_le (h : v.entries ≤ k) : v.findFrom name k = none := by
  rw [findFrom, Nat.sub_eq_zero_of_le h]
  rfl

theorem slotFrom_of_lt (h : k < v.entries) : v.slotFrom k =
    if (v.entry k).inum = 0#16 then k else v.slotFrom (k + 1) := by
  rw [slotFrom, range_cons h, List.find?_cons]
  split <;> rename_i hc
  · rw [if_pos (of_decide_eq_true hc)]
    rfl
  · rw [if_neg (of_decide_eq_false hc)]
    rfl

theorem slotFrom_of_le (h : v.entries ≤ k) : v.slotFrom k = v.entries := by
  rw [slotFrom, Nat.sub_eq_zero_of_le h]
  rfl

theorem slotFrom_le : v.slotFrom k ≤ v.entries := by
  unfold slotFrom
  cases hf : (List.range' k (v.entries - k)).find? fun j => (v.entry j).inum = 0#16 with
  | none => exact Nat.le_refl _
  | some j =>
    have := List.mem_of_find?_eq_some hf
    rw [List.mem_range'_1] at this
    show j ≤ v.entries
    omega

/-- The slot is not in use. -/
theorem not_live_slot : ¬ v.Live (v.slotFrom k) := by
  rintro ⟨hlt, hne⟩
  revert hlt hne
  unfold slotFrom
  cases hf : (List.range' k (v.entries - k)).find? fun j => (v.entry j).inum = 0#16 with
  | none => exact fun hlt _ => Nat.lt_irrefl _ hlt
  | some j =>
    have hp := List.find?_some hf
    exact fun _ hne => hne (of_decide_eq_true hp)

theorem has_of_findFrom (h : v.findFrom name 0 = some k) : v.Has name k := by
  have hmem := List.mem_of_find?_eq_some h
  have hp := List.find?_some h
  have hp := of_decide_eq_true hp
  rw [List.mem_range'_1] at hmem
  exact ⟨⟨by omega, hp.1⟩, hp.2⟩

theorem lookup_of_findFrom (h : v.findFrom name 0 = some k) :
    v.lookup name = some ((v.entry k).inum.toNat, k * direntSize) := by
  rw [lookup, h]
  rfl

theorem lookup_eq_none : v.lookup name = none ↔ ∀ k, ¬ v.Has name k := by
  rw [lookup, Option.map_eq_none_iff, findFrom, List.find?_eq_none]
  constructor
  · rintro h k ⟨⟨hlt, hne⟩, hname⟩
    exact h k (List.mem_range'_1.mpr (by omega)) (decide_eq_true ⟨hne, hname⟩)
  · intro h k hk hp
    have hp := of_decide_eq_true hp
    rw [List.mem_range'_1] at hk
    exact h k ⟨⟨by omega, hp.1⟩, hp.2⟩

/-- Two entries for one name are the same. -/
theorem Unique.eq (hu : v.Unique) (hj : v.Has name j) (hk : v.Has name k) : j = k := by
  refine hu j k hj.1 hk.1 ?_
  rw [namecmp_iff, ← namecmp_iff.mp hj.2, namecmp_iff.mp hk.2]

theorem Unique.lookup_of_has (hu : v.Unique) (h : v.Has name k) :
    v.lookup name = some ((v.entry k).inum.toNat, k * direntSize) := by
  cases hf : v.findFrom name 0 with
  | none =>
    have hnone : v.lookup name = none := by rw [lookup, hf]; rfl
    exact absurd h (lookup_eq_none.mp hnone k)
  | some j =>
    rw [lookup, hf, hu.eq (has_of_findFrom hf) h]
    rfl

/-! ## Writing an entry -/

theorem write_bytes (v : Node) (off : Nat) (src : List Byte) (o : Nat) : (v.write off src).bytes o =
    if off ≤ o ∧ o < off + src.length then src.getD (o - off) 0#8 else v.bytes o := rfl

theorem entry_write (hlen : de.name.length = dirsiz) (j k : Nat) :
    (v.write (j * direntSize) de.bytes).entry k = if k = j then de else v.entry k := by
  have hbytes := Dirent.length_bytes hlen
  rw [entry, read]
  by_cases hkj : k = j
  · subst hkj
    rw [if_pos rfl]
    conv_rhs => rw [← Dirent.ofBytes_bytes de]
    refine congrArg Dirent.ofBytes (List.ext_getElem ?_ fun n hn hn' => ?_)
    · rw [List.length_map, List.length_range, hbytes]
    · rw [List.getElem_map, List.getElem_range, write_bytes, if_pos (by omega), Nat.add_sub_cancel_left,
        List.getD_eq_getElem?_getD, List.getElem?_eq_getElem hn']
      rfl
  · rw [if_neg hkj, entry, read]
    refine congrArg Dirent.ofBytes (List.map_congr_left fun n hn => ?_)
    have hn := List.mem_range.mp hn
    rw [write_bytes, if_neg]
    rw [hbytes, show direntSize = 16 from rfl] at *
    omega

section

variable (hsize : v.size % direntSize = 0) (hlen : de.name.length = dirsiz)
include hsize hlen

theorem entries_write (j : Nat) :
    (v.write (j * direntSize) de.bytes).entries = max v.entries (j + 1) := by
  rw [entries, entries, write, Dirent.length_bytes hlen]
  show max v.size (j * direntSize + direntSize) / direntSize = max (v.size / direntSize) (j + 1)
  rw [show direntSize = 16 from rfl] at *
  omega

theorem size_write_mod (j : Nat) :
    (v.write (j * direntSize) de.bytes).size % direntSize = 0 := by
  rw [write, Dirent.length_bytes hlen]
  show max v.size (j * direntSize + direntSize) % direntSize = 0
  rw [show direntSize = 16 from rfl] at *
  omega

end

section

variable (hsize : v.size % direntSize = 0) (hlen : de.name.length = dirsiz) (hj : j ≤ v.entries)
include hsize hlen hj

/-- Which entries are in use after one has been written. -/
theorem live_write : (v.write (j * direntSize) de.bytes).Live k ↔
    if k = j then de.inum ≠ 0#16 else v.Live k := by
  rw [Live, entries_write hsize hlen, entry_write hlen]
  by_cases hk : k = j
  · rw [if_pos hk, if_pos hk]
    exact ⟨And.right, fun h => ⟨by omega, h⟩⟩
  · rw [if_neg hk, if_neg hk, Live]
    refine and_congr_left fun _ => ?_
    omega

theorem has_write : (v.write (j * direntSize) de.bytes).Has nm k ↔
    if k = j then de.inum ≠ 0#16 ∧ namecmp nm de.name = true else v.Has nm k := by
  rw [Has, live_write hsize hlen hj, entry_write hlen]
  by_cases hk : k = j
  · simp only [if_pos hk]
  · simp only [if_neg hk, Has]

end

/-- A new name is written into an entry that is not in use. -/
theorem Unique.link (hu : v.Unique) (hsize : v.size % direntSize = 0) (hj : j ≤ v.entries)
    (hlive : ¬ v.Live j) (hno : v.lookup name = none) (inum : Short) (hi : inum ≠ 0#16) :
    (v.write (j * direntSize) (Dirent.bytes ⟨inum, strncpy name⟩)).Unique ∧
    ∀ nm, (v.write (j * direntSize) (Dirent.bytes ⟨inum, strncpy name⟩)).lookup nm =
      if namecmp nm name then some (inum.toNat, j * direntSize) else v.lookup nm := by
  have hlen : (⟨inum, strncpy name⟩ : Dirent).name.length = dirsiz := length_strncpy name
  have hhas : ∀ nm k, (v.write (j * direntSize) (Dirent.bytes ⟨inum, strncpy name⟩)).Has nm k ↔
      if k = j then namecmp nm name = true else v.Has nm k := by
    intro nm k
    rw [has_write hsize hlen hj, namecmp_strncpy]
    simp only [ne_eq, hi, not_false_eq_true, true_and]
  have hentry := entry_write (v := v) hlen j
  have hno := lookup_eq_none.mp hno
  -- An old name is none that `namecmp` takes for the new one.
  have hold : ∀ k, k ≠ j → v.Live k → namecmp name (v.entry k).name = false := by
    intro k _ hk
    rw [← Bool.not_eq_true]
    exact fun h => hno k ⟨hk, h⟩
  have hunique : (v.write (j * direntSize) (Dirent.bytes ⟨inum, strncpy name⟩)).Unique := by
    intro a b ha hb hab
    rw [live_write hsize hlen hj] at ha hb
    rw [hentry, hentry] at hab
    by_cases haj : a = j <;> by_cases hbj : b = j
    · rw [haj, hbj]
    · rw [if_pos haj, if_neg hbj] at hab
      rw [if_neg hbj] at hb
      have := hold b hbj hb
      rw [namecmp_iff, strn_strncpy, ← namecmp_iff, this] at hab
      cases hab
    · rw [if_neg haj, if_pos hbj] at hab
      rw [if_neg haj] at ha
      have := hold a haj ha
      rw [namecmp_iff, strn_strncpy, eq_comm, ← namecmp_iff, this] at hab
      cases hab
    · rw [if_neg haj, if_neg hbj] at hab
      rw [if_neg haj] at ha
      rw [if_neg hbj] at hb
      exact hu a b ha hb hab
  refine ⟨hunique, fun nm => ?_⟩
  split
  · rename_i hnm
    have := hunique.lookup_of_has ((hhas nm j).mpr (by rwa [if_pos rfl]))
    rwa [hentry, if_pos rfl] at this
  · rename_i hnm
    cases hf : v.findFrom nm 0 with
    | none =>
      have hnone : v.lookup nm = none := by rw [lookup, hf]; rfl
      rw [hnone, lookup_eq_none]
      intro k hk
      rw [hhas] at hk
      split at hk
      · exact hnm hk
      · exact lookup_eq_none.mp hnone k hk
    | some k =>
      have hk := has_of_findFrom hf
      have hkj : k ≠ j := fun h => hlive (h ▸ hk.1)
      rw [hu.lookup_of_has hk, hunique.lookup_of_has ((hhas nm k).mpr (by rwa [if_neg hkj])), hentry,
        if_neg hkj]

/-- The entry of a name is erased. -/
theorem Unique.erase (hu : v.Unique) (hsize : v.size % direntSize = 0) (hj : v.Has name j) :
    (v.write (j * direntSize) Dirent.empty.bytes).Unique ∧
    ∀ nm, (v.write (j * direntSize) Dirent.empty.bytes).lookup nm =
      if namecmp nm name then none else v.lookup nm := by
  have hlen : Dirent.empty.name.length = dirsiz := List.length_replicate
  have hle : j ≤ v.entries := Nat.le_of_lt hj.1.1
  have hhas : ∀ nm k, (v.write (j * direntSize) Dirent.empty.bytes).Has nm k ↔ k ≠ j ∧ v.Has nm k := by
    intro nm k
    rw [has_write hsize hlen hle]
    split
    · rename_i hk
      exact ⟨fun h => absurd rfl h.1, fun h => absurd hk h.1⟩
    · rename_i hk
      exact ⟨fun h => ⟨hk, h⟩, And.right⟩
  have hlive : ∀ k, (v.write (j * direntSize) Dirent.empty.bytes).Live k → k ≠ j ∧ v.Live k := by
    intro k hk
    rw [live_write hsize hlen hle] at hk
    split at hk
    · exact absurd rfl hk
    · rename_i hne
      exact ⟨hne, hk⟩
  have hentry := entry_write (v := v) hlen j
  have hunique : (v.write (j * direntSize) Dirent.empty.bytes).Unique := by
    intro a b ha hb hab
    obtain ⟨haj, ha⟩ := hlive a ha
    obtain ⟨hbj, hb⟩ := hlive b hb
    rw [hentry, hentry, if_neg haj, if_neg hbj] at hab
    exact hu a b ha hb hab
  refine ⟨hunique, fun nm => ?_⟩
  split
  · rename_i hnm
    rw [lookup_eq_none]
    intro k hk
    obtain ⟨hkj, hk⟩ := (hhas nm k).mp hk
    have hkn : v.Has name k := by
      refine ⟨hk.1, ?_⟩
      rw [namecmp_iff, ← namecmp_iff.mp hnm, namecmp_iff.mp hk.2]
    exact hkj (hu.eq hkn hj)
  · rename_i hnm
    cases hf : v.findFrom nm 0 with
    | none =>
      have hnone : v.lookup nm = none := by rw [lookup, hf]; rfl
      rw [hnone, lookup_eq_none]
      exact fun k hk => lookup_eq_none.mp hnone k ((hhas nm k).mp hk).2
    | some k =>
      have hk := has_of_findFrom hf
      have hkj : k ≠ j := by
        rintro rfl
        refine hnm (namecmp_iff.mpr ?_)
        rw [namecmp_iff.mp hk.2, namecmp_iff.mp hj.2]
      rw [hu.lookup_of_has hk, hunique.lookup_of_has ((hhas nm k).mpr ⟨hkj, hk⟩), hentry, if_neg hkj]

end Node

/-! ## References to inodes -/

/-- The entry of the cache that `iget` returns. -/
def igetEntry (s : State) (dev inum : Nat) : Option Nat :=
  ((List.range ninode).find? fun e =>
    0 < (s.inode e).ref ∧ (s.inode e).dev = dev ∧ (s.inode e).inum = inum).or
  ((List.range ninode).find? fun e => (s.inode e).ref = 0)

/-- `iget` has returned entry `ip` for inode `inum`. -/
structure Got (s : State) (inum ip : Nat) (s' : State) : Prop where
  disk : s'.disk = s.disk
  ops : s'.outstanding = s.outstanding
  others : ∀ e, e ≠ ip → s'.inode e = s.inode e
  num : (s'.inode ip).inum = inum
  lock : (s'.inode ip).locked = (s.inode ip).locked
  hit : 0 < (s.inode ip).ref → s'.inode ip = { s.inode ip with ref := (s.inode ip).ref + 1 }
  miss : (s.inode ip).ref = 0 → (s'.inode ip).ref = 1 ∧ (s'.inode ip).valid = false

variable {sb : Superblock} {F : Stop → Prop} {s s' s1 : State} {e ip inum dev : Nat}
  {name : List Byte}

theorem wp_iget (hF : igetEntry s dev inum = none → F (.panic "iget: no inodes")) :
    wp (iget dev inum) (fun ip s' => igetEntry s dev inum = some ip ∧ Got s inum ip s') F s := by
  simp only [iget, setInode, panic, wp_bind, wp_get]
  unfold igetEntry at *
  split
  · rename_i ip hfind
    have hp := List.find?_some hfind
    have hp := of_decide_eq_true hp
    simp only [wp_bind, wp_modify, wp_pure, hfind, Option.some_or]
    refine ⟨trivial, rfl, rfl, fun e he => update_of_ne he _ _, ?_, ?_, fun _ => ?_,
      fun h => ?_⟩
    · simp only [update_self]
      exact hp.2.2
    · simp only [update_self]
    · simp only [update_self]
    · omega
  · rename_i hnone
    split
    · rename_i hfree
      rw [wp_throw]
      exact hF (by rw [hnone, hfree]; rfl)
    · rename_i ip hfind
      have hp := List.find?_some hfind
      have hp := of_decide_eq_true hp
      simp only [wp_bind, wp_modify, wp_pure, hnone, hfind, Option.none_or]
      refine ⟨trivial, rfl, rfl, fun e he => update_of_ne he _ _, ?_, ?_, fun h => ?_,
        fun _ => ?_⟩
      · simp only [update_self]
      · simp only [update_self]
      · omega
      · simp only [update_self, and_self]

/-- The reference that `iget` took is dropped again. -/
theorem Got.wp_iput (hG : Got s inum ip s1) (hfree : (s.inode ip).locked = false) :
    wp (iput sb ip) (fun _ s' => (s'.disk = s.disk ∧ s'.outstanding = s.outstanding) ∧
      ∀ e, 0 < (s.inode e).ref → s'.inode e = s.inode e) F s1 := by
  have hlock : (s1.inode ip).locked = false := by rw [hG.lock, hfree]
  -- Either somebody else has a reference too, or the inode has not been read.
  have hkeep : ¬ ((s1.inode ip).valid = true ∧ (s1.inode ip).di.nlink = 0#16 ∧ (s1.inode ip).ref = 1) := by
    rintro ⟨hval, -, hone⟩
    by_cases href : (s.inode ip).ref = 0
    · rw [(hG.miss href).2] at hval
      cases hval
    · rw [hG.hit (Nat.pos_of_ne_zero href)] at hone
      exact href (Nat.succ.inj hone)
  simp only [iput, acquiresleep, releasesleep, setInode, getInode, wp_bind, wp_get, wp_pure, wp_ite,
    wp_throw, wp_modify, hlock, update_self, update_idem, if_neg hkeep]
  rw [if_neg Bool.false_ne_true]
  refine ⟨⟨hG.disk, hG.ops⟩, fun e href => ?_⟩
  by_cases he : e = ip
  · subst he
    simp only [update_self, hG.hit href, Nat.add_sub_cancel]
    rw [← hfree]
  · simp only [update_of_ne he]
    exact hG.others e he

/-- `iput` waits for ever for a lock that the caller holds. -/
theorem Got.iput_stuck (hG : Got s inum ip s1) (hlock : (s.inode ip).locked = true) :
    wp (iput sb ip) (fun _ _ => False) (fun err => err = .stuck) s1 := by
  have hlock : (s1.inode ip).locked = true := by rw [hG.lock, hlock]
  simp only [iput, acquiresleep, getInode, wp_bind, wp_get, wp_pure, wp_ite, wp_throw, if_pos hlock]

/-! ## Looking up -/

/-- The caller holds the directory of entry `e`, in a transaction. -/
structure HeldDir (sb : Superblock) (s : State) (e : Nat) : Prop extends Cached sb s e where
  dir : (s.inode e).di.type = tDir
  held : (s.inode e).locked = true
  ref : 0 < (s.inode e).ref
  ops : 0 < s.outstanding
  whole : (contents s e).size % direntSize = 0

namespace HeldDir

section

variable (hD : HeldDir sb s e)
include hD

/-- Only the disk and the entry count. -/
theorem congr (hd : s'.disk = s.disk) (hops : s'.outstanding = s.outstanding)
    (hi : s'.inode e = { s.inode e with ref := (s'.inode e).ref }) (href : 0 < (s'.inode e).ref) :
    HeldDir sb s' e ∧ contents s' e = contents s e := by
  have hdi : (s'.inode e).di = (s.inode e).di := by rw [hi]
  have hnum : (s'.inode e).inum = (s.inode e).inum := by rw [hi]
  have hcont : contents s' e = contents s e := by rw [contents, contents, hd, hdi]
  refine ⟨⟨⟨?_, ?_, ?_, ?_, ?_⟩, ?_, ?_, href, ?_, ?_⟩, hcont⟩
  · rw [hnum]
    exact hD.num
  · rw [hdi, hd, hnum]
    exact hD.copy
  · rw [hdi]
    exact hD.type
  · rw [hd]
    exact hD.fine
  · rw [hd, hdi]
    exact hD.filled
  · rw [hdi]
    exact hD.dir
  · rw [hi]
    exact hD.held
  · rw [hops]
    exact hD.ops
  · rw [hcont]
    exact hD.whole

/-- Taking a reference leaves the directory. -/
theorem got (hG : Got s inum ip s') : contents s' e = contents s e := by
  have hdi : (s'.inode e).di = (s.inode e).di := by
    by_cases he : e = ip
    · subst he
      rw [hG.hit hD.ref]
    · rw [hG.others e he]
  rw [contents, contents, hG.disk, hdi]

theorem not_dev : (s.inode e).di.type ≠ tDev := by
  rw [hD.dir]
  decide

theorem size_eq :
    (s.inode e).di.size.toNat = (contents s e).entries * direntSize := by
  have hwhole := hD.whole
  rw [contents, hD.size_node] at hwhole
  rw [contents, Node.entries, hD.size_node]
  exact (Nat.div_mul_cancel (Nat.dvd_of_mod_eq_zero hwhole)).symm

theorem entries_le : (contents s e).entries * 16 ≤ 71680 := by
  have h1 : (s.inode e).di.size.toNat ≤ 71680 := hD.size_le
  rw [hD.size_eq] at h1
  exact h1

/-- An entry is read whole. -/
theorem wp_readEntry {k : Nat} (hk : k < (contents s e).entries) :
    wp (readi sb e (k * direntSize) direntSize) (fun r s' => s' = s ∧
      r = some ((contents s e).read (k * direntSize) direntSize)) F s := by
  have hsize : (s.inode e).di.size.toNat = (contents s e).entries * 16 := hD.size_eq
  have hle := hD.entries_le
  refine wp_post (hD.readi hD.not_dev (k * direntSize) direntSize (by decide)) fun r s' h => ⟨h.1, ?_⟩
  rw [h.2, uintSize_eq, show direntSize = 16 from rfl, if_neg (by omega), Nat.min_eq_left (by omega)]
  rfl

end

/-- What `dirlookup` leaves, from entry `k` on. -/
def Looked (s : State) (e : Nat) (name : List Byte) (k : Nat) (r : Option (Nat × Nat)) (s' : State) :
    Prop :=
  match (contents s e).findFrom name k with
  | none => r = none ∧ s' = s
  | some j => ∃ ip, r = some (ip, j * direntSize) ∧
      igetEntry s (s.inode e).dev ((contents s e).entry j).inum.toNat = some ip ∧
      Got s ((contents s e).entry j).inum.toNat ip s'

theorem wp_lookupLoop (name : List Byte) (hD : HeldDir sb s e) (fuel k : Nat)
    (hfuel : (contents s e).entries < k + fuel)
    (hF : ∀ j, (contents s e).findFrom name k = some j →
      igetEntry s (s.inode e).dev ((contents s e).entry j).inum.toNat = none →
      F (.panic "iget: no inodes")) :
    wp (lookupLoop sb e name fuel (k * direntSize)) (Looked s e name k) F s := by
  induction fuel generalizing k with
  | zero =>
    rw [lookupLoop, wp_pure, Looked, Node.findFrom_of_le (by omega)]
    exact ⟨rfl, rfl⟩
  | succ fuel ih =>
    simp only [lookupLoop, getInode, panic, wp_bind, wp_get, wp_pure, wp_ite, wp_throw]
    rw [hD.size_eq]
    by_cases hk : k < (contents s e).entries
    · rw [if_pos (Nat.mul_lt_mul_of_pos_right hk (by decide))]
      refine wp_post (hD.wp_readEntry hk) fun r s2 h => ?_
      rw [h.1, h.2]
      have hlen : ((contents s e).read (k * direntSize) direntSize).length = direntSize := by
        rw [Node.read, List.length_map, List.length_range]
      rw [Option.getD_some, if_neg (fun h => h hlen)]
      have hstep := Node.findFrom_of_lt name hk
      show if ((contents s e).entry k).inum ≠ 0#16 ∧ namecmp name ((contents s e).entry k).name = true
        then wp (iget (s.inode e).dev ((contents s e).entry k).inum.toNat) _ F s else _
      split
      · rename_i hc
        rw [if_pos hc] at hstep
        refine wp_post (wp_iget (hF k hstep)) ?_
        rintro ip s2 ⟨hentry, hG⟩
        unfold Looked
        rw [hstep]
        exact ⟨ip, rfl, hentry, hG⟩
      · rename_i hc
        rw [if_neg hc] at hstep
        unfold Looked
        rw [hstep]
        rw [hstep] at hF
        have := ih (k + 1) (by omega) hF
        rw [Nat.add_mul, Nat.one_mul] at this
        exact this
    · rw [if_neg fun h => hk (Nat.lt_of_mul_lt_mul_right h), Looked, Node.findFrom_of_le (by omega)]
      exact ⟨rfl, rfl⟩

theorem wp_dirlookup (hD : HeldDir sb s e)
    (hF : ∀ j, (contents s e).findFrom name 0 = some j →
      igetEntry s (s.inode e).dev ((contents s e).entry j).inum.toNat = none →
      F (.panic "iget: no inodes")) :
    wp (dirlookup sb e name) (Looked s e name 0) F s := by
  simp only [dirlookup, getInode, panic, wp_bind, wp_get, wp_pure, wp_ite, wp_throw]
  rw [if_neg (fun h => h hD.dir), hD.size_eq, Nat.mul_div_cancel _ (by decide : 0 < direntSize)]
  have := hD.wp_lookupLoop name ((contents s e).entries + 1) 0 (by omega) hF
  rwa [Nat.zero_mul] at this

theorem wp_emptyLoop (hD : HeldDir sb s e) (fuel k : Nat)
    (hfuel : (contents s e).entries < k + fuel) (hk : k ≤ (contents s e).entries) :
    wp (emptyLoop sb e fuel (k * direntSize))
      (fun off s' => off = (contents s e).slotFrom k * direntSize ∧ s' = s) F s := by
  induction fuel generalizing k with
  | zero => omega
  | succ fuel ih =>
    simp only [emptyLoop, getInode, panic, wp_bind, wp_get, wp_pure, wp_ite, wp_throw]
    rw [hD.size_eq]
    by_cases hlt : k < (contents s e).entries
    · rw [if_pos (Nat.mul_lt_mul_of_pos_right hlt (by decide))]
      refine wp_post (hD.wp_readEntry hlt) fun r s2 h => ?_
      rw [h.1, h.2]
      have hlen : ((contents s e).read (k * direntSize) direntSize).length = direntSize := by
        rw [Node.read, List.length_map, List.length_range]
      rw [Option.getD_some, if_neg (fun h => h hlen), Node.slotFrom_of_lt hlt]
      show if ((contents s e).entry k).inum = 0#16 then _ else _
      split
      · exact ⟨rfl, rfl⟩
      · have := ih (k + 1) (by omega) hlt
        rw [Nat.add_mul, Nat.one_mul] at this
        exact this
    · rw [if_neg fun h => hlt (Nat.lt_of_mul_lt_mul_right h), Node.slotFrom_of_le (by omega)]
      rw [show k = (contents s e).entries by omega]
      exact ⟨rfl, trivial⟩

/-! ## Adding and erasing a name -/

/-- An entry is written. -/
theorem written {k : Nat} {de : Dirent} (hD : HeldDir sb s e) (hlen : de.name.length = dirsiz)
    (hw : Written sb s e (k * direntSize) de.bytes s') : HeldDir sb s' e ∧
      contents s' e = (contents s e).write (k * direntSize) de.bytes := by
  have hino : s'.inode e = { s.inode e with di := (s'.inode e).di } := by
    have := congrFun hw.inode e
    rwa [update_self] at this
  have htype : (s'.inode e).di.type = (s.inode e).di.type := by
    have := congrArg Node.type hw.node
    rwa [nodeOf_of_type hw.cached.type, Node.write, nodeOf_of_type hD.type] at this
  refine ⟨⟨hw.cached, ?_, ?_, ?_, ?_, ?_⟩, hw.node⟩
  · rw [htype]
    exact hD.dir
  · rw [hino]
    exact hD.held
  · rw [hino]
    exact hD.ref
  · rw [hw.ops]
    exact hD.ops
  · rw [contents, hw.node]
    exact Node.size_write_mod hD.whole hlen k

/-- Nothing keeps `dirlink` from returning: if the name is there, the inode it names is not
locked, and if not, there is room for a new entry. -/
def Clear (sb : Superblock) (s : State) (e : Nat) (name : List Byte) : Prop :=
  match (contents s e).findFrom name 0 with
  | some j => ∃ ip, igetEntry s (s.inode e).dev ((contents s e).entry j).inum.toNat = some ip ∧
      (s.inode ip).locked = false
  | none =>
    (contents s e).slotFrom 0 * direntSize + direntSize ≤ maxfile * bsize ∧
    (missing s.disk (s.inode e).di
      (places ((contents s e).slotFrom 0 * direntSize) direntSize)).card ≤ (freeBlocks sb s.disk).card ∧
    demand sb (s.inode e).inum (places ((contents s e).slotFrom 0 * direntSize) direntSize) s.lh
      s.disk (s.inode e).di < logCap sb

/-- What `dirlink` leaves. -/
def Linked (sb : Superblock) (s : State) (e : Nat) (name : List Byte) (inum : Nat) (r : Bool)
    (s' : State) : Prop :=
  HeldDir sb s' e ∧ ((s'.inode e).dev = (s.inode e).dev ∧ (s'.inode e).inum = (s.inode e).inum) ∧
  match (contents s e).findFrom name 0 with
  | some _ => r = false ∧ contents s' e = contents s e
  | none => r = true ∧ contents s' e = (contents s e).write ((contents s e).slotFrom 0 * direntSize)
      (Dirent.bytes ⟨BitVec.ofNat 16 inum, strncpy name⟩)

theorem wp_dirlink (hL : Layout sb) (hD : HeldDir sb s e) (inum : Nat)
    (hF : Clear sb s e name ∨ ∀ err, F err) :
    wp (dirlink sb e name inum) (Linked sb s e name inum) F s := by
  simp only [dirlink, wp_bind]
  refine wp_post (hD.wp_dirlookup fun j hj hnone => ?_) fun r s1 h1 => ?_
  · rcases hF with hclear | hF
    · unfold Clear at hclear
      rw [hj] at hclear
      obtain ⟨ip, hip, -⟩ := hclear
      rw [hnone] at hip
      cases hip
    · exact hF _
  unfold Looked at h1
  unfold Clear at hF
  unfold Linked
  cases hfind : (contents s e).findFrom name 0 with
  | some j =>
    rw [hfind] at h1 hF
    obtain ⟨ip, rfl, hip, hG⟩ := h1
    simp only [wp_bind, wp_pure]
    by_cases hlock : (s.inode ip).locked = true
    · refine wp_mono (hG.iput_stuck hlock) (fun _ _ h => h.elim) fun err _ => ?_
      rcases hF with ⟨ip', hip', hfree⟩ | hF
      · rw [hip] at hip'
        obtain rfl := Option.some.inj hip'
        rw [hlock] at hfree
        cases hfree
      · exact hF _
    · refine wp_post (hG.wp_iput (by simpa using hlock)) ?_
      rintro _ s2 ⟨⟨hd, hops⟩, hi⟩
      have hi := hi e hD.ref
      obtain ⟨hD2, hcont⟩ := hD.congr hd hops (by rw [hi]) (by rw [hi]; exact hD.ref)
      exact ⟨hD2, ⟨by rw [hi], by rw [hi]⟩, trivial, hcont⟩
  | none =>
    rw [hfind] at h1 hF
    obtain ⟨rfl, hs1⟩ := h1
    rw [hs1]
    simp only [getInode, panic, wp_bind, wp_get, wp_pure, wp_ite, wp_throw]
    rw [hD.size_eq, Nat.mul_div_cancel _ (by decide : 0 < direntSize)]
    have hempty := hD.wp_emptyLoop (F := F) ((contents s e).entries + 1) 0 (by omega) (Nat.zero_le _)
    rw [Nat.zero_mul] at hempty
    refine wp_post hempty ?_
    rintro off s2 ⟨hoff, hs2⟩
    rw [hoff, hs2]
    have hname : (⟨BitVec.ofNat 16 inum, strncpy name⟩ : Dirent).name.length = dirsiz :=
      length_strncpy name
    have hlen := Dirent.length_bytes hname
    have hslot : (contents s e).slotFrom 0 ≤ (contents s e).entries := Node.slotFrom_le
    have hentries := hD.entries_le
    have hsize := hD.size_eq
    refine wp_post (hD.writei (F := F) ((contents s e).slotFrom 0 * direntSize) _
      (K := places ((contents s e).slotFrom 0 * direntSize) direntSize) hL hD.not_dev hD.ops
      (by rw [hlen]; decide) (fun bn hbn => ?_) fun _ => ?_) fun r s3 h3 => ?_
    · rw [hlen] at hbn
      exact Finset.subset_biUnion_of_mem _ hbn
    · rcases hF with ⟨-, hfree, hroom⟩ | hF
      · exact ⟨fun h => absurd hroom (Nat.not_lt.mpr h), fun h => absurd hfree (Nat.not_le.mpr h)⟩
      · exact ⟨fun _ => hF _, fun _ => hF _⟩
    · rw [hlen] at h3
      split at h3
      · rename_i hre
        obtain ⟨rfl, -⟩ := h3
        rw [if_pos (by simp)]
        rcases hF with ⟨hfit, -⟩ | hF
        · unfold Refused at hre
          rw [hsize, uintSize_eq, show maxfile * bsize = 71680 from rfl,
            show direntSize = 16 from rfl] at *
          omega
        · exact hF _
      · obtain ⟨rfl, hw, -⟩ := h3
        rw [if_neg fun h => h rfl]
        obtain ⟨hD3, hcont⟩ := hD.written hname hw
        refine ⟨hD3, ?_, trivial, hcont⟩
        rw [hw.inode, update_self]
        exact ⟨rfl, rfl⟩

/-- If the name is there and its inode is locked by the caller, `dirlink` never returns. -/
theorem dirlink_stuck (hD : HeldDir sb s e) {j ip : Nat} (hj : (contents s e).findFrom name 0 = some j)
    (hip : igetEntry s (s.inode e).dev ((contents s e).entry j).inum.toNat = some ip)
    (hlock : (s.inode ip).locked = true) (inum : Nat) :
    dirlink sb e name inum s = .error .stuck := by
  have hstuck : wp (dirlink sb e name inum) (fun _ _ => False) (fun err => err = .stuck) s := by
    simp only [dirlink, wp_bind]
    refine wp_post (hD.wp_dirlookup fun j' hj' hnone => ?_) fun r s1 h1 => ?_
    · rw [hj] at hj'
      obtain rfl := Option.some.inj hj'
      rw [hip] at hnone
      cases hnone
    · unfold Looked at h1
      rw [hj] at h1
      obtain ⟨ip', rfl, hip', hG⟩ := h1
      rw [hip] at hip'
      obtain rfl := Option.some.inj hip'
      simp only [wp_bind]
      exact wp_post (hG.iput_stuck hlock) fun _ _ h => h.elim
  obtain ⟨err, herr, rfl⟩ := wp_stops hstuck
  exact herr

/-- `sys_unlink` erases an entry. -/
theorem wp_erase (hL : Layout sb) (hD : HeldDir sb s e) {k : Nat} (hk : k < (contents s e).entries)
    (hF : demand sb (s.inode e).inum (places (k * direntSize) direntSize) s.lh s.disk
      (s.inode e).di < logCap sb ∨ ∀ err, F err) :
    wp (writei sb e (List.replicate direntSize 0#8) (k * direntSize)) (fun r s' =>
      r = some direntSize ∧ HeldDir sb s' e ∧
      contents s' e = (contents s e).write (k * direntSize) Dirent.empty.bytes) F s := by
  have hname : Dirent.empty.name.length = dirsiz := List.length_replicate
  have hlen : (List.replicate direntSize 0#8).length = direntSize := List.length_replicate
  have hentries := hD.entries_le
  have hsize : (s.inode e).di.size.toNat = (contents s e).entries * 16 := hD.size_eq
  have hre : ¬ Refused (s.inode e).di.size.toNat (k * direntSize) direntSize := by
    unfold Refused
    rw [uintSize_eq, show maxfile * bsize = 71680 from rfl, show direntSize = 16 from rfl]
    omega
  have hmiss : missing s.disk (s.inode e).di (places (k * direntSize) direntSize) = ∅ := by
    refine missing_places hD.filled ?_
    rw [hsize, show direntSize = 16 from rfl]
    omega
  refine wp_post (hD.writei (F := F) _ _ (K := places (k * direntSize) direntSize) hL hD.not_dev hD.ops
    (by rw [hlen]; decide) (fun bn hbn => ?_) fun _ => ?_) fun r s' h => ?_
  · rw [hlen] at hbn
    exact Finset.subset_biUnion_of_mem _ hbn
  · rcases hF with hroom | hF
    · refine ⟨fun h => absurd hroom (Nat.not_lt.mpr h), fun h => ?_⟩
      rw [hmiss] at h
      exact absurd h (Nat.not_lt_zero _)
    · exact ⟨fun _ => hF _, fun _ => hF _⟩
  · rw [hlen, if_neg hre] at h
    obtain ⟨rfl, hw, -⟩ := h
    obtain ⟨hD', hcont⟩ := hD.written hname hw
    exact ⟨rfl, hD', hcont⟩

end HeldDir

/-! ## Runs -/

/-- What happens to a directory. -/
inductive DirEvent where
  | link (name : List Byte) (inum : Nat)
  | erase (name : List Byte)
  | other

/-- The directory is as before, whatever else has changed. -/
def Kept (sb : Superblock) (e : Nat) (s s' : State) : Prop :=
  HeldDir sb s' e ∧ contents s' e = contents s e

/-- A name is added, or erased where `dirlookup` has found it, or something else happens. -/
inductive DirStep (sb : Superblock) (e : Nat) : State → DirEvent → State → Prop where
  | link {s s' : State} {name : List Byte} {inum : Nat} {r : Bool} : 0 < inum → inum < 65536 →
      dirlink sb e name inum s = .ok (r, s') → DirStep sb e s (.link name inum) s'
  | erase {s s1 s2 s' : State} {name : List Byte} {ip off : Nat} {r : Option Nat} :
      dirlookup sb e name s = .ok (some (ip, off), s1) → Kept sb e s1 s2 →
      writei sb e (List.replicate direntSize 0#8) off s2 = .ok (r, s') →
      DirStep sb e s (.erase name) s'
  | other {s s' : State} : Kept sb e s s' → DirStep sb e s .other s'

/-- The directory is a finite map. -/
structure IsMap (sb : Superblock) (s : State) (e : Nat) : Prop extends HeldDir sb s e where
  unique : (contents s e).Unique

theorem ofNat_ne_zero {inum : Nat} (h0 : 0 < inum) (hlt : inum < 65536) :
    BitVec.ofNat 16 inum ≠ 0#16 ∧ (BitVec.ofNat 16 inum).toNat = inum := by
  have hnat : (BitVec.ofNat 16 inum).toNat = inum := by
    rw [BitVec.toNat_ofNat, Nat.mod_eq_of_lt hlt]
  refine ⟨fun h => ?_, hnat⟩
  rw [h] at hnat
  exact h0.ne hnat

namespace IsMap

/-- What a name means after `dirlink`. -/
theorem linked (hM : IsMap sb s e) (h0 : 0 < inum) (hlt : inum < 65536) {r : Bool}
    (h : HeldDir.Linked sb s e name inum r s') : IsMap sb s' e ∧
      (r = false ↔ (contents s e).lookup name ≠ none) ∧
      (r = false → contents s' e = contents s e) ∧
      (r = true → ∃ off, ∀ nm, (contents s' e).lookup nm =
        if namecmp nm name then some (inum, off) else (contents s e).lookup nm) := by
  obtain ⟨hD', -, hres⟩ := h
  obtain ⟨hne, hnat⟩ := ofNat_ne_zero h0 hlt
  cases hfind : (contents s e).findFrom name 0 with
  | some j =>
    rw [hfind] at hres
    obtain ⟨rfl, hcont⟩ := hres
    refine ⟨⟨hD', by rw [hcont]; exact hM.unique⟩, ?_, fun _ => hcont, nofun⟩
    rw [Node.lookup_of_findFrom hfind]
    simp
  | none =>
    rw [hfind] at hres
    obtain ⟨rfl, hcont⟩ := hres
    have hno : (contents s e).lookup name = none := by rw [Node.lookup, hfind]; rfl
    obtain ⟨hu, hlook⟩ := hM.unique.link hM.whole Node.slotFrom_le Node.not_live_slot hno
      (BitVec.ofNat 16 inum) hne
    rw [hnat] at hlook
    rw [← hcont] at hu hlook
    refine ⟨⟨hD', hu⟩, by simp [hno], nofun, fun _ => ⟨_, hlook⟩⟩

/-- What a name means after its entry has been erased. -/
theorem erased (hM : IsMap sb s e) {j : Nat} (hj : (contents s e).findFrom name 0 = some j)
    (hD' : HeldDir sb s' e)
    (hcont : contents s' e = (contents s e).write (j * direntSize) Dirent.empty.bytes) :
    IsMap sb s' e ∧ ∀ nm, (contents s' e).lookup nm =
      if namecmp nm name then none else (contents s e).lookup nm := by
  obtain ⟨hu, hlook⟩ := hM.unique.erase hM.whole (Node.has_of_findFrom hj)
  rw [← hcont] at hu hlook
  exact ⟨⟨hD', hu⟩, hlook⟩

theorem step (hL : Layout sb) (hM : IsMap sb s e) {ev : DirEvent} (h : DirStep sb e s ev s') :
    IsMap sb s' e := by
  cases h with
  | link h0 hlt hrun =>
    have hpost := wp_ok (hM.wp_dirlink (F := fun _ => True) hL _ (.inr fun _ => trivial)) hrun
    exact (hM.linked h0 hlt hpost).1
  | erase hrun hkept hwrite =>
    rename_i s1 s2 name ip off r
    have hlook := wp_ok (hM.wp_dirlookup (F := fun _ => True) fun _ _ _ => trivial) hrun
    unfold HeldDir.Looked at hlook
    cases hfind : (contents s e).findFrom name 0 with
    | none =>
      rw [hfind] at hlook
      cases hlook.1
    | some j =>
      rw [hfind] at hlook
      obtain ⟨ip', heq, -, hG⟩ := hlook
      obtain ⟨-, rfl⟩ := Prod.mk.inj (Option.some.inj heq)
      have hcont2 : contents s2 e = contents s e := hkept.2.trans (hM.got hG)
      have hM2 : IsMap sb s2 e := ⟨hkept.1, by rw [hcont2]; exact hM.unique⟩
      have hfind2 : (contents s2 e).findFrom name 0 = some j := by rw [hcont2, hfind]
      have hj := (Node.has_of_findFrom hfind2).1.1
      obtain ⟨-, hD', hcont⟩ := wp_ok (hM2.wp_erase (F := fun _ => True) hL hj
        (.inr fun _ => trivial)) hwrite
      exact (hM2.erased hfind2 hD' hcont).1
  | other hkept => exact ⟨hkept.1, by rw [hkept.2]; exact hM.unique⟩

end IsMap

/-- A directory reached from an empty one by adding and erasing names is a finite map.  Where
nothing keeps `dirlink` from returning, it fails exactly if the name is there, and otherwise
adds it and leaves all other names; erasing where `dirlookup` found a name removes it and no
other. -/
theorem directory_is_map {s0 : State} {es : List DirEvent} (hL : Layout sb)
    (h0 : HeldDir sb s0 e) (hempty : (contents s0 e).size = 0)
    (hrun : Trace.Run (DirStep sb e) s0 es s) :
    (contents s e).Unique ∧
    (∀ name, wp (dirlookup sb e name) (fun r s' => contents s' e = contents s e ∧
        r.map (fun x => ((s'.inode x.1).inum, x.2)) = (contents s e).lookup name)
      (fun err => err = .panic "iget: no inodes") s) ∧
    (∀ name inum, 0 < inum → inum < 65536 → HeldDir.Clear sb s e name →
      ∃ r s', dirlink sb e name inum s = .ok (r, s') ∧
        (r = false ↔ (contents s e).lookup name ≠ none) ∧
        (r = false → contents s' e = contents s e) ∧
        (r = true → ∃ off, ∀ nm, (contents s' e).lookup nm =
          if namecmp nm name then some (inum, off) else (contents s e).lookup nm)) ∧
    ∀ name inum off, (contents s e).lookup name = some (inum, off) →
      demand sb (s.inode e).inum (places off direntSize) s.lh s.disk (s.inode e).di < logCap sb →
      ∃ s', writei sb e (List.replicate direntSize 0#8) off s = .ok (some direntSize, s') ∧
        ∀ nm, (contents s' e).lookup nm =
          if namecmp nm name then none else (contents s e).lookup nm := by
  have hM : IsMap sb s e := by
    refine hrun.invariant (I := fun s => IsMap sb s e) ⟨h0, ?_⟩ fun _ _ _ hM hstep => hM.step hL hstep
    rintro j k ⟨hj, -⟩
    rw [Node.entries, hempty] at hj
    exact absurd hj (Nat.not_lt_zero _)
  refine ⟨hM.unique, fun name => ?_, fun name inum hpos hlt hclear => ?_,
    fun name inum off hlook hroom => ?_⟩
  · refine wp_post (hM.wp_dirlookup fun _ _ _ => rfl) fun r s' h => ?_
    unfold HeldDir.Looked at h
    cases hfind : (contents s e).findFrom name 0 with
    | none =>
      rw [hfind] at h
      obtain ⟨rfl, rfl⟩ := h
      exact ⟨rfl, by rw [Node.lookup, hfind]; rfl⟩
    | some j =>
      rw [hfind] at h
      obtain ⟨ip, rfl, -, hG⟩ := h
      refine ⟨hM.got hG, ?_⟩
      rw [Node.lookup_of_findFrom hfind, ← hG.num]
      rfl
  · obtain ⟨r, s', hret, hpost⟩ := wp_total (hM.wp_dirlink (F := fun _ => False) hL inum (.inl hclear))
    exact ⟨r, s', hret, (hM.linked hpos hlt hpost).2⟩
  · cases hfind : (contents s e).findFrom name 0 with
    | none =>
      rw [Node.lookup, hfind] at hlook
      cases hlook
    | some j =>
      rw [Node.lookup_of_findFrom hfind] at hlook
      obtain ⟨-, rfl⟩ := Prod.mk.inj (Option.some.inj hlook)
      obtain ⟨r, s', hret, rfl, hD', hcont⟩ := wp_total (hM.wp_erase (F := fun _ => False) hL
        (Node.has_of_findFrom hfind).1.1 (.inl hroom))
      exact ⟨s', hret, (hM.erased hfind hD' hcont).2⟩

theorem sample_heldDir : HeldDir sampleSb (sampleState tDir) 0 :=
  ⟨sample_cached tDir (by decide), rfl, rfl, by decide, by decide, rfl⟩

theorem sample_clear : HeldDir.Clear sampleSb (sampleState tDir) 0 [46#8] := by
  obtain ⟨hfree, hroom⟩ := sample_needs tDir 0 16 (by decide)
  exact ⟨by decide, hfree, hroom⟩

/-- The name `.` is added to the new directory. -/
theorem directory_is_map_dot : ∃ r s', dirlink sampleSb 0 [46#8] 1 (sampleState tDir) = .ok (r, s') ∧
    (r = true → ∃ off, (contents s' 0).lookup [46#8] = some (1, off)) := by
  obtain ⟨-, -, hlink, -⟩ := directory_is_map sample_layout sample_heldDir rfl .nil
  obtain ⟨r, s', hret, -, -, hlook⟩ := hlink [46#8] 1 (by decide) (by decide) sample_clear
  refine ⟨r, s', hret, fun hr => ?_⟩
  obtain ⟨off, hoff⟩ := hlook hr
  exact ⟨off, by rw [hoff, if_pos (by decide)]⟩

/-- Adding `.` to the new directory a second time, the name of the directory itself, never
returns. -/
theorem relink_dot_stuck : ∃ s1, DirStep sampleSb 0 (sampleState tDir) (.link [46#8] 1) s1 ∧
    (∃ off, (contents s1 0).lookup [46#8] = some (1, off)) ∧
    dirlink sampleSb 0 [46#8] 2 s1 = .error .stuck := by
  obtain ⟨r, s1, hret, hpost⟩ := wp_total (sample_heldDir.wp_dirlink (F := fun _ => False)
    sample_layout 1 (.inl sample_clear))
  have hM : IsMap sampleSb (sampleState tDir) 0 := ⟨sample_heldDir, fun _ _ h => absurd h.1 (Nat.not_lt_zero _)⟩
  obtain ⟨hM1, hfail, -, hlook⟩ := hM.linked (by decide) (by decide) hpost
  obtain ⟨-, ⟨hdev, hnum⟩, -⟩ := hpost
  have hr : r = true := by
    cases r with
    | true => rfl
    | false => exact absurd rfl (hfail.mp rfl)
  obtain ⟨off, hoff⟩ := hlook hr
  have hdot : (contents s1 0).lookup [46#8] = some (1, off) := by rw [hoff, if_pos (by decide)]
  refine ⟨s1, .link (by decide) (by decide) hret, ⟨off, hdot⟩, ?_⟩
  cases hfind : (contents s1 0).findFrom [46#8] 0 with
  | none =>
    rw [Node.lookup, hfind] at hdot
    cases hdot
  | some j =>
    rw [Node.lookup_of_findFrom hfind] at hdot
    have hinum := (Prod.mk.inj (Option.some.inj hdot)).1
    -- The directory's own entry is the first that `iget` looks at.
    have hself : igetEntry s1 (s1.inode 0).dev ((contents s1 0).entry j).inum.toNat = some 0 := by
      rw [hinum, igetEntry, show List.range ninode = 0 :: List.range' 1 49 from rfl,
        List.find?_cons_of_pos]
      · rfl
      · rw [decide_eq_true_eq]
        exact ⟨hM1.ref, rfl, hnum⟩
    exact hM1.dirlink_stuck hfind hself hM1.held 2

end Xv6.Fs
