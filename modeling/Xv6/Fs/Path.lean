import Xv6.Fs.Names
import Xv6.Fs.Write

/-!
# Resolving a path (`fs.c`)

The elements that `skipelem` takes off a path one after another are its components: the
parts between slashes that are not empty, cut to `DIRSIZ` bytes.

*Abstraction.*  `walk` looks names up one after another in the nodes of the disk, and
`parent` stops before the last.  `resolve` goes the way of `namex`.

*Refinement.*  `namex` holds a reference to one inode at a time and leaves the rest of the
cache as it was (`Walking`).  On a disk where entries name inodes that exist it comes to
the inode that `resolve` gives.  The only way not to return is a cache without room.
-/

namespace Xv6.Fs

open Prog Function

variable {path name rest : List Byte} {j i ip : Nat} {par : Bool}

/-! ## Elements -/

theorem skipelem_eq_none : skipelem path = none ↔ path.dropWhile (· = slash) = [] := by
  simp only [skipelem]
  split <;> simp [*]

/-- After its leading slashes a path is empty or begins with another byte. -/
theorem dropWhile_slash (h : path.dropWhile (· = slash) ≠ []) :
    ∃ b p, path.dropWhile (· = slash) = b :: p ∧ b ≠ slash := by
  obtain ⟨b, p, hp⟩ := List.exists_cons_of_ne_nil h
  have hb := List.head_dropWhile_not (· = slash) h
  exact ⟨b, p, hp, by simpa [hp] using hb⟩

theorem length_skipelem (h : skipelem path = some (name, rest)) : rest.length < path.length := by
  simp only [skipelem, Option.ite_none_left_eq_some, Option.some.injEq, Prod.mk.injEq] at h
  obtain ⟨hne, -, rfl⟩ := h
  obtain ⟨b, p, hp, hb⟩ := dropWhile_slash hne
  have h1 := (List.dropWhile_sublist (· = slash) (l := path)).length_le
  have h2 := (List.dropWhile_sublist (· ≠ slash) (l := p)).length_le
  have h3 := (List.dropWhile_sublist (· = slash) (l := p.dropWhile (· ≠ slash))).length_le
  rw [hp] at h1 ⊢
  simp only [List.length_cons, ne_eq, hb, not_false_eq_true, decide_true,
    List.dropWhile_cons_of_pos] at h1 h2 h3 ⊢
  omega

/-- What `skipelem` takes off the path until nothing is left. -/
def elements (path : List Byte) : List (List Byte) :=
  match _h : skipelem path with
  | none => []
  | some (name, rest) => name :: elements rest
termination_by path.length
decreasing_by exact length_skipelem _h

/-- The parts of a path between slashes that are not empty. -/
def components (path : List Byte) : List (List Byte) :=
  ((path.splitOn slash).filter (· ≠ [])).map (List.take dirsiz)

theorem elements_of_none (h : skipelem path = none) : elements path = [] := by
  rw [elements]
  split
  · rfl
  · next heq => simp [h] at heq

theorem elements_of_some (h : skipelem path = some (name, rest)) :
    elements path = name :: elements rest := by
  rw [elements]
  split
  · next heq => simp [h] at heq
  · next heq =>
    obtain ⟨rfl, rfl⟩ : _ ∧ _ := by simpa [h] using heq
    rfl

theorem components_slash (path : List Byte) : components (slash :: path) = components path := by
  simp [components, List.splitOn, List.splitOnP_cons_eq_if_modifyHead]

theorem components_dropWhile (path : List Byte) :
    components (path.dropWhile (· = slash)) = components path := by
  induction path with
  | nil => rfl
  | cons b path ih =>
    by_cases hb : b = slash
    · rw [hb, List.dropWhile_cons_of_pos (by simp), components_slash, ih]
    · rw [List.dropWhile_cons_of_neg (by simpa using hb)]

/-- A word without slashes and what follows it. -/
theorem components_word {word : List Byte} (hword : ∀ b ∈ word, b ≠ slash) (hne : word ≠ [])
    (hrest : rest = [] ∨ ∃ r, rest = slash :: r) :
    components (word ++ rest) = word.take dirsiz :: components rest := by
  have hword' : ∀ b ∈ word, (b == slash) = false := by simpa using hword
  rcases hrest with rfl | ⟨r, rfl⟩
  · simp [components, List.splitOn, List.splitOnP_eq_singleton hword', hne]
  · rw [components_slash]
    simp [components, List.splitOn, List.splitOnP_append_cons_of_forall_mem hword', hne]

/-- The elements of a path are its components. -/
theorem elements_eq_components (path : List Byte) : elements path = components path := by
  induction h : path.length using Nat.strong_induction_on generalizing path with
  | _ n ih =>
    subst h
    cases hskip : skipelem path with
    | none =>
      have hnil : path.dropWhile (· = slash) = [] := skipelem_eq_none.mp hskip
      rw [elements_of_none hskip, ← components_dropWhile, hnil]
      rfl
    | some x =>
      obtain ⟨name, rest⟩ := x
      rw [elements_of_some hskip, ih _ (length_skipelem hskip) rest rfl]
      simp only [skipelem, Option.ite_none_left_eq_some, Option.some.injEq, Prod.mk.injEq] at hskip
      obtain ⟨hne, rfl, rfl⟩ := hskip
      rw [components_dropWhile, ← components_dropWhile path]
      conv_rhs => rw [← List.takeWhile_append_dropWhile (p := (· ≠ slash))
        (l := path.dropWhile (· = slash))]
      refine (components_word (fun b hb => ?_) ?_ ?_).symm
      · simpa using List.mem_takeWhile_imp hb
      · obtain ⟨b, p, hp, hb⟩ := dropWhile_slash hne
        simp [hp, hb]
      · cases hd : (path.dropWhile (· = slash)).dropWhile (· ≠ slash) with
        | nil => exact .inl rfl
        | cons b r =>
          have hb := List.head_dropWhile_not (· ≠ slash) (l := path.dropWhile (· = slash))
            (by rw [hd]; exact List.cons_ne_nil b r)
          simp only [hd, List.head_cons, decide_eq_false_iff_not, not_not] at hb
          exact .inr ⟨r, by rw [hb]⟩

/-- What is left of a path is empty when no element is left. -/
theorem rest_eq_nil_iff (h : skipelem path = some (name, rest)) :
    rest = [] ↔ elements rest = [] := by
  constructor
  · rintro rfl
    exact elements_of_none rfl
  · intro hnil
    cases hrest : skipelem rest with
    | some x => rw [elements_of_some hrest] at hnil; cases hnil
    | none =>
      simp only [skipelem, Option.ite_none_left_eq_some, Option.some.injEq, Prod.mk.injEq] at h
      obtain ⟨-, -, rfl⟩ := h
      rwa [skipelem_eq_none, List.dropWhile_idempotent] at hrest

/-! ## Looking names up -/

section

variable (T : Nat → Node)

/-- The inode that node `i` has under a name. -/
def child (i : Nat) (name : List Byte) : Option Nat :=
  if (T i).type = tDir then ((T i).lookup name).map Prod.fst else none

/-- Look names up one after another. -/
def walk (i : Nat) (names : List (List Byte)) : Option Nat := names.foldlM (child T) i

/-- Look up all names but the last, to a directory. -/
def parent (i : Nat) (names : List (List Byte)) : Option (Nat × List Byte) := do
  let name ← names.getLast?
  let j ← walk T i names.dropLast
  if (T j).type = tDir then pure (j, name) else none

/-- The way of `namex`. -/
def resolve (par : Bool) : Nat → List (List Byte) → Option Nat
  | i, [] => if par then none else some i
  | i, name :: names =>
    if (T i).type ≠ tDir then none
    else if par ∧ names = [] then some i
    else ((T i).lookup name).bind fun x => resolve par x.1 names

theorem resolve_walk (i : Nat) (names : List (List Byte)) : resolve T false i names = walk T i names := by
  induction names generalizing i with
  | nil => rfl
  | cons name names ih =>
    rw [resolve, walk, List.foldlM_cons, child]
    by_cases hdir : (T i).type = tDir
    · cases hl : (T i).lookup name with
      | none => simp [hdir]
      | some x => simpa [hdir, walk] using ih x.1
    · simp [hdir]

theorem parent_cons (i : Nat) (name m : List Byte) (ms : List (List Byte)) :
    parent T i (name :: m :: ms) = (child T i name).bind fun j => parent T j (m :: ms) := by
  cases hc : child T i name with
  | none => simp [parent, walk, hc, List.getLast?_cons]
  | some j => simp [parent, walk, hc, List.getLast?_cons]

theorem getLast?_of_parent {names : List (List Byte)} {x : Nat × List Byte}
    (hlast : names.getLast? = some name) (h : parent T i names = some x) : name = x.2 := by
  rw [parent, hlast] at h
  simp only [Option.bind_eq_bind, Option.bind_some, Option.bind_eq_some_iff] at h
  obtain ⟨j, -, hx⟩ := h
  split at hx
  · cases hx
    rfl
  · cases hx

theorem resolve_parent (i : Nat) (names : List (List Byte)) :
    resolve T true i names = (parent T i names).map Prod.fst := by
  induction names generalizing i with
  | nil => rfl
  | cons name names ih =>
    rw [resolve]
    cases names with
    | nil => by_cases hdir : (T i).type = tDir <;> simp [hdir, parent, walk]
    | cons m ms =>
      rw [parent_cons, child]
      by_cases hdir : (T i).type = tDir
      · cases hl : (T i).lookup name with
        | none => simp [hdir]
        | some x => simpa [hdir] using ih x.1
      · simp [hdir]

end

/-! ## Disks with a tree -/

/-- Inode `i` is allocated and has a name. -/
def InTree (sb : Superblock) (d : Disk) (i : Nat) : Prop :=
  i < sb.ninodes ∧ (dinodeAt sb d i).type ≠ 0#16 ∧ (dinodeAt sb d i).nlink ≠ 0#16

/-- Between calls, in a transaction: files have no holes, the directories that have a name
hold whole entries that name inodes of the tree, the cache agrees with the disk, and no
inode is locked. -/
structure Walkable (sb : Superblock) (s : State) : Prop where
  fine : Fine sb (dinodeAt sb s.disk) s.disk ∅
  filled : ∀ i, InTree sb s.disk i → ∀ o < (dinodeAt sb s.disk i).size.toNat,
    fileByte s.disk (dinodeAt sb s.disk i) o ≠ none
  whole : ∀ i, InTree sb s.disk i → (tree sb s.disk i).type = tDir →
    (tree sb s.disk i).size % direntSize = 0
  named : ∀ i, InTree sb s.disk i → (tree sb s.disk i).type = tDir → ∀ k,
    (tree sb s.disk i).Live k → InTree sb s.disk ((tree sb s.disk i).entry k).inum.toNat
  root : InTree sb s.disk rootino
  copy : ∀ e, 0 < (s.inode e).ref → (s.inode e).valid = true →
    (s.inode e).di = dinodeAt sb s.disk (s.inode e).inum
  unlocked : ∀ e, (s.inode e).locked = false
  ops : 0 < s.outstanding

/-- Two entries of the inode cache are not in use. -/
def Roomy (s : State) : Prop :=
  ∃ x < ninode, ∃ y < ninode, x ≠ y ∧ (s.inode x).ref = 0 ∧ (s.inode y).ref = 0

/-- From `s0` on only a reference to entry `e` has been taken, for an inode of the tree. -/
structure Walking (sb : Superblock) (s0 s : State) (e : Nat) : Prop where
  disk : s.disk = s0.disk
  ops : s.outstanding = s0.outstanding
  ref : ∀ x, (s.inode x).ref = (s0.inode x).ref + if x = e then 1 else 0
  copy : ∀ x, 0 < (s.inode x).ref → (s.inode x).valid = true →
    (s.inode x).di = dinodeAt sb s0.disk (s.inode x).inum
  unlocked : ∀ x, (s.inode x).locked = false
  inTree : InTree sb s0.disk (s.inode e).inum

variable {sb : Superblock} {s0 s s' : State} {e : Nat} {F : Stop → Prop}

theorem tree_of_inTree {d : Disk} (h : InTree sb d i) :
    tree sb d i = nodeOf d (dinodeAt sb d i) := if_pos h.1

theorem type_tree {d : Disk} (h : InTree sb d i) : (tree sb d i).type = (dinodeAt sb d i).type := by
  rw [tree_of_inTree h, nodeOf_of_type h.2.1]

/-- The state in which `e` is unlocked and has lost a reference. -/
def dropped (s : State) (e : Nat) : State :=
  s.putInode e { s.inode e with locked := false, ref := (s.inode e).ref - 1 }

theorem Got.dropped_num (hG : Got s j ip s') : ((dropped s' e).inode ip).inum = j := by
  by_cases hie : ip = e
  · rw [hie, dropped, State.inode_putInode_self, ← hie]
    exact hG.num
  · rw [show (dropped s' e).inode ip = s'.inode ip from update_of_ne hie .., hG.num]

namespace Walking

theorem ready (hW : Walkable sb s0) (h : Walking sb s0 s e) : Ready sb s e where
  num := h.inTree.1
  ref := by
    rw [h.ref e, if_pos rfl]
    exact Nat.succ_pos _
  free := h.unlocked e
  copy := h.disk ▸ h.copy e (by rw [h.ref e, if_pos rfl]; exact Nat.succ_pos _)
  type := h.disk ▸ h.inTree.2.1
  fine := h.disk ▸ hW.fine
  filled := h.disk ▸ hW.filled _ h.inTree

/-- An inode that has a name is not freed. -/
theorem wp_iunlockput (hlock : (s.inode e).locked = true) (href : 0 < (s.inode e).ref)
    (hlink : (s.inode e).di.nlink ≠ 0#16) :
    wp (iunlockput sb e) (fun _ s' => s' = dropped s e) F s := by
  have hone : (s.inode e).ref ≠ 0 := Nat.ne_of_gt href
  simp [iunlockput, iunlock, iput, getInode, setInode, acquiresleep, releasesleep, hlock, hone,
    hlink, dropped, State.putInode]

/-- A directory that is locked on the way. -/
theorem heldDir (hW : Walkable sb s0) (h : Walking sb s0 s e)
    (hdir : (tree sb s0.disk (s.inode e).inum).type = tDir) :
    HeldDir sb (s.hold sb e) e ∧
      contents (s.hold sb e) e = tree sb s0.disk (s.inode e).inum := by
  have hcont : contents (s.hold sb e) e = tree sb s0.disk (s.inode e).inum := by
    rw [tree_of_inTree h.inTree, contents, s.hold_inode, ← h.disk]
    rfl
  refine ⟨⟨(h.ready hW).cached, ?_, s.hold_locked sb e, ?_, ?_, ?_⟩, hcont⟩
  · rw [s.hold_inode, ← hdir, type_tree h.inTree, h.disk]
  · rw [s.hold_ref]
    exact (h.ready hW).ref
  · exact h.ops ▸ hW.ops
  · rw [hcont]
    exact hW.whole _ h.inTree hdir

section

variable (h : Walking sb s0 s e)
include h

/-- If two entries were free, one is free still. -/
theorem not_full (hroom : Roomy s0) (dev inum : Nat) :
    igetEntry (s.hold sb e) dev inum ≠ none := by
  obtain ⟨x, hx, y, hy, hne, hx0, hy0⟩ := hroom
  obtain ⟨z, hz, hze, hz0⟩ : ∃ z < ninode, z ≠ e ∧ (s0.inode z).ref = 0 := by
    by_cases hxe : x = e
    · exact ⟨y, hy, fun hye => hne (hxe.trans hye.symm), hy0⟩
    · exact ⟨x, hx, hxe, hx0⟩
  have hfree : ((s.hold sb e).inode z).ref = 0 := by
    simp [State.hold, State.putInode, hze, h.ref z, hz0]
  rw [igetEntry, Ne, Option.or_eq_none_iff, List.find?_eq_none, List.find?_eq_none]
  rintro ⟨-, hnone⟩
  exact hnone z (List.mem_range.mpr hz) (by simpa using hfree)

/-- Locking the inode and unlocking it only reads it. -/
theorem reread : Walking sb s0 ((s.hold sb e).release e) e := by
  have hself : ((s.hold sb e).release e).inode e = { s.inode e with
      locked := false, valid := true, di := dinodeAt sb s0.disk (s.inode e).inum } := by
    rw [State.release, State.inode_putInode_self, s.hold_inode, h.disk]
  have hne {x : Nat} (hx : x ≠ e) : ((s.hold sb e).release e).inode x = s.inode x := by
    simp [State.release, State.hold, State.putInode, hx]
  refine ⟨h.disk, h.ops, fun x => ?_, fun x href hval => ?_, fun x => ?_, ?_⟩
  · rw [← h.ref x]
    by_cases hx : x = e
    · rw [hx, hself]
    · rw [hne hx]
  · by_cases hx : x = e
    · rw [hx, hself]
    · rw [hne hx] at href hval ⊢
      exact h.copy x href hval
  · by_cases hx : x = e
    · rw [hx, hself]
    · rw [hne hx]
      exact h.unlocked x
  · rw [hself]
    exact h.inTree

/-- The directory has been read, and counts once more if it is the inode found in it. -/
theorem got_dir (hG : Got (s.hold sb e) j ip s') :
    s'.inode e = { (s.hold sb e).inode e with
      ref := (s.inode e).ref + if e = ip then 1 else 0 } := by
  by_cases heq : e = ip
  · subst heq
    rw [hG.hit (by rw [s.hold_ref, h.ref e, if_pos rfl]; exact Nat.succ_pos _), if_pos rfl, s.hold_ref]
  · rw [hG.others e heq, if_neg heq, Nat.add_zero, ← s.hold_ref sb e]

/-- From a directory to the inode found in it. -/
theorem next (hG : Got (s.hold sb e) j ip s') (hj : InTree sb s0.disk j) :
    Walking sb s0 (dropped s' e) ip := by
  have href : (s.inode e).ref = (s0.inode e).ref + 1 := by rw [h.ref e, if_pos rfl]
  have hhold {x : Nat} (hx : x ≠ e) : (s.hold sb e).inode x = s.inode x :=
    update_of_ne hx ..
  have hself : (dropped s' e).inode e = { s.inode e with
      locked := false, valid := true, di := dinodeAt sb s0.disk (s.inode e).inum
      ref := (s0.inode e).ref + if e = ip then 1 else 0 } := by
    rw [dropped, State.inode_putInode_self, h.got_dir hG, s.hold_inode, h.disk, href]
    simp only [Inode.mk.injEq, and_true, true_and]
    omega
  have hne {x : Nat} (hx : x ≠ e) : (dropped s' e).inode x = s'.inode x := update_of_ne hx ..
  have hfound (hie : ip ≠ e) : (s'.inode ip).ref = (s0.inode ip).ref + 1 ∧
      ((s'.inode ip).valid = true → (s'.inode ip).di = dinodeAt sb s0.disk (s'.inode ip).inum) := by
    have hold : (s.inode ip).ref = (s0.inode ip).ref := by rw [h.ref ip, if_neg hie, Nat.add_zero]
    by_cases hfree : (s.inode ip).ref = 0
    · obtain ⟨hone, hval⟩ := hG.miss (by rwa [hhold hie])
      exact ⟨by omega, fun hv => absurd (hval.symm.trans hv) Bool.false_ne_true⟩
    · rw [hG.hit (by rw [hhold hie]; omega), hhold hie]
      exact ⟨congrArg (· + 1) hold, h.copy ip (by omega)⟩
  refine ⟨hG.disk.trans h.disk, hG.ops.trans h.ops, fun x => ?_, fun x hx hval => ?_, fun x => ?_, ?_⟩
  · by_cases hxe : x = e
    · rw [hxe, hself]
    · rw [hne hxe]
      by_cases hxi : x = ip
      · subst hxi
        rw [if_pos rfl]
        exact (hfound hxe).1
      · rw [hG.others x hxi, hhold hxe, h.ref x, if_neg hxe, if_neg hxi]
  · by_cases hxe : x = e
    · rw [hxe, hself]
    · rw [hne hxe] at hx hval ⊢
      by_cases hxi : x = ip
      · subst hxi
        exact (hfound hxe).2 hval
      · rw [hG.others x hxi, hhold hxe] at hx hval ⊢
        exact h.copy x hx hval
  · by_cases hxe : x = e
    · rw [hxe, hself]
    · rw [hne hxe]
      by_cases hxi : x = ip
      · rw [hxi, hG.lock, hhold (hxi ▸ hxe)]
        exact h.unlocked ip
      · rw [hG.others x hxi, hhold hxe]
        exact h.unlocked x
  · rwa [hG.dropped_num]

theorem wp_iput : wp (iput sb e) (fun _ _ => True) F s := by
  have hkeep : ¬ ((s.inode e).valid = true ∧ (s.inode e).di.nlink = 0#16 ∧ (s.inode e).ref = 1) := by
    rintro ⟨hval, hzero, hone⟩
    rw [h.copy e (by omega) hval] at hzero
    exact h.inTree.2.2 hzero
  simp only [iput, acquiresleep, releasesleep, setInode, getInode, wp_bind, wp_get, wp_pure, wp_ite,
    wp_throw, wp_modify, h.unlocked e, update_self, if_neg hkeep]
  rw [if_neg Bool.false_ne_true]
  trivial

end

/-- What `namex` returns: nothing, or the inode that `resolve` gives, with a reference. -/
def Reached (sb : Superblock) (s0 : State) (par : Bool) (i : Nat) (names : List (List Byte))
    (r : Option (Nat × List Byte)) (s' : State) : Prop :=
  match resolve (tree sb s0.disk) par i names with
  | none => r = none
  | some j => ∃ ip name, r = some (ip, name) ∧ Walking sb s0 s' ip ∧ (s'.inode ip).inum = j ∧
      (par = true → names.getLast? = some name)

theorem Reached.cons {off : Nat} {names : List (List Byte)} {r : Option (Nat × List Byte)}
    (hdir : (tree sb s0.disk i).type = tDir) (hmore : ¬ (par = true ∧ names = []))
    (hl : (tree sb s0.disk i).lookup name = some (j, off)) (h : Reached sb s0 par j names r s') :
    Reached sb s0 par i (name :: names) r s' := by
  rw [Reached, resolve, if_neg (not_not.mpr hdir), if_neg hmore, hl, Option.bind_some]
  rw [Reached] at h
  cases hres : resolve (tree sb s0.disk) par j names with
  | none => simpa only [hres] using h
  | some k =>
    simp only [hres] at h
    obtain ⟨ip, last, rfl, hwalk, hnum, hlast⟩ := h
    refine ⟨ip, last, rfl, hwalk, hnum, fun hpar => ?_⟩
    rw [List.getLast?_cons, hlast hpar]
    rfl

/-- The end of the path. -/
theorem wp_end (h : Walking sb s0 s e) (par : Bool) (name : List Byte) :
    wp (if par then do iput sb e; pure none else pure (some (e, name)))
      (Reached sb s0 par (s.inode e).inum []) F s := by
  cases par with
  | true =>
    rw [if_pos rfl, wp_bind]
    exact wp_post h.wp_iput fun _ _ _ => (wp_pure ..).mpr rfl
  | false =>
    rw [if_neg Bool.false_ne_true, wp_pure]
    exact ⟨e, name, rfl, h, rfl, fun hpar => by cases hpar⟩

/-- The loop of `namex` goes the way of `resolve`. -/
theorem wp_namexLoop (hW : Walkable sb s0) (hF : ¬ Roomy s0 → F (.panic "iget: no inodes"))
    {fuel : Nat} (h : Walking sb s0 s e) (hfuel : path.length ≤ fuel) :
    wp (namexLoop sb par fuel e name path)
      (Reached sb s0 par (s.inode e).inum (elements path)) F s := by
  induction fuel generalizing s e name path with
  | zero =>
    obtain rfl := List.length_eq_zero_iff.mp (Nat.le_zero.mp hfuel)
    rw [elements_of_none rfl]
    exact h.wp_end par name
  | succ fuel ih =>
    unfold Fs.namexLoop
    cases hskip : skipelem path with
    | none =>
      rw [elements_of_none hskip]
      exact h.wp_end par name
    | some x =>
      obtain ⟨elem, rest⟩ := x
      have hready := h.ready hW
      have hlock := s.hold_locked sb e
      have href : 0 < ((s.hold sb e).inode e).ref := by rw [s.hold_ref]; exact hready.ref
      have hdi : ((s.hold sb e).inode e).di = dinodeAt sb s0.disk (s.inode e).inum := by
        rw [s.hold_inode, h.disk]
      have hdrop : wp (do iunlockput sb e; pure none : M (Option (Nat × List Byte)))
          (fun r _ => r = none) F (s.hold sb e) := by
        rw [wp_bind]
        exact wp_post (wp_iunlockput hlock href (by rw [hdi]; exact h.inTree.2.2)) fun _ _ _ =>
          (wp_pure ..).mpr rfl
      rw [elements_of_some hskip]
      simp only
      rw [wp_bind]
      refine wp_post hready.wp_ilock ?_
      rintro - s1 rfl
      rw [getInode, wp_bind, wp_bind, wp_get, wp_pure, wp_ite, hdi, ← type_tree h.inTree]
      split
      · next hdir =>
        refine wp_post hdrop fun r _ hr => ?_
        rw [Reached, resolve, if_pos hdir]
        exact hr
      · next hdir =>
        rw [not_not] at hdir
        rw [wp_ite]
        split
        · next hlast =>
          have hnil := (rest_eq_nil_iff hskip).mp hlast.2
          rw [wp_bind]
          refine wp_post (wp_iunlock hlock href) ?_
          rintro - s2 rfl
          rw [wp_pure, Reached, resolve, if_neg (not_not.mpr hdir), if_pos ⟨hlast.1, hnil⟩]
          refine ⟨e, elem, rfl, h.reread, ?_, fun _ => by rw [hnil]; rfl⟩
          rw [State.release, State.inode_putInode_self, s.hold_inode]
        · next hlast =>
          have hmore : ¬ (par = true ∧ elements rest = []) := fun hl =>
            hlast ⟨hl.1, (rest_eq_nil_iff hskip).mpr hl.2⟩
          obtain ⟨hheld, hcont⟩ := h.heldDir hW hdir
          rw [wp_bind]
          refine wp_post (hheld.wp_dirlookup fun _ _ hfull => hF fun hroom =>
            h.not_full hroom _ _ hfull) fun r s2 hlooked => ?_
          rw [HeldDir.Looked, hcont] at hlooked
          cases hfind : (tree sb s0.disk (s.inode e).inum).findFrom elem 0 with
          | none =>
            simp only [hfind] at hlooked
            obtain ⟨rfl, rfl⟩ := hlooked
            refine wp_post hdrop fun r _ hr => ?_
            rw [Reached, resolve, if_neg (not_not.mpr hdir), if_neg hmore, Node.lookup, hfind]
            exact hr
          | some k =>
            simp only [hfind] at hlooked
            obtain ⟨ip, rfl, -, hG⟩ := hlooked
            have hgot := h.got_dir hG
            have hin := hW.named _ h.inTree hdir k (Node.has_of_findFrom hfind).1
            simp only
            rw [wp_bind]
            refine wp_post (wp_iunlockput (by rw [hgot]; exact hlock)
              (by rw [hgot]; exact Nat.add_pos_left hready.ref _)
              (by rw [hgot, hdi]; exact h.inTree.2.2)) ?_
            rintro - s3 rfl
            refine wp_post (ih (h.next hG hin) (by have := length_skipelem hskip; omega))
              fun r s' hr => ?_
            rw [hG.dropped_num] at hr
            exact hr.cons hdir hmore (Node.lookup_of_findFrom hfind)

end Walking

/-! ## Paths -/

theorem Walkable.got (hW : Walkable sb s) (hG : Got s j ip s') (hj : InTree sb s.disk j) :
    Walking sb s s' ip := by
  have hip : (s'.inode ip).ref = (s.inode ip).ref + 1 ∧
      ((s'.inode ip).valid = true → (s'.inode ip).di = dinodeAt sb s.disk (s'.inode ip).inum) := by
    by_cases hfree : (s.inode ip).ref = 0
    · obtain ⟨hone, hval⟩ := hG.miss hfree
      exact ⟨by omega, fun hv => absurd (hval.symm.trans hv) Bool.false_ne_true⟩
    · rw [hG.hit (by omega)]
      exact ⟨rfl, hW.copy ip (by omega)⟩
  refine ⟨hG.disk, hG.ops, fun x => ?_, fun x hx hval => ?_, fun x => ?_, by rwa [hG.num]⟩
  · by_cases hx : x = ip
    · rw [hx, if_pos rfl]
      exact hip.1
    · rw [hG.others x hx, if_neg hx, Nat.add_zero]
  · by_cases hx : x = ip
    · subst hx
      exact hip.2 hval
    · rw [hG.others x hx] at *
      exact hW.copy x ‹_› hval
  · by_cases hx : x = ip
    · rw [hx, hG.lock]
      exact hW.unlocked ip
    · rw [hG.others x hx]
      exact hW.unlocked x

/-- Where a path begins, for a process with the current directory `cwd`. -/
def startOf (s : State) (cwd : Nat) (path : List Byte) : Nat :=
  if path.head? = some slash then rootino else (s.inode cwd).inum

section

variable (hW : Walkable sb s) (hF : ¬ Roomy s → F (.panic "iget: no inodes"))
include hW hF

theorem Walkable.wp_from
    (hG : Got s j ip s') (hj : InTree sb s.disk j) :
    wp (namexLoop sb par path.length ip [] path)
      (Walking.Reached sb s par j (components path)) F s' := by
  have h : wp (namexLoop sb par path.length ip [] path)
      (Walking.Reached sb s par (s'.inode ip).inum (elements path)) F s' :=
    (hW.got hG hj).wp_namexLoop hW hF (Nat.le_refl _)
  rwa [hG.num, elements_eq_components] at h

theorem Walkable.wp_namex {p cwd : Nat} (hcwd : (s.proc p).cwd = some cwd)
    (href : 0 < (s.inode cwd).ref)
    (hin : path.head? ≠ some slash → InTree sb s.disk (s.inode cwd).inum) :
    wp (namex sb p path par)
      (Walking.Reached sb s par (startOf s cwd path) (components path)) F s := by
  rw [namex, wp_bind, wp_get, wp_ite, startOf]
  split
  · rw [wp_bind]
    refine wp_post (wp_iget fun hnone => hF ?_) fun ip s' hgot => hW.wp_from hF hgot.2 hW.root
    rintro ⟨x, hx, -, -, -, hx0, -⟩
    rw [igetEntry, Option.or_eq_none_iff, List.find?_eq_none, List.find?_eq_none] at hnone
    exact hnone.2 x (List.mem_range.mpr hx) (by simpa using hx0)
  · next hrel =>
    simp only [hcwd, idup, setInode, wp_bind, wp_modify, wp_pure]
    refine hW.wp_from hF ⟨rfl, rfl, fun x hx => ?_, ?_, ?_, fun _ => ?_, fun h0 => ?_⟩
      (hin hrel)
    all_goals first | omega | simp [*]

end

/-- A path names what the walk of its elements from the root or the current directory
reaches.  `namei` returns a reference to that inode, and `nameiparent` one to the directory
the last element is to be looked up in, with that element; each returns null when there is no
such inode.  Neither stops, unless fewer than two entries of the inode cache are free. -/
theorem path_resolution {p cwd : Nat} {path : List Byte} (hW : Walkable sb s)
    (hcwd : (s.proc p).cwd = some cwd) (href : 0 < (s.inode cwd).ref)
    (hin : path.head? ≠ some slash → InTree sb s.disk (s.inode cwd).inum) :
    elements path = components path ∧
    wp (namei sb p path)
      (fun r s' => match walk (tree sb s.disk) (startOf s cwd path) (components path) with
        | none => r = none
        | some j => ∃ ip, r = some ip ∧ (s'.inode ip).inum = j ∧
            (s'.inode ip).ref = (s.inode ip).ref + 1)
      (fun stop => stop = .panic "iget: no inodes" ∧ ¬ Roomy s) s ∧
    wp (nameiparent sb p path)
      (fun r s' => match parent (tree sb s.disk) (startOf s cwd path) (components path) with
        | none => r = none
        | some (j, name) => ∃ ip, r = some (ip, name) ∧ (s'.inode ip).inum = j ∧
            (s'.inode ip).ref = (s.inode ip).ref + 1)
      (fun stop => stop = .panic "iget: no inodes" ∧ ¬ Roomy s) s := by
  have hn : ∀ par, wp (namex sb p path par)
      (Walking.Reached sb s par (startOf s cwd path) (components path))
      (fun stop => stop = .panic "iget: no inodes" ∧ ¬ Roomy s) s := fun par =>
    hW.wp_namex (fun hfull => ⟨rfl, hfull⟩) hcwd href hin
  refine ⟨elements_eq_components path, ?_, wp_post (hn true) fun r s' hr => ?_⟩
  · rw [namei, wp_bind]
    refine wp_post (hn false) fun r s' hr => (wp_pure ..).mpr ?_
    rw [Walking.Reached, resolve_walk] at hr
    split at hr
    · rw [hr]
      rfl
    · obtain ⟨ip, name, rfl, hwalk, hnum, -⟩ := hr
      exact ⟨ip, rfl, hnum, by simpa using hwalk.ref ip⟩
  · rw [Walking.Reached, resolve_parent] at hr
    cases hpar : parent (tree sb s.disk) (startOf s cwd path) (components path) with
    | none => simpa [hpar] using hr
    | some x =>
      simp only [hpar, Option.map_some, true_imp_iff] at hr
      obtain ⟨ip, name, rfl, hwalk, hnum, hlast⟩ := hr
      exact ⟨ip, by rw [getLast?_of_parent _ hlast hpar], hnum, by simpa using hwalk.ref ip⟩

/-- An empty root directory, which is the current directory of every process. -/
def rootState : State :=
  { (sampleState tDir).putInode 0 { (sampleState tDir).inode 0 with locked := false } with
    proc := fun _ => ⟨some 0, fun _ => none⟩ }

theorem root_tree : tree sampleSb (sampleDisk tDir) 1 = nodeOf (sampleDisk tDir) (sampleInode tDir) := by
  rw [tree, if_pos (by decide), sample_dinodeAt (by decide), if_pos rfl]

theorem root_inTree : InTree sampleSb (sampleDisk tDir) i ↔ i = 1 := by
  constructor
  · rintro ⟨hi, ht, -⟩
    rw [sample_dinodeAt hi] at ht
    by_contra hne
    rw [if_neg hne] at ht
    exact ht rfl
  · rintro rfl
    refine ⟨by decide, ?_⟩
    rw [sample_dinodeAt (by decide), if_pos rfl]
    exact ⟨by decide, by decide⟩

theorem root_inode_of_ne {e : Nat} (he : e ≠ 0) :
    rootState.inode e = ⟨0, 0, 0, false, false, .blank 0#16⟩ :=
  (update_of_ne he _ _).trans (if_neg he)

theorem root_walkable : Walkable sampleSb rootState where
  fine := sample_fine tDir
  filled i hi o ho := by
    obtain rfl := root_inTree.mp hi
    have hzero : (dinodeAt sampleSb (sampleDisk tDir) 1).size.toNat = 0 := by
      rw [sample_dinodeAt (by decide)]
      rfl
    exact absurd ho (by rw [show rootState.disk = sampleDisk tDir from rfl, hzero]; omega)
  whole i hi _ := by
    obtain rfl := root_inTree.mp hi
    show (tree sampleSb (sampleDisk tDir) 1).size % direntSize = 0
    rw [root_tree]
    rfl
  named i hi _ k hk := by
    obtain rfl := root_inTree.mp hi
    have hk : (tree sampleSb (sampleDisk tDir) 1).Live k := hk
    rw [root_tree] at hk
    exact absurd hk.1 (Nat.not_lt_zero k)
  root := root_inTree.mpr rfl
  copy e href hval := by
    by_cases he : e = 0
    · subst he
      show sampleInode tDir = dinodeAt sampleSb (sampleDisk tDir) 1
      rw [sample_dinodeAt (by decide), if_pos rfl]
    · rw [root_inode_of_ne he] at href
      exact absurd href (Nat.lt_irrefl 0)
  unlocked e := by
    by_cases he : e = 0
    · subst he
      rfl
    · rw [root_inode_of_ne he]
  ops := by decide

theorem path_resolution_root :
    wp (nameiparent sampleSb 0 [slash, 97#8])
      (fun r s' => ∃ ip, r = some (ip, [97#8]) ∧ (s'.inode ip).inum = rootino)
      (fun _ => False) rootState := by
  have hroom : Roomy rootState := ⟨1, by decide, 2, by decide, by decide, rfl, rfl⟩
  have hpar : parent (tree sampleSb rootState.disk) (startOf rootState 0 [slash, 97#8])
      (components [slash, 97#8]) = some (rootino, [97#8]) := by
    show (if (tree sampleSb (sampleDisk tDir) 1).type = tDir then some (1, [97#8]) else none) = _
    rw [root_tree, if_pos (by decide)]
    rfl
  refine wp_mono (path_resolution root_walkable rfl (by decide) (by simp)).2.2 ?_ ?_
  · intro r s' hr
    rw [hpar] at hr
    obtain ⟨ip, hr, hnum, -⟩ := hr
    exact ⟨ip, hr, hnum⟩
  · exact fun stop hstop => hstop.2 hroom

end Xv6.Fs
