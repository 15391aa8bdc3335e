import Xv6.Fs.Track
import Xv6.Lib.Count

/-!
# References, locks and transactions balance

`Bal q h L n` is the account of the inode cache while a call runs: the reference count of
an entry is the number of open files and of processes that point to it and of references
that the call holds, the locked entries are those the call has locked, and no two entries in
use are for the same inode.  Nothing is assumed about the disk.

Every function of `fs.c` keeps the account, so `Bal` satisfies the rules of `Edits` and
every call that returns leaves an account with nothing held.
-/

namespace Xv6.Fs

open Prog Function

/-! ## The account -/

/-- The open files of an inode. -/
def fileUsers (s : State) (e : Nat) : Nat :=
  Count.refs (Finset.range nfile) s.file fun g => decide (g.type = .inode ∧ 0 < g.ref ∧ g.ip = e)

/-- The processes whose directory is an inode, without the process `q`. -/
def cwdUsers (q : Option Nat) (s : State) (e : Nat) : Nat :=
  Count.refs (Finset.range nproc) (fun p => if q = some p then none else (s.proc p).cwd)
    fun c => decide (c = some e)

structure Bal (q : Option Nat) (h : Multiset Nat) (L : Multiset (Nat × Short)) (n : Nat)
    (s : State) : Prop where
  ref : ∀ e, (s.inode e).ref = fileUsers s e + cwdUsers q s e + h.count e
  locked : ∀ e, (s.inode e).locked = true ↔ e ∈ L.map Prod.fst
  once : (L.map Prod.fst).Nodup
  valid : ∀ e ∈ L.map Prod.fst, (s.inode e).valid = true ∧ 0 < (s.inode e).ref
  cached : ∀ e, 0 < (s.inode e).ref → e < ninode
  uniq : ∀ e e', 0 < (s.inode e).ref → 0 < (s.inode e').ref → (s.inode e).dev = (s.inode e').dev →
    (s.inode e).inum = (s.inode e').inum → e = e'
  free : ∀ f < nfile, (s.file f).ref = 0 → (s.file f).type = .none
  ofile : ∀ p fd f, (s.proc p).ofile fd = some f → f < nfile
  ops : s.outstanding = n

namespace Bal

variable {sb : Superblock} {F : Stop → Prop} {q : Option Nat} {h : Multiset Nat}
  {L : Multiset (Nat × Short)} {n : Nat} {s s' : State} {e f p : Nat} {t : Short}

/-- The account does not look at the disk or at the contents of inodes. -/
theorem of_shell (hB : Bal q h L n s) (hs : shell s' = shell s) : Bal q h L n s' := by
  simp only [shell, Prod.mk.injEq] at hs
  obtain ⟨hl, ho, hf, hp⟩ := hs
  have hl : ∀ e, (s'.inode e).label = (s.inode e).label := congrFun hl
  have href : ∀ e, (s'.inode e).ref = (s.inode e).ref := fun e => congrArg Label.ref (hl e)
  have hlock : ∀ e, (s'.inode e).locked = (s.inode e).locked := fun e => congrArg Label.locked (hl e)
  have hval : ∀ e, (s'.inode e).valid = (s.inode e).valid := fun e => congrArg Label.valid (hl e)
  have hdev : ∀ e, (s'.inode e).dev = (s.inode e).dev := fun e => congrArg Label.dev (hl e)
  have hinum : ∀ e, (s'.inode e).inum = (s.inode e).inum := fun e => congrArg Label.inum (hl e)
  constructor
  · intro e
    rw [href, hB.ref, fileUsers, fileUsers, cwdUsers, cwdUsers, hf, hp]
  · intro e
    rw [hlock, hB.locked]
  · exact hB.once
  · intro e he
    rw [hval, href]
    exact hB.valid e he
  · intro e
    rw [href]
    exact hB.cached e
  · intro e e'
    rw [href, href, hdev, hdev, hinum, hinum]
    exact hB.uniq e e'
  · rw [hf]
    exact hB.free
  · rw [hp]
    exact hB.ofile
  · rw [ho, hB.ops]

/-- Nor at the types of the locked inodes. -/
theorem retype (hB : Bal q h ((e, t) ::ₘ L) n s) (u : Short) : Bal q h ((e, u) ::ₘ L) n s := by
  have hL : ((e, u) ::ₘ L).map Prod.fst = ((e, t) ::ₘ L).map Prod.fst := by simp
  exact ⟨hB.ref, hL ▸ hB.locked, hL ▸ hB.once, hL ▸ hB.valid, hB.cached, hB.uniq, hB.free, hB.ofile,
    hB.ops⟩

/-- A function that leaves the shell keeps the account. -/
theorem keeps {α : Type} {x : M α} (hx : Keeps shell x) (hB : Bal q h L n s) :
    wp x (fun _ s' => Bal q h L n s') (fun _ => True) s :=
  wp_post (hx s) fun _ _ hs => hB.of_shell hs

theorem pos (hB : Bal q h L n s) (he : e ∈ h) : 0 < (s.inode e).ref := by
  rw [hB.ref e]
  have := Multiset.count_pos.mpr he
  omega

/-! ## One entry of the cache changes -/

variable {h' : Multiset Nat} {L' : Multiset (Nat × Short)} {ip : Inode}

section

variable (hB : Bal q h L n s)
include hB

section

variable (hh : ∀ x ≠ e, h'.count x = h.count x)
  (href : ip.ref + h.count e = (s.inode e).ref + h'.count e)
  (hL : ∀ x ≠ e, x ∈ L'.map Prod.fst ↔ x ∈ L.map Prod.fst) (honce : (L'.map Prod.fst).Nodup)
  (hlock : ip.locked = true ↔ e ∈ L'.map Prod.fst)
  (hval : e ∈ L'.map Prod.fst → ip.valid = true ∧ 0 < ip.ref)
include hh href hL honce hlock hval

/-- One entry changes together with what the call holds of it. -/
theorem put (hlt : 0 < ip.ref → e < ninode)
    (huniq : 0 < ip.ref → ∀ x ≠ e, 0 < (s.inode x).ref → (s.inode x).dev = ip.dev →
      (s.inode x).inum = ip.inum → False) : Bal q h' L' n (s.putInode e ip) := by
  have hself : (s.putInode e ip).inode e = ip := update_self _ _ _
  have hne : ∀ x ≠ e, (s.putInode e ip).inode x = s.inode x := fun x hx =>
    update_of_ne hx _ _
  constructor
  · intro x
    have hx := hB.ref x
    by_cases hxe : x = e
    · subst hxe
      rw [hself]
      show ip.ref = fileUsers s x + cwdUsers q s x + _
      omega
    · rw [hne x hxe, hh x hxe]
      exact hx
  · intro x
    by_cases hxe : x = e
    · subst hxe
      rw [hself, hlock]
    · rw [hne x hxe, hL x hxe]
      exact hB.locked x
  · exact honce
  · intro x hx
    by_cases hxe : x = e
    · subst hxe
      rw [hself]
      exact hval hx
    · rw [hne x hxe]
      exact hB.valid x ((hL x hxe).mp hx)
  · intro x hx
    by_cases hxe : x = e
    · subst hxe
      rw [hself] at hx
      exact hlt hx
    · rw [hne x hxe] at hx
      exact hB.cached x hx
  · intro x y hx hy hdev hinum
    by_cases hxe : x = e <;> by_cases hye : y = e
    · rw [hxe, hye]
    · subst hxe
      rw [hself] at hx hdev hinum
      rw [hne y hye] at hy hdev hinum
      exact (huniq hx y hye hy hdev.symm hinum.symm).elim
    · subst hye
      rw [hself] at hy hdev hinum
      rw [hne x hxe] at hx hdev hinum
      exact (huniq hy x hxe hx hdev hinum).elim
    · rw [hne x hxe, hne y hye] at *
      exact hB.uniq x y hx hy hdev hinum
  · exact hB.free
  · exact hB.ofile
  · exact hB.ops

/-- What the entry was for, it is still for. -/
theorem put_same (hpos : 0 < (s.inode e).ref) (hdev : ip.dev = (s.inode e).dev)
    (hinum : ip.inum = (s.inode e).inum) : Bal q h' L' n (s.putInode e ip) := by
  refine hB.put hh href hL honce hlock hval (fun _ => hB.cached e hpos) fun _ x hx hr hd hi => hx ?_
  exact hB.uniq x e hr hpos (hd.trans hdev) (hi.trans hinum)

end

/-- One more reference is held. -/
theorem take (hpos : 0 < (s.inode e).ref) :
    Bal q (e ::ₘ h) L n (s.putInode e { s.inode e with ref := (s.inode e).ref + 1 }) := by
  refine hB.put_same (fun x hx => Multiset.count_cons_of_ne hx _) ?_ (fun _ _ => Iff.rfl) hB.once
    (hB.locked e) (fun he => ⟨(hB.valid e he).1, Nat.succ_pos _⟩) hpos rfl rfl
  show (s.inode e).ref + 1 + _ = _
  rw [Multiset.count_cons_self]
  omega

theorem iget (dev inum : Nat) :
    wp (iget dev inum) (fun e s' => Bal q (e ::ₘ h) L n s') (fun _ => True) s := by
  simp only [Fs.iget, wp_bind, wp_get]
  split
  · rename_i e he
    have hfound := List.find?_some he
    simp only [decide_eq_true_eq] at hfound
    simp only [setInode, wp_bind, wp_modify, wp_pure]
    exact hB.take hfound.1
  rename_i hnone
  simp only [List.find?_eq_none, List.mem_range, decide_eq_true_eq] at hnone
  split
  · rw [panic, wp_throw]
    trivial
  · rename_i e he
    have h0 : (s.inode e).ref = 0 := by simpa using List.find?_some he
    have hlt : e < ninode := List.mem_range.mp (List.mem_of_find?_eq_some he)
    have hunlocked : e ∉ L.map Prod.fst := fun hm => by
      have := (hB.valid e hm).2
      omega
    simp only [setInode, wp_bind, wp_modify, wp_pure]
    refine hB.put (fun x hx => Multiset.count_cons_of_ne hx _) ?_ (fun _ _ => Iff.rfl) hB.once
      (hB.locked e) (fun hm => absurd hm hunlocked) (fun _ => hlt) ?_
    · show 1 + _ = _
      rw [Multiset.count_cons_self]
      omega
    · intro _ x _ hr hd hi
      exact hnone x (hB.cached x hr) ⟨hr, hd, hi⟩

theorem idup (hp : p < nproc) (hq : q ≠ some p) (hcwd : (s.proc p).cwd = some e) :
    wp (idup e) (fun r s' => r = e ∧ Bal q (e ::ₘ h) L n s') (fun _ => True) s := by
  have hpos : 0 < (s.inode e).ref := by
    have := Count.refs_pos (q := fun c => decide (c = some e)) (t := fun p =>
      if q = some p then none else (s.proc p).cwd) (Finset.mem_range.mpr hp) (by simp [hq, hcwd])
    rw [hB.ref, cwdUsers]
    omega
  simp only [Fs.idup, setInode, wp_bind, wp_modify, wp_pure]
  exact ⟨trivial, hB.take hpos⟩

end

/-! ## Locks -/

theorem lock (hB : Bal q h L n s) (hpos : 0 < (s.inode e).ref) (hfree : (s.inode e).locked = false)
    (hip : ip.ref = (s.inode e).ref ∧ ip.locked = true ∧ ip.valid = true ∧
      ip.dev = (s.inode e).dev ∧ ip.inum = (s.inode e).inum) (t : Short) :
    Bal q h ((e, t) ::ₘ L) n (s.putInode e ip) := by
  have hnew : e ∉ L.map Prod.fst := by
    rw [← hB.locked e, hfree]
    exact Bool.false_ne_true
  refine hB.put_same (fun _ _ => rfl) (by rw [hip.1]) (fun x hx => ?_) ?_ ?_ ?_ hpos hip.2.2.2.1 hip.2.2.2.2
  · simp [hx]
  · rw [Multiset.map_cons, Multiset.nodup_cons]
    exact ⟨hnew, hB.once⟩
  · simp [hip.2.1]
  · intro _
    rw [hip.1]
    exact ⟨hip.2.2.1, hpos⟩

theorem ilock (hB : Bal q h L n s) :
    wp (ilock sb e) (fun _ s' => Bal q h ((e, (s'.inode e).di.type) ::ₘ L) n s') (fun _ => True) s := by
  simp only [Fs.ilock, acquiresleep, getInode, panic, setInode, bread, wp_bind, wp_get, wp_pure, wp_ite,
    wp_throw, wp_modify]
  split
  · trivial
  rename_i hpos
  split
  · trivial
  rename_i hfree
  have hpos : 0 < (s.inode e).ref := by omega
  have hfree : (s.inode e).locked = false := by simpa using hfree
  split
  · rename_i hval
    split
    · trivial
    · simp only [update_self, update_idem]
      refine hB.lock hpos hfree ?_ _
      exact ⟨rfl, rfl, rfl, rfl, rfl⟩
  · rename_i hval
    refine hB.lock hpos hfree ?_ _
    exact ⟨rfl, rfl, by simpa using hval, rfl, rfl⟩

theorem iunlock (hB : Bal q h ((e, t) ::ₘ L) n s) :
    wp (iunlock e) (fun _ s' => Bal q h L n s') (fun _ => True) s := by
  simp only [Fs.iunlock, releasesleep, getInode, panic, setInode, wp_bind, wp_get, wp_pure, wp_ite,
    wp_throw, wp_modify]
  split
  · trivial
  have honce := hB.once
  rw [Multiset.map_cons, Multiset.nodup_cons] at honce
  have hpos := (hB.valid e (by simp)).2
  refine hB.put_same (fun _ _ => rfl) rfl (fun x hx => ?_) honce.2 ?_ ?_ hpos rfl rfl
  · simp [hx]
  · simpa using honce.1
  · exact fun hm => absurd hm honce.1

/-! ## Dropping a reference -/

/-- A label without what `iput` may change before it drops the reference. -/
def Label.bare (l : Label) : Label := { l with locked := false, valid := false, type := 0#16 }

/-- The shell of the state with the label of `e` bare. -/
def around (e : Nat) (s : State) : (Nat → Label) × Nat × (Nat → File) × (Nat → Proc) :=
  (fun x => if x = e then Label.bare (s.inode x).label else (s.inode x).label,
    s.outstanding, s.file, s.proc)

theorem around_of_shell {α : Type} {x : M α} (e : Nat) (hx : Keeps shell x) : Keeps (around e) x :=
  hx.comp fun r => (fun x => if x = e then Label.bare (r.1 x) else r.1 x, r.2)

theorem around_setInode {f : Inode → Inode}
    (hf : ∀ ip, Label.bare (f ip).label = Label.bare ip.label) : Keeps (around e) (setInode e f) := by
  refine .modify fun s => ?_
  simp only [around, Prod.mk.injEq, and_true]
  funext x
  by_cases hx : x = e
  · subst hx
    rw [if_pos rfl, if_pos rfl, update_self, hf]
  · rw [if_neg hx, if_neg hx, update_of_ne hx]

/-- `iput` takes one off the count of its entry and leaves the other entries. -/
theorem iput_around : wp (Fs.iput sb e) (fun _ s' => (s.inode e).locked = false ∧
    ∃ s1, around e s1 = around e s ∧
      s' = s1.putInode e { s1.inode e with locked := false, ref := (s1.inode e).ref - 1 })
    (fun _ => True) s := by
  simp only [Fs.iput, acquiresleep, releasesleep, getInode, wp_bind, wp_get, wp_pure, wp_ite, wp_throw]
  split
  · trivial
  rename_i hl
  have hl : (s.inode e).locked = false := by simpa using hl
  -- Everything before the lock is released keeps `around e`.
  have hend : ∀ s1, around e s1 = around e s →
      wp (setInode e fun ip => { ip with locked := false }) (fun _ s2 =>
        wp (setInode e fun ip => { ip with ref := ip.ref - 1 })
          (fun _ s' => (s.inode e).locked = false ∧ ∃ s1, around e s1 = around e s ∧
            s' = s1.putInode e { s1.inode e with locked := false, ref := (s1.inode e).ref - 1 })
          (fun _ => True) s2) (fun _ => True) s1 := by
    intro s1 hs1
    simp only [setInode, wp_modify, update_self, update_idem]
    exact ⟨hl, s1, hs1, rfl⟩
  refine wp_post (around_setInode (f := fun ip => { ip with locked := true }) (fun _ => rfl) s)
    fun _ s1 h1 => ?_
  split
  · refine wp_post (around_of_shell e keeps_itrunc s1) fun _ s2 h2 => ?_
    refine wp_post (around_setInode (f := fun ip => { ip with di := { ip.di with type := 0#16 } })
      (fun _ => rfl) s2) fun _ s3 h3 => ?_
    refine wp_post (around_of_shell e keeps_iupdate s3) fun _ s4 h4 => ?_
    refine wp_post (around_setInode (f := fun ip => { ip with valid := false }) (fun _ => rfl) s4)
      fun _ s5 h5 => ?_
    exact hend s5 (h5.trans (h4.trans (h3.trans (h2.trans h1))))
  · exact hend s1 h1

theorem iput (hB : Bal q (e ::ₘ h) L n s) :
    wp (iput sb e) (fun _ s' => Bal q h L n s') (fun _ => True) s := by
  refine wp_post iput_around ?_
  rintro _ _ ⟨hl, s1, hs1, rfl⟩
  simp only [around, Prod.mk.injEq] at hs1
  obtain ⟨hlab, ho, hf, hp⟩ := hs1
  have hself : Label.bare (s1.inode e).label = Label.bare (s.inode e).label := by
    simpa using congrFun hlab e
  have href : (s1.inode e).ref = (s.inode e).ref := congrArg Label.ref hself
  have hdev : (s1.inode e).dev = (s.inode e).dev := congrArg Label.dev hself
  have hinum : (s1.inode e).inum = (s.inode e).inum := congrArg Label.inum hself
  have hpos := hB.pos (Multiset.mem_cons_self e h)
  have hnew : e ∉ L.map Prod.fst := by
    rw [← hB.locked e, hl]
    exact Bool.false_ne_true
  -- The same entry put into the old state gives the same account.
  have hput : Bal q h L n (s.putInode e
      { s1.inode e with locked := false, ref := (s1.inode e).ref - 1 }) := by
    refine hB.put_same (fun x hx => ?_) ?_ (fun _ _ => Iff.rfl) hB.once ?_ (fun hm => absurd hm hnew)
      hpos hdev hinum
    · rw [Multiset.count_cons_of_ne hx]
    · show (s1.inode e).ref - 1 + _ = _
      rw [Multiset.count_cons_self]
      omega
    · simpa using hnew
  refine hput.of_shell ?_
  simp only [shell, Prod.mk.injEq]
  refine ⟨?_, ho, hf, hp⟩
  funext x
  by_cases hx : x = e
  · subst hx
    simp [State.putInode]
  · have := congrFun hlab x
    simp only [if_neg hx] at this
    simp only [State.putInode, update_of_ne hx, this]

/-! ## Contents and directories -/

/-- Waiting for a device unlocks the inode for a while. -/
theorem relock (sb : Superblock) (hB : Bal q h ((e, t) ::ₘ L) n s) :
    wp (Fs.iunlock e) (fun _ s1 => wp (Fs.ilock sb e) (fun _ s' => Bal q h ((e, t) ::ₘ L) n s')
      (fun _ => True) s1) (fun _ => True) s := by
  refine wp_post hB.iunlock fun _ s1 h1 => ?_
  exact wp_post h1.ilock fun _ s2 h2 => h2.retype t

section

variable (hB : Bal q h ((e, t) ::ₘ L) n s)
include hB

theorem readi (off len : Nat) :
    wp (readi sb e off len) (fun _ s' => Bal q h ((e, t) ::ₘ L) n s') (fun _ => True) s := by
  simp only [Fs.readi, getInode, wp_bind, wp_get, wp_pure, wp_ite]
  split
  · split
    · simp only [consoleread, wp_bind, wp_get]
      refine wp_post (hB.relock sb) fun _ s1 h1 => ?_
      refine wp_post h1 fun _ s2 h2 => ?_
      split
      · rw [wp_pure]
        exact h2
      · rw [wp_bind, wp_modify, wp_pure]
        exact h2.of_shell rfl
    · exact hB
  split
  · exact hB
  · exact hB.keeps (keeps_readLoop _ _ _)

theorem writei (src : List Byte) (off : Nat) :
    wp (writei sb e src off) (fun _ s' => Bal q h ((e, t) ::ₘ L) n s') (fun _ => True) s := by
  simp only [Fs.writei, getInode, wp_bind, wp_get, wp_pure, wp_ite]
  split
  · split
    · simp only [consolewrite, wp_bind, wp_pure]
      refine wp_post hB.iunlock fun _ s1 h1 => ?_
      exact wp_post h1.ilock fun _ s2 h2 => h2.retype t
    · exact hB
  split
  · exact hB
  split
  · exact hB
  refine wp_post (hB.keeps (keeps_writeLoop _ _ _)) fun _ s1 h1 => ?_
  split
  · refine wp_post (h1.keeps (keeps_setDi fun _ => rfl)) fun _ s2 h2 => ?_
    exact h2.keeps keeps_iupdate
  · exact h1

theorem lookupLoop (name : List Byte) (fuel off : Nat)
    (hoff : off % direntSize = 0) :
    wp (lookupLoop sb e name fuel off) (fun r s' => Found Bal q h ((e, t) ::ₘ L) n (r.map Prod.fst) s' ∧
      ∀ x, r = some x → x.2 % direntSize = 0) (fun _ => True) s := by
  induction fuel generalizing off s with
  | zero =>
    rw [Fs.lookupLoop, wp_pure]
    exact ⟨hB, nofun⟩
  | succ fuel ih =>
    simp only [Fs.lookupLoop, getInode, panic, wp_bind, wp_get, wp_pure, wp_ite, wp_throw]
    split
    · refine wp_post (hB.readi _ _) fun r s1 h1 => ?_
      split
      · trivial
      split
      · refine wp_post (h1.iget _ _) fun next s2 h2 => ⟨h2, ?_⟩
        rintro _ ⟨⟩
        exact hoff
      · exact ih h1 _ (by rw [Nat.add_mod_right, hoff])
    · exact ⟨hB, nofun⟩

theorem dirlookup (name : List Byte) :
    wp (dirlookup sb e name) (fun r s' => Found Bal q h ((e, t) ::ₘ L) n (r.map Prod.fst) s' ∧
      ∀ x, r = some x → x.2 % direntSize = 0) (fun _ => True) s := by
  simp only [Fs.dirlookup, getInode, panic, wp_bind, wp_get, wp_pure, wp_ite, wp_throw]
  split
  · trivial
  · exact hB.lookupLoop name _ _ rfl

theorem emptyLoop (fuel off : Nat) :
    wp (emptyLoop sb e fuel off) (fun _ s' => Bal q h ((e, t) ::ₘ L) n s') (fun _ => True) s := by
  induction fuel generalizing off s with
  | zero =>
    rw [Fs.emptyLoop, wp_pure]
    exact hB
  | succ fuel ih =>
    simp only [Fs.emptyLoop, getInode, panic, wp_bind, wp_get, wp_pure, wp_ite, wp_throw]
    split
    · refine wp_post (hB.readi _ _) fun r s1 h1 => ?_
      split
      · trivial
      split
      · exact h1
      · exact ih h1 _
    · exact hB

theorem dirlink (name : List Byte) (inum : Nat) :
    wp (dirlink sb e name inum) (fun _ s' => Bal q h ((e, t) ::ₘ L) n s') (fun _ => True) s := by
  simp only [Fs.dirlink, wp_bind]
  refine wp_post (hB.dirlookup name) ?_
  rintro r s1 ⟨h1, -⟩
  cases r with
  | some x =>
    simp only [wp_bind, wp_pure]
    exact iput h1
  | none =>
    simp only [getInode, panic, wp_bind, wp_get, wp_pure, wp_ite, wp_throw]
    refine wp_post (emptyLoop h1 _ _) fun off s2 h2 => ?_
    refine wp_post (h2.writei _ _) fun r s3 h3 => ?_
    split
    · trivial
    · exact h3

end

theorem ialloc (hB : Bal q h L n s) (dev : Nat) (type u : Short) :
    wp (ialloc sb dev type) (fun e s1 => wp (Fs.ilock sb e)
      (fun _ s' => Bal q (e ::ₘ h) ((e, u) ::ₘ L) n s') (fun _ => True) s1) (fun _ => True) s := by
  simp only [Fs.ialloc, wp_bind, wp_get]
  split
  · rw [panic, wp_throw]
    trivial
  · simp only [bread, wp_bind, wp_get, wp_pure]
    refine wp_post (hB.keeps (keeps_logWrite _ _)) fun _ s1 h1 => ?_
    refine wp_post (h1.iget _ _) fun e s2 h2 => ?_
    exact wp_post h2.ilock fun _ s3 h3 => h3.retype u

/-! ## Files -/

section

variable (hB : Bal q h L n s) (hf : f < nfile)
include hB hf

/-- A file changes, and with it what points to the inodes. -/
theorem putFile {g : File} (hfree : g.ref = 0 → g.type = .none)
    (hcount : ∀ e, (decide (g.type = .inode ∧ 0 < g.ref ∧ g.ip = e)).toNat + h'.count e =
      (decide ((s.file f).type = .inode ∧ 0 < (s.file f).ref ∧ (s.file f).ip = e)).toNat + h.count e) :
    Bal q h' L n (s.putFile f g) := by
  have hself : (s.putFile f g).file f = g := update_self _ _ _
  have hne : ∀ x ≠ f, (s.putFile f g).file x = s.file x := fun x hx => update_of_ne hx _ _
  refine { hB with ref := ?_, free := ?_ }
  · intro e
    have hu := Count.refs_update (I := Finset.range nfile) (t := s.file) (u := (s.putFile f g).file)
      (fun g => decide (g.type = .inode ∧ 0 < g.ref ∧ g.ip = e)) (Finset.mem_range.mpr hf)
      fun k _ hk => hne k hk
    have hc := hcount e
    rw [hself] at hu
    have hr := hB.ref e
    show (s.inode e).ref = fileUsers (s.putFile f g) e + cwdUsers q s e + _
    unfold fileUsers at *
    omega
  · intro x hx
    by_cases hxf : x = f
    · subst hxf
      rw [hself]
      exact hfree
    · rw [hne x hxf]
      exact hB.free x hx

theorem newFile (href : (s.file f).ref = 0) :
    Bal q h L n (s.putFile f { s.file f with ref := 1 }) := by
  refine hB.putFile hf nofun fun e => ?_
  simp [hB.free f hf href]

theorem setFile {r o : Nat} (hpos : 0 < (s.file f).ref) (hr : 0 < r) :
    Bal q h L n (s.putFile f { s.file f with ref := r, off := o }) := by
  refine hB.putFile hf (fun h0 => absurd h0 (by dsimp only; omega)) fun e => ?_
  simp [hpos, hr]

theorem dropFile (hpos : 0 < (s.file f).ref) :
    Bal q (if (s.file f).type = .inode then (s.file f).ip ::ₘ h else h) L n
      (s.putFile f { s.file f with ref := 0, type := .none }) := by
  refine hB.putFile hf (fun _ => rfl) fun e => ?_
  by_cases ht : (s.file f).type = .inode
  · by_cases he : (s.file f).ip = e
    · subst he
      simp [ht, hpos]
      omega
    · simp [ht, he, Multiset.count_cons_of_ne (Ne.symm he)]
  · simp [ht]

end

theorem openFile {g : File} (hB : Bal q (e ::ₘ h) L n s) (hf : f < nfile)
    (htype : (s.file f).type = .none) (hg : g.type = .inode ∧ 0 < g.ref ∧ g.ip = e) :
    Bal q h L n (s.putFile f g) := by
  refine hB.putFile hf (fun h0 => absurd h0 (by omega)) fun x => ?_
  obtain ⟨h1, h2, rfl⟩ := hg
  by_cases hx : g.ip = x
  · subst hx
    simp [h1, h2, htype]
    omega
  · simp [hx, htype, Multiset.count_cons_of_ne (Ne.symm hx)]

/-! ## Directories of processes -/

/-- A process changes its directory, or begins to. -/
theorem putProc {q' : Option Nat} {pr : Proc} (hB : Bal q h L n s) (hp : p < nproc)
    (hofile : pr.ofile = (s.proc p).ofile) (hq : ∀ x ≠ p, q' = some x ↔ q = some x)
    (hcount : ∀ e, (decide ((if q' = some p then none else pr.cwd) = some e)).toNat + h'.count e =
      (decide ((if q = some p then none else (s.proc p).cwd) = some e)).toNat + h.count e) :
    Bal q' h' L n (s.putProc p pr) := by
  have hself : (s.putProc p pr).proc p = pr := update_self _ _ _
  have hne : ∀ x ≠ p, (s.putProc p pr).proc x = s.proc x := fun x hx => update_of_ne hx _ _
  refine { hB with ref := ?_, ofile := ?_ }
  · intro e
    have hu := Count.refs_update (I := Finset.range nproc)
      (t := fun x => if q = some x then none else (s.proc x).cwd)
      (u := fun x => if q' = some x then none else ((s.putProc p pr).proc x).cwd)
      (fun c => decide (c = some e)) (Finset.mem_range.mpr hp)
      fun k _ hk => by simp only [hne k hk, hq k hk]
    have hc := hcount e
    rw [hself] at hu
    have hr := hB.ref e
    show (s.inode e).ref = fileUsers s e + cwdUsers q' (s.putProc p pr) e + _
    unfold cwdUsers at *
    omega
  · intro x fd f hx
    by_cases hxp : x = p
    · subst hxp
      rw [hself, hofile] at hx
      exact hB.ofile x fd f hx
    · rw [hne x hxp] at hx
      exact hB.ofile x fd f hx

theorem leave (hB : Bal none h L n s) (hp : p < nproc) (hcwd : (s.proc p).cwd = some e) :
    Bal (some p) (e ::ₘ h) L n s := by
  have hput : s.putProc p (s.proc p) = s := by simp [State.putProc]
  rw [← hput]
  refine hB.putProc hp rfl (fun x hx => ?_) fun x => ?_
  · simp [Ne.symm hx]
  · by_cases hx : e = x
    · subst hx
      simp [hcwd]
      omega
    · simp [hcwd, hx, Multiset.count_cons_of_ne (Ne.symm hx)]

theorem arrive (hB : Bal q (e ::ₘ h) L n s) (hp : p < nproc) (hq : ∀ x, q = some x → x = p)
    (hnone : q = none → (s.proc p).cwd = none) :
    Bal none h L n (s.putProc p { s.proc p with cwd := some e }) := by
  have hold : (if q = some p then none else (s.proc p).cwd) = none := by
    cases q with
    | none => simpa using hnone rfl
    | some x => simp [hq x rfl]
  refine hB.putProc hp rfl (fun x hx => ?_) fun x => ?_
  · simp only [reduceCtorEq, false_iff]
    exact fun hqx => hx (hq x hqx)
  · rw [hold]
    by_cases hx : e = x
    · subst hx
      simp
      omega
    · simp [hx, Multiset.count_cons_of_ne (Ne.symm hx)]

theorem depart (hB : Bal (some p) h L n s) (hp : p < nproc) :
    Bal none h L n (s.putProc p { s.proc p with cwd := none }) := by
  refine hB.putProc hp rfl (fun x hx => ?_) fun x => ?_
  · simp [Ne.symm hx]
  · simp

theorem setOfile {fd : Nat} {x : Option Nat} (hB : Bal q h L n s) (hx : ∀ f, x = some f → f < nfile) :
    Bal q h L n (s.putProc p { s.proc p with ofile := Function.update (s.proc p).ofile fd x }) := by
  have hcwd : ∀ y, ((s.putProc p { s.proc p with ofile := Function.update (s.proc p).ofile fd x }).proc
      y).cwd = (s.proc y).cwd := by
    intro y
    by_cases hy : y = p
    · subst hy
      simp [State.putProc]
    · simp [State.putProc, hy]
  refine { hB with ref := ?_, ofile := ?_ }
  · intro e
    rw [cwdUsers]
    simp only [hcwd]
    exact hB.ref e
  · intro y fd' f hy
    by_cases hyp : y = p
    · subst hyp
      simp only [State.putProc, update_self] at hy
      by_cases hfd : fd' = fd
      · subst hfd
        rw [update_self] at hy
        exact hx f hy
      · rw [update_of_ne hfd] at hy
        exact hB.ofile y fd' f hy
    · simp only [State.putProc, update_of_ne hyp] at hy
      exact hB.ofile y fd' f hy

/-! ## The rules -/

theorem beginOp (hB : Bal q h L n s) :
    wp beginOp (fun _ s' => Bal q h L (n + 1) s') (fun _ => True) s := by
  simp only [Fs.beginOp, wp_bind, wp_get, wp_ite, wp_throw, wp_set]
  split
  · trivial
  · exact { hB with ops := congrArg (· + 1) hB.ops }

theorem endOp (hB : Bal q h L (n + 1) s) : wp endOp (fun _ s' => Bal q h L n s') (fun _ => True) s := by
  rw [Fs.endOp, wp_modify]
  exact { hB with ops := congrArg (· - 1) hB.ops }

theorem tracks (sb : Superblock) : Tracks sb Bal (fun _ => True) where
  stop _ _ := trivial
  beginOp hB := hB.beginOp
  endOp hB := hB.endOp
  root hB := hB.iget _ _
  idup hB hp hcwd := hB.idup hp nofun hcwd
  ilock hB := hB.ilock
  iunlock hB := hB.iunlock
  iput hB := hB.iput
  dirlookup name hB := hB.dirlookup name
  readi off len hB _ := hB.readi off len
  writei src off hB _ _ _ _ _ := hB.writei src off
  ofile_lt hB h := hB.ofile _ _ _ h
  setOfile hB hx := hB.setOfile hx
  free_none hB hf h0 := hB.free _ hf h0
  newFile hB hf h0 := hB.newFile hf h0
  setFile hB hf hpos hr := hB.setFile hf hpos hr
  dropFile hB hf hpos := hB.dropFile hf hpos
  openFile hB hf href htype _ := by
    refine wp_post (tables_iunlock.wp hB.iunlock) fun _ s1 ⟨h1, ht1⟩ => ?_
    refine wp_post (tables_endOp.wp h1.endOp) fun _ s2 ⟨h2, ht2⟩ => ?_
    have hfile := Tracks.file_of_tables (ht2.trans ht1)
    refine h2.openFile hf (by rw [hfile, htype]) ⟨rfl, ?_, rfl⟩
    rw [hfile, href]
    exact Nat.one_pos
  leave hB hp hcwd := hB.leave hp hcwd
  arrive hB hp := hB.arrive hp (by simp) nofun
  depart hB hp := hB.depart hp
  settle hB hp hcwd := hB.arrive hp nofun fun _ => hcwd

theorem edits (sb : Superblock) : Edits sb (fun _ => True) Bal (fun _ => True) where
  toTracks := tracks sb
  num _ _ := trivial
  update _ hB hf := wp_post (hB.keeps (keeps_setDi fun d => (hf d).1)) fun _ _ h1 => h1.keeps keeps_iupdate
  dirlink name inum hB _ := hB.dirlink name inum
  erase off hB _ := hB.writei _ off
  ialloc hB _ _ := hB.ialloc _ _ _

end Bal

/-! ## Between calls -/

/-- The account between calls: no lock is held, no transaction is open, and every reference
is that of an open file or of a process's directory. -/
structure Balanced (s : State) : Prop where
  unlocked : ∀ e, (s.inode e).locked = false
  ops : s.outstanding = 0
  ref : ∀ e, (s.inode e).ref =
    ((Finset.range nfile).filter fun f =>
      (s.file f).type = .inode ∧ 0 < (s.file f).ref ∧ (s.file f).ip = e).card +
    ((Finset.range nproc).filter fun p => (s.proc p).cwd = some e).card
  uniq : ∀ e e', 0 < (s.inode e).ref → 0 < (s.inode e').ref → (s.inode e).dev = (s.inode e').dev →
    (s.inode e).inum = (s.inode e').inum → e = e'
  /-- Pointers to inodes point into the cache, and descriptors into the file table. -/
  cached : ∀ e, 0 < (s.inode e).ref → e < ninode
  ofile : ∀ p fd f, (s.proc p).ofile fd = some f → f < nfile
  free : ∀ f < nfile, (s.file f).ref = 0 → (s.file f).type = .none

theorem cwdUsers_none (s : State) (e : Nat) :
    cwdUsers none s e = ((Finset.range nproc).filter fun p => (s.proc p).cwd = some e).card := by
  simp [cwdUsers, Count.refs]

theorem fileUsers_eq (s : State) (e : Nat) : fileUsers s e = ((Finset.range nfile).filter fun f =>
    (s.file f).type = .inode ∧ 0 < (s.file f).ref ∧ (s.file f).ip = e).card := by
  simp [fileUsers, Count.refs]

theorem balanced_iff {s : State} : Balanced s ↔ Bal none 0 0 0 s := by
  constructor
  · intro h
    refine ⟨fun e => ?_, fun e => ?_, by simp, by simp, h.cached, h.uniq, h.free, h.ofile, h.ops⟩
    · rw [h.ref e, fileUsers_eq, cwdUsers_none, Multiset.count_zero, Nat.add_zero]
    · simp [h.unlocked e]
  · intro h
    refine ⟨fun e => ?_, h.ops, fun e => ?_, h.uniq, h.cached, h.ofile, h.free⟩
    · have := h.locked e
      simpa using this
    · rw [h.ref e, fileUsers_eq, cwdUsers_none, Multiset.count_zero, Nat.add_zero]

/-- The state in which `init` starts: its directory is the root. -/
def booted (d : Disk) : State where
  disk := d
  inode e := ⟨rootdev, rootino, if e = 0 then 1 else 0, false, false, .blank 0#16⟩
  outstanding := 0
  lh := []
  file _ := ⟨.none, 0, false, false, 0, 0⟩
  proc p := ⟨if p = 0 then some 0 else none, fun _ => none⟩
  console := some []

theorem booted_balanced (d : Disk) : Balanced (booted d) := by
  have href : ∀ e, ((booted d).inode e).ref = if e = 0 then 1 else 0 := fun _ => rfl
  constructor
  · exact fun _ => rfl
  · rfl
  · intro e
    have hcwd : ∀ p, ((booted d).proc p).cwd = some e ↔ p = 0 ∧ e = 0 := by
      intro p
      by_cases hp : p = 0 <;> simp [booted, hp, eq_comm]
    have hfile : ∀ f, ((booted d).file f).type = .none := fun _ => rfl
    rw [href]
    simp only [hcwd, hfile]
    by_cases he : e = 0
    · simp [he, Finset.filter_eq', nproc]
    · simp [he]
  · intro e e' he he' _ _
    rw [href] at he he'
    grind
  · intro e he
    rw [href] at he
    have : e = 0 := by grind
    rw [this]
    decide
  · exact nofun
  · exact fun _ _ _ => rfl

end Xv6.Fs
