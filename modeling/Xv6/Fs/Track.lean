import Xv6.Fs.Frame

/-!
# Calls and what they hold

A system call takes references, locks and a transaction, and gives them back on every path.
`Held` is the type of a statement about the state that is told what the running call holds:
the references `h`, the locks `L` with the types of the locked inodes, and the number `n` of
transactions.  While a process exchanges its directory, `q` names it: the reference of its
directory is then counted with `h`.

`Tracks` lists what such a statement has to say about the functions of `fs.c`, one rule for
each.  The system calls are walked once, for any statement that satisfies the rules, and end
with nothing held.  The rules for functions that change directories and link counts are
apart, in `Edits`.
-/

namespace Xv6.Fs

open Prog Function

/-- A statement about the state and what the running call holds. -/
abbrev Held := Option Nat → Multiset Nat → Multiset (Nat × Short) → Nat → State → Prop

/-- The state with one file, one process or one entry of the inode cache replaced. -/
def State.putFile (s : State) (f : Nat) (g : File) : State :=
  { s with file := Function.update s.file f g }

def State.putProc (s : State) (p : Nat) (pr : Proc) : State :=
  { s with proc := Function.update s.proc p pr }

def State.putInode (s : State) (e : Nat) (ip : Inode) : State :=
  { s with inode := Function.update s.inode e ip }

@[simp] theorem State.inode_putInode_self (s : State) (e : Nat) (ip : Inode) :
    (s.putInode e ip).inode e = ip := update_self _ _ _

/-- A stop that no statement here rules out. -/
def Harmless (e : Stop) : Prop :=
  e ≠ .panic "freeing free block" ∧ e ≠ .panic "log_write outside of trans"

/-- What is held after a search that may have found an entry. -/
def Found (I : Held) (q : Option Nat) (h : Multiset Nat) (L : Multiset (Nat × Short)) (n : Nat)
    (r : Option Nat) (s : State) : Prop :=
  match r with
  | none => I q h L n s
  | some e => I q (e ::ₘ h) L n s

/-- The rules of the functions that do not change directories or link counts. -/
structure Tracks (sb : Superblock) (I : Held) (F : Stop → Prop) : Prop where
  stop : ∀ e, Harmless e → F e
  beginOp : ∀ {q h L n s}, I q h L n s → wp beginOp (fun _ s' => I q h L (n + 1) s') F s
  endOp : ∀ {q h L n s}, I q h L (n + 1) s → wp endOp (fun _ s' => I q h L n s') F s
  root : ∀ {q h L n s}, I q h L n s →
    wp (iget rootdev rootino) (fun e s' => I q (e ::ₘ h) L n s') F s
  idup : ∀ {h L n s p e}, I none h L n s → p < nproc → (s.proc p).cwd = some e →
    wp (idup e) (fun r s' => r = e ∧ I none (e ::ₘ h) L n s') F s
  ilock : ∀ {q h L n s e}, I q h L n s →
    wp (ilock sb e) (fun _ s' => I q h ((e, (s'.inode e).di.type) ::ₘ L) n s') F s
  iunlock : ∀ {q h L n s e t}, I q h ((e, t) ::ₘ L) n s →
    wp (iunlock e) (fun _ s' => I q h L n s') F s
  iput : ∀ {q h L n s e}, I q (e ::ₘ h) L (n + 1) s →
    wp (iput sb e) (fun _ s' => I q h L (n + 1) s') F s
  dirlookup : ∀ {q h L n s e t} (name : List Byte), I q h ((e, t) ::ₘ L) n s →
    wp (dirlookup sb e name) (fun r s' => Found I q h ((e, t) ::ₘ L) n (r.map Prod.fst) s' ∧
      ∀ x, r = some x → x.2 % direntSize = 0) F s
  readi : ∀ {q h L n s e t} (off len : Nat), I q h ((e, t) ::ₘ L) n s → len < 2 ^ 31 →
    wp (readi sb e off len) (fun _ s' => I q h ((e, t) ::ₘ L) n s') F s
  /-- The inode of a file that can be written is written. -/
  writei : ∀ {q h L n s f e t} (src : List Byte) (off : Nat), I q h ((e, t) ::ₘ L) (n + 1) s →
    f < nfile → (s.file f).ip = e → (s.file f).type = .inode → (s.file f).writable = true →
    src.length < 2 ^ 31 →
    wp (writei sb e src off) (fun _ s' => I q h ((e, t) ::ₘ L) (n + 1) s') F s
  ofile_lt : ∀ {q h L n s p fd f}, I q h L n s → (s.proc p).ofile fd = some f → f < nfile
  setOfile : ∀ {q h L n s p fd x}, I q h L n s → (∀ f, x = some f → f < nfile) →
    I q h L n (s.putProc p { s.proc p with ofile := Function.update (s.proc p).ofile fd x })
  free_none : ∀ {q h L n s f}, I q h L n s → f < nfile → (s.file f).ref = 0 →
    (s.file f).type = .none
  newFile : ∀ {q h L n s f}, I q h L n s → f < nfile → (s.file f).ref = 0 →
    I q h L n (s.putFile f { s.file f with ref := 1 })
  /-- The position and the positive reference count of a file may change. -/
  setFile : ∀ {q h L n s f r o}, I q h L n s → f < nfile → 0 < (s.file f).ref → 0 < r →
    I q h L n (s.putFile f { s.file f with ref := r, off := o })
  dropFile : ∀ {q h L n s f}, I q h L n s → f < nfile → 0 < (s.file f).ref →
    I q (if (s.file f).type = .inode then (s.file f).ip ::ₘ h else h) L n
      (s.putFile f { s.file f with ref := 0, type := .none })
  /-- The locked inode becomes that of a new file. -/
  openFile : ∀ {q h L n s f e t r w}, I q (e ::ₘ h) ((e, t) ::ₘ L) (n + 1) s → f < nfile →
    (s.file f).ref = 1 → (s.file f).type = .none → (t = tDir → w = false) →
    wp (Fs.iunlock e) (fun _ s1 => wp Fs.endOp (fun _ s2 =>
      I q h L n (s2.putFile f { s2.file f with
        type := .inode, ip := e, off := 0, readable := r, writable := w })) F s1) F s
  /-- A process gives up its directory, and then has another one or none. -/
  leave : ∀ {h L n s p e}, I none h L n s → p < nproc → (s.proc p).cwd = some e →
    I (some p) (e ::ₘ h) L n s
  arrive : ∀ {h L n s p e}, I (some p) (e ::ₘ h) L n s → p < nproc →
    I none h L n (s.putProc p { s.proc p with cwd := some e })
  depart : ∀ {h L n s p}, I (some p) h L n s → p < nproc →
    I none h L n (s.putProc p { s.proc p with cwd := none })
  /-- A process without a directory gets one. -/
  settle : ∀ {h L n s p e}, I none (e ::ₘ h) L n s → p < nproc → (s.proc p).cwd = none →
    I none h L n (s.putProc p { s.proc p with cwd := some e })

/-- The rules of the functions that change directories and link counts.  `Num` says which
inode numbers may stand in a directory. -/
structure Edits (sb : Superblock) (Num : Nat → Prop) (I : Held) (F : Stop → Prop) : Prop
    extends Tracks sb I F where
  num : ∀ {q h L n s e}, I q h L n s → e ∈ h → Num (s.inode e).inum
  /-- A link count, or the numbers of a device, are set and written to disk. -/
  update : ∀ {q h L n s e t} (f : Dinode → Dinode), I q h ((e, t) ::ₘ L) (n + 1) s →
    (∀ d, (f d).type = d.type ∧ (f d).size = d.size ∧ (f d).addrs = d.addrs) →
    wp (setDi e f) (fun _ s1 => wp (iupdate sb e)
      (fun _ s' => I q h ((e, t) ::ₘ L) (n + 1) s') F s1) F s
  dirlink : ∀ {q h L n s e t} (name : List Byte) (inum : Nat), I q h ((e, t) ::ₘ L) (n + 1) s →
    Num inum → wp (dirlink sb e name inum) (fun _ s' => I q h ((e, t) ::ₘ L) (n + 1) s') F s
  erase : ∀ {q h L n s e t} (off : Nat), I q h ((e, t) ::ₘ L) (n + 1) s → off % direntSize = 0 →
    wp (Fs.writei sb e (List.replicate direntSize 0#8) off)
      (fun _ s' => I q h ((e, t) ::ₘ L) (n + 1) s') F s
  /-- The new inode is locked as the next thing. -/
  ialloc : ∀ {q h L n s dp u type}, I q h L (n + 1) s → (dp, u) ∈ L → type ≠ 0#16 →
    wp (ialloc sb (s.inode dp).dev type) (fun e s1 => wp (Fs.ilock sb e)
      (fun _ s' => I q (e ::ₘ h) ((e, type) ::ₘ L) (n + 1) s') F s1) F s

namespace Tracks

variable {sb : Superblock} {I : Held} {F : Stop → Prop} {q : Option Nat} {h : Multiset Nat}
  {L : Multiset (Nat × Short)} {n : Nat} {s : State} {p e f : Nat} {t : Short}

theorem file_of_tables {s s' : State} (h : tables s' = tables s) : s'.file = s.file :=
  congrArg Prod.fst h

theorem proc_of_tables {s s' : State} (h : tables s' = tables s) : s'.proc = s.proc :=
  congrArg Prod.snd h

variable (C : Tracks sb I F)
include C

theorem panic {msg : String} (h1 : msg ≠ "freeing free block")
    (h2 : msg ≠ "log_write outside of trans") : F (.panic msg) :=
  C.stop _ ⟨fun he => h1 (Stop.panic.inj he), fun he => h2 (Stop.panic.inj he)⟩

theorem nullDeref : F .nullDeref :=
  C.stop _ ⟨Stop.noConfusion, Stop.noConfusion⟩

theorem iunlockput (hI : I q (e ::ₘ h) ((e, t) ::ₘ L) (n + 1) s) :
    wp (iunlockput sb e) (fun _ s' => I q h L (n + 1) s') F s := by
  rw [Fs.iunlockput, wp_bind]
  exact wp_post (C.iunlock hI) fun _ _ h1 => C.iput h1

/-! ## Paths -/

/-- `namex` holds the inode it returns. -/
theorem namexLoop (par : Bool) (fuel : Nat) (name path : List Byte)
    (hI : I q (e ::ₘ h) L (n + 1) s) :
    wp (namexLoop sb par fuel e name path)
      (fun r s' => Found I q h L (n + 1) (r.map Prod.fst) s') F s := by
  induction fuel generalizing e name path s with
  | zero =>
    unfold Fs.namexLoop
    simp only [wp_ite, wp_bind, wp_pure]
    split
    · exact C.iput hI
    · exact hI
  | succ fuel ih =>
    unfold Fs.namexLoop
    cases hskip : skipelem path with
    | none =>
      simp only [wp_ite, wp_bind, wp_pure]
      split
      · exact C.iput hI
      · exact hI
    | some next =>
      obtain ⟨elem, rest⟩ := next
      simp only [getInode, wp_bind, wp_get, wp_pure, wp_ite]
      refine wp_post (C.ilock hI) fun _ s1 h1 => ?_
      split
      · exact C.iunlockput h1
      split
      · exact C.iunlock h1
      refine wp_post (C.dirlookup elem h1) ?_
      rintro r s2 ⟨h2, -⟩
      cases r with
      | none =>
        simp only [wp_bind, wp_pure]
        exact C.iunlockput h2
      | some x =>
        obtain ⟨next, off⟩ := x
        have h2 : I q (next ::ₘ e ::ₘ h) _ (n + 1) s2 := h2
        rw [Multiset.cons_swap] at h2
        simp only [wp_bind]
        exact wp_post (C.iunlockput h2) fun _ _ h3 => ih _ _ h3

theorem namex (path : List Byte) (par : Bool) (hI : I none h L (n + 1) s)
    (hp : p < nproc) :
    wp (namex sb p path par) (fun r s' => Found I none h L (n + 1) (r.map Prod.fst) s') F s := by
  simp only [Fs.namex, wp_bind, wp_get, wp_ite]
  split
  · exact wp_post (C.root hI) fun e _ h1 => C.namexLoop par _ _ _ h1
  · split
    · rw [wp_throw]
      exact C.nullDeref
    · rename_i cwd hcwd
      rw [wp_bind]
      refine wp_post (C.idup hI hp hcwd) ?_
      rintro e s1 ⟨rfl, h1⟩
      exact C.namexLoop par _ _ _ h1

theorem namei (path : List Byte) (hI : I none h L (n + 1) s) (hp : p < nproc) :
    wp (namei sb p path) (Found I none h L (n + 1)) F s := by
  simp only [Fs.namei, wp_bind, wp_pure]
  exact C.namex path false hI hp

/-! ## Files -/

section

variable (hI : I q h L n s)
include hI

theorem fileclose (hf : f < nfile) :
    wp (fileclose sb f) (fun _ s' => I q h L n s') F s := by
  simp only [Fs.fileclose, getFile, Fs.setFile, Fs.panic, wp_bind, wp_get, wp_pure, wp_ite, wp_throw,
    wp_modify]
  split
  · exact C.panic (by decide) (by decide)
  rename_i hpos
  have hpos : 0 < (s.file f).ref := by omega
  split
  · rename_i hr
    exact C.setFile hI hf hpos hr
  have hdrop := C.dropFile hI hf hpos
  split
  · rename_i htype
    rw [if_pos htype] at hdrop
    refine wp_post (C.beginOp hdrop) fun _ s1 h1 => ?_
    exact wp_post (C.iput h1) fun _ s2 h2 => C.endOp h2
  · rename_i htype
    rw [if_neg htype] at hdrop
    exact hdrop

theorem filealloc :
    wp filealloc (fun r s' => I q h L n s' ∧ ∀ f, r = some f →
      f < nfile ∧ (s'.file f).ref = 1 ∧ (s'.file f).type = .none) F s := by
  simp only [Fs.filealloc, wp_bind, wp_get]
  split
  · rw [wp_pure]
    exact ⟨hI, fun _ h => by cases h⟩
  · rename_i f hf
    have hlt : f < nfile := List.mem_range.mp (List.mem_of_find?_eq_some hf)
    have href : (s.file f).ref = 0 := by simpa using List.find?_some hf
    simp only [Fs.setFile, wp_bind, wp_modify, wp_pure, Option.some.injEq]
    refine ⟨C.newFile hI hlt href, ?_⟩
    rintro _ rfl
    rw [update_self]
    exact ⟨hlt, rfl, C.free_none hI hlt href⟩

theorem fdalloc (hf : f < nfile) :
    wp (fdalloc p f) (fun _ s' => I q h L n s' ∧ s'.file = s.file) F s := by
  simp only [Fs.fdalloc, wp_bind, wp_get]
  split
  · rw [wp_pure]
    exact ⟨hI, rfl⟩
  · simp only [Fs.setOfile, Fs.setProc, wp_bind, wp_pure, wp_modify]
    refine ⟨C.setOfile hI ?_, trivial⟩
    rintro _ ⟨⟩
    exact hf

theorem filedup (hf : f < nfile) :
    wp (filedup f) (fun _ s' => I q h L n s' ∧ s'.proc = s.proc) F s := by
  simp only [Fs.filedup, getFile, Fs.panic, Fs.setFile, wp_bind, wp_get, wp_pure, wp_ite, wp_throw,
    wp_modify]
  split
  · exact C.panic (by decide) (by decide)
  · exact ⟨C.setFile hI hf (by omega) (Nat.succ_pos _), trivial⟩

/-- A file's position may change. -/
theorem setOff (hf : f < nfile)
    (htype : (s.file f).type = .inode) (o : Nat) :
    I q h L n (s.putFile f { s.file f with off := o }) := by
  have hpos : 0 < (s.file f).ref := by
    refine Nat.pos_of_ne_zero fun h0 => ?_
    rw [C.free_none hI hf h0] at htype
    cases htype
  exact C.setFile hI hf hpos hpos

end

theorem fileread (len : Nat) (hI : I q h L n s) (hf : f < nfile)
    (hlen : len < 2 ^ 31) : wp (fileread sb f len) (fun _ s' => I q h L n s') F s := by
  simp only [Fs.fileread, getFile, wp_bind, wp_get, wp_pure, wp_ite]
  split
  · exact hI
  split
  · rw [wp_pure]
    exact hI
  · rw [Fs.panic, wp_throw]
    exact C.panic (by decide) (by decide)
  rename_i htype
  simp only [wp_bind]
  refine wp_post (tables_ilock.wp (C.ilock hI)) ?_
  rintro _ s1 ⟨h1, ht1⟩
  refine wp_post ((tables_readi _ _).wp (C.readi _ _ h1 hlen)) ?_
  rintro r s2 ⟨h2, ht2⟩
  have htype2 : (s2.file f).type = .inode := by
    rw [file_of_tables (ht2.trans ht1), htype]
  cases r with
  | none =>
    simp only [wp_bind, wp_pure]
    exact C.iunlock h2
  | some bs =>
    simp only [Fs.setFile, wp_bind, wp_pure, wp_modify]
    exact C.iunlock (C.setOff h2 hf htype2 _)

theorem filewriteLoop (fuel : Nat) (src : List Byte) (hI : I q h L n s)
    (hf : f < nfile) (htype : (s.file f).type = .inode) (hw : (s.file f).writable = true) :
    wp (filewriteLoop sb f fuel src) (fun _ s' => I q h L n s') F s := by
  induction fuel generalizing src s with
  | zero =>
    rw [Fs.filewriteLoop, wp_pure]
    exact hI
  | succ fuel ih =>
    simp only [Fs.filewriteLoop, wp_ite, wp_pure]
    split
    · exact hI
    have hchunk : (src.take filewriteMax).length < 2 ^ 31 :=
      lt_of_le_of_lt (List.length_take_le _ _) (by decide)
    simp only [getFile, wp_bind, wp_get, wp_pure]
    refine wp_post (tables_beginOp.wp (C.beginOp hI)) ?_
    rintro _ s1 ⟨h1, ht1⟩
    refine wp_post (tables_ilock.wp (C.ilock h1)) ?_
    rintro _ s2 ⟨h2, ht2⟩
    have hfile2 := file_of_tables (ht2.trans ht1)
    have hwrite := C.writei (src.take filewriteMax) (s.file f).off h2 hf (by rw [hfile2])
      (by rw [hfile2, htype]) (by rw [hfile2, hw]) hchunk
    refine wp_post ((tables_writei _ _).wp hwrite) ?_
    rintro r s3 ⟨h3, ht3⟩
    have hfile3 := file_of_tables (ht3.trans (ht2.trans ht1))
    -- The rest of the round: unlock, leave the transaction, go on with `x`.
    have hrest : ∀ (x : M Bool) (s4 : State),
        I q h (((s.file f).ip, (s2.inode (s.file f).ip).di.type) ::ₘ L) (n + 1) s4 →
        (s4.file f).type = .inode → (s4.file f).writable = true →
        (∀ s', I q h L n s' → (s'.file f).type = .inode → (s'.file f).writable = true →
          wp x (fun _ s' => I q h L n s') F s') →
        wp (do Fs.iunlock (s.file f).ip; Fs.endOp; x) (fun _ s' => I q h L n s') F s4 := by
      intro x s4 h4 ht4 hw4 hx
      simp only [wp_bind]
      refine wp_post (tables_iunlock.wp (C.iunlock h4)) ?_
      rintro _ s5 ⟨h5, ht5⟩
      refine wp_post (tables_endOp.wp (C.endOp h5)) ?_
      rintro _ s6 ⟨h6, ht6⟩
      have hfile6 := file_of_tables (ht6.trans ht5)
      exact hx s6 h6 (by rw [hfile6, ht4]) (by rw [hfile6, hw4])
    cases r with
    | none =>
      refine hrest _ s3 h3 (by rw [hfile3, htype]) (by rw [hfile3, hw]) fun s' h' _ _ => ?_
      rw [wp_pure]
      exact h'
    | some m =>
      show wp (Fs.setFile f _ >>= _) _ _ _
      rw [wp_bind, Fs.setFile, wp_modify]
      refine hrest _ _ (C.setOff h3 hf (by rw [hfile3, htype]) _) ?_ ?_ fun s' h' ht' hw' => ?_
      · simp only [update_self, hfile3, htype]
      · simp only [update_self, hfile3, hw]
      rw [wp_ite]
      split
      · rw [Fs.panic, wp_throw]
        exact C.panic (by decide) (by decide)
      · exact ih _ h' ht' hw'

theorem filewrite (src : List Byte) (hI : I q h L n s) (hf : f < nfile) :
    wp (filewrite sb f src) (fun _ s' => I q h L n s') F s := by
  simp only [Fs.filewrite, getFile, wp_bind, wp_get, wp_pure, wp_ite]
  split
  · exact hI
  rename_i hw
  split
  · rw [wp_pure]
    exact hI
  · rw [Fs.panic, wp_throw]
    exact C.panic (by decide) (by decide)
  rename_i htype
  simp only [wp_bind, wp_ite, wp_pure, ite_self]
  exact C.filewriteLoop _ _ hI hf htype (by simpa using hw)

theorem filestat (hI : I q h L n s) :
    wp (filestat sb f) (fun _ s' => I q h L n s') F s := by
  simp only [Fs.filestat, getFile, wp_bind, wp_get, wp_pure, wp_ite]
  split
  · exact wp_post (C.ilock hI) fun _ _ h1 => C.iunlock h1
  · exact hI

/-! ## Calls -/

theorem sysDup (fd : Int) (hI : I q h L n s) :
    wp (sysDup p fd) (fun _ s' => I q h L n s') F s := by
  simp only [Fs.sysDup, argfd, wp_bind, wp_get, wp_pure]
  split
  · rw [wp_pure]
    exact hI
  rename_i f hfd
  have hf : f < nfile := by
    split at hfd
    · cases hfd
    · exact C.ofile_lt hI hfd
  rw [wp_bind]
  refine wp_post (C.fdalloc hI hf) ?_
  rintro r s1 ⟨h1, -⟩
  cases r with
  | none =>
    simp only [wp_pure]
    exact h1
  | some fd' =>
    simp only [wp_bind, wp_pure]
    exact wp_post (C.filedup h1 hf) fun _ _ h2 => h2.1

/-- The calls that only look at the file of a descriptor. -/
theorem onFile {α : Type} (fd : Int) (x : Nat → M α) (d : α) (hI : I q h L n s)
    (hx : ∀ f < nfile, wp (x f) (fun _ s' => I q h L n s') F s) :
    wp (do match ← argfd p fd with
      | none => pure d
      | some f => x f) (fun _ s' => I q h L n s') F s := by
  simp only [argfd, wp_bind, wp_get, wp_pure]
  split
  · rw [wp_pure]
    exact hI
  · rename_i f hfd
    refine hx f ?_
    split at hfd
    · cases hfd
    · exact C.ofile_lt hI hfd

theorem sysRead (fd : Int) (len : Nat) (hI : I q h L n s) (hlen : len < 2 ^ 31) :
    wp (sysRead sb p fd len) (fun _ s' => I q h L n s') F s := by
  refine C.onFile fd _ _ hI fun f hf => ?_
  rw [wp_bind]
  refine wp_post (C.fileread len hI hf hlen) fun r s1 h1 => ?_
  cases r with
  | none =>
    simp only [wp_pure]
    exact h1
  | some bs =>
    simp only [wp_pure]
    exact h1

theorem sysWrite (fd : Int) (src : List Byte) (hI : I q h L n s) :
    wp (sysWrite sb p fd src) (fun _ s' => I q h L n s') F s :=
  C.onFile fd _ _ hI fun _ hf => C.filewrite src hI hf

theorem sysFstat (fd : Int) (hI : I q h L n s) :
    wp (sysFstat sb p fd) (fun _ s' => I q h L n s') F s :=
  C.onFile fd _ _ hI fun _ _ => C.filestat hI

theorem sysClose (fd : Int) (hI : I q h L n s) :
    wp (sysClose sb p fd) (fun _ s' => I q h L n s') F s := by
  refine C.onFile fd _ _ hI fun f hf => ?_
  simp only [Fs.setOfile, Fs.setProc, wp_bind, wp_modify, wp_pure]
  exact C.fileclose (C.setOfile hI fun _ h => by cases h) hf

/-- An inode that is locked is opened, or given back. -/
theorem openInode (omode : Word) (hI : I q (e ::ₘ h) ((e, t) ::ₘ L) (n + 1) s)
    (ht : t = tDir → omode = 0#32) :
    wp (openInode sb p e omode) (fun _ s' => I q h L n s') F s := by
  simp only [Fs.openInode, wp_bind]
  refine wp_post (C.filealloc hI) ?_
  rintro r s1 ⟨h1, hr⟩
  cases r with
  | none =>
    simp only [wp_bind, wp_pure]
    exact wp_post (C.iunlockput h1) fun _ _ h2 => C.endOp h2
  | some f =>
    obtain ⟨hf, href, htype⟩ := hr f rfl
    simp only [wp_bind]
    refine wp_post (C.fdalloc h1 hf) ?_
    rintro r s2 ⟨h2, hfile⟩
    cases r with
    | none =>
      simp only [wp_bind, wp_pure]
      refine wp_post (C.fileclose h2 hf) fun _ s3 h3 => ?_
      exact wp_post (C.iunlockput h3) fun _ _ h4 => C.endOp h4
    | some fd =>
      simp only [Fs.setFile, wp_bind, wp_modify, wp_pure]
      refine C.openFile h2 hf (by rw [hfile, href]) (by rw [hfile, htype]) fun hd => ?_
      rw [ht hd]
      rfl

/-- `open` of a path that is there. -/
theorem openNamed (path : List Byte) (omode : Word) (hI : I none h L (n + 1) s)
    (hp : p < nproc) :
    wp (do match ← Fs.namei sb p path with
      | none => do
        Fs.endOp
        pure (-1)
      | some ip => do
        Fs.ilock sb ip
        let ino ← getInode ip
        if ino.di.type = tDir ∧ omode ≠ 0#32 then do
          Fs.iunlockput sb ip
          Fs.endOp
          pure (-1)
        else Fs.openInode sb p ip omode) (fun _ s' => I none h L n s') F s := by
  rw [wp_bind]
  refine wp_post (C.namei path hI hp) fun r s1 h1 => ?_
  cases r with
  | none =>
    simp only [wp_bind, wp_pure]
    exact C.endOp h1
  | some ip =>
    simp only [getInode, wp_bind, wp_get, wp_pure, wp_ite]
    refine wp_post (C.ilock h1) fun _ s2 h2 => ?_
    split
    · exact wp_post (C.iunlockput h2) fun _ _ h3 => C.endOp h3
    · rename_i hmode
      exact C.openInode omode h2 fun hd => by_contra fun hne => hmode ⟨hd, hne⟩

theorem sysChdir (path : List Byte) (hI : I none 0 0 0 s) (hp : p < nproc) :
    wp (sysChdir sb p path) (fun _ s' => I none 0 0 0 s') F s := by
  simp only [Fs.sysChdir, wp_bind]
  refine wp_post (C.beginOp hI) fun _ s1 h1 => ?_
  refine wp_post (C.namei path h1 hp) fun r s2 h2 => ?_
  cases r with
  | none =>
    simp only [wp_bind, wp_pure]
    exact C.endOp h2
  | some ip =>
    simp only [getInode, wp_bind, wp_get, wp_pure, wp_ite]
    refine wp_post (C.ilock h2) fun _ s3 h3 => ?_
    split
    · exact wp_post (C.iunlockput h3) fun _ _ h4 => C.endOp h4
    refine wp_post (C.iunlock h3) fun _ s4 h4 => ?_
    split
    · rw [wp_throw]
      exact C.nullDeref
    · rename_i cwd hcwd
      simp only [Fs.setProc, wp_bind, wp_modify, wp_pure]
      refine wp_post (C.iput (C.leave h4 hp hcwd)) fun _ s5 h5 => ?_
      exact wp_post (C.endOp h5) fun _ s6 h6 => C.arrive h6 hp

theorem exec (path : List Byte) (reads : List (Nat × Nat)) (hI : I none h L n s)
    (hp : p < nproc) (hr : ∀ r ∈ reads, r.2 < 2 ^ 31) :
    wp (exec sb p path reads) (fun _ s' => I none h L n s') F s := by
  simp only [Fs.exec, wp_bind]
  refine wp_post (C.beginOp hI) fun _ s1 h1 => ?_
  refine wp_post (C.namei path h1 hp) fun r s2 h2 => ?_
  cases r with
  | none =>
    simp only [wp_bind, wp_pure]
    exact C.endOp h2
  | some ip =>
    simp only [wp_bind, wp_pure]
    refine wp_post (C.ilock h2) fun _ s3 h3 => ?_
    refine wp_post (wp_forM (I := fun l s' => (∀ r ∈ l, r.2 < 2 ^ 31) ∧
      I none (ip ::ₘ h) ((ip, (s3.inode ip).di.type) ::ₘ L) (n + 1) s') ⟨hr, h3⟩ ?_) ?_
    · rintro r rs s4 ⟨hrs, h4⟩
      simp only [wp_bind, wp_pure]
      exact wp_post (C.readi _ _ h4 (hrs r (by simp))) fun _ _ h5 =>
        ⟨fun r' hr' => hrs r' (List.mem_cons_of_mem _ hr'), h5⟩
    · rintro _ s4 ⟨_, h4⟩
      exact wp_post (C.iunlockput h4) fun _ _ h5 => C.endOp h5

theorem fork {np : Nat} (hI : I none 0 0 0 s) (hp : p < nproc) (hnp : np < nproc)
    (hcwd : (s.proc np).cwd = none) : wp (fork p np) (fun _ s' => I none 0 0 0 s') F s := by
  simp only [Fs.fork, wp_bind]
  refine wp_post (wp_forM (I := fun _ s' => I none 0 0 0 s' ∧ (s'.proc np).cwd = none)
    ⟨hI, hcwd⟩ ?_) ?_
  · rintro fd _ s1 ⟨h1, hc1⟩
    simp only [dupOfile, wp_bind, wp_get]
    split
    · rw [wp_pure]
      exact ⟨h1, hc1⟩
    · rename_i f hf
      have hlt := C.ofile_lt h1 hf
      rw [wp_bind]
      refine wp_post (C.filedup h1 hlt) ?_
      rintro _ s2 ⟨h2, hproc⟩
      simp only [Fs.setOfile, Fs.setProc, wp_modify]
      refine ⟨C.setOfile h2 ?_, ?_⟩
      · rintro _ ⟨⟩
        exact hlt
      · rw [update_self, hproc, hc1]
  · rintro _ s1 ⟨h1, hc1⟩
    rw [wp_get]
    split
    · rw [wp_throw]
      exact C.nullDeref
    · rename_i cwd hcwd1
      simp only [wp_bind, Fs.setProc, wp_modify, wp_pure]
      refine wp_post (tables_idup.wp (C.idup h1 hp hcwd1)) ?_
      rintro e s2 ⟨⟨rfl, h2⟩, ht2⟩
      exact C.settle h2 hnp (by rw [proc_of_tables ht2, hc1])

theorem exit (hI : I none 0 0 0 s) (hp : p < nproc) :
    wp (exit sb p) (fun _ s' => I none 0 0 0 s') F s := by
  simp only [Fs.exit, wp_bind]
  refine wp_post (wp_forM (I := fun _ s' => I none 0 0 0 s') hI ?_) ?_
  · intro fd _ s1 h1
    simp only [closeOfile, wp_bind, wp_get]
    split
    · rw [wp_pure]
      exact h1
    · rename_i f hf
      rw [wp_bind]
      refine wp_post (C.fileclose h1 (C.ofile_lt h1 hf)) fun _ s2 h2 => ?_
      rw [Fs.setOfile, Fs.setProc, wp_modify]
      exact C.setOfile h2 fun _ h => by cases h
  · intro _ s1 h1
    refine wp_post (C.beginOp h1) fun _ s2 h2 => ?_
    rw [wp_get]
    split
    · rw [wp_throw]
      exact C.nullDeref
    · rename_i cwd hcwd
      simp only [wp_bind, Fs.setProc, wp_modify, wp_pure]
      refine wp_post (C.iput (C.leave h2 hp hcwd)) fun _ s3 h3 => ?_
      exact wp_post (C.endOp h3) fun _ s4 h4 => C.depart h4 hp

end Tracks

/-! ## Calls that change directories -/

namespace Edits

variable {sb : Superblock} {Num : Nat → Prop} {I : Held} {F : Stop → Prop}
  {h : Multiset Nat} {L : Multiset (Nat × Short)} {n : Nat} {s : State} {p e f : Nat} {t : Short}

variable (C : Edits sb Num I F)
include C

theorem isdiremptyLoop (fuel off : Nat) (hI : I none h ((e, t) ::ₘ L) n s) :
    wp (Fs.isdiremptyLoop sb e fuel off) (fun _ s' => I none h ((e, t) ::ₘ L) n s') F s := by
  induction fuel generalizing off s with
  | zero =>
    rw [Fs.isdiremptyLoop, wp_pure]
    exact hI
  | succ fuel ih =>
    simp only [Fs.isdiremptyLoop, getInode, panic, wp_bind, wp_get, wp_pure, wp_ite, wp_throw]
    split
    · refine wp_post (C.readi _ _ hI (by decide)) fun r s1 h1 => ?_
      split
      · exact C.panic (by decide) (by decide)
      split
      · exact h1
      · exact ih _ h1
    · exact hI

theorem isdirempty (hI : I none h ((e, t) ::ₘ L) n s) :
    wp (isdirempty sb e) (fun _ s' => I none h ((e, t) ::ₘ L) n s') F s := by
  simp only [Fs.isdirempty, getInode, wp_bind, wp_get, wp_pure]
  exact C.isdiremptyLoop _ _ hI

theorem linkBad (hI : I none (e ::ₘ h) L (n + 1) s) :
    wp (linkBad sb e) (fun _ s' => I none h L n s') F s := by
  simp only [Fs.linkBad, wp_bind, wp_pure]
  refine wp_post (C.ilock hI) fun _ s1 h1 => ?_
  refine wp_post (C.update _ h1 fun _ => ⟨rfl, rfl, rfl⟩) fun _ s2 h2 => ?_
  refine wp_post h2 fun _ s3 h3 => ?_
  exact wp_post (C.iunlockput h3) fun _ s4 h4 => C.endOp h4

theorem sysLink (old new : List Byte) (hI : I none h L n s) (hp : p < nproc) :
    wp (sysLink sb p old new) (fun _ s' => I none h L n s') F s := by
  simp only [Fs.sysLink, wp_bind]
  refine wp_post (C.beginOp hI) fun _ s1 h1 => ?_
  refine wp_post (C.namei old h1 hp) fun r s2 h2 => ?_
  cases r with
  | none =>
    simp only [wp_bind, wp_pure]
    exact C.endOp h2
  | some ip =>
  simp only [getInode, wp_bind, wp_get, wp_pure, wp_ite]
  refine wp_post (C.ilock h2) fun _ s3 h3 => ?_
  split
  · exact wp_post (C.iunlockput h3) fun _ _ h4 => C.endOp h4
  refine wp_post (C.update _ h3 fun _ => ⟨rfl, rfl, rfl⟩) fun _ s4 h4 => ?_
  refine wp_post h4 fun _ s5 h5 => ?_
  refine wp_post (C.iunlock h5) fun _ s6 h6 => ?_
  refine wp_post (C.namex new true h6 hp) fun r s7 h7 => ?_
  cases r with
  | none => exact C.linkBad h7
  | some x =>
  obtain ⟨dp, name⟩ := x
  have h7 : I none (dp ::ₘ ip ::ₘ h) L (n + 1) s7 := h7
  simp only [wp_bind, wp_get, wp_pure, wp_ite]
  refine wp_post (C.ilock h7) fun _ s8 h8 => ?_
  split
  · exact wp_post (C.iunlockput h8) fun _ _ h9 => C.linkBad h9
  have hnum : Num (s8.inode ip).inum := C.num h8 (by simp)
  refine wp_post (C.dirlink name _ h8 hnum) fun r s9 h9 => ?_
  split
  · refine wp_post (C.iunlockput h9) fun _ _ h10 => ?_
    exact wp_post (C.iput h10) fun _ _ h11 => C.endOp h11
  · exact wp_post (C.iunlockput h9) fun _ _ h10 => C.linkBad h10

theorem unlinkBad (hI : I none (e ::ₘ h) ((e, t) ::ₘ L) (n + 1) s) :
    wp (unlinkBad sb e) (fun _ s' => I none h L n s') F s := by
  simp only [Fs.unlinkBad, wp_bind, wp_pure]
  exact wp_post (C.iunlockput hI) fun _ s1 h1 => C.endOp h1

theorem unlinkEntry {dp ip off : Nat} {u : Short} (type : Short)
    (hI : I none (ip ::ₘ dp ::ₘ h) ((ip, u) ::ₘ (dp, t) ::ₘ L) (n + 1) s) (hoff : off % direntSize = 0) :
    wp (unlinkEntry sb dp ip off type) (fun _ s' => I none h L n s') F s := by
  rw [Multiset.cons_swap ip dp, Multiset.cons_swap (ip, u)] at hI
  simp only [Fs.unlinkEntry, panic, wp_bind, wp_pure, wp_ite, wp_throw]
  refine wp_post (C.erase off hI hoff) fun r s1 h1 => ?_
  split
  · exact C.panic (by decide) (by decide)
  -- Unlock the directory, then take one link from the inode.
  have hrest : ∀ s2 : State, I none (dp ::ₘ ip ::ₘ h) ((dp, t) ::ₘ (ip, u) ::ₘ L) (n + 1) s2 →
      wp (Fs.iunlockput sb dp) (fun _ s3 => wp (setDi ip fun d => { d with nlink := d.nlink - 1#16 })
        (fun _ s4 => wp (iupdate sb ip) (fun _ s5 => wp (Fs.iunlockput sb ip) (fun _ s6 =>
          wp endOp (fun _ s' => I none h L n s') F s6) F s5) F s4) F s3) F s2 := by
    intro s2 h2
    refine wp_post (C.iunlockput h2) fun _ s3 h3 => ?_
    refine wp_post (C.update _ h3 fun _ => ⟨rfl, rfl, rfl⟩) fun _ s4 h4 => ?_
    refine wp_post h4 fun _ s5 h5 => ?_
    exact wp_post (C.iunlockput h5) fun _ s6 h6 => C.endOp h6
  split
  · refine wp_post (C.update _ h1 fun _ => ⟨rfl, rfl, rfl⟩) fun _ s2 h2 => ?_
    exact wp_post h2 fun _ s3 h3 => hrest s3 h3
  · exact hrest s1 h1

theorem sysUnlink (path : List Byte) (hI : I none h L n s) (hp : p < nproc) :
    wp (sysUnlink sb p path) (fun _ s' => I none h L n s') F s := by
  simp only [Fs.sysUnlink, wp_bind]
  refine wp_post (C.beginOp hI) fun _ s1 h1 => ?_
  refine wp_post (C.namex path true h1 hp) fun r s2 h2 => ?_
  cases r with
  | none =>
    simp only [wp_bind, wp_pure]
    exact C.endOp h2
  | some x =>
  obtain ⟨dp, name⟩ := x
  have h2 : I none (dp ::ₘ h) L (n + 1) s2 := h2
  simp only [wp_bind, wp_ite]
  refine wp_post (C.ilock h2) fun _ s3 h3 => ?_
  split
  · exact C.unlinkBad h3
  refine wp_post (C.dirlookup name h3) ?_
  rintro r s4 ⟨h4, hoff⟩
  cases r with
  | none => exact C.unlinkBad h4
  | some x =>
  obtain ⟨ip, off⟩ := x
  have h4 : I none (ip ::ₘ dp ::ₘ h) ((dp, (s3.inode dp).di.type) ::ₘ L) (n + 1) s4 := h4
  have hoff : off % direntSize = 0 := hoff _ rfl
  simp only [getInode, panic, wp_bind, wp_get, wp_pure, wp_ite, wp_throw, wp_map]
  refine wp_post (C.ilock h4) fun _ s5 h5 => ?_
  split
  · exact C.panic (by decide) (by decide)
  -- The test for emptiness leaves what is held.
  have hrest : ∀ (full : Bool) (s6 : State), I none (ip ::ₘ dp ::ₘ h) ((ip, (s5.inode ip).di.type) ::ₘ
      (dp, (s3.inode dp).di.type) ::ₘ L) (n + 1) s6 →
      (if full = true then wp (Fs.iunlockput sb ip) (fun _ s' => wp (Fs.unlinkBad sb dp)
          (fun _ s' => I none h L n s') F s') F s6
        else wp (Fs.unlinkEntry sb dp ip off (s5.inode ip).di.type) (fun _ s' => I none h L n s') F s6) := by
    intro full s6 h6
    split
    · exact wp_post (C.iunlockput h6) fun _ _ h7 => C.unlinkBad h7
    · exact C.unlinkEntry _ h6 hoff
  split
  · exact wp_post (C.isdirempty h5) fun r s6 h6 => hrest _ s6 h6
  · exact hrest _ s5 h5

/-! ### New inodes -/

theorem createNew (name : List Byte) {type : Short} (major minor : Short)
    (htype : type ≠ 0#16) (hI : I none (e ::ₘ h) ((e, t) ::ₘ L) (n + 1) s) :
    wp (createNew sb e name type major minor)
      (fun ip s' => I none (ip ::ₘ h) ((ip, type) ::ₘ L) (n + 1) s') F s := by
  simp only [Fs.createNew, getInode, panic, wp_bind, wp_get, wp_pure, wp_ite, wp_throw]
  have hdot : Num (s.inode e).inum := C.num hI (by simp)
  refine wp_post (C.ialloc hI (Multiset.mem_cons_self _ _) htype) fun ip s1 h1 => ?_
  refine wp_post h1 fun _ s2 h2 => ?_
  refine wp_post (C.update _ h2 fun _ => ⟨rfl, rfl, rfl⟩) fun _ s3 h3 => ?_
  refine wp_post h3 fun _ s4 h4 => ?_
  have hself : Num (s4.inode ip).inum := C.num h4 (by simp)
  -- Enter the new inode into its directory.
  have hlink : ∀ s5 : State, I none (ip ::ₘ e ::ₘ h) ((e, t) ::ₘ (ip, type) ::ₘ L) (n + 1) s5 →
      wp (Fs.dirlink sb e name (s4.inode ip).inum) (fun r s6 => if r = true then
        wp (Fs.iunlockput sb e) (fun _ s' => I none (ip ::ₘ h) ((ip, type) ::ₘ L) (n + 1) s') F s6
        else F (.panic "create: dirlink")) F s5 := by
    intro s5 h5
    refine wp_post (C.dirlink name _ h5 hself) fun r s6 h6 => ?_
    split
    · rw [Multiset.cons_swap] at h6
      exact C.iunlockput h6
    · exact C.panic (by decide) (by decide)
  have hswap : ∀ {s5 : State}, I none (ip ::ₘ e ::ₘ h) ((ip, type) ::ₘ (e, t) ::ₘ L) (n + 1) s5 →
      I none (ip ::ₘ e ::ₘ h) ((e, t) ::ₘ (ip, type) ::ₘ L) (n + 1) s5 := by
    intro s5 h5
    rwa [Multiset.cons_swap (ip, type)] at h5
  split
  · refine wp_post (C.update _ (hswap h4) fun _ => ⟨rfl, rfl, rfl⟩) fun _ s5 h5 => ?_
    refine wp_post h5 fun _ s6 h6 => ?_
    rw [Multiset.cons_swap (e, t)] at h6
    refine wp_post (C.dirlink _ _ h6 hself) fun r s7 h7 => ?_
    split
    · refine wp_post (C.dirlink _ _ h7 hdot) fun r s8 h8 => ?_
      split
      · exact hlink s8 (hswap h8)
      · exact C.panic (by decide) (by decide)
    · exact C.panic (by decide) (by decide)
  · exact hlink s4 (hswap h4)

/-- `create` returns a file that is locked. -/
theorem create (path : List Byte) {type : Short} (major minor : Short)
    (htype : type ≠ 0#16) (hI : I none h L (n + 1) s) (hp : p < nproc) :
    wp (create sb p path type major minor) (fun r s' => match r with
      | none => I none h L (n + 1) s'
      | some ip => I none (ip ::ₘ h) ((ip, type) ::ₘ L) (n + 1) s') F s := by
  simp only [Fs.create, wp_bind]
  refine wp_post (C.namex path true hI hp) fun r s1 h1 => ?_
  cases r with
  | none =>
    simp only [wp_pure]
    exact h1
  | some x =>
  obtain ⟨dp, name⟩ := x
  have h1 : I none (dp ::ₘ h) L (n + 1) s1 := h1
  simp only [wp_bind]
  refine wp_post (C.ilock h1) fun _ s2 h2 => ?_
  refine wp_post (C.dirlookup name h2) ?_
  rintro r s3 ⟨h3, -⟩
  cases r with
  | none =>
    simp only [wp_map]
    exact C.createNew name major minor htype h3
  | some x =>
  obtain ⟨ip, off⟩ := x
  have h3 : I none (ip ::ₘ dp ::ₘ h) ((dp, (s2.inode dp).di.type) ::ₘ L) (n + 1) s3 := h3
  rw [Multiset.cons_swap] at h3
  simp only [getInode, wp_bind, wp_get, wp_pure, wp_ite]
  refine wp_post (C.iunlockput h3) fun _ s4 h4 => ?_
  refine wp_post (C.ilock h4) fun _ s5 h5 => ?_
  split
  · rename_i hfile
    rw [hfile.2] at h5
    rw [hfile.1]
    exact h5
  · exact C.iunlockput h5

theorem sysOpen (path : List Byte) (omode : Word) (hI : I none h L n s)
    (hp : p < nproc) : wp (sysOpen sb p path omode) (fun _ s' => I none h L n s') F s := by
  rw [Fs.sysOpen, wp_bind]
  refine wp_post (C.beginOp hI) fun _ s1 h1 => ?_
  rw [wp_ite]
  split
  · rw [wp_bind]
    refine wp_post (C.create path 0#16 0#16 (by decide) h1 hp) fun r s2 h2 => ?_
    cases r with
    | none =>
      simp only [wp_bind, wp_pure]
      exact C.endOp h2
    | some ip => exact C.openInode omode h2 fun hd => absurd hd (by decide)
  · exact C.openNamed path omode h1 hp

theorem makeNode (path : List Byte) {type : Short} (major minor : Short)
    (htype : type ≠ 0#16) (hI : I none h L n s) (hp : p < nproc) :
    wp (makeNode sb p path type major minor) (fun _ s' => I none h L n s') F s := by
  simp only [Fs.makeNode, wp_bind]
  refine wp_post (C.beginOp hI) fun _ s1 h1 => ?_
  refine wp_post (C.create path major minor htype h1 hp) fun r s2 h2 => ?_
  cases r with
  | none =>
    simp only [wp_bind, wp_pure]
    exact C.endOp h2
  | some ip =>
    simp only [wp_bind, wp_pure]
    exact wp_post (C.iunlockput h2) fun _ s3 h3 => C.endOp h3

/-- Every call gives back what it takes. -/
theorem run {c : Call} (hc : c.Enabled s p) (hI : I none 0 0 0 s) :
    wp (c.run sb p) (fun _ s' => I none 0 0 0 s') F s := by
  cases c with
  | «open» path omode => exact C.sysOpen path omode hI hc
  | close fd => exact C.sysClose fd hI
  | dup fd => exact C.sysDup fd hI
  | read fd len => exact C.sysRead fd len hI hc.2
  | write fd src => exact C.sysWrite fd src hI
  | fstat fd => exact C.sysFstat fd hI
  | link old new => exact C.sysLink old new hI hc
  | unlink path => exact C.sysUnlink path hI hc
  | mkdir path => exact C.makeNode path _ _ (by decide) hI hc
  | mknod path major minor => exact C.makeNode path _ _ (by decide) hI hc
  | chdir path => exact C.sysChdir path hI hc
  | exec path reads => exact C.exec path reads hI hc.1 hc.2
  | fork np => exact C.fork hI hc.1 hc.2.1 hc.2.2.2
  | exit => exact C.exit hI hc

end Edits

end Xv6.Fs
