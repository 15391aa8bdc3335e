import Xv6.Fs.Calls

/-!
# What the functions of `fs.c` leave alone

Functions that work on blocks and on the contents of an inode leave the rest of the inode
cache, the files, the processes and the transactions as they are: this is `shell`.  No
function below the system calls changes a file or a process: this is `tables`.
-/

namespace Xv6.Fs

open Prog

/-- An inode of the cache apart from its contents. -/
structure Label where
  dev : Nat
  inum : Nat
  ref : Nat
  locked : Bool
  valid : Bool
  type : Short

def Inode.label (ip : Inode) : Label := ⟨ip.dev, ip.inum, ip.ref, ip.locked, ip.valid, ip.di.type⟩

/-- The files and the processes. -/
def tables (s : State) : (Nat → File) × (Nat → Proc) := (s.file, s.proc)

/-- The state apart from the disk and the contents of inodes. -/
def shell (s : State) : (Nat → Label) × Nat × (Nat → File) × (Nat → Proc) :=
  (fun e => (s.inode e).label, s.outstanding, s.file, s.proc)

section

variable {sb : Superblock} {e : Nat}

/-! ## Blocks and contents -/

theorem keeps_bread (b : Nat) : Keeps shell (bread b) :=
  .bind .get fun _ => .pure _

theorem keeps_getInode : Keeps shell (getInode e) :=
  .bind .get fun _ => .pure _

theorem keeps_logWrite (b : Nat) (data : Block) : Keeps shell (logWrite sb b data) := by
  intro s
  simp only [logWrite, panic, wp_bind, wp_get, wp_ite, wp_throw, wp_set]
  split
  · trivial
  split
  · trivial
  · rfl

theorem keeps_ballocLoop (fuel b : Nat) : Keeps shell (ballocLoop sb fuel b) := by
  induction fuel generalizing b with
  | zero => exact .throw _
  | succ fuel ih =>
    refine .ite (fun _ => .bind (keeps_bread _) fun blk => ?_) fun _ => .throw _
    split
    · exact .bind (keeps_logWrite _ _) fun _ => .bind (keeps_logWrite _ _) fun _ => .pure _
    · exact ih _

theorem keeps_bfree (b : Nat) : Keeps shell (bfree sb b) :=
  .bind (keeps_bread _) fun _ => .ite (fun _ => .throw _) fun _ => keeps_logWrite _ _

/-- A change to the copy of the disk inode that leaves the type. -/
theorem keeps_setDi {f : Dinode → Dinode} (hf : ∀ d, (f d).type = d.type) :
    Keeps shell (setDi e f) := by
  refine .modify fun s => ?_
  simp only [shell, Prod.mk.injEq, and_true]
  funext x
  by_cases hx : x = e
  · subst hx
    simp [Function.update_self, Inode.label, hf]
  · rw [Function.update_of_ne hx]

theorem keeps_setAddr (j : Fin 13) (a : Nat) : Keeps shell (setAddr e j a) :=
  keeps_setDi fun _ => rfl

theorem keeps_mapAddr (j : Fin 13) : Keeps shell (mapAddr sb e j) := by
  refine .bind keeps_getInode fun ip => .ite (fun _ => ?_) fun _ => .pure _
  exact .bind (keeps_ballocLoop _ _) fun a => .bind (keeps_setAddr _ _) fun _ => .pure _

theorem keeps_bmap (bn : Nat) : Keeps shell (bmap sb e bn) := by
  unfold bmap
  split
  · exact keeps_mapAddr _
  refine .ite (fun _ => ?_) fun _ => .throw _
  refine .bind (keeps_mapAddr _) fun a => .bind (keeps_bread _) fun blk => ?_
  refine .ite (fun _ => ?_) fun _ => .pure _
  exact .bind (keeps_ballocLoop _ _) fun b => .bind (keeps_logWrite _ _) fun _ => .pure _

theorem keeps_iupdate : Keeps shell (iupdate sb e) :=
  .bind keeps_getInode fun _ => .bind (keeps_bread _) fun _ => keeps_logWrite _ _

theorem keeps_truncDirect (j : Fin 13) : Keeps shell (truncDirect sb e j) :=
  .bind keeps_getInode fun _ => .ite (fun _ => .pure _) fun _ =>
    .bind (keeps_bfree _) fun _ => keeps_setAddr _ _

theorem keeps_truncIndirect (blk : Block) (j : Nat) : Keeps shell (truncIndirect sb blk j) :=
  .ite (fun _ => .pure _) fun _ => keeps_bfree _

theorem keeps_itrunc : Keeps shell (itrunc sb e) := by
  refine .bind (.forM keeps_truncDirect) fun _ => .bind keeps_getInode fun ip => ?_
  have hrest : Keeps shell (do setDi e fun d => { d with size := 0#32 }; iupdate sb e) :=
    .bind (keeps_setDi fun _ => rfl) fun _ => keeps_iupdate
  refine .ite (fun _ => hrest) fun _ => ?_
  exact .bind (keeps_bread _) fun _ => .bind (.forM (keeps_truncIndirect _)) fun _ =>
    .bind (keeps_bfree _) fun _ => .bind (keeps_setAddr _ _) fun _ => hrest

theorem keeps_readLoop (fuel off n : Nat) : Keeps shell (readLoop sb e fuel off n) := by
  induction fuel generalizing off n with
  | zero => exact .pure _
  | succ fuel ih =>
    refine .ite (fun _ => .pure _) fun _ => ?_
    exact .bind (keeps_bmap _) fun _ => .bind (keeps_bread _) fun _ => .bind (ih _ _) fun _ => .pure _

theorem keeps_writeLoop (fuel off : Nat) (src : List Byte) :
    Keeps shell (writeLoop sb e fuel off src) := by
  induction fuel generalizing off src with
  | zero => exact .pure _
  | succ fuel ih =>
    refine .ite (fun _ => .pure _) fun _ => ?_
    exact .bind (keeps_bmap _) fun _ => .bind (keeps_bread _) fun _ =>
      .bind (keeps_logWrite _ _) fun _ => ih _ _

/-! ## Files and processes -/

theorem ofShell {α : Type} {x : M α} (h : Keeps shell x) : Keeps tables x :=
  h.comp fun r => r.2.2

theorem tables_beginOp : Keeps tables beginOp := by
  intro s
  simp only [beginOp, wp_bind, wp_get, wp_ite, wp_throw, wp_set]
  split
  · trivial
  · rfl

theorem tables_endOp : Keeps tables endOp := .modify fun _ => rfl

theorem tables_setInode (f : Inode → Inode) : Keeps tables (setInode e f) := .modify fun _ => rfl

theorem tables_idup : Keeps tables (idup e) := .bind (tables_setInode _) fun _ => .pure _

theorem tables_acquiresleep : Keeps tables (acquiresleep e) :=
  .bind (ofShell keeps_getInode) fun _ => .ite (fun _ => .throw _) fun _ => tables_setInode _

theorem tables_ilock : Keeps tables (ilock sb e) := by
  refine .bind (ofShell keeps_getInode) fun ip => .ite (fun _ => .throw _) fun _ => ?_
  refine .bind tables_acquiresleep fun _ => .ite (fun _ => ?_) fun _ => .pure _
  exact .bind (ofShell (keeps_bread _)) fun _ => .bind (tables_setInode _) fun _ =>
    .ite (fun _ => .throw _) fun _ => .pure _

theorem tables_iunlock : Keeps tables (iunlock e) :=
  .bind (ofShell keeps_getInode) fun _ => .ite (fun _ => .throw _) fun _ => tables_setInode _

theorem tables_readi (off n : Nat) : Keeps tables (readi sb e off n) := by
  refine .bind (ofShell keeps_getInode) fun ip => .ite (fun _ => .ite (fun _ => ?_) fun _ => .pure _)
    fun _ => .ite (fun _ => .pure _) fun _ => ?_
  · refine .bind tables_iunlock fun _ => .bind .get fun s => .bind tables_ilock fun _ => ?_
    split
    · exact .pure _
    · exact .bind (.modify fun _ => rfl) fun _ => .pure _
  · exact .bind (ofShell (keeps_readLoop _ _ _)) fun _ => .pure _

theorem tables_writei (src : List Byte) (off : Nat) : Keeps tables (writei sb e src off) := by
  refine .bind (ofShell keeps_getInode) fun ip => .ite (fun _ => .ite (fun _ => ?_) fun _ => .pure _)
    fun _ => .ite (fun _ => .pure _) fun _ => .ite (fun _ => .pure _) fun _ => ?_
  · exact .bind tables_iunlock fun _ => .bind tables_ilock fun _ => .pure _
  · refine .bind (ofShell (keeps_writeLoop _ _ _)) fun _ => .ite (fun _ => ?_) fun _ => .pure _
    exact .bind (tables_setInode _) fun _ => .bind (ofShell keeps_iupdate) fun _ => .pure _

end

end Xv6.Fs
