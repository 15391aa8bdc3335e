import Xv6.Fs.Dir
import Xv6.Lib.Run

/-!
# File system calls (`file.c`, `sysfile.c`)

The system calls that use the file system, from the point where their arguments have been
fetched.  A call that could not fetch them returns -1 before it does anything else, or
between `begin_op` and `end_op`.

Of `exec`, `fork` and `exit` the part that handles inodes and files is here.  Which parts of
the program file `exec` reads depends on its contents and on whether memory lasts; they are
given, as a list of offsets and lengths.  `fork` is given the free slot that `allocproc`
found.  A pipe has no inode, so closing its end does nothing here.
-/

namespace Xv6.Fs

open Prog

def oWronly : Word := 0x001#32
def oRdwr : Word := 0x002#32
def oCreate : Word := 0x200#32

/-! ## Files (`file.c`) -/

def setFile (f : Nat) (g : File → File) : M Unit :=
  modify fun s => { s with file := Function.update s.file f (g (s.file f)) }

def getFile (f : Nat) : M File := do
  let s ← get
  pure (s.file f)

def setProc (p : Nat) (g : Proc → Proc) : M Unit :=
  modify fun s => { s with proc := Function.update s.proc p (g (s.proc p)) }

def setOfile (p fd : Nat) (f : Option Nat) : M Unit :=
  setProc p fun pr => { pr with ofile := Function.update pr.ofile fd f }

/-- Allocate a file structure. -/
def filealloc : M (Option Nat) := do
  let s ← get
  match (List.range nfile).find? fun f => (s.file f).ref = 0 with
  | none => pure none
  | some f => do
    setFile f fun g => { g with ref := 1 }
    pure (some f)

def filedup (f : Nat) : M Unit := do
  let g ← getFile f
  if g.ref < 1 then panic "filedup"
  else setFile f fun g => { g with ref := g.ref + 1 }

section

variable (sb : Superblock)

/-- Close a file. -/
def fileclose (f : Nat) : M Unit := do
  let g ← getFile f
  if g.ref < 1 then panic "fileclose"
  else if 0 < g.ref - 1 then setFile f fun g => { g with ref := g.ref - 1 }
  else do
    setFile f fun g => { g with ref := 0, type := .none }
    if g.type = .inode then do
      beginOp
      iput sb g.ip
      endOp
    else pure ()

/-- Read from a file. -/
def fileread (f n : Nat) : M (Option (List Byte)) := do
  let g ← getFile f
  if g.readable = false then pure none
  else match g.type with
    | .pipe => pure none
    | .none => panic "fileread"
    | .inode => do
      ilock sb g.ip
      let r ← readi sb g.ip g.off n
      match r with
      | some bs => setFile f fun g => { g with off := g.off + bs.length }
      | none => pure ()
      iunlock g.ip
      pure r

/-- The loop of `filewrite`. -/
def filewriteLoop (f : Nat) : Nat → List Byte → M Bool
  | 0, _ => pure true
  | fuel + 1, src =>
    if src = [] then pure true
    else do
      let g ← getFile f
      let chunk := src.take filewriteMax
      beginOp
      ilock sb g.ip
      let r ← writei sb g.ip chunk g.off
      match r with
      | some n => setFile f fun g => { g with off := g.off + n }
      | none => pure ()
      iunlock g.ip
      endOp
      match r with
      | none => pure false
      | some n =>
        if n ≠ chunk.length then panic "short filewrite"
        else filewriteLoop f fuel (src.drop filewriteMax)

/-- Write to a file. -/
def filewrite (f : Nat) (src : List Byte) : M Int := do
  let g ← getFile f
  if g.writable = false then pure (-1)
  else match g.type with
    | .pipe => pure (-1)
    | .none => panic "filewrite"
    | .inode => do
      if ← filewriteLoop sb f src.length src then pure src.length else pure (-1)

def filestat (f : Nat) : M Int := do
  let g ← getFile f
  if g.type = .inode then do
    ilock sb g.ip
    iunlock g.ip
    pure 0
  else pure (-1)

end

/-! ## System calls (`sysfile.c`) -/

/-- The file of a descriptor. -/
def argfd (p : Nat) (fd : Int) : M (Option Nat) := do
  let s ← get
  pure (if fd < 0 ∨ (nofile : Int) ≤ fd then none else (s.proc p).ofile fd.toNat)

/-- Allocate a file descriptor. -/
def fdalloc (p f : Nat) : M (Option Nat) := do
  let s ← get
  match (List.range nofile).find? fun fd => ((s.proc p).ofile fd).isNone with
  | none => pure none
  | some fd => do
    setOfile p fd (some f)
    pure (some fd)

section

variable (sb : Superblock)

def sysDup (p : Nat) (fd : Int) : M Int := do
  match ← argfd p fd with
  | none => pure (-1)
  | some f => do
    match ← fdalloc p f with
    | none => pure (-1)
    | some fd => do
      filedup f
      pure fd

def sysRead (p : Nat) (fd : Int) (n : Nat) : M Int := do
  match ← argfd p fd with
  | none => pure (-1)
  | some f => do
    match ← fileread sb f n with
    | none => pure (-1)
    | some bs => pure bs.length

def sysWrite (p : Nat) (fd : Int) (src : List Byte) : M Int := do
  match ← argfd p fd with
  | none => pure (-1)
  | some f => filewrite sb f src

def sysClose (p : Nat) (fd : Int) : M Int := do
  match ← argfd p fd with
  | none => pure (-1)
  | some f => do
    setOfile p fd.toNat none
    fileclose sb f
    pure 0

def sysFstat (p : Nat) (fd : Int) : M Int := do
  match ← argfd p fd with
  | none => pure (-1)
  | some f => filestat sb f

/-- The exit `bad` of `sys_link`. -/
def linkBad (ip : Nat) : M Int := do
  ilock sb ip
  setDi ip fun d => { d with nlink := d.nlink - 1#16 }
  iupdate sb ip
  iunlockput sb ip
  endOp
  pure (-1)

/-- Create the path `new` as a link to the same inode as `old`. -/
def sysLink (p : Nat) (old new : List Byte) : M Int := do
  beginOp
  match ← namei sb p old with
  | none => do
    endOp
    pure (-1)
  | some ip => do
    ilock sb ip
    let ino ← getInode ip
    if ino.di.type = tDir then do
      iunlockput sb ip
      endOp
      pure (-1)
    else do
      setDi ip fun d => { d with nlink := d.nlink + 1#16 }
      iupdate sb ip
      iunlock ip
      match ← nameiparent sb p new with
      | none => linkBad sb ip
      | some (dp, name) => do
        ilock sb dp
        let dno ← getInode dp
        let ino ← getInode ip
        if dno.dev ≠ ino.dev then do
          iunlockput sb dp
          linkBad sb ip
        else do
          if ← dirlink sb dp name ino.inum then do
            iunlockput sb dp
            iput sb ip
            endOp
            pure 0
          else do
            iunlockput sb dp
            linkBad sb ip

/-- The loop of `isdirempty`. -/
def isdiremptyLoop (e : Nat) : Nat → Nat → M Bool
  | 0, _ => pure true
  | fuel + 1, off => do
    let dp ← getInode e
    if off < dp.di.size.toNat then do
      let r ← readi sb e off direntSize
      let bs := r.getD []
      if bs.length ≠ direntSize then panic "isdirempty: readi"
      else if (Dirent.ofBytes bs).inum ≠ 0#16 then pure false
      else isdiremptyLoop e fuel (off + direntSize)
    else pure true

/-- Is the directory empty except for "." and ".." ? -/
def isdirempty (e : Nat) : M Bool := do
  let dp ← getInode e
  isdiremptyLoop sb e (dp.di.size.toNat / direntSize + 1) (2 * direntSize)

/-- `'.'`. -/
def dot : Byte := 46#8

/-- The exit `bad` of `sys_unlink`. -/
def unlinkBad (dp : Nat) : M Int := do
  iunlockput sb dp
  endOp
  pure (-1)

/-- The end of `sys_unlink`: the entry at `off` is erased and the counts go down. -/
def unlinkEntry (dp ip off : Nat) (type : Short) : M Int := do
  let r ← writei sb dp (List.replicate direntSize 0#8) off
  if r ≠ some direntSize then panic "unlink: writei"
  else do
    if type = tDir then do
      setDi dp fun d => { d with nlink := d.nlink - 1#16 }
      iupdate sb dp
    else pure ()
    iunlockput sb dp
    setDi ip fun d => { d with nlink := d.nlink - 1#16 }
    iupdate sb ip
    iunlockput sb ip
    endOp
    pure 0

def sysUnlink (p : Nat) (path : List Byte) : M Int := do
  beginOp
  match ← nameiparent sb p path with
  | none => do
    endOp
    pure (-1)
  | some (dp, name) => do
    ilock sb dp
    if namecmp name [dot] ∨ namecmp name [dot, dot] then unlinkBad sb dp
    else do
      match ← dirlookup sb dp name with
      | none => unlinkBad sb dp
      | some (ip, off) => do
        ilock sb ip
        let ino ← getInode ip
        if ino.di.nlink.toInt < 1 then panic "unlink: nlink < 1"
        else do
          let full ← if ino.di.type = tDir then (!·) <$> isdirempty sb ip else pure false
          if full then do
            iunlockput sb ip
            unlinkBad sb dp
          else unlinkEntry sb dp ip off ino.di.type

/-- The new inode of `create`, with its entry in `dp`. -/
def createNew (dp : Nat) (name : List Byte) (type major minor : Short) : M Nat := do
  let dno ← getInode dp
  let ip ← ialloc sb dno.dev type
  ilock sb ip
  setDi ip fun d => { d with major := major, minor := minor, nlink := 1#16 }
  iupdate sb ip
  let ino ← getInode ip
  if type = tDir then do
    setDi dp fun d => { d with nlink := d.nlink + 1#16 }
    iupdate sb dp
    if ← dirlink sb ip [dot] ino.inum then do
      if ← dirlink sb ip [dot, dot] dno.inum then pure ()
      else panic "create dots"
    else panic "create dots"
  else pure ()
  if ← dirlink sb dp name ino.inum then do
    iunlockput sb dp
    pure ip
  else panic "create: dirlink"

/-- Create an inode.  It is returned locked. -/
def create (p : Nat) (path : List Byte) (type major minor : Short) : M (Option Nat) := do
  match ← nameiparent sb p path with
  | none => pure none
  | some (dp, name) => do
    ilock sb dp
    match ← dirlookup sb dp name with
    | some (ip, _) => do
      iunlockput sb dp
      ilock sb ip
      let ino ← getInode ip
      if type = tFile ∧ ino.di.type = tFile then pure (some ip)
      else do
        iunlockput sb ip
        pure none
    | none => some <$> createNew sb dp name type major minor

/-- Open an inode that is locked. -/
def openInode (p ip : Nat) (omode : Word) : M Int := do
  match ← filealloc with
  | none => do
    iunlockput sb ip
    endOp
    pure (-1)
  | some f => do
    match ← fdalloc p f with
    | none => do
      fileclose sb f
      iunlockput sb ip
      endOp
      pure (-1)
    | some fd => do
      iunlock ip
      endOp
      setFile f fun g => { g with
        type := .inode
        ip := ip
        off := 0
        readable := omode &&& oWronly == 0#32
        writable := omode &&& oWronly != 0#32 || omode &&& oRdwr != 0#32 }
      pure fd

def sysOpen (p : Nat) (path : List Byte) (omode : Word) : M Int := do
  beginOp
  if omode &&& oCreate ≠ 0#32 then do
    match ← create sb p path tFile 0#16 0#16 with
    | none => do
      endOp
      pure (-1)
    | some ip => openInode sb p ip omode
  else do
    match ← namei sb p path with
    | none => do
      endOp
      pure (-1)
    | some ip => do
      ilock sb ip
      let ino ← getInode ip
      if ino.di.type = tDir ∧ omode ≠ 0#32 then do
        iunlockput sb ip
        endOp
        pure (-1)
      else openInode sb p ip omode

/-- `sys_mkdir` and `sys_mknod`. -/
def makeNode (p : Nat) (path : List Byte) (type major minor : Short) : M Int := do
  beginOp
  match ← create sb p path type major minor with
  | none => do
    endOp
    pure (-1)
  | some ip => do
    iunlockput sb ip
    endOp
    pure 0

def sysMkdir (p : Nat) (path : List Byte) : M Int := makeNode sb p path tDir 0#16 0#16

def sysMknod (p : Nat) (path : List Byte) (major minor : Short) : M Int :=
  makeNode sb p path tDev major minor

def sysChdir (p : Nat) (path : List Byte) : M Int := do
  beginOp
  match ← namei sb p path with
  | none => do
    endOp
    pure (-1)
  | some ip => do
    ilock sb ip
    let ino ← getInode ip
    if ino.di.type ≠ tDir then do
      iunlockput sb ip
      endOp
      pure (-1)
    else do
      iunlock ip
      let s ← get
      match (s.proc p).cwd with
      | none => throw .nullDeref
      | some cwd => do
        iput sb cwd
        endOp
        setProc p fun pr => { pr with cwd := some ip }
        pure 0

/-! ## Processes (`exec.c`, `proc.c`) -/

/-- `exec`, with the offsets and lengths that it reads. -/
def exec (p : Nat) (path : List Byte) (reads : List (Nat × Nat)) : M Int := do
  beginOp
  match ← namei sb p path with
  | none => do
    endOp
    pure (-1)
  | some ip => do
    ilock sb ip
    reads.forM fun r => do
      let _ ← readi sb ip r.1 r.2
      pure ()
    iunlockput sb ip
    endOp
    pure 0

/-- The loop of `fork` over the descriptors. -/
def dupOfile (p np fd : Nat) : M Unit := do
  let s ← get
  match (s.proc p).ofile fd with
  | none => pure ()
  | some f => do
    filedup f
    setOfile np fd (some f)

def fork (p np : Nat) : M Int := do
  (List.range nofile).forM (dupOfile p np)
  let s ← get
  match (s.proc p).cwd with
  | none => throw .nullDeref
  | some cwd => do
    let e ← idup cwd
    setProc np fun pr => { pr with cwd := some e }
    pure 0

/-- The loop of `exit` over the descriptors. -/
def closeOfile (p fd : Nat) : M Unit := do
  let s ← get
  match (s.proc p).ofile fd with
  | none => pure ()
  | some f => do
    fileclose sb f
    setOfile p fd none

def exit (p : Nat) : M Int := do
  (List.range nofile).forM (closeOfile sb p)
  beginOp
  let s ← get
  match (s.proc p).cwd with
  | none => throw .nullDeref
  | some cwd => do
    iput sb cwd
    endOp
    setProc p fun pr => { pr with cwd := none }
    pure 0

/-! ## Runs -/

/-- A call and its arguments. -/
inductive Call where
  | open (path : List Byte) (omode : Word)
  | close (fd : Int)
  | dup (fd : Int)
  | read (fd : Int) (n : Nat)
  | write (fd : Int) (src : List Byte)
  | fstat (fd : Int)
  | link (old new : List Byte)
  | unlink (path : List Byte)
  | mkdir (path : List Byte)
  | mknod (path : List Byte) (major minor : Short)
  | chdir (path : List Byte)
  | exec (path : List Byte) (reads : List (Nat × Nat))
  | fork (np : Nat)
  | exit

def Call.run (p : Nat) : Call → M Int
  | .open path omode => sysOpen sb p path omode
  | .close fd => sysClose sb p fd
  | .dup fd => sysDup p fd
  | .read fd n => sysRead sb p fd n
  | .write fd src => sysWrite sb p fd src
  | .fstat fd => sysFstat sb p fd
  | .link old new => sysLink sb p old new
  | .unlink path => sysUnlink sb p path
  | .mkdir path => sysMkdir sb p path
  | .mknod path major minor => sysMknod sb p path major minor
  | .chdir path => sysChdir sb p path
  | .exec path reads => Fs.exec sb p path reads
  | .fork np => Fs.fork p np
  | .exit => Fs.exit sb p

/-- Whether process `p` can make the call.  Lengths are non-negative `int`s, and `allocproc`
gives `fork` a slot whose process has exited, and with it has given up its directory. -/
def Call.Enabled (s : State) (p : Nat) : Call → Prop
  | .fork np => p < nproc ∧ np < nproc ∧ np ≠ p ∧ (s.proc np).cwd = none
  | .read _ n => p < nproc ∧ n < 2 ^ 31
  | .write _ src => p < nproc ∧ src.length < 2 ^ 31
  | .exec _ reads => p < nproc ∧ ∀ r ∈ reads, r.2 < 2 ^ 31
  | _ => p < nproc

/-- A process makes a call, which returns. -/
def Step (s : State) (e : Nat × Call) (s' : State) : Prop :=
  e.2.Enabled s e.1 ∧ ∃ r, e.2.run sb e.1 s = .ok (r, s')

end

end Xv6.Fs
