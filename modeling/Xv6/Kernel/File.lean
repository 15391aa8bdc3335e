import Xv6.Kernel.System
import Xv6.Log.Commit

/-!
# Open files (`file.c`, `pipe.c`, `sysfile.c`, and `readi` and `writei` of `fs.c`)

The reference counts of the file table are in `Kernel`, since processes move
them.  `Files` holds the rest: what each `struct file` points at, the inodes, the
pipes and the console's input.  A `struct file` is read only while its count is
positive, and every field is set by whoever allocated it.

An inode is its size and its bytes: `readi` and `writei` copy block by block what
`Inode.read` and `Inode.write` copy at once, and running out of disk blocks, a
panic of `balloc`, is left out.  A pipe is the list of the bytes that were written
and not read yet.  Sleeping is left out: a read takes what is there, and a write
of a pipe has found a reader.

Looking a path up is not modelled.  The inode that `namei` or `create` gave is an
input of `sysOpen`.

An event of `Os` is an event of the kernel or a system call on files.  What
`wunmap` wrote back during it reaches the files at its end.  What a page fault
reads from a regular file is what the file holds; the input of the event is the
result of a `fileread` on anything else.
-/

namespace Xv6

/-! ## Inodes -/

/-- Open files of the system. -/
def nfile : Nat := 100
/-- Bytes of a disk block. -/
def bsize : Nat := 512
/-- Blocks of the largest file, `NDIRECT + NINDIRECT`. -/
def maxfile : Nat := 12 + bsize / 4
/-- Major number of the console. -/
def consoleMajor : Int := 1

inductive InodeType where
  | dir | file | dev
deriving DecidableEq, Repr

structure Inode where
  dev : Nat
  inum : Nat
  type : InodeType
  major : Int
  nlink : Int
  size : Nat
  data : Nat → Byte

/-- `readi` on an inode with blocks; `none` is the result -1. -/
def Inode.read (ip : Inode) (off n : Nat) : Option (List Byte) :=
  if ip.size < off ∨ (off + n) % uintSize < off then none
  else
    let m := if ip.size < (off + n) % uintSize then ip.size - off else n
    some ((List.range m).map fun i => ip.data (off + i))

/-- `writei` on an inode with blocks; `none` is the result -1. -/
def Inode.write (ip : Inode) (bs : List Byte) (off : Nat) : Option Inode :=
  if ip.size < off ∨ (off + bs.length) % uintSize < off then none
  else if maxfile * bsize < (off + bs.length) % uintSize then none
  else some
    { ip with
      data := fun i =>
        if off ≤ i ∧ i < off + bs.length then bs.getD (i - off) 0#8 else ip.data i
      size := if 0 < bs.length ∧ ip.size < off + bs.length then off + bs.length else ip.size }

/-! ## The file table -/

inductive FdType where
  | none | pipe | inode
deriving DecidableEq, Repr

/-- `struct file`, without its reference count. -/
structure File where
  type : FdType
  readable : Bool
  writable : Bool
  pipe : Nat
  ip : Nat
  off : Nat

structure Files where
  file : Nat → File
  inode : Nat → Inode
  /-- The bytes in each pipe, named by its frame. -/
  pipe : Nat → List Byte
  /-- The console's input, up to the last edited line. -/
  input : List Byte

/-- Code over the files. -/
abbrev FM := Prog Files Fault

def setFile (f : Nat) (g : File → File) : FM Unit :=
  modify fun s => { s with file := Function.update s.file f (g (s.file f)) }

/-- The end of file character, `C('D')`. -/
def ctrlD : Byte := 4#8
def newline : Byte := 10#8

/-- The loop of `consoleread` for `n` more bytes.  Returns the bytes stored and
what is left of the input.  An end of file ends the read, and stays in the input
unless it is the first byte. -/
def consoleLoop (first : Bool) : Nat → List Byte → List Byte × List Byte
  | 0, input => ([], input)
  | _ + 1, [] => ([], [])
  | n + 1, b :: input =>
    if b = ctrlD then ([], if first then input else b :: input)
    else if b = newline then ([b], input)
    else
      let r := consoleLoop false n input
      (b :: r.1, r.2)

def consoleread (n : Nat) : FM (List Byte) := do
  let s ← get
  set { s with input := (consoleLoop true n s.input).2 }
  pure (consoleLoop true n s.input).1

def piperead (q n : Nat) : FM (List Byte) := do
  let s ← get
  set { s with pipe := Function.update s.pipe q ((s.pipe q).drop n) }
  pure ((s.pipe q).take n)

/-- Read from an inode; `none` is the result -1. -/
def readi (ip off n : Nat) : FM (Option (List Byte)) := do
  let s ← get
  if (s.inode ip).type = .dev then
    if (s.inode ip).major = consoleMajor then do
      let bs ← consoleread n
      pure (some bs)
    else pure none
  else pure ((s.inode ip).read off n)

/-- Read from a file; `none` is the result -1. -/
def fileread (f n : Nat) : FM (Option (List Byte)) := do
  let s ← get
  if !(s.file f).readable then pure none
  else match (s.file f).type with
    | .pipe => do
      let bs ← piperead (s.file f).pipe n
      pure (some bs)
    | .inode => do
      match ← readi (s.file f).ip (s.file f).off n with
      | none => pure none
      | some bs => do
        setFile f fun g => { g with off := g.off + bs.length }
        pure (some bs)
    | .none => panic "fileread"

/-- Write to an inode.  Returns whether it succeeded. -/
def writei (ip : Nat) (bs : List Byte) (off : Nat) : FM Bool := do
  let s ← get
  if (s.inode ip).type = .dev then pure (decide ((s.inode ip).major = consoleMajor))
  else match (s.inode ip).write bs off with
    | none => pure false
    | some i => do
      set { s with inode := Function.update s.inode ip i }
      pure true

/-- What `filewrite` hands to one transaction. -/
def filewriteMax : Nat := (maxopblocks - 1 - 1 - 2) / 2 * 512

/-- The loop of `filewrite`, for at most `fuel` transactions.  Returns whether all
bytes were written. -/
def filewriteLoop (f : Nat) : Nat → List Byte → FM Bool
  | _, [] => pure true
  | 0, _ :: _ => pure false
  | fuel + 1, b :: bs => do
    let s ← get
    let chunk := (b :: bs).take filewriteMax
    if ← writei (s.file f).ip chunk (s.file f).off then do
      setFile f fun g => { g with off := g.off + chunk.length }
      filewriteLoop f fuel ((b :: bs).drop filewriteMax)
    else pure false

/-- Write to a file.  Each transaction writes a byte at least, so the number of
bytes is fuel enough. -/
def filewrite (f : Nat) (bs : List Byte) : FM Int := do
  let s ← get
  if !(s.file f).writable then pure (-1)
  else match (s.file f).type with
    | .pipe => do
      set { s with pipe := Function.update s.pipe (s.file f).pipe (s.pipe (s.file f).pipe ++ bs) }
      pure bs.length
    | .inode => do
      if ← filewriteLoop f bs.length bs then pure bs.length else pure (-1)
    | .none => panic "filewrite"

/-! ## Descriptors -/

/-- Allocate a file structure. -/
def filealloc : K (Option Nat) := do
  let s ← get
  match (List.range nfile).find? fun f => s.fileRef f = 0 with
  | none => pure none
  | some f => do
    set { s with fileRef := Function.update s.fileRef f 1 }
    pure (some f)

/-- The first free descriptor of a process. -/
def freeFd (pr : Proc) : Option Nat :=
  (List.range nofile).find? fun j => (pr.ofile j).isNone

def setOfile (p j : Nat) (f : Option Nat) : K Unit :=
  setProc p fun pr => { pr with ofile := Function.update pr.ofile j f }

/-- Allocate a descriptor of process `p` for a file. -/
def fdalloc (p f : Nat) : K (Option Nat) := do
  let pr ← getProc p
  match freeFd pr with
  | none => pure none
  | some j => do
    setOfile p j (some f)
    pure (some j)

/-- The test of `argfd`: the file an open descriptor names. -/
def openFile (pr : Proc) (fd : Int) : Option Nat :=
  if fd < 0 ∨ (nofile : Int) ≤ fd then none else pr.ofile fd.toNat

def sysDup (c : Nat) (fd : Int) : K Int := do
  let p ← myproc c
  let pr ← getProc p
  match openFile pr fd with
  | none => pure (-1)
  | some f => do
    match ← fdalloc p f with
    | none => pure (-1)
    | some j => do
      filedup f
      pure j

def sysClose (c : Nat) (fd : Int) : K Int := do
  let p ← myproc c
  let pr ← getProc p
  match openFile pr fd with
  | none => pure (-1)
  | some f => do
    setOfile p fd.toNat none
    fileclose f
    pure 0

/-! ## The kernel with its files -/

structure Os where
  kernel : Kernel
  files : Files

/-- Kernel code that also uses files. -/
abbrev O := Prog Os Fault

def onKernel {α : Type} (x : K α) : O α :=
  Prog.zoom Os.kernel (fun k s => { s with kernel := k }) x

def onFiles {α : Type} (x : FM α) : O α :=
  Prog.zoom Os.files (fun fs s => { s with files := fs }) x

/-- The process on a processor. -/
def curproc (c : Nat) : O Proc := onKernel do
  let p ← myproc c
  getProc p

open Prog in
@[simp] theorem wp_onKernel {α : Type} (x : K α) (Q : α → Os → Prop) (F : Fault → Prop) (s : Os) :
    wp (onKernel x) Q F s ↔ wp x (fun a k => Q a { s with kernel := k }) F s.kernel := wp_zoom ..

open Prog in
@[simp] theorem wp_onFiles {α : Type} (x : FM α) (Q : α → Os → Prop) (F : Fault → Prop) (s : Os) :
    wp (onFiles x) Q F s ↔ wp x (fun a fs => Q a { s with files := fs }) F s.files := wp_zoom ..

open Prog in
theorem wp_curproc {c p : Nat} {s : Os} {Q : Proc → Os → Prop} {F : Fault → Prop}
    (hcur : (s.kernel.cpu c).proc = some p) :
    wp (curproc c) Q F s ↔ Q (s.kernel.proc p) s := by
  unfold curproc
  rw [wp_onKernel, wp_bind, wp_myproc, hcur]
  dsimp only
  rw [wp_getProc]

def oWronly : Word := 0x001#32
def oRdwr : Word := 0x002#32
def oCreate : Word := 0x200#32

/-- Open the inode that `namei`, or `create` with `O_CREATE`, gave for the path. -/
def sysOpen (c : Nat) (ip : Option Nat) (omode : Word) : O Int := do
  let p ← onKernel (myproc c)
  let s ← get
  match ip with
  | none => pure (-1)
  | some ip =>
    if !flag omode oCreate && (s.files.inode ip).type = .dir && omode ≠ 0#32 then pure (-1)
    else do
      match ← onKernel filealloc with
      | none => pure (-1)
      | some f => do
        match ← onKernel (fdalloc p f) with
        | none => do
          onKernel (fileclose f)
          pure (-1)
        | some fd => do
          onFiles (setFile f fun g =>
            { g with type := .inode, ip := ip, off := 0, readable := !flag omode oWronly
                     writable := flag omode oWronly || flag omode oRdwr })
          pure fd

/-- The two ends of a new pipe. -/
def pipealloc : O (Option (Nat × Nat)) := do
  match ← onKernel filealloc with
  | none => pure none
  | some f0 => do
    match ← onKernel filealloc with
    | none => do
      onKernel (fileclose f0)
      pure none
    | some f1 => do
      match ← onKernel (onMem kalloc) with
      | none => do
        onKernel (fileclose f0)
        onKernel (fileclose f1)
        pure none
      | some q => do
        onFiles (modify fun s => { s with pipe := Function.update s.pipe q [] })
        onFiles (setFile f0 fun g =>
          { g with type := .pipe, readable := true, writable := false, pipe := q })
        onFiles (setFile f1 fun g =>
          { g with type := .pipe, readable := false, writable := true, pipe := q })
        pure (some (f0, f1))

/-- Descriptors for the two ends of a new pipe; `none` is the result -1. -/
def sysPipe (c : Nat) : O (Option (Nat × Nat)) := do
  let p ← onKernel (myproc c)
  match ← pipealloc with
  | none => pure none
  | some (rf, wf) => do
    match ← onKernel (fdalloc p rf) with
    | none => do
      onKernel (fileclose rf)
      onKernel (fileclose wf)
      pure none
    | some fd0 => do
      match ← onKernel (fdalloc p wf) with
      | none => do
        onKernel (setOfile p fd0 none)
        onKernel (fileclose rf)
        onKernel (fileclose wf)
        pure none
      | some fd1 => pure (some (fd0, fd1))

/-! ## Steps -/

/-- The system calls on files. -/
inductive FileCall where
  | openAt (ip : Option Nat) (omode : Word)
  | close (fd : Int)
  | dup (fd : Int)
  | pipe
  | read (fd : Int) (n : Nat)
  | write (fd : Int) (bs : List Byte)

def FileCall.body (c : Nat) : FileCall → O Unit
  | .openAt ip omode => do
    let _ ← sysOpen c ip omode
    pure ()
  | .close fd => do
    let _ ← onKernel (sysClose c fd)
    pure ()
  | .dup fd => do
    let _ ← onKernel (sysDup c fd)
    pure ()
  | .pipe => do
    let _ ← sysPipe c
    pure ()
  | .read fd n => do
    let pr ← curproc c
    match openFile pr fd with
    | none => pure ()
    | some f => do
      let _ ← onFiles (fileread f n)
      pure ()
  | .write fd bs => do
    let pr ← curproc c
    match openFile pr fd with
    | none => pure ()
    | some f => do
      let _ ← onFiles (filewrite f bs)
      pure ()

/-- The bytes of a page. -/
def pageBytes (pg : Page) : List Byte := (List.range pgsize).map pg

/-- A write of `wunmap`, whose result is ignored. -/
def flush (w : FileWrite) : FM Unit := do
  setFile w.file fun g => { g with off := w.off }
  let _ ← filewrite w.file (pageBytes w.data)
  pure ()

/-- Run `x`, and then what it handed to `filewrite`. -/
def flushing (x : O Unit) : O Unit := do
  let s ← get
  x
  let s' ← get
  onFiles ((s'.kernel.filewrites.drop s.kernel.filewrites.length).forM flush)

variable [Link]

/-- The trap of a system call on files. -/
def fileSyscall (c : Nat) (call : FileCall) : O Unit := do
  let pr ← curproc c
  if pr.killed then onKernel (exit c)
  else do
    call.body c
    onKernel (exitIfKilled c)

inductive OsEvent where
  | kernel (e : Event)
  | file (c : Nat) (call : FileCall)

def OsEvent.run : OsEvent → O Unit
  | .kernel e => flushing (onKernel e.run)
  | .file c call => flushing (fileSyscall c call)

/-- What a page fault at `va` reads for the region `r`, if its file is a regular one. -/
def Files.lazyRead (fs : Files) (f : Nat) (r : MmapRegion) (va : Nat) : Option (List Byte) :=
  if (fs.file f).readable then
    (fs.inode (fs.file f).ip).read (pgrounddown va - r.addr) pgsize
  else none

/-- The input of a page fault on a mapping of a regular file is what the file holds. -/
def Event.Fed (s : Os) : Event → Prop
  | .access c va _ io => ∀ p i f, (s.kernel.cpu c).proc = some p →
      findRegion (s.kernel.proc p).mmap va = some i →
      openFile (s.kernel.proc p) ((s.kernel.proc p).mmap i).fd = some f →
      (s.files.file f).type = .inode → (s.files.inode (s.files.file f).ip).type ≠ .dev →
      io = s.files.lazyRead f ((s.kernel.proc p).mmap i) va
  | _ => True

def OsEvent.enabled (ncpu : Nat) (s : Os) : OsEvent → Prop
  | .kernel e => e.enabled ncpu s.kernel ∧ e.Fed s
  | .file c _ => c < ncpu ∧ (s.kernel.cpu c).proc.isSome

/-- A step that returned. -/
def OsStep (ncpu : Nat) (s : Os) (e : OsEvent) (s' : Os) : Prop :=
  e.enabled ncpu s ∧ e.run s = .ok ((), s')

end Xv6
