import Xv6.Fs.Disk

/-!
# Blocks, inodes and their contents (`fs.c`)

One system call runs at a time.  A sleep lock is a flag: a call that wants a lock it holds
itself sleeps for ever, and stops here as `stuck`.  `outstanding` counts the calls between
`begin_op` and `end_op`, and `lh` is the list of blocks that `log_write` has put into the
transaction.  `bread` never fails: a call holds few buffers at a time.

A pointer to an `struct inode` is an index into the inode cache, a pointer to a
`struct file` an index into the file table.  There is one device.  Reading and writing a
device unlocks the inode while it waits; the console's next lines are `console`, `none` if
the process is killed while it waits for them.

A buffer that a function has changed is written where `log_write` is called for it.
-/

namespace Xv6.Fs

open Prog

/-- Entries of the inode cache. -/
def ninode : Nat := 50

/-- How a call can fail to return. -/
inductive Stop where
  | panic : String → Stop
  /-- It sleeps on a lock that it holds itself. -/
  | stuck
  /-- A null pointer was dereferenced. -/
  | nullDeref
deriving DecidableEq, Repr

/-- `struct inode`, with the copy of the disk inode as one field. -/
structure Inode where
  dev : Nat
  inum : Nat
  ref : Nat
  locked : Bool
  valid : Bool
  di : Dinode

/-- `struct file`. -/
structure File where
  type : FdType
  ref : Nat
  readable : Bool
  writable : Bool
  ip : Nat
  off : Nat

/-- What the file system reads of a `struct proc`. -/
structure Proc where
  cwd : Option Nat
  ofile : Nat → Option Nat

/-- The disk, the inode cache, the log, the file table and the processes. -/
structure State where
  disk : Disk
  inode : Nat → Inode
  outstanding : Nat
  lh : List Nat
  file : Nat → File
  proc : Nat → Proc
  console : Option (List Byte)

abbrev M := Prog State Stop

def panic {α : Type} (msg : String) : M α := throw (.panic msg)

/-! ## The log (`log.c`) -/

/-- Enter a transaction.  It would sleep if the log could not take another operation. -/
def beginOp : M Unit := do
  let s ← get
  if logsize < s.lh.length + (s.outstanding + 1) * maxopblocks then throw .stuck
  else set { s with outstanding := s.outstanding + 1 }

/-- Leave a transaction.  The last to leave commits and empties the log. -/
def endOp : M Unit :=
  modify fun s => { s with
    outstanding := s.outstanding - 1
    lh := if s.outstanding - 1 = 0 then [] else s.lh }

def bread (b : Nat) : M Block := do
  let s ← get
  pure (s.disk b)

section

variable (sb : Superblock)

/-- `log_write` of block `b`, whose buffer holds `data`. -/
def logWrite (b : Nat) (data : Block) : M Unit := do
  let s ← get
  if logsize ≤ s.lh.length ∨ sb.nlog - 1 ≤ s.lh.length then panic "too big a transaction"
  else if s.outstanding < 1 then panic "log_write outside of trans"
  else set { s with
    disk := Function.update s.disk b data
    lh := if b ∈ s.lh then s.lh else s.lh ++ [b] }

/-! ## Blocks -/

/-- Zero a block. -/
def bzero (b : Nat) : M Unit := logWrite sb b (fill 0#8)

/-- The first free block of a bitmap block, whose first bit is for block `b`. -/
def freeBit (blk : Block) (b size : Nat) : Option Nat :=
  (List.range bpb).find? fun bi => decide (b + bi < size) && !bit blk bi

/-- The loop of `balloc` over the bitmap blocks. -/
def ballocLoop : Nat → Nat → M Nat
  | 0, _ => panic "balloc: out of blocks"
  | fuel + 1, b =>
    if b < sb.size then do
      let blk ← bread (bblock sb b)
      match freeBit blk b sb.size with
      | some bi => do
        logWrite sb (bblock sb b) (setBit blk bi)
        bzero sb (b + bi)
        pure (b + bi)
      | none => ballocLoop fuel (b + bpb)
    else panic "balloc: out of blocks"

/-- Allocate a zeroed disk block. -/
def balloc : M Nat := ballocLoop sb sb.size 0

/-- Free a disk block. -/
def bfree (b : Nat) : M Unit := do
  let blk ← bread (bblock sb b)
  if bit blk (b % bpb) = false then panic "freeing free block"
  else logWrite sb (bblock sb b) (clearBit blk (b % bpb))

/-! ## Inodes -/

def getInode (e : Nat) : M Inode := do
  let s ← get
  pure (s.inode e)

def setInode (e : Nat) (f : Inode → Inode) : M Unit :=
  modify fun s => { s with inode := Function.update s.inode e (f (s.inode e)) }

def setDi (e : Nat) (f : Dinode → Dinode) : M Unit :=
  setInode e fun ip => { ip with di := f ip.di }

/-- Find the inode in the cache, or an empty entry for it. -/
def iget (dev inum : Nat) : M Nat := do
  let s ← get
  match (List.range ninode).find? fun e =>
      0 < (s.inode e).ref ∧ (s.inode e).dev = dev ∧ (s.inode e).inum = inum with
  | some e => do
    setInode e fun ip => { ip with ref := ip.ref + 1 }
    pure e
  | none =>
    match (List.range ninode).find? fun e => (s.inode e).ref = 0 with
    | none => panic "iget: no inodes"
    | some e => do
      setInode e fun ip => { ip with dev := dev, inum := inum, ref := 1, valid := false }
      pure e

def idup (e : Nat) : M Nat := do
  setInode e fun ip => { ip with ref := ip.ref + 1 }
  pure e

/-- Allocate an inode. -/
def ialloc (dev : Nat) (type : Short) : M Nat := do
  let s ← get
  match (List.range' 1 (sb.ninodes - 1)).find? fun i => (dinodeAt sb s.disk i).type = 0#16 with
  | none => panic "ialloc: no inodes"
  | some i => do
    let blk ← bread (iblock sb i)
    logWrite sb (iblock sb i) (setDinode blk (i % ipb) (.blank type))
    iget dev i

/-- Copy a modified in-memory inode to disk. -/
def iupdate (e : Nat) : M Unit := do
  let ip ← getInode e
  let blk ← bread (iblock sb ip.inum)
  logWrite sb (iblock sb ip.inum) (setDinode blk (ip.inum % ipb) ip.di)

def acquiresleep (e : Nat) : M Unit := do
  let ip ← getInode e
  if ip.locked then throw .stuck
  else setInode e fun ip => { ip with locked := true }

def releasesleep (e : Nat) : M Unit := setInode e fun ip => { ip with locked := false }

/-- Lock an inode, and read it from disk if necessary. -/
def ilock (e : Nat) : M Unit := do
  let ip ← getInode e
  if ip.ref < 1 then panic "ilock"
  else do
    acquiresleep e
    if ip.valid = false then do
      let blk ← bread (iblock sb ip.inum)
      setInode e fun ip => { ip with di := dinode blk (ip.inum % ipb), valid := true }
      if (dinode blk (ip.inum % ipb)).type = 0#16 then panic "ilock: no type"
      else pure ()
    else pure ()

def iunlock (e : Nat) : M Unit := do
  let ip ← getInode e
  if ip.locked = false ∨ ip.ref < 1 then panic "iunlock"
  else releasesleep e

/-! ## Contents -/

def setAddr (e : Nat) (j : Fin 13) (addr : Nat) : M Unit :=
  setDi e fun d => { d with addrs := Function.update d.addrs j (BitVec.ofNat 32 addr) }

/-- `ip->addrs[j]`, allocated if it is 0. -/
def mapAddr (e : Nat) (j : Fin 13) : M Nat := do
  let ip ← getInode e
  if ip.di.addrs j = 0#32 then do
    let addr ← balloc sb
    setAddr e j addr
    pure addr
  else pure (ip.di.addrs j).toNat

/-- The disk block of the `bn`-th block of an inode, allocated if there is none. -/
def bmap (e bn : Nat) : M Nat :=
  if h : bn < ndirect then mapAddr sb e ⟨bn, Nat.lt_succ_of_lt h⟩
  else if bn - ndirect < nindirect then do
    let addr ← mapAddr sb e 12
    let blk ← bread addr
    if word blk (bn - ndirect) = 0#32 then do
      let a ← balloc sb
      logWrite sb addr (setWord blk (bn - ndirect) (BitVec.ofNat 32 a))
      pure a
    else pure (word blk (bn - ndirect)).toNat
  else panic "bmap: out of range"

/-- Free a direct block. -/
def truncDirect (e : Nat) (j : Fin 13) : M Unit := do
  let ip ← getInode e
  if ip.di.addrs j = 0#32 then pure ()
  else do
    bfree sb (ip.di.addrs j).toNat
    setAddr e j 0

/-- Free the blocks of an indirect block. -/
def truncIndirect (blk : Block) (j : Nat) : M Unit :=
  if word blk j = 0#32 then pure () else bfree sb (word blk j).toNat

/-- Truncate an inode. -/
def itrunc (e : Nat) : M Unit := do
  ((List.finRange 13).take ndirect).forM (truncDirect sb e)
  let ip ← getInode e
  if ip.di.addrs 12 = 0#32 then pure ()
  else do
    let blk ← bread (ip.di.addrs 12).toNat
    (List.range nindirect).forM (truncIndirect sb blk)
    bfree sb (ip.di.addrs 12).toNat
    setAddr e 12 0
  setDi e fun d => { d with size := 0#32 }
  iupdate sb e

/-- Drop a reference to an inode, and free the inode if nothing names it any more. -/
def iput (e : Nat) : M Unit := do
  acquiresleep e
  let ip ← getInode e
  if ip.valid ∧ ip.di.nlink = 0#16 ∧ ip.ref = 1 then do
    itrunc sb e
    setDi e fun d => { d with type := 0#16 }
    iupdate sb e
    setInode e fun ip => { ip with valid := false }
  else pure ()
  releasesleep e
  setInode e fun ip => { ip with ref := ip.ref - 1 }

def iunlockput (e : Nat) : M Unit := do
  iunlock e
  iput sb e

/-- `consoleread`. -/
def consoleread (e n : Nat) : M (Option (List Byte)) := do
  iunlock e
  let s ← get
  ilock sb e
  match s.console with
  | none => pure none
  | some input => do
    modify fun s => { s with console := some (consoleLoop true n input).2 }
    pure (some (consoleLoop true n input).1)

/-- `consolewrite`. -/
def consolewrite (e n : Nat) : M (Option Nat) := do
  iunlock e
  ilock sb e
  pure (some n)

/-- The loop of `readi`. -/
def readLoop (e : Nat) : Nat → Nat → Nat → M (List Byte)
  | 0, _, _ => pure []
  | fuel + 1, off, n =>
    if n = 0 then pure []
    else do
      let addr ← bmap sb e (off / bsize)
      let blk ← bread addr
      let m := min n (bsize - off % bsize)
      let rest ← readLoop e fuel (off + m) (n - m)
      pure ((List.range m).map (fun i => blk (off % bsize + i)) ++ rest)

/-- Read data from an inode. -/
def readi (e off n : Nat) : M (Option (List Byte)) := do
  let ip ← getInode e
  if ip.di.type = tDev then
    if ip.di.major = 1#16 then consoleread sb e n else pure none
  else if ip.di.size.toNat < off ∨ (off + n) % uintSize < off then pure none
  else do
    let m := if ip.di.size.toNat < (off + n) % uintSize then ip.di.size.toNat - off else n
    let bs ← readLoop sb e m off m
    pure (some bs)

/-- A block with the bytes from `o` on replaced. -/
def splice (b : Block) (o : Nat) (bs : List Byte) : Block := fun i =>
  if o ≤ i ∧ i < o + bs.length then bs.getD (i - o) 0#8 else b i

/-- The loop of `writei`. -/
def writeLoop (e : Nat) : Nat → Nat → List Byte → M Unit
  | 0, _, _ => pure ()
  | fuel + 1, off, src =>
    if src = [] then pure ()
    else do
      let addr ← bmap sb e (off / bsize)
      let blk ← bread addr
      let m := min src.length (bsize - off % bsize)
      logWrite sb addr (splice blk (off % bsize) (src.take m))
      writeLoop e fuel (off + m) (src.drop m)

/-- Write data to an inode. -/
def writei (e : Nat) (src : List Byte) (off : Nat) : M (Option Nat) := do
  let ip ← getInode e
  if ip.di.type = tDev then
    if ip.di.major = 1#16 then consolewrite sb e src.length else pure none
  else if ip.di.size.toNat < off ∨ (off + src.length) % uintSize < off then pure none
  else if maxfile * bsize < (off + src.length) % uintSize then pure none
  else do
    writeLoop sb e src.length off src
    if 0 < src.length ∧ ip.di.size.toNat < off + src.length then do
      setDi e fun d => { d with size := BitVec.ofNat 32 (off + src.length) }
      iupdate sb e
    else pure ()
    pure (some src.length)

end

end Xv6.Fs
