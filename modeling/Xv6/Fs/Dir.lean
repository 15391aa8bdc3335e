import Xv6.Fs.Inode

/-!
# Directories and paths (`fs.c`)

A directory is a file of 16-byte entries, an inode number and a name of 14 bytes that ends
at its first zero byte.  A path is the bytes of a C string without the final zero, and a
name that `skipelem` puts into a buffer of 14 bytes is the bytes before its first zero.
-/

namespace Xv6.Fs

open Prog

/-- `struct dirent`. -/
structure Dirent where
  inum : Short
  name : List Byte

/-- A directory entry from its bytes. -/
def Dirent.ofBytes (bs : List Byte) : Dirent := ⟨bs.getD 1 0#8 ++ bs.getD 0 0#8, bs.drop 2⟩

def Dirent.bytes (de : Dirent) : List Byte :=
  [de.inum.extractLsb' 0 8, de.inum.extractLsb' 8 8] ++ de.name

/-- The bytes that `strncmp` and `strncpy` with the bound `DIRSIZ` see. -/
def strn (bs : List Byte) : List Byte := (bs.take dirsiz).takeWhile (· ≠ 0#8)

/-- Whether `namecmp` finds two names equal. -/
def namecmp (s t : List Byte) : Bool := strn s = strn t

/-- What `strncpy` leaves in the name of an entry. -/
def strncpy (name : List Byte) : List Byte :=
  strn name ++ List.replicate (dirsiz - (strn name).length) 0#8

section

variable (sb : Superblock)

/-- The loop of `dirlookup`. -/
def lookupLoop (e : Nat) (name : List Byte) : Nat → Nat → M (Option (Nat × Nat))
  | 0, _ => pure none
  | fuel + 1, off => do
    let dp ← getInode e
    if off < dp.di.size.toNat then do
      let r ← readi sb e off direntSize
      let bs := r.getD []
      if bs.length ≠ direntSize then panic "dirlookup read"
      else do
        let de := Dirent.ofBytes bs
        if de.inum ≠ 0#16 ∧ namecmp name de.name then do
          let next ← iget dp.dev de.inum.toNat
          pure (some (next, off))
        else lookupLoop e name fuel (off + direntSize)
    else pure none

/-- Look for a directory entry.  Returns the inode it names and the offset of the entry. -/
def dirlookup (e : Nat) (name : List Byte) : M (Option (Nat × Nat)) := do
  let dp ← getInode e
  if dp.di.type ≠ tDir then panic "dirlookup not DIR"
  else lookupLoop sb e name (dp.di.size.toNat / direntSize + 1) 0

/-- The loop of `dirlink`: the offset of the first empty entry, or the end. -/
def emptyLoop (e : Nat) : Nat → Nat → M Nat
  | 0, off => pure off
  | fuel + 1, off => do
    let dp ← getInode e
    if off < dp.di.size.toNat then do
      let r ← readi sb e off direntSize
      let bs := r.getD []
      if bs.length ≠ direntSize then panic "dirlink read"
      else if (Dirent.ofBytes bs).inum = 0#16 then pure off
      else emptyLoop e fuel (off + direntSize)
    else pure off

/-- Write a new entry into a directory.  Fails if the name is there already. -/
def dirlink (e : Nat) (name : List Byte) (inum : Nat) : M Bool := do
  match ← dirlookup sb e name with
  | some (old, _) => do
    iput sb old
    pure false
  | none => do
    let dp ← getInode e
    let off ← emptyLoop sb e (dp.di.size.toNat / direntSize + 1) 0
    let r ← writei sb e (Dirent.bytes ⟨BitVec.ofNat 16 inum, strncpy name⟩) off
    if r ≠ some direntSize then panic "dirlink"
    else pure true

end

/-! ## Paths -/

/-- `'/'`. -/
def slash : Byte := 47#8

/-- The next path element, cut to `DIRSIZ` bytes, and the path after it. -/
def skipelem (path : List Byte) : Option (List Byte × List Byte) :=
  let p := path.dropWhile (· = slash)
  if p = [] then none
  else some ((p.takeWhile (· ≠ slash)).take dirsiz, (p.dropWhile (· ≠ slash)).dropWhile (· = slash))

section

variable (sb : Superblock)

/-- The loop of `namex`. -/
def namexLoop (nameiparent : Bool) : Nat → Nat → List Byte → List Byte →
    M (Option (Nat × List Byte))
  | fuel, ip, name, path =>
    match fuel, skipelem path with
    | fuel + 1, some (name, path) => do
      ilock sb ip
      let dp ← getInode ip
      if dp.di.type ≠ tDir then do
        iunlockput sb ip
        pure none
      else if nameiparent ∧ path = [] then do
        iunlock ip
        pure (some (ip, name))
      else do
        match ← dirlookup sb ip name with
        | none => do
          iunlockput sb ip
          pure none
        | some (next, _) => do
          iunlockput sb ip
          namexLoop nameiparent fuel next name path
    | _, _ =>
      if nameiparent then do
        iput sb ip
        pure none
      else pure (some (ip, name))

/-- Look up the inode for a path name, or the inode of its parent and the last element. -/
def namex (p : Nat) (path : List Byte) (nameiparent : Bool) : M (Option (Nat × List Byte)) := do
  let s ← get
  if path.head? = some slash then do
    let ip ← iget rootdev rootino
    namexLoop sb nameiparent path.length ip [] path
  else
    match (s.proc p).cwd with
    | none => throw .nullDeref
    | some cwd => do
      let ip ← idup cwd
      namexLoop sb nameiparent path.length ip [] path

def namei (p : Nat) (path : List Byte) : M (Option Nat) := do
  let r ← namex sb p path false
  pure (r.map Prod.fst)

def nameiparent (p : Nat) (path : List Byte) : M (Option (Nat × List Byte)) :=
  namex sb p path true

end

end Xv6.Fs
