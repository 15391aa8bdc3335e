import Xv6.Kernel.Proc

/-!
# Loading a program (`exec.c`)

A program file is its `readi`: the bytes read at an offset, or `none` when the
read failed.  The ELF headers are decoded from those bytes at the offsets of
`elf.h`.  The argument strings are given as their bytes without the final zero.

`execImage` is the part of `exec` up to the commit.  It owns the new directory,
and every failure goes to `bad`, which frees it.
-/

namespace Xv6

variable [Link]

/-- `readi` on the program file, from an offset and for a number of bytes. -/
abbrev Readi := Nat → Nat → Option (List Byte)

def elfMagic : Nat := 0x464C457F
def elfProgLoad : Nat := 1
/-- `sizeof(struct elfhdr)`. -/
def elfhdrSize : Nat := 52
/-- `sizeof(struct proghdr)`. -/
def proghdrSize : Nat := 32
/-- Maximum number of arguments. -/
def maxarg : Nat := 32

/-- The `n` bytes at an offset as a number, low byte first. -/
def field (bs : List Byte) (o : Nat) : Nat → Nat
  | 0 => 0
  | n + 1 => (bs.getD o 0#8).toNat + 256 * field bs (o + 1) n

/-- The bytes of a `uint`. -/
def uintBytes (n : Nat) : List Byte :=
  [BitVec.ofNat 8 n, BitVec.ofNat 8 (n / 256), BitVec.ofNat 8 (n / 65536),
    BitVec.ofNat 8 (n / 16777216)]

/-- A read of exactly `n` bytes. -/
def readExact (readi : Readi) (off n : Nat) : Option (List Byte) :=
  (readi off n).bind fun bs => if bs.length = n then some bs else none

/-- Load the segments of the program headers at the offsets `offs`.  Returns the
size so far, or `none` for `goto bad`. -/
def loadSegments (pgdir : Nat) (readi : Readi) : List Nat → Nat → M (Option Nat)
  | [], sz => pure (some sz)
  | off :: offs, sz =>
    match readExact readi off proghdrSize with
    | none => pure none
    | some ph =>
      let filesz := field ph 16 4
      let memsz := field ph 20 4
      let vaddr := field ph 8 4
      if field ph 0 4 ≠ elfProgLoad then loadSegments pgdir readi offs sz
      else if memsz < filesz then pure none
      else if (vaddr + memsz) % uintSize < vaddr then pure none
      else do
        let sz ← allocuvm pgdir sz ((vaddr + memsz) % uintSize)
        if sz = 0 then pure none
        else if vaddr % pgsize ≠ 0 then pure none
        else do
          let ok ← loaduvm pgdir vaddr readi (field ph 4 4) filesz (BitVec.ofNat 32 (field ph 24 4))
          if ok then loadSegments pgdir readi offs sz else pure none

/-- Push the argument strings below `sp`.  `ustack` is the pointers pushed so far,
the last one last. -/
def pushArgs (pgdir : Nat) : List (List Byte) → Nat → List Nat → M (Option (Nat × List Nat))
  | [], sp, ustack => pure (some (sp, ustack))
  | arg :: argv, sp, ustack =>
    if maxarg ≤ ustack.length then pure none
    else do
      let sp := (sp + uintSize - (arg.length + 1) % uintSize) % uintSize / 4 * 4
      let ok ← copyout pgdir sp (arg ++ [0#8])
      if ok then pushArgs pgdir argv sp (ustack ++ [sp]) else pure none

/-- The stack: two pages, the lower one inaccessible, with the arguments. -/
def buildStack (pgdir sz : Nat) (argv : List (List Byte)) : M (Option Nat) := do
  let sz ← allocuvm pgdir (pgroundup sz) (pgroundup sz + 2 * pgsize)
  if sz = 0 then pure none
  else do
    clearpteu pgdir (sz - 2 * pgsize)
    match ← pushArgs pgdir argv sz [] with
    | none => pure none
    | some (sp, args) => do
      let argc := args.length
      let ustack := [0xffffffff, argc, sp + uintSize - (argc + 1) * 4] ++ args ++ [0]
      let ok ← copyout pgdir ((sp + uintSize - (3 + argc + 1) * 4) % uintSize)
        (ustack.flatMap uintBytes)
      if ok then pure (some sz) else pure none

/-- Build the image of a program.  Returns its directory and size. -/
def execImage (readi : Readi) (argv : List (List Byte)) : M (Option (Nat × Nat)) := do
  match readExact readi 0 elfhdrSize with
  | none => pure none
  | some elf =>
    if field elf 0 4 ≠ elfMagic then pure none
    else do
      match ← setupkvm with
      | none => pure none
      | some d => do
        let offs := (List.range (field elf 44 2)).map fun i =>
          (field elf 28 4 + i * proghdrSize) % uintSize
        match ← loadSegments d readi offs 0 with
        | none => do
          freevm d
          pure none
        | some sz => do
          match ← buildStack d sz argv with
          | none => do
            freevm d
            pure none
          | some sz => pure (some (d, sz))

/-- Replace the image of the current process.  `file` is `none` when the path
names no file. -/
def exec (c : Nat) (file : Option Readi) (argv : List (List Byte)) : K Int := do
  let p ← myproc c
  match file with
  | none => pure (-1)
  | some readi => do
    match ← onMem (execImage readi argv) with
    | none => pure (-1)
    | some (d, sz) => do
      let old ← getProc p
      setProc p fun pr => { pr with pgdir := d, sz := sz }
      switchuvm c p
      onMem (freevm old.pgdir)
      pure 0

end Xv6
