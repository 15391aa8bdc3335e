import Xv6.Kernel.State

/-!
# Mapping and unmapping (`sysproc.c`, `proc.c`)

`wmap` takes its arguments as the 32-bit words of the system call.  The address
is unsigned, the length and the descriptor are signed, and sums of the two wrap
as `uint` does.  The branches of `wmap` that would choose an address are behind
the test for `MAP_FIXED`, which has returned before, so they are left out.

The file-backed part of `wmap` comes after the slot was filled in, and returns
without undoing it when the descriptor is not open or no descriptor is free.
-/

namespace Xv6

def mapShared : Word := 0x0002#32
def mapAnonymous : Word := 0x0004#32
def mapFixed : Word := 0x0008#32

/-- The result of a failed call. -/
def failed : Int := -1
def success : Int := 0

/-- Range of addresses for mappings. -/
def mmapBase : Nat := 0x60000000
def mmapTop : Nat := 0x80000000

theorem mmapBase_eq : mmapBase = 1610612736 := rfl
theorem mmapTop_eq : mmapTop = 2147483648 := rfl

/-! ## `wmap` -/

/-- The overlap test of `check_fixed`, in `uint` arithmetic. -/
def MmapRegion.overlaps (r : MmapRegion) (addr : Nat) (length : Int) : Bool :=
  addr < r.stop && r.addr < uadd addr length

/-- Whether a fixed address is accepted. -/
def checkFixed (mmap : Nat → MmapRegion) (addr : Nat) (length : Int) : Bool :=
  if addr = 0 ∨ addr % pgsize ≠ 0 then false
  else if addr < mmapBase ∨ mmapTop < uadd addr length then false
  else (List.range maxMmaps).all fun i => !((mmap i).used && (mmap i).overlaps addr length)

/-- The first unused slot. -/
def freeSlot (mmap : Nat → MmapRegion) : Option Nat :=
  (List.range maxMmaps).find? fun i => !(mmap i).used

def Proc.setMmap (pr : Proc) (i : Nat) (f : MmapRegion → MmapRegion) : Proc :=
  { pr with mmap := Function.update pr.mmap i (f (pr.mmap i)) }

/-- The file-backed part of `wmap`, for a slot already filled in. -/
def wmapFile (p i : Nat) (addr : Nat) (fd : Int) : K Int := do
  let pr ← getProc p
  match ← ofileAt pr fd with
  | none => pure failed
  | some f => do
    -- the same pointer goes back into its own place, with a reference more
    filedup f
    match (List.range nofile).find? fun j => (pr.ofile j).isNone with
    | none => pure failed
    | some j => do
      filedup f
      setProc p fun pr => { pr with ofile := Function.update pr.ofile j (some f) }
      setProc p fun pr => pr.setMmap i fun r => { r with fd := j }
      pure addr

/-- Map a region.  Returns its address or `failed`. -/
def wmap (c : Nat) (addr length flags fd : Word) : K Int := do
  let p ← myproc c
  if length.toInt ≤ 0 ∨ addr.toNat % pgsize ≠ 0 then pure failed
  else if !flag flags mapShared then pure failed
  else if !flag flags mapFixed then pure failed
  else do
    let pr ← getProc p
    if !checkFixed pr.mmap addr.toNat length.toInt then pure failed
    else match freeSlot pr.mmap with
      | none => pure failed
      | some i => do
        setProc p fun pr =>
          { pr.setMmap i fun r =>
              { r with addr := addr.toNat, length := length.toInt, flags := flags
                       fd := fd.toInt, used := true } with
            totalMmaps := pr.totalMmaps + 1 }
        if !flag flags mapAnonymous then wmapFile p i addr.toNat fd.toInt
        else pure addr.toNat

/-! ## `wunmap` -/

/-- A used region that holds an address. -/
def MmapRegion.holds (r : MmapRegion) (addr : Nat) : Bool :=
  r.used && r.addr ≤ addr && addr < r.stop

/-- The first used slot that holds an address. -/
def findRegion (mmap : Nat → MmapRegion) (addr : Nat) : Option Nat :=
  (List.range maxMmaps).find? fun i => (mmap i).holds addr

/-- The pages the loop of `wunmap` visits. -/
def unmapAddrs (r : MmapRegion) : List Nat :=
  (List.range (npages (r.stop - pgrounddown r.addr))).map fun k =>
    pgrounddown r.addr + k * pgsize

/-- Write a present page of a file-backed region back, if its file is open. -/
def writeBack (p : Nat) (r : MmapRegion) (a f : Nat) : K Unit := do
  if !flag r.flags mapAnonymous then do
    let pr ← getProc p
    match ← ofileAt pr r.fd with
    | none => pure ()
    | some file => modify fun s =>
      { s with filewrites := s.filewrites ++ [⟨file, a - r.addr, s.mem.page f⟩] }
  else pure ()

/-- The loop of `wunmap` over the pages of a region. -/
def unmapLoop [Link] (p : Nat) (r : MmapRegion) : List Nat → K Unit
  | [] => pure ()
  | a :: as => do
    let pr ← getProc p
    match ← onMem (walkpgdir pr.pgdir a false) with
    | none => unmapLoop p r as
    | some ptr => do
      let pte ← onMem (load ptr)
      if flag pte pteP then do
        writeBack p r a (frame pte)
        onMem (kfree (p2v (pteAddr pte)))
        onMem (store ptr 0#32)
        unmapLoop p r as
      else unmapLoop p r as

/-- Remove the mapping that holds an address. -/
def wunmap [Link] (c addr : Nat) : K Int := do
  let p ← myproc c
  let pr ← getProc p
  match findRegion pr.mmap addr with
  | none => pure failed
  | some i => do
    unmapLoop p (pr.mmap i) (unmapAddrs (pr.mmap i))
    setProc p fun pr =>
      { pr.setMmap i fun r => { r with used := false, nLoadedPages := 0 } with
        totalMmaps := pr.totalMmaps - 1 }
    pure success

/-- The system call: the address must be in the range for mappings. -/
def sysWunmap [Link] (c : Nat) (addr : Word) : K Int :=
  if addr.toNat < mmapBase ∨ mmapTop ≤ addr.toNat then pure failed
  else wunmap c addr.toNat

end Xv6
