import Xv6.Kernel.Proc

/-!
# User accesses and the page fault trap (`trap.c`)

A user access goes through the directory in CR3.  The hardware asks for the
present and user bits of both levels, and for the write bits to store.  An access
it refuses traps; the trap returns and the access is tried again, so one access
of a program is one or more `access` steps.

The trap walks the current process's own directory.  A present page with
`PTE_COW` is made writable in place when its count is 1 and copied otherwise.
Everything else goes to the search for a mapping.  The branches that succeed
return at once.  The others set `killed`, and since the access came from user
mode the trap ends in `exit`.

What `fileread` returns to a file-backed page is an input of the step.
-/

namespace Xv6

variable [Link]

/-! ## Copy on write -/

/-- Kill the current process: the trap came from user mode. -/
def killSelf (c p : Nat) : K Unit := do
  setProc p fun pr => { pr with killed := true }
  exit c

/-- The branch for `PTE_COW`. -/
def cowFault (c p va : Nat) (ptr : PtePtr) (pte : Word) : K Unit := do
  let pr ← getProc p
  let s ← get
  if s.mem.refCounts (frame pte) = 1#8 then do
    onMem (store ptr (toWrite pte))
    lcr3 c pr.pgdir
  else do
    match ← onMem kalloc with
    | none => killSelf c p
    | some f => do
      onMem (copyPage f (frame pte))
      onMem (store ptr (toWrite pte))
      lcr3 c pr.pgdir
      onMem (store ptr 0#32)
      let ok ← onMem (mappages pr.pgdir (pgrounddown va) pgsize (f * pgsize)
        (pteFlags (toWrite pte) ||| pteW))
      if ok then do
        lcr3 c pr.pgdir
        onMem (copyPage f (frame pte))
        onMem (decref (pteAddr pte))
      else panic "mampages duplciate pages failed"

/-! ## Lazy allocation -/

/-- Load a page of a file-backed region.  Returns whether the read succeeded. -/
def loadPage (p f : Nat) (r : MmapRegion) (io : Option (List Byte)) : K Bool := do
  let pr ← getProc p
  match ← ofileAt pr r.fd with
  | none => throw .nullDeref
  | some _ =>
    match io with
    | none => pure false
    | some bs => do
      onMem (writeBytes f 0 (bs.take pgsize))
      pure true

/-- The page at `va` of the region in slot `i`. -/
def lazyAlloc (c p va i : Nat) (io : Option (List Byte)) : K Unit := do
  let pr ← getProc p
  match ← onMem kalloc with
  | none => killSelf c p
  | some f => do
    onMem (memset f 0#8)
    let ok ← onMem (mappages pr.pgdir (pgrounddown va) pgsize (f * pgsize) (pteW ||| pteU))
    if ok then do
      let loaded ← if !flag (pr.mmap i).flags mapAnonymous then loadPage p f (pr.mmap i) io
        else pure true
      if loaded then
        setProc p fun pr => pr.setMmap i fun r => { r with nLoadedPages := r.nLoadedPages + 1 }
      else do
        -- the page stays mapped
        onMem (kfree (kva f))
        killSelf c p
    else do
      onMem (kfree (kva f))
      killSelf c p

/-- The search for a mapping. -/
def pagefaultDefault (c p va : Nat) (io : Option (List Byte)) : K Unit := do
  let pr ← getProc p
  match findRegion pr.mmap va with
  | none => killSelf c p
  | some i => lazyAlloc c p va i io

/-- The page fault trap. -/
def trapPgflt (c va : Nat) (io : Option (List Byte)) : K Unit := do
  let p ← myproc c
  let pr ← getProc p
  match ← onMem (walkpgdir pr.pgdir va false) with
  | none => pagefaultDefault c p va io
  | some ptr => do
    let pte ← onMem (load ptr)
    if !flag pte pteP then pagefaultDefault c p va io
    else if flag pte pteCow then cowFault c p va ptr pte
    else pagefaultDefault c p va io

/-! ## Accesses -/

/-- The flags an access needs at both levels. -/
def permits (w : Word) (write : Bool) : Bool :=
  flag w pteP && flag w pteU && (!write || flag w pteW)

/-- The frame an access by a user reaches through a directory. -/
def translate (m : Mem) (dir va : Nat) (write : Bool) : Option Nat :=
  let pde := word (m.page dir) (pdx va)
  let pte := word (m.page (frame pde)) (ptx va)
  if permits pde write && permits pte write then some (frame pte) else none

/-- One attempt at a user access: a load, or a store of a byte. -/
def access (c va : Nat) (b : Option Byte) (io : Option (List Byte)) : K Unit := do
  let s ← get
  match translate s.mem (s.cpu c).cr3 va b.isSome with
  | none => trapPgflt c va io
  | some f =>
    match b with
    | none => pure ()
    | some b => onMem (modify fun m => m.setPage f (setByte (m.page f) (va % pgsize) b))

/-- The byte a process sees at an address, through its own directory. -/
def Kernel.sees (s : Kernel) (p va : Nat) : Option Byte :=
  (translate s.mem (s.proc p).pgdir va false).map fun f => s.mem.page f (va % pgsize)

end Xv6
