import Xv6.Machine.Kalloc

/-!
# Page tables and address spaces (`vm.c`)

A page directory is named by its frame.  A pointer to an entry is the frame of
its table and an index (`PtePtr`), so `walkpgdir`, the loads and the stores go
through the same memory as user data.

The loops over the pages of a size run over page numbers.  `npages sz` is the
number of pages of a process of size `sz`, so the pages of the C loop from
`PGROUNDUP(lo)` while below `hi` are those from `npages lo` to `npages hi`.
`mapLoop` counts the pages still to map after the current one, modulo `2^32`, as
the C loop does that stops at the last page.

Reading a program file is a parameter: `readi off n` is the bytes `readi` copied,
or `none` when it returned `-1`.
-/

namespace Xv6

/-- A pointer to an entry: the frame of its table and its index. -/
abbrev PtePtr := Nat × Nat

def load (p : PtePtr) : M Word := loadWord p.1 p.2
def store (p : PtePtr) (w : Word) : M Unit := storeWord p.1 p.2 w

/-- Pages of a process of `sz` bytes. -/
def npages (sz : Nat) : Nat := (sz + pgsize - 1) / pgsize

/-- A page with bytes written from an offset on. -/
def setBytes (pg : Page) (o : Nat) (bs : List Byte) : Page := fun o' =>
  if o ≤ o' then bs.getD (o' - o) (pg o') else pg o'

/-- `memmove` of some bytes into a page. -/
def writeBytes (f o : Nat) (bs : List Byte) : M Unit :=
  modify fun m => m.setPage f (setBytes (m.page f) o bs)

/-! ## Walking and mapping -/

/-- The entry for `va`, with its page table allocated on demand. -/
def walkpgdir (pgdir va : Nat) (alloc : Bool) : M (Option PtePtr) := do
  let pde ← loadWord pgdir (pdx va)
  if flag pde pteP then pure (some (frame pde, ptx va))
  else if alloc then do
    match ← kalloc with
    | none => pure none
    | some f => do
      memset f 0#8
      storeWord pgdir (pdx va) (mkPte (f * pgsize) (pteW ||| pteU))
      pure (some (f, ptx va))
  else pure none

/-- The loop of `mappages` at page `a`, with `n` more pages after it. -/
def mapLoop (pgdir : Nat) (perm : Word) : Nat → Nat → Nat → M Bool
  | n, a, pa => do
    match ← walkpgdir pgdir a true with
    | none => pure false
    | some p => do
      let pte ← load p
      if flag pte pteP then panic "remap"
      else do
        store p (mkPte pa perm)
        match n with
        | 0 => pure true
        | n + 1 => mapLoop pgdir perm n ((a + pgsize) % uintSize) ((pa + pgsize) % uintSize)

/-- Map `size` bytes from `va` to the physical memory at `pa`.  Returns whether
every page table was there or could be allocated. -/
def mappages (pgdir va size pa : Nat) (perm : Word) : M Bool :=
  let a := pgrounddown va
  let last := pgrounddown ((va + size + uintSize - 1) % uintSize)
  mapLoop pgdir perm ((last + uintSize - a) % uintSize / pgsize) a pa

/-! ## Releasing -/

/-- The loop of `deallocuvm` at address `a`.  A missing page table is skipped
whole. -/
def deallocLoop [Link] (pgdir oldsz a : Nat) : M Unit :=
  if a < oldsz then do
    match ← walkpgdir pgdir a false with
    | none => deallocLoop pgdir oldsz ((a / 2 ^ 22 + 1) * 2 ^ 22)
    | some p => do
      let pte ← load p
      if flag pte pteP then
        if pteAddr pte = 0 then panic "kfree"
        else do
          kfree (p2v (pteAddr pte))
          store p 0#32
          deallocLoop pgdir oldsz (a + pgsize)
      else deallocLoop pgdir oldsz (a + pgsize)
  else pure ()
termination_by oldsz - a
decreasing_by all_goals have := pgsize_eq; omega

/-- Shrink a process from `oldsz` to `newsz`.  Returns the new size. -/
def deallocuvm [Link] (pgdir oldsz newsz : Nat) : M Nat := do
  if oldsz ≤ newsz then pure oldsz
  else do
    deallocLoop pgdir oldsz (pgroundup newsz)
    pure newsz

/-- Free the user pages, then the page tables, then the directory. -/
def freevm [Link] (pgdir : Nat) : M Unit := do
  if pgdir = 0 then panic "freevm: no pgdir"
  else do
    let _ ← deallocuvm pgdir kernbase 0
    (List.range npdentries).forM fun i => do
      let pde ← loadWord pgdir i
      if flag pde pteP then kfree (p2v (pteAddr pde)) else pure ()
    kfree (kva pgdir)

/-! ## The kernel half -/

/-- A row of the table of kernel mappings. -/
structure Kmap where
  virt : Nat
  physStart : Nat
  physEnd : Nat
  perm : Word

/-- I/O space, kernel text and read-only data, kernel data and memory, devices. -/
def kmap [Link] : List Kmap :=
  [⟨kernbase, 0, extmem, pteW⟩,
   ⟨kernlink, v2p kernlink, v2p Link.data, 0#32⟩,
   ⟨Link.data, v2p Link.data, phystop, pteW⟩,
   ⟨devspace, devspace, 0, pteW⟩]

/-- Map the rows of the kernel table until one fails. -/
def mapKmap (pgdir : Nat) : List Kmap → M Bool
  | [] => pure true
  | k :: ks => do
    let ok ← mappages pgdir k.virt ((k.physEnd + uintSize - k.physStart) % uintSize) k.physStart k.perm
    if ok then mapKmap pgdir ks else pure false

/-- A new directory with the kernel half mapped. -/
def setupkvm [Link] : M (Option Nat) := do
  match ← kalloc with
  | none => pure none
  | some d => do
    memset d 0#8
    if devspace < p2v phystop then panic "PHYSTOP too high"
    else do
      let ok ← mapKmap d kmap
      if ok then pure (some d)
      else do
        freevm d
        pure none

/-! ## Growing and loading -/

/-- Load the first program at address 0. -/
def inituvm (pgdir : Nat) (init : List Byte) : M Unit := do
  if pgsize ≤ init.length then panic "inituvm: more than a page"
  else do
    match ← kalloc with
    | none => throw .nullDeref
    | some f => do
      memset f 0#8
      let _ ← mappages pgdir 0 pgsize (f * pgsize) (pteW ||| pteU)
      writeBytes f 0 init

/-- The loop of `allocuvm` over the pages still to add. -/
def allocLoop [Link] (pgdir oldsz newsz : Nat) : List Nat → M Nat
  | [] => pure newsz
  | v :: vs => do
    match ← kalloc with
    | none => do
      let _ ← deallocuvm pgdir newsz oldsz
      pure 0
    | some f => do
      memset f 0#8
      let ok ← mappages pgdir (v * pgsize) pgsize (f * pgsize) (pteW ||| pteU)
      if ok then allocLoop pgdir oldsz newsz vs
      else do
        let _ ← deallocuvm pgdir newsz oldsz
        kfree (kva f)
        pure 0

/-- Grow a process from `oldsz` to `newsz`.  Returns the new size, 0 on error. -/
def allocuvm [Link] (pgdir oldsz newsz : Nat) : M Nat :=
  if kernbase ≤ newsz then pure 0
  else if newsz < oldsz then pure oldsz
  else allocLoop pgdir oldsz newsz (List.range' (npages oldsz) (npages newsz - npages oldsz))

/-- The write flag of an ELF program header. -/
def elfProgFlagWrite : Word := 2#32

/-- The loop of `loaduvm` over the pages of a segment. -/
def loadLoop (pgdir addr : Nat) (readi : Nat → Nat → Option (List Byte)) (offset sz : Nat)
    (flags : Word) : List Nat → M Bool
  | [] => pure true
  | k :: ks => do
    match ← walkpgdir pgdir (addr + k * pgsize) false with
    | none => panic "loaduvm: address should exist"
    | some p => do
      let pte ← load p
      let n := if sz - k * pgsize < pgsize then sz - k * pgsize else pgsize
      match readi ((offset + k * pgsize) % uintSize) n with
      | none => pure false
      | some bs => do
        writeBytes (frame pte) 0 (bs.take n)
        if bs.length ≠ n then pure false
        else do
          -- the read went through the frame, the entry itself is as it was
          let pte ← load p
          store p (if flag flags elfProgFlagWrite then pte ||| elfProgFlagWrite
            else pte &&& ~~~elfProgFlagWrite)
          loadLoop pgdir addr readi offset sz flags ks

/-- Load a program segment.  The pages from `addr` on must be mapped. -/
def loaduvm (pgdir addr : Nat) (readi : Nat → Nat → Option (List Byte)) (offset sz : Nat)
    (flags : Word) : M Bool :=
  if addr % pgsize ≠ 0 then panic "loaduvm: addr must be page aligned"
  else loadLoop pgdir addr readi offset sz flags (List.range (npages sz))

/-- Clear `PTE_U` on a page. -/
def clearpteu (pgdir uva : Nat) : M Unit := do
  match ← walkpgdir pgdir uva false with
  | none => panic "clearpteu"
  | some p => do
    let pte ← load p
    store p (pte &&& ~~~pteU)

/-- The frame behind a user address, if a user may use it.  A missing page table
is not checked for. -/
def uva2ka (pgdir uva : Nat) : M (Option Nat) := do
  match ← walkpgdir pgdir uva false with
  | none => throw .nullDeref
  | some p => do
    let pte ← load p
    if !flag pte pteP then pure none
    else if !flag pte pteU then pure none
    else pure (some (frame pte))

/-- Copy bytes to a user address in another address space. -/
def copyout (pgdir va : Nat) (buf : List Byte) : M Bool :=
  if buf.isEmpty then pure true
  else do
    let va0 := pgrounddown va
    match ← uva2ka pgdir va0 with
    | none => pure false
    | some f => do
      let n := min (pgsize - (va - va0)) buf.length
      writeBytes f (va - va0) (buf.take n)
      copyout pgdir ((va0 + pgsize) % uintSize) (buf.drop n)
termination_by buf.length
decreasing_by
  rename_i hne
  have hpos : 0 < buf.length := by
    rw [List.length_pos_iff]
    intro h
    simp [h] at hne
  simp only [List.length_drop, pgrounddown, pgsize_eq]
  omega

end Xv6
