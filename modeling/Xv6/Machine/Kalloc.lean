import Xv6.Lib.Prog
import Xv6.Machine.Word

/-!
# The physical page allocator (`kalloc.c`)

Physical memory is a page for every frame number.  The free list is the list of
frames on `kmem.freelist`, head first; `kfree` also writes the link of the list
into the freed page, after its junk fill.  `refCounts` is the array of one-byte
reference counts.

The kernel's own addresses `data` and `end` are chosen by the linker, so they are
a parameter (`Link`) with what `kernel.ld` and the first 4 MB of `entrypgdir`
promise.

`wraps` is a history variable: the number of calls of `incref` that found a count
already at 255.  Nothing reads it.

A program stops with a `Fault` where the kernel panics, and also where it follows
a null pointer or leaves the bounds of an array.  Locks are not modelled: each
kernel operation runs to its end.
-/

namespace Xv6

/-- Why the kernel stopped. -/
inductive Fault where
  /-- A call of `panic`. -/
  | panic : String → Fault
  /-- A null pointer was dereferenced. -/
  | nullDeref
  /-- An array was indexed outside its bounds. -/
  | outOfBounds
deriving DecidableEq, Repr

/-- The symbols of `kernel.ld` the memory code reads. -/
class Link where
  /-- Start of the data section. -/
  data : Nat
  /-- First address after the kernel, `end`. -/
  kend : Nat
  /-- `data` is the next page boundary after the read-only part. -/
  data_aligned : data % pgsize = 0
  kernlink_lt_data : kernlink < data
  data_lt_kend : data < kend
  /-- The kernel fits in what the boot page table maps. -/
  kend_le : kend ≤ kernbase + 4 * 1024 * 1024

/-- Physical memory and the allocator's data. -/
structure Mem where
  /-- `kmem.freelist`. -/
  freelist : List Nat
  /-- `ref_counts`, one byte for a frame. -/
  refCounts : Nat → BitVec 8
  /-- The contents of each frame. -/
  page : Nat → Page
  /-- How often `incref` found a count already at 255. -/
  wraps : Nat

/-- Kernel code over the memory. -/
abbrev M := Prog Mem Fault

/-- `panic`. -/
def panic {σ α : Type} (msg : String) : Prog σ Fault α := throw (.panic msg)

/-! ## Memory accesses -/

def Mem.setPage (m : Mem) (f : Nat) (pg : Page) : Mem :=
  { m with page := Function.update m.page f pg }

@[simp] theorem Mem.setPage_freelist (m : Mem) (f : Nat) (pg : Page) :
    (m.setPage f pg).freelist = m.freelist := rfl
@[simp] theorem Mem.setPage_refCounts (m : Mem) (f : Nat) (pg : Page) :
    (m.setPage f pg).refCounts = m.refCounts := rfl

@[simp] theorem Mem.setPage_self (m : Mem) (f : Nat) (pg : Page) :
    (m.setPage f pg).page f = pg := Function.update_self ..

theorem Mem.setPage_ne (m : Mem) {f g : Nat} (pg : Page) (h : g ≠ f) :
    (m.setPage f pg).page g = m.page g := Function.update_of_ne h ..

/-- The word at index `i` of a frame. -/
def loadWord (f i : Nat) : M Word := do
  let m ← get
  pure (word (m.page f) i)

def storeWord (f i : Nat) (w : Word) : M Unit :=
  modify fun m => m.setPage f (setWord (m.page f) i w)

/-- `memset` of a whole page. -/
def memset (f : Nat) (b : Byte) : M Unit :=
  modify fun m => m.setPage f (fill b)

/-- `memmove` of a whole page. -/
def copyPage (dst src : Nat) : M Unit :=
  modify fun m => m.setPage dst (m.page src)

/-! ## The allocator -/

/-- The kernel address in `kmem.freelist`. -/
def listHead : List Nat → Nat
  | [] => 0
  | f :: _ => kva f

/-- Put a frame on the free list: fill it with junk and link it. -/
def Mem.push (m : Mem) (f : Nat) : Mem :=
  { m.setPage f (setWord (fill 1#8) 0 (BitVec.ofNat 32 (listHead m.freelist))) with
    freelist := f :: m.freelist }

def Mem.setCount (m : Mem) (f : Nat) (n : BitVec 8) : Mem :=
  { m with refCounts := Function.update m.refCounts f n }

/-- Take a frame off the free list.  With an empty list the count that is set is
the one at `V2P(0)`. -/
def kalloc : M (Option Nat) := do
  let m ← get
  match m.freelist with
  | [] => do
    set (m.setCount (v2p 0 / pgsize) 1#8)
    pure none
  | f :: fs => do
    set { m.setCount f 1#8 with freelist := fs }
    pure (some f)

def getRefCount (pa : Nat) : M Nat := do
  if phystop ≤ pa then panic "get_ref_count"
  else do
    let m ← get
    pure (m.refCounts (pa / pgsize)).toNat

/-- Free the page at the kernel address `v`.  A page with a count above one is
left alone, and its count too. -/
def kfree [Link] (v : Nat) : M Unit := do
  if v % pgsize ≠ 0 ∨ v < Link.kend ∨ phystop ≤ v2p v then panic "kfree"
  else do
    let n ← getRefCount (v2p v)
    if 1 < n then pure ()
    else modify fun m => m.push (v2p v / pgsize)

/-- Increment the count of a physical page, in eight bits. -/
def incref (pa : Nat) : M Unit := do
  if phystop ≤ pa then panic "incref: invalid physical address: "
  else modify fun m =>
    { m.setCount (pa / pgsize) (m.refCounts (pa / pgsize) + 1#8) with
      wraps := if m.refCounts (pa / pgsize) = 255#8 then m.wraps + 1 else m.wraps }

/-- Decrement the count of a physical page, in eight bits, and free it at zero.
A count that is zero on entry frees the page as well. -/
def decref [Link] (pa : Nat) : M Unit := do
  if phystop ≤ pa then panic "decref: invalid physical address"
  else do
    let m ← get
    if (m.refCounts (pa / pgsize)).toNat < 1 then kfree (p2v pa)
    modify fun m => m.setCount (pa / pgsize) (m.refCounts (pa / pgsize) - 1#8)
    let m ← get
    if m.refCounts (pa / pgsize) = 0#8 then kfree (p2v pa)

/-- Free every whole page between two kernel addresses. -/
def freerange [Link] (vstart vend : Nat) : M Unit :=
  (List.range ((vend - pgroundup vstart) / pgsize)).forM fun k =>
    kfree (pgroundup vstart + k * pgsize)

end Xv6
