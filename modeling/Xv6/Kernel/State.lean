import Xv6.Machine.Vm

/-!
# Processes, processors and the kernel state

The process table is indexed by slot number.  Pointers to a `struct proc` are
slot numbers, and the pointers `pgdir` and `kstack` are frame numbers, 0 for the
null pointer: frame 0 is below the kernel and never allocated.  The file table is
kept as far as processes and mappings use it, the reference count of each
`struct file`.  What `wunmap` hands to `filewrite` is recorded in `filewrites`.

`cont` is where a process resumes when the scheduler picks it: in user mode, after
`yield` in the timer trap, or inside the loop of `wait`.

Left out of `struct proc` are the trap frame, the kernel context, the current
directory, the name and the copy of `struct wmapinfo`, which no function here
reads.
-/

namespace Xv6

open Function

/-- Maximum number of processes. -/
def nproc : Nat := 64
/-- Open files of a process. -/
def nofile : Nat := 16
/-- Slots of a process's table of mappings. -/
def maxMmaps : Nat := 16

inductive ProcState where
  | unused | embryo | sleeping | runnable | running | zombie
deriving DecidableEq, Repr

/-- Where a process resumes. -/
inductive Cont where
  /-- In user mode, by way of `forkret` and `trapret`. -/
  | user
  /-- After `yield`, at the end of the timer trap. -/
  | yielded
  /-- In the loop of `wait`. -/
  | waiting
deriving DecidableEq, Repr

/-- `struct mmap_region`. -/
structure MmapRegion where
  addr : Nat
  length : Int
  flags : Word
  used : Bool
  fd : Int
  nLoadedPages : Int
deriving DecidableEq

/-- A region of a zeroed table. -/
def MmapRegion.zero : MmapRegion := ⟨0, 0, 0#32, false, 0, 0⟩

/-- A sum of a `uint` and an `int`, as a `uint`. -/
def uadd (a : Nat) (n : Int) : Nat := (((a : Int) + n) % (uintSize : Int)).toNat

/-- `addr + length`, as the C code computes it. -/
def MmapRegion.stop (r : MmapRegion) : Nat := uadd r.addr r.length

/-- The addresses a loop over the region visits, from its start on. -/
def MmapRegion.addrs (r : MmapRegion) : List Nat :=
  (List.range (npages (r.stop - r.addr))).map fun k => r.addr + k * pgsize

/-- `struct proc`. -/
structure Proc where
  sz : Nat
  pgdir : Nat
  kstack : Nat
  state : ProcState
  pid : Int
  parent : Option Nat
  chan : Option Nat
  killed : Bool
  ofile : Nat → Option Nat
  mmap : Nat → MmapRegion
  totalMmaps : Int
  cont : Cont

/-- A slot of the zeroed process table. -/
def Proc.zero : Proc :=
  { sz := 0, pgdir := 0, kstack := 0, state := .unused, pid := 0, parent := none, chan := none
    killed := false, ofile := fun _ => none, mmap := fun _ => .zero, totalMmaps := 0
    cont := .user }

/-- The process a processor runs and the directory its CR3 holds. -/
structure Cpu where
  proc : Option Nat
  cr3 : Nat

/-- A call of `filewrite`. -/
structure FileWrite where
  file : Nat
  off : Nat
  data : Page

structure Kernel where
  mem : Mem
  proc : Nat → Proc
  nextpid : Int
  initproc : Nat
  kpgdir : Nat
  cpu : Nat → Cpu
  fileRef : Nat → Nat
  filewrites : List FileWrite

/-- Kernel code. -/
abbrev K := Prog Kernel Fault

def Kernel.setProc (s : Kernel) (p : Nat) (f : Proc → Proc) : Kernel :=
  { s with proc := Function.update s.proc p (f (s.proc p)) }

def Kernel.setCpu (s : Kernel) (c : Nat) (f : Cpu → Cpu) : Kernel :=
  { s with cpu := Function.update s.cpu c (f (s.cpu c)) }

@[simp] theorem Kernel.setProc_self (s : Kernel) (p : Nat) (f : Proc → Proc) :
    (s.setProc p f).proc p = f (s.proc p) := update_self ..

theorem Kernel.setProc_ne (s : Kernel) {p q : Nat} (f : Proc → Proc) (h : q ≠ p) :
    (s.setProc p f).proc q = s.proc q := update_of_ne h ..

@[simp] theorem Kernel.setCpu_self (s : Kernel) (c : Nat) (f : Cpu → Cpu) :
    (s.setCpu c f).cpu c = f (s.cpu c) := update_self ..

theorem Kernel.setCpu_ne (s : Kernel) {c c' : Nat} (f : Cpu → Cpu) (h : c' ≠ c) :
    (s.setCpu c f).cpu c' = s.cpu c' := update_of_ne h ..

/-- Run memory code. -/
def onMem {α : Type} (x : M α) : K α :=
  Prog.zoom Kernel.mem (fun m s => { s with mem := m }) x

/-- The process on processor `c`. -/
def myproc (c : Nat) : K Nat := do
  let s ← get
  match (s.cpu c).proc with
  | some p => pure p
  | none => throw .nullDeref

def getProc (p : Nat) : K Proc := do
  let s ← get
  pure (s.proc p)

def setProc (p : Nat) (f : Proc → Proc) : K Unit := modify fun s => s.setProc p f

/-- Load CR3. -/
def lcr3 (c d : Nat) : K Unit := modify fun s => s.setCpu c fun u => { u with cr3 := d }

/-! ### Running the accessors -/

open Prog in
@[simp] theorem wp_onMem {α : Type} (x : M α) (Q : α → Kernel → Prop) (F : Fault → Prop)
    (s : Kernel) :
    wp (onMem x) Q F s ↔ wp x (fun a m => Q a { s with mem := m }) F s.mem := wp_zoom ..

open Prog in
@[simp] theorem wp_myproc (c : Nat) (Q : Nat → Kernel → Prop) (F : Fault → Prop) (s : Kernel) :
    wp (myproc c) Q F s ↔
      match (s.cpu c).proc with
      | some p => Q p s
      | none => F .nullDeref := by
  unfold myproc
  rw [wp_bind, wp_get]
  cases (s.cpu c).proc with
  | none => exact wp_throw ..
  | some p => exact wp_pure ..

open Prog in
@[simp] theorem wp_getProc (p : Nat) (Q : Proc → Kernel → Prop) (F : Fault → Prop) (s : Kernel) :
    wp (getProc p) Q F s ↔ Q (s.proc p) s := by
  unfold getProc
  rw [wp_bind, wp_get, wp_pure]

open Prog in
@[simp] theorem wp_setProc (p : Nat) (f : Proc → Proc) (Q : PUnit → Kernel → Prop)
    (F : Fault → Prop) (s : Kernel) :
    wp (setProc p f) Q F s ↔ Q () (s.setProc p f) := wp_modify ..

open Prog in
@[simp] theorem wp_lcr3 (c d : Nat) (Q : PUnit → Kernel → Prop) (F : Fault → Prop) (s : Kernel) :
    wp (lcr3 c d) Q F s ↔ Q () (s.setCpu c fun u => { u with cr3 := d }) := wp_modify ..

/-- Switch a processor to a process's address space. -/
def switchuvm (c p : Nat) : K Unit := do
  let pr ← getProc p
  if pr.kstack = 0 then panic "switchuvm: no kstack"
  else if pr.pgdir = 0 then panic "switchuvm: no pgdir"
  else lcr3 c pr.pgdir

/-- Leave the process: back in `scheduler`, on the kernel's own directory. -/
def toScheduler (c : Nat) : K Unit :=
  modify fun s => s.setCpu c fun _ => { proc := none, cr3 := s.kpgdir }

/-! ## Files -/

def filedup (f : Nat) : K Unit := do
  let s ← get
  if s.fileRef f < 1 then panic "filedup"
  else set { s with fileRef := Function.update s.fileRef f (s.fileRef f + 1) }

/-- Drop a reference.  What closing the last one does to the file system is not
modelled. -/
def fileclose (f : Nat) : K Unit := do
  let s ← get
  if s.fileRef f < 1 then panic "fileclose"
  else set { s with fileRef := Function.update s.fileRef f (s.fileRef f - 1) }

/-- `p->ofile[fd]`. -/
def ofileAt (pr : Proc) (fd : Int) : K (Option Nat) :=
  if 0 ≤ fd ∧ fd < nofile then pure (pr.ofile fd.toNat) else throw .outOfBounds

end Xv6
