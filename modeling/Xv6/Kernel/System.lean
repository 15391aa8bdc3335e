import Xv6.Kernel.Trap
import Xv6.Kernel.Exec

/-!
# Booting, and the kernel as a transition system

`main` is the start of the boot processor up to the scheduler.  After it the
system takes steps.  A step is the scheduler picking a process, a timer
interrupt, one attempt at a user access, or a system call, each on one processor
and each up to the next return to user mode or to the scheduler.  Between steps a
processor with a process is in user mode.

The arguments of an event are its inputs from outside: the program file and the
argument strings of `exec`, and what a file read gave a page fault.
-/

namespace Xv6

variable [Link]

/-! ## Boot -/

/-- Physical memory the kernel maps while it boots. -/
def boot4M : Nat := 4 * 1024 * 1024

/-- One stack for each other processor. -/
def startothers (ncpu : Nat) : M Unit :=
  (List.range (ncpu - 1)).forM fun _ => do
    match ← kalloc with
    | none => throw .nullDeref
    | some _ => pure ()

/-- The first process, with the program `init`. -/
def userinit (init : List Byte) : K Unit := do
  match ← allocproc with
  | none => throw .nullDeref
  | some p => do
    modify fun s => { s with initproc := p }
    match ← onMem setupkvm with
    | none => panic "userinit: out of memory?"
    | some d => do
      setProc p fun pr => { pr with pgdir := d }
      onMem (inituvm d init)
      setProc p fun pr => { pr with sz := pgsize, state := .runnable }

/-- The boot processor, up to the scheduler. -/
def main (ncpu : Nat) (init : List Byte) : K Unit := do
  onMem (freerange Link.kend (p2v boot4M))
  match ← onMem setupkvm with
  | none => throw .nullDeref
  | some d => do
    modify fun s => { s with kpgdir := d, cpu := fun _ => { proc := none, cr3 := d } }
    onMem (startothers ncpu)
    onMem (freerange (p2v boot4M) (p2v phystop))
    userinit init

/-- The state at power on, with arbitrary contents of memory. -/
def powerOn (page : Nat → Page) : Kernel :=
  { mem := { freelist := [], refCounts := fun _ => 0#8, page := page, wraps := 0 }
    proc := fun _ => .zero, nextpid := 1, initproc := 0, kpgdir := 0
    cpu := fun _ => { proc := none, cr3 := 0 }
    fileRef := fun _ => 0, filewrites := [] }

/-- A state the system starts its steps in. -/
def Boot (ncpu : Nat) (s : Kernel) : Prop :=
  ∃ page init, main ncpu init (powerOn page) = .ok ((), s)

/-! ## Steps -/

/-- The system calls. -/
inductive Call where
  | fork
  | exit
  | wait
  | kill (pid : Int)
  | sbrk (n : Word)
  | exec (file : Option Readi) (argv : List (List Byte))
  | wmap (addr length flags fd : Word)
  | wunmap (addr : Word)

/-- What happens on processor `c`. -/
inductive Event where
  /-- The scheduler picks process `p`. -/
  | sched (c p : Nat)
  /-- A timer interrupt. -/
  | tick (c : Nat)
  /-- An attempt to load from `va`, or to store a byte there. -/
  | access (c va : Nat) (b : Option Byte) (io : Option (List Byte))
  | syscall (c : Nat) (call : Call)

/-- Exit if the process on `c` was killed, on the way back to user mode. -/
def exitIfKilled (c : Nat) : K Unit := do
  let s ← get
  match (s.cpu c).proc with
  | none => pure ()
  | some p => if (s.proc p).killed then exit c else pure ()

/-- The body of a system call. -/
def Call.body (c : Nat) : Call → K Unit
  | .fork => do
    let _ ← Xv6.fork c
    pure ()
  | .exit => Xv6.exit c
  | .wait => do
    let _ ← Xv6.wait c
    pure ()
  | .kill pid => do
    let _ ← Xv6.kill pid
    pure ()
  | .sbrk n => do
    let _ ← growproc c n.toInt
    pure ()
  | .exec file argv => do
    let _ ← Xv6.exec c file argv
    pure ()
  | .wmap addr length flags fd => do
    let _ ← Xv6.wmap c addr length flags fd
    pure ()
  | .wunmap addr => do
    let _ ← sysWunmap c addr
    pure ()

/-- The trap of a system call. -/
def syscall (c : Nat) (call : Call) : K Unit := do
  let p ← myproc c
  let pr ← getProc p
  if pr.killed then exit c
  else do
    call.body c
    exitIfKilled c

/-- Give up the processor. -/
def yield (c : Nat) : K Unit := do
  let p ← myproc c
  setProc p fun pr => { pr with state := .runnable, cont := .yielded }
  toScheduler c

/-- The trap of a timer interrupt in user mode. -/
def tick (c : Nat) : K Unit := do
  let p ← myproc c
  let pr ← getProc p
  if pr.killed then exit c else yield c

/-- Continue a process where it gave up the processor. -/
def resume (c p : Nat) : Cont → K Unit
  | .user => pure ()
  | .yielded => exitIfKilled c
  | .waiting => do
    setProc p fun pr => { pr with chan := none }
    match ← wait c with
    | none => pure ()
    | some _ => exitIfKilled c

/-- Run process `p` on processor `c`. -/
def sched (c p : Nat) : K Unit := do
  modify fun s => s.setCpu c fun u => { u with proc := some p }
  switchuvm c p
  setProc p fun pr => { pr with state := .running }
  let pr ← getProc p
  resume c p pr.cont

def Event.run : Event → K Unit
  | .sched c p => Xv6.sched c p
  | .tick c => Xv6.tick c
  | .access c va b io => Xv6.access c va b io
  | .syscall c call => Xv6.syscall c call

/-- When an event can happen. -/
def Event.enabled (ncpu : Nat) (s : Kernel) : Event → Prop
  | .sched c p => c < ncpu ∧ (s.cpu c).proc = none ∧ p < nproc ∧ (s.proc p).state = .runnable
  | .tick c => c < ncpu ∧ (s.cpu c).proc.isSome
  | .access c va _ _ => c < ncpu ∧ (s.cpu c).proc.isSome ∧ va < uintSize
  | .syscall c _ => c < ncpu ∧ (s.cpu c).proc.isSome

/-- A step that returned.  A step that stops with a fault has no next state. -/
def Step (ncpu : Nat) (s : Kernel) (e : Event) (s' : Kernel) : Prop :=
  e.enabled ncpu s ∧ e.run s = .ok ((), s')

end Xv6
