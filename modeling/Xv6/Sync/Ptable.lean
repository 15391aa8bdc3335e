import Xv6.Kernel.State
import Xv6.Lib.Run

/-!
# The process table under its lock (`proc.c`)

`Kernel` runs each system call in one step.  Here the functions of `proc.c` that move
processes between states are cut at their lock operations, and processors take steps
between those in any order.  Memory, files and mappings are left out: whether `fork`
finds a kernel stack and can copy the address space is open.

A processor runs its scheduler or a process.  `swtch` hands `ptable.lock` on: a process
that gives up the processor leaves the lock to the scheduler, and a process that is
picked continues after its `sched` with the lock held.  A timer interrupt can make a
process yield wherever it holds no lock, inside `fork` too.

Besides its calls of `fork`, `exit`, `wait` and `kill` a process runs kernel code that
takes some lock `lk`, calls `wakeup` and `sleep` with it and releases it.  The lock may
be `ptable.lock` itself; that code calls `wakeup1`, as `exit` does.
-/

namespace Xv6

/-- A slot of the process table. -/
abbrev Slot := Fin nproc

/-- An address that processes sleep on. -/
inductive Chan where
  | proc (p : Slot)
  | addr (a : Nat)
deriving DecidableEq

/-- Where a process is while it holds no lock. -/
inductive Stage where
  /-- In user mode, or in kernel code outside the functions below. -/
  | idle
  /-- In `fork`, with the slot `np` taken. -/
  | forking (np : Slot)
  /-- In `fork`, with `np->parent` set. -/
  | forked (np : Slot)
deriving DecidableEq

/-- Where a process is. -/
inductive Pc where
  | at (k : Stage)
  /-- In `yield`, before and after `sched`. -/
  | yielding (k : Stage)
  | yielded (k : Stage)
  /-- At the start of `forkret`. -/
  | born
  /-- In code that holds `lk`. -/
  | holding (lk : Nat)
  /-- In `sleep`: with both locks, with `lk` released, in `sched`, and before `lk` is taken
  again. -/
  | sleepLocked (chan : Chan) (lk : Nat)
  | sleepUnlocked (chan : Chan) (lk : Nat)
  | asleep (chan : Chan) (lk : Nat)
  | relocking (lk : Nat)
  /-- In `wakeup`, with both locks. -/
  | waking (chan : Chan) (lk : Nat)
  /-- In code that holds `ptable.lock`, and in its `sleep`. -/
  | table
  | asleepTable (chan : Chan)
  /-- In the loop of `wait`, and in its `sleep`. -/
  | scanning
  | waitSleeping
  | exited
deriving DecidableEq

/-- Whether a process that runs there holds `ptable.lock`. -/
def Pc.holdsTable : Pc → Bool
  | .at _ => false
  | .holding _ => false
  | .relocking _ => false
  | .exited => false
  | _ => true

/-- What a processor runs: the scheduler without and with `ptable.lock`, the scheduler
right after a process gave up the processor, or a process. -/
inductive Ctx where
  | idle
  | locked
  | back
  | run (p : Slot)
deriving DecidableEq

/-- The fields of `struct proc` that these functions share. -/
structure PSlot where
  state : ProcState
  pid : Word
  parent : Option Slot
  chan : Option Chan
  killed : Bool

structure SCpu where
  proc : Option Slot
  ctx : Ctx

/-- The process table, the processors and the locks.  A lock is held by a processor. -/
structure Ptable where
  proc : Slot → PSlot
  pc : Slot → Pc
  cpu : Nat → SCpu
  lock : Option Nat
  lk : Nat → Option Nat
  nextpid : Word
  initproc : Slot

namespace Ptable

def setProc (s : Ptable) (p : Slot) (f : PSlot → PSlot) : Ptable :=
  { s with proc := Function.update s.proc p (f (s.proc p)) }

def setPc (s : Ptable) (p : Slot) (k : Pc) : Ptable :=
  { s with pc := Function.update s.pc p k }

def setCpu (s : Ptable) (c : Nat) (u : SCpu) : Ptable :=
  { s with cpu := Function.update s.cpu c u }

/-- Processor `c` takes or leaves a lock other than `ptable.lock`. -/
def setLk (s : Ptable) (lk : Nat) (o : Option Nat) : Ptable :=
  { s with lk := Function.update s.lk lk o }

/-! ## Table code -/

/-- The first unused slot. -/
def unusedSlot (s : Ptable) : Option Slot :=
  (List.finRange nproc).find? fun p => (s.proc p).state = .unused

/-- Wake the processes that sleep on a channel. -/
def wakeup1 (s : Ptable) (chan : Option Chan) : Ptable :=
  { s with proc := fun p =>
      if (s.proc p).state = .sleeping ∧ (s.proc p).chan = chan
      then { s.proc p with state := .runnable } else s.proc p }

/-- The slot `kill` finds. -/
def pidSlot (s : Ptable) (pid : Word) : Option Slot :=
  (List.finRange nproc).find? fun p => (s.proc p).pid = pid

/-- Kill the process with the given pid.  Returns the result of the call. -/
def kill (s : Ptable) (pid : Word) : Ptable × Int :=
  match s.pidSlot pid with
  | none => (s, -1)
  | some p => (s.setProc p fun pr =>
    { pr with killed := true, state := if pr.state = .sleeping then .runnable else pr.state }, 0)

/-- One round of the loop of `exit`: a child of `p` is passed to `init`. -/
def reparent1 (p : Slot) (s : Ptable) (q : Slot) : Ptable :=
  if (s.proc q).parent = some p then
    let s := s.setProc q fun pr => { pr with parent := some s.initproc }
    if (s.proc q).state = .zombie then s.wakeup1 (some (.proc s.initproc)) else s
  else s

/-- The loop of `exit` over the table. -/
def reparent (s : Ptable) (p : Slot) : Ptable :=
  (List.finRange nproc).foldl (reparent1 p) s

/-- The first zombie child of `p`. -/
def zombieChild (s : Ptable) (p : Slot) : Option Slot :=
  (List.finRange nproc).find? fun q => (s.proc q).parent = some p ∧ (s.proc q).state = .zombie

def haveKids (s : Ptable) (p : Slot) : Bool :=
  (List.finRange nproc).any fun q => (s.proc q).parent = some p

/-- Free the slot of a zombie. -/
def reap (s : Ptable) (q : Slot) : Ptable :=
  s.setProc q fun pr => { pr with pid := 0#32, parent := none, killed := false, state := .unused }

/-- Process `p` gives up processor `c`, with its new state. -/
def switch (s : Ptable) (c : Nat) (p : Slot) (k : Pc) (f : PSlot → PSlot) : Ptable :=
  ((s.setProc p f).setPc p k).setCpu c { s.cpu c with ctx := .back }

attribute [simp] setProc setPc setCpu reap switch

end Ptable

/-! ## Steps -/

/-- The steps of processor `c`; those after the first four are steps of process `p`. -/
inductive TEvent where
  | schedLock (c : Nat)
  | schedPick (c : Nat) (p : Slot)
  | schedBack (c : Nat)
  | schedUnlock (c : Nat)
  | yieldLock (c : Nat) (p : Slot)
  | yieldSched (c : Nat) (p : Slot)
  | yieldReturn (c : Nat) (p : Slot)
  | forkret (c : Nat) (p : Slot)
  | acquire (c : Nat) (p : Slot) (lk : Nat)
  | release (c : Nat) (p : Slot)
  | sleepLock (c : Nat) (p : Slot) (chan : Chan)
  | sleepRelease (c : Nat) (p : Slot)
  | sleepSched (c : Nat) (p : Slot)
  | sleepReturn (c : Nat) (p : Slot)
  | relock (c : Nat) (p : Slot)
  | wakeupLock (c : Nat) (p : Slot) (chan : Chan)
  | wakeupDone (c : Nat) (p : Slot)
  | tableLock (c : Nat) (p : Slot)
  | tableWakeup (c : Nat) (p : Slot) (chan : Chan)
  | tableSleep (c : Nat) (p : Slot) (chan : Chan)
  | tableReturn (c : Nat) (p : Slot)
  | tableUnlock (c : Nat) (p : Slot)
  | kill (c : Nat) (p : Slot) (pid : Word)
  | forkAlloc (c : Nat) (p : Slot)
  | forkFail (c : Nat) (p : Slot)
  | forkCopy (c : Nat) (p : Slot)
  | forkRun (c : Nat) (p : Slot)
  | exit (c : Nat) (p : Slot)
  | waitLock (c : Nat) (p : Slot)
  | waitReap (c : Nat) (p q : Slot)
  | waitFail (c : Nat) (p : Slot)
  | waitSleep (c : Nat) (p : Slot)
  | waitReturn (c : Nat) (p : Slot)

/-- One step. -/
inductive TStep (s : Ptable) : TEvent → Ptable → Prop where
  -- the loop of `scheduler`
  | schedLock {c : Nat} : (s.cpu c).ctx = .idle → s.lock = none →
      TStep s (.schedLock c) ({ s with lock := some c }.setCpu c { s.cpu c with ctx := .locked })
  | schedPick {c : Nat} {p : Slot} : (s.cpu c).ctx = .locked → (s.proc p).state = .runnable →
      TStep s (.schedPick c p)
        ((s.setProc p fun pr => { pr with state := .running }).setCpu c ⟨some p, .run p⟩)
  | schedBack {c : Nat} : (s.cpu c).ctx = .back →
      TStep s (.schedBack c) (s.setCpu c ⟨none, .locked⟩)
  | schedUnlock {c : Nat} : (s.cpu c).ctx = .locked →
      TStep s (.schedUnlock c) ({ s with lock := none }.setCpu c { s.cpu c with ctx := .idle })
  -- `yield` and `forkret`
  | yieldLock {c : Nat} {p : Slot} {k : Stage} : (s.cpu c).ctx = .run p → s.pc p = .at k →
      s.lock = none → TStep s (.yieldLock c p) ({ s with lock := some c }.setPc p (.yielding k))
  | yieldSched {c : Nat} {p : Slot} {k : Stage} : (s.cpu c).ctx = .run p → s.pc p = .yielding k →
      TStep s (.yieldSched c p) (s.switch c p (.yielded k) fun pr => { pr with state := .runnable })
  | yieldReturn {c : Nat} {p : Slot} {k : Stage} : (s.cpu c).ctx = .run p → s.pc p = .yielded k →
      TStep s (.yieldReturn c p) ({ s with lock := none }.setPc p (.at k))
  | forkret {c : Nat} {p : Slot} : (s.cpu c).ctx = .run p → s.pc p = .born →
      TStep s (.forkret c p) ({ s with lock := none }.setPc p (.at .idle))
  -- code with a lock of its own
  | acquire {c : Nat} {p : Slot} {lk : Nat} : (s.cpu c).ctx = .run p → s.pc p = .at .idle →
      s.lk lk = none → TStep s (.acquire c p lk) ((s.setLk lk (some c)).setPc p (.holding lk))
  | release {c : Nat} {p : Slot} {lk : Nat} : (s.cpu c).ctx = .run p → s.pc p = .holding lk →
      TStep s (.release c p) ((s.setLk lk none).setPc p (.at .idle))
  -- `sleep` with that lock
  | sleepLock {c : Nat} {p : Slot} {chan : Chan} {lk : Nat} : (s.cpu c).ctx = .run p →
      s.pc p = .holding lk → s.lock = none →
      TStep s (.sleepLock c p chan) ({ s with lock := some c }.setPc p (.sleepLocked chan lk))
  | sleepRelease {c : Nat} {p : Slot} {chan : Chan} {lk : Nat} : (s.cpu c).ctx = .run p →
      s.pc p = .sleepLocked chan lk →
      TStep s (.sleepRelease c p) ((s.setLk lk none).setPc p (.sleepUnlocked chan lk))
  | sleepSched {c : Nat} {p : Slot} {chan : Chan} {lk : Nat} : (s.cpu c).ctx = .run p →
      s.pc p = .sleepUnlocked chan lk →
      TStep s (.sleepSched c p)
        (s.switch c p (.asleep chan lk) fun pr => { pr with chan := some chan, state := .sleeping })
  | sleepReturn {c : Nat} {p : Slot} {chan : Chan} {lk : Nat} : (s.cpu c).ctx = .run p →
      s.pc p = .asleep chan lk →
      TStep s (.sleepReturn c p)
        (({ s with lock := none }.setProc p fun pr => { pr with chan := none }).setPc p (.relocking lk))
  | relock {c : Nat} {p : Slot} {lk : Nat} : (s.cpu c).ctx = .run p → s.pc p = .relocking lk →
      s.lk lk = none → TStep s (.relock c p) ((s.setLk lk (some c)).setPc p (.holding lk))
  -- `wakeup` with that lock
  | wakeupLock {c : Nat} {p : Slot} {chan : Chan} {lk : Nat} : (s.cpu c).ctx = .run p →
      s.pc p = .holding lk → s.lock = none →
      TStep s (.wakeupLock c p chan) ({ s with lock := some c }.setPc p (.waking chan lk))
  | wakeupDone {c : Nat} {p : Slot} {chan : Chan} {lk : Nat} : (s.cpu c).ctx = .run p →
      s.pc p = .waking chan lk →
      TStep s (.wakeupDone c p) ({ s.wakeup1 (some chan) with lock := none }.setPc p (.holding lk))
  -- code with `ptable.lock`
  | tableLock {c : Nat} {p : Slot} : (s.cpu c).ctx = .run p → s.pc p = .at .idle → s.lock = none →
      TStep s (.tableLock c p) ({ s with lock := some c }.setPc p .table)
  | tableWakeup {c : Nat} {p : Slot} {chan : Chan} : (s.cpu c).ctx = .run p → s.pc p = .table →
      TStep s (.tableWakeup c p chan) (s.wakeup1 (some chan))
  | tableSleep {c : Nat} {p : Slot} {chan : Chan} : (s.cpu c).ctx = .run p → s.pc p = .table →
      TStep s (.tableSleep c p chan)
        (s.switch c p (.asleepTable chan) fun pr => { pr with chan := some chan, state := .sleeping })
  | tableReturn {c : Nat} {p : Slot} {chan : Chan} : (s.cpu c).ctx = .run p →
      s.pc p = .asleepTable chan →
      TStep s (.tableReturn c p) ((s.setProc p fun pr => { pr with chan := none }).setPc p .table)
  | tableUnlock {c : Nat} {p : Slot} : (s.cpu c).ctx = .run p → s.pc p = .table →
      TStep s (.tableUnlock c p) ({ s with lock := none }.setPc p (.at .idle))
  -- `kill`, from `acquire` to `release`
  | kill {c : Nat} {p : Slot} {pid : Word} : (s.cpu c).ctx = .run p → s.pc p = .at .idle →
      s.lock = none → TStep s (.kill c p pid) (s.kill pid).1
  -- `fork`: the section of `allocproc`, the two ways it can go on without the lock, and
  -- the section that makes the child runnable
  | forkAlloc {c : Nat} {p np : Slot} : (s.cpu c).ctx = .run p → s.pc p = .at .idle →
      s.lock = none → s.unusedSlot = some np →
      TStep s (.forkAlloc c p)
        (({ s with nextpid := s.nextpid + 1#32 }.setProc np fun pr =>
          { pr with state := .embryo, pid := s.nextpid }).setPc p (.at (.forking np)))
  | forkFail {c : Nat} {p np : Slot} : (s.cpu c).ctx = .run p → s.pc p = .at (.forking np) →
      TStep s (.forkFail c p)
        ((s.setProc np fun pr => { pr with state := .unused }).setPc p (.at .idle))
  | forkCopy {c : Nat} {p np : Slot} : (s.cpu c).ctx = .run p → s.pc p = .at (.forking np) →
      TStep s (.forkCopy c p)
        ((s.setProc np fun pr => { pr with parent := some p }).setPc p (.at (.forked np)))
  | forkRun {c : Nat} {p np : Slot} : (s.cpu c).ctx = .run p → s.pc p = .at (.forked np) →
      s.lock = none →
      TStep s (.forkRun c p)
        (((s.setProc np fun pr => { pr with state := .runnable }).setPc np .born).setPc p (.at .idle))
  -- `exit`, from `acquire` to `sched`
  | exit {c : Nat} {p : Slot} : (s.cpu c).ctx = .run p → s.pc p = .at .idle → s.lock = none →
      p ≠ s.initproc →
      TStep s (.exit c p)
        (({ s with lock := some c }.wakeup1 ((s.proc p).parent.map .proc)).reparent p |>.switch c p
          .exited fun pr => { pr with state := .zombie })
  -- the loop of `wait`
  | waitLock {c : Nat} {p : Slot} : (s.cpu c).ctx = .run p → s.pc p = .at .idle → s.lock = none →
      TStep s (.waitLock c p) ({ s with lock := some c }.setPc p .scanning)
  | waitReap {c : Nat} {p q : Slot} : (s.cpu c).ctx = .run p → s.pc p = .scanning →
      s.zombieChild p = some q →
      TStep s (.waitReap c p q) (({ s with lock := none }.reap q).setPc p (.at .idle))
  | waitFail {c : Nat} {p : Slot} : (s.cpu c).ctx = .run p → s.pc p = .scanning →
      s.zombieChild p = none → (!s.haveKids p || (s.proc p).killed) = true →
      TStep s (.waitFail c p) ({ s with lock := none }.setPc p (.at .idle))
  | waitSleep {c : Nat} {p : Slot} : (s.cpu c).ctx = .run p → s.pc p = .scanning →
      s.zombieChild p = none → (!s.haveKids p || (s.proc p).killed) = false →
      TStep s (.waitSleep c p) (s.switch c p .waitSleeping fun pr =>
        { pr with chan := some (.proc p), state := .sleeping })
  | waitReturn {c : Nat} {p : Slot} : (s.cpu c).ctx = .run p → s.pc p = .waitSleeping →
      TStep s (.waitReturn c p) ((s.setProc p fun pr => { pr with chan := none }).setPc p .scanning)

/-- After `userinit`: one process, ready for its `forkret`, and idle processors. -/
structure Ptable.Start (s : Ptable) : Prop where
  init : s.proc s.initproc = ⟨.runnable, 1#32, none, none, false⟩
  born : s.pc s.initproc = .born
  rest : ∀ p ≠ s.initproc, s.proc p = ⟨.unused, 0#32, none, none, false⟩
  pcs : ∀ p ≠ s.initproc, s.pc p = .exited
  cpu : ∀ c, s.cpu c = ⟨none, .idle⟩
  lock : s.lock = none
  lk : ∀ l, s.lk l = none
  nextpid : s.nextpid = 2#32

/-- A `fork` that succeeds without being interrupted. -/
theorem TStep.fork {s : Ptable} {c : Nat} {p np : Slot} (hc : (s.cpu c).ctx = .run p)
    (hpc : s.pc p = .at .idle) (hl : s.lock = none) (hnp : s.unusedSlot = some np) :
    ∃ s', Trace.Run TStep s ([.forkAlloc c p] ++ [.forkCopy c p] ++ [.forkRun c p]) s' ∧
      s'.proc = Function.update s.proc np
        { s.proc np with state := .runnable, pid := s.nextpid, parent := some p } ∧
      s'.lock = none ∧ s'.initproc = s.initproc := by
  have h1 := Trace.Run.single (TStep.forkAlloc hc hpc hl hnp)
  have h2 := h1.snoc (TStep.forkCopy hc (Function.update_self _ _ _))
  have h3 := h2.snoc (TStep.forkRun hc (Function.update_self _ _ _) hl)
  refine ⟨_, h3, ?_, hl, rfl⟩
  simp

/-- The slot that `userinit` takes. -/
def slot0 : Slot := ⟨0, by decide⟩

/-- The slot of its first child. -/
def slot1 : Slot := ⟨1, by decide⟩

/-- The table after `userinit`. -/
def Ptable.boot : Ptable where
  proc p := if p = slot0 then ⟨.runnable, 1#32, none, none, false⟩
    else ⟨.unused, 0#32, none, none, false⟩
  pc p := if p = slot0 then .born else .exited
  cpu _ := ⟨none, .idle⟩
  lock := none
  lk _ := none
  nextpid := 2#32
  initproc := slot0

theorem Ptable.boot_start : Ptable.boot.Start where
  init := rfl
  born := rfl
  rest _ h := if_neg h
  pcs _ h := if_neg h
  cpu _ := rfl
  lock := rfl
  lk _ := rfl
  nextpid := rfl

/-- Processor 0 picks `init`, which returns from `forkret`. -/
theorem Ptable.run_init : ∃ s, Trace.Run TStep Ptable.boot
      ([.schedLock 0] ++ [.schedPick 0 slot0] ++ [.forkret 0 slot0]) s ∧
    (s.cpu 0).ctx = .run slot0 ∧ s.pc slot0 = .at .idle ∧ s.lock = none ∧
    s.lk 0 = none ∧ s.unusedSlot = some slot1 ∧ s.pidSlot 0#32 = some slot1 ∧ s.initproc = slot0 ∧
    s.proc = Function.update Ptable.boot.proc slot0 ⟨.running, 1#32, none, none, false⟩ :=
  ⟨_, ((Trace.Run.single (.schedLock rfl rfl)).snoc (.schedPick rfl rfl)).snoc (.forkret rfl rfl),
    rfl, rfl, rfl, rfl, rfl, rfl, rfl, rfl⟩

end Xv6
