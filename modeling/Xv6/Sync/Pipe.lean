import Xv6.Lib.Ring
import Xv6.Lib.Run
import Xv6.Machine.Word

/-!
# Pipes (`pipe.c`)

Any number of processes are inside `pipewrite` and `piperead` at once.  All of both
functions runs under the lock of the pipe except the inside of `sleep`, so a step of
the system is one call from where it starts, or resumes after a sleep, to where it
returns or sleeps again.  A sleeping process is resumed only after a `wakeup` of its
channel or a `kill`.

The user's buffer is read while the section runs, so its contents are an input of the
step.  A process inside a call keeps its end of the pipe open, and so an end is closed
only when no process is inside a call on it.

`stored` and `delivered` are the bytes that writers put into the pipe and that readers
took out of it, in order.
-/

namespace Xv6

/-- Bytes of the buffer of a pipe. -/
def pipesize : Nat := 512

/-- `struct pipe`, without its lock. -/
structure Pipe where
  data : Nat → Byte
  nread : Word
  nwrite : Word
  readopen : Bool
  writeopen : Bool

/-- How a section of `pipewrite` ends. -/
inductive WriteEnd where
  | failed | slept | done
deriving DecidableEq, Repr

namespace Pipe

/-- The loop of `pipewrite`, with `k` bytes to go from `addr[i]` on.  Returns the bytes
it stored. -/
def writeLoop (killed : Bool) (addr : Nat → Byte) : Nat → Nat → Pipe → Pipe × List Byte × WriteEnd
  | 0, _, p => (p, [], .done)
  | k + 1, i, p =>
    if p.nwrite = p.nread + BitVec.ofNat 32 pipesize then
      if !p.readopen || killed then (p, [], .failed) else (p, [], .slept)
    else
      let r := writeLoop killed addr k (i + 1)
        { p with data := Function.update p.data (p.nwrite.toNat % pipesize) (addr i)
                 nwrite := p.nwrite + 1#32 }
      (r.1, addr i :: r.2.1, r.2.2)

/-- The second loop of `piperead`, for at most `n` bytes. -/
def copyLoop : Nat → Pipe → Pipe × List Byte
  | 0, p => (p, [])
  | n + 1, p =>
    if p.nread = p.nwrite then (p, [])
    else
      let r := copyLoop n { p with nread := p.nread + 1#32 }
      (r.1, p.data (p.nread.toNat % pipesize) :: r.2)

end Pipe

/-! ## Processes on a pipe -/

/-- What a process is doing with the pipe. -/
inductive Job where
  | idle
  /-- Asleep in `pipewrite`, with `i` bytes stored and `k` to go. -/
  | writing (i k : Nat) (awake : Bool)
  /-- Asleep in `piperead`. -/
  | reading (n : Nat) (awake : Bool)

/-- `wakeup(&p->nread)` -/
def Job.wakeReader : Job → Job
  | .reading n _ => .reading n true
  | j => j

/-- `wakeup(&p->nwrite)` -/
def Job.wakeWriter : Job → Job
  | .writing i k _ => .writing i k true
  | j => j

/-- Whether a process inside a call may go on. -/
def Job.awake : Job → Bool
  | .idle => false
  | .writing _ _ awake => awake
  | .reading _ awake => awake

structure PipeSys where
  pipe : Pipe
  job : Nat → Job
  killed : Nat → Bool
  stored : List Byte
  delivered : List Byte

namespace PipeSys

/-- Process `t` in `pipewrite`, with `k` bytes to go from `addr[i]` on. -/
def pipewrite (s : PipeSys) (t i k : Nat) (addr : Nat → Byte) : PipeSys :=
  let r := s.pipe.writeLoop (s.killed t) addr k i
  let s := { s with pipe := r.1, stored := s.stored ++ r.2.1 }
  match r.2.2 with
  | .failed => { s with job := Function.update s.job t .idle }
  | .slept =>
    let j := Job.writing (i + r.2.1.length) (k - r.2.1.length) false
    { s with job := Function.update (fun u => (s.job u).wakeReader) t j }
  | .done => { s with job := Function.update (fun u => (s.job u).wakeReader) t .idle }

/-- Process `t` in `piperead`. -/
def piperead (s : PipeSys) (t n : Nat) : PipeSys :=
  if s.pipe.nread = s.pipe.nwrite ∧ s.pipe.writeopen then
    if s.killed t then { s with job := Function.update s.job t .idle }
    else { s with job := Function.update s.job t (.reading n false) }
  else
    let r := s.pipe.copyLoop n
    { s with pipe := r.1, delivered := s.delivered ++ r.2
             job := Function.update (fun u => (s.job u).wakeWriter) t .idle }

/-- Process `t` goes on after a sleep. -/
def resume (s : PipeSys) (t : Nat) (addr : Nat → Byte) : PipeSys :=
  match s.job t with
  | .idle => s
  | .writing i k _ => s.pipewrite t i k addr
  | .reading n _ => s.piperead t n

def pipeclose (s : PipeSys) (writable : Bool) : PipeSys :=
  if writable then
    { s with pipe := { s.pipe with writeopen := false }, job := fun u => (s.job u).wakeReader }
  else
    { s with pipe := { s.pipe with readopen := false }, job := fun u => (s.job u).wakeWriter }

end PipeSys

inductive PipeEvent where
  /-- Process `t` calls `pipewrite` for `n` bytes. -/
  | write (t n : Nat) (addr : Nat → Byte)
  /-- Process `t` calls `piperead` for `n` bytes. -/
  | read (t n : Nat)
  /-- Process `t`, woken, goes on. -/
  | resume (t : Nat) (addr : Nat → Byte)
  | kill (t : Nat)
  | close (writable : Bool)

def PipeEvent.enabled (s : PipeSys) : PipeEvent → Prop
  | .write t _ _ => s.job t = .idle ∧ s.pipe.writeopen = true
  | .read t _ => s.job t = .idle ∧ s.pipe.readopen = true
  | .resume t _ => (s.job t).awake = true
  | .kill _ => True
  | .close true => s.pipe.writeopen = true ∧ ∀ t i k awake, s.job t ≠ .writing i k awake
  | .close false => s.pipe.readopen = true ∧ ∀ t n awake, s.job t ≠ .reading n awake

def PipeEvent.run (s : PipeSys) : PipeEvent → PipeSys
  | .write t n addr => s.pipewrite t 0 n addr
  | .read t n => s.piperead t n
  | .resume t addr => s.resume t addr
  | .kill t =>
    { s with killed := Function.update s.killed t true
             job := Function.update s.job t (s.job t).wakeReader.wakeWriter }
  | .close writable => s.pipeclose writable

def PipeStep (s : PipeSys) (e : PipeEvent) (s' : PipeSys) : Prop := e.enabled s ∧ s' = e.run s

/-- A pipe that `pipealloc` just made. -/
structure PipeSys.Fresh (s : PipeSys) : Prop where
  nread : s.pipe.nread = 0#32
  nwrite : s.pipe.nwrite = 0#32
  readopen : s.pipe.readopen = true
  writeopen : s.pipe.writeopen = true
  job : ∀ t, s.job t = .idle
  stored : s.stored = []
  delivered : s.delivered = []

/-! ## The bytes of a pipe -/

theorem pipesize_dvd : pipesize ∣ 2 ^ 32 := by decide

theorem pipesize_lt : pipesize < 2 ^ 32 := by decide

variable {p : Pipe} {bs : List Byte}

/-- The buffer holds `bs`. -/
def Pipe.Holds (p : Pipe) (bs : List Byte) : Prop := Ring.Holds pipesize p.data p.nread p.nwrite bs

theorem Pipe.Holds.writeLoop (killed : Bool) (addr : Nat → Byte) (k : Nat) :
    ∀ (i : Nat) {p : Pipe} {bs : List Byte}, p.Holds bs →
      (p.writeLoop killed addr k i).1.Holds (bs ++ (p.writeLoop killed addr k i).2.1) := by
  induction k with
  | zero =>
    intro i p bs h
    rw [Pipe.writeLoop, List.append_nil]
    exact h
  | succ k ih =>
    intro i p bs h
    rw [Pipe.writeLoop]
    have hfull := Ring.Holds.full_iff h pipesize_lt
    split
    · split
      · rw [List.append_nil]
        exact h
      · rw [List.append_nil]
        exact h
    next hroom =>
      have hlen : bs.length < pipesize := Nat.lt_of_le_of_ne h.room fun heq => hroom (hfull.mpr heq)
      have hpush := Ring.Holds.push h pipesize_dvd pipesize_lt hlen (addr i)
      have := ih (i := i + 1) (p := { p with
        data := Function.update p.data (p.nwrite.toNat % pipesize) (addr i)
        nwrite := p.nwrite + 1#32 }) hpush
      rw [List.append_assoc, List.singleton_append] at this
      exact this

/-- What is copied comes off the front. -/
theorem Pipe.Holds.copyLoop (n : Nat) : ∀ {p : Pipe} {bs : List Byte}, p.Holds bs →
    ∃ rest, bs = (p.copyLoop n).2 ++ rest ∧ (p.copyLoop n).1.Holds rest := by
  induction n with
  | zero =>
    intro p bs h
    rw [Pipe.copyLoop]
    exact ⟨bs, rfl, h⟩
  | succ n ih =>
    intro p bs h
    rw [Pipe.copyLoop]
    split
    · exact ⟨bs, rfl, h⟩
    next hne =>
      cases bs with
      | nil => exact absurd ((Ring.Holds.empty_iff h).mpr rfl) hne
      | cons b bs =>
        obtain ⟨hb, hpop⟩ := Ring.Holds.pop h pipesize_dvd pipesize_lt
        obtain ⟨rest, hrest, hholds⟩ := ih (p := { p with nread := p.nread + 1#32 }) hpop
        refine ⟨rest, ?_, hholds⟩
        rw [List.cons_append, ← hrest, hb]

/-- The bytes in the buffer are those that were stored and not delivered yet. -/
def PipeSys.Fifo (s : PipeSys) : Prop := ∃ bs, s.stored = s.delivered ++ bs ∧ s.pipe.Holds bs

variable {s s' : PipeSys}

theorem PipeSys.Fifo.of_same (h : s.Fifo) (hstored : s'.stored = s.stored)
    (hdelivered : s'.delivered = s.delivered) (hdata : s'.pipe.data = s.pipe.data)
    (hnread : s'.pipe.nread = s.pipe.nread) (hnwrite : s'.pipe.nwrite = s.pipe.nwrite) :
    s'.Fifo := by
  obtain ⟨bs, hbs, hholds⟩ := h
  refine ⟨bs, by rw [hstored, hdelivered, hbs], ?_⟩
  unfold Pipe.Holds at *
  rw [hdata, hnread, hnwrite]
  exact hholds

theorem PipeSys.Fifo.pipewrite {t i k : Nat} {addr : Nat → Byte} (h : s.Fifo) :
    (s.pipewrite t i k addr).Fifo := by
  obtain ⟨bs, hbs, hholds⟩ := h
  have hloop := Pipe.Holds.writeLoop (s.killed t) addr k i hholds
  have hfifo : PipeSys.Fifo { s with
      pipe := (s.pipe.writeLoop (s.killed t) addr k i).1
      stored := s.stored ++ (s.pipe.writeLoop (s.killed t) addr k i).2.1 } :=
    ⟨_, by dsimp only; rw [hbs, List.append_assoc], hloop⟩
  unfold PipeSys.pipewrite
  dsimp only
  split
  · exact hfifo.of_same rfl rfl rfl rfl rfl
  · exact hfifo.of_same rfl rfl rfl rfl rfl
  · exact hfifo.of_same rfl rfl rfl rfl rfl

theorem PipeSys.Fifo.piperead {t n : Nat} (h : s.Fifo) : (s.piperead t n).Fifo := by
  unfold PipeSys.piperead
  split
  · split
    · exact h.of_same rfl rfl rfl rfl rfl
    · exact h.of_same rfl rfl rfl rfl rfl
  · obtain ⟨bs, hbs, hholds⟩ := h
    obtain ⟨rest, hrest, hcopy⟩ := hholds.copyLoop n
    refine ⟨rest, ?_, hcopy⟩
    dsimp only
    rw [hbs, List.append_assoc, ← hrest]

theorem PipeSys.Fifo.step {e : PipeEvent} (h : s.Fifo) (hstep : PipeStep s e s') : s'.Fifo := by
  obtain ⟨-, rfl⟩ := hstep
  cases e with
  | write t n addr => exact h.pipewrite
  | read t n => exact h.piperead
  | resume t addr =>
    unfold PipeEvent.run PipeSys.resume
    dsimp only
    split
    · exact h
    · exact h.pipewrite
    · exact h.piperead
  | kill t => exact h.of_same rfl rfl rfl rfl rfl
  | close writable =>
    cases writable with
    | true => exact h.of_same rfl rfl rfl rfl rfl
    | false => exact h.of_same rfl rfl rfl rfl rfl

/-- In every run of writers and readers the bytes delivered are a prefix of the bytes
stored, the rest is in the buffer, and the counters are at most the size of the buffer
apart. -/
theorem pipe_fifo {s0 : PipeSys} {es : List PipeEvent} (h0 : s0.Fresh)
    (hrun : Trace.Run PipeStep s0 es s) :
    s.delivered <+: s.stored ∧ (s.pipe.nwrite - s.pipe.nread).toNat ≤ pipesize ∧
      s.stored.length = s.delivered.length + (s.pipe.nwrite - s.pipe.nread).toNat := by
  have hstart : s0.Fifo := by
    refine ⟨[], by rw [h0.stored, h0.delivered]; rfl, ?_⟩
    unfold Pipe.Holds
    rw [h0.nread, h0.nwrite]
    exact Ring.Holds.empty ..
  obtain ⟨bs, hbs, hholds⟩ := hrun.invariant hstart fun _ _ _ h hs => h.step hs
  refine ⟨⟨bs, hbs.symm⟩, ?_, ?_⟩
  · rw [hholds.length]
    exact hholds.room
  · rw [hholds.length, hbs, List.length_append]

/-- A pipe that nobody used yet. -/
def freshPipe : PipeSys :=
  { pipe := ⟨fun _ => 0#8, 0#32, 0#32, true, true⟩, job := fun _ => .idle, killed := fun _ => false
    stored := [], delivered := [] }

/-- A reader waits, a writer stores three bytes, and the reader takes two of them. -/
theorem pipe_fifo_two : ∃ s, Trace.Run PipeStep freshPipe
    [.read 1 2, .write 0 3 (fun i => BitVec.ofNat 8 i), .resume 1 (fun _ => 0#8)] s ∧
    s.delivered = [0#8, 1#8] ∧ s.stored = [0#8, 1#8, 2#8] ∧
    (s.pipe.nwrite - s.pipe.nread).toNat ≤ pipesize := by
  have hrun : Trace.Run PipeStep freshPipe
      ([] ++ [.read 1 2] ++ [.write 0 3 (fun i => BitVec.ofNat 8 i)] ++ [.resume 1 (fun _ => 0#8)]) _ :=
    .snoc (.snoc (.snoc .nil ⟨⟨rfl, rfl⟩, rfl⟩) ⟨⟨rfl, rfl⟩, rfl⟩) ⟨rfl, rfl⟩
  exact ⟨_, hrun, rfl, rfl,
    (pipe_fifo ⟨rfl, rfl, rfl, rfl, fun _ => rfl, rfl, rfl⟩ hrun).2.1⟩

/-! ## Sleepers -/

/-- Whom a sleeping process waits for.  `pipewrite` returns without a `wakeup` when its
process was killed, so that a reader may sleep on with bytes in the buffer. -/
structure PipeSys.Waits (s : PipeSys) : Prop where
  writer : ∀ t i k, s.job t = .writing i k false →
    s.pipe.nwrite = s.pipe.nread + BitVec.ofNat 32 pipesize ∧ s.pipe.readopen = true ∧
      s.killed t = false
  reader : ∀ t n, s.job t = .reading n false →
    s.pipe.writeopen = true ∧ s.killed t = false ∧
      (s.pipe.nread = s.pipe.nwrite ∨ ∃ u, s.killed u = true)
  opened : ∀ t n awake, s.job t = .reading n awake → s.pipe.readopen = true
  apart : ∀ t i k u n, s.job t = .writing i k false → s.job u ≠ .reading n false

/-- The loop leaves the ends of the pipe alone and a full buffer too. -/
theorem Pipe.writeLoop_spec (killed : Bool) (addr : Nat → Byte) (k i : Nat) (p : Pipe) :
    let r := p.writeLoop killed addr k i
    r.1.readopen = p.readopen ∧ r.1.writeopen = p.writeopen ∧
      (p.nwrite = p.nread + BitVec.ofNat 32 pipesize → r.1 = p) ∧
      (r.2.2 = .slept → r.1.nwrite = r.1.nread + BitVec.ofNat 32 pipesize ∧
        p.readopen = true ∧ killed = false) ∧
      (r.2.2 = .failed → p.readopen = false ∨ killed = true) := by
  induction k generalizing i p with
  | zero => simp [writeLoop]
  | succ k ih =>
    rw [writeLoop]
    grind

theorem Pipe.copyLoop_ends (n : Nat) (p : Pipe) :
    (p.copyLoop n).1.readopen = p.readopen ∧ (p.copyLoop n).1.writeopen = p.writeopen := by
  induction n generalizing p with
  | zero => exact ⟨rfl, rfl⟩
  | succ n ih =>
    rw [copyLoop]
    grind

@[grind =]
theorem Job.wakeReader_eq {j : Job} {i k : Nat} {awake : Bool} :
    j.wakeReader = .writing i k awake ↔ j = .writing i k awake := by
  cases j <;> simp [wakeReader]

@[grind =]
theorem Job.wakeReader_eq_reading {j : Job} {n : Nat} {awake : Bool} :
    j.wakeReader = .reading n awake ↔ awake = true ∧ ∃ a, j = .reading n a := by
  cases j <;> grind [wakeReader]

@[grind =]
theorem Job.wakeWriter_eq {j : Job} {n : Nat} {awake : Bool} :
    j.wakeWriter = .reading n awake ↔ j = .reading n awake := by
  cases j <;> simp [wakeWriter]

@[grind =]
theorem Job.wakeWriter_eq_writing {j : Job} {i k : Nat} {awake : Bool} :
    j.wakeWriter = .writing i k awake ↔ awake = true ∧ ∃ a, j = .writing i k a := by
  cases j <;> grind [wakeWriter]

theorem PipeSys.Waits.pipewrite {t i k : Nat} {addr : Nat → Byte} (h : s.Waits) :
    (s.pipewrite t i k addr).Waits := by
  obtain ⟨hw, hr, ho, ha⟩ := h
  obtain ⟨hopen, hopen', hfull, hslept, hfailed⟩ :=
    Pipe.writeLoop_spec (s.killed t) addr k i s.pipe
  unfold PipeSys.pipewrite
  dsimp only
  split <;> constructor <;> dsimp only <;> grind [Function.update_apply]

theorem PipeSys.Waits.piperead {t n : Nat} (h : s.Waits) (hopen : s.pipe.readopen = true) :
    (s.piperead t n).Waits := by
  obtain ⟨hw, hr, ho, ha⟩ := h
  obtain ⟨hread, hwrite⟩ := Pipe.copyLoop_ends n s.pipe
  unfold PipeSys.piperead
  split
  · split <;> constructor <;> dsimp only <;> grind [Function.update_apply, pipesize]
  · constructor <;> dsimp only <;> grind [Function.update_apply]

theorem PipeSys.Waits.step {e : PipeEvent} (h : s.Waits) (hstep : PipeStep s e s') : s'.Waits := by
  obtain ⟨hen, rfl⟩ := hstep
  cases e with
  | write t n addr => exact h.pipewrite
  | read t n => exact h.piperead hen.2
  | resume t addr =>
    unfold PipeEvent.run PipeSys.resume
    dsimp only
    split
    · exact h
    · exact h.pipewrite
    next hjob => exact h.piperead (h.opened _ _ _ hjob)
  | kill t =>
    obtain ⟨hw, hr, ho, ha⟩ := h
    have hk : Function.update s.killed t true t = true := Function.update_self ..
    constructor <;> dsimp only [PipeEvent.run] <;> grind [Function.update_apply]
  | close writable =>
    obtain ⟨hw, hr, ho, ha⟩ := h
    cases writable <;> constructor <;> dsimp only [PipeEvent.run, PipeSys.pipeclose] <;>
      grind [PipeEvent.enabled]

/-- In every run of writers and readers no writer and reader sleep at once without a
`wakeup`, a sleeping writer finds the buffer full and its reader there, and a sleeping
reader the buffer empty and a writer there, unless a process was killed. -/
theorem pipe_sleepers {s0 : PipeSys} {es : List PipeEvent} (h0 : s0.Fresh)
    (hrun : Trace.Run PipeStep s0 es s) : s.Waits := by
  refine hrun.invariant ?_ fun _ _ _ h hs => h.step hs
  constructor <;> simp [h0.job]

/-- A reader that finds the buffer empty sleeps. -/
theorem pipe_sleepers_reader : ∃ s, Trace.Run PipeStep freshPipe [.read 1 2] s ∧
    s.job 1 = .reading 2 false ∧ s.Waits := by
  have hrun : Trace.Run PipeStep freshPipe ([] ++ [.read 1 2]) _ := .snoc .nil ⟨⟨rfl, rfl⟩, rfl⟩
  exact ⟨_, hrun, rfl, pipe_sleepers ⟨rfl, rfl, rfl, rfl, fun _ => rfl, rfl, rfl⟩ hrun⟩

end Xv6
