import Xv6.Lib.Ring
import Xv6.Lib.Run
import Xv6.Machine.Word

/-!
# The line discipline of the console (`console.c`)

`consoleintr` runs under the console lock for all characters it is handed, and
`consoleread` runs under it except while it sleeps.  So a step of the system is one
call of `consoleintr`, or one call of `consoleread` from where it starts or is woken
to where it returns or sleeps again.  Any number of processes may be inside
`consoleread`.

The ring has three counters of 32 bits.  From `r` to `w` are the characters of
finished lines, from `w` to `e` those of the line being edited.  `committed` and
`delivered` are the characters that `w` has passed and the bytes that were stored
into readers' buffers, in order.

The characters echoed to the screen are left out.
-/

namespace Xv6

/-- `INPUT_BUF`. -/
def inputBuf : Nat := 128

/-- `struct { ... } input`. -/
structure Input where
  buf : Nat → Byte
  /-- Read index. -/
  r : Word
  /-- Write index. -/
  w : Word
  /-- Edit index. -/
  e : Word

/-- `C(x)`, the code of a control character. -/
def ctrl (x : Char) : Byte := BitVec.ofNat 8 (x.toNat - '@'.toNat)

/-- `'\n'`. -/
def lineEnd : Byte := 10#8

namespace Input

/-- The loop of `C('U')`: kill the line. -/
def killLine (i : Input) : Input :=
  if i.e ≠ i.w ∧ i.buf ((i.e - 1#32).toNat % inputBuf) ≠ lineEnd then
    killLine { i with e := i.e - 1#32 }
  else i
termination_by (i.e - i.w).toNat
decreasing_by
  next h =>
    have := h.1
    bv_omega

/-- `C('H')` and `'\x7f'`: backspace. -/
def backspace (i : Input) : Input := if i.e ≠ i.w then { i with e := i.e - 1#32 } else i

/-- Two states of the ring that differ at most in the edit index. -/
def SameLines (i i' : Input) : Prop := i'.buf = i.buf ∧ i'.r = i.r ∧ i'.w = i.w

theorem backspace_sameLines (i : Input) : i.SameLines i.backspace := by
  rw [backspace]
  split
  · exact ⟨rfl, rfl, rfl⟩
  · exact ⟨rfl, rfl, rfl⟩

theorem killLine_sameLines (i : Input) : i.SameLines i.killLine := by
  fun_induction killLine i with
  | case1 i _ ih => exact ih
  | case2 i _ => exact ⟨rfl, rfl, rfl⟩

/-- `input.buf[input.e++ % INPUT_BUF] = c` -/
def put (i : Input) (c : Byte) : Input :=
  { i with buf := Function.update i.buf (i.e.toNat % inputBuf) c, e := i.e + 1#32 }

end Input

/-- How a section of `consoleread` ends: with −1, asleep, or with `n` of the bytes
asked for still missing. -/
inductive ReadEnd where
  | failed
  | slept (n : Nat)
  | done (n : Nat)
deriving DecidableEq, Repr

/-- The loop of `consoleread` with `n` bytes to go.  Returns the bytes it stored. -/
def Input.readLoop (killed : Bool) (target : Nat) : Nat → Input → Input × List Byte × ReadEnd
  | 0, i => (i, [], .done 0)
  | n + 1, i =>
    if i.r = i.w then (i, [], if killed then .failed else .slept (n + 1))
    else
      let c := i.buf (i.r.toNat % inputBuf)
      let i := { i with r := i.r + 1#32 }
      if c = ctrl 'D' then
        -- saved for the next call, so that it returns 0
        (if n + 1 < target then { i with r := i.r - 1#32 } else i, [], .done (n + 1))
      else if c = lineEnd then (i, [c], .done n)
      else
        let t := readLoop killed target n i
        (t.1, c :: t.2.1, t.2.2)

/-! ## The system -/

/-- What a process is doing with the console. -/
inductive Reader where
  | idle
  /-- Asleep in `consoleread`, with `n` of `target` bytes to go. -/
  | reading (n target : Nat) (awake : Bool)

/-- `wakeup(&input.r)` -/
def Reader.wake : Reader → Reader
  | .reading n target _ => .reading n target true
  | j => j

/-- Whether a process inside a call may go on. -/
def Reader.awake : Reader → Bool
  | .idle => false
  | .reading _ _ awake => awake

structure ConsSys where
  input : Input
  job : Nat → Reader
  killed : Nat → Bool
  committed : List Byte
  delivered : List Byte

namespace ConsSys

/-- `input.w = input.e; wakeup(&input.r);` -/
def commit (s : ConsSys) : ConsSys :=
  { s with input := { s.input with w := s.input.e }
           committed := s.committed ++ Ring.contents inputBuf s.input.buf s.input.w s.input.e
           job := fun t => (s.job t).wake }

/-- The body of the loop of `consoleintr`.  `C('P')` lists the processes when the
loop is over. -/
def key (s : ConsSys) (c : Byte) : ConsSys :=
  if c = ctrl 'P' then s
  else if c = ctrl 'U' then { s with input := s.input.killLine }
  else if c = ctrl 'H' ∨ c = 0x7f#8 then { s with input := s.input.backspace }
  else if c ≠ 0#8 ∧ s.input.e - s.input.r < BitVec.ofNat 32 inputBuf then
    let c := if c = 13#8 then lineEnd else c
    let s := { s with input := s.input.put c }
    if c = lineEnd ∨ c = ctrl 'D' ∨ s.input.e = s.input.r + BitVec.ofNat 32 inputBuf then s.commit
    else s
  else s

def consoleintr (s : ConsSys) (cs : List Byte) : ConsSys := cs.foldl key s

/-- Process `t` in `consoleread`, with `n` of `target` bytes to go. -/
def consoleread (s : ConsSys) (t n target : Nat) : ConsSys :=
  let res := s.input.readLoop (s.killed t) target n
  let j := match res.2.2 with
    | .slept n => Reader.reading n target false
    | _ => .idle
  { s with input := res.1, delivered := s.delivered ++ res.2.1, job := Function.update s.job t j }

/-- Process `t` goes on after a sleep. -/
def resume (s : ConsSys) (t : Nat) : ConsSys :=
  match s.job t with
  | .idle => s
  | .reading n target _ => s.consoleread t n target

end ConsSys

inductive ConsEvent where
  /-- `consoleintr` is handed some characters. -/
  | intr (cs : List Byte)
  /-- Process `t` calls `consoleread` for `n` bytes. -/
  | read (t n : Nat)
  /-- Process `t`, woken, goes on. -/
  | resume (t : Nat)
  | kill (t : Nat)

def ConsEvent.enabled (s : ConsSys) : ConsEvent → Prop
  | .intr _ => True
  | .read t _ => s.job t = .idle
  | .resume t => (s.job t).awake = true
  | .kill _ => True

def ConsEvent.run (s : ConsSys) : ConsEvent → ConsSys
  | .intr cs => s.consoleintr cs
  | .read t n => s.consoleread t n n
  | .resume t => s.resume t
  | .kill t =>
    { s with killed := Function.update s.killed t true
             job := Function.update s.job t (s.job t).wake }

def ConsStep (s : ConsSys) (e : ConsEvent) (s' : ConsSys) : Prop := e.enabled s ∧ s' = e.run s

/-- The console as it is when the kernel starts. -/
structure ConsSys.Fresh (s : ConsSys) : Prop where
  r : s.input.r = 0#32
  w : s.input.w = 0#32
  e : s.input.e = 0#32
  job : ∀ t, s.job t = .idle
  committed : s.committed = []
  delivered : s.delivered = []

/-! ## The three parts of the ring -/

theorem inputBuf_dvd : inputBuf ∣ 2 ^ 32 := by decide

theorem inputBuf_lt : inputBuf < 2 ^ 32 := by decide

/-- The ring holds the characters of finished lines and those of the line being
edited. -/
structure Input.Holds (i : Input) (pending edit : List Byte) : Prop where
  ring : Ring.Holds inputBuf i.buf i.r i.e (pending ++ edit)
  line : (i.w - i.r).toNat = pending.length

namespace Input.Holds

variable {i : Input} {pending edit : List Byte}

section

variable (h : i.Holds pending edit)
include h

theorem finished : Ring.Holds inputBuf i.buf i.r i.w pending where
  length := h.line
  room := by
    have := h.ring.room
    rw [List.length_append] at this
    omega
  get := by
    intro k hk
    have hlen : (pending ++ edit).length = pending.length + edit.length := List.length_append
    rw [h.ring.get k (by omega), List.getElem_append_left hk]

theorem edited : Ring.Holds inputBuf i.buf i.w i.e edit :=
  h.ring.drop inputBuf_dvd h.line

/-- There is nothing to edit when the edit index is at the write index. -/
theorem edit_nil_iff : i.e = i.w ↔ edit = [] := by
  rw [eq_comm]
  exact h.edited.empty_iff

theorem backspace :
    ∃ rest, rest <+: edit ∧ i.backspace.Holds pending rest := by
  rw [Input.backspace]
  split
  · next hne =>
    have hsome : edit ≠ [] := fun hnil => hne (h.edit_nil_iff.mpr hnil)
    obtain ⟨rest, c, rfl⟩ : ∃ rest c, edit = rest ++ [c] :=
      ⟨_, _, (List.dropLast_append_getLast hsome).symm⟩
    have hring := h.ring
    rw [← List.append_assoc] at hring
    exact ⟨rest, List.prefix_append _ _, hring.unpush inputBuf_lt, h.line⟩
  · exact ⟨edit, List.prefix_rfl, h⟩

theorem killLine :
    ∃ rest, rest <+: edit ∧ i.killLine.Holds pending rest := by
  fun_induction Input.killLine i generalizing edit with
  | case1 i hkill ih =>
    -- a round of the loop is a backspace
    obtain ⟨rest, hrest, hback⟩ := h.backspace
    rw [Input.backspace, if_pos hkill.1] at hback
    obtain ⟨rest', hrest', hdone⟩ := ih hback
    exact ⟨rest', hrest'.trans hrest, hdone⟩
  | case2 i hkill => exact ⟨edit, List.prefix_rfl, h⟩

theorem put (c : Byte) (hroom : (i.e - i.r).toNat < inputBuf) :
    (i.put c).Holds pending (edit ++ [c]) := by
  refine ⟨?_, h.line⟩
  rw [← List.append_assoc]
  exact h.ring.push inputBuf_dvd inputBuf_lt (by rwa [← h.ring.length]) c

end

/-- What is read comes off the front of the finished lines, a `^D` that ends the
call as the last of it or left where it is. -/
theorem readLoop (killed : Bool) (target n : Nat) (h : i.Holds pending edit) :
    ∃ taken rest, pending = taken ++ rest ∧ (i.readLoop killed target n).1.Holds rest edit ∧
      (i.readLoop killed target n).2.1 = taken.filter (· ≠ ctrl 'D') := by
  induction n generalizing i pending with
  | zero => exact ⟨[], pending, rfl, h, rfl⟩
  | succ n ih =>
    rw [Input.readLoop]
    split
    · exact ⟨[], pending, rfl, h, rfl⟩
    · next hne =>
      cases pending with
      | nil => exact absurd (h.finished.empty_iff.mpr rfl) hne
      | cons c pending =>
        obtain ⟨hc, hpop⟩ := Ring.Holds.pop h.ring inputBuf_dvd inputBuf_lt
        have hline := (Ring.Holds.pop h.finished inputBuf_dvd inputBuf_lt).2.length
        have hnext : Input.Holds { i with r := i.r + 1#32 } pending edit := ⟨hpop, hline⟩
        simp only [hc]
        split
        · next hd =>
          split
          · exact ⟨[], c :: pending, rfl, by simpa using h, rfl⟩
          · exact ⟨[c], pending, rfl, hnext, by simp [hd]⟩
        · next hd =>
          split
          · exact ⟨[c], pending, rfl, hnext, by simp [hd]⟩
          · obtain ⟨taken, rest, rfl, hrest, hout⟩ := ih hnext
            exact ⟨c :: taken, rest, rfl, hrest, by simp [hd, hout]⟩

end Input.Holds

/-! ## Runs -/

/-- What `w` has passed is what was taken off the ring, followed by what is still
there.  The bytes delivered are those taken, without each `^D`. -/
def ConsSys.InOrder (s : ConsSys) : Prop :=
  ∃ taken pending edit, s.committed = taken ++ pending ∧
    s.delivered = taken.filter (· ≠ ctrl 'D') ∧ s.input.Holds pending edit

namespace ConsSys.InOrder

variable {s s' : ConsSys}

section

variable (h : s.InOrder)
include h

theorem commit : s.commit.InOrder := by
  obtain ⟨taken, pending, edit, hcomm, hdel, hholds⟩ := h
  refine ⟨taken, pending ++ edit, [], ?_, hdel, ?_⟩
  · rw [ConsSys.commit, hholds.edited.contents_eq, hcomm, List.append_assoc]
  · refine ⟨?_, hholds.ring.length⟩
    rw [List.append_nil]
    exact hholds.ring

theorem key (c : Byte) : (s.key c).InOrder := by
  obtain ⟨taken, pending, edit, hcomm, hdel, hholds⟩ := h
  rw [ConsSys.key]
  split
  · exact ⟨taken, pending, edit, hcomm, hdel, hholds⟩
  · split
    · obtain ⟨rest, -, hrest⟩ := hholds.killLine
      exact ⟨taken, pending, rest, hcomm, hdel, hrest⟩
    · split
      · obtain ⟨rest, -, hrest⟩ := hholds.backspace
        exact ⟨taken, pending, rest, hcomm, hdel, hrest⟩
      · split
        · next hroom =>
          dsimp only
          generalize (if c = 13#8 then lineEnd else c) = c
          have hin : InOrder { s with input := s.input.put c } :=
            ⟨taken, pending, _, hcomm, hdel, hholds.put c hroom.2⟩
          split
          · exact hin.commit
          · exact hin
        · exact ⟨taken, pending, edit, hcomm, hdel, hholds⟩

theorem consoleintr (cs : List Byte) : (s.consoleintr cs).InOrder := by
  induction cs generalizing s with
  | nil => exact h
  | cons c cs ih => exact ih (h.key c)

theorem consoleread (t n target : Nat) : (s.consoleread t n target).InOrder := by
  obtain ⟨taken, pending, edit, hcomm, hdel, hholds⟩ := h
  obtain ⟨more, rest, rfl, hrest, hout⟩ := hholds.readLoop (s.killed t) target n
  refine ⟨taken ++ more, rest, edit, ?_, ?_, hrest⟩
  · rw [List.append_assoc]
    exact hcomm
  · rw [ConsSys.consoleread, List.filter_append, ← hdel, ← hout]

theorem step {e : ConsEvent} (hstep : ConsStep s e s') : s'.InOrder := by
  obtain ⟨-, rfl⟩ := hstep
  cases e with
  | intr cs => exact h.consoleintr cs
  | read t n => exact h.consoleread t n n
  | resume t =>
    rw [ConsEvent.run, ConsSys.resume]
    split
    · exact h
    · exact h.consoleread ..
  | kill t => exact h

end

end ConsSys.InOrder

/-- A character that edits the line. -/
def IsEdit (c : Byte) : Prop := c = ctrl 'U' ∨ c = ctrl 'H' ∨ c = 0x7f#8

/-- Editing moves the edit index back, not beyond `w`. -/
theorem ConsSys.InOrder.edit {s : ConsSys} {c : Byte} (h : s.InOrder) (hc : IsEdit c) :
    s.input.SameLines (s.key c).input ∧ (s.key c).committed = s.committed ∧
      ((s.key c).input.e - s.input.w).toNat ≤ (s.input.e - s.input.w).toNat := by
  obtain ⟨-, pending, edit, -, -, hholds⟩ := h
  have hback : s.input.SameLines s.input.backspace ∧
      (s.input.backspace.e - s.input.w).toNat ≤ (s.input.e - s.input.w).toNat := by
    obtain ⟨rest, hrest, hdone⟩ := hholds.backspace
    have hsame := s.input.backspace_sameLines
    have hlen := hdone.edited.length
    rw [hsame.2.2] at hlen
    refine ⟨hsame, ?_⟩
    rw [hlen, hholds.edited.length]
    exact hrest.length_le
  rcases hc with rfl | rfl | rfl
  · obtain ⟨rest, hrest, hdone⟩ := hholds.killLine
    have hsame := s.input.killLine_sameLines
    have hlen := hdone.edited.length
    rw [hsame.2.2] at hlen
    refine ⟨hsame, rfl, ?_⟩
    show (s.input.killLine.e - s.input.w).toNat ≤ _
    rw [hlen, hholds.edited.length]
    exact hrest.length_le
  · exact ⟨hback.1, rfl, hback.2⟩
  · exact ⟨hback.1, rfl, hback.2⟩

/-- In every run of `consoleintr` and `consoleread` the three indices are in order
and at most the size of the buffer apart.  Editing leaves what is before `w` alone.
The bytes delivered are the committed characters taken so far without each `^D`,
and the other committed characters are in the ring. -/
theorem console_discipline {s0 s : ConsSys} {es : List ConsEvent} (h0 : s0.Fresh)
    (hrun : Trace.Run ConsStep s0 es s) :
    ((s.input.w - s.input.r).toNat ≤ (s.input.e - s.input.r).toNat ∧
      (s.input.e - s.input.r).toNat ≤ inputBuf) ∧
    (∀ c, IsEdit c → s.input.SameLines (s.key c).input ∧ (s.key c).committed = s.committed ∧
      ((s.key c).input.e - s.input.w).toNat ≤ (s.input.e - s.input.w).toNat) ∧
    s.delivered <+: s.committed.filter (· ≠ ctrl 'D') ∧
    ∃ taken, s.delivered = taken.filter (· ≠ ctrl 'D') ∧
      s.committed = taken ++ Ring.contents inputBuf s.input.buf s.input.r s.input.w := by
  have hstart : s0.InOrder := by
    refine ⟨[], [], [], h0.committed, h0.delivered, ?_, ?_⟩
    · rw [h0.r, h0.e]
      exact Ring.Holds.empty ..
    · rw [h0.w, h0.r]
      rfl
  have hin := hrun.invariant hstart fun _ _ _ h hs => h.step hs
  refine ⟨?_, fun c hc => hin.edit hc, ?_⟩
  all_goals obtain ⟨taken, pending, edit, hcomm, hdel, hholds⟩ := hin
  · rw [hholds.line, hholds.ring.length]
    exact ⟨by simp, hholds.ring.room⟩
  · rw [hholds.finished.contents_eq]
    refine ⟨?_, taken, hdel, hcomm⟩
    rw [hcomm, hdel, List.filter_append]
    exact List.prefix_append _ _

/-- The console when the kernel starts. -/
def freshCons : ConsSys :=
  { input := ⟨fun _ => 0#8, 0#32, 0#32, 0#32⟩, job := fun _ => .idle, killed := fun _ => false
    committed := [], delivered := [] }

/-- A reader waits, two characters and a `^D` come in after a third was erased, and
the reader takes the two.  The `^D` stays for the next call. -/
theorem console_discipline_eof : ∃ s, Trace.Run ConsStep freshCons
    [.read 1 5, .intr [0x61#8, 0x62#8, 0x63#8, ctrl 'H', ctrl 'D'], .resume 1] s ∧
    s.delivered = [0x61#8, 0x62#8] ∧ s.committed = [0x61#8, 0x62#8, ctrl 'D'] ∧
    s.delivered <+: s.committed.filter (· ≠ ctrl 'D') := by
  have hrun : Trace.Run ConsStep freshCons
      ([] ++ [.read 1 5] ++ [.intr [0x61#8, 0x62#8, 0x63#8, ctrl 'H', ctrl 'D']] ++ [.resume 1]) _ :=
    .snoc (.snoc (.snoc .nil ⟨rfl, rfl⟩) ⟨trivial, rfl⟩) ⟨rfl, rfl⟩
  exact ⟨_, hrun, by decide, by decide,
    (console_discipline ⟨rfl, rfl, rfl, fun _ => rfl, rfl, rfl⟩ hrun).2.2.1⟩

end Xv6
