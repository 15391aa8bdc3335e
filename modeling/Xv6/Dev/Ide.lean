import Xv6.Lib.Chain
import Xv6.Lib.Run
import Xv6.Machine.Vm

/-!
# The queue of disk requests (`ide.c`)

`iderw` runs under the lock of the queue except while it sleeps, and `ideintr` runs
under it whole.  So a step of the system is one interrupt, or one call of `iderw` from
where it starts or is woken to where it returns or sleeps.  Processes take and
release the locks of buffers, and change a buffer whose lock they hold, while they
are not inside `iderw`.

The queue is a linked list through the buffers, and the buffer at its head is the
one the disk is working on.  `interrupts` counts the interrupts that are still to
come: each `idestart` causes one.  `submitted`, `started` and `completed` list the
buffers of the requests in the order in which these things happened to them.

The contents of buffers and the registers of the disk are left out.
-/

namespace Xv6

open Chain Function

/-- `NBUF`. -/
def nbuf : Nat := 30

/-- `FSSIZE`. -/
def fssize : Nat := 1000

/-- `struct buf`, as far as the disk driver reads it. -/
structure Buf where
  /-- `B_VALID`. -/
  valid : Bool
  /-- `B_DIRTY`. -/
  dirty : Bool
  dev : Nat
  blockno : Nat
  /-- The process that holds `lock`. -/
  lock : Option Nat

/-- `(b->flags & (B_VALID|B_DIRTY)) == B_VALID` -/
def Buf.synced (b : Buf) : Bool := b.valid && !b.dirty

/-- What a process is doing with the disk. -/
inductive DiskJob where
  | idle
  /-- Asleep in `iderw(b)`, for the request with number `k`. -/
  | waiting (b k : Nat) (awake : Bool)
deriving DecidableEq, Repr

/-- Whether a process inside a call may go on. -/
def DiskJob.awake : DiskJob → Bool
  | .idle => false
  | .waiting _ _ awake => awake

/-- `wakeup(b)` -/
def DiskJob.wake (b : Nat) : DiskJob → DiskJob
  | .waiting b' k awake => .waiting b' k (awake || b' == b)
  | j => j

/-- `kill` makes a sleeping process runnable. -/
def DiskJob.kill : DiskJob → DiskJob
  | .waiting b k _ => .waiting b k true
  | j => j

/-- The buffer and the number of the request a process waits for. -/
def DiskJob.request : DiskJob → Option (Nat × Nat)
  | .idle => none
  | .waiting b k _ => some (b, k)

@[simp] theorem DiskJob.request_wake (j : DiskJob) (b : Nat) : (j.wake b).request = j.request := by
  cases j <;> rfl

@[simp] theorem DiskJob.request_kill (j : DiskJob) : j.kill.request = j.request := by
  cases j <;> rfl

/-- Buffers are numbered from 1, and 0 is the null pointer. -/
structure IdeSys where
  buf : Nat → Buf
  idequeue : Nat
  qnext : Nat → Nat
  havedisk1 : Bool
  job : Nat → DiskJob
  interrupts : Nat
  submitted : List Nat
  started : List Nat
  completed : List Nat

namespace IdeSys

/-- A buffer rewritten. -/
def setBuf (s : IdeSys) (b : Nat) (x : Buf) : IdeSys :=
  { s with buf := Function.update s.buf b x }

def setJob (s : IdeSys) (t : Nat) (j : DiskJob) : IdeSys :=
  { s with job := Function.update s.job t j }

@[simp] theorem setBuf_self (s : IdeSys) (b : Nat) (x : Buf) : (s.setBuf b x).buf b = x :=
  update_self ..

theorem setBuf_ne (s : IdeSys) {b c : Nat} (x : Buf) (h : c ≠ b) :
    (s.setBuf b x).buf c = s.buf c := update_of_ne h ..

@[simp] theorem setJob_self (s : IdeSys) (t : Nat) (j : DiskJob) : (s.setJob t j).job t = j :=
  update_self ..

theorem setJob_ne (s : IdeSys) {t u : Nat} (j : DiskJob) (h : u ≠ t) :
    (s.setJob t j).job u = s.job u := update_of_ne h ..

/-- What a loop of `iderw` that does not end is reported as. -/
def endless : Fault := .panic "iderw: no end of the queue"

/-- `idestart`: panics, or starts the request and thereby causes one interrupt. -/
def idestart (s : IdeSys) (b : Nat) : Except Fault IdeSys :=
  if b = 0 then .error (.panic "idestart")
  else if fssize ≤ (s.buf b).blockno then .error (.panic "incorrect blockno")
  else .ok { s with interrupts := s.interrupts + 1, started := s.started ++ [b] }

/-- `*pp`, where `pp` is the address of `idequeue` or of the link of a buffer. -/
def deref (s : IdeSys) : Option Nat → Nat
  | none => s.idequeue
  | some x => s.qnext x

/-- `*pp = b` -/
def assign (s : IdeSys) (pp : Option Nat) (b : Nat) : IdeSys :=
  { s with idequeue := match pp with
             | none => b
             | some _ => s.idequeue
           qnext := match pp with
             | none => s.qnext
             | some x => Function.update s.qnext x b }

/-- `for(pp=&idequeue; *pp; pp=&(*pp)->qnext) ;` from `pp` on, for at most as many
rounds as given. -/
def findEnd (s : IdeSys) : Nat → Option Nat → Option (Option Nat)
  | 0, _ => none
  | rounds + 1, pp => if s.deref pp = 0 then some pp else findEnd s rounds (some (s.deref pp))

/-- The loop at the end of `iderw`: sleep until the request is finished. -/
def iderwWait (s : IdeSys) (t b k : Nat) : IdeSys :=
  s.setJob t (if (s.buf b).synced then .idle else .waiting b k false)

/-- `iderw(b)` called by process `t`, up to its first sleep. -/
def iderw (s : IdeSys) (t b : Nat) : Except Fault IdeSys :=
  if (s.buf b).lock ≠ some t then .error (.panic "iderw: buf not locked")
  else if (s.buf b).synced then .error (.panic "iderw: nothing to do")
  else if (s.buf b).dev ≠ 0 ∧ s.havedisk1 = false then
    .error (.panic "iderw: ide disk 1 not present")
  else
    let s := { s with qnext := Function.update s.qnext b 0 }
    match s.findEnd (nbuf + 1) none with
    | none => .error endless
    | some pp => do
      let s := { s.assign pp b with submitted := s.submitted ++ [b] }
      let s ← if s.idequeue = b then s.idestart b else pure s
      pure (s.iderwWait t b (s.submitted.length - 1))

/-- `ideintr` -/
def ideintr (s : IdeSys) : Except Fault IdeSys :=
  let s := { s with interrupts := s.interrupts - 1 }
  if s.idequeue = 0 then .ok s
  else
    let b := s.idequeue
    let done : Buf := { s.buf b with valid := true, dirty := false }
    let s : IdeSys := { s.setBuf b done with idequeue := s.qnext b
                                             job := fun t => (s.job t).wake b
                                             completed := s.completed ++ [b] }
    if s.idequeue ≠ 0 then s.idestart s.idequeue else .ok s

/-- Process `t` goes on after a sleep. -/
def resume (s : IdeSys) (t : Nat) : IdeSys :=
  match s.job t with
  | .idle => s
  | .waiting b k _ => s.iderwWait t b k

end IdeSys

inductive IdeEvent where
  /-- Process `t` calls `iderw(b)`. -/
  | submit (t b : Nat)
  /-- The disk interrupts. -/
  | intr
  /-- Process `t`, woken, goes on. -/
  | resume (t : Nat)
  | kill (t : Nat)
  /-- `acquiresleep(&b->lock)` -/
  | acquire (t b : Nat)
  /-- `releasesleep(&b->lock)` -/
  | release (t b : Nat)
  /-- Process `t` changes a buffer whose lock it holds. -/
  | modify (t b : Nat) (valid dirty : Bool)
  /-- `bget` takes a buffer that nobody uses for another block. -/
  | recycle (b dev blockno : Nat)

/-- A buffer of the cache. -/
def IsBuf (b : Nat) : Prop := 0 < b ∧ b ≤ nbuf

def IdeEvent.enabled (s : IdeSys) : IdeEvent → Prop
  | .submit t b => IsBuf b ∧ s.job t = .idle ∧ (s.buf b).lock = some t
  | .intr => 0 < s.interrupts
  | .resume t => (s.job t).awake = true
  | .kill _ => True
  | .acquire t b => s.job t = .idle ∧ (s.buf b).lock = none
  | .release t b => s.job t = .idle ∧ (s.buf b).lock = some t
  | .modify t b _ _ => s.job t = .idle ∧ (s.buf b).lock = some t
  | .recycle b _ _ => (s.buf b).lock = none

def IdeEvent.run (s : IdeSys) : IdeEvent → Except Fault IdeSys
  | .submit t b => s.iderw t b
  | .intr => s.ideintr
  | .resume t => .ok (s.resume t)
  | .kill t => .ok (s.setJob t (s.job t).kill)
  | .acquire t b => .ok (s.setBuf b { s.buf b with lock := some t })
  | .release _ b => .ok (s.setBuf b { s.buf b with lock := none })
  | .modify _ b valid dirty => .ok (s.setBuf b { s.buf b with valid := valid, dirty := dirty })
  | .recycle b dev blockno =>
    .ok (s.setBuf b { s.buf b with valid := false, dirty := false, dev := dev, blockno := blockno })

/-- A step that does not panic. -/
def IdeStep (s : IdeSys) (e : IdeEvent) (s' : IdeSys) : Prop := e.enabled s ∧ e.run s = .ok s'

/-- The driver when the kernel starts. -/
structure IdeSys.Fresh (s : IdeSys) : Prop where
  idequeue : s.idequeue = 0
  job : ∀ t, s.job t = .idle
  interrupts : s.interrupts = 0
  submitted : s.submitted = []
  started : s.started = []
  completed : s.completed = []

/-! ## The queue -/

/-- The queue is `q`: the requests submitted and not completed, of which the first
has been started.  A process inside `iderw` holds the lock of its buffer, and its
request is in the queue until it is completed. -/
structure IdeSys.Queued (s : IdeSys) (q : List Nat) : Prop where
  chain : Seg s.qnext s.idequeue q 0
  nodup : q.Nodup
  bufs : ∀ b ∈ q, IsBuf b
  submitted : s.submitted = s.completed ++ q
  started : s.started = s.completed ++ q.take 1
  interrupts : s.interrupts = (q.take 1).length
  unsynced : ∀ b ∈ q, (s.buf b).synced = false
  held : ∀ b ∈ q, ∃ t k, (s.job t).request = some (b, k)
  waiting : ∀ t b k, (s.job t).request = some (b, k) →
    (s.buf b).lock = some t ∧ s.submitted[k]? = some b ∧ (b ∈ q ↔ s.completed.length ≤ k)

namespace IdeSys

variable {s s' : IdeSys} {q : List Nat} {t b k : Nat}

/-- The loop of `iderw` stops at the link of the last buffer. -/
theorem findEnd_eq {rounds : Nat} (pp : Option Nat) (h : Seg s.qnext (s.deref pp) q 0)
    (hnull : 0 ∉ q) (hlen : q.length < rounds) :
    s.findEnd rounds pp = some (q.getLast?.or pp) := by
  induction q generalizing rounds pp with
  | nil =>
    obtain ⟨rounds, rfl⟩ : ∃ n, rounds = n + 1 := Nat.exists_eq_succ_of_ne_zero (by omega)
    rw [findEnd, if_pos (seg_nil.mp h)]
    rfl
  | cons x q ih =>
    obtain ⟨rounds, rfl⟩ : ∃ n, rounds = n + 1 := Nat.exists_eq_succ_of_ne_zero (by omega)
    obtain ⟨hx, hrest⟩ := h
    have hx0 : x ≠ 0 := fun heq => hnull (by simp [heq])
    have hstep := ih (some x) hrest (fun hmem => hnull (by simp [hmem]))
      (Nat.lt_of_succ_lt_succ hlen)
    rw [findEnd, if_neg (by rwa [hx]), hx, hstep]
    cases q with
    | nil => rfl
    | cons y q => simp [List.getLast?_cons]

/-- Linking a buffer at the end of the queue. -/
theorem assign_chain (h : Seg s.qnext s.idequeue q 0) (hnodup : q.Nodup) (hb : b ∉ q)
    (hnext : s.qnext b = 0) :
    Seg (s.assign q.getLast? b).qnext (s.assign q.getLast? b).idequeue (q ++ [b]) 0 := by
  rcases q.eq_nil_or_concat with rfl | ⟨q, l, rfl⟩
  · exact ⟨rfl, hnext⟩
  · rw [List.concat_eq_append] at *
    have hl : l ∉ q := fun hmem => List.disjoint_of_nodup_append hnodup hmem (by simp)
    have hbl : b ≠ l := fun heq => hb (by simp [heq])
    rw [List.getLast?_concat]
    rw [Seg.concat_iff] at h
    refine Seg.concat_iff.mpr ⟨Seg.concat_iff.mpr ⟨(Seg.update hl).mpr h.1, ?_⟩, ?_⟩
    · exact update_self ..
    · exact (update_of_ne hbl ..).trans hnext

section

variable (h : s.Queued q)
include h

theorem Queued.null_notMem : 0 ∉ q := fun hmem =>
  absurd (h.bufs 0 hmem).1 (by decide)

theorem Queued.length_le : q.length ≤ nbuf := by
  have hsub : q ⊆ (List.range nbuf).map (· + 1) := by
    intro b hb
    obtain ⟨hpos, hle⟩ := h.bufs b hb
    exact List.mem_map.mpr ⟨b - 1, List.mem_range.mpr (by omega), by omega⟩
  have := (List.subperm_of_subset h.nodup hsub).length_le
  simpa using this

/-- A buffer that no process is inside `iderw` with is not queued. -/
theorem Queued.notMem (hb : ∀ t k, (s.job t).request ≠ some (b, k)) : b ∉ q := by
  intro hmem
  obtain ⟨t, k, hjob⟩ := h.held b hmem
  exact hb t k hjob

/-- No process is inside `iderw` with a buffer whose lock is free. -/
theorem Queued.free_of_unlocked (hlock : (s.buf b).lock = none) (u k : Nat) :
    (s.job u).request ≠ some (b, k) := by
  intro hjob
  rw [(h.waiting u b k hjob).1] at hlock
  cases hlock

/-- No process is inside `iderw` with a buffer whose lock is held by an idle one. -/
theorem Queued.free_of_idle (hidle : s.job t = .idle)
    (hlock : (s.buf b).lock = some t) (u k : Nat) : (s.job u).request ≠ some (b, k) := by
  intro hjob
  rw [(h.waiting u b k hjob).1, Option.some.injEq] at hlock
  rw [hlock, hidle] at hjob
  cases hjob

/-- A change to a buffer that no process is inside `iderw` with. -/
theorem Queued.setBuf (hb : ∀ t k, (s.job t).request ≠ some (b, k)) (x : Buf) :
    (s.setBuf b x).Queued q :=
  { h with
    unsynced := fun c hc => by
      have hcb : c ≠ b := ne_of_mem_of_not_mem hc (h.notMem hb)
      rw [s.setBuf_ne x hcb]
      exact h.unsynced c hc
    waiting := fun t c k hjob => by
      have hcb : c ≠ b := by
        rintro rfl
        exact hb t k hjob
      rw [s.setBuf_ne x hcb]
      exact h.waiting t c k hjob }

/-- Waking processes up does not change what they wait for. -/
theorem Queued.wake {job : Nat → DiskJob}
    (hjob : ∀ t, (job t).request = (s.job t).request) : { s with job := job }.Queued q :=
  { h with
    held := fun b hb => by simpa only [hjob] using h.held b hb
    waiting := fun t b k ht => h.waiting t b k (by rwa [← hjob t]) }

/-- A process that finds its request finished returns, and otherwise sleeps on. -/
theorem Queued.iderwWait (hjob : (s.job t).request = some (b, k)) :
    (s.iderwWait t b k).Queued q := by
  rw [IdeSys.iderwWait]
  split
  · next hsync =>
    have hb : b ∉ q := fun hmem => by simp [h.unsynced b hmem] at hsync
    refine { h with held := fun c hc => ?_, waiting := fun u c j hu => ?_ }
    · obtain ⟨u, j, hu⟩ := h.held c hc
      have hut : u ≠ t := by
        rintro rfl
        rw [hjob, Option.some.injEq, Prod.mk.injEq] at hu
        exact hb (hu.1 ▸ hc)
      exact ⟨u, j, by rwa [s.setJob_ne _ hut]⟩
    · by_cases hut : u = t
      · rw [hut, s.setJob_self] at hu
        cases hu
      · rw [s.setJob_ne _ hut] at hu
        exact h.waiting u c j hu
  · refine h.wake fun u => ?_
    by_cases hut : u = t
    · rw [hut, update_self, hjob]
      rfl
    · rw [update_of_ne hut]

end

/-! ## Submission -/

/-- The memory of the driver after `b` is linked at the end of the queue. -/
def linked (s : IdeSys) (q : List Nat) (b : Nat) : IdeSys :=
  let s := { s with qnext := Function.update s.qnext b 0 }
  { s.assign q.getLast? b with submitted := s.submitted ++ [b] }

/-- The loop of `iderw` ends, and `iderw` then links the buffer and starts it if it
is the first. -/
theorem Queued.iderw_eq (h : s.Queued q) (hb : b ∉ q) (hlock : (s.buf b).lock = some t)
    (hsync : (s.buf b).synced = false) (hdev : ¬ ((s.buf b).dev ≠ 0 ∧ s.havedisk1 = false)) :
    s.iderw t b = (do
      let s' ← if (s.linked q b).idequeue = b then (s.linked q b).idestart b else pure (s.linked q b)
      pure (s'.iderwWait t b (s'.submitted.length - 1))) := by
  have hchain : Seg (Function.update s.qnext b 0) s.idequeue q 0 := (Seg.update hb).mpr h.chain
  have hend := findEnd_eq (s := { s with qnext := Function.update s.qnext b 0 }) none hchain
    h.null_notMem (Nat.lt_succ_of_le h.length_le)
  rw [iderw, if_neg (by simp [hlock]), if_neg (by simp [hsync]), if_neg hdev]
  simp only [hend, Option.or_none]
  rfl

theorem linked_idequeue (h : Seg s.qnext s.idequeue q 0) (hb : b ∉ q) :
    (s.linked q b).idequeue = b ↔ q = [] := by
  rcases q.eq_nil_or_concat with rfl | ⟨q', l, rfl⟩
  · simp [linked, assign]
  · rw [List.concat_eq_append] at *
    have hhead : s.idequeue ∈ q' ++ [l] := by
      cases q' with
      | nil => simp [h.1]
      | cons x q' => simp [h.1]
    simp only [linked, List.getLast?_concat, assign]
    refine iff_of_false (fun heq => hb ?_) (by simp)
    rwa [← heq]

/-- The driver after a request for `b` by process `t`. -/
def queuedUp (s : IdeSys) (q : List Nat) (t b : Nat) : IdeSys :=
  let s' := s.linked q b
  { s' with interrupts := (q ++ [b]).take 1 |>.length
            started := s.completed ++ (q ++ [b]).take 1 }.setJob t
              (.waiting b s.submitted.length false)

theorem iderwWait_sleeps (hsync : (s.buf b).synced = false) :
    s.iderwWait t b k = s.setJob t (.waiting b k false) := by
  rw [iderwWait, hsync]
  rfl

/-- A call of `iderw` that does not panic queues its request and sleeps. -/
theorem Queued.iderw_ok (h : s.Queued q) (hb : b ∉ q) (hlock : (s.buf b).lock = some t)
    (hok : s.iderw t b = .ok s') : (s.buf b).synced = false ∧ s' = s.queuedUp q t b := by
  by_cases hsync : (s.buf b).synced = true
  · simp [iderw, hlock, hsync] at hok
  rw [Bool.not_eq_true] at hsync
  by_cases hdev : (s.buf b).dev ≠ 0 ∧ s.havedisk1 = false
  · simp [iderw, hlock, hsync, hdev] at hok
  refine ⟨hsync, ?_⟩
  rw [h.iderw_eq hb hlock hsync hdev] at hok
  cases q with
  | nil =>
    rw [if_pos ((linked_idequeue h.chain hb).mpr rfl), idestart] at hok
    split at hok
    · cases hok
    · split at hok
      · cases hok
      · obtain rfl := Except.ok.inj hok
        refine (iderwWait_sleeps ?_).trans ?_
        · exact hsync
        have hcount : s.interrupts = 0 := h.interrupts
        have hlog : s.started = s.completed := by simpa using h.started
        simp [queuedUp, linked, assign, hcount, hlog]
  | cons x q =>
    rw [if_neg fun heq => by simpa using (linked_idequeue h.chain hb).mp heq] at hok
    obtain rfl := Except.ok.inj hok
    refine (iderwWait_sleeps ?_).trans ?_
    · exact hsync
    have hcount : s.interrupts = 1 := h.interrupts
    have hlog : s.started = s.completed ++ [x] := h.started
    simp [queuedUp, linked, assign, hcount, hlog]

theorem Queued.queuedUp (h : s.Queued q) (hbuf : IsBuf b) (hidle : s.job t = .idle)
    (hlock : (s.buf b).lock = some t) (hsync : (s.buf b).synced = false) :
    (s.queuedUp q t b).Queued (q ++ [b]) := by
  have hb : b ∉ q := h.notMem (h.free_of_idle hidle hlock)
  have hchain : Seg (Function.update s.qnext b 0) s.idequeue q 0 := (Seg.update hb).mpr h.chain
  have hjob (u : Nat) (hu : u ≠ t) : ((s.queuedUp q t b).job u).request = (s.job u).request := by
    rw [IdeSys.queuedUp, setJob_ne _ _ hu]
    rfl
  have hself : ((s.queuedUp q t b).job t).request = some (b, s.submitted.length) := by
    rw [IdeSys.queuedUp, setJob_self]
    rfl
  have hidle' : (s.job t).request = none := by rw [hidle]; rfl
  refine ⟨?_, ?_, ?_, ?_, rfl, rfl, ?_, ?_, ?_⟩
  · exact assign_chain (s := { s with qnext := Function.update s.qnext b 0 }) hchain h.nodup hb
      (update_self ..)
  · exact List.Nodup.append h.nodup (by simp) (by simpa using hb)
  · simpa [or_imp, forall_and] using ⟨h.bufs, hbuf⟩
  · show s.submitted ++ [b] = s.completed ++ (q ++ [b])
    rw [h.submitted, List.append_assoc]
  · simpa [or_imp, forall_and] using ⟨h.unsynced, hsync⟩
  · intro c hc
    rcases List.mem_append.mp hc with hc | hc
    · obtain ⟨u, k, hu⟩ := h.held c hc
      have hut : u ≠ t := by
        rintro rfl
        rw [hidle'] at hu
        cases hu
      exact ⟨u, k, by rwa [hjob u hut]⟩
    · rw [List.mem_singleton.mp hc]
      exact ⟨t, _, hself⟩
  · intro u c k hu
    have hlen : s.submitted.length = s.completed.length + q.length := by
      rw [h.submitted, List.length_append]
    show (s.buf c).lock = some u ∧ (s.submitted ++ [b])[k]? = some c ∧
      (c ∈ q ++ [b] ↔ s.completed.length ≤ k)
    by_cases hut : u = t
    · rw [hut, hself, Option.some.injEq, Prod.mk.injEq] at hu
      obtain ⟨rfl, rfl⟩ := hu
      exact ⟨hut ▸ hlock, by simp, by simp; omega⟩
    · rw [hjob u hut] at hu
      obtain ⟨hl, hk, hiff⟩ := h.waiting u c k hu
      have hcb : c ≠ b := by
        rintro rfl
        exact hut (Option.some.inj (hl.symm.trans hlock))
      refine ⟨hl, ?_, by simpa [hcb] using hiff⟩
      rw [List.getElem?_append_left (List.getElem?_eq_some_iff.mp hk).1]
      exact hk

/-! ## Interrupts -/

/-- The driver after the request at the head is completed. -/
def served (s : IdeSys) (b : Nat) (rest : List Nat) : IdeSys :=
  { s.setBuf b { s.buf b with valid := true, dirty := false } with
    idequeue := s.qnext b
    job := fun t => (s.job t).wake b
    interrupts := (rest.take 1).length
    completed := s.completed ++ [b]
    started := s.completed ++ [b] ++ rest.take 1 }

/-- An interrupt completes the request at the head and starts the next one. -/
theorem Queued.ideintr_ok (h : s.Queued q) (hint : 0 < s.interrupts) (hok : s.ideintr = .ok s') :
    ∃ b rest, q = b :: rest ∧ s' = s.served b rest := by
  obtain ⟨b, rest, rfl⟩ : ∃ b rest, q = b :: rest := by
    cases q with
    | nil =>
      have := h.interrupts
      simp at this
      omega
    | cons b rest => exact ⟨b, rest, rfl⟩
  refine ⟨b, rest, rfl, ?_⟩
  have hcount : s.interrupts = 1 := h.interrupts
  have hlog : s.started = s.completed ++ [b] := h.started
  have hhead : s.idequeue = b := h.chain.1
  have hb0 : b ≠ 0 := fun heq => h.null_notMem (by simp [heq])
  have hnext : Seg s.qnext (s.qnext b) rest 0 := h.chain.2
  rw [ideintr] at hok
  simp only [hhead, hb0, if_false] at hok
  cases rest with
  | nil =>
    have hnull : s.qnext b = 0 := hnext
    simp only [hnull, ne_eq, not_true, if_false] at hok
    obtain rfl := Except.ok.inj hok
    simp [IdeSys.served, hnull, hcount, hlog, IdeSys.setBuf]
  | cons c rest =>
    have hc : s.qnext b = c := hnext.1
    have hc0 : c ≠ 0 := fun heq => h.null_notMem (by simp [heq])
    simp only [hc, ne_eq, hc0, not_false_eq_true, if_true, idestart, if_false] at hok
    split at hok
    · cases hok
    · obtain rfl := Except.ok.inj hok
      simp [IdeSys.served, hc, hcount, hlog, IdeSys.setBuf]

theorem Queued.served {rest : List Nat} (h : s.Queued (b :: rest)) : (s.served b rest).Queued rest := by
  have hb : b ∉ rest := (List.nodup_cons.mp h.nodup).1
  have hbuf (c : Nat) (hc : c ≠ b) : (s.served b rest).buf c = s.buf c := setBuf_ne _ _ hc
  have hreq (u : Nat) : ((s.served b rest).job u).request = (s.job u).request :=
    DiskJob.request_wake ..
  have hsub : s.submitted = (s.completed ++ [b]) ++ rest := by
    rw [h.submitted, List.append_assoc]
    rfl
  refine ⟨h.chain.2, (List.nodup_cons.mp h.nodup).2, fun c hc => h.bufs c (by simp [hc]), hsub, rfl,
    rfl, fun c hc => ?_, fun c hc => ?_, fun u c k hu => ?_⟩
  · rw [hbuf c (ne_of_mem_of_not_mem hc hb)]
    exact h.unsynced c (by simp [hc])
  · simp only [hreq]
    exact h.held c (by simp [hc])
  · rw [hreq] at hu
    obtain ⟨hl, hk, hiff⟩ := h.waiting u c k hu
    have hlen : (s.served b rest).completed.length = s.completed.length + 1 := by
      simp [IdeSys.served]
    rw [hlen]
    refine ⟨?_, hk, fun hmem => ?_, fun hle => ?_⟩
    · by_cases hcb : c = b
      · rw [hcb] at hl ⊢
        exact (congrArg Buf.lock (setBuf_self ..)).trans hl
      · rw [hbuf c hcb]
        exact hl
    · have hle := hiff.mp (by simp [hmem])
      rcases Nat.lt_or_eq_of_le hle with hlt | rfl
      · exact hlt
      · rw [h.submitted, List.getElem?_append_right (le_refl _)] at hk
        obtain rfl : b = c := by simpa using hk
        exact absurd hmem hb
    · rw [hsub, List.getElem?_append_right (by simpa using hle)] at hk
      exact List.mem_of_getElem? hk

/-! ## Runs -/

theorem Queued.step {e : IdeEvent} (h : s.Queued q) (hstep : IdeStep s e s') :
    ∃ q', s'.Queued q' := by
  obtain ⟨hen, hrun⟩ := hstep
  cases e with
  | submit t b =>
    obtain ⟨hbuf, hidle, hlock⟩ := hen
    obtain ⟨hsync, rfl⟩ := h.iderw_ok (h.notMem (h.free_of_idle hidle hlock)) hlock hrun
    exact ⟨_, h.queuedUp hbuf hidle hlock hsync⟩
  | intr =>
    obtain ⟨b, rest, rfl, rfl⟩ := h.ideintr_ok hen hrun
    exact ⟨rest, h.served⟩
  | resume t =>
    obtain rfl := Except.ok.inj hrun
    refine ⟨q, ?_⟩
    rw [IdeSys.resume]
    split
    · exact h
    · next b k awake hjob => exact h.iderwWait (by rw [hjob]; rfl)
  | kill t =>
    obtain rfl := Except.ok.inj hrun
    refine ⟨q, h.wake fun u => ?_⟩
    by_cases hut : u = t
    · rw [hut, update_self, DiskJob.request_kill]
    · rw [update_of_ne hut]
  | acquire t b =>
    obtain rfl := Except.ok.inj hrun
    exact ⟨q, h.setBuf (h.free_of_unlocked hen.2) _⟩
  | release t b =>
    obtain rfl := Except.ok.inj hrun
    exact ⟨q, h.setBuf (h.free_of_idle hen.1 hen.2) _⟩
  | modify t b valid dirty =>
    obtain rfl := Except.ok.inj hrun
    exact ⟨q, h.setBuf (h.free_of_idle hen.1 hen.2) _⟩
  | recycle b dev blockno =>
    obtain rfl := Except.ok.inj hrun
    exact ⟨q, h.setBuf (h.free_of_unlocked hen) _⟩

/-- Only a process that goes on itself leaves `iderw`. -/
theorem Queued.request_step {e : IdeEvent} (h : s.Queued q) (hstep : IdeStep s e s')
    (he : e ≠ .resume t) (hjob : (s.job t).request = some (b, k)) :
    (s'.job t).request = some (b, k) := by
  obtain ⟨hen, hrun⟩ := hstep
  cases e with
  | submit u c =>
    obtain ⟨-, hidle, hlock⟩ := hen
    obtain ⟨-, rfl⟩ := h.iderw_ok (h.notMem (h.free_of_idle hidle hlock)) hlock hrun
    have htu : t ≠ u := by
      rintro rfl
      rw [hidle] at hjob
      cases hjob
    rw [IdeSys.queuedUp, setJob_ne _ _ htu]
    exact hjob
  | intr =>
    obtain ⟨c, rest, rfl, rfl⟩ := h.ideintr_ok hen hrun
    exact (DiskJob.request_wake ..).trans hjob
  | resume u =>
    have htu : t ≠ u := by
      rintro rfl
      exact he rfl
    obtain rfl := Except.ok.inj hrun
    rw [IdeSys.resume]
    split
    · exact hjob
    · rw [IdeSys.iderwWait, setJob_ne _ _ htu]
      exact hjob
  | kill u =>
    obtain rfl := Except.ok.inj hrun
    by_cases htu : t = u
    · rw [← htu, setJob_self, DiskJob.request_kill]
      exact hjob
    · rw [setJob_ne _ _ htu]
      exact hjob
  | acquire | release | modify | recycle =>
    obtain rfl := Except.ok.inj hrun
    exact hjob

/-- A step in which a call of `iderw` returns: the request is completed, and the
buffer is valid and not dirty. -/
theorem Queued.returns {e : IdeEvent} {awake : Bool} (h : s.Queued q) (hstep : IdeStep s e s')
    (hjob : s.job t = .waiting b k awake) (hidle : s'.job t = .idle) :
    s.submitted[k]? = some b ∧ k < s.completed.length ∧ (s'.buf b).valid = true ∧
      (s'.buf b).dirty = false := by
  have hreq : (s.job t).request = some (b, k) := by rw [hjob]; rfl
  obtain ⟨-, hk, hiff⟩ := h.waiting t b k hreq
  by_cases he : e = .resume t
  · obtain rfl := Except.ok.inj (he ▸ hstep.2 : (IdeEvent.resume t).run s = .ok s')
    simp only [IdeSys.resume, hjob, IdeSys.iderwWait, setJob_self] at hidle ⊢
    have hsync : (s.buf b).synced = true := by
      by_contra hnot
      rw [if_neg hnot] at hidle
      cases hidle
    have hb : b ∉ q := fun hmem => by simp [h.unsynced b hmem] at hsync
    refine ⟨hk, Nat.lt_of_not_le fun hle => hb (hiff.mpr hle), ?_⟩
    show (s.buf b).valid = true ∧ (s.buf b).dirty = false
    simpa [Buf.synced] using hsync
  · have := h.request_step hstep he hreq
    rw [hidle] at this
    cases this

/-- The loop of `iderw` over the queue ends. -/
theorem Queued.iderw_ends (h : s.Queued q) (hidle : s.job t = .idle)
    (hlock : (s.buf b).lock = some t) : s.iderw t b ≠ .error endless := by
  have hb := h.notMem (h.free_of_idle hidle hlock)
  have hpanic (msg : String) (hmsg : msg ≠ "iderw: no end of the queue") :
      (.error (.panic msg) : Except Fault IdeSys) ≠ .error endless := by
    simpa [endless] using hmsg
  by_cases hsync : (s.buf b).synced = true
  · rw [iderw, if_neg (by simp [hlock]), if_pos hsync]
    exact hpanic _ (by decide)
  by_cases hdev : (s.buf b).dev ≠ 0 ∧ s.havedisk1 = false
  · rw [iderw, if_neg (by simp [hlock]), if_neg hsync, if_pos hdev]
    exact hpanic _ (by decide)
  rw [h.iderw_eq hb hlock (by simpa using hsync) hdev]
  split
  · rw [idestart]
    split
    · exact hpanic _ (by decide)
    · split
      · exact hpanic _ (by decide)
      · nofun
  · nofun

end IdeSys

/-- In every run of submissions and interrupts the queue holds the requests that were
submitted and not completed, each buffer once.  Requests are started and completed in
the order of submission, and each once.  An interrupt changes the flags of the buffer
at the head only.  `iderw` finds the end of the queue, and returns when its own request
is completed and its buffer is valid and not dirty. -/
theorem ide_queue {s0 s : IdeSys} {es : List IdeEvent} (h0 : s0.Fresh)
    (hrun : Trace.Run IdeStep s0 es s) :
    ∃ q, Seg s.qnext s.idequeue q 0 ∧ q.Nodup ∧ s.submitted = s.completed ++ q ∧
      s.started = s.completed ++ q.take 1 ∧ s.interrupts = (q.take 1).length ∧
      (∀ s', IdeStep s .intr s' → ∃ b, q.head? = some b ∧ s'.completed = s.completed ++ [b] ∧
        (s'.buf b).valid = true ∧ (s'.buf b).dirty = false ∧ ∀ c ≠ b, s'.buf c = s.buf c) ∧
      (∀ t b s', IdeStep s (.submit t b) s' → s'.submitted = s.submitted ++ [b] ∧
        s'.job t = .waiting b s.submitted.length false) ∧
      (∀ e s' t b k awake, IdeStep s e s' → s.job t = .waiting b k awake → s'.job t = .idle →
        s.submitted[k]? = some b ∧ k < s.completed.length ∧ (s'.buf b).valid = true ∧
          (s'.buf b).dirty = false) ∧
      ∀ t b, IdeEvent.enabled s (.submit t b) → s.iderw t b ≠ .error IdeSys.endless := by
  have hstart : ∃ q, s0.Queued q := by
    refine ⟨[], h0.idequeue, .nil, nofun, ?_, ?_, h0.interrupts, nofun, nofun, fun t b k ht => ?_⟩
    · rw [h0.submitted, h0.completed]
      rfl
    · rw [h0.started, h0.completed]
      rfl
    · rw [h0.job] at ht
      cases ht
  obtain ⟨q, h⟩ := hrun.invariant (I := fun s => ∃ q, s.Queued q) hstart
    fun _ _ _ ⟨_, hq⟩ hs => hq.step hs
  refine ⟨q, h.chain, h.nodup, h.submitted, h.started, h.interrupts, fun s' hs => ?_,
    fun t b s' hs => ?_, fun e s' t b k awake hs hjob hidle => h.returns hs hjob hidle,
    fun t b hen => h.iderw_ends hen.2.1 hen.2.2⟩
  · obtain ⟨b, rest, rfl, rfl⟩ := h.ideintr_ok hs.1 hs.2
    have hself : (s.served b rest).buf b = { s.buf b with valid := true, dirty := false } :=
      IdeSys.setBuf_self ..
    exact ⟨b, rfl, rfl, by rw [hself], by rw [hself], fun c hc => IdeSys.setBuf_ne _ _ hc⟩
  · obtain ⟨-, hidle, hlock⟩ := hs.1
    obtain ⟨-, rfl⟩ := h.iderw_ok (h.notMem (h.free_of_idle hidle hlock)) hlock hs.2
    exact ⟨rfl, IdeSys.setJob_self ..⟩

/-- The driver when the kernel starts, with buffers that hold nothing yet. -/
def freshIde : IdeSys :=
  { buf := fun _ => ⟨false, false, 0, 7, none⟩, idequeue := 0, qnext := fun _ => 0
    havedisk1 := false, job := fun _ => .idle, interrupts := 0, submitted := [], started := []
    completed := [] }

/-- Two processes each ask for a buffer, and the disk serves the first of them. -/
theorem ide_queue_two : ∃ s, Trace.Run IdeStep freshIde
    [.acquire 1 4, .acquire 2 5, .submit 1 4, .submit 2 5, .intr] s ∧
    s.submitted = [4, 5] ∧ s.started = [4, 5] ∧ s.completed = [4] ∧
    ∃ q, Seg s.qnext s.idequeue q 0 ∧ s.submitted = s.completed ++ q := by
  have hrun : Trace.Run IdeStep freshIde
      ([] ++ [.acquire 1 4] ++ [.acquire 2 5] ++ [.submit 1 4] ++ [.submit 2 5] ++ [.intr]) _ :=
    .snoc (.snoc (.snoc (.snoc (.snoc .nil ⟨⟨rfl, rfl⟩, rfl⟩) ⟨⟨rfl, rfl⟩, rfl⟩)
      ⟨⟨by unfold IsBuf; decide, rfl, rfl⟩, rfl⟩) ⟨⟨by unfold IsBuf; decide, rfl, rfl⟩, rfl⟩)
      ⟨Nat.one_pos, rfl⟩
  obtain ⟨q, hchain, -, hsub, -⟩ :=
    ide_queue ⟨rfl, fun _ => rfl, rfl, rfl, rfl, rfl⟩ hrun
  exact ⟨_, hrun, rfl, rfl, rfl, q, hchain, hsub⟩

end Xv6
