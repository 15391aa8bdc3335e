import Xv6.Lib.Run
import Xv6.Kernel.Boot
import Xv6.Kernel.Fork

/-!
# What a processor runs, and its CR3

In every state between events a processor either is in the scheduler or runs a
process that is `RUNNING`, and no two processors run the same one (`CpuOk`).

CR3 is the directory of the process a processor runs, as long as the process did
not fork since it got the processor (`Loaded`): `fork` returns to the parent with
the child's directory loaded.
-/

namespace Xv6

open Prog

variable {ncpu f g d : Nat} {A : Space} {e : Event} {call : Call} {Q : Unit → Kernel → Prop}
  {F : Fault → Prop}

/-- Each processor's process is running, and on no other processor. -/
structure CpuOk (s : Kernel) : Prop where
  cur : ∀ c p, (s.cpu c).proc = some p → p < nproc ∧ (s.proc p).state = .running
  inj : ∀ c c' p, (s.cpu c).proc = some p → (s.cpu c').proc = some p → c = c'

/-- `c` left `p`, or still runs it. -/
structure Leaves (c p : Nat) (s s' : Kernel) : Prop extends Local c p s s' where
  out : (s'.cpu c).proc = none ∨ ∃ d, At c p d s'

/-- The program ends in a step of `p` on `c`. -/
def Leaving (c p : Nat) {α : Type} (x : K α) : Prop :=
  ∀ s d, At c p d s → wp x (fun _ s' => Leaves c p s s') (fun _ => True) s

section

variable {c p : Nat} {s s' s'' : Kernel} {α β : Type}

theorem Ends.leaves (h : Ends c p d s s') : Leaves c p s s' :=
  ⟨h.toLocal, h.out.imp_right fun ⟨d', h, _⟩ => ⟨d', h⟩⟩

theorem Stays.leaves {b : Bool} (h : Stays b c p d s s') : Leaves c p s s' :=
  ⟨h.toLocal, .inr ⟨d, h.at_⟩⟩

theorem Leaves.trans (h : Leaves c p s s') (h' : Leaves c p s' s'') : Leaves c p s s'' :=
  ⟨h.toLocal.trans h'.toLocal, h'.out⟩

theorem Ends.trans {d' : Nat} (h : Ends c p d s s') (hat : At c p d' s')
    (h' : Ends c p d' s' s'') : Ends c p d s s'' := by
  refine ⟨h.toLocal.trans h'.toLocal, ?_⟩
  rcases h'.out with hnone | ⟨d'', hat'', hcr3⟩
  · exact .inl hnone
  · refine .inr ⟨d'', hat'', fun h0 => hcr3 ?_⟩
    rcases h.out with hnone | ⟨e, hate, he⟩
    · rw [hat.cur] at hnone
      cases hnone
    · rw [he h0, ← hate.pgdir, hat.pgdir]

/-- Processes stay with their processors when one processor's process moves. -/
theorem CpuOk.leaves (h : CpuOk s) (hcur : (s.cpu c).proc = some p) (hl : Leaves c p s s') :
    CpuOk s' := by
  have hback : ∀ c' q, (s'.cpu c').proc = some q → (s.cpu c').proc = some q := by
    intro c' q hq
    by_cases hc : c' = c
    · subst hc
      rcases hl.out with hnone | ⟨d, hat⟩
      · rw [hnone] at hq
        cases hq
      · rw [hcur, ← hq, hat.cur]
    · rwa [hl.cpu c' hc] at hq
  refine ⟨?_, fun c1 c2 q h1 h2 => h.inj c1 c2 q (hback c1 q h1) (hback c2 q h2)⟩
  intro c' q hq
  obtain ⟨hlt, hrun⟩ := h.cur c' q (hback c' q hq)
  refine ⟨hlt, ?_⟩
  by_cases hqp : q = p
  · subst hqp
    obtain rfl := h.inj c' c q (hback c' q hq) hcur
    rcases hl.out with hnone | ⟨d, hat⟩
    · rw [hnone] at hq
      cases hq
    · exact hat.state
  · exact (hl.run q hqp hrun).1

theorem Closing.leaving {x : K α} (h : ∀ d, Closing c p d x) : Leaving c p x :=
  fun s d hs => wp_post (h d s hs) (fun _ _ h => h.leaves)

end

/-! ## Events -/

section

variable [Link] {c p : Nat} {s s' : Kernel}

/-- What may follow a system call. -/
theorem Ends.exitIfKilled (h : Ends c p d s s') :
    wp (Xv6.exitIfKilled c) (fun _ s'' => Ends c p d s s'') (fun _ => True) s' := by
  unfold Xv6.exitIfKilled
  rw [wp_bind, wp_get]
  rcases h.out with hnone | ⟨d', hat, -⟩
  · rw [hnone, wp_pure]
    exact h
  · rw [hat.cur]
    dsimp only
    rw [wp_ite]
    split
    · exact wp_post (closing_exit s' hat) (fun _ _ h2 => h.trans hat h2)
    · rw [wp_pure]
      exact h

omit [Link] in
theorem closing_pure {α β : Type} {x : K α} (h : Closing c p d x) (b : β) :
    Closing c p d (x >>= fun _ => pure b) := by
  intro s hs
  rw [wp_bind]
  refine wp_post (h s hs) ?_
  intro _ s1 h1
  rw [wp_pure]
  exact h1

/-- Every system call but `fork` keeps CR3 right. -/
theorem closing_body (h : call ≠ .fork) : Closing c p d (call.body c) := by
  cases call with
  | fork => exact absurd rfl h
  | exit => exact closing_exit
  | wait => exact closing_pure closing_wait _
  | kill pid => exact closing_pure (calm_kill pid).closing _
  | sbrk n => exact closing_pure (calm_growproc _).closing _
  | exec file argv => exact closing_pure (closing_exec file argv) _
  | wmap addr length flags fd => exact closing_pure (calm_wmap addr length flags fd).closing _
  | wunmap addr => exact closing_pure (calm_sysWunmap addr).closing _

theorem closing_syscall (h : call ≠ .fork) : Closing c p d (syscall c call) := by
  intro s hs
  unfold syscall
  rw [wp_bind, wp_myproc, hs.cur]
  dsimp only
  rw [wp_bind, wp_getProc, wp_ite]
  split
  · exact closing_exit s hs
  · rw [wp_bind]
    exact wp_post (closing_body h s hs) (fun _ _ h1 => h1.exitIfKilled)

theorem leaving_fork : Leaving c p (syscall c .fork) := by
  intro s d hs
  unfold syscall
  rw [wp_bind, wp_myproc, hs.cur]
  dsimp only
  rw [wp_bind, wp_getProc, wp_ite]
  split
  · exact wp_post (closing_exit s hs) (fun _ _ h => h.leaves)
  · rw [wp_bind]
    unfold Call.body
    rw [wp_bind]
    refine wp_post (calm_fork s hs) ?_
    intro _ s1 h1
    rw [wp_pure]
    exact wp_post (Stays.refl h1.at_).ends.exitIfKilled
      (fun _ _ h2 => h1.leaves.trans h2.leaves)

theorem closing_tick : Closing c p d (tick c) := by
  intro s hs
  unfold tick
  rw [wp_bind, wp_myproc, hs.cur]
  dsimp only
  rw [wp_bind, wp_getProc, wp_ite]
  split
  · exact closing_exit s hs
  · unfold yield
    rw [wp_bind, wp_myproc, hs.cur]
    exact closing_leave _ s hs

/-- The process an event is about, if it is one of a running process. -/
def Event.cpu : Event → Nat
  | .sched c _ => c
  | .tick c => c
  | .access c _ _ _ => c
  | .syscall c _ => c

/-- Events that do not load CR3 with another process's directory. -/
def Event.isFork : Event → Bool
  | .syscall _ .fork => true
  | _ => false

def Event.isSched : Event → Bool
  | .sched _ _ => true
  | _ => false

theorem closing_event (hs : e.isSched = false) (hf : e.isFork = false) :
    Closing e.cpu p d e.run := by
  cases e with
  | sched c q => cases hs
  | tick c => exact closing_tick
  | access c va b io => exact closing_access va b io
  | syscall c call =>
    refine closing_syscall ?_
    rintro rfl
    cases hf

theorem leaving_event (hs : e.isSched = false) : Leaving e.cpu p e.run := by
  cases hf : e.isFork with
  | false => exact Closing.leaving fun d => closing_event hs hf
  | true =>
    obtain ⟨c, rfl⟩ : ∃ c, e = .syscall c .fork := by
      unfold Event.isFork at hf
      split at hf
      · exact ⟨_, rfl⟩
      · cases hf
    exact leaving_fork

/-- Where a process goes on after the scheduler picked it. -/
theorem closing_resume (k : Cont) : Closing c p d (resume c p k) := by
  cases k with
  | user => exact (Calm.pure ()).closing
  | yielded => exact fun s hs => (Stays.refl hs).ends.exitIfKilled
  | waiting =>
    refine Calm.bindClosing (.setProc (fun _ => rfl) fun _ => rfl) fun _ => ?_
    intro s hs
    rw [wp_bind]
    refine wp_post (closing_wait s hs) ?_
    rintro (_ | pid) s1 h1
    · rw [wp_pure]
      exact h1
    · exact h1.exitIfKilled

/-- Processor `c` with process `p`, its directory loaded. -/
def Kernel.dispatch (s : Kernel) (c p : Nat) : Kernel :=
  { s with
    cpu := Function.update s.cpu c ⟨some p, (s.proc p).pgdir⟩
    proc := Function.update s.proc p { s.proc p with state := .running } }

theorem wp_sched (hk : F (.panic "switchuvm: no kstack") ∨ (s.proc p).kstack ≠ 0)
    (hd : F (.panic "switchuvm: no pgdir") ∨ (s.proc p).pgdir ≠ 0)
    (h : wp (resume c p (s.proc p).cont) Q F (s.dispatch c p)) : wp (sched c p) Q F s := by
  unfold sched switchuvm
  simp only [wp_bind, wp_modify, wp_getProc, wp_ite, Kernel.setCpu]
  split
  next h0 => exact (wp_throw ..).mpr (hk.resolve_right fun hne => hne h0)
  split
  next h0 => exact (wp_throw ..).mpr (hd.resolve_right fun hne => hne h0)
  simp only [wp_lcr3, wp_setProc, Kernel.setProc, Kernel.setCpu, Function.update_self,
    Function.update_idem]
  exact h

omit [Link] in
theorem at_dispatch (s : Kernel) (c p : Nat) : At c p (s.proc p).pgdir (s.dispatch c p) := by
  constructor <;> simp [Kernel.dispatch]

omit [Link] in
theorem CpuOk.dispatch (h : CpuOk s) (hp : p < nproc) (hrun : (s.proc p).state = .runnable) :
    CpuOk (s.dispatch c p) := by
  have hne : ∀ c' q, (s.cpu c').proc = some q → q ≠ p := by
    rintro c' q hq rfl
    have := (h.cur c' q hq).2
    rw [hrun] at this
    cases this
  constructor
  · intro c' q hq
    by_cases hc : c' = c
    · subst hc
      obtain rfl : p = q := by simpa [Kernel.dispatch] using hq
      exact ⟨hp, (at_dispatch s c' p).state⟩
    · have hq' : (s.cpu c').proc = some q := by simpa [Kernel.dispatch, hc] using hq
      have := h.cur c' q hq'
      simpa [Kernel.dispatch, hne c' q hq'] using this
  · intro c1 c2 q h1 h2
    by_cases hc1 : c1 = c
    · by_cases hc2 : c2 = c
      · rw [hc1, hc2]
      · have hq : p = q := by simpa [Kernel.dispatch, hc1] using h1
        have h2' : (s.cpu c2).proc = some q := by simpa [Kernel.dispatch, hc2] using h2
        exact absurd hq.symm (hne c2 q h2')
    · have h1' : (s.cpu c1).proc = some q := by simpa [Kernel.dispatch, hc1] using h1
      by_cases hc2 : c2 = c
      · have hq : p = q := by simpa [Kernel.dispatch, hc2] using h2
        exact absurd hq.symm (hne c1 q h1')
      · have h2' : (s.cpu c2).proc = some q := by simpa [Kernel.dispatch, hc2] using h2
        exact h.inj c1 c2 q h1' h2'

/-- What the scheduler's choice leaves behind. -/
theorem Step.sched (h : Step ncpu s (.sched c p) s') :
    Ends c p (s.proc p).pgdir (s.dispatch c p) s' :=
  wp_ok (Q := fun _ s' => Ends c p (s.proc p).pgdir (s.dispatch c p) s')
    (wp_sched (F := fun _ => True) (.inl trivial) (.inl trivial)
      (closing_resume _ _ (at_dispatch s c p))) h.2

omit [Link] in
theorem Event.cpu_isSome (hs : e.isSched = false) (h : e.enabled ncpu s) :
    ∃ p, (s.cpu e.cpu).proc = some p := by
  apply Option.isSome_iff_exists.mp
  cases e with
  | sched c p => cases hs
  | tick c => exact h.2
  | access c va b io => exact h.2.1
  | syscall c call => exact h.2

/-- What an event of a running process leaves behind. -/
theorem Step.running (h : Step ncpu s e s') (hs : e.isSched = false) (hok : CpuOk s) :
    ∃ p, (s.cpu e.cpu).proc = some p ∧ Leaves e.cpu p s s' ∧
      (e.isFork = false → Ends e.cpu p (s.proc p).pgdir s s') := by
  obtain ⟨p, hcur⟩ := Event.cpu_isSome hs h.1
  have hat : At e.cpu p (s.proc p).pgdir s := ⟨hcur, (hok.cur _ p hcur).2, rfl⟩
  refine ⟨p, hcur, wp_ok (Q := fun _ s' => Leaves e.cpu p s s') (leaving_event hs s _ hat) h.2, ?_⟩
  intro hf
  exact wp_ok (Q := fun _ s' => Ends e.cpu p (s.proc p).pgdir s s') (closing_event hs hf s hat) h.2

theorem CpuOk.step (h : CpuOk s) (hstep : Step ncpu s e s') : CpuOk s' := by
  cases hs : e.isSched with
  | false =>
    obtain ⟨p, hcur, hl, -⟩ := hstep.running hs h
    exact h.leaves hcur hl
  | true =>
    cases e with
    | sched c p =>
      obtain ⟨-, -, hp, hrun⟩ := hstep.1
      exact (h.dispatch hp hrun).leaves (at_dispatch s c p).cur hstep.sched.leaves
    | tick c => cases hs
    | access c va b io => cases hs
    | syscall c call => cases hs

theorem Booted.cpuOk (h : Booted s A d f g) : CpuOk s := by
  constructor
  · intro c p hp
    rw [h.cpu c] at hp
    cases hp
  · intro c c' p hp
    rw [h.cpu c] at hp
    cases hp

/-! ## Invariants over events -/

/-- What an invariant needs of the parts of the event `e` in state `s`: leaving the
processor, the body of the system call, the access, or what the process picked by
the scheduler does next. -/
structure Preserved (I : Kernel → Prop) (e : Event) (s : Kernel) : Prop where
  exit : ∀ {c p d : Nat} {s1 : Kernel}, At c p d s1 → p < nproc → I s1 →
    wp (exit c) (fun _ => I) (fun _ => True) s1
  yield : ∀ {c p : Nat}, e = .tick c → At c p (s.proc p).pgdir s → p < nproc →
    wp (yield c) (fun _ => I) (fun _ => True) s
  call : ∀ {c p : Nat} {call : Call}, e = .syscall c call → At c p (s.proc p).pgdir s →
    p < nproc → (s.proc p).killed = false → wp (call.body c) (fun _ => I) (fun _ => True) s
  access : ∀ {c p va : Nat} {b : Option Byte} {io : Option (List Byte)},
    e = .access c va b io → At c p (s.proc p).pgdir s → p < nproc →
    wp (access c va b io) (fun _ => I) (fun _ => True) s
  dispatch : ∀ {c p : Nat}, e = .sched c p → (s.cpu c).proc = none → p < nproc →
    (s.proc p).state = .runnable → I (s.dispatch c p)
  wait : ∀ {c p : Nat}, e = .sched c p → (s.cpu c).proc = none → p < nproc →
    (s.proc p).state = .runnable → (s.proc p).cont = .waiting →
    wp (wait c) (fun _ => I) (fun _ => True)
      ((s.dispatch c p).setProc p fun pr => { pr with chan := none })

section

variable {I : Kernel → Prop}

theorem Preserved.exitIfKilled (h : Preserved I e s) {s1 : Kernel} (hp : p < nproc)
    (hi : I s1) (hout : (s1.cpu c).proc = none ∨ ∃ d, At c p d s1) :
    wp (exitIfKilled c) (fun _ => I) (fun _ => True) s1 := by
  unfold Xv6.exitIfKilled
  rw [wp_bind, wp_get]
  rcases hout with hnone | ⟨d, hat⟩
  · rw [hnone]
    exact (wp_pure ..).mpr hi
  · rw [hat.cur]
    dsimp only
    rw [wp_ite]
    split
    · exact h.exit hat hp hi
    · exact (wp_pure ..).mpr hi

theorem leaving_body (call : Call) : Leaving c p (call.body c) := by
  by_cases hf : call = .fork
  · subst hf
    intro s d hs
    unfold Call.body
    rw [wp_bind]
    refine wp_post (calm_fork s hs) ?_
    intro _ s1 h1
    exact (wp_pure ..).mpr h1.leaves
  · exact Closing.leaving fun d => closing_body hf

section

variable (h : Preserved I e s)
include h

theorem Preserved.syscall (he : e = .syscall c call)
    (hat : At c p (s.proc p).pgdir s) (hp : p < nproc) (hi : I s) :
    wp (Xv6.syscall c call) (fun _ => I) (fun _ => True) s := by
  unfold Xv6.syscall
  rw [wp_bind, wp_myproc, hat.cur]
  dsimp only
  rw [wp_bind, wp_getProc, wp_ite]
  split
  · exact h.exit hat hp hi
  next hk =>
    rw [wp_bind]
    refine wp_mono (wp_and (h.call he hat hp (by simpa using hk)) (leaving_body call s _ hat)) ?_
      (fun _ _ => trivial)
    rintro _ s1 ⟨h1, hl⟩
    exact h.exitIfKilled hp h1 hl.out

theorem Preserved.tick (he : e = .tick c)
    (hat : At c p (s.proc p).pgdir s) (hp : p < nproc) (hi : I s) :
    wp (Xv6.tick c) (fun _ => I) (fun _ => True) s := by
  unfold Xv6.tick
  rw [wp_bind, wp_myproc, hat.cur]
  dsimp only
  rw [wp_bind, wp_getProc, wp_ite]
  split
  · exact h.exit hat hp hi
  · exact h.yield he hat hp

theorem Preserved.sched (he : e = .sched c p)
    (hcpu : (s.cpu c).proc = none) (hp : p < nproc)
    (hrun : (s.proc p).state = .runnable) :
    wp (Xv6.sched c p) (fun _ => I) (fun _ => True) s := by
  have hat := at_dispatch s c p
  refine wp_sched (.inl trivial) (.inl trivial) ?_
  have hi := h.dispatch he hcpu hp hrun
  cases hcont : (s.proc p).cont with
  | user => exact (wp_pure ..).mpr hi
  | yielded => exact h.exitIfKilled hp hi (.inr ⟨_, hat⟩)
  | waiting =>
    unfold resume
    rw [wp_bind, wp_setProc, wp_bind]
    have hat1 : At c p (s.proc p).pgdir
        ((s.dispatch c p).setProc p fun pr => { pr with chan := none }) :=
      ⟨hat.cur, by rw [Kernel.setProc_self]; exact hat.state,
        by rw [Kernel.setProc_self]; exact hat.pgdir⟩
    refine wp_mono (wp_and (h.wait he hcpu hp hrun hcont) (closing_wait _ hat1)) ?_ (fun _ _ => trivial)
    rintro (_ | pid) s1 ⟨h1, hl⟩
    · exact (wp_pure ..).mpr h1
    · exact h.exitIfKilled hp h1 hl.leaves.out

/-- An invariant of the parts is an invariant of the event. -/
theorem Preserved.event (hok : CpuOk s) (hen : e.enabled ncpu s) (hi : I s) :
    wp e.run (fun _ => I) (fun _ => True) s := by
  cases hsched : e.isSched with
  | true =>
    cases e with
    | sched c p => exact h.sched rfl hen.2.1 hen.2.2.1 hen.2.2.2
    | tick c => cases hsched
    | access c va b io => cases hsched
    | syscall c call => cases hsched
  | false =>
    obtain ⟨p, hcur⟩ := Event.cpu_isSome hsched hen
    obtain ⟨hp, hrun⟩ := hok.cur _ p hcur
    have hat : At e.cpu p (s.proc p).pgdir s := ⟨hcur, hrun, rfl⟩
    cases e with
    | sched c p => cases hsched
    | tick c => exact h.tick rfl hat hp hi
    | access c va b io => exact h.access rfl hat hp
    | syscall c call => exact h.syscall rfl hat hp hi

end

end

/-! ## CR3 -/

/-- CR3 of processor `c` is the directory of its process. -/
def Loaded (c : Nat) (s : Kernel) : Prop :=
  ∀ p, (s.cpu c).proc = some p → (s.cpu c).cr3 = (s.proc p).pgdir

/-- Whether the process on `c` forked since the scheduler picked it, for the events
of a run, latest last. -/
def forkedOn (c : Nat) (es : List Event) : Bool :=
  es.foldl (fun b e => if e.cpu = c then (if e.isSched then false else b || e.isFork) else b) false

omit [Link] in
theorem Ends.loaded (h : Ends c p d s s') (h0 : (s.cpu c).cr3 = d) : Loaded c s' := by
  intro q hq
  rcases h.out with hnone | ⟨d', hat, hcr3⟩
  · rw [hnone] at hq
    cases hq
  · obtain rfl : p = q := Option.some.inj (hat.cur.symm.trans hq)
    rw [hcr3 h0, hat.pgdir]

omit [Link] in
/-- Another processor's event leaves a processor's process and its directory alone. -/
theorem Local.loaded {c' : Nat} (h : Local c p s s') (hok : CpuOk s)
    (hcur : (s.cpu c).proc = some p) (hc : c' ≠ c) (h0 : Loaded c' s) : Loaded c' s' := by
  intro q hq
  rw [h.cpu c' hc] at hq ⊢
  have hqp : q ≠ p := by
    rintro rfl
    exact hc (hok.inj c' c q hq hcur)
  rw [h0 q hq, (h.run q hqp (hok.cur c' q hq).2).2]

/-- An event keeps CR3 right, or makes it right if it gives the processor away. -/
theorem Step.loaded (h : Step ncpu s e s') (hok : CpuOk s) {c : Nat}
    (h0 : e.cpu = c ∧ e.isSched = true ∨ Loaded c s) (hf : e.cpu = c → e.isFork = false) :
    Loaded c s' := by
  cases hs : e.isSched with
  | false =>
    have h0 : Loaded c s := h0.resolve_left fun hc => by rw [hs] at hc; cases hc.2
    obtain ⟨p, hcur, hl, hends⟩ := h.running hs hok
    by_cases hc : e.cpu = c
    · have hends := hends (hf hc)
      subst hc
      exact hends.loaded (h0 p hcur)
    · exact hl.toLocal.loaded hok hcur (Ne.symm hc) h0
  | true =>
    cases e with
    | tick c' => cases hs
    | access c' va b io => cases hs
    | syscall c' call => cases hs
    | sched c' p =>
      obtain ⟨-, -, hp, hrun⟩ := h.1
      by_cases hc : c' = c
      · subst hc
        exact h.sched.loaded (by simp [Kernel.dispatch])
      · have h0 : Loaded c s := h0.resolve_left fun h => hc h.1
        refine h.sched.toLocal.loaded (hok.dispatch hp hrun) (at_dispatch s c' p).cur
          (Ne.symm hc) ?_
        intro q hq
        have hcpu : (s.dispatch c' p).cpu c = s.cpu c := by simp [Kernel.dispatch, Ne.symm hc]
        rw [hcpu] at hq ⊢
        have hqp : q ≠ p := by
          rintro rfl
          have := (hok.cur c q hq).2
          rw [hrun] at this
          cases this
        rw [h0 q hq]
        simp [Kernel.dispatch, hqp]

section

variable (hcur : (s.cpu c).proc = some p) (hk : (s.proc p).killed = false)
include hcur hk

theorem wp_exitIfKilled
    (h : Q () s) : wp (exitIfKilled c) Q F s := by
  unfold exitIfKilled
  rw [wp_bind, wp_get, hcur]
  dsimp only
  rw [wp_ite, hk, if_neg (by decide), wp_pure]
  exact h

theorem wp_syscall
    (h : wp (call.body c) (fun _ s1 => wp (exitIfKilled c) Q F s1) F s) :
    wp (syscall c call) Q F s := by
  unfold syscall
  rw [wp_bind, wp_myproc, hcur]
  dsimp only
  rw [wp_bind, wp_getProc, hk, wp_ite, if_neg (by decide), wp_bind]
  exact h

end

/-- A total run of an enabled event is a step. -/
theorem step_of_total {Q : Kernel → Prop} (hen : e.enabled ncpu s)
    (h : wp e.run (fun _ s' => Q s') (fun _ => False) s) : ∃ s', Step ncpu s e s' ∧ Q s' := by
  obtain ⟨_, s', hrun, hQ⟩ := wp_total h
  exact ⟨s', ⟨hen, hrun⟩, hQ⟩

/-- An idle processor takes up a runnable process that is in user mode. -/
theorem step_sched (hwf : A.WF) (hc : c < ncpu) (hidle : (s.cpu c).proc = none) (hp : p < nproc)
    (hrun : (s.proc p).state = .runnable) (huser : (s.proc p).cont = .user)
    (hk : A.role (s.proc p).kstack = .held) (hd : A.role (s.proc p).pgdir = .dir) :
    Step ncpu s (.sched c p) (s.dispatch c p) := by
  have hk0 : (s.proc p).kstack ≠ 0 := Nat.ne_of_gt (hwf.managed _ (by rw [hk]; decide)).pos
  have hd0 : (s.proc p).pgdir ≠ 0 := Nat.ne_of_gt (hwf.managed _ (by rw [hd]; decide)).pos
  obtain ⟨s', hstep, rfl⟩ := step_of_total (Q := fun s' => s' = s.dispatch c p)
    (e := .sched c p) ⟨hc, hidle, hp, hrun⟩
    (wp_sched (.inr hk0) (.inr hd0) (by rw [huser]; exact (wp_pure ..).mpr rfl))
  exact hstep

theorem Booted.sched (h : Booted s A d f g) (hn : 0 < ncpu) :
    Step ncpu s (.sched 0 0) (s.dispatch 0 0) :=
  step_sched h.rep.wf hn (by rw [h.cpu]) (by decide) (by rw [h.init]) (by rw [h.init]; rfl)
    (by rw [h.init]; exact h.stack) (by rw [h.init]; exact h.dir)

/-- A fork fails for want of memory only. -/
theorem ForkFails.few {A' : Space} {pd n : Nat} {vs : List Nat} (h : ForkFails A pd vs n A') :
    A.free.length ≤ 66 + vs.length := by
  have htables : kernelTables = 64 := rfl
  cases h with
  | stack hf => rw [hf]; exact Nat.zero_le _
  | setup hf _ _ hfew =>
    rw [hf, List.length_cons]
    omega
  | @copy f d n fs B C hf hnew hcop =>
    have hlen := hnew.length
    rw [Space.pop_free, hf, List.tail_cons] at hlen
    have : ¬ vs.length ≤ B.free.length := fun hle => nomatch (hcop.enough hle).1
    rw [hf, List.length_cons]
    omega

/-- The first process, running on processor 0. -/
theorem Booted.dispatched (h : Booted s A d f g) :
    (s.dispatch 0 0).proc 0 = { Proc.zero with
      sz := pgsize, pgdir := d, kstack := f, state := .running, pid := 1 } := by
  simp [Kernel.dispatch, h.init]
/-- With a free slot, enough memory and nothing that stops its loops, `fork` makes a
child. -/
theorem Rep.forkStep {x : Bool} {np : Nat} (h : Rep s.mem A) (hs : Sane A x) (hc : c < ncpu)
    (hat : At c p d s) (hk : (s.proc p).killed = false) (hdir : A.role d = .dir)
    (hsz : (s.proc p).sz ≤ kernbase) (hreg : ∀ i < maxMmaps, ((s.proc p).mmap i).Ok)
    (hF : Forkable (fun _ => False) A (s.proc p)) (hslot : unusedProc s = some np)
    (hlen : 67 + npages (s.proc p).sz ≤ A.free.length) :
    ∃ s' f d' A' n, Step ncpu s (.syscall c .fork) s' ∧ Slotted c np s s' ∧
      s'.proc np = forkChild s p np f d' ∧ (s'.cpu c).cr3 = d' ∧ Rep s'.mem A' ∧
      KeepData A s.mem s'.mem ∧ Forks A d (List.range (npages (s.proc p).sz))
        (sharedPages (s.proc p).mmap) f d' n A' := by
  have hnp : np ≠ p := by
    rintro rfl
    have := (unusedProc_spec hslot).2
    rw [hat.state] at this
    cases this
  have hcurS : (s.cpu c).proc.isSome := by rw [hat.cur]; rfl
  rw [← hat.pgdir] at hdir ⊢
  obtain ⟨s', hstep, f, d', A', n, hpost⟩ := step_of_total (Q := fun s' => ∃ f d' A' n,
      Slotted c np s s' ∧ s'.proc np = forkChild s p np f d' ∧ (s'.cpu c).cr3 = d' ∧
      Rep s'.mem A' ∧ KeepData A s.mem s'.mem ∧
      Forks A (s.proc p).pgdir (List.range (npages (s.proc p).sz))
        (sharedPages (s.proc p).mmap) f d' n A') (e := .syscall c .fork) ⟨hc, hcurS⟩ (by
    refine wp_syscall hat.cur hk ?_
    unfold Call.body
    rw [wp_bind]
    refine wp_post (h.fork hs hat.cur (by rw [hat.state]; decide) hdir hsz hreg hF) ?_
    intro r s1 hforked
    rw [wp_pure]
    cases hforked with
    | none hnone =>
      rw [hslot] at hnone
      cases hnone
    | failed _ _ _ _ hmem =>
      obtain ⟨A', n, -, -, hfails, -⟩ := hmem
      have hfew := hfails.few
      rw [List.length_range] at hfew
      omega
    | @child np' f d' _ hsl hchild hcr3 hmem =>
      obtain rfl : np = np' := Option.some.inj (hslot.symm.trans hsl.slot)
      obtain ⟨A', n, hrep, hkeep, hforks, -⟩ := hmem
      refine wp_exitIfKilled (hsl.cur.trans hat.cur) ?_ ⟨f, d', A', n, hsl, hchild, hcr3, hrep,
        hkeep, hforks⟩
      rw [hsl.proc p (Ne.symm hnp)]
      exact hk)
  exact ⟨s', f, d', A', n, hstep, hpost⟩

theorem Forks.ne_dir {A' : Space} {pd d' n e : Nat} {vs us : List Nat} (hwf : A.WF)
    (h : Forks A pd vs us f d' n A') (he : A.role e = .dir) : e ≠ d' := by
  cases h with
  | mk hf _ hnew _ _ => exact hnew.ne_dir (pop_dir hwf hf he)

omit [Link] in
/-- The table of the first process is empty. -/
theorem sharedPages_zero : sharedPages (fun _ => .zero) = [] := by decide

omit [Link] in
theorem unusedProc_one (h0 : (s.proc 0).state ≠ .unused) (h1 : (s.proc 1).state = .unused) :
    unusedProc s = some 1 := by
  have hrange : List.range nproc = 0 :: 1 :: (List.range 62).map (· + 2) := by decide
  unfold unusedProc
  rw [hrange, List.find?_cons_of_neg (by simpa using h0), List.find?_cons_of_pos (by simpa using h1)]

theorem Booted.present (h : Booted s A d f g) :
    ∀ v < npages pgsize, flag (A.pte d v) pteP = true := by
  intro v hv
  obtain rfl : v = 0 := by
    have : npages pgsize = 1 := by decide
    omega
  rw [h.page]
  exact flag_mkPte_pteP _ _

/-- The first process forks: the parent goes on with the child's directory. -/
theorem Booted.forkStep (h : Booted s A d f g) (hn : 0 < ncpu) :
    ∃ s' f' d' A' n, Step ncpu (s.dispatch 0 0) (.syscall 0 .fork) s' ∧
      Slotted 0 1 (s.dispatch 0 0) s' ∧ s'.proc 1 = forkChild (s.dispatch 0 0) 0 1 f' d' ∧
      (s'.cpu 0).cr3 = d' ∧ Rep s'.mem A' ∧ KeepData A s.mem s'.mem ∧
      Forks A d [0] [] f' d' n A' := by
  have hat := at_dispatch s 0 0
  have hpd : (s.proc 0).pgdir = d := by rw [h.init]
  rw [hpd] at hat
  have hpr := h.dispatched
  have hslot : unusedProc (s.dispatch 0 0) = some 1 := by
    refine unusedProc_one (by rw [hat.state]; decide) ?_
    simp [Kernel.dispatch, h.others 1 (by decide), Proc.zero]
  have hrep : Rep (s.dispatch 0 0).mem A := h.rep
  have hfree := h.free
  obtain ⟨s', f', d', A', n, hpost⟩ := hrep.forkStep (h.sane true) hn hat (by rw [hpr]; rfl)
    h.dir (by rw [hpr]; exact (by decide : pgsize ≤ kernbase)) (by rw [hpr]; exact fun _ _ => MmapRegion.ok_zero)
    { files := .inr (by rw [hpr]; exact fun _ _ => rfl)
      present := .inr (by rw [hpr]; exact h.present)
      table := .inr (by rw [hpr]; simp [Proc.zero, sharedPages_zero])
      apart := .inr (by rw [hpr]; simp [Proc.zero, sharedPages_zero]) } hslot
    (by rw [hpr]; have : npages pgsize = 1 := by decide
        dsimp only; omega)
  have hpages : List.range (npages pgsize) = [0] := by decide
  simp only [hpr, Proc.zero, sharedPages_zero, hpages] at hpost
  exact ⟨s', f', d', A', n, hpost⟩
end

/-! ## CR3 after a fork -/

end Xv6
