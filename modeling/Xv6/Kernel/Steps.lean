import Xv6.Kernel.Regions

/-!
# Single steps

Steps of the system with their outcome, for runs that are built by hand: a call or an
access of a process that is not killed, in a state in which nothing stops it.
-/

namespace Xv6

open Prog

variable [Link] {s : Kernel} {A : Space} {x : Bool} {ncpu c p d i : Nat}

omit [Link] in
theorem At.setProc {f : Proc → Proc} (h : At c p d s)
    (hstate : (f (s.proc p)).state = (s.proc p).state)
    (hpgdir : (f (s.proc p)).pgdir = (s.proc p).pgdir) : At c p d (s.setProc p f) :=
  ⟨h.cur, by rw [Kernel.setProc_self, hstate]; exact h.state,
    by rw [Kernel.setProc_self, hpgdir]; exact h.pgdir⟩

omit [Link] in
theorem At.loadedPage (h : At c p d s) (i : Nat) (m : Mem) : At c p d (s.loadedPage p i m) :=
  ⟨h.cur, by rw [s.loadedPage_proc]; exact h.state, by rw [s.loadedPage_pgdir]; exact h.pgdir⟩

/-- A call that leaves the process running and not killed. -/
theorem step_call (call : Call) {Q : Kernel → Prop} (hc : c < ncpu) (hat : At c p d s)
    (hk : (s.proc p).killed = false)
    (h : wp (call.body c) (fun _ s' => (s'.cpu c).proc = some p ∧ (s'.proc p).killed = false ∧ Q s')
      (fun _ => False) s) :
    ∃ s', Step ncpu s (.syscall c call) s' ∧ Q s' := by
  refine step_of_total ⟨hc, by rw [hat.cur]; rfl⟩ (wp_syscall hat.cur hk ?_)
  refine wp_post h ?_
  rintro _ s1 ⟨hcur1, hk1, hq⟩
  exact wp_exitIfKilled hcur1 hk1 hq

theorem step_wmap {addr length flags fd : Word} (hc : c < ncpu) (hat : At c p d s)
    (hk : (s.proc p).killed = false) (hslot : wmapSlot (s.proc p).mmap addr length flags = some i)
    (hanon : flag flags mapAnonymous = true) :
    Step ncpu s (.syscall c (.wmap addr length flags fd))
      (s.setProc p fun pr => pr.addRegion i addr length flags fd) := by
  obtain ⟨_, hstep, rfl⟩ := step_call (.wmap addr length flags fd)
    (Q := fun s' => s' = s.setProc p fun pr => pr.addRegion i addr length flags fd) hc hat hk (by
      unfold Call.body
      rw [wp_bind, wp_wmap hat.cur, hslot]
      dsimp only
      rw [hanon, if_pos rfl, wp_pure]
      exact ⟨hat.cur, by rw [Kernel.setProc_self]; exact hk, rfl⟩)
  exact hstep

/-- The region at `addr` is unmapped. -/
theorem Rep.step_wunmap (addr : Word) (h : Rep s.mem A) (hs : Sane A x) (hc : c < ncpu)
    (hat : At c p d s) (hk : (s.proc p).killed = false) (hd : A.role d = .dir)
    (hlo : mmapBase ≤ addr.toNat) (hhi : addr.toNat < mmapTop)
    (hf : findRegion (s.proc p).mmap addr.toNat = some i) (hok : ((s.proc p).mmap i).Ok)
    (hzero : NonZero A d ((s.proc p).mmap i).pages) (hfd : ((s.proc p).mmap i).Fd) :
    ∃ s1, Unmapped A p ((s.proc p).mmap i) ((s.proc p).mmap i).pages s s1 ∧
      Step ncpu s (.syscall c (.wunmap addr)) (s1.setProc p fun pr => pr.dropRegion i) := by
  obtain ⟨_, hstep, s1, h1, rfl⟩ := step_call (.wunmap addr)
    (Q := fun s' => ∃ s1, Unmapped A p ((s.proc p).mmap i) ((s.proc p).mmap i).pages s s1 ∧
      s' = s1.setProc p fun pr => pr.dropRegion i) hc hat hk (by
      unfold Call.body sysWunmap
      rw [wp_bind, wp_ite, if_neg (by omega)]
      refine wp_post (h.wunmap hs.mapped hat.cur (by rw [hat.pgdir]; exact hd) fun j hj => ?_) ?_
      · obtain rfl : i = j := Option.some.inj (hf.symm.trans hj)
        exact ⟨hok, .inr (by rw [hat.pgdir]; exact hzero), .inr hfd⟩
      · intro r s' hcase
        rw [hf] at hcase
        obtain ⟨-, s1, h1, rfl⟩ := hcase
        rw [wp_pure]
        refine ⟨?_, ?_, s1, h1, rfl⟩
        · show (s1.cpu c).proc = some p
          rw [h1.eq]
          exact hat.cur
        · rw [Kernel.setProc_self, h1.eq]
          exact hk)
  exact ⟨s1, h1, hstep⟩

/-- The first access to a page of a region. -/
theorem Rep.step_load {va : Nat} {b : Option Byte} {io : Option (List Byte)} (h : Rep s.mem A)
    (hc : c < ncpu) (hat : At c p d s) (hcr3 : (s.cpu c).cr3 = d) (hd : A.role d = .dir)
    (hva : va < uintSize) (habs : flag (A.pte d (va / pgsize)) pteP = false)
    (hf : findRegion (s.proc p).mmap va = some i)
    (hload : flag ((s.proc p).mmap i).flags mapAnonymous = true ∨
      (openFile (s.proc p) ((s.proc p).mmap i).fd).isSome = true ∧ io.isSome = true)
    (hfree : 2 ≤ A.free.length) :
    ∃ f m' A', Fill A d (va / pgsize) (pteW ||| pteU) f A' ∧ Rep m' A' ∧
      Step ncpu s (.access c va b io) (s.loadedPage p i m') := by
  have hfault : Xv6.translate s.mem (s.cpu c).cr3 va b.isSome = none := by
    rw [hcr3, h.translate hd hva, if_neg]
    unfold permits
    rw [habs, Bool.false_and, Bool.false_and]
    decide
  obtain ⟨_, hstep, f, m', A', hfill, hrep, rfl⟩ := step_of_total
    (Q := fun s' => ∃ f m' A', Fill A d (va / pgsize) (pteW ||| pteU) f A' ∧ Rep m' A' ∧
      s' = s.loadedPage p i m')
    (e := .access c va b io) ⟨hc, by rw [hat.cur]; rfl, hva⟩ (by
      unfold Event.run access
      rw [wp_bind, wp_get, hfault]
      refine h.trapPgflt_absent hat.cur (by rw [hat.pgdir]; exact hd) hva
        (by rw [hat.pgdir]; exact habs) ?_
      unfold pagefaultDefault
      rw [wp_bind, wp_getProc, hf]
      refine h.lazyAlloc (by rw [hat.pgdir]; exact hd) hva (.inr (by rw [hat.pgdir]; exact habs))
        (hload.imp_right fun hl => .inr hl.1) ?_ ?_ ?_
      · intro _ _ _ _ hshort
        have := hshort.length_le
        omega
      · intro _ _ _ hanon hio
        rcases hload with hl | ⟨-, hl⟩
        · rw [hanon] at hl
          cases hl
        · rw [hio] at hl
          cases hl
      · intro f m' A' hfill hrep _ _ _
        rw [hat.pgdir] at hfill
        exact ⟨f, m', A', hfill, hrep, rfl⟩)
  exact ⟨f, m', A', hfill, hrep, hstep⟩

omit [Link] in
/-- A table with a mapping of two pages, without a file. -/
def twoPages : Nat → MmapRegion :=
  Function.update (fun _ => .zero) 0
    ⟨0x60000000, 0x2000, mapShared ||| mapAnonymous ||| mapFixed, true, 0, 0⟩

/-- The first process maps two pages. -/
theorem Booted.mapAnon {f g : Nat} (h : Booted s A d f g) (hn : 0 < ncpu) : ∃ s',
    Trace.Run (Step ncpu) s [.sched 0 0,
      .syscall 0 (.wmap 0x60000000#32 0x2000#32 (mapShared ||| mapAnonymous ||| mapFixed) 0#32)] s' ∧
    Rep s'.mem A ∧ At 0 0 d s' ∧ (s'.cpu 0).cr3 = d ∧ (s'.proc 0).mmap = twoPages ∧
    (s'.proc 0).sz = pgsize ∧ (s'.proc 0).kstack = f := by
  have hpr := h.dispatched
  have hat : At 0 0 d (s.dispatch 0 0) := by
    have := at_dispatch s 0 0
    rwa [show (s.proc 0).pgdir = d by rw [h.init]] at this
  have hslot : wmapSlot ((s.dispatch 0 0).proc 0).mmap 0x60000000#32 0x2000#32
      (mapShared ||| mapAnonymous ||| mapFixed) = some 0 := by
    rw [hpr]
    exact (by decide : wmapSlot (fun _ => .zero) 0x60000000#32 0x2000#32
      (mapShared ||| mapAnonymous ||| mapFixed) = some 0)
  have hmap : Step ncpu (s.dispatch 0 0) (.syscall 0 (.wmap 0x60000000#32 0x2000#32
      (mapShared ||| mapAnonymous ||| mapFixed) 0#32)) _ :=
    step_wmap hn hat (by rw [hpr]; rfl) hslot (by decide)
  refine ⟨_, .snoc (.single (h.sched hn)) hmap, h.rep, hat.setProc rfl rfl, ?_, ?_, ?_, ?_⟩
  · simp [Kernel.dispatch, Kernel.setProc, h.init]
  all_goals
    rw [Kernel.setProc_self, hpr]
    rfl

/-- It touches the first of them. -/
theorem Booted.touch {f g : Nat} (h : Booted s A d f g) (hn : 0 < ncpu) : ∃ s' f' A',
    Trace.Run (Step ncpu) s [.sched 0 0,
      .syscall 0 (.wmap 0x60000000#32 0x2000#32 (mapShared ||| mapAnonymous ||| mapFixed) 0#32),
      .access 0 0x60000000 none none] s' ∧
    Fill A d 0x60000 (pteW ||| pteU) f' A' ∧ Rep s'.mem A' ∧ At 0 0 d s' ∧
    (s'.proc 0).sz = pgsize ∧ (s'.proc 0).kstack = f := by
  obtain ⟨s1, hrun, hrep1, hat1, hcr3, hmmap1, hsz1, hk1⟩ := h.mapAnon hn
  obtain ⟨f', m', A', hfill, hrep', hstep⟩ := @Rep.step_load _ s1 A ncpu 0 0 d 0
    0x60000000 none none hrep1 hn hat1 hcr3 h.dir (by decide)
    (by rw [h.rest _ (by decide) (by decide)]; exact flag_zero _)
    (by rw [hmmap1]; decide) (.inl (by rw [hmmap1]; decide)) (by have := h.free; omega)
  refine ⟨_, f', A', .snoc hrun hstep, hfill, hrep', hat1.loadedPage 0 m', ?_, ?_⟩
  · rw [s1.loadedPage_proc]
    exact hsz1
  · rw [s1.loadedPage_proc]
    exact hk1

/-- The child of the first process, running on processor 1 with the slot `pr`. -/
structure Child (s : Kernel) (A : Space) (pr : Proc) : Prop where
  rep : Rep s.mem A
  sane : Sane A true
  dir : A.role pr.pgdir = .dir
  stack : A.role pr.kstack = .held
  rest : ∀ v < userPages, v ≠ 0 → A.pte pr.pgdir v = 0#32
  free : 55000 ≤ A.free.length
  proc : s.proc 1 = pr
  state : pr.state = .running
  cpu : s.cpu 1 = ⟨some 1, pr.pgdir⟩
  initproc : s.initproc = 0
  first : ∃ e k, s.proc 0 = { Proc.zero with
    sz := pgsize, pgdir := e, kstack := k, state := .running, pid := 1 }
  others : ∀ q, q ≠ 0 → q ≠ 1 → s.proc q = .zero

theorem Child.here {pr : Proc} (h : Child s A pr) : At 1 1 pr.pgdir s :=
  ⟨by rw [h.cpu], by rw [h.proc]; exact h.state, by rw [h.proc]⟩

/-- The child changes its own slot. -/
theorem Child.setProc {pr : Proc} {f : Proc → Proc} (h : Child s A pr)
    (hstate : (f pr).state = pr.state) (hpgdir : (f pr).pgdir = pr.pgdir)
    (hkstack : (f pr).kstack = pr.kstack) : Child (s.setProc 1 f) A (f pr) :=
  { rep := h.rep, sane := h.sane, free := h.free, initproc := h.initproc
    dir := by rw [hpgdir]; exact h.dir
    stack := by rw [hkstack]; exact h.stack
    rest := by rw [hpgdir]; exact h.rest
    proc := by rw [Kernel.setProc_self, h.proc]
    state := hstate.trans h.state
    cpu := by rw [hpgdir]; exact h.cpu
    first := by rw [Kernel.setProc_ne _ _ (by decide)]; exact h.first
    others := fun q hq0 hq1 => by rw [Kernel.setProc_ne _ _ hq1]; exact h.others q hq0 hq1 }

omit [Link] in
/-- The slot of the child when it starts. -/
def newChild (d f : Nat) : Proc := { Proc.zero with
  sz := pgsize, pgdir := d, kstack := f, state := .running, pid := 2, parent := some 0 }

/-- The space after the first process has forked. -/
theorem Booted.forked {f g f' d' n : Nat} {A' : Space} (h : Booted s A d f g)
    (hf : Forks A d [0] [] f' d' n A') : Sane A' true ∧ A'.role d' = .dir ∧ A'.role f' = .held ∧
      (∀ v < userPages, v ≠ 0 → A'.pte d' v = 0#32) ∧ 55000 ≤ A'.free.length ∧
      A'.pte d' 0 = childWord (A.pte d 0) := by
  cases hf with
  | @mk fs B C _ n n' hfree hwfB hnew hcop hsh =>
    cases hsh
    have hs := (h.sane true).pop h.rep.wf hfree
    have hdp := pop_dir h.rep.wf hfree h.dir
    have hsB := hnew.sane true hs
    have hdB := hnew.role_dir hdp
    have hdd := hnew.ne_dir hdp
    have hvs : ∀ v ∈ [0], v < userPages := by simp [userPages_eq]
    have hpte : B.pte d 0 = A.pte d 0 := by
      rw [hnew.frame.pte d 0 hdp hdd id]
      rfl
    have hg : Xv6.frame (A.pte d 0) = g := by
      rw [h.page, frame_mkPte h.frame.1.lt_frames (by decide)]
    have hgrow : Grow A B := (Grow.pop h.rep.wf hfree).trans hnew.grow
    have hdata : A.role g = .data := by
      rw [← hg]
      exact (h.sane true).mapped.not_kernel h.rep.wf h.dir (by decide) (h.present 0 (by decide))
    have hn : n = 0 := by
      refine hcop.no_wrap hwfB hdB hnew.dir hvs hsB.mapped hdd (List.nodup_singleton 0) ?_
      intro v hv
      obtain rfl := List.mem_singleton.mp hv
      rw [hpte, hg, Space.full, hgrow.count g (by rw [hdata]; decide) h.frame.1.ne_oom, h.frame.2]
      exact if_neg fun hc => absurd hc.2 (by decide)
    obtain ⟨-, hdir, -⟩ := hcop.mapped hwfB hdB hnew.dir hvs hsB.mapped
    have hheld : B.role f' = .held := by
      have hpop : (A.pop f').role f' = .held := Function.update_self ..
      rw [hnew.grow.role f' (by rw [hpop]; decide), hpop]
    have hlenB := hnew.length
    rw [Space.pop_free, hfree, List.tail_cons] at hlenB
    have hlenA := h.free
    rw [hfree, List.length_cons] at hlenA
    have htables : kernelTables = 64 := rfl
    have hlen := (hcop.enough (by rw [List.length_singleton]; omega)).2
    rw [List.length_singleton] at hlen
    refine ⟨hcop.sane hwfB hdB hnew.dir hvs hsB hn, hdir, ?_, ?_, by omega, ?_⟩
    · rw [hcop.role hwfB hdB hnew.dir hvs hsB.mapped (by rw [hheld]; decide), hheld]
    · intro v hv hv0
      rw [hcop.pte_ne (by simp [hv0]), hnew.empty v hv]
    · rw [← hpte]
      exact (hcop.entries hdd rfl (List.nodup_singleton 0) (List.mem_singleton_self 0)).2.2

/-- The first process forks and its child runs on processor 1, with the page it shares. -/
theorem Booted.childPage {f g : Nat} (h : Booted s A d f g) (hn : 1 < ncpu) :
    ∃ s' A' d' f', Trace.Run (Step ncpu) s [.sched 0 0, .syscall 0 .fork, .sched 1 1] s' ∧
      Child s' A' (newChild d' f') ∧ A'.pte d' 0 = childWord (A.pte d 0) := by
  have h0 : 0 < ncpu := by omega
  obtain ⟨s1, f', d', A', n, hstep, hsl, hchild, -, hrep, -, hforks⟩ := h.forkStep h0
  obtain ⟨hs, hdir, hheld, hrest, hlen, hpage⟩ := h.forked hforks
  have hproc : s1.proc 1 = { Proc.zero with
      sz := pgsize, pgdir := d', kstack := f', state := .runnable, pid := 2, parent := some 0 } := by
    have hzero : (s.dispatch 0 0).proc 1 = .zero := by simp [Kernel.dispatch, h.others]
    have hpid : (s.dispatch 0 0).nextpid = 2 := h.nextpid
    rw [hchild, forkChild, hzero, h.dispatched, hpid]
    have hofile : dupped (fun _ => none) (fun _ => none) (List.range nofile) = fun _ => none := by
      funext i
      exact ite_self _
    simp only [Proc.zero, hofile]
    congr 1
    funext i
    exact ite_self _
  have hparent : s1.proc 0 = _ := (hsl.proc 0 (by decide)).trans h.dispatched
  have hidle : (s1.cpu 1).proc = none := by
    rw [hsl.cpu 1 (by decide)]
    simp [Kernel.dispatch, h.cpu]
  refine ⟨s1.dispatch 1 1, A', d', f', .snoc (.snoc (.single (h.sched h0)) hstep) ?_, ?_, hpage⟩
  · exact step_sched hrep.wf hn hidle (by decide) (by rw [hproc]) (by rw [hproc]; rfl)
      (by rw [hproc]; exact hheld) (by rw [hproc]; exact hdir)
  · refine ⟨hrep, hs, hdir, hheld, hrest, hlen, ?_, rfl, ?_, ?_, ⟨d, f, ?_⟩, ?_⟩
    · simp [Kernel.dispatch, hproc, newChild]
    · simp [Kernel.dispatch, hproc, newChild]
    · exact hsl.initproc.trans h.initproc
    · simp [Kernel.dispatch, hparent]
    · intro q hq0 hq1
      have hq : (s1.dispatch 1 1).proc q = s1.proc q := by simp [Kernel.dispatch, hq1]
      rw [hq, hsl.proc q hq1]
      simp [Kernel.dispatch, hq0, h.others]

theorem Booted.child {f g : Nat} (h : Booted s A d f g) (hn : 1 < ncpu) :
    ∃ s' A' d' f', Trace.Run (Step ncpu) s [.sched 0 0, .syscall 0 .fork, .sched 1 1] s' ∧
      Child s' A' (newChild d' f') := by
  obtain ⟨s', A', d', f', hrun, hchild, -⟩ := h.childPage hn
  exact ⟨s', A', d', f', hrun, hchild⟩

end Xv6
