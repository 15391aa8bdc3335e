import Xv6.Kernel.Unmapping

/-!
# `exit` and the mappings

`exit` looks at one page of each slot of the table, and only at one that is copy-on-write
with no other reference.  It then calls `wunmap` with the kernel's address of the frame,
which no mapping holds.  So the table, the page table and the files are left as they are.
-/

namespace Xv6

open Prog Function

variable {c p i v : Nat} {s s' : Kernel}

/-! ## What `exit` leaves alone -/

/-- The directory, the mappings and the kernel stack of a process. -/
def Proc.maps (pr : Proc) : Nat × (Nat → MmapRegion) × Int × Nat :=
  (pr.pgdir, pr.mmap, pr.totalMmaps, pr.kstack)

/-- The memory, what was written for mappings, the processors and all mappings. -/
def Kernel.maps (s : Kernel) :
    Mem × List FileWrite × (Nat → Cpu) × (Nat → Nat × (Nat → MmapRegion) × Int × Nat) :=
  (s.mem, s.filewrites, s.cpu, fun q => (s.proc q).maps)

theorem maps_setProc {q : Nat} {f : Proc → Proc} (h : ∀ pr, (f pr).maps = pr.maps) (s : Kernel) :
    (s.setProc q f).maps = s.maps := by
  have hproc : (fun q' => ((s.setProc q f).proc q').maps) = fun q' => (s.proc q').maps := by
    funext q'
    by_cases hq : q' = q
    · rw [hq, Kernel.setProc_self, h]
    · rw [Kernel.setProc_ne _ _ hq]
  unfold Kernel.maps
  rw [hproc]
  rfl

theorem keeps_maps_setProc {q : Nat} {f : Proc → Proc} (h : ∀ pr, (f pr).maps = pr.maps) :
    Keeps Kernel.maps (setProc q f) := Keeps.modify (maps_setProc h)

theorem keeps_maps_getProc (q : Nat) : Keeps Kernel.maps (getProc q) := fun s => by
  rw [wp_getProc]

theorem keeps_maps_closeFiles (q : Nat) : Keeps Kernel.maps (closeFiles q) := by
  refine .forM fun j => .bind (keeps_maps_getProc q) fun pr => ?_
  cases pr.ofile j with
  | none => exact .pure _
  | some f =>
    refine .bind (fun s => ?_) fun _ => keeps_maps_setProc fun _ => rfl
    unfold fileclose
    rw [wp_bind, wp_get, wp_ite]
    split
    · exact (wp_throw ..).mpr trivial
    · exact (wp_set ..).mpr rfl

theorem keeps_maps_wakeup1 (chan : Option Nat) : Keeps Kernel.maps (wakeup1 chan) := by
  refine Keeps.modify fun s => ?_
  have hproc : (fun q => (if q < nproc ∧ (s.proc q).state = .sleeping ∧ (s.proc q).chan = chan
      then { s.proc q with state := .runnable } else s.proc q).maps) =
        fun q => (s.proc q).maps := by
    funext q
    split <;> rfl
  unfold Kernel.maps
  rw [hproc]

theorem keeps_maps_reparent (q : Nat) : Keeps Kernel.maps (reparent q) :=
  .forM fun _ => .bind .get fun _ => .ite (fun _ => .bind (keeps_maps_setProc fun _ => rfl) fun _ =>
    .ite (fun _ => keeps_maps_wakeup1 _) fun _ => .pure _) fun _ => .pure _

variable {F : Fault → Prop}

/-- Every open file has a reference for each of the descriptors `js` of `p`. -/
def Kernel.Referenced (s : Kernel) (p : Nat) (js : List Nat) : Prop :=
  ∀ f, js.countP (fun j => (s.proc p).ofile j = some f) ≤ s.fileRef f

theorem Kernel.referenced_none (h : (s.proc p).ofile = fun _ => none) (js : List Nat) :
    s.Referenced p js := fun f => by
  rw [h]
  exact (List.countP_eq_zero.mpr fun _ _ => by rw [decide_eq_true_eq]; nofun).le.trans (Nat.zero_le _)

theorem wp_closeFiles_referenced (h : F (.panic "fileclose") ∨ s.Referenced p (List.range nofile)) :
    wp (closeFiles p) (fun _ _ => True) F s := by
  refine wp_post (wp_forM (I := fun js s' => F (.panic "fileclose") ∨ s'.Referenced p js) h ?_)
    fun _ _ _ => trivial
  intro j js s1 h1
  rw [wp_bind, wp_getProc]
  cases hj : (s1.proc p).ofile j with
  | none =>
    rw [wp_pure]
    refine h1.imp_right fun h1 f => ?_
    have := h1 f
    rwa [List.countP_cons_of_neg (by rw [hj]; nofun)] at this
  | some f =>
    dsimp only
    unfold fileclose
    rw [wp_bind, wp_bind, wp_get, wp_ite]
    split
    next hlow =>
      refine (wp_throw ..).mpr (h1.resolve_right fun h1 => ?_)
      have := h1 f
      rw [List.countP_cons_of_pos (by rw [hj]; exact decide_eq_true rfl)] at this
      omega
    next hpos =>
      rw [wp_set, wp_setProc]
      refine h1.imp_right fun h1 g => ?_
      have hg := h1 g
      -- the descriptor that was closed counts no more
      have hrest : js.countP (fun k => Function.update (s1.proc p).ofile j none k = some g) ≤
          js.countP (fun k => (s1.proc p).ofile k = some g) := by
        refine List.countP_mono_left fun k _ hk => ?_
        by_cases hkj : k = j
        · rw [hkj, update_self] at hk
          cases hk
        · rwa [update_of_ne hkj] at hk
      rw [Kernel.setProc_self]
      refine hrest.trans ?_
      show _ ≤ Function.update s1.fileRef f (s1.fileRef f - 1) g
      by_cases hgf : g = f
      · rw [hgf] at hg ⊢
        rw [List.countP_cons_of_pos (by rw [hj]; exact decide_eq_true rfl)] at hg
        rw [update_self]
        omega
      · rw [update_of_ne hgf]
        rwa [List.countP_cons_of_neg (by
          rw [hj, decide_eq_true_eq]
          exact fun h => hgf (Option.some.inj h).symm)] at hg

theorem wp_wakeup1 {chan : Option Nat} : wp (wakeup1 chan) (fun _ _ => True) F s :=
  (wp_modify ..).mpr trivial

theorem wp_reparent : wp (reparent p) (fun _ _ => True) F s := by
  refine wp_forM (I := fun _ _ => True) trivial fun q qs s1 _ => ?_
  rw [wp_bind, wp_get, wp_ite]
  split
  · rw [wp_bind, wp_setProc, wp_ite]
    split
    · exact wp_wakeup1
    · exact (wp_pure ..).mpr trivial
  · exact (wp_pure ..).mpr trivial

variable [Link] {A : Space} {x : Bool}

/-- An address that no used region holds. -/
theorem wp_wunmap_none {a : Nat} (hcur : (s.cpu c).proc = some p)
    (hf : findRegion (s.proc p).mmap a = none) {Q : Int → Kernel → Prop} (h : Q failed s) :
    wp (wunmap c a) Q F s := by
  unfold wunmap
  rw [wp_bind, wp_myproc, hcur]
  dsimp only
  rw [wp_bind, wp_getProc, hf]
  exact (wp_pure ..).mpr h

/-- The addresses of a table are C values, and its mappings end where user memory does. -/
def Bounded (mmap : Nat → MmapRegion) : Prop :=
  ∀ i < maxMmaps, (mmap i).addr < uintSize ∧ ((mmap i).used = true → (mmap i).stop ≤ mmapTop)

omit [Link] in
theorem Bounded.findRegion {mmap : Nat → MmapRegion} (h : Bounded mmap) {a : Nat}
    (ha : mmapTop ≤ a) : findRegion mmap a = none := by
  refine List.find?_eq_none.mpr fun i hi hh => ?_
  simp only [MmapRegion.holds, Bool.and_eq_true, decide_eq_true_eq] at hh
  have := (h i (List.mem_range.mp hi)).2 hh.1.1
  omega

/-- The kernel's addresses of the frames of copy-on-write pages are no user addresses. -/
def Space.CowHigh (A : Space) (d : Nat) : Prop :=
  ∀ v < npdentries * npdentries, flag (A.pte d v) pteP = true → flag (A.pte d v) pteCow = true →
    mmapTop ≤ kva (frame (A.pte d v))

theorem Mapped.cowHigh {d : Nat} (h : Mapped A) (hd : A.role d = .dir) : A.CowHigh d := by
  intro v hv hp hc
  have hvu : v < userPages := by
    by_contra hge
    rw [(h.kern d v hd (by omega) hv hp).2] at hc
    cases hc
  rw [kva_eq (h.frame_lt hd hvu), mmapTop_eq, kernbase_eq]
  omega

section

variable (h : Rep s.mem A) (hcow : A.CowHigh (s.proc p).pgdir) (hcur : (s.cpu c).proc = some p)
  (hd : A.role (s.proc p).pgdir = .dir) (hb : Bounded (s.proc p).mmap)
include h hcow hcur hd hb

/-- The loop of `exit` over the table changes nothing. -/
theorem Rep.exitMaps : wp (Xv6.exitMaps c p) (fun _ s' => s' = s) F s := by
  refine wp_forM (I := fun is s' => s' = s ∧ ∀ i ∈ is, i < maxMmaps)
    ⟨rfl, fun i hi => List.mem_range.mp hi⟩ ?_ |> wp_post <| fun _ _ h => h.1
  rintro i is s' ⟨rfl, his⟩
  have hi := his i List.mem_cons_self
  have hrest : s' = s' ∧ ∀ j ∈ is, j < maxMmaps := ⟨rfl, fun j hj => his j (List.mem_cons_of_mem i hj)⟩
  have hv := page_lt (hb i hi).1
  rw [wp_bind, wp_getProc, wp_bind, wp_onMem, h.wp_walk hd (hb i hi).1]
  cases ht : A.tab (s'.proc p).pgdir (((s'.proc p).mmap i).addr / pgsize / npdentries) with
  | none => exact (wp_pure ..).mpr hrest
  | some t =>
    rw [Option.map_some]
    dsimp only
    rw [wp_bind, wp_onMem, h.wp_load hd hv ht, wp_ite]
    split
    next hp =>
      rw [Bool.and_eq_true] at hp
      rw [wp_bind, wp_get, wp_ite]
      split
      · rw [wp_bind]
        refine wp_wunmap_none hcur (hb.findRegion ?_) ((wp_pure ..).mpr hrest)
        rw [p2v_pteAddr]
        exact hcow _ hv hp.1 hp.2
      · exact (wp_pure ..).mpr hrest
    next => exact (wp_pure ..).mpr hrest

theorem Rep.exit (hinit : F (.panic "init exiting") ∨ p ≠ s.initproc)
    (hfiles : F (.panic "fileclose") ∨ s.Referenced p (List.range nofile)) :
    wp (Xv6.exit c) (fun _ s' => s'.mem = s.mem ∧ s'.filewrites = s.filewrites ∧
      (s'.proc p).maps = (s.proc p).maps ∧ (s'.proc p).state = .zombie) F s := by
  unfold Xv6.exit
  rw [wp_bind, wp_myproc, hcur]
  dsimp only
  rw [wp_bind, wp_get, wp_ite]
  split
  next heq => exact (wp_throw ..).mpr (hinit.resolve_right fun hne => hne heq)
  rw [wp_bind]
  refine wp_post ((keeps_maps_closeFiles p).wp (wp_closeFiles_referenced hfiles)) fun _ s1 ⟨_, h1⟩ => ?_
  have hproc1 : (s1.proc p).maps = (s.proc p).maps := congrFun (congrArg (·.2.2.2) h1) p
  have hmmap1 : (s1.proc p).mmap = (s.proc p).mmap := congrArg (·.2.1) hproc1
  have hpgdir1 : (s1.proc p).pgdir = (s.proc p).pgdir := congrArg (·.1) hproc1
  have hmem1 : s1.mem = s.mem := congrArg (·.1) h1
  have hcpu1 : s1.cpu = s.cpu := congrArg (·.2.2.1) h1
  rw [wp_bind]
  refine wp_post (Rep.exitMaps (A := A) (by rw [hmem1]; exact h) (by rw [hpgdir1]; exact hcow)
    (by rw [hcpu1]; exact hcur) (by rw [hpgdir1]; exact hd) (by rw [hmmap1]; exact hb)) ?_
  rintro _ _ rfl
  rw [wp_bind, wp_getProc, wp_bind]
  refine wp_post ((keeps_maps_wakeup1 _).wp wp_wakeup1) fun _ s3 ⟨_, h3⟩ => ?_
  rw [wp_bind]
  refine wp_post ((keeps_maps_reparent p).wp wp_reparent) fun _ s4 ⟨_, h4⟩ => ?_
  have h := h4.trans (h3.trans h1)
  unfold toScheduler
  rw [wp_bind, wp_setProc, wp_modify]
  have hz := maps_setProc (q := p) (f := fun pr => { pr with state := .zombie }) (fun _ => rfl) s4
  refine ⟨congrArg (·.1) h, congrArg (·.2.1) h, ?_, ?_⟩
  · exact congrFun (congrArg (·.2.2.2) (hz.trans h)) p
  · show ((s4.setProc p fun pr => { pr with state := .zombie }).proc p).state = _
    rw [Kernel.setProc_self]

end

/-! ## The mappings of a zombie -/

/-- No mapping of the process is left, and what was loaded of files has been written. -/
structure Cleared (p : Nat) (s s' : Kernel) : Prop where
  slots : ∀ i < maxMmaps, ((s'.proc p).mmap i).used = false
  total : (s'.proc p).totalMmaps = 0
  pages : ∀ v, mmapBase ≤ v * pgsize → v < userPages →
    s'.mem.present (s.proc p).pgdir v = false
  written : ∃ ws, s'.filewrites = s.filewrites ++ ws ∧ ∀ i < maxMmaps,
    ((s.proc p).mmap i).used = true → flag ((s.proc p).mmap i).flags mapShared = true →
    ∀ v, ((s.proc p).mmap i).Touches v → s.mem.present (s.proc p).pgdir v = true →
      pageWrite s.mem (s.proc p) ((s.proc p).mmap i) v (frame (s.mem.entry (s.proc p).pgdir v)) ⊆ ws

/-- `exit` leaves a process without mappings exactly if it had none. -/
theorem exit_clears (hcur : (s.cpu c).proc = some p) (hpaged : Paged p s)
    (hb : Bounded (s.proc p).mmap) (hrun : exit c s = .ok ((), s')) :
    (s'.proc p).state = .zombie ∧ (Cleared p s s' ↔
      (∀ i < maxMmaps, ((s.proc p).mmap i).used = false) ∧ (s.proc p).totalMmaps = 0 ∧
        ∀ v, mmapBase ≤ v * pgsize → v < userPages → s.mem.present (s.proc p).pgdir v = false) := by
  obtain ⟨A, x, hrep, hs, hd⟩ := hpaged.mem
  obtain ⟨hmem, hwrites, hmaps, hzombie⟩ := wp_ok (F := fun _ => True)
    (hrep.exit (hs.mapped.cowHigh hd) hcur hd hb (.inl trivial) (.inl trivial)) hrun
  have hmmap : (s'.proc p).mmap = (s.proc p).mmap := congrArg (·.2.1) hmaps
  have htotal : (s'.proc p).totalMmaps = (s.proc p).totalMmaps := congrArg (·.2.2.1) hmaps
  refine ⟨hzombie, fun h => ?_, fun ⟨hslots, hzero, hpages⟩ => ?_⟩
  · have hslots := h.slots
    have hpages := h.pages
    rw [hmmap] at hslots
    rw [hmem] at hpages
    exact ⟨hslots, htotal ▸ h.total, hpages⟩
  · refine ⟨by rw [hmmap]; exact hslots, htotal.trans hzero, by rw [hmem]; exact hpages,
      [], by rw [hwrites, List.append_nil], fun i hi hu => ?_⟩
    rw [hslots i hi] at hu
    cases hu

/-! ## The child of the first process -/

theorem Child.exits {pr : Proc} (h : Child s A pr) (hb : Bounded pr.mmap)
    (hfiles : pr.ofile = fun _ => none) :
    ∃ s', exit 1 s = .ok ((), s') ∧ (s'.proc 1).maps = pr.maps ∧ (s'.proc 1).state = .zombie := by
  have hrefs := Kernel.referenced_none (by rw [h.proc]; exact hfiles) (List.range nofile)
  obtain ⟨_, s', hexit, -, -, hmaps, hzombie⟩ := wp_total (h.rep.exit
    (by rw [h.proc]; exact h.sane.mapped.cowHigh h.dir) h.here.cur (by rw [h.proc]; exact h.dir)
    (by rw [h.proc]; exact hb) (.inr (by rw [h.initproc]; decide)) (.inr hrefs))
  exact ⟨s', hexit, by rw [hmaps, h.proc], hzombie⟩

/-- The child maps two pages. -/
theorem Child.mapAnon {d f ncpu : Nat} (h : Child s A (newChild d f)) (hn : 1 < ncpu) :
    ∃ s', Step ncpu s (.syscall 1 (.wmap 0x60000000#32 0x2000#32
      (mapShared ||| mapAnonymous ||| mapFixed) 0#32)) s' ∧
      Child s' A { newChild d f with mmap := twoPages, totalMmaps := 1 } := by
  have hslot : wmapSlot (s.proc 1).mmap 0x60000000#32 0x2000#32
      (mapShared ||| mapAnonymous ||| mapFixed) = some 0 := by
    rw [h.proc]
    exact (by decide : wmapSlot (fun _ => .zero) 0x60000000#32 0x2000#32
      (mapShared ||| mapAnonymous ||| mapFixed) = some 0)
  exact ⟨_, step_wmap hn h.here (by rw [h.proc]; rfl) hslot (by decide), h.setProc rfl rfl rfl⟩

omit [Link] in
theorem bounded_twoPages : Bounded twoPages := by
  unfold Bounded
  decide

omit [Link] in
/-- The child of the first process maps two pages and exits with the mapping. -/
theorem exit_keeps_mapping : ∃ s0 s s' es, @Boot sampleLink 2 s0 ∧
    Trace.Run (@Step sampleLink 2) s0 es s ∧ @exit sampleLink 1 s = .ok ((), s') ∧
    (s'.proc 1).state = .zombie ∧ (s'.proc 1).mmap = twoPages ∧ ¬ Cleared 1 s s' := by
  let : Link := sampleLink
  obtain ⟨s0, A0, d0, f0, g0, hboot, hb⟩ := sample_boot
  obtain ⟨s1, A, d, f, hrun, hch1⟩ := hb.child (by decide : 1 < 2)
  obtain ⟨s, hstep, hch⟩ := hch1.mapAnon (by decide : 1 < 2)
  obtain ⟨s', hexit, hmaps, hz⟩ := hch.exits bounded_twoPages rfl
  have hmmap : (s'.proc 1).mmap = twoPages := congrArg (·.2.1) hmaps
  refine ⟨s0, s, s', _, hboot, .snoc hrun hstep, hexit, hz, hmmap, fun hcl => ?_⟩
  have := hcl.slots 0 (by decide)
  rw [hmmap] at this
  cases this

omit [Link] in
/-- A child that has mapped nothing leaves nothing. -/
theorem exit_clears_child : ∃ s0 s s' es, @Boot sampleLink 2 s0 ∧
    Trace.Run (@Step sampleLink 2) s0 es s ∧ @exit sampleLink 1 s = .ok ((), s') ∧
    Cleared 1 s s' := by
  let : Link := sampleLink
  obtain ⟨s0, A0, d0, f0, g0, hboot, hb⟩ := sample_boot
  obtain ⟨s, A, d, f, hrun, hch⟩ := hb.child (by decide : 1 < 2)
  have hbound : Bounded (newChild d f).mmap := fun _ _ => ⟨(by decide : 0 < uintSize), nofun⟩
  obtain ⟨s', hexit, -⟩ := hch.exits hbound rfl
  have hpaged : Paged 1 s := ⟨A, true, hch.rep, hch.sane, by rw [hch.proc]; exact hch.dir⟩
  refine ⟨s0, s, s', _, hboot, hrun, hexit,
    (exit_clears hch.here.cur hpaged (by rw [hch.proc]; exact hbound) hexit).2.mpr ⟨?_, ?_, ?_⟩⟩
  · rw [hch.proc]
    exact fun _ _ => rfl
  · rw [hch.proc]
    rfl
  · intro v hv hvu
    rw [hch.proc, hch.rep.present hch.dir (userPages_lt hvu), hch.rest v hvu]
    · exact flag_zero _
    · rintro rfl
      exact absurd hv (by decide)

end Xv6
