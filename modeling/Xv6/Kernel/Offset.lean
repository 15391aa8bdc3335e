import Xv6.Kernel.Loading

/-!
# The offset of a mapped file

A mapping shares the `struct file` of the descriptor it was made from, and with it the
offset.  The page fault handler puts the offset back after its read.  `wunmap` sets it to
the place of each present page, and `filewrite` moves it on; nobody puts it back.
-/

namespace Xv6

open Prog Function

variable {fs : Files} {f : Nat}

/-! ## How far `filewrite` moves the offset -/

/-- How far `filewrite` of `n` bytes at `off` moves the offset of a file on `ip`. -/
def File.advance (g : File) (ip : Inode) (off n : Nat) : Nat :=
  if !g.writable then 0
  else match g.type with
    | .inode =>
      if ip.type = .dev then if ip.major = consoleMajor then n else 0
      else written off n
    | _ => 0

theorem Files.Regular.advance {n : Nat} (h : fs.Regular f n) (off k : Nat) :
    (fs.file f).advance (fs.inode (fs.file f).ip) off k = written off k := by
  unfold File.advance
  rw [h.writable, h.type, h.ip, h.inode]
  rfl

/-- Writes change no more of an inode than its bytes, and do not make it shorter. -/
structure Inode.Grows (ip ip' : Inode) : Prop where
  type : ip'.type = ip.type
  major : ip'.major = ip.major
  size : ip.size ≤ ip'.size

theorem Inode.Grows.refl (ip : Inode) : ip.Grows ip := ⟨rfl, rfl, Nat.le_refl _⟩

theorem File.advance_grows {g : File} {ip ip' : Inode} (h : ip.Grows ip') (off n o : Nat) :
    { g with off := o }.advance ip' off n = g.advance ip off n := by
  unfold advance
  rw [h.type, h.major]

/-- The file has moved by what `filewrite` of `n` bytes moves it. -/
structure Moved (f off n : Nat) (fs fs' : Files) : Prop where
  file : fs'.file f =
    { fs.file f with off := off + (fs.file f).advance (fs.inode (fs.file f).ip) off n }
  inode : (fs.inode (fs.file f).ip).Grows (fs'.inode (fs.file f).ip)

theorem wp_filewriteLoop_dev (fuel : Nat) : ∀ {bs : List Byte} {fs : Files}, bs.length ≤ fuel →
    (fs.inode (fs.file f).ip).type = .dev →
    wp (filewriteLoop f fuel bs) (fun _ fs' => fs' = fs.seek f ((fs.file f).off +
      if (fs.inode (fs.file f).ip).major = consoleMajor then bs.length else 0)) (fun _ => True) fs := by
  induction fuel with
  | zero =>
    intro bs fs hlen _
    obtain rfl : bs = [] := List.length_eq_zero_iff.mp (by omega)
    rw [filewriteLoop, wp_pure]
    simp
  | succ fuel ih =>
    intro bs fs hlen hdev
    cases bs with
    | nil =>
      rw [filewriteLoop, wp_pure]
      simp
    | cons b bs =>
      have hmax : 0 < filewriteMax := by decide
      have hdrop : ((b :: bs).drop filewriteMax).length ≤ fuel := by
        rw [List.length_drop, List.length_cons] at *
        omega
      rw [filewriteLoop, wp_bind, wp_get, wp_bind]
      unfold writei
      rw [wp_bind, wp_get, wp_ite, if_pos hdev, wp_pure, wp_ite]
      by_cases hmajor : (fs.inode (fs.file f).ip).major = consoleMajor
      · rw [if_pos (decide_eq_true hmajor), wp_bind]
        unfold setFile
        rw [wp_modify]
        show wp (filewriteLoop f fuel ((b :: bs).drop filewriteMax)) _ _
          (fs.seek f ((fs.file f).off + ((b :: bs).take filewriteMax).length))
        have hfile := fs.seek_file f ((fs.file f).off + ((b :: bs).take filewriteMax).length)
        refine wp_post (ih hdrop (by rw [hfile]; exact hdev)) ?_
        rintro _ _ rfl
        rw [hfile, Files.seek_seek]
        dsimp only
        rw [show (fs.seek f _).inode = fs.inode from rfl, if_pos hmajor, if_pos hmajor, Nat.add_assoc,
          ← List.length_append, List.take_append_drop]
      · rw [if_neg (by simp [hmajor]), wp_pure, if_neg hmajor, Nat.add_zero, Files.seek_self]

/-- What `filewrite` does to the offset of its file, whatever the file is. -/
theorem wp_filewrite_moves {bs : List Byte} (hlen : bs.length ≤ pgsize)
    (hmax : (fs.file f).off + pgsize < uintSize)
    (hsize : (fs.file f).type = .inode → (fs.inode (fs.file f).ip).type ≠ .dev →
      (fs.file f).off ≤ (fs.inode (fs.file f).ip).size) :
    wp (filewrite f bs) (fun _ fs' => Moved f (fs.file f).off bs.length fs fs') (fun _ => True) fs := by
  have hstay : (fs.file f).advance (fs.inode (fs.file f).ip) (fs.file f).off bs.length = 0 →
      ∀ {fs' : Files}, fs'.file = fs.file → fs'.inode = fs.inode → Moved f (fs.file f).off bs.length fs fs' := by
    intro h0 fs' hfile hinode
    refine ⟨by rw [hfile, h0, Nat.add_zero], by rw [hinode]; exact .refl _⟩
  unfold filewrite
  rw [wp_bind, wp_get, wp_ite]
  cases hw : (fs.file f).writable with
  | false =>
    rw [if_pos (by decide), wp_pure]
    exact hstay (by unfold File.advance; rw [hw]; rfl) rfl rfl
  | true =>
    rw [if_neg (by decide)]
    cases htype : (fs.file f).type with
    | none => exact (wp_throw ..).mpr trivial
    | pipe =>
      dsimp only
      rw [wp_bind, wp_set, wp_pure]
      exact hstay (by unfold File.advance; rw [hw, htype]; rfl) rfl rfl
    | inode =>
      have hloop : wp (filewriteLoop f bs.length bs)
          (fun _ fs' => Moved f (fs.file f).off bs.length fs fs') (fun _ => True) fs := by
        by_cases hdev : (fs.inode (fs.file f).ip).type = .dev
        · refine wp_post (wp_filewriteLoop_dev _ (Nat.le_refl _) hdev) ?_
          rintro _ _ rfl
          refine ⟨?_, .refl _⟩
          rw [Files.seek_file]
          simp [File.advance, hw, htype, hdev]
        · refine wp_filewriteLoop _ (Nat.le_refl _) hlen hdev (hsize htype hdev) hmax fun _ => ?_
          have hle := written_le (fs.file f).off bs.length
          refine ⟨?_, ?_⟩
          · unfold Files.wrote
            dsimp only
            rw [update_self, List.length_take, Nat.min_eq_left hle]
            simp [File.advance, hw, htype, hdev]
          · unfold Files.wrote
            dsimp only
            rw [update_self]
            exact ⟨rfl, rfl, Nat.le_max_left ..⟩
      dsimp only
      rw [wp_bind]
      refine wp_post hloop fun ok fs' hmoved => ?_
      rw [wp_ite]
      split
      · exact (wp_pure ..).mpr hmoved
      · exact (wp_pure ..).mpr hmoved

/-- One page that `wunmap` writes. -/
theorem wp_flush_moves {w : FileWrite} (hf : w.file = f) (hmax : w.off + pgsize < uintSize)
    (hsize : (fs.file f).type = .inode → (fs.inode (fs.file f).ip).type ≠ .dev →
      w.off ≤ (fs.inode (fs.file f).ip).size) :
    wp (flush w) (fun _ fs' => Moved f w.off pgsize fs fs') (fun _ => True) fs := by
  subst hf
  have hfile := fs.seek_file w.file w.off
  unfold flush
  rw [wp_bind, wp_seek, wp_bind]
  refine wp_post (wp_filewrite_moves (Nat.le_of_eq (length_pageBytes _)) (by rw [hfile]; exact hmax)
    (by rw [hfile]; exact hsize)) fun _ fs' hmoved => ?_
  have hmf := hmoved.file
  have hmi := hmoved.inode
  rw [hfile, length_pageBytes] at hmf
  rw [hfile] at hmi
  rw [wp_pure]
  refine ⟨hmf.trans ?_, hmi⟩
  dsimp only
  rw [File.advance_grows (.refl _)]
  rfl

/-- The offset after all the pages of `wunmap`: where the last one left it. -/
theorem wp_flushAll_moves (ws : List FileWrite) : ∀ {fs : Files},
    (∀ w ∈ ws, w.file = f ∧ w.off + pgsize < uintSize ∧
      ((fs.file f).type = .inode → (fs.inode (fs.file f).ip).type ≠ .dev →
        w.off ≤ (fs.inode (fs.file f).ip).size)) →
    wp (ws.forM flush) (fun _ fs' => (fs'.file f).off = match ws.getLast?.map FileWrite.off with
      | none => (fs.file f).off
      | some o => o + (fs.file f).advance (fs.inode (fs.file f).ip) o pgsize)
      (fun _ => True) fs := by
  induction ws with
  | nil =>
    intro fs _
    rw [List.forM_eq_forM, List.forM_nil, wp_pure]
    rfl
  | cons w ws ih =>
    intro fs hws
    obtain ⟨⟨hf, hmax, hsize⟩, hrest⟩ := List.forall_mem_cons.mp hws
    rw [List.forM_eq_forM, List.forM_cons, wp_bind]
    refine wp_post (wp_flush_moves hf hmax hsize) fun _ fs1 hmoved => ?_
    refine wp_post (ih fun u hu => ?_) fun _ fs2 hoff => ?_
    · obtain ⟨hfu, hmu, hsu⟩ := hrest u hu
      refine ⟨hfu, hmu, fun ht hd => ?_⟩
      rw [hmoved.file] at ht hd ⊢
      rw [hmoved.inode.type] at hd
      exact (hsu ht hd).trans hmoved.inode.size
    · rw [hoff, hmoved.file, List.getLast?_cons]
      cases ws.getLast? with
      | none => rfl
      | some u =>
        rw [Option.getD_some, Option.map_some]
        dsimp only
        rw [File.advance_grows hmoved.inode]

/-! ## Page faults in the region -/

/-- Every read of a page has an outcome, and a regular file that gave bytes reaches to
the page. -/
theorem exists_readAt (fs : Files) (f off : Nat) : ∃ io fs',
    wp (readAt f off) (fun o fs1 => o = io ∧ fs1 = fs') (fun _ => True) fs ∧
      fs'.file = fs.file ∧ fs'.inode = fs.inode ∧ ((fs.file f).type = .inode →
        (fs.inode (fs.file f).ip).type ≠ .dev → io ≠ none → off ≤ (fs.inode (fs.file f).ip).size) := by
  cases hrun : readAt f off fs with
  | error e =>
    refine ⟨none, fs, wp_of_ok fun _ _ h => ?_, rfl, rfl, fun _ _ h => absurd rfl h⟩
    rw [hrun] at h
    cases h
  | ok r =>
    obtain ⟨hfile, hinode⟩ := wp_ok (wp_readAt_file f off) hrun
    refine ⟨r.1, r.2, wp_of_run hrun ⟨rfl, rfl⟩, hfile, hinode, fun htype hdev hio => ?_⟩
    obtain ⟨ho, -⟩ := wp_ok (wp_readAt_regular (F := fun _ => True) htype hdev) hrun
    by_contra hlt
    have hnone : (fs.inode (fs.file f).ip).read off pgsize = none := if_pos (.inl (by omega))
    rw [hnone, ite_self] at ho
    exact hio ho

/-- The descriptors of `p`, the open files and the inodes are as before. -/
structure Undisturbed (p : Nat) (s s' : Os) : Prop where
  ofile : (s'.kernel.proc p).ofile = (s.kernel.proc p).ofile
  killed : (s'.kernel.proc p).killed = (s.kernel.proc p).killed
  file : s'.files.file = s.files.file
  inode : s'.files.inode = s.files.inode

theorem Undisturbed.refl (p : Nat) (s : Os) : Undisturbed p s s := ⟨rfl, rfl, rfl, rfl⟩

theorem Undisturbed.trans {p : Nat} {s s' s'' : Os} (h : Undisturbed p s s')
    (h' : Undisturbed p s' s'') : Undisturbed p s s'' :=
  ⟨h'.ofile.trans h.ofile, h'.killed.trans h.killed, h'.file.trans h.file, h'.inode.trans h.inode⟩

variable [Link] {c p i va : Nat} {r : MmapRegion} {A A' : Space} {x : Bool} {s s' : Os}
  {vas : List Nat}

/-- A page fault in the region that `p` survives. -/
def FaultStep (c p : Nat) (r : MmapRegion) (s : Os) (va : Nat) (s' : Os) : Prop :=
  trapLoad c va s = .ok ((), s') ∧ r.addr ≤ va ∧ va < r.stop ∧ (s'.kernel.cpu c).proc = some p

/-- The pages of the region that are present are those of the faults `vas`. -/
structure Faulted (A : Space) (x : Bool) (c p i : Nat) (r : MmapRegion) (f : Nat)
    (vas : List Nat) (s : Os) : Prop where
  region : OverFile c p i r f s
  within : ∀ va ∈ vas, r.addr ≤ va ∧ va < r.stop
  rep : Rep s.kernel.mem A
  sane : Sane A x
  dir : A.role (s.kernel.proc p).pgdir = .dir
  present : ∀ v ∈ r.pages,
    flag (A.pte (s.kernel.proc p).pgdir v) pteP = true ↔ v ∈ vas.map (· / pgsize)
  plain : ∀ v ∈ r.pages, flag (A.pte (s.kernel.proc p).pgdir v) pteP = true →
    flag (A.pte (s.kernel.proc p).pgdir v) pteCow = false
  inside : (s.files.file f).type = .inode → (s.files.inode (s.files.file f).ip).type ≠ .dev →
    ∀ va ∈ vas, pgrounddown va - r.addr ≤ (s.files.inode (s.files.file f).ip).size

/-- A region no page of which is present. -/
theorem Faulted.of_absent (h : OverFile c p i r f s) (hrep : Rep s.kernel.mem A) (hs : Sane A x)
    (hd : A.role (s.kernel.proc p).pgdir = .dir)
    (habs : ∀ v ∈ r.pages, flag (A.pte (s.kernel.proc p).pgdir v) pteP = false) :
    Faulted A x c p i r f [] s := by
  refine ⟨h, nofun, hrep, hs, hd, fun v hv => ?_, fun v hv hp => ?_, fun _ _ => nofun⟩
  · rw [habs v hv]
    exact ⟨nofun, nofun⟩
  · rw [habs v hv] at hp
    cases hp

theorem Faulted.step (h : Faulted A x c p i r f vas s) (hstep : FaultStep c p r s va s') :
    Undisturbed p s s' ∧ ∃ A', Faulted A' x c p i r f (vas ++ [va]) s' := by
  obtain ⟨hrun, hlo, hhi, hcur⟩ := hstep
  have hover := h.region
  obtain ⟨k, hk⟩ := hover.region
  obtain ⟨io, fs', hread, hfile, hinode, hsize⟩ :=
    exists_readAt s.files f (pgrounddown va - r.addr)
  have hv := hover.good.page_mem hlo hhi
  have hlt := hover.good.ok.lt_userPages hv
  have hva := (hover.page_offset hlo hhi).2.2.2
  have hopen : openFile (s.kernel.proc p) ((s.kernel.proc p).mmap i).fd = some f := by
    rw [hk]
    exact hover.opened
  suffices hpost : wp (trapLoad c va) (fun _ s' => (s'.kernel.cpu c).proc = some p →
      Undisturbed p s s' ∧ ∃ A', Faulted A' x c p i r f (vas ++ [va]) s') (fun _ => True) s from
    wp_ok hpost hrun hcur
  refine wp_trapLoad io fs' ?_ ?_
  · intro p' i' hp' hi' f' hf'
    obtain rfl : p = p' := Option.some.inj (hover.cur.symm.trans hp')
    obtain rfl : i = i' := Option.some.inj ((hover.found va hlo hhi).symm.trans hi')
    obtain rfl : f = f' := Option.some.inj (hopen.symm.trans hf')
    rw [hk]
    exact hread
  · refine h.rep.trapPgflt_lazy hover.cur h.dir hva (h.plain _ hv) ?_
    unfold pagefaultDefault
    rw [wp_bind, wp_getProc, hover.found va hlo hhi]
    have hgone : ∀ m, wp (killSelf c p) (fun _ k => (((k.cpu c).proc = some p →
        Undisturbed p s { s with kernel := k } ∧
          ∃ A', Faulted A' x c p i r f (vas ++ [va]) { s with kernel := k }) ∧
        ((k.cpu c).proc = some p → Undisturbed p s ⟨k, fs'⟩ ∧
          ∃ A', Faulted A' x c p i r f (vas ++ [va]) ⟨k, fs'⟩))) (fun _ => True)
        { s.kernel with mem := m } := fun m =>
      wp_post (wp_killSelf_gone (Q := fun _ => False) hover.cur)
        (fun _ k hk => ⟨fun hp => (hk hp).elim, fun hp => (hk hp).elim⟩)
    refine h.rep.lazyAlloc h.dir hva (.inl trivial) (.inr (.inl ⟨trivial, trivial⟩)) ?_ ?_ ?_
    · intro m' _ _ _ _ _
      exact hgone m'
    · intro _ m' _ _ _ _ _ _
      exact hgone m'
    · intro g m' A' hfill hrep' _ _ hio
      have hnone : io ≠ none := fun hn => by
        have := hio hn
        rw [hk, show flag _ mapAnonymous = false from hover.backed] at this
        cases this
      have hext := hfill.extends h.rep.wf hlt perm_wu
      have hload := hover.loadedPage m'
      have hproc := s.kernel.loadedPage_proc p i m'
      have hmem : (s.kernel.loadedPage p i m').mem = m' := rfl
      generalize s.kernel.loadedPage p i m' = k1 at hload hproc hmem ⊢
      have hpg : (k1.proc p).pgdir = (s.kernel.proc p).pgdir := by rw [hproc]; rfl
      have hother : ∀ v, v ≠ va / pgsize →
          A'.pte (s.kernel.proc p).pgdir v = A.pte (s.kernel.proc p).pgdir v := fun v hne =>
        hext.pte _ v fun hn => hne hn.2
      -- the same whether or not the read has run
      have hdone : ∀ fs1 : Files, fs1.file = s.files.file → fs1.inode = s.files.inode →
          Undisturbed p s ⟨k1, fs1⟩ ∧ Faulted A' x c p i r f (vas ++ [va]) ⟨k1, fs1⟩ := by
        intro fs1 hf1 hi1
        refine ⟨⟨by rw [hproc]; rfl, by rw [hproc]; rfl, hf1, hi1⟩, ?_⟩
        refine ⟨⟨hload.cur, hload.region, hover.good, hover.backed, hload.found, hload.opened⟩,
          List.forall_mem_append.mpr ⟨h.within, List.forall_mem_singleton.mpr ⟨hlo, hhi⟩⟩,
          hmem ▸ hrep', hfill.sane h.rep.wf h.dir hlt perm_wu h.sane, ?_, ?_, ?_, ?_⟩
        · rw [hpg]
          exact hext.role_dir h.dir
        · intro v hv'
          rw [hpg, List.map_append, List.mem_append]
          by_cases hne : v = va / pgsize
          · rw [hne]
            exact ⟨fun _ => .inr (List.mem_singleton_self _), fun _ =>
              (names_iff.mp (hfill.names_self h.rep.wf perm_wu)).1⟩
          · rw [hother v hne, ← h.present v hv']
            exact ⟨.inl, fun hor => hor.resolve_right fun hm => hne (List.mem_singleton.mp hm)⟩
        · intro v hv' hp'
          rw [hpg] at hp' ⊢
          by_cases hne : v = va / pgsize
          · rw [hne, hfill.pte_self, flag_mkPte (by decide) (by decide)]
            decide
          · rw [hother v hne] at hp' ⊢
            exact h.plain v hv' hp'
        · dsimp only
          rw [hf1, hi1]
          intro ht hd a ha
          rcases List.mem_append.mp ha with ha | ha
          · exact h.inside ht hd a ha
          · rw [List.mem_singleton.mp ha]
            exact hsize ht hd hnone
      have hpost : ∀ fs1 : Files, fs1.file = s.files.file → fs1.inode = s.files.inode →
          (k1.cpu c).proc = some p → Undisturbed p s ⟨k1, fs1⟩ ∧
            ∃ A', Faulted A' x c p i r f (vas ++ [va]) ⟨k1, fs1⟩ := fun fs1 hf1 hi1 _ =>
        ⟨(hdone fs1 hf1 hi1).1, A', (hdone fs1 hf1 hi1).2⟩
      exact ⟨hpost _ rfl rfl, hpost fs' hfile hinode⟩

/-- Any number of faults. -/
theorem Faulted.run (h : Faulted A x c p i r f [] s) (hrun : Trace.Run (FaultStep c p r) s vas s') :
    Undisturbed p s s' ∧ ∃ A', Faulted A' x c p i r f vas s' := by
  induction hrun with
  | nil => exact ⟨.refl p s, A, h⟩
  | snoc _ hstep ih =>
    obtain ⟨hsame, A1, h1⟩ := ih
    obtain ⟨hsame', h2⟩ := h1.step hstep
    exact ⟨hsame.trans hsame', h2⟩

/-! ## The offset after `wunmap` -/

omit [Link] in
/-- The offset in the file of the last page of some addresses. -/
def MmapRegion.lastTouched (r : MmapRegion) (vas : List Nat) : Option Nat :=
  (vas.map fun va => pgrounddown va - r.addr).max?

omit [Link] in
theorem OverFile.writes_eq (m : Mem) (h : OverFile c p i r f s) (vs : List Nat) :
    A.writes m (s.kernel.proc p) r vs =
      (vs.filter fun v => flag (A.pte (s.kernel.proc p).pgdir v) pteP).map fun v =>
        ⟨f, v * pgsize - r.addr, m.page (frame (A.pte (s.kernel.proc p).pgdir v))⟩ := by
  have hwrite : ∀ v g, pageWrite m (s.kernel.proc p) r v g = [⟨f, v * pgsize - r.addr, m.page g⟩] := by
    intro v g
    unfold pageWrite
    rw [h.backed, if_neg (by decide), h.opened]
  unfold Space.writes
  induction vs with
  | nil => rfl
  | cons v vs ih =>
    rw [List.flatMap_cons, ih, List.filter_cons, hwrite]
    split <;> rfl

omit [Link] in
/-- The last element of an increasing list. -/
theorem le_of_getLast? {l : List Nat} (h : l.Pairwise (· < ·)) {v : Nat} (hv : l.getLast? = some v) :
    v ∈ l ∧ ∀ u ∈ l, u ≤ v := by
  obtain ⟨l', rfl⟩ := List.getLast?_eq_some_iff.mp hv
  refine ⟨List.mem_append_right _ (List.mem_singleton_self v), fun u hu => ?_⟩
  rcases List.mem_append.mp hu with hu | hu
  · exact ((List.pairwise_append.mp h).2.2 u hu v (List.mem_singleton_self v)).le
  · exact (List.mem_singleton.mp hu).le

/-- The last page that `wunmap` writes is the last one that was touched. -/
theorem Faulted.last (h : Faulted A x c p i r f vas s) :
    (A.writes s.kernel.mem (s.kernel.proc p) r r.pages).getLast?.map FileWrite.off =
      r.lastTouched vas := by
  have hdown : ∀ va, pgrounddown va = va / pgsize * pgsize := fun _ => rfl
  have hmem : ∀ v, v ∈ (r.pages.filter fun v => flag (A.pte (s.kernel.proc p).pgdir v) pteP) ↔
      ∃ va ∈ vas, va / pgsize = v := by
    intro v
    rw [List.mem_filter]
    constructor
    · rintro ⟨hv, hp⟩
      exact List.mem_map.mp ((h.present v hv).mp hp)
    · rintro ⟨va, hva, rfl⟩
      have hv := h.region.good.page_mem (h.within va hva).1 (h.within va hva).2
      exact ⟨hv, (h.present _ hv).mpr (List.mem_map_of_mem hva)⟩
  have hsorted : (r.pages.filter fun v => flag (A.pte (s.kernel.proc p).pgdir v) pteP).Pairwise
      (· < ·) := (List.pairwise_lt_range').filter _
  rw [h.region.writes_eq, List.getLast?_map, Option.map_map]
  unfold MmapRegion.lastTouched
  generalize (r.pages.filter fun v => flag (A.pte (s.kernel.proc p).pgdir v) pteP) = l at hmem hsorted ⊢
  cases hl : l.getLast? with
  | none =>
    obtain rfl := List.getLast?_eq_none_iff.mp hl
    have hvas : vas = [] := List.eq_nil_iff_forall_not_mem.mpr fun va hva =>
      List.not_mem_nil ((hmem _).mpr ⟨va, hva, rfl⟩)
    rw [hvas]
    rfl
  | some v =>
    obtain ⟨hv, hmax⟩ := le_of_getLast? hsorted hl
    obtain ⟨va, hva, rfl⟩ := (hmem v).mp hv
    have hlast : (vas.map fun va => pgrounddown va - r.addr).max? =
        some (pgrounddown va - r.addr) := by
      refine List.max?_eq_some_iff.mpr ⟨List.mem_map.mpr ⟨va, hva, rfl⟩, fun o ho => ?_⟩
      obtain ⟨a, ha, rfl⟩ := List.mem_map.mp ho
      have hle := hmax _ ((hmem _).mpr ⟨a, ha, rfl⟩)
      rw [hdown, hdown]
      exact Nat.sub_le_sub_right (Nat.mul_le_mul_right _ hle) _
    rw [hlast]
    rfl

/-- The offset that `read` and `write` on the descriptor `fd` of `p` see. -/
def Os.offset (s : Os) (p : Nat) (fd : Int) : Option Nat :=
  (openFile (s.kernel.proc p) fd).map fun f => (s.files.file f).off

omit [Link] in
/-- The only used slot that holds an address is the one the search finds. -/
theorem findRegion_eq {mmap : Nat → MmapRegion} {a : Nat} (hi : i < maxMmaps)
    (hu : (mmap i).used = true) (hlo : (mmap i).addr ≤ a) (hhi : a < (mmap i).stop)
    (hone : ∀ j < maxMmaps, (mmap j).used = true → (mmap j).addr ≤ a → a < (mmap j).stop → j = i) :
    findRegion mmap a = some i := by
  cases hf : findRegion mmap a with
  | none =>
    have := findRegion_none hf hi hu hlo
    omega
  | some j =>
    obtain ⟨hj, huj, hloj, hhij⟩ := findRegion_spec hf
    rw [hone j hj huj hloj hhij]

variable {ncpu j : Nat} {s0 s1 : Os} {a length flags fd : Word}

/-- The state after a file-backed `wmap`. -/
theorem osStep_wmap_file (hcur : (s0.kernel.cpu c).proc = some p)
    (hk : (s0.kernel.proc p).killed = false)
    (hslot : wmapSlot (s0.kernel.proc p).mmap a length flags = some i)
    (hanon : flag flags mapAnonymous = false)
    (hopen : openFile (s0.kernel.proc p) fd.toInt = some f)
    (hfree : freeFd (s0.kernel.proc p) = some j)
    (hmap : OsStep ncpu s0 (.kernel (.syscall c (.wmap a length flags fd))) s1) :
    s1 = ⟨{ (s0.kernel.setProc p fun pr => pr.mapFile i j f a length flags) with
      fileRef := Function.update s0.kernel.fileRef f (s0.kernel.fileRef f + 2) }, s0.files⟩ := by
  refine wp_ok (Q := fun _ s1 => s1 = _) (F := fun _ => True) ?_ hmap.2
  refine wp_flushing_none ?_
  rw [wp_onKernel]
  refine wp_syscall hcur hk ?_
  unfold Call.body
  rw [wp_bind]
  refine wp_wmap_file hcur hslot hanon hopen hfree (.inl trivial) ?_
  rw [wp_pure]
  refine wp_exitIfKilled hcur ?_ ⟨rfl, rfl⟩
  show ((s0.kernel.setProc p fun pr => pr.mapFile i j f a length flags).proc p).killed = false
  rw [Kernel.setProc_self]
  exact hk

/-- What a file-backed `wmap` leaves: a region over the file, no page of which is present. -/
theorem Faulted.start (hcur : (s1.kernel.cpu c).proc = some p) (hrep : Rep s1.kernel.mem A)
    (hs : Sane A x) (hd : A.role (s1.kernel.proc p).pgdir = .dir)
    (hslot : wmapSlot (s0.kernel.proc p).mmap a length flags = some i)
    (hanon : flag flags mapAnonymous = false) (hfree : freeFd (s0.kernel.proc p) = some j)
    (hproc : s1.kernel.proc p = (s0.kernel.proc p).mapFile i j f a length flags)
    (hempty : ∀ v ∈ ((s1.kernel.proc p).mmap i).pages,
      s1.kernel.mem.present (s1.kernel.proc p).pgdir v = false) :
    Faulted A x c p i ((s1.kernel.proc p).mmap i) f [] s1 := by
  have hslot' := (wmapSlot_spec hslot).1
  obtain ⟨hgood, hapart⟩ := wmapSlot_good hslot
    { (s0.kernel.proc p).mmap i with flags := flags, fd := j, used := true }
  have hself : (s1.kernel.proc p).mmap i = { (s0.kernel.proc p).mmap i with
      addr := a.toNat, length := length.toInt, flags := flags, fd := j, used := true } := by
    rw [hproc]
    exact update_self ..
  have hother : ∀ k ≠ i, (s1.kernel.proc p).mmap k = (s0.kernel.proc p).mmap k := fun k hk => by
    rw [hproc]
    exact update_of_ne hk ..
  have hj : j < nofile := List.mem_range.mp (List.mem_of_find?_eq_some hfree)
  rw [show MmapRegion.Good _ ↔ _ from by rw [← hself]] at hgood
  refine .of_absent ⟨hcur, ⟨_, rfl⟩, hgood, by rw [hself]; exact hanon, ?_, ?_⟩ hrep hs hd
    fun v hv => ?_
  · intro va hlo hhi
    refine findRegion_eq hslot' (by rw [hself]) hlo hhi fun k hk hu hklo hkhi => ?_
    by_contra hne
    rw [hother k hne] at hu hklo hkhi
    rw [hself] at hlo hhi
    unfold MmapRegion.stop at hhi
    dsimp only at hlo hhi
    rcases hapart k hk hu with hbefore | hafter
    · omega
    · omega
  · rw [hself, hproc]
    unfold openFile
    rw [if_neg (by dsimp only; omega)]
    exact update_self ..
  · rw [← hrep.present hd (userPages_lt (hgood.ok.lt_userPages hv))]
    exact hempty v hv

/-- The open files of the process and the offset of the mapped one after `wunmap`. -/
theorem Faulted.unmap (addr : Word) (h : Faulted A x c p i r f vas s)
    (hk : (s.kernel.proc p).killed = false) (hlo : r.addr ≤ addr.toNat) (hhi : addr.toNat < r.stop)
    (hun : OsStep ncpu s (.kernel (.syscall c (.wunmap addr))) s') :
    (s'.kernel.proc p).ofile = (s.kernel.proc p).ofile ∧
      (s'.files.file f).off = match r.lastTouched vas with
        | none => (s.files.file f).off
        | some o => o + (s.files.file f).advance (s.files.inode (s.files.file f).ip) o pgsize := by
  obtain ⟨hofile, hflush⟩ := h.region.unmap hk h.rep h.sane.mapped h.dir hlo hhi hun
  have hoff := wp_ok (wp_flushAll_moves (f := f) _ fun u hu => ?_) hflush
  · rw [h.last] at hoff
    exact ⟨hofile, hoff⟩
  obtain ⟨v, hv, hp, rfl⟩ := h.region.mem_writes.mp hu
  refine ⟨rfl, h.region.write_lt hu, fun ht hd => ?_⟩
  obtain ⟨va, hva, rfl⟩ := List.mem_map.mp ((h.present v hv).mp hp)
  exact h.inside ht hd va hva

/-- The offset that the descriptor of a mapped file shows after any faults in the
mapping and its `wunmap` is the old one, if and only if no page was touched, or the old
offset happens to be where writing the last of them back leaves it. -/
theorem mapping_keeps_offset {addr : Word} (hcur : (s0.kernel.cpu c).proc = some p)
    (hk : (s0.kernel.proc p).killed = false) (hpaged : Paged p s0.kernel)
    (hslot : wmapSlot (s0.kernel.proc p).mmap a length flags = some i)
    (hanon : flag flags mapAnonymous = false)
    (hopen : openFile (s0.kernel.proc p) fd.toInt = some f)
    (hfree : freeFd (s0.kernel.proc p) = some j)
    (hmap : OsStep ncpu s0 (.kernel (.syscall c (.wmap a length flags fd))) s1)
    (hempty : ∀ v ∈ ((s1.kernel.proc p).mmap i).pages,
      s0.kernel.mem.present (s0.kernel.proc p).pgdir v = false)
    (hrun : Trace.Run (FaultStep c p ((s1.kernel.proc p).mmap i)) s1 vas s)
    (hlo : a.toNat ≤ addr.toNat) (hhi : addr.toNat < ((s1.kernel.proc p).mmap i).stop)
    (hun : OsStep ncpu s (.kernel (.syscall c (.wunmap addr))) s') :
    s'.offset p fd.toInt = s0.offset p fd.toInt ↔
      ∀ o, ((s1.kernel.proc p).mmap i).lastTouched vas = some o → (s0.files.file f).off =
        o + (s0.files.file f).advance (s0.files.inode (s0.files.file f).ip) o pgsize := by
  obtain ⟨A, x, hrep, hs, hd⟩ := hpaged.mem
  have hs1 := osStep_wmap_file hcur hk hslot hanon hopen hfree hmap
  have hproc : s1.kernel.proc p = (s0.kernel.proc p).mapFile i j f a length flags := by
    rw [hs1]
    show (s0.kernel.setProc p fun pr => pr.mapFile i j f a length flags).proc p = _
    rw [Kernel.setProc_self]
  have hfiles : s1.files = s0.files := by rw [hs1]
  have hmem : s1.kernel.mem = s0.kernel.mem := by rw [hs1]; rfl
  have hpg : (s1.kernel.proc p).pgdir = (s0.kernel.proc p).pgdir := by rw [hproc]; rfl
  have hkilled : (s1.kernel.proc p).killed = false := by rw [hproc]; exact hk
  have haddr : ((s1.kernel.proc p).mmap i).addr = a.toNat := by
    rw [hproc]
    unfold Proc.mapFile
    dsimp only
    rw [update_self]
  have h0 : Faulted A x c p i ((s1.kernel.proc p).mmap i) f [] s1 :=
    .start (by rw [hs1]; exact hcur) (by rw [hmem]; exact hrep) hs (by rw [hpg]; exact hd) hslot
      hanon hfree hproc (by rw [hmem, hpg]; exact hempty)
  obtain ⟨hsame, A1, h1⟩ := h0.run hrun
  obtain ⟨hofile, hoff⟩ := h1.unmap addr (hsame.killed.trans hkilled) (by rw [haddr]; exact hlo) hhi hun
  rw [hsame.file, hsame.inode, hfiles] at hoff
  have hnow : openFile (s'.kernel.proc p) fd.toInt = some f := by
    unfold openFile at hopen ⊢
    rw [hofile, hsame.ofile, hproc]
    split at hopen
    · cases hopen
    next hfd =>
      rw [if_neg hfd]
      unfold Proc.mapFile
      dsimp only
      by_cases hj : fd.toInt.toNat = j
      · rw [hj, update_self]
      · rw [update_of_ne hj, hopen]
  unfold Os.offset
  rw [hnow, hopen, Option.map_some, Option.map_some, Option.some_inj, hoff]
  cases ((s1.kernel.proc p).mmap i).lastTouched vas with
  | none => exact ⟨fun _ => nofun, fun _ => rfl⟩
  | some o =>
    constructor
    · intro heq o' ho'
      obtain rfl := Option.some.inj ho'
      exact heq.symm
    · intro heq
      exact (heq o rfl).symm

/-! ## A run -/

/-- A disk with one regular file of one page. -/
def pageFiles : Files :=
  { sampleFiles with inode := fun _ => ⟨1, 1, .file, 0, 1, pgsize, fun _ => 0#8⟩ }

/-- The first process has mapped its file of one page, and no page is present. -/
theorem FirstMapped.viewed {k : Kernel} {d f g : Nat} {length : Word} {fs : Files}
    (h : FirstMapped k A d fs length s) (hb : Booted k A d f g) :
    Faulted A false 0 0 0 (firstRegion length) 0 [] s ∧
      Viewed A false (s.kernel.proc 0).pgdir (firstRegion length) (s.files.inode 0).data s.kernel.mem
        (s.files.inode 0).view := by
  have hrep : Rep s.kernel.mem A := by rw [h.mem]; exact hb.rep
  have hdir : A.role (s.kernel.proc 0).pgdir = .dir := by rw [h.here.pgdir]; exact hb.dir
  have habs : ∀ v ∈ (firstRegion length).pages,
      flag (A.pte (s.kernel.proc 0).pgdir v) pteP = false := by
    rw [h.here.pgdir]
    exact h.absent
  exact ⟨.of_absent h.region.overFile hrep (hb.sane false) hdir habs,
    .start hrep (hb.sane false) hdir h.region.good habs⟩

omit [Link] in
/-- The first process opens a file of one page and maps it, touches the page and unmaps
it: the offset is at the end of the file. -/
theorem mapping_moves_offset : ∃ b es s0 s1 s s', @Boot sampleLink 2 b.kernel ∧
    Trace.Run (@OsStep sampleLink 2) b es s0 ∧ s0.offset 0 0 = some 0 ∧
    @OsStep sampleLink 2 s0 (.kernel (.syscall 0
      (.wmap 0x60000000#32 0x1000#32 (mapShared ||| mapFixed) 0#32))) s1 ∧
    @FaultStep sampleLink 0 0 ((s1.kernel.proc 0).mmap 0) s1 0x60000000 s ∧
    @OsStep sampleLink 2 s (.kernel (.syscall 0 (.wunmap 0x60000000#32))) s' ∧
    s'.offset 0 0 = some pgsize := by
  let : Link := sampleLink
  obtain ⟨k, A, d, f, g, hboot, hb⟩ := sample_boot
  obtain ⟨es, fs1, s1, hrun, hmap, hfs, hm⟩ := hb.mapsFile (show 0 < 2 by decide) pageFiles 0x1000#32
    (by decide) rfl (by decide) (by decide)
  have hreg := hm.region
  obtain ⟨hstart, hview⟩ := hm.viewed hb
  have hhi : 0x60000000 < (firstRegion 0x1000#32).stop := by decide
  have habs : flag (A.pte (s1.kernel.proc 0).pgdir (0x60000000 / pgsize)) pteP = false := by
    rw [hm.here.pgdir]
    exact hm.absent _ (hreg.good.page_mem (Nat.le_refl _) hhi)
  have hload := hreg.overFile.touch (F := fun _ => False) hreg.covers hstart.rep rfl hstart.dir
    (Nat.le_refl _) hhi habs (by have := hb.free; omega)
  obtain ⟨_, _, htouch, gf, m', A', rfl, hfill, hrep', hkeep, hbytes⟩ := wp_total hload
  have hfault : FaultStep 0 0 (firstRegion 0x1000#32) s1 0x60000000 _ :=
    ⟨htouch, Nat.le_refl _, hhi, hm.here.cur⟩
  obtain ⟨hsame, A2, hend⟩ := hstart.run (.single hfault)
  have hsize : (s1.files.inode 0).size = pgsize := by
    rw [hm.inode]
    rfl
  have hview2 := hview.load (b := none) hreg.good (Nat.le_refl _) hhi habs hfill hrep' hkeep (by
    intro u hu hlo hhi'
    rw [hbytes u hu, hreg.regular.ip]
    refine if_pos ?_
    rw [hsize]
    exact Nat.sub_lt_left_of_lt_add hlo hhi')
  rw [← s1.kernel.loadedPage_pgdir 0 0 m'] at hview2
  obtain ⟨s', hun⟩ := (hreg.loadedPage m').step_wunmap 0x60000000#32 hview2 (show 0 < 2 by decide)
    (hm.here.loadedPage 0 m') (Nat.le_refl _) hhi
  obtain ⟨hofile, hoff⟩ := hend.unmap 0x60000000#32 (hreg.loadedPage m').alive (Nat.le_refl _) hhi hun
  refine ⟨⟨k, pageFiles⟩, es, _, s1, _, s', hboot, hrun, ?_, hmap, by rw [hm.slot]; exact hfault, hun, ?_⟩
  · unfold Os.offset
    dsimp only
    rw [hb.openFirst, ← hfs]
    show some (s1.files.file 0).off = some 0
    rw [hm.off]
  · have hnow : openFile (s'.kernel.proc 0) 0 = some 0 := by
      have hopen := hm.opened
      unfold openFile at hopen ⊢
      rw [hofile, hsame.ofile]
      exact hopen
    unfold Os.offset
    rw [hnow, Option.map_some, hoff, show (firstRegion 0x1000#32).lastTouched _ = some 0 from
      (by decide : (firstRegion 0x1000#32).lastTouched [0x60000000] = some 0)]
    dsimp only
    rw [hreg.regular.advance]
    decide

omit [Link] in
/-- A mapping that is never touched leaves the offset alone. -/
theorem mapping_keeps_offset_untouched : ∃ b es s0 s1 s', @Boot sampleLink 2 b.kernel ∧
    Trace.Run (@OsStep sampleLink 2) b es s0 ∧
    @OsStep sampleLink 2 s0 (.kernel (.syscall 0
      (.wmap 0x60000000#32 0x1000#32 (mapShared ||| mapFixed) 0#32))) s1 ∧
    @OsStep sampleLink 2 s1 (.kernel (.syscall 0 (.wunmap 0x60000000#32))) s' ∧
    s'.offset 0 0 = s0.offset 0 0 := by
  let : Link := sampleLink
  obtain ⟨k, A, d, f, g, hboot, hb⟩ := sample_boot
  obtain ⟨es, fs1, s1, hrun, hmap, hfs, hm⟩ := hb.mapsFile (show 0 < 2 by decide) pageFiles 0x1000#32
    (by decide) rfl (by decide) (by decide)
  obtain ⟨hstart, hview⟩ := hm.viewed hb
  have hhi : 0x60000000 < (firstRegion 0x1000#32).stop := by decide
  obtain ⟨s', hun⟩ := hm.region.step_wunmap 0x60000000#32 hview (show 0 < 2 by decide) hm.here
    (Nat.le_refl _) hhi
  have hpr := hb.openFirst
  have hdir : A.role (((k.dispatch 0 0).openFirst 0).proc 0).pgdir = .dir := by
    rw [hpr]
    exact hb.dir
  have hrep : Rep ((k.dispatch 0 0).openFirst 0).mem A := hb.rep
  refine ⟨⟨k, pageFiles⟩, es, _, s1, s', hboot, hrun, hmap, hun, ?_⟩
  refine (mapping_keeps_offset (c := 0) (p := 0) (i := 0) (f := 0) (j := 1)
    (at_dispatch k 0 0).cur ?_ ⟨A, false, hrep, hb.sane false, hdir⟩ ?_ (by decide) ?_ ?_ hmap ?_ .nil
    (Nat.le_refl _) (by rw [hm.slot]; exact hhi) hun).mpr nofun
  · rw [hpr]
    rfl
  · rw [hpr]
    exact (by decide : wmapSlot (fun _ => .zero) 0x60000000#32 0x1000#32 (mapShared ||| mapFixed) = some 0)
  · rw [hpr]
    rfl
  · rw [hpr]
    rfl
  · intro v hv
    rw [hm.slot] at hv
    rw [hrep.present hdir (userPages_lt (hm.region.good.ok.lt_userPages hv)), hpr]
    exact hm.absent v hv

end Xv6
