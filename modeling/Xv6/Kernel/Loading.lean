import Xv6.Kernel.Exiting
import Xv6.Kernel.WriteBack

/-!
# Page faults with their file

`trapPgflt` takes what `fileread` returns as an input.  Here the handler runs over the
kernel and the files, and reads the file itself: it puts the offset of the open file at
the page, reads, and puts the offset back.  `wp_trapLoad` says that it does what
`trapPgflt` does with the result of that read.

A region over a readable regular file is loaded page by page, in any order: the bytes of
the file, then zeros.
-/

namespace Xv6

open Prog Function

/-! ## The handler over the kernel and the files -/

/-- Read a page of an open file at `off`.  The offset of the file is put back. -/
def readAt (f off : Nat) : FM (Option (List Byte)) := do
  let s ← get
  setFile f fun g => { g with off := off }
  let io ← fileread f pgsize
  setFile f fun g => { g with off := (s.file f).off }
  pure io

/-- Load the page at `va` of a file-backed region into the frame `g`.  Returns whether
the read succeeded. -/
def loadFile (p g va : Nat) (r : MmapRegion) : O Bool := do
  let pr ← onKernel (getProc p)
  match ← onKernel (ofileAt pr r.fd) with
  | none => throw .nullDeref
  | some f =>
    match ← onFiles (readAt f (pgrounddown va - r.addr)) with
    | none => pure false
    | some bs => do
      onKernel (onMem (writeBytes g 0 (bs.take pgsize)))
      pure true

variable [Link]

/-- `lazyAlloc` with the read of the file. -/
def lazyLoad (c p va i : Nat) : O Unit := do
  let pr ← onKernel (getProc p)
  match ← onKernel (onMem kalloc) with
  | none => onKernel (killSelf c p)
  | some g => do
    onKernel (onMem (memset g 0#8))
    let ok ← onKernel
      (onMem (mappages pr.pgdir (pgrounddown va) pgsize (g * pgsize) (pteW ||| pteU)))
    if ok then do
      let loaded ← if !flag (pr.mmap i).flags mapAnonymous then loadFile p g va (pr.mmap i)
        else pure true
      if loaded then
        onKernel (setProc p fun pr =>
          pr.setMmap i fun r => { r with nLoadedPages := r.nLoadedPages + 1 })
      else do
        onKernel (onMem (kfree (kva g)))
        onKernel (killSelf c p)
    else do
      onKernel (onMem (kfree (kva g)))
      onKernel (killSelf c p)

/-- `pagefaultDefault` with the read of the file. -/
def searchLoad (c p va : Nat) : O Unit := do
  let pr ← onKernel (getProc p)
  match findRegion pr.mmap va with
  | none => onKernel (killSelf c p)
  | some i => lazyLoad c p va i

/-- The page fault trap with the read of the file. -/
def trapLoad (c va : Nat) : O Unit := do
  let p ← onKernel (myproc c)
  let pr ← onKernel (getProc p)
  match ← onKernel (onMem (walkpgdir pr.pgdir va false)) with
  | none => searchLoad c p va
  | some ptr => do
    let pte ← onKernel (onMem (load ptr))
    if !flag pte pteP then searchLoad c p va
    else if flag pte pteCow then onKernel (cowFault c p va ptr pte)
    else searchLoad c p va

/-! ## It does what the kernel's handler does -/

variable {c p i va : Nat} {s : Os} {fs : Files} {io : Option (List Byte)} {F : Fault → Prop}
  {Q : Unit → Os → Prop}

/-- The file at the page of `va` is read as `io`, and leaves the files as `fs`. -/
def Reads (F : Fault → Prop) (p i va : Nat) (s : Os) (io : Option (List Byte)) (fs : Files) : Prop :=
  ∀ f, openFile (s.kernel.proc p) ((s.kernel.proc p).mmap i).fd = some f →
    wp (readAt f (pgrounddown va - ((s.kernel.proc p).mmap i).addr))
      (fun o fs' => o = io ∧ fs' = fs) F s.files

omit [Link] in
theorem wp_ofileAt {pr : Proc} {fd : Int} {k : Kernel} :
    wp (ofileAt pr fd) (fun o k' => k' = k ∧ o = openFile pr fd) (fun _ => True) k := by
  unfold ofileAt openFile
  rw [wp_ite]
  split
  · rw [wp_pure, if_neg (by omega)]
    exact ⟨rfl, rfl⟩
  · exact (wp_throw ..).mpr trivial

omit [Link] in
theorem wp_loadFile {g : Nat} {r : MmapRegion} {Q : Bool → Os → Prop} 
    (hio : ∀ f, openFile (s.kernel.proc p) r.fd = some f →
      wp (readAt f (pgrounddown va - r.addr)) (fun o fs' => o = io ∧ fs' = fs) F s.files)
    (h : wp (loadPage p g r io) (fun b k => Q b ⟨k, fs⟩) F s.kernel) :
    wp (loadFile p g va r) Q F s := by
  unfold loadPage at h
  unfold loadFile
  rw [wp_bind, wp_getProc, wp_bind] at h
  rw [wp_bind, wp_onKernel, wp_getProc, wp_bind, wp_onKernel]
  refine wp_post (wp_and_ok h wp_ofileAt) ?_
  rintro o k ⟨hk, rfl, ho⟩
  cases o with
  | none => exact (wp_throw ..).mpr ((wp_throw ..).mp hk)
  | some f =>
    dsimp only
    rw [wp_bind, wp_onFiles]
    refine wp_post (hio f ho.symm) ?_
    rintro o fs' ⟨rfl, rfl⟩
    cases o with
    | none =>
      rw [wp_pure] at hk
      exact (wp_pure ..).mpr hk
    | some bs =>
      dsimp only at hk ⊢
      rw [wp_bind] at hk
      rw [wp_bind, wp_onKernel]
      refine wp_post hk ?_
      intro _ k' hk'
      rw [wp_pure] at hk' ⊢
      exact hk'

/-- Up to the read the two agree, and the files are as they were; after it they are
`fs`. -/
theorem wp_lazyLoad (hio : Reads F p i va s io fs)
    (h : wp (lazyAlloc c p va i io) (fun _ k => Q () { s with kernel := k } ∧ Q () ⟨k, fs⟩) F s.kernel) :
    wp (lazyLoad c p va i) Q F s := by
  unfold lazyAlloc at h
  unfold lazyLoad
  rw [wp_bind, wp_getProc, wp_bind, wp_onMem] at h
  rw [wp_bind, wp_onKernel, wp_getProc, wp_bind, wp_onKernel, wp_onMem]
  refine wp_post h ?_
  intro o m1 h1
  cases o with
  | none =>
    rw [wp_onKernel]
    exact wp_post h1 (fun _ _ hq => hq.1)
  | some g =>
    dsimp only at h1 ⊢
    rw [wp_bind, wp_onMem] at h1
    rw [wp_bind, wp_onKernel, wp_onMem]
    refine wp_post h1 ?_
    intro _ m2 h2
    rw [wp_bind, wp_onMem] at h2
    rw [wp_bind, wp_onKernel, wp_onMem]
    refine wp_post h2 ?_
    intro ok m3 h3
    cases ok with
    | false =>
      rw [wp_ite, if_neg (by decide), wp_bind, wp_onMem] at h3
      rw [wp_ite, if_neg (by decide), wp_bind, wp_onKernel, wp_onMem]
      refine wp_post h3 ?_
      intro _ m4 h4
      rw [wp_onKernel]
      exact wp_post h4 (fun _ _ hq => hq.1)
    | true =>
      rw [wp_ite, if_pos rfl] at h3 ⊢
      -- after the read
      have hrest : ∀ (b : Bool) (k : Kernel) (fs' : Files),
          wp (if b then setProc p fun pr =>
                pr.setMmap i fun r => { r with nLoadedPages := r.nLoadedPages + 1 }
              else do
                onMem (kfree (kva g))
                killSelf c p) (fun _ k => Q () ⟨k, fs'⟩) F k →
          wp (if b then onKernel (setProc p fun pr =>
                pr.setMmap i fun r => { r with nLoadedPages := r.nLoadedPages + 1 })
              else do
                onKernel (onMem (kfree (kva g)))
                onKernel (killSelf c p)) Q F ⟨k, fs'⟩ := by
        intro b k fs' hb
        cases b with
        | true => exact (wp_onKernel ..).mpr hb
        | false =>
          rw [if_neg (by decide), wp_bind] at hb ⊢
          rw [wp_onKernel]
          exact wp_post hb (fun _ _ hk => (wp_onKernel ..).mpr hk)
      by_cases hanon : (!flag ((s.kernel.proc p).mmap i).flags mapAnonymous) = true
      · rw [if_pos hanon, wp_bind] at h3 ⊢
        refine wp_loadFile (s := ⟨_, s.files⟩) hio (wp_post h3 ?_)
        intro b k hb
        exact hrest b k fs (wp_post hb (fun _ _ hq => hq.2))
      · rw [if_neg hanon, wp_bind, wp_pure] at h3 ⊢
        exact hrest true _ s.files (wp_post h3 (fun _ _ hq => hq.1))

theorem wp_searchLoad (hio : ∀ i, findRegion (s.kernel.proc p).mmap va = some i → Reads F p i va s io fs)
    (h : wp (pagefaultDefault c p va io) (fun _ k => Q () { s with kernel := k } ∧ Q () ⟨k, fs⟩)
      F s.kernel) : wp (searchLoad c p va) Q F s := by
  unfold pagefaultDefault at h
  unfold searchLoad
  rw [wp_bind, wp_getProc] at h
  rw [wp_bind, wp_onKernel, wp_getProc]
  cases hf : findRegion (s.kernel.proc p).mmap va with
  | none =>
    rw [hf] at h
    rw [wp_onKernel]
    exact wp_post h (fun _ _ hq => hq.1)
  | some i =>
    rw [hf] at h
    exact wp_lazyLoad (hio i hf) h

/-- The trap with the file does what the kernel's trap does with what the file holds. -/
theorem wp_trapLoad (io : Option (List Byte)) (fs : Files)
    (hio : ∀ p i, (s.kernel.cpu c).proc = some p →
      findRegion (s.kernel.proc p).mmap va = some i → Reads F p i va s io fs)
    (h : wp (trapPgflt c va io) (fun _ k => Q () { s with kernel := k } ∧ Q () ⟨k, fs⟩) F s.kernel) :
    wp (trapLoad c va) Q F s := by
  unfold trapPgflt at h
  unfold trapLoad
  rw [wp_bind, wp_myproc] at h
  rw [wp_bind, wp_onKernel, wp_myproc]
  cases hcur : (s.kernel.cpu c).proc with
  | none =>
    rw [hcur] at h
    exact h
  | some p =>
    rw [hcur] at h
    dsimp only at h ⊢
    rw [wp_bind, wp_getProc, wp_bind, wp_onMem] at h
    rw [wp_bind, wp_onKernel, wp_getProc, wp_bind, wp_onKernel, wp_onMem]
    -- walking the page table changes neither the slots nor the files
    have hsearch : ∀ m : Mem, wp (pagefaultDefault c p va io)
        (fun _ k => Q () { s with kernel := k } ∧ Q () ⟨k, fs⟩) F { s.kernel with mem := m } →
        wp (searchLoad c p va) Q F ⟨{ s.kernel with mem := m }, s.files⟩ := fun m hm =>
      wp_searchLoad (s := ⟨{ s.kernel with mem := m }, s.files⟩) (fun i hf => hio p i hcur hf) hm
    refine wp_post h ?_
    intro o m1 h1
    cases o with
    | none => exact hsearch m1 h1
    | some ptr =>
      dsimp only at h1 ⊢
      rw [wp_bind, wp_onMem] at h1
      rw [wp_bind, wp_onKernel, wp_onMem]
      refine wp_post h1 ?_
      intro pte m2 h2
      by_cases hp : (!flag pte pteP) = true
      · rw [if_pos hp] at h2 ⊢
        exact hsearch m2 h2
      rw [if_neg hp] at h2 ⊢
      by_cases hc : flag pte pteCow = true
      · rw [if_pos hc] at h2 ⊢
        rw [wp_onKernel]
        exact wp_post h2 (fun _ _ hq => hq.1)
      · rw [if_neg hc] at h2 ⊢
        exact hsearch m2 h2

/-! ## The read -/

/-- The files with another offset of `f`. -/
def Files.seek (fs : Files) (f off : Nat) : Files :=
  { fs with file := Function.update fs.file f { fs.file f with off := off } }

section

omit [Link]

@[simp] theorem Files.seek_self (fs : Files) (f : Nat) : fs.seek f (fs.file f).off = fs := by
  unfold seek
  rw [update_eq_self]

@[simp] theorem Files.seek_file (fs : Files) (f off : Nat) :
    (fs.seek f off).file f = { fs.file f with off := off } := update_self ..

@[simp] theorem Files.seek_seek (fs : Files) (f off off' : Nat) :
    (fs.seek f off).seek f off' = fs.seek f off' := by
  unfold seek
  simp only [update_self, update_idem]

theorem wp_seek (f off : Nat) (Q : Unit → Files → Prop) :
    wp (setFile f fun g => { g with off := off }) Q F fs ↔ Q () (fs.seek f off) := wp_modify ..

/-- A read moves the offset of its own file only, and writes to no inode. -/
theorem wp_fileread_file (f n : Nat) : wp (fileread f n)
    (fun _ fs' => (∃ o, fs'.file = (fs.seek f o).file) ∧ fs'.inode = fs.inode)
    (fun _ => True) fs := by
  have hsame : ∃ o, fs.file = (fs.seek f o).file := ⟨(fs.file f).off, by rw [fs.seek_self]⟩
  unfold fileread
  rw [wp_bind, wp_get, wp_ite]
  split
  · exact (wp_pure ..).mpr ⟨hsame, rfl⟩
  cases htype : (fs.file f).type with
  | none => exact (wp_throw ..).mpr trivial
  | pipe =>
    unfold piperead
    dsimp only
    rw [wp_bind, wp_bind, wp_get, wp_bind, wp_set, wp_pure, wp_pure]
    exact ⟨hsame, rfl⟩
  | inode =>
    have hread : wp (readi (fs.file f).ip (fs.file f).off n)
        (fun _ fs' => fs'.file = fs.file ∧ fs'.inode = fs.inode) (fun _ => True) fs := by
      unfold readi consoleread
      rw [wp_bind, wp_get, wp_ite, wp_ite]
      split
      · split
        · rw [wp_bind, wp_bind, wp_get, wp_bind, wp_set, wp_pure, wp_pure]
          exact ⟨rfl, rfl⟩
        · exact (wp_pure ..).mpr ⟨rfl, rfl⟩
      · exact (wp_pure ..).mpr ⟨rfl, rfl⟩
    dsimp only
    rw [wp_bind]
    refine wp_post hread ?_
    rintro o fs' ⟨hfile, hinode⟩
    cases o with
    | none => exact (wp_pure ..).mpr ⟨by rw [hfile]; exact hsame, hinode⟩
    | some bs =>
      unfold setFile
      dsimp only
      rw [wp_bind, wp_modify, wp_pure]
      exact ⟨⟨(fs.file f).off + bs.length, by unfold Files.seek; rw [hfile]⟩, hinode⟩

/-- Whatever the file is, the open files and the inodes are as before. -/
theorem wp_readAt_file (f off : Nat) : wp (readAt f off)
    (fun _ fs' => fs'.file = fs.file ∧ fs'.inode = fs.inode) (fun _ => True) fs := by
  unfold readAt
  rw [wp_bind, wp_get, wp_bind, wp_seek, wp_bind]
  refine wp_post (wp_fileread_file f pgsize) ?_
  rintro _ fs' ⟨⟨o, hfile⟩, hinode⟩
  rw [Files.seek_seek] at hfile
  rw [wp_bind, wp_seek, wp_pure]
  have hback : (fs'.seek f (fs.file f).off).file = ((fs.seek f o).seek f (fs.file f).off).file := by
    unfold Files.seek at *
    rw [hfile]
  rw [hback, Files.seek_seek, Files.seek_self]
  exact ⟨rfl, hinode⟩

theorem wp_fileread_regular {f n : Nat} (htype : (fs.file f).type = .inode)
    (hinode : (fs.inode (fs.file f).ip).type ≠ .dev) :
    wp (fileread f n) (fun o fs' => o = (if (fs.file f).readable then
      (fs.inode (fs.file f).ip).read (fs.file f).off n else none) ∧ ∃ off, fs' = fs.seek f off) F fs := by
  have hsame : ∃ off, fs = fs.seek f off := ⟨_, (fs.seek_self f).symm⟩
  unfold fileread
  rw [wp_bind, wp_get, wp_ite]
  cases hread : (fs.file f).readable with
  | false =>
    rw [if_pos (by decide), wp_pure]
    exact ⟨rfl, hsame⟩
  | true =>
    rw [if_neg (by decide), if_pos rfl, htype]
    dsimp only
    unfold readi
    rw [wp_bind, wp_bind, wp_get, wp_ite, if_neg hinode, wp_pure]
    cases (fs.inode (fs.file f).ip).read (fs.file f).off n with
    | none => exact (wp_pure ..).mpr ⟨rfl, hsame⟩
    | some bs =>
      unfold setFile
      dsimp only
      rw [wp_bind, wp_modify, wp_pure]
      exact ⟨rfl, _, rfl⟩

/-- A regular file is read at the page. -/
theorem wp_readAt_regular {f off : Nat} (htype : (fs.file f).type = .inode)
    (hinode : (fs.inode (fs.file f).ip).type ≠ .dev) :
    wp (readAt f off) (fun o fs' => o = (if (fs.file f).readable then
      (fs.inode (fs.file f).ip).read off pgsize else none) ∧ fs' = fs) F fs := by
  have hfile := fs.seek_file f off
  unfold readAt
  rw [wp_bind, wp_get, wp_bind, wp_seek, wp_bind]
  refine wp_post (wp_fileread_regular (by rw [hfile]; exact htype) (by rw [hfile]; exact hinode)) ?_
  rintro o _ ⟨ho, off', rfl⟩
  rw [wp_bind, wp_seek, wp_pure, Files.seek_seek, Files.seek_seek, Files.seek_self]
  rw [hfile] at ho
  exact ⟨ho, rfl⟩

end

/-! ## A region over an open file -/

/-- The file is readable and has blocks, and the region is not longer. -/
structure Files.Covers (fs : Files) (f : Nat) (r : MmapRegion) : Prop where
  type : (fs.file f).type = .inode
  inode : (fs.inode (fs.file f).ip).type ≠ .dev
  readable : (fs.file f).readable = true
  length : r.length ≤ (fs.inode (fs.file f).ip).size

/-- A byte of a file, followed by zeros. -/
def Inode.byteAt (ip : Inode) (o : Nat) : Byte := if o < ip.size then ip.data o else 0#8

variable {r : MmapRegion} {f d : Nat} {A A' : Space}

namespace OverFile

omit [Link] in
theorem loadedPage (h : OverFile c p i r f s) (m : Mem) :
    OverFile c p i r f { s with kernel := s.kernel.loadedPage p i m } := by
  obtain ⟨k, hk⟩ := h.region
  refine ⟨h.cur, ⟨k + 1, ?_⟩, h.good, h.backed, fun va hlo hhi => ?_, ?_⟩
  · rw [s.kernel.loadedPage_mmap, hk]
  · rw [s.kernel.loadedPage_find]
    exact h.found va hlo hhi
  · rw [s.kernel.loadedPage_proc]
    exact h.opened

omit [Link] in
/-- Where the page of an address of the region is in the file. -/
theorem page_offset (h : OverFile c p i r f s) (hlo : r.addr ≤ va) (hhi : va < r.stop) :
    r.addr ≤ pgrounddown va ∧ pgrounddown va + pgsize < uintSize ∧
      r.stop = r.addr + r.length.toNat ∧ va < uintSize := by
  have hstop := h.good.stop
  have hal := h.good.aligned
  have hin := h.good.inside (by omega)
  have hpos := h.good.pos
  have hdown : pgrounddown va = va / pgsize * pgsize := rfl
  rw [mmapTop_eq] at hstop hin
  have hsum : (r.stop : Int) = r.addr + r.length :=
    uadd_of_lt (a := r.addr) h.good.pos.le (by rw [uintSize_eq]; omega)
  rw [pgsize_eq] at *
  rw [uintSize_eq]
  omega

/-- The first touch of a page loads it. -/
theorem touch (h : OverFile c p i r f s) (hfile : s.files.Covers f r) (hrep : Rep s.kernel.mem A)
    (hpgdir : (s.kernel.proc p).pgdir = d) (hd : A.role d = .dir) (hlo : r.addr ≤ va)
    (hhi : va < r.stop) (habs : flag (A.pte d (va / pgsize)) pteP = false)
    (hfree : 2 ≤ A.free.length) :
    wp (trapLoad c va) (fun _ s' => ∃ g m' A', s' = { s with kernel := s.kernel.loadedPage p i m' } ∧
      Fill A d (va / pgsize) (pteW ||| pteU) g A' ∧ Rep m' A' ∧ KeepData A s.kernel.mem m' ∧
      ∀ a, a / pgsize = va / pgsize →
        m'.page g (a % pgsize) = (s.files.inode (s.files.file f).ip).byteAt (a - r.addr)) F s := by
  obtain ⟨k, hk⟩ := h.region
  obtain ⟨hbase, hend, hstop, hva⟩ := h.page_offset hlo hhi
  have hlen := hfile.length
  have hdown : pgrounddown va = va / pgsize * pgsize := rfl
  have hoff : pgrounddown va - r.addr ≤ (s.files.inode (s.files.file f).ip).size := by
    rw [pgsize_eq] at hdown
    omega
  have hopen : openFile (s.kernel.proc p) ((s.kernel.proc p).mmap i).fd = some f := by
    rw [hk]
    exact h.opened
  refine wp_trapLoad ((s.files.inode (s.files.file f).ip).read (pgrounddown va - r.addr) pgsize)
    s.files ?_ ?_
  · intro p' i' hp' hi' f' hf'
    obtain rfl : p = p' := Option.some.inj (h.cur.symm.trans hp')
    obtain rfl : i = i' := Option.some.inj ((h.found va hlo hhi).symm.trans hi')
    obtain rfl : f = f' := Option.some.inj (hopen.symm.trans hf')
    rw [hk]
    refine wp_post (wp_readAt_regular hfile.type hfile.inode) ?_
    rintro o fs' ⟨ho, rfl⟩
    rw [hfile.readable, if_pos rfl] at ho
    exact ⟨ho, rfl⟩
  · subst hpgdir
    refine hrep.trapPgflt_absent h.cur hd hva habs ?_
    unfold pagefaultDefault
    rw [wp_bind, wp_getProc, h.found va hlo hhi]
    refine hrep.lazyAlloc hd hva (.inr habs) (.inr (.inr (by rw [hopen]; rfl))) ?_ ?_ ?_
    · intro _ _ _ _ hshort
      have := hshort.length_le
      omega
    · intro _ _ _ _ hio
      unfold Inode.read at hio
      rw [if_neg (by rw [Nat.mod_eq_of_lt (by omega)]; omega)] at hio
      cases hio
    · intro g m' A' hfill hrep' hkeep hpage _
      refine (and_self_iff).mpr ⟨g, m', A', rfl, hfill, hrep', hkeep, fun a ha => ?_⟩
      have hmod := Nat.div_add_mod a pgsize
      have hlt := Nat.mod_lt a (show 0 < pgsize by decide)
      have hsum : pgrounddown va - r.addr + a % pgsize = a - r.addr := by
        rw [ha] at hmod
        rw [pgsize_eq] at *
        omega
      rw [hpage, hk]
      refine (Inode.lazyPage_read h.backed hoff (by omega) hlt).trans ?_
      rw [hsum]
      rfl

/-- The touches of some absent pages, one after the other. -/
theorem touches (vas : List Nat) : ∀ {s : Os} {A : Space}, OverFile c p i r f s →
    s.files.Covers f r → Rep s.kernel.mem A → (s.kernel.proc p).pgdir = d → A.role d = .dir →
    (∀ va ∈ vas, r.addr ≤ va ∧ va < r.stop) → (vas.map (· / pgsize)).Nodup →
    (∀ va ∈ vas, flag (A.pte d (va / pgsize)) pteP = false) → 2 * vas.length ≤ A.free.length →
    wp (vas.forM fun va => trapLoad c va) (fun _ s' => s'.files = s.files ∧
      (s'.kernel.proc p).pgdir = d ∧ ∃ A', Rep s'.kernel.mem A' ∧ A'.role d = .dir ∧
        KeepData A s.kernel.mem s'.kernel.mem ∧
        (∀ v, v ∉ vas.map (· / pgsize) → A'.pte d v = A.pte d v) ∧
        ∀ va ∈ vas, ∃ g, Managed g ∧ A'.pte d (va / pgsize) = mkPte (g * pgsize) (pteW ||| pteU) ∧
          ∀ a, a / pgsize = va / pgsize → s'.kernel.mem.page g (a % pgsize) =
            (s.files.inode (s.files.file f).ip).byteAt (a - r.addr)) F s := by
  induction vas with
  | nil =>
    intro s A _ _ hrep hpgdir hd _ _ _ _
    rw [List.forM_eq_forM, List.forM_nil, wp_pure]
    exact ⟨rfl, hpgdir, A, hrep, hd, fun _ _ => rfl, fun _ _ => rfl, nofun⟩
  | cons va vas ih =>
    intro s A h hfile hrep hpgdir hd hin hnodup habs hfree
    obtain ⟨⟨hlo, hhi⟩, hin'⟩ := List.forall_mem_cons.mp hin
    obtain ⟨habs0, habs'⟩ := List.forall_mem_cons.mp habs
    obtain ⟨hnot, hnodup'⟩ := List.nodup_cons.mp hnodup
    rw [List.length_cons] at hfree
    have hlt : va / pgsize < userPages := h.good.ok.lt_userPages (h.good.page_mem hlo hhi)
    rw [List.forM_eq_forM, List.forM_cons, wp_bind]
    refine wp_post (h.touch hfile hrep hpgdir hd hlo hhi habs0 (by omega)) ?_
    rintro _ _ ⟨g, m1, A1, rfl, hfill, hrep1, hkeep1, hbytes⟩
    have hext := hfill.extends hrep.wf hlt perm_wu
    have hlen := hfill.length
    have hman : Managed g := hrep.wf.managed g (by rw [hfill.fresh hrep.wf]; decide)
    have hdata : ∀ v, v ≠ va / pgsize → A1.pte d v = A.pte d v := fun v hv =>
      hext.pte d v fun hn => hv hn.2
    have hne : ∀ a ∈ vas, a / pgsize ≠ va / pgsize := fun a ha heq =>
      hnot (List.mem_map.mpr ⟨a, ha, heq⟩)
    refine wp_post (ih (h.loadedPage m1) hfile hrep1 (by rw [s.kernel.loadedPage_pgdir]; exact hpgdir)
      (hext.role_dir hd) hin' hnodup' (fun a ha => by rw [hdata _ (hne a ha)]; exact habs' a ha)
      (by omega)) ?_
    rintro _ s2 ⟨hfiles2, hpgdir2, A2, hrep2, hd2, hkeep2, hpte2, hbytes2⟩
    refine ⟨hfiles2, hpgdir2, A2, hrep2, hd2, hkeep1.trans (fun e he => ?_) hkeep2, ?_,
      List.forall_mem_cons.mpr ⟨⟨g, hman, ?_, fun a ha => ?_⟩, hbytes2⟩⟩
    · rw [hext.grow.role e (by rw [he]; decide), he]
    · intro v hv
      rw [List.map_cons, List.mem_cons, not_or] at hv
      rw [hpte2 v hv.2, hdata v hv.1]
    · rw [hpte2 _ hnot, hfill.pte_self]
    · rw [hkeep2 g hfill.role_self]
      exact hbytes a ha

end OverFile

/-! ## Loading in any order -/

/-- The pages of `vas` have been loaded from the file, and nothing else is mapped. -/
structure Loads (p : Nat) (r : MmapRegion) (ip : Inode) (vas : List Nat) (s s' : Os) : Prop where
  bytes : ∀ va ∈ vas, ∀ a, a / pgsize = va / pgsize →
    s'.kernel.sees p a = some (ip.byteAt (a - r.addr))
  others : ∀ v < npdentries * npdentries, v ∉ vas.map (· / pgsize) →
    s'.kernel.mem.entry (s'.kernel.proc p).pgdir v = s.kernel.mem.entry (s.kernel.proc p).pgdir v
  files : s'.files = s.files

/-- A disk with one regular file of 5000 bytes. -/
def partFiles : Files :=
  { sampleFiles with
    inode := fun _ => ⟨1, 1, .file, 0, 1, 5000, fun o => BitVec.ofNat 8 (o / pgsize + 1)⟩ }

omit [Link] in
theorem FileRegion.covers {n : Nat} (h : FileRegion c p i r f n s) : s.files.Covers f r :=
  ⟨h.regular.type, by rw [h.regular.ip, h.regular.inode]; decide, h.regular.readable,
    by rw [h.regular.ip]; exact h.length.le⟩

end Xv6
