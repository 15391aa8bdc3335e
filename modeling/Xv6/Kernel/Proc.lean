import Xv6.Kernel.Wmap

/-!
# Processes (`proc.c`, and `copyuvm` of `vm.c`)

`fork` shares the pages below `sz` copy-on-write (`copyuvm`), copies the used
slots of the table of mappings, duplicates the open files, and then walks every
slot whose flags say `MAP_SHARED`, used or not, to map its pages in the child
(`shareLoop`).  It ends by loading the child's directory into CR3.

`exit` and `wait` follow the C code with the locks left out: each runs to the
point where it gives up the processor.  `wait` returns `none` when it went to
sleep.
-/

namespace Xv6

variable [Link]

/-! ## Slots -/

/-- The first unused slot of the process table. -/
def unusedProc (s : Kernel) : Option Nat :=
  (List.range nproc).find? fun p => (s.proc p).state = .unused

/-- Take an unused slot and give it a kernel stack. -/
def allocproc : K (Option Nat) := do
  let s ← get
  match unusedProc s with
  | none => pure none
  | some p => do
    setProc p fun pr => { pr with state := .embryo, pid := s.nextpid }
    modify fun s => { s with nextpid := s.nextpid + 1 }
    match ← onMem kalloc with
    | none => do
      setProc p fun pr => { pr with kstack := 0, state := .unused }
      pure none
    | some f => do
      setProc p fun pr => { pr with kstack := f, cont := .user, totalMmaps := 0 }
      pure (some p)

/-- Wake the processes that sleep on a channel. -/
def wakeup1 (chan : Option Nat) : K Unit := modify fun s =>
  { s with proc := fun p =>
      if p < nproc ∧ (s.proc p).state = .sleeping ∧ (s.proc p).chan = chan
      then { s.proc p with state := .runnable } else s.proc p }

/-! ## Growing -/

/-- Grow the current process by `n` bytes. -/
def growproc (c : Nat) (n : Int) : K Int := do
  let p ← myproc c
  let pr ← getProc p
  if 0 < n then do
    let sz ← onMem (allocuvm pr.pgdir pr.sz (uadd pr.sz n))
    if sz = 0 then pure (-1)
    else do
      setProc p fun pr => { pr with sz := sz }
      switchuvm c p
      pure 0
  else if n < 0 then do
    let sz ← onMem (deallocuvm pr.pgdir pr.sz (uadd pr.sz n))
    if sz = 0 then pure (-1)
    else do
      setProc p fun pr => { pr with sz := sz }
      switchuvm c p
      pure 0
  else do
    switchuvm c p
    pure 0

/-! ## `fork` -/

/-- The loop of `copyuvm` over the pages of the parent. -/
def copyLoop (c pgdir d : Nat) : List Nat → K Bool
  | [] => pure true
  | v :: vs => do
    match ← onMem (walkpgdir pgdir (v * pgsize) false) with
    | none => panic "copyuvm: pte should exist"
    | some ptr => do
      let pte ← onMem (load ptr)
      if !flag pte pteP then panic "copyuvm: page not present"
      else do
        let flags := if flag (pteFlags pte) pteW then toCow (pteFlags pte) else pteFlags pte
        if flag (pteFlags pte) pteW then do
          lcr3 c pgdir
          onMem (store ptr (toCow pte))
          lcr3 c pgdir
        -- the second update of the parent's entry is not guarded
        let cur ← onMem (load ptr)
        onMem (store ptr (toCow cur))
        lcr3 c pgdir
        let ok ← onMem (mappages d (v * pgsize) pgsize (pteAddr pte) flags)
        if ok then do
          onMem (incref (pteAddr pte))
          copyLoop c pgdir d vs
        else pure false

/-- A directory for a child that shares the parent's pages.  When a page table
cannot be allocated the new directory is dropped, not freed. -/
def copyuvm (c pgdir sz : Nat) : K (Option Nat) := do
  match ← onMem setupkvm with
  | none => pure none
  | some d => do
    let ok ← copyLoop c pgdir d (List.range (npages sz))
    lcr3 c pgdir
    if ok then pure (some d) else pure none

/-- Duplicate the open files of `p` for its child `np`. -/
def dupFiles (p np : Nat) : K Unit :=
  (List.range nofile).forM fun i => do
    let pr ← getProc p
    match pr.ofile i with
    | none => pure ()
    | some f => do
      filedup f
      setProc np fun n => { n with ofile := Function.update n.ofile i (some f) }

/-- Map the pages at the addresses `as` of the parent in the child. -/
def shareLoop (pgdir d : Nat) : List Nat → M Unit
  | [] => pure ()
  | a :: as => do
    match ← walkpgdir pgdir a false with
    | none => throw .nullDeref
    | some ptr => do
      let pte ← load ptr
      let flags := if flag (pteFlags pte) pteCow then pteFlags pte &&& ~~~pteCow
        else pteFlags pte
      let ok ← mappages d a pgsize (pteAddr pte) flags
      if ok then do
        incref (pteAddr pte)
        shareLoop pgdir d as
      else shareLoop pgdir d as

/-- The addresses the second loop of `fork` visits: every slot that says
`MAP_SHARED`, whether it is used or not. -/
def sharedAddrs (mmap : Nat → MmapRegion) : List Nat :=
  (List.range maxMmaps).flatMap fun i =>
    if flag (mmap i).flags mapShared then (mmap i).addrs else []

/-- Create a process that copies the current one. -/
def fork (c : Nat) : K Int := do
  let p ← myproc c
  match ← allocproc with
  | none => pure (-1)
  | some np => do
    let cur ← getProc p
    match ← copyuvm c cur.pgdir cur.sz with
    | none => do
      let n ← getProc np
      onMem (kfree (kva n.kstack))
      setProc np fun n => { n with pgdir := 0, kstack := 0, state := .unused }
      pure (-1)
    | some d => do
      setProc np fun n =>
        { n with
          pgdir := d, sz := cur.sz, parent := some p, totalMmaps := cur.totalMmaps
          mmap := fun i => if i < maxMmaps ∧ (cur.mmap i).used then cur.mmap i else n.mmap i }
      dupFiles p np
      onMem (shareLoop cur.pgdir d (sharedAddrs cur.mmap))
      setProc np fun n => { n with state := .runnable }
      lcr3 c d
      let n ← getProc np
      pure n.pid

/-! ## `exit`, `wait` and `kill` -/

/-- Close the open files. -/
def closeFiles (p : Nat) : K Unit :=
  (List.range nofile).forM fun i => do
    let pr ← getProc p
    match pr.ofile i with
    | none => pure ()
    | some f => do
      fileclose f
      setProc p fun pr => { pr with ofile := Function.update pr.ofile i none }

/-- The loop of `exit` over the slots of the table of mappings. -/
def exitMaps (c p : Nat) : K Unit :=
  (List.range maxMmaps).forM fun i => do
    let pr ← getProc p
    match ← onMem (walkpgdir pr.pgdir (pr.mmap i).addr false) with
    | none => pure ()
    | some ptr => do
      let pte ← onMem (load ptr)
      if flag pte pteP && flag pte pteCow then do
        let s ← get
        if (s.mem.refCounts (frame pte)).toNat ≤ 1 then do
          -- the argument is the kernel address of the page
          let _ ← wunmap c (p2v (pteAddr pte))
          pure ()
        else pure ()
      else pure ()

/-- Pass the children of `p` to init. -/
def reparent (p : Nat) : K Unit :=
  (List.range nproc).forM fun q => do
    let s ← get
    if (s.proc q).parent = some p then do
      setProc q fun pr => { pr with parent := some s.initproc }
      if (s.proc q).state = .zombie then wakeup1 (some s.initproc) else pure ()
    else pure ()

/-- Exit the current process. -/
def exit (c : Nat) : K Unit := do
  let p ← myproc c
  let s ← get
  if p = s.initproc then panic "init exiting"
  else do
    closeFiles p
    exitMaps c p
    let pr ← getProc p
    wakeup1 pr.parent
    reparent p
    setProc p fun pr => { pr with state := .zombie }
    toScheduler c

/-- The first zombie child of `p`. -/
def zombieChild (s : Kernel) (p : Nat) : Option Nat :=
  (List.range nproc).find? fun q => (s.proc q).parent = some p ∧ (s.proc q).state = .zombie

/-- Whether `p` has a child. -/
def haveKids (s : Kernel) (p : Nat) : Bool :=
  (List.range nproc).any fun q => (s.proc q).parent = some p

/-- Release a zombie's memory and its slot. -/
def reap (q : Nat) : K Int := do
  let pr ← getProc q
  onMem (kfree (kva pr.kstack))
  setProc q fun pr => { pr with kstack := 0 }
  onMem (freevm pr.pgdir)
  setProc q fun pr => { pr with pid := 0, parent := none, killed := false, state := .unused }
  pure pr.pid

/-- Wait for a child to exit.  Returns `none` when the process went to sleep. -/
def wait (c : Nat) : K (Option Int) := do
  let p ← myproc c
  let s ← get
  match zombieChild s p with
  | some q => do
    let pid ← reap q
    pure (some pid)
  | none =>
    if !haveKids s p || (s.proc p).killed then pure (some (-1))
    else do
      setProc p fun pr => { pr with chan := some p, state := .sleeping, cont := .waiting }
      toScheduler c
      pure none

/-- Kill the process with the given pid. -/
def kill (pid : Int) : K Int := do
  let s ← get
  match (List.range nproc).find? fun p => (s.proc p).pid = pid with
  | none => pure (-1)
  | some p => do
    setProc p fun pr =>
      { pr with killed := true, state := if pr.state = .sleeping then .runnable else pr.state }
    pure 0

end Xv6
