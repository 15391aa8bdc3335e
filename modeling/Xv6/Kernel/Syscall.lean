import Xv6.Kernel.File

/-!
# Arguments of system calls (`syscall.c`), and what the kernel stores through them

The arguments are words on the user's stack, above the saved program counter.  A
handler checks a pointer with `argptr` and a size, and then stores through it.
Here a handler returns the stores it makes, in order, with the bytes it puts
there, so that the size that was checked and the bytes that were stored can be
compared.

Four handlers store through a pointer of the caller: `sys_read`, `sys_fstat`,
`sys_pipe` and `getwmapinfo`.  The other handlers with a pointer only read.
-/

namespace Xv6

/-! ## Fetching arguments -/

/-- The user's side of a system call: the saved stack pointer, and the word at
each address. -/
structure Caller where
  esp : Nat
  word : Nat → Word

/-- The word at an address of the current process. -/
def fetchint (pr : Proc) (u : Caller) (addr : Nat) : Option Word :=
  if pr.sz ≤ addr ∨ pr.sz < (addr + 4) % uintSize then none else some (u.word addr)

/-- The `n`th argument. -/
def argint (pr : Proc) (u : Caller) (n : Nat) : Option Word :=
  fetchint pr u ((u.esp + 4 + 4 * n) % uintSize)

/-- The `n`th argument as a pointer to `size` bytes. -/
def argptr (pr : Proc) (u : Caller) (n : Nat) (size : Int) : Option Nat :=
  (argint pr u n).bind fun i =>
    if size < 0 ∨ pr.sz ≤ i.toNat ∨ pr.sz < uadd i.toNat size then none else some i.toNat

/-- The `n`th argument as an open file. -/
def argfd (pr : Proc) (u : Caller) (n : Nat) : Option Nat :=
  (argint pr u n).bind fun fd => openFile pr fd.toInt

/-! ## Stores -/

/-- Bytes stored at consecutive addresses, from `addr` on. -/
structure UserStore where
  addr : Nat
  bytes : List Byte

/-- Every address stored to is below `sz`. -/
def UserStore.Below (st : UserStore) (sz : Nat) : Prop :=
  ∀ i < st.bytes.length, (st.addr + i) % uintSize < sz

instance (st : UserStore) (sz : Nat) : Decidable (st.Below sz) := Nat.decidableBallLT ..

/-- The bytes of an `int`. -/
def intBytes (n : Int) : List Byte := uintBytes (n % uintSize).toNat
/-- The bytes of a `short`. -/
def shortBytes (n : Int) : List Byte := (intBytes n).take 2

/-- `T_DIR`, `T_FILE` and `T_DEV`. -/
def InodeType.code : InodeType → Int
  | .dir => 1
  | .file => 2
  | .dev => 3

/-- The stores of `stati` into the `struct stat` at `st`. -/
def stati (ip : Inode) (st : Nat) : List UserStore :=
  [⟨st + 4, uintBytes ip.dev⟩, ⟨st + 8, uintBytes ip.inum⟩, ⟨st, shortBytes ip.type.code⟩,
    ⟨st + 12, shortBytes ip.nlink⟩, ⟨st + 16, uintBytes ip.size⟩]

/-- `sizeof(struct stat)`. -/
def statSize : Int := 20
/-- `sizeof(struct wmapinfo *)`, what `getwmapinfo` checks. -/
def infoPtrSize : Int := 4

/-! ## The handlers that store -/

def sysRead (c : Nat) (u : Caller) : O (Int × List UserStore) := do
  let pr ← curproc c
  match argfd pr u 0 with
  | none => pure (-1, [])
  | some f =>
    match argint pr u 2 with
    | none => pure (-1, [])
    | some n =>
      match argptr pr u 1 n.toInt with
      | none => pure (-1, [])
      | some p => do
        match ← onFiles (fileread f n.toInt.toNat) with
        | none => pure (-1, [])
        | some bs => pure (bs.length, [⟨p, bs⟩])

def sysFstat (c : Nat) (u : Caller) : O (Int × List UserStore) := do
  let pr ← curproc c
  match argfd pr u 0 with
  | none => pure (-1, [])
  | some f =>
    match argptr pr u 1 statSize with
    | none => pure (-1, [])
    | some st => do
      let s ← get
      if (s.files.file f).type = .inode then
        pure (0, stati (s.files.inode (s.files.file f).ip) st)
      else pure (-1, [])

/-- `sys_pipe`, with the array of two descriptors it fills. -/
def sysPipeArgs (c : Nat) (u : Caller) : O (Int × List UserStore) := do
  let pr ← curproc c
  match argptr pr u 0 8 with
  | none => pure (-1, [])
  | some fd => do
    match ← sysPipe c with
    | none => pure (-1, [])
    | some (fd0, fd1) => pure (0, [⟨fd, intBytes fd0⟩, ⟨fd + 4, intBytes fd1⟩])

/-- The stores of `getwmapinfo` for slot `i` into the `struct wmapinfo` at `info`. -/
def slotStores (r : MmapRegion) (info i : Nat) : List UserStore :=
  [⟨info + 4 + 4 * i, uintBytes r.addr⟩, ⟨info + 68 + 4 * i, intBytes r.length⟩,
    ⟨info + 132 + 4 * i, intBytes r.nLoadedPages⟩]

def getwmapinfo (c : Nat) (u : Caller) : O (Int × List UserStore) := do
  let pr ← curproc c
  match argptr pr u 0 infoPtrSize with
  | none => pure (failed, [])
  | some info =>
    pure (success,
      (List.range maxMmaps).flatMap (fun i =>
        if (pr.mmap i).used then slotStores (pr.mmap i) info i else []) ++
      [⟨info, intBytes pr.totalMmaps⟩])

def sysPipeNum : Int := 4
def sysReadNum : Int := 5
def sysFstatNum : Int := 8
def sysGetwmapinfoNum : Int := 25

/-- What the handler of a call number stores through the caller's pointers. -/
def syscallStores (c : Nat) (num : Int) (u : Caller) : O (List UserStore) :=
  if num = sysPipeNum then Prod.snd <$> sysPipeArgs c u
  else if num = sysReadNum then Prod.snd <$> sysRead c u
  else if num = sysFstatNum then Prod.snd <$> sysFstat c u
  else if num = sysGetwmapinfoNum then Prod.snd <$> getwmapinfo c u
  else pure []

/-! ## Bounds -/

@[simp] theorem uintBytes_length (n : Nat) : (uintBytes n).length = 4 := rfl
@[simp] theorem intBytes_length (n : Int) : (intBytes n).length = 4 := rfl
@[simp] theorem shortBytes_length (n : Int) : (shortBytes n).length = 2 := rfl

/-- A store that ends below a size of a process is below it. -/
theorem UserStore.below_of_le {st : UserStore} {sz : Nat} (hsz : sz < kernbase)
    (h : st.addr + st.bytes.length ≤ sz) : st.Below sz := by
  intro i hi
  have hlt : st.addr + i < uintSize := by unfold uintSize; unfold kernbase at hsz; omega
  rw [Nat.mod_eq_of_lt hlt]
  omega

/-- The last byte of a store that is below a size. -/
theorem UserStore.Below.end_le {st : UserStore} {sz : Nat} (h : st.Below sz)
    (hpos : 0 < st.bytes.length) (hlt : st.addr + st.bytes.length ≤ uintSize) :
    st.addr + st.bytes.length ≤ sz := by
  have hlast := h (st.bytes.length - 1) (by omega)
  rw [Nat.mod_eq_of_lt (by omega)] at hlast
  omega

/-- A pointer that `argptr` accepts is valid for the size it was given.  The sum
does not wrap, since the size is an `int`. -/
theorem argptr_le {pr : Proc} {u : Caller} {n : Nat} {size : Int} {a : Nat}
    (hsz : pr.sz < kernbase) (hsize : size < 2 ^ 31) (h : argptr pr u n size = some a) :
    a + size.toNat ≤ pr.sz := by
  obtain ⟨i, -, hi⟩ := Option.bind_eq_some_iff.mp h
  split at hi
  · cases hi
  · rename_i hc
    obtain ⟨hneg, hlo, hhi⟩ : ¬ size < 0 ∧ ¬ pr.sz ≤ i.toNat ∧ ¬ pr.sz < uadd i.toNat size := by
      tauto
    obtain rfl : i.toNat = a := by simpa using hi
    have hsum : uadd i.toNat size = i.toNat + size.toNat := by
      unfold uadd uintSize
      unfold kernbase at hsz
      omega
    rw [hsum] at hhi
    omega

/-- `argptr` with a size of a few bytes. -/
theorem argptr_small {pr : Proc} {u : Caller} {n : Nat} {k a : Nat} (hsz : pr.sz < kernbase)
    (hk : k < 100) (h : argptr pr u n k = some a) : a + k ≤ pr.sz := by
  have hle := argptr_le hsz (by omega) h
  simpa using hle

/-! ### Reading at most what was asked for -/

theorem consoleLoop_length (first : Bool) (n : Nat) (input : List Byte) :
    (consoleLoop first n input).1.length ≤ n := by
  fun_induction consoleLoop first n input with
  | case1 => simp
  | case2 => simp
  | case3 => simp
  | case4 => simp
  | case5 first n b input _ _ r ih =>
    rw [List.length_cons]
    exact Nat.succ_le_succ ih

theorem Inode.read_length {ip : Inode} {off n : Nat} {bs : List Byte}
    (h : ip.read off n = some bs) : bs.length ≤ n := by
  unfold Inode.read at h
  split at h
  · cases h
  · obtain rfl := Option.some.inj h
    rw [List.length_map, List.length_range]
    have hmod := Nat.mod_le (off + n) uintSize
    split <;> omega

open Prog

theorem wp_readi_length (ip off n : Nat) (s : Files) :
    wp (readi ip off n) (fun r _ => ∀ bs, r = some bs → bs.length ≤ n) (fun _ => True) s := by
  unfold readi
  simp only [wp_bind, wp_get, wp_ite]
  split
  · split
    · unfold consoleread
      simp only [wp_bind, wp_get, wp_set, wp_pure]
      rintro _ ⟨⟩
      exact consoleLoop_length ..
    · rw [wp_pure]
      intro bs hbs
      cases hbs
  · rw [wp_pure]
    intro bs hbs
    exact Inode.read_length hbs

/-- `fileread` returns at most the bytes asked for. -/
theorem wp_fileread_length (f n : Nat) (s : Files) :
    wp (fileread f n) (fun r _ => ∀ bs, r = some bs → bs.length ≤ n) (fun _ => True) s := by
  unfold fileread
  simp only [wp_bind, wp_get, wp_ite]
  split
  · rw [wp_pure]
    intro bs hbs
    cases hbs
  · cases (s.file f).type with
    | none => exact (wp_throw ..).mpr trivial
    | pipe =>
      unfold piperead
      simp only [wp_bind, wp_get, wp_set, wp_pure]
      rintro _ ⟨⟩
      exact List.length_take_le ..
    | inode =>
      simp only [wp_bind]
      refine wp_post (wp_readi_length ..) ?_
      rintro (_ | bs) s1 hlen
      · rw [wp_pure]
        intro bs hbs
        cases hbs
      · simp only [setFile, wp_bind, wp_modify, wp_pure]
        exact hlen
/-! ### The handlers -/

section

variable {c p : Nat} {u : Caller} {s : Os}

section

variable (hcur : (s.kernel.cpu c).proc = some p) (hsz : (s.kernel.proc p).sz < kernbase)
include hcur hsz

theorem sysRead_below :
    wp (sysRead c u) (fun r _ => ∀ st ∈ r.2, st.Below (s.kernel.proc p).sz) (fun _ => True) s := by
  unfold sysRead
  rw [wp_bind, wp_curproc hcur]
  cases argfd (s.kernel.proc p) u 0 with
  | none => rw [wp_pure]; nofun
  | some f =>
    cases argint (s.kernel.proc p) u 2 with
    | none => rw [wp_pure]; nofun
    | some n =>
      dsimp only
      cases hptr : argptr (s.kernel.proc p) u 1 n.toInt with
      | none => rw [wp_pure]; nofun
      | some a =>
        dsimp only
        have hle := argptr_le hsz (BitVec.toInt_lt (x := n)) hptr
        rw [wp_bind, onFiles, wp_zoom]
        refine wp_post (wp_fileread_length ..) ?_
        rintro (_ | bs) s1 hlen
        · rw [wp_pure]; nofun
        · rw [wp_pure]
          intro st hst
          obtain rfl := List.mem_singleton.mp hst
          have hbs := hlen bs rfl
          exact UserStore.below_of_le hsz (by dsimp only; omega)

theorem sysFstat_below :
    wp (sysFstat c u) (fun r _ => ∀ st ∈ r.2, st.Below (s.kernel.proc p).sz) (fun _ => True) s := by
  unfold sysFstat
  rw [wp_bind, wp_curproc hcur]
  cases argfd (s.kernel.proc p) u 0 with
  | none => rw [wp_pure]; nofun
  | some f =>
    dsimp only
    cases hptr : argptr (s.kernel.proc p) u 1 statSize with
    | none => rw [wp_pure]; nofun
    | some a =>
      have hle : a + 20 ≤ _ := argptr_small hsz (by decide) hptr
      simp only [wp_bind, wp_get, wp_ite, wp_pure]
      split
      · intro st hst
        simp only [stati, List.mem_cons, List.not_mem_nil, or_false] at hst
        apply UserStore.below_of_le hsz
        rcases hst with rfl | rfl | rfl | rfl | rfl <;>
          simp only [uintBytes_length, shortBytes_length] <;> omega
      · exact List.forall_mem_nil _

theorem sysPipeArgs_below :
    wp (sysPipeArgs c u) (fun r _ => ∀ st ∈ r.2, st.Below (s.kernel.proc p).sz)
      (fun _ => True) s := by
  unfold sysPipeArgs
  rw [wp_bind, wp_curproc hcur]
  cases hptr : argptr (s.kernel.proc p) u 0 8 with
  | none => rw [wp_pure]; nofun
  | some a =>
    have hle : a + 8 ≤ _ := argptr_small hsz (by decide) hptr
    simp only [wp_bind]
    refine wp_of_ok ?_
    rintro (_ | ⟨fd0, fd1⟩) s1 -
    · rw [wp_pure]; nofun
    · rw [wp_pure]
      intro st hst
      simp only [List.mem_cons, List.not_mem_nil, or_false] at hst
      apply UserStore.below_of_le hsz
      rcases hst with rfl | rfl <;> simp only [intBytes_length] <;> omega

end

/-- Slot `i` of the `struct wmapinfo` at `info`, the last word of it included, is
below `sz`. -/
def InfoFits (info sz i : Nat) : Prop := info + 136 + 4 * i ≤ sz

/-- The stores for a slot are below `sz` just when the slot's last word is. -/
theorem slotStores_below (r : MmapRegion) {info sz i : Nat} (hsz : sz < kernbase)
    (hinfo : info < sz) (hi : i < maxMmaps) :
    (∀ st ∈ slotStores r info i, st.Below sz) ↔ InfoFits info sz i := by
  have hmax : maxMmaps = 16 := rfl
  constructor
  · intro h
    have hlast := (h ⟨info + 132 + 4 * i, intBytes r.nLoadedPages⟩ (by simp [slotStores])).end_le
      (by simp) (by
        rw [intBytes_length]
        unfold uintSize
        unfold kernbase at hsz
        dsimp only
        omega)
    simp only [intBytes_length] at hlast
    unfold InfoFits
    omega
  · intro h st hst
    unfold InfoFits at h
    simp only [slotStores, List.mem_cons, List.not_mem_nil, or_false] at hst
    apply UserStore.below_of_le hsz
    rcases hst with rfl | rfl | rfl <;> simp only [uintBytes_length, intBytes_length] <;> omega

theorem getwmapinfo_below (hcur : (s.kernel.cpu c).proc = some p)
    (hsz : (s.kernel.proc p).sz < kernbase) :
    wp (getwmapinfo c u)
      (fun r _ => (∀ st ∈ r.2, st.Below (s.kernel.proc p).sz) ↔
        ∀ info, argptr (s.kernel.proc p) u 0 infoPtrSize = some info →
          ∀ i < maxMmaps, ((s.kernel.proc p).mmap i).used = true →
            InfoFits info (s.kernel.proc p).sz i)
      (fun _ => True) s := by
  unfold getwmapinfo
  rw [wp_bind, wp_curproc hcur]
  cases hptr : argptr (s.kernel.proc p) u 0 infoPtrSize with
  | none => simp
  | some info =>
    have hle : info + 4 ≤ _ := argptr_small hsz (by decide) hptr
    rw [wp_pure]
    constructor
    · rintro h _ ⟨⟩ i hi hused
      refine (slotStores_below ((s.kernel.proc p).mmap i) hsz (by omega) hi).mp
        fun st hst => h st ?_
      apply List.mem_append_left
      rw [List.mem_flatMap]
      exact ⟨i, List.mem_range.mpr hi, by rw [if_pos hused]; exact hst⟩
    · intro h st hst
      rcases List.mem_append.mp hst with hst | hst
      · obtain ⟨i, hi, hmem⟩ := List.mem_flatMap.mp hst
        have hi := List.mem_range.mp hi
        split at hmem
        next hused => exact (slotStores_below _ hsz (by omega) hi).mpr (h info rfl i hi hused) st hmem
        next => cases hmem
      · obtain rfl := List.mem_singleton.mp hst
        exact UserStore.below_of_le hsz hle

/-- For every call number, arguments and size below `KERNBASE`, the kernel stores
only below the size of the process, unless the call is `getwmapinfo` with a buffer
whose part for some used slot ends above it. -/
theorem user_stores_below {num : Int} {stores : List UserStore} {s' : Os}
    (hcur : (s.kernel.cpu c).proc = some p) (hsz : (s.kernel.proc p).sz < kernbase)
    (h : syscallStores c num u s = .ok (stores, s')) :
    (∀ st ∈ stores, st.Below (s.kernel.proc p).sz) ↔
      (num = sysGetwmapinfoNum → ∀ info,
        argptr (s.kernel.proc p) u 0 infoPtrSize = some info →
          ∀ i < maxMmaps, ((s.kernel.proc p).mmap i).used = true →
            InfoFits info (s.kernel.proc p).sz i) := by
  let inside : List UserStore → Os → Prop := fun stores _ =>
    ∀ st ∈ stores, st.Below (s.kernel.proc p).sz
  unfold syscallStores at h
  split at h
  next hnum =>
    subst hnum
    refine iff_of_true ?_ (nofun)
    exact wp_ok (Q := inside) ((wp_map ..).mpr (sysPipeArgs_below hcur hsz)) h
  next =>
    split at h
    next hnum =>
      subst hnum
      refine iff_of_true ?_ (nofun)
      exact wp_ok (Q := inside) ((wp_map ..).mpr (sysRead_below hcur hsz)) h
    next =>
      split at h
      next hnum =>
        subst hnum
        refine iff_of_true ?_ (nofun)
        exact wp_ok (Q := inside) ((wp_map ..).mpr (sysFstat_below hcur hsz)) h
      next =>
        split at h
        next hnum =>
          have hiff := wp_ok (Q := fun stores s1 => inside stores s1 ↔ _)
            ((wp_map ..).mpr (getwmapinfo_below hcur hsz)) h
          exact hiff.trans ⟨fun h _ => h, fun h => h hnum⟩
        next hnum =>
          obtain ⟨⟩ : Except.ok ([], s) = Except.ok (stores, s') := h
          exact iff_of_true (nofun) fun h => absurd h hnum

end
/-! ### A buffer at the end of memory -/

/-- A process of one page with a mapping in slot 0. -/
def mappedOs : Os :=
  { kernel := ((powerOn fun _ => fill 0#8).setProc 0 fun pr =>
      { pr with sz := pgsize, state := .running, totalMmaps := 1
                mmap := fun i => { MmapRegion.zero with used := decide (i = 0) } }).setCpu 0
      fun u => { u with proc := some 0 }
    files :=
      { file := fun _ => ⟨.none, false, false, 0, 0, 0⟩, pipe := fun _ => [], input := []
        inode := fun _ => ⟨0, 0, .file, 0, 0, 0, fun _ => 0#8⟩ } }

/-- A call with the argument `a`, from a stack at address 0. -/
def callWith (a : Nat) : Caller := ⟨0, fun _ => BitVec.ofNat 32 a⟩

/-- With a buffer in the last word of memory, `getwmapinfo` passes its check and
stores above it. -/
theorem getwmapinfo_stores_above : ∃ stores s',
    syscallStores 0 sysGetwmapinfoNum (callWith 4092) mappedOs = .ok (stores, s') ∧
      ∃ st ∈ stores, ¬ st.Below (mappedOs.kernel.proc 0).sz :=
  ⟨_, _, rfl, ⟨4096, uintBytes 0⟩, .head _, by decide⟩

/-- A buffer with room for the whole `struct wmapinfo` is safe. -/
theorem user_stores_below_full_buffer : ∃ stores s',
    syscallStores 0 sysGetwmapinfoNum (callWith 3000) mappedOs = .ok (stores, s') ∧
      ∀ st ∈ stores, st.Below (mappedOs.kernel.proc 0).sz := by
  have hrun : syscallStores 0 sysGetwmapinfoNum (callWith 3000) mappedOs = .ok (_, _) := rfl
  refine ⟨_, _, hrun, (user_stores_below (p := 0) rfl (by decide) hrun).mpr ?_⟩
  rintro - info hinfo i hi -
  obtain rfl : 3000 = info := Option.some.inj (show some 3000 = some info from hinfo)
  have hmax : maxMmaps = 16 := rfl
  show 3000 + 136 + 4 * i ≤ 4096
  omega

end Xv6
