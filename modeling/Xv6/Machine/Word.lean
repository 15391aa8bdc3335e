import Mathlib

/-!
# Addresses, words and page table entries

The constants and macros of `mmu.h` and `memlayout.h`.  Addresses and sizes are
natural numbers, reduced modulo `2^32` where the C arithmetic can wrap.  Words
in memory are `BitVec 32`.  A physical page is numbered by its frame number, its
physical address divided by `pgsize`.

A page is its bytes.  A word of a page is four of them, low byte first, so page
tables and user data live in the same memory.

An entry of a page directory or page table is a word.  `flag` tests its flag
bits and `frame` reads the frame it names.  Every flag test is reduced to one bit
of the word (`flag_pteP` and the lemmas after it), and the `simp` lemmas below
say how the operations the kernel uses move those bits.
-/

namespace Xv6

/-! ## Layout -/

abbrev Byte := BitVec 8
abbrev Word := BitVec 32

/-- Bytes mapped by a page. -/
def pgsize : Nat := 4096
/-- Entries of a page directory, and of a page table. -/
def npdentries : Nat := 1024
/-- First kernel virtual address. -/
def kernbase : Nat := 0x80000000
/-- Start of extended memory. -/
def extmem : Nat := 0x100000
/-- Top of physical memory. -/
def phystop : Nat := 0xE000000
/-- Other devices are at high addresses. -/
def devspace : Nat := 0xFE000000
/-- Address where the kernel is linked. -/
def kernlink : Nat := kernbase + extmem

/-- The number of values of a `uint`. -/
def uintSize : Nat := 2 ^ 32

/-- `V2P`, in `uint` arithmetic. -/
def v2p (a : Nat) : Nat := (a + (uintSize - kernbase)) % uintSize
/-- `P2V`, in `uint` arithmetic. -/
def p2v (a : Nat) : Nat := (a + kernbase) % uintSize

/-- The kernel address of a frame. -/
def kva (f : Nat) : Nat := p2v (f * pgsize)

/-- `PGROUNDUP`.  No caller gets near the top of the address space. -/
def pgroundup (sz : Nat) : Nat := (sz + pgsize - 1) / pgsize * pgsize
/-- `PGROUNDDOWN`. -/
def pgrounddown (a : Nat) : Nat := a / pgsize * pgsize

/-- Page directory index. -/
def pdx (va : Nat) : Nat := va / 2 ^ 22 % npdentries
/-- Page table index. -/
def ptx (va : Nat) : Nat := va / 2 ^ 12 % npdentries

/-- Pages of the user half of the address space. -/
def userPages : Nat := kernbase / pgsize

theorem pgsize_eq : pgsize = 4096 := rfl
theorem kernbase_eq : kernbase = 2147483648 := rfl
theorem phystop_eq : phystop = 234881024 := rfl
theorem uintSize_eq : uintSize = 4294967296 := rfl
theorem userPages_eq : userPages = 524288 := rfl
theorem npdentries_eq : npdentries = 1024 := rfl

/-! ## Entries -/

/-- Present. -/
def pteP : Word := 0x001#32
/-- Writeable. -/
def pteW : Word := 0x002#32
/-- User. -/
def pteU : Word := 0x004#32
/-- For copy-on-write. -/
def pteCow : Word := 0x200#32

/-- Whether a word has a flag bit. -/
def flag (w f : Word) : Bool := w &&& f != 0#32

/-- `PTE_ADDR`. -/
def pteAddr (w : Word) : Nat := (w &&& ~~~0xFFF#32).toNat
/-- `PTE_FLAGS`. -/
def pteFlags (w : Word) : Word := w &&& 0xFFF#32

/-- The frame an entry names. -/
def frame (w : Word) : Nat := (w >>> 12).toNat

/-- The entry `pa | perm | PTE_P`. -/
def mkPte (pa : Nat) (perm : Word) : Word := BitVec.ofNat 32 pa ||| perm ||| pteP

/-- `*pte |= PTE_COW; *pte &= ~PTE_W`. -/
def toCow (w : Word) : Word := (w ||| pteCow) &&& ~~~pteW

/-- `*pte |= PTE_W; *pte &= ~PTE_COW`. -/
def toWrite (w : Word) : Word := (w ||| pteW) &&& ~~~pteCow

/-- A word of flags only: no bit of the frame number is set. -/
def Perm (w : Word) : Prop := w >>> 12 = 0#32

instance (w : Word) : Decidable (Perm w) := inferInstanceAs (Decidable (w >>> 12 = 0#32))

/-! ## Flag bits -/

theorem flag_pteP (w : Word) : flag w pteP = w.getLsbD 0 := by
  have h : pteP = BitVec.twoPow 32 0 := by decide
  unfold flag
  rw [h, BitVec.and_twoPow]
  cases w.getLsbD 0 <;> decide

theorem flag_pteW (w : Word) : flag w pteW = w.getLsbD 1 := by
  have h : pteW = BitVec.twoPow 32 1 := by decide
  unfold flag
  rw [h, BitVec.and_twoPow]
  cases w.getLsbD 1 <;> decide

theorem flag_pteU (w : Word) : flag w pteU = w.getLsbD 2 := by
  have h : pteU = BitVec.twoPow 32 2 := by decide
  unfold flag
  rw [h, BitVec.and_twoPow]
  cases w.getLsbD 2 <;> decide

theorem flag_pteCow (w : Word) : flag w pteCow = w.getLsbD 9 := by
  have h : pteCow = BitVec.twoPow 32 9 := by decide
  unfold flag
  rw [h, BitVec.and_twoPow]
  cases w.getLsbD 9 <;> decide

@[simp] theorem flag_zero (f : Word) : flag 0#32 f = false := by
  simp [flag]

/-- The flags the kernel tests, each a single bit. -/
def IsFlag (f : Word) : Prop := f = pteP ∨ f = pteW ∨ f = pteU ∨ f = pteCow

instance (f : Word) : Decidable (IsFlag f) :=
  inferInstanceAs (Decidable (f = pteP ∨ f = pteW ∨ f = pteU ∨ f = pteCow))

/-- A flag test reads one bit, below the frame number. -/
theorem IsFlag.bit {f : Word} (h : IsFlag f) :
    ∃ k, k < 12 ∧ ∀ w, flag w f = w.getLsbD k := by
  rcases h with rfl | rfl | rfl | rfl
  · exact ⟨0, by decide, flag_pteP⟩
  · exact ⟨1, by decide, flag_pteW⟩
  · exact ⟨2, by decide, flag_pteU⟩
  · exact ⟨9, by decide, flag_pteCow⟩

theorem flag_or {f : Word} (h : IsFlag f) (a b : Word) :
    flag (a ||| b) f = (flag a f || flag b f) := by
  obtain ⟨k, _, hk⟩ := h.bit
  rw [hk, hk, hk, BitVec.getLsbD_or]

theorem flag_and {f : Word} (h : IsFlag f) (a b : Word) :
    flag (a &&& b) f = (flag a f && flag b f) := by
  obtain ⟨k, _, hk⟩ := h.bit
  rw [hk, hk, hk, BitVec.getLsbD_and]

theorem flag_pteFlags {f : Word} (h : IsFlag f) (w : Word) : flag (pteFlags w) f = flag w f := by
  rw [pteFlags, flag_and h]
  rcases h with rfl | rfl | rfl | rfl
  · rw [show flag 0xFFF#32 pteP = true by decide, Bool.and_true]
  · rw [show flag 0xFFF#32 pteW = true by decide, Bool.and_true]
  · rw [show flag 0xFFF#32 pteU = true by decide, Bool.and_true]
  · rw [show flag 0xFFF#32 pteCow = true by decide, Bool.and_true]

@[simp] theorem flag_toCow_pteP (w : Word) : flag (toCow w) pteP = flag w pteP := by
  rw [toCow, flag_and (by decide), flag_or (by decide), show flag pteCow pteP = false by decide,
    show flag (~~~pteW) pteP = true by decide, Bool.or_false, Bool.and_true]

@[simp] theorem flag_toCow_pteW (w : Word) : flag (toCow w) pteW = false := by
  rw [toCow, flag_and (by decide), show flag (~~~pteW) pteW = false by decide, Bool.and_false]

@[simp] theorem flag_toCow_pteU (w : Word) : flag (toCow w) pteU = flag w pteU := by
  rw [toCow, flag_and (by decide), flag_or (by decide), show flag pteCow pteU = false by decide,
    show flag (~~~pteW) pteU = true by decide, Bool.or_false, Bool.and_true]

@[simp] theorem toCow_toCow (w : Word) : toCow (toCow w) = toCow w := by
  unfold toCow
  apply BitVec.eq_of_getLsbD_eq
  intro i hi
  simp only [BitVec.getLsbD_and, BitVec.getLsbD_or, BitVec.getLsbD_not]
  cases w.getLsbD i <;> cases pteCow.getLsbD i <;> cases pteW.getLsbD i <;> simp

/-- A frame's address has no flag bits. -/
theorem getLsbD_frame_addr (f : Nat) {i : Nat} (hi : i < 12) :
    (BitVec.ofNat 32 (f * pgsize)).getLsbD i = false := by
  rw [BitVec.getLsbD_ofNat, pgsize_eq, show 4096 = 2 ^ 12 from rfl, Nat.testBit_mul_two_pow]
  simp [show ¬ 12 ≤ i by omega]

@[simp] theorem flag_mkPte_pteP (pa : Nat) (perm : Word) : flag (mkPte pa perm) pteP = true := by
  rw [mkPte, flag_or (by decide), show flag pteP pteP = true by decide, Bool.or_true]

/-- The other flags of a new entry are those it was made with. -/
theorem flag_mkPte {f : Word} (h : IsFlag f) (hf : f ≠ pteP) (n : Nat) (perm : Word) :
    flag (mkPte (n * pgsize) perm) f = flag perm f := by
  have hp : flag pteP f = false := by
    rcases h with rfl | rfl | rfl | rfl
    · exact absurd rfl hf
    · decide
    · decide
    · decide
  obtain ⟨k, hk12, hk⟩ := h.bit
  rw [mkPte, flag_or h, flag_or h, hp, Bool.or_false, hk (BitVec.ofNat 32 _),
    getLsbD_frame_addr n hk12, Bool.false_or]

/-! ## Frame numbers -/

@[simp] theorem frame_zero : frame 0#32 = 0 := rfl

theorem frame_lt (w : Word) : frame w < 2 ^ 20 := by
  unfold frame
  rw [BitVec.toNat_ushiftRight, Nat.shiftRight_eq_div_pow]
  have := w.isLt
  omega

theorem pteAddr_eq (w : Word) : pteAddr w = frame w * pgsize := by
  have h : w &&& ~~~0xFFF#32 = (w >>> 12) <<< 12 := by
    apply BitVec.eq_of_getLsbD_eq
    intro i hi
    interval_cases i <;> simp
  have h2 := frame_lt w
  unfold frame at h2
  unfold pteAddr frame
  rw [h, BitVec.toNat_shiftLeft, Nat.shiftLeft_eq, pgsize_eq]
  omega

theorem frame_or (w : Word) {f : Word} (h : Perm f) : frame (w ||| f) = frame w := by
  unfold frame
  rw [BitVec.ushiftRight_or_distrib, show f >>> 12 = 0#32 from h, BitVec.or_zero]

theorem frame_and_not (w : Word) {f : Word} (h : Perm f) : frame (w &&& ~~~f) = frame w := by
  -- split off the masked bits: what is left keeps the high ones
  have hsplit : w = (w &&& ~~~f) ||| (w &&& f) := by
    rw [← BitVec.and_or_distrib_left, BitVec.or_comm, BitVec.or_not_self, BitVec.and_allOnes]
  have hlow : Perm (w &&& f) := by
    unfold Perm
    rw [BitVec.ushiftRight_and_distrib, show f >>> 12 = 0#32 from h, BitVec.and_zero]
  calc frame (w &&& ~~~f) = frame ((w &&& ~~~f) ||| (w &&& f)) := (frame_or _ hlow).symm
    _ = frame w := by rw [← hsplit]

@[simp] theorem frame_toCow (w : Word) : frame (toCow w) = frame w := by
  rw [toCow, frame_and_not _ (by decide), frame_or _ (by decide)]

theorem frame_mkPte {f : Nat} {perm : Word} (hf : f < 2 ^ 20) (hp : Perm perm) :
    frame (mkPte (f * pgsize) perm) = f := by
  rw [mkPte, frame_or _ (by decide), frame_or _ hp, frame, BitVec.toNat_ushiftRight,
    BitVec.toNat_ofNat, pgsize_eq, Nat.shiftRight_eq_div_pow]
  omega

theorem perm_pteFlags (w : Word) : Perm (pteFlags w) := by
  unfold Perm pteFlags
  rw [BitVec.ushiftRight_and_distrib]
  simp

theorem Perm.and {w : Word} (h : Perm w) (f : Word) : Perm (w &&& f) := by
  unfold Perm
  rw [BitVec.ushiftRight_and_distrib, show w >>> 12 = 0#32 from h, BitVec.zero_and]

theorem Perm.toCow {w : Word} (h : Perm w) : Perm (toCow w) := by
  apply Perm.and
  unfold Perm
  rw [BitVec.ushiftRight_or_distrib, show w >>> 12 = 0#32 from h]
  decide

/-! ## Pages -/

/-- The bytes of a page. -/
def Page := Nat → Byte

/-- The `i`-th word of a page. -/
def word (pg : Page) (i : Nat) : Word :=
  pg (4 * i + 3) ++ pg (4 * i + 2) ++ pg (4 * i + 1) ++ pg (4 * i)

/-- A page with its `i`-th word rewritten. -/
def setWord (pg : Page) (i : Nat) (w : Word) : Page := fun o =>
  if o / 4 = i then w.extractLsb' (8 * (o % 4)) 8 else pg o

/-- A page with one byte rewritten. -/
def setByte (pg : Page) (o : Nat) (b : Byte) : Page := fun o' => if o' = o then b else pg o'

/-- `memset` of a whole page. -/
def fill (b : Byte) : Page := fun _ => b

@[simp] theorem word_setWord_self (pg : Page) (i : Nat) (w : Word) :
    word (setWord pg i w) i = w := by
  unfold word setWord
  rw [if_pos (by omega), if_pos (by omega), if_pos (by omega), if_pos (by omega),
    show (4 * i + 3) % 4 = 3 by omega, show (4 * i + 2) % 4 = 2 by omega,
    show (4 * i + 1) % 4 = 1 by omega, show 4 * i % 4 = 0 by omega,
    BitVec.extractLsb'_append_extractLsb'_eq_extractLsb' (by decide),
    BitVec.extractLsb'_append_extractLsb'_eq_extractLsb' (by decide),
    BitVec.extractLsb'_append_extractLsb'_eq_extractLsb' (by decide)]
  exact BitVec.extractLsb'_eq_self

theorem word_setWord_ne (pg : Page) {i j : Nat} (w : Word) (h : j ≠ i) :
    word (setWord pg i w) j = word pg j := by
  unfold word setWord
  rw [if_neg (by omega), if_neg (by omega), if_neg (by omega), if_neg (by omega)]

@[simp] theorem word_fill_zero (i : Nat) : word (fill 0#8) i = 0#32 := by
  unfold word fill
  decide

@[simp] theorem setByte_self (pg : Page) (o : Nat) (b : Byte) : setByte pg o b o = b :=
  if_pos rfl

theorem setByte_ne (pg : Page) {o o' : Nat} (b : Byte) (h : o' ≠ o) :
    setByte pg o b o' = pg o' :=
  if_neg h

end Xv6
