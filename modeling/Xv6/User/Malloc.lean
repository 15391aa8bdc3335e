import Xv6.Lib.Chain
import Xv6.Lib.Prog
import Xv6.Lib.Tiling
import Xv6.Machine.Word

/-!
# `malloc` and `free` (`umalloc.c`)

The heap of a user program, from the break at its start to the current one, and the
header `base` below it.  Memory is read and written a header at a time.  An access
outside `base` and the heap, or not at a unit of the heap, stops the program, so that
a call that returns has made none.  The loops are given more rounds than the heap has
units and stop the program too when these are used up.

*Abstraction.*  The heap is tiled by blocks, free ones and ones that were handed out.
On tilings `free` is `release`, which merges the block with free neighbours, and the end
of `malloc` is `carve`, which takes units from the end of a free block.
-/

namespace Xv6.Umalloc

open Prog Chain Tiling

/-! ## The model -/

/-- `union header`.  A header is 8 bytes, the unit of allocation. -/
structure Header where
  ptr : Nat
  size : Nat
deriving DecidableEq, Repr

/-- The address of `base` and the break when the program starts. -/
structure Layout where
  base : Nat
  start : Nat
  base_pos : 0 < base
  base_lt : base + 8 ≤ start
  start_lt : start < uintSize

/-- Why a program stopped. -/
inductive Stop where
  /-- An access outside its memory. -/
  | badAccess
  /-- A loop that did not end. -/
  | endless
deriving DecidableEq, Repr

structure Heap where
  mem : Nat → Header
  freep : Nat
  /-- The current break. -/
  brk : Nat
  /-- The arguments of the calls of `sbrk` so far. -/
  sbrks : List Int

/-- Write a header. -/
def Heap.put (s : Heap) (a : Nat) (h : Header) : Heap :=
  { s with mem := Function.update s.mem a h }

abbrev M := Prog Heap Stop

/-- Rounds that a loop may take: one more than there are units of memory. -/
def rounds : Nat := 2 ^ 29 + 1

variable (L : Layout)

/-- A header that the program may access. -/
def Layout.Owned (brk a : Nat) : Prop :=
  a = L.base ∨ L.start ≤ a ∧ a + 8 ≤ brk ∧ (a - L.start) % 8 = 0

instance (brk a : Nat) : Decidable (L.Owned brk a) :=
  inferInstanceAs (Decidable (_ ∨ _ ∧ _ ∧ _))

def load (a : Nat) : M Header := do
  let s ← get
  if L.Owned s.brk a then pure (s.mem a) else throw .badAccess

def store (a : Nat) (h : Header) : M Unit := do
  let s ← get
  if L.Owned s.brk a then set (s.put a h) else throw .badAccess

/-- `p + n` for a pointer to headers. -/
def advance (p n : Nat) : Nat := (p + 8 * n) % uintSize

/-- The loop of `free`: the free block after which `bp` belongs. -/
def freeLoop (bp : Nat) : Nat → Nat → M Nat
  | 0, _ => throw .endless
  | n + 1, p => do
    let h ← load L p
    if p < bp ∧ bp < h.ptr then pure p
    else if h.ptr ≤ p ∧ (p < bp ∨ bp < h.ptr) then pure p
    else freeLoop bp n h.ptr

/-- `if(bp + bp->s.size == p->s.ptr) ... else ...`, where `next` is `p->s.ptr`. -/
def joinUpper (bp next : Nat) : M Unit := do
  let b ← load L bp
  if advance bp b.size = next then do
    let n ← load L next
    store L bp ⟨n.ptr, (b.size + n.size) % uintSize⟩
  else store L bp { b with ptr := next }

/-- `if(p + p->s.size == bp) ... else ...` -/
def joinLower (p bp : Nat) : M Unit := do
  let h ← load L p
  if advance p h.size = bp then do
    let b ← load L bp
    store L p ⟨b.ptr, (h.size + b.size) % uintSize⟩
  else store L p { h with ptr := bp }

def free (ap : Nat) : M Unit := do
  let bp := (ap + uintSize - 8) % uintSize
  let s ← get
  let p ← freeLoop L bp rounds s.freep
  let h ← load L p
  joinUpper L bp h.ptr
  joinLower L p bp
  modify fun s => { s with freep := p }

/-- A word as the `int` it is passed as. -/
def toInt (n : Nat) : Int := if n < 2 ^ 31 then n else (n : Int) - uintSize

/-- `(char*)-1`, what `sbrk` returns when it fails. -/
def failed : Nat := uintSize - 1

/-- `sbrk(n)`.  For a positive `n` it fails or not as `grant` says, and always if the new
break is not an address.  For the others it does as `growproc`: a break that is not below
the old one leaves it alone, and a break of 0 is a failure. -/
def sbrk (grant : Bool) (n : Int) : M Nat := do
  let s ← get
  let s := { s with sbrks := s.sbrks ++ [n] }
  let new := ((s.brk + n) % uintSize).toNat
  if 0 < n then
    if grant ∧ s.brk + n.toNat < uintSize then do
      set { s with brk := s.brk + n.toNat }
      pure s.brk
    else do
      set s
      pure failed
  else if s.brk ≤ new then do
    set s
    pure s.brk
  else if new = 0 then do
    set s
    pure failed
  else do
    set { s with brk := new }
    pure s.brk

/-- The units that `morecore` asks for. -/
def coreUnits (nu : Nat) : Nat := if nu < 4096 then 4096 else nu

def morecore (grant : Bool) (nu : Nat) : M (Option Nat) := do
  let nu := coreUnits nu
  let hp ← sbrk grant (toInt (nu * 8 % uintSize))
  if hp = failed then pure none
  else do
    let h ← load L hp
    store L hp { h with size := nu }
    free L (hp + 8)
    let s ← get
    pure (some s.freep)

/-- The end of `malloc`: take `nunits` from the free block `p`, whose header is `h`. -/
def take (nunits prevp p : Nat) (h : Header) : M Nat := do
  let r ← if h.size = nunits then do
      let prev ← load L prevp
      store L prevp { prev with ptr := h.ptr }
      pure p
    else do
      store L p { h with size := h.size - nunits }
      let q := advance p (h.size - nunits)
      let hq ← load L q
      store L q { hq with size := nunits }
      pure q
  modify fun s => { s with freep := prevp }
  pure (r + 8)

/-- The loop of `malloc`. -/
def mallocLoop (grant : Bool) (nunits : Nat) : Nat → Nat → Nat → M (Option Nat)
  | 0, _, _ => throw .endless
  | n + 1, prevp, p => do
    let h ← load L p
    if nunits ≤ h.size then do
      let r ← take L nunits prevp p h
      pure (some r)
    else do
      let s ← get
      if p = s.freep then do
        match ← morecore L grant nunits with
        | none => pure none
        | some p => do
          let h ← load L p
          mallocLoop grant nunits n p h.ptr
      else mallocLoop grant nunits n p h.ptr

/-- The number of units for `nbytes` bytes and a header. -/
def nunits (nbytes : Nat) : Nat := (nbytes + 7) % uintSize / 8 + 1

/-- `malloc`.  Nothing is returned for a null pointer. -/
def malloc (grant : Bool) (nbytes : Nat) : M (Option Nat) := do
  let s ← get
  if s.freep = 0 then do
    store L L.base ⟨L.base, 0⟩
    modify fun s => { s with freep := L.base }
  let s ← get
  let h ← load L s.freep
  mallocLoop L grant (nunits nbytes) (2 * rounds) s.freep h.ptr

/-! ## Tilings of the heap -/

/-- A block of the heap, free or handed out. -/
structure Block where
  addr : Nat
  units : Nat
  free : Bool
deriving DecidableEq, Repr

def Block.bytes (b : Block) : Nat := 8 * b.units

/-- The addresses of the free blocks. -/
def frees (T : List Block) : List Nat := (T.filter Block.free).map Block.addr

/-- No two free blocks are next to each other. -/
def Apart (T : List Block) : Prop := T.IsChain fun x y => (x.free && y.free) = false

@[simp] theorem frees_nil : frees [] = [] := rfl

@[simp] theorem frees_append (T T' : List Block) : frees (T ++ T') = frees T ++ frees T' := by
  simp [frees]

@[simp] theorem frees_cons_free (a u : Nat) (T : List Block) :
    frees (⟨a, u, true⟩ :: T) = a :: frees T := rfl

@[simp] theorem frees_cons_used (a u : Nat) (T : List Block) :
    frees (⟨a, u, false⟩ :: T) = frees T := rfl

theorem mem_frees {T : List Block} {a : Nat} : a ∈ frees T ↔ ∃ u, ⟨a, u, true⟩ ∈ T := by
  simp only [frees, List.mem_map, List.mem_filter]
  constructor
  · rintro ⟨⟨b, u, f⟩, ⟨hb, rfl⟩, rfl⟩
    exact ⟨u, hb⟩
  · rintro ⟨u, hb⟩
    exact ⟨_, ⟨hb, rfl⟩, rfl⟩

/-- The units and the blocks after a block of `u` units that swallows a free block right
after it. -/
def mergeRight (u : Nat) : List Block → Nat × List Block
  | ⟨_, v, true⟩ :: Y => (u + v, Y)
  | Y => (u, Y)

/-- A free block at `a` between `X` and `Y`, swallowed by a free block right before it. -/
def mergeLeft (X : List Block) (a u : Nat) (Y : List Block) : List Block :=
  match X.getLast? with
  | some ⟨p, t, true⟩ => X.dropLast ++ ⟨p, t + u, true⟩ :: Y
  | _ => X ++ ⟨a, u, true⟩ :: Y

/-- `free` of the block at `a` between `X` and `Y`. -/
def release (X : List Block) (a u : Nat) (Y : List Block) : List Block :=
  mergeLeft X a (mergeRight u Y).1 (mergeRight u Y).2

/-- Take `n` of the `u` units of the free block at `a` between `X` and `Y`. -/
def carve (X : List Block) (a u n : Nat) (Y : List Block) : List Block :=
  if u = n then X ++ ⟨a, u, false⟩ :: Y
  else X ++ ⟨a, u - n, true⟩ :: ⟨a + 8 * (u - n), n, false⟩ :: Y

/-- Some free block has `n` units. -/
def Has (T : List Block) (n : Nat) : Prop := ∃ b ∈ T, b.free = true ∧ n ≤ b.units

/-- The program gets a new block of `n` units at `a`, and what it has otherwise stays. -/
def Grants (T : List Block) (n a : Nat) (T' : List Block) : Prop :=
  ⟨a, n, false⟩ ∉ T ∧ ∀ b : Block, b.free = false → (b ∈ T' ↔ b ∈ T ∨ b = ⟨a, n, false⟩)

/-- The blocks tile the heap. -/
abbrev Layout.Tiled (T : List Block) (brk : Nat) : Prop :=
  Tiles Block.addr Block.bytes L.start T brk

section Tilings

variable {X Y T : List Block} {a c u n brk : Nat}

section

variable (h : Tiles Block.addr Block.bytes c T brk)
include h

theorem tiles_aligned {b : Block} (hb : b ∈ T) :
    (b.addr - c) % 8 = 0 := by
  induction T generalizing c with
  | nil => simp at hb
  | cons x T ih =>
    obtain ⟨hx, hpos, hT⟩ := h
    rcases List.mem_cons.mp hb with rfl | hb
    · omega
    · have := ih hT hb
      have hle := (hT.bounds hb).1
      simp only [Block.bytes] at this hle
      omega

theorem tiles_end_aligned : (brk - c) % 8 = 0 := by
  induction T generalizing c with
  | nil => simp [tiles_nil.mp h]
  | cons x T ih =>
    have := ih h.2.2
    have hle := h.2.2.le
    simp only [Block.bytes] at this hle
    omega

theorem tiles_length : c + 8 * T.length ≤ brk := by
  induction T generalizing c with
  | nil => exact Nat.le_of_eq h
  | cons x T ih =>
    obtain ⟨-, hpos, hT⟩ := h
    have := ih hT
    simp only [Block.bytes] at hpos this
    simp only [List.length_cons]
    omega

end

/-- The first block of a list is not free. -/
def HeadUsed (Y : List Block) : Prop := ∀ b ∈ Y.head?, b.free = false

/-- The last block of a list is not free. -/
def LastUsed (X : List Block) : Prop := ∀ b ∈ X.getLast?, b.free = false

theorem mergeRight_cases (u : Nat) (Y : List Block) :
    (∃ b v Y', Y = ⟨b, v, true⟩ :: Y' ∧ mergeRight u Y = (u + v, Y')) ∨
      HeadUsed Y ∧ mergeRight u Y = (u, Y) := by
  rcases Y with _ | ⟨⟨b, v, f⟩, Y⟩
  · exact .inr ⟨by simp [HeadUsed], rfl⟩
  · cases f with
    | true => exact .inl ⟨b, v, Y, rfl, rfl⟩
    | false => exact .inr ⟨by simp [HeadUsed], rfl⟩

theorem mergeLeft_cases (X : List Block) (a u : Nat) (Y : List Block) :
    (∃ X' p t, X = X' ++ [⟨p, t, true⟩] ∧ mergeLeft X a u Y = X' ++ ⟨p, t + u, true⟩ :: Y) ∨
      LastUsed X ∧ mergeLeft X a u Y = X ++ ⟨a, u, true⟩ :: Y := by
  rcases X.eq_nil_or_concat with rfl | ⟨X', ⟨p, t, f⟩, rfl⟩
  · exact .inr ⟨by simp [LastUsed], rfl⟩
  · rw [List.concat_eq_append]
    cases f with
    | true => exact .inl ⟨X', p, t, rfl, by simp [mergeLeft]⟩
    | false => exact .inr ⟨by simp [LastUsed], by simp [mergeLeft]⟩

theorem apart_append : Apart (X ++ Y) ↔ Apart X ∧ Apart Y ∧
    ∀ x ∈ X.getLast?, ∀ y ∈ Y.head?, (x.free && y.free) = false :=
  List.isChain_append

theorem apart_cons {b : Block} : Apart (b :: Y) ↔ (b.free = true → HeadUsed Y) ∧ Apart Y := by
  cases Y with
  | nil => simp [Apart, HeadUsed]
  | cons y Y =>
    simp only [Apart, List.isChain_cons_cons, HeadUsed]
    cases b.free <;> simp

/-- A block that is not next to free ones may be free. -/
theorem apart_middle {b : Block} (hX : Apart X) (hY : Apart Y) (hlast : LastUsed X)
    (hhead : HeadUsed Y) : Apart (X ++ b :: Y) :=
  apart_append.mpr ⟨hX, apart_cons.mpr ⟨fun _ => hhead, hY⟩, fun x hx y _ => by simp [hlast x hx]⟩

theorem mergeRight_subset (u : Nat) (Y : List Block) : (mergeRight u Y).2 ⊆ Y := by
  rcases mergeRight_cases u Y with ⟨b, v, Y', rfl, heq⟩ | ⟨-, heq⟩
  · rw [heq]
    exact List.subset_cons_self ..
  · rw [heq]
    exact List.Subset.refl _

theorem frees_mono (h : X ⊆ Y) : frees X ⊆ frees Y := by
  intro x hx
  obtain ⟨v, hv⟩ := mem_frees.mp hx
  exact mem_frees.mpr ⟨v, h hv⟩

theorem mergeRight_apart (h : Apart Y) :
    Apart (mergeRight u Y).2 ∧ HeadUsed (mergeRight u Y).2 := by
  rcases mergeRight_cases u Y with ⟨b, v, Y', rfl, heq⟩ | ⟨hhead, heq⟩
  · rw [heq]
    exact ⟨(apart_cons.mp h).2, (apart_cons.mp h).1 rfl⟩
  · rw [heq]
    exact ⟨h, hhead⟩

/-- Merging to the right covers the same bytes. -/
theorem mergeRight_tiles (h : Tiles Block.addr Block.bytes (a + 8 * u) Y brk) :
    Tiles Block.addr Block.bytes (a + 8 * (mergeRight u Y).1) (mergeRight u Y).2 brk := by
  rcases mergeRight_cases u Y with ⟨b, v, Y', rfl, heq⟩ | ⟨-, heq⟩
  · rw [heq, Nat.mul_add, ← Nat.add_assoc]
    exact h.2.2
  · rw [heq]
    exact h

theorem release_apart (h : Apart (X ++ ⟨a, u, false⟩ :: Y)) : Apart (release X a u Y) := by
  obtain ⟨hX, hY, -⟩ := apart_append.mp h
  obtain ⟨hright, hhead⟩ := mergeRight_apart (u := u) (apart_cons.mp hY).2
  rw [release]
  rcases mergeLeft_cases X a (mergeRight u Y).1 (mergeRight u Y).2 with
    ⟨X', p, t, rfl, heq⟩ | ⟨hlast, heq⟩
  · rw [heq]
    obtain ⟨hX', -, hpX⟩ := apart_append.mp hX
    exact apart_middle hX' hright (fun x hx => by simpa using hpX x hx) hhead
  · rw [heq]
    exact apart_middle hX hright hlast hhead

theorem release_tiles (h : Tiles Block.addr Block.bytes c (X ++ ⟨a, u, false⟩ :: Y) brk) :
    Tiles Block.addr Block.bytes c (release X a u Y) brk := by
  obtain ⟨b, hX, rfl, hpos, hY⟩ := tiles_append.mp h
  have hright := mergeRight_tiles hY
  have hle : u ≤ (mergeRight u Y).1 := by
    rcases mergeRight_cases u Y with ⟨b, v, Y', rfl, heq⟩ | ⟨-, heq⟩
    · rw [heq]
      exact Nat.le_add_right ..
    · rw [heq]
  simp only [Block.bytes] at hpos
  rw [release]
  rcases mergeLeft_cases X a (mergeRight u Y).1 (mergeRight u Y).2 with
    ⟨X', p, t, rfl, heq⟩ | ⟨-, heq⟩
  · rw [heq]
    obtain ⟨d, hX', rfl, -, hd⟩ := tiles_append.mp hX
    refine tiles_append.mpr ⟨p, hX', rfl, by simp only [Block.bytes]; omega, ?_⟩
    rw [Block.bytes, Nat.mul_add, ← Nat.add_assoc]
    simp only [tiles_nil, Block.bytes] at hd
    rw [hd]
    exact hright
  · rw [heq]
    exact tiles_append.mpr ⟨a, hX, rfl, by simp only [Block.bytes]; omega, hright⟩

/-- Blocks that were handed out are not touched. -/
theorem mem_release_used {b : Block} (hb : b.free = false) :
    b ∈ release X a u Y ↔ b ∈ X ++ Y := by
  have hright : b ∈ (mergeRight u Y).2 ↔ b ∈ Y := by
    rcases mergeRight_cases u Y with ⟨d, v, Y', rfl, heq⟩ | ⟨-, heq⟩
    · rw [heq]
      simp only [List.mem_cons, iff_or_self]
      rintro rfl
      cases hb
    · rw [heq]
  have hne (d v : Nat) : b ≠ ⟨d, v, true⟩ := by
    rintro rfl
    cases hb
  rw [release]
  rcases mergeLeft_cases X a (mergeRight u Y).1 (mergeRight u Y).2 with
    ⟨X', p, t, rfl, heq⟩ | ⟨-, heq⟩
  · simp [heq, hright, hne]
  · simp [heq, hright, hne]

/-- The block released is part of a free one. -/
theorem release_has (X : List Block) (a u : Nat) (Y : List Block) : Has (release X a u Y) u := by
  have hle : u ≤ (mergeRight u Y).1 := by
    rcases mergeRight_cases u Y with ⟨b, v, Y', rfl, heq⟩ | ⟨-, heq⟩
    · rw [heq]
      exact Nat.le_add_right ..
    · rw [heq]
  rw [release]
  rcases mergeLeft_cases X a (mergeRight u Y).1 (mergeRight u Y).2 with
    ⟨X', p, t, rfl, heq⟩ | ⟨-, heq⟩
  · exact ⟨⟨p, t + (mergeRight u Y).1, true⟩, by simp [heq], rfl, by simp only; omega⟩
  · exact ⟨⟨a, (mergeRight u Y).1, true⟩, by simp [heq], rfl, hle⟩

theorem carve_tiles (h : Tiles Block.addr Block.bytes c (X ++ ⟨a, u, true⟩ :: Y) brk) (hn : n ≤ u)
    (hpos : 0 < n) : Tiles Block.addr Block.bytes c (carve X a u n Y) brk := by
  obtain ⟨b, hX, rfl, hu, hY⟩ := tiles_append.mp h
  rw [carve]
  split
  · exact tiles_append.mpr ⟨a, hX, rfl, hu, hY⟩
  · refine tiles_append.mpr ⟨a, hX, rfl, by simp only [Block.bytes]; omega, rfl,
      by simp only [Block.bytes]; omega, ?_⟩
    simp only [Block.bytes] at hY ⊢
    rwa [Nat.add_assoc, ← Nat.mul_add, Nat.sub_add_cancel hn]

/-- The block taken is the only new one that is handed out. -/
theorem mem_carve_used {b : Block} (hb : b.free = false) :
    b ∈ carve X a u n Y ↔ b ∈ X ++ Y ∨ b = ⟨a + 8 * (u - n), n, false⟩ := by
  have hne (d v : Nat) : b ≠ ⟨d, v, true⟩ := by
    rintro rfl
    cases hb
  rw [carve]
  split
  · next heq =>
    subst heq
    simp only [List.mem_append, List.mem_cons, Nat.sub_self, Nat.mul_zero, Nat.add_zero]
    tauto
  · simp only [List.mem_append, List.mem_cons, hne, false_or]
    tauto

theorem carve_apart (h : Apart (X ++ ⟨a, u, true⟩ :: Y)) : Apart (carve X a u n Y) := by
  obtain ⟨hX, hY, hlast⟩ := apart_append.mp h
  obtain ⟨-, hY⟩ := apart_cons.mp hY
  rw [carve]
  split
  · exact apart_append.mpr ⟨hX, apart_cons.mpr ⟨by simp, hY⟩, by simp⟩
  · exact apart_append.mpr ⟨hX, apart_cons.mpr ⟨by simp [HeadUsed], apart_cons.mpr ⟨by simp, hY⟩⟩,
      by simpa using hlast⟩

end Tilings

end Xv6.Umalloc
