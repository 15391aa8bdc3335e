import Xv6.Machine.Word

/-!
# The two `memmove`s

`string.c` gives the kernel a `memmove` that picks its direction: when the
destination starts inside the source it copies from the last byte down.
`ulib.c` gives user programs one that always copies from the first byte up.

*The loops.*  `copyUp` and `copyDown` are the two loops over raw pointers.  What
each leaves alone does not depend on the direction (`copyUp_frame`,
`copyDown_frame`).  What it leaves at the destination does: copying down is right
when the source is below, copying up is right when the source is not below, and
copying up over a source that starts `δ` bytes below the destination repeats the
first `δ` bytes (`copyUp_ahead`).

*The functions.*  The kernel's `memmove` moves the bytes for all pointers and
sizes.  The user's one does so exactly when it can copy forward
(`CopiesForward`).
-/

namespace Xv6

variable {i n : Nat} {d s p a dst src : Word}

/-! ## Memory and pointers -/

/-- The bytes of an address space. -/
abbrev Ram := Word → Byte

variable {m : Ram}

/-- `*p = b`. -/
def Ram.poke (m : Ram) (p : Word) (b : Byte) : Ram := fun a => if a = p then b else m a

@[simp] theorem Ram.poke_self (m : Ram) (p : Word) (b : Byte) : m.poke p b p = b :=
  if_pos rfl

theorem Ram.poke_ne (m : Ram) (b : Byte) (h : a ≠ p) : m.poke p b a = m a :=
  if_neg h

/-- The pointer `i` bytes after `p`. -/
def ptr (p : Word) (i : Nat) : Word := p + BitVec.ofNat 32 i

@[simp] theorem ptr_zero (p : Word) : ptr p 0 = p := by
  simp [ptr]

theorem ptr_toNat (h : p.toNat + i < 2 ^ 32) : (ptr p i).toNat = p.toNat + i := by
  rw [ptr, BitVec.toNat_add, BitVec.toNat_ofNat, Nat.mod_eq_of_lt (a := i) (by omega),
    Nat.mod_eq_of_lt h]

theorem ptr_succ (p : Word) (i : Nat) : ptr (p + 1) i = ptr p (i + 1) := by
  simp only [ptr, BitVec.ofNat_add]
  rw [BitVec.add_assoc, BitVec.add_comm 1]
  rfl

theorem ptr_succ_sub_one (p : Word) (i : Nat) : ptr p (i + 1) - 1 = ptr p i := by
  rw [ptr, ptr, BitVec.ofNat_add, ← BitVec.add_assoc]
  exact BitVec.add_sub_cancel _ _

/-- Two pointers that do not wrap differ when their addresses do. -/
theorem ptr_ne {q : Word} {j : Nat} (hi : p.toNat + i < 2 ^ 32) (hj : q.toNat + j < 2 ^ 32)
    (h : p.toNat + i ≠ q.toNat + j) : ptr p i ≠ ptr q j := by
  intro heq
  have := congrArg BitVec.toNat heq
  rw [ptr_toNat hi, ptr_toNat hj] at this
  exact h this

/-! ## The loops -/

/-- `while(n-- > 0) *d++ = *s++;` -/
def copyUp (m : Ram) (d s : Word) : Nat → Ram
  | 0 => m
  | n + 1 => copyUp (m.poke d (m s)) (d + 1) (s + 1) n

/-- `while(n-- > 0) *--d = *--s;` -/
def copyDown (m : Ram) (d s : Word) : Nat → Ram
  | 0 => m
  | n + 1 => copyDown (m.poke (d - 1) (m (s - 1))) (d - 1) (s - 1) n

theorem copyUp_frame (h : ∀ i < n, a ≠ ptr d i) : copyUp m d s n a = m a := by
  induction n generalizing m d s with
  | zero => rfl
  | succ n ih =>
    rw [copyUp, ih fun i hi => by rw [ptr_succ]; exact h (i + 1) (by omega)]
    exact m.poke_ne _ (by simpa using h 0 (by omega))

theorem copyDown_frame (h : ∀ i < n, a ≠ ptr d i) : copyDown m (ptr d n) (ptr s n) n a = m a := by
  induction n generalizing m with
  | zero => rfl
  | succ n ih =>
    rw [copyDown, ptr_succ_sub_one, ptr_succ_sub_one, ih fun i hi => h i (by omega)]
    exact m.poke_ne _ (h n (by omega))

/-- Copying up from a source that is not below the destination moves the bytes. -/
theorem copyUp_behind (hle : d.toNat ≤ s.toNat) (hs : s.toNat + n ≤ 2 ^ 32) (hi : i < n) :
    copyUp m d s n (ptr d i) = m (ptr s i) := by
  induction n generalizing m d s i with
  | zero => omega
  | succ n ih =>
    rw [copyUp]
    cases i with
    | zero =>
      rw [copyUp_frame, ptr_zero, ptr_zero, m.poke_self]
      intro j hj
      rw [ptr_succ]
      exact ptr_ne (by omega) (by omega) (by omega)
    | succ i =>
      have hd1 : (d + 1).toNat = d.toNat + 1 := ptr_toNat (p := d) (i := 1) (by omega)
      have hs1 : (s + 1).toNat = s.toNat + 1 := ptr_toNat (p := s) (i := 1) (by omega)
      rw [← ptr_succ, ih (by omega) (by omega) (by omega), ptr_succ]
      -- the byte to copy lies above the one just written
      rw [m.poke_ne]
      rw [← ptr_zero d]
      exact ptr_ne (by omega) (by omega) (by omega)

/-- Copying up from `δ` bytes below the destination repeats the first `δ` bytes. -/
theorem copyUp_ahead {δ : Nat} (hδ : 0 < δ) (hd : d.toNat = s.toNat + δ) (hn : d.toNat + n ≤ 2 ^ 32)
    (hi : i < n) : copyUp m d s n (ptr d i) = m (ptr s (i % δ)) := by
  induction n generalizing m d s i with
  | zero => omega
  | succ n ih =>
    rw [copyUp]
    cases i with
    | zero =>
      rw [copyUp_frame, ptr_zero, Nat.zero_mod, ptr_zero, m.poke_self]
      intro j hj
      rw [ptr_succ]
      exact ptr_ne (by omega) (by omega) (by omega)
    | succ i =>
      have hd1 : (d + 1).toNat = d.toNat + 1 := ptr_toNat (p := d) (i := 1) (by omega)
      have hs1 : (s + 1).toNat = s.toNat + 1 := ptr_toNat (p := s) (i := 1) (by omega)
      have hlt : i % δ < δ := Nat.mod_lt _ hδ
      rw [← ptr_succ, ih (by omega) (by omega) (by omega), ptr_succ, ← Nat.mod_add_mod]
      by_cases hround : i % δ + 1 = δ
      · -- the byte to copy is the one just written, a copy of the first
        rw [hround, Nat.mod_self, ptr_zero, show ptr s δ = d from ?_, m.poke_self]
        exact BitVec.eq_of_toNat_eq (by rw [ptr_toNat (by omega), hd])
      · rw [Nat.mod_eq_of_lt (a := i % δ + 1) (by omega), m.poke_ne]
        rw [← ptr_zero d]
        exact ptr_ne (by omega) (by omega) (by omega)

/-- Copying down from a source below the destination moves the bytes. -/
theorem copyDown_below (hlt : s.toNat < d.toNat) (hd : d.toNat + n ≤ 2 ^ 32) (hi : i < n) :
    copyDown m (ptr d n) (ptr s n) n (ptr d i) = m (ptr s i) := by
  induction n generalizing m with
  | zero => omega
  | succ n ih =>
    rw [copyDown, ptr_succ_sub_one, ptr_succ_sub_one]
    by_cases hlast : i = n
    · subst hlast
      rw [copyDown_frame fun j hj => ptr_ne (by omega) (by omega) (by omega), m.poke_self]
    · rw [ih (by omega) (by omega), m.poke_ne]
      exact ptr_ne (by omega) (by omega) (by omega)

/-! ## The functions -/

/-- `memmove` of `string.c`. -/
def Kern.memmove (m : Ram) (dst src n : Word) : Ram :=
  if src < dst ∧ src + n > dst then copyDown m (dst + n) (src + n) n.toNat
  else copyUp m dst src n.toNat

/-- `memmove` of `ulib.c`.  Its `n` is an `int`: a negative one copies nothing. -/
def Ulib.memmove (m : Ram) (dst src n : Word) : Ram :=
  copyUp m dst src n.toInt.toNat

/-- The `n` bytes at `dst` are those that were at `src`, and no other byte has changed. -/
def Copied (m m' : Ram) (dst src n : Word) : Prop :=
  (∀ i < n.toNat, m' (ptr dst i) = m (ptr src i)) ∧
    ∀ a, (∀ i < n.toNat, a ≠ ptr dst i) → m' a = m a

/-- The memory after a move is determined by the memory before it. -/
theorem Copied.unique {m₁ m₂ : Ram} {n : Word} (h₁ : Copied m m₁ dst src n)
    (h₂ : Copied m m₂ dst src n) : m₁ = m₂ := by
  funext a
  by_cases ha : ∃ i < n.toNat, a = ptr dst i
  · obtain ⟨i, hi, rfl⟩ := ha
    rw [h₁.1 i hi, h₂.1 i hi]
  · have hout : ∀ i < n.toNat, a ≠ ptr dst i := fun i hi heq => ha ⟨i, hi, heq⟩
    rw [h₁.2 a hout, h₂.2 a hout]

/-- When copying from the first byte up moves the bytes: the size is a positive
`int`, and if the destination starts inside the source then the source repeats
with the distance between the two.  A size that is a negative `int` copies
nothing, which is right when the bytes are already there. -/
def CopiesForward (m : Ram) (dst src n : Word) : Prop :=
  if n.toNat < 2 ^ 31 then
    src.toNat < dst.toNat → dst.toNat < src.toNat + n.toNat →
      ∀ i < n.toNat, m (ptr src i) = m (ptr src (i % (dst.toNat - src.toNat)))
  else ∀ i < n.toNat, m (ptr dst i) = m (ptr src i)

theorem Kern.memmove_copied {n : Word} (hs : src.toNat + n.toNat ≤ 2 ^ 32)
    (hd : dst.toNat + n.toNat ≤ 2 ^ 32) : Copied m (Kern.memmove m dst src n) dst src n := by
  have hptr (p : Word) : p + n = ptr p n.toNat := by simp [ptr]
  rw [Kern.memmove]
  split
  · next h =>
    have hlt : src.toNat < dst.toNat := h.1
    rw [hptr, hptr]
    exact ⟨fun i hi => copyDown_below hlt hd hi, fun a ha => copyDown_frame ha⟩
  · next h =>
    refine ⟨fun i hi => ?_, fun a ha => copyUp_frame ha⟩
    rcases Nat.lt_or_ge src.toNat dst.toNat with hlt | hge
    · -- the ranges do not overlap, so no byte is copied twice
      have hend : ¬ dst.toNat < src.toNat + n.toNat := by
        intro hin
        refine h ⟨hlt, ?_⟩
        rw [hptr, gt_iff_lt, BitVec.lt_def, ptr_toNat (by omega)]
        exact hin
      rw [copyUp_ahead (δ := dst.toNat - src.toNat) (by omega) (by omega) hd hi,
        Nat.mod_eq_of_lt (by omega)]
    · exact copyUp_behind hge hs hi

theorem Ulib.memmove_copied_iff {n : Word} (hs : src.toNat + n.toNat ≤ 2 ^ 32)
    (hd : dst.toNat + n.toNat ≤ 2 ^ 32) :
    Copied m (Ulib.memmove m dst src n) dst src n ↔ CopiesForward m dst src n := by
  rw [CopiesForward, Ulib.memmove]
  split
  · next hn =>
    rw [show n.toInt.toNat = n.toNat by rw [BitVec.toInt_eq_toNat_of_lt (by omega)]; rfl]
    rw [Copied, and_iff_left fun a ha => copyUp_frame ha]
    rcases Nat.lt_or_ge src.toNat dst.toNat with hlt | hge
    · have hup (i : Nat) (hi : i < n.toNat) :=
        copyUp_ahead (m := m) (s := src) (δ := dst.toNat - src.toNat) (by omega) (by omega) hd hi
      constructor
      · intro h _ _ i hi
        rw [← h i hi, hup i hi]
      · intro h i hi
        rw [hup i hi]
        by_cases hin : dst.toNat < src.toNat + n.toNat
        · exact (h hlt hin i hi).symm
        · rw [Nat.mod_eq_of_lt (by omega)]
    · exact iff_of_true (fun i hi => copyUp_behind hge hs hi) fun hlt => absurd hlt (by omega)
  · next hn =>
    rw [show n.toInt.toNat = 0 by rw [BitVec.toInt_eq_toNat_cond]; split <;> omega, copyUp, Copied,
      and_iff_left fun _ _ => rfl]

/-- The kernel's `memmove` moves the bytes whatever the overlap.  The user
library's does so exactly when it may copy forward, and only then do the two
agree. -/
theorem memmove_agree (m : Ram) (dst src n : Word) (hs : src.toNat + n.toNat ≤ 2 ^ 32)
    (hd : dst.toNat + n.toNat ≤ 2 ^ 32) :
    Copied m (Kern.memmove m dst src n) dst src n ∧
      (Copied m (Ulib.memmove m dst src n) dst src n ↔ CopiesForward m dst src n) ∧
      (Ulib.memmove m dst src n = Kern.memmove m dst src n ↔ CopiesForward m dst src n) := by
  have hkern : Copied m (Kern.memmove m dst src n) dst src n := Kern.memmove_copied hs hd
  have hulib := Ulib.memmove_copied_iff (m := m) hs hd
  refine ⟨hkern, hulib, ?_⟩
  rw [← hulib]
  exact ⟨fun heq => heq ▸ hkern, fun h => h.unique hkern⟩

/-- Three bytes moved up by one. -/
theorem memmove_agree_shifted : Copied (fun a => a.setWidth 8)
    (Kern.memmove (fun a => a.setWidth 8) 11 10 3) 11 10 3 :=
  (memmove_agree (fun a => a.setWidth 8) 11 10 3 (by decide) (by decide)).1

/-- Shifting three different bytes up by one in a user program leaves the first
of them three times. -/
theorem Ulib.memmove_smears :
    ¬ Copied (fun a => a.setWidth 8) (Ulib.memmove (fun a => a.setWidth 8) 11 10 3) 11 10 3 ∧
      Ulib.memmove (fun a => a.setWidth 8) 11 10 3 13 = 10#8 ∧
      Kern.memmove (fun a => a.setWidth 8) 11 10 3 13 = 12#8 := by
  refine ⟨fun h => ?_, by decide, by decide⟩
  have := h.1 2 (by decide)
  revert this
  decide

end Xv6
