import Xv6.Kernel.Image

/-!
# The argument stack of a program

`exec` ends an image with two pages.  The lower one is the guard, which no user may use; the
upper one is the stack.  The argument strings are pushed below the end of the stack, and below
them the words that `main` finds at its stack pointer.

Nothing compares the pointer with the guard.  That a string does not fit shows only when
`copyout` comes to a page that a user may not use, or, after the pointer wrapped around, to the
kernel's half.  Four facts carry the proofs:

* a string that fits lies in the stack page, and the copy is one write to its frame
  (`Stands.pushArg`);
* a string that does not fit, but is no longer than the pointer, takes in the guard, so its copy
  fails (`Holds.pushArg_long`);
* a longer one wraps to an address of the kernel's half.  From `DEVSPACE` on there are page
  tables, and the copy fails;
* below `DEVSPACE` there are none, and `uva2ka` follows the null pointer (`Stands.pushArg_gap`).
-/

namespace Xv6

open Prog

variable {I J : Image} {sp : Nat} {arg : List Byte}

/-! ## The code, with the stack pointer -/

section

variable [Link]

/-- The two pages of the stack, the lower one inaccessible.  Returns the size, 0 on error. -/
def allocStack (pgdir sz : Nat) : M Nat := do
  let sz ← allocuvm pgdir (pgroundup sz) (pgroundup sz + 2 * pgsize)
  if sz = 0 then pure 0
  else do
    clearpteu pgdir (sz - 2 * pgsize)
    pure sz

/-- The words above the strings: a return address, `argc`, `argv`, and the array. -/
def stackWords (sp : Nat) (args : List Nat) : List Nat :=
  [0xffffffff, args.length, sp + uintSize - (args.length + 1) * 4] ++ args ++ [0]

/-- Push the arguments below `sz`.  Returns the stack pointer. -/
def pushStack (pgdir sz : Nat) (argv : List (List Byte)) : M (Option Nat) := do
  match ← pushArgs pgdir argv sz [] with
  | none => pure none
  | some (sp, args) => do
    let esp := (sp + uintSize - (3 + args.length + 1) * 4) % uintSize
    let ok ← copyout pgdir esp ((stackWords sp args).flatMap uintBytes)
    if ok then pure (some esp) else pure none

/-- `buildStack` is the two, without the pointer. -/
theorem wp_buildStack (pgdir sz : Nat) (argv : List (List Byte)) (Q : Option Nat → Mem → Prop)
    (F : Fault → Prop) (m : Mem) :
    wp (buildStack pgdir sz argv) Q F m ↔ wp (allocStack pgdir sz) (fun sz m1 =>
      if sz = 0 then Q none m1
      else wp (pushStack pgdir sz argv) (fun r m2 => Q (r.map fun _ => sz) m2) F m1) F m := by
  unfold buildStack allocStack
  simp only [wp_bind, wp_ite, wp_pure]
  refine wp_congr fun r m1 => ?_
  split
  · simp
  · simp only [pushStack, wp_bind]
    refine wp_congr fun _ m2 => wp_congr fun res m3 => ?_
    cases res with
    | none => simp
    | some res =>
      simp only [wp_bind, wp_ite, wp_pure, stackWords]
      refine wp_congr fun ok m4 => ?_
      cases ok <;> simp

end

/-! ## Where the strings go -/

/-- The pointer after a string is pushed. -/
@[irreducible] def pushPtr (sp : Nat) (arg : List Byte) : Nat :=
  (sp + uintSize - (arg.length + 1) % uintSize) % uintSize / 4 * 4

/-- The pointers to the strings, in order. -/
def argPtrs : Nat → List (List Byte) → List Nat
  | _, [] => []
  | sp, arg :: argv => pushPtr sp arg :: argPtrs (pushPtr sp arg) argv

/-- The pointer after all strings. -/
def argBottom (sp : Nat) (argv : List (List Byte)) : Nat := argv.foldl pushPtr sp

/-- The page from `base` on, after the strings are pushed. -/
def argBytes (base : Nat) : Page → Nat → List (List Byte) → Page
  | pg, _, [] => pg
  | pg, sp, arg :: argv =>
    argBytes base (setBytes pg (pushPtr sp arg - base) (arg ++ [0#8])) (pushPtr sp arg) argv

/-- All strings fit between `base` and `sp`. -/
def StringsFit (base : Nat) : Nat → List (List Byte) → Prop
  | _, [] => True
  | sp, arg :: argv => base + (arg.length + 1) ≤ sp ∧ StringsFit base (pushPtr sp arg) argv

/-- The first string that does not fit is longer than the pointer and the last 32 MB together.
`n` counts the strings already pushed: `exec` takes no more than `MAXARG`. -/
def Overlong (base : Nat) : Nat → Nat → List (List Byte) → Prop
  | _, _, [] => False
  | sp, n, arg :: argv => n < maxarg ∧
      if base + (arg.length + 1) ≤ sp then Overlong base (pushPtr sp arg) (n + 1) argv
      else sp + (uintSize - devspace) < arg.length + 1

theorem pushPtr_of_le (hsp : sp < uintSize) (hle : arg.length + 1 ≤ sp) :
    pushPtr sp arg = (sp - (arg.length + 1)) / 4 * 4 := by
  unfold pushPtr
  rw [uintSize_eq] at *
  omega

theorem pushPtr_of_lt (hlt : sp < arg.length + 1) (hlen : arg.length + 1 < uintSize) :
    pushPtr sp arg = (sp + uintSize - (arg.length + 1)) / 4 * 4 := by
  unfold pushPtr
  rw [uintSize_eq] at *
  omega

theorem pushPtr_lt (sp : Nat) (arg : List Byte) : pushPtr sp arg < uintSize := by
  unfold pushPtr
  rw [uintSize_eq]
  omega

/-! ## The stack page -/

/-- The image ends with a guard and a stack. -/
structure Image.Stacked (I : Image) : Prop where
  two : 2 ≤ I.size
  guard : (I.page (I.size - 2)).user = false
  stack : (I.page (I.size - 1)).user = true

/-- The address of the stack page. -/
def Image.base (I : Image) : Nat := (I.size - 1) * pgsize

/-- A pointer into the stack page, or to its end. -/
structure Image.Pointer (I : Image) (sp : Nat) : Prop where
  lo : I.base ≤ sp
  hi : sp ≤ I.size * pgsize
  aligned : sp % 4 = 0

theorem Image.Stacked.alike (h : I.Stacked) (hJ : I.Alike J) : J.Stacked := by
  refine ⟨by rw [hJ.size]; exact h.two, ?_, ?_⟩
  · rw [hJ.size, hJ.user, h.guard]
  · rw [hJ.size, hJ.user, h.stack]

theorem Image.Stacked.base_eq (h : I.Stacked) :
    I.base + pgsize = I.size * pgsize ∧ (I.size - 2) * pgsize + pgsize = I.base := by
  have := h.two
  unfold Image.base
  rw [pgsize_eq]
  omega

theorem Image.Stacked.base_sub (h : I.Stacked) : I.size * pgsize - pgsize = I.base :=
  Nat.sub_eq_of_eq_add h.base_eq.1.symm

theorem Image.Stacked.top (h : I.Stacked) : I.Pointer (I.size * pgsize) := by
  have := h.base_eq
  refine ⟨by omega, le_refl _, ?_⟩
  rw [pgsize_eq]
  omega

theorem Image.Alike.base (h : I.Alike J) : J.base = I.base := by
  unfold Image.base
  rw [h.size]

theorem Image.Pointer.alike (h : I.Pointer sp) (hJ : I.Alike J) : J.Pointer sp :=
  ⟨by rw [hJ.base]; exact h.lo, by rw [hJ.size]; exact h.hi, h.aligned⟩

theorem Image.top_le (hle : I.size ≤ userPages) : I.size * pgsize ≤ kernbase := by
  rw [userPages_eq] at hle
  rw [pgsize_eq, kernbase_eq]
  omega

/-- The pointer after a string that fits. -/
theorem Image.Pointer.push (h : I.Pointer sp) (hI : I.Stacked) (hle : I.size ≤ userPages)
    (hfit : I.base + (arg.length + 1) ≤ sp) :
    I.Pointer (pushPtr sp arg) ∧ pushPtr sp arg + (arg.length + 1) ≤ sp := by
  obtain ⟨hlo, hhi, hal⟩ := h
  obtain ⟨hb, -⟩ := hI.base_eq
  rw [userPages_eq] at hle
  have hal' : I.base % 4 = 0 := by
    unfold Image.base
    rw [pgsize_eq]
    omega
  have hlt : sp < uintSize := by
    rw [pgsize_eq, uintSize_eq] at *
    omega
  rw [pushPtr_of_le hlt (by omega)]
  exact ⟨⟨by omega, by omega, by omega⟩, by omega⟩

variable [Link] {x : Bool} {A0 A : Space} {m0 m : Mem} {d : Nat} {F : Fault → Prop}
 

/-- The frame of the stack page. -/
def stackFrame (A : Space) (d : Nat) (I : Image) : Nat := frame (A.pte d (I.size - 1))

/-- A copy inside the stack page. -/
theorem Stands.stackWrite (h : Stands x A0 m0 d I m A) (hI : I.Stacked) (va : Nat)
    {buf : List Byte} (hbuf : buf ≠ []) (hlo : I.base ≤ va) (hhi : va + buf.length ≤ I.size * pgsize) :
    wp (Xv6.copyout d va buf) (fun ok m' => ok = true ∧ m' = m.setPage (stackFrame A d I)
      (setBytes (m.page (stackFrame A d I)) (va - I.base) buf)) F m := by
  obtain ⟨hb, -⟩ := hI.base_eq
  have h2 := hI.two
  have hva : (I.size - 1) * pgsize + (va - I.base) = va := Nat.add_sub_cancel' hlo
  have := h.copyout_page (F := F) (v := I.size - 1) (o := va - I.base) (by omega) hI.stack hbuf
    (by omega)
  rwa [hva] at this

/-- A copy that begins below the stack page and comes to the guard. -/
theorem Holds.guarded (h : Holds x A0 m0 d I m) (hwf0 : A0.WF) (hI : I.Stacked) (va : Nat)
    {buf : List Byte} (hlo : va < I.base) (hhi : I.base < va + buf.length + pgsize)
    (htop : va + buf.length ≤ I.size * pgsize) (hle : I.size ≤ userPages) (hbuf : buf ≠ []) :
    wp (Xv6.copyout d va buf) (fun ok m' => ok = false ∧ ∃ J, I.Alike J ∧ Holds x A0 m0 d J m') F m := by
  obtain ⟨hb, hg⟩ := hI.base_eq
  have hva : va < uintSize := by
    rw [userPages_eq] at hle
    rw [pgsize_eq, uintSize_eq] at *
    omega
  refine wp_post (Holds.copyout hwf0 _ rfl h hva (.inr (.inl htop))) ?_
  rintro ok m' ⟨J, halike, hJ, hok⟩
  refine ⟨?_, J, halike, hJ⟩
  by_contra htrue
  have := (hok (by simpa using htrue) hbuf).2 (I.size - 2) ?_ ?_
  · rw [hI.guard] at this
    cases this
  · rw [pgsize_eq] at *
    omega
  · omega

/-- A string that fits. -/
theorem Stands.pushArg (h : Stands x A0 m0 d I m A) (hI : I.Stacked) (hsp : I.Pointer sp)
    (hfit : I.base + (arg.length + 1) ≤ sp) :
    wp (Xv6.copyout d (pushPtr sp arg) (arg ++ [0#8])) (fun ok m' => ok = true ∧
      m' = m.setPage (stackFrame A d I) (setBytes (m.page (stackFrame A d I))
        (pushPtr sp arg - I.base) (arg ++ [0#8]))) F m := by
  obtain ⟨hptr, hend⟩ := hsp.push hI h.shows.le hfit
  have := hsp.hi
  refine h.stackWrite hI _ (by simp) hptr.lo ?_
  rw [List.length_append, List.length_singleton]
  omega

/-- A string that does not fit. -/
theorem Holds.pushArg_long (h : Holds x A0 m0 d I m) (hwf0 : A0.WF) (hI : I.Stacked)
    (hsp : I.Pointer sp) (hno : ¬ I.base + (arg.length + 1) ≤ sp) (hlen : arg.length + 1 < uintSize)
    (hnull : F .nullDeref ∨ arg.length + 1 ≤ sp + (uintSize - devspace)) :
    wp (Xv6.copyout d (pushPtr sp arg) (arg ++ [0#8]))
      (fun ok m' => ok = false ∧ ∃ J, I.Alike J ∧ Holds x A0 m0 d J m') F m := by
  obtain ⟨hlo, hhi, hal⟩ := hsp
  obtain ⟨hb, hg⟩ := hI.base_eq
  have hle : I.size ≤ userPages := by
    obtain ⟨A, hA⟩ := h
    exact hA.shows.le
  have htop := Image.top_le hle
  have hlt : sp < uintSize := by
    rw [kernbase_eq] at htop
    rw [uintSize_eq]
    omega
  have hblen : (arg ++ [0#8]).length = arg.length + 1 := by simp
  by_cases hwrap : arg.length + 1 ≤ sp
  · -- the string takes in the guard
    have hptr := pushPtr_of_le hlt hwrap
    have hps := pgsize_eq
    refine h.guarded hwf0 hI _ ?_ ?_ ?_ hle (by simp)
    · omega
    · omega
    · omega
  · -- the pointer wraps around, so the end of the string is not in the image
    have hptr := pushPtr_of_lt (Nat.lt_of_not_le hwrap) hlen
    refine wp_post (Holds.copyout hwf0 _ rfl h (pushPtr_lt sp arg) (hnull.imp_right fun hshort => .inr ?_)) ?_
    · rw [show uintSize - devspace = 0x2000000 from rfl] at hshort
      simp only [kernelSlots, Finset.mem_union, Finset.mem_Ico]
      rw [hptr, uintSize_eq, pgsize_eq, userPages_eq, npdentries_eq] at *
      omega
    · rintro ok m' ⟨J, halike, hJ, hok⟩
      refine ⟨?_, J, halike, hJ⟩
      by_contra htrue
      have := (hok (by simpa using htrue) (by simp)).1
      rw [kernbase_eq] at htop
      rw [hptr, hblen, uintSize_eq] at this
      omega

/-- A string so long that the pointer wraps below `DEVSPACE`. -/
theorem Stands.pushArg_gap (h : Stands x A0 m0 d I m A) (hsp : I.Pointer sp)
    (hlen : arg.length < phystop) (hgap : sp + (uintSize - devspace) < arg.length + 1) :
    wp (Xv6.copyout d (pushPtr sp arg) (arg ++ [0#8])) (fun _ _ => False)
      (fun e => e = .nullDeref) m := by
  have hhi := hsp.hi
  have hle := h.shows.le
  have hptr := @pushPtr_of_lt sp arg (by omega) (by
    rw [phystop_eq] at hlen
    rw [uintSize_eq]
    omega)
  rw [show uintSize - devspace = 0x2000000 from rfl] at hgap
  rw [phystop_eq] at hlen
  refine h.copyout_gap (pushPtr_lt sp arg) (by simp) ?_ ?_
  · rw [hptr, userPages_eq, pgsize_eq, uintSize_eq]
    omega
  · simp only [kernelSlots, Finset.mem_union, Finset.mem_Ico]
    rw [hptr, npdentries_eq, pgsize_eq, uintSize_eq]
    omega

omit [Link] in
theorem pushArgs_cons (d : Nat) (arg : List Byte) (argv : List (List Byte)) (sp : Nat)
    (ustack : List Nat) : pushArgs d (arg :: argv) sp ustack =
      (if maxarg ≤ ustack.length then pure none
      else do
        let ok ← copyout d (pushPtr sp arg) (arg ++ [0#8])
        if ok then pushArgs d argv (pushPtr sp arg) (ustack ++ [pushPtr sp arg])
        else pure none) := by
  unfold pushPtr
  rfl

/-- Pushing the strings is a write to the stack page, or it fails. -/
theorem Stands.pushArgs (hwf0 : A0.WF) (argv : List (List Byte)) :
    ∀ {I : Image} {m : Mem} {sp : Nat} {ustack : List Nat}, Stands x A0 m0 d I m A → I.Stacked →
      I.Pointer sp → (∀ arg ∈ argv, arg.length + 1 < uintSize) →
      (F .nullDeref ∨ ¬ Overlong I.base sp ustack.length argv) →
      wp (Xv6.pushArgs d argv sp ustack) (fun r m' => match r with
        | none => (∃ J, I.Alike J ∧ Holds x A0 m0 d J m') ∧
            ¬ (StringsFit I.base sp argv ∧ ustack.length + argv.length ≤ maxarg)
        | some (sp', ptrs) => StringsFit I.base sp argv ∧ sp' = argBottom sp argv ∧
            ptrs = ustack ++ argPtrs sp argv ∧ ptrs.length ≤ max maxarg ustack.length ∧
            m' = m.setPage (stackFrame A d I) (argBytes I.base (m.page (stackFrame A d I)) sp argv))
        F m := by
  induction argv with
  | nil =>
    intro I m sp ustack h _ _ _ _
    rw [Xv6.pushArgs, wp_pure]
    refine ⟨trivial, rfl, (List.append_nil _).symm, le_max_right _ _, ?_⟩
    simp [argBytes, Mem.setPage]
  | cons arg argv ih =>
    intro I m sp ustack h hI hsp hlen hnull
    rw [pushArgs_cons, wp_ite]
    split
    · rename_i hmax
      rw [wp_pure]
      refine ⟨⟨I, .refl I, A, h⟩, fun hok => ?_⟩
      have hargc := hok.2
      rw [List.length_cons] at hargc
      omega
    rename_i hmax
    have hlen0 := hlen arg List.mem_cons_self
    rw [wp_bind]
    by_cases hfit : I.base + (arg.length + 1) ≤ sp
    · refine wp_post (h.pushArg hI hsp hfit) ?_
      rintro ok m1 ⟨rfl, rfl⟩
      rw [if_pos rfl]
      have h2 := hI.two
      have halike := Image.Alike.put I (I.size - 1) (setBytes (m.page (stackFrame A d I))
        (pushPtr sp arg - I.base) (arg ++ [0#8]))
      refine wp_post (ih (h.write hwf0 (by omega) _) (hI.alike halike)
        ((hsp.push hI h.shows.le hfit).1.alike halike) (fun a ha => hlen a (List.mem_cons_of_mem _ ha))
        (hnull.imp_right fun hno hover => hno ?_)) ?_
      · rintro (_ | ⟨sp', ptrs⟩) m2 hr
        · obtain ⟨⟨J, hJ, hm⟩, hno⟩ := hr
          refine ⟨⟨J, halike.trans hJ, hm⟩, fun hok => hno ⟨hok.1.2, ?_⟩⟩
          have hargc := hok.2
          rw [List.length_cons] at hargc
          rw [List.length_append, List.length_singleton]
          omega
        · obtain ⟨hfits, hsp', hptrs, hcount, hm⟩ := hr
          refine ⟨⟨hfit, hfits⟩, hsp', ?_, ?_, ?_⟩
          · rw [hptrs, List.append_assoc]
            rfl
          · rw [List.length_append, List.length_singleton] at hcount
            omega
          · rw [hm]
            simp [argBytes, Mem.setPage, stackFrame, Image.base]
      · rw [Overlong, if_pos hfit]
        refine ⟨Nat.lt_of_not_le hmax, ?_⟩
        rwa [List.length_append, List.length_singleton] at hover
    · refine wp_post (Holds.pushArg_long ⟨A, h⟩ hwf0 hI hsp hfit hlen0
        (hnull.imp_right fun hno => ?_)) ?_
      · by_contra hlong
        refine hno ?_
        rw [Overlong, if_neg hfit]
        exact ⟨Nat.lt_of_not_le hmax, Nat.lt_of_not_le hlong⟩
      · rintro ok m1 ⟨rfl, J, hJ, hm⟩
        rw [if_neg (by decide), wp_pure]
        exact ⟨⟨J, hJ, hm⟩, fun hok => hfit hok.1.1⟩

omit [Link] in
/-- A string that fits is not overlong. -/
theorem StringsFit.not_overlong {base : Nat} (argv : List (List Byte)) : ∀ {sp n : Nat},
    StringsFit base sp argv → ¬ Overlong base sp n argv := by
  induction argv with
  | nil => exact fun _ h => h
  | cons arg argv ih =>
    rintro sp n ⟨hfit, hrest⟩ ⟨-, hover⟩
    rw [if_pos hfit] at hover
    exact ih hrest hover

/-- An overlong string makes the copy dereference a null pointer. -/
theorem Stands.pushArgs_null (hwf0 : A0.WF) (argv : List (List Byte)) :
    ∀ {I : Image} {m : Mem} {sp : Nat} {ustack : List Nat}, Stands x A0 m0 d I m A → I.Stacked →
      I.Pointer sp → (∀ arg ∈ argv, arg.length < phystop) →
      Overlong I.base sp ustack.length argv →
      wp (Xv6.pushArgs d argv sp ustack) (fun _ _ => False) (fun e => e = .nullDeref) m := by
  induction argv with
  | nil =>
    intro I m sp ustack _ _ _ _ hover
    exact absurd hover id
  | cons arg argv ih =>
    intro I m sp ustack h hI hsp hlen hover
    obtain ⟨hmax, hover⟩ := hover
    rw [pushArgs_cons, wp_ite, if_neg (Nat.not_le.mpr hmax), wp_bind]
    by_cases hfit : I.base + (arg.length + 1) ≤ sp
    · rw [if_pos hfit] at hover
      refine wp_post (h.pushArg hI hsp hfit) ?_
      rintro ok m1 ⟨rfl, rfl⟩
      rw [if_pos rfl]
      have h2 := hI.two
      refine ih (h.write hwf0 (by omega) _) (hI.alike (.put I _ _))
        ((hsp.push hI h.shows.le hfit).1.alike (.put I _ _)) (fun a ha => hlen a (List.mem_cons_of_mem _ ha)) ?_
      rw [List.length_append, List.length_singleton]
      exact hover
    · rw [if_neg hfit] at hover
      refine wp_post (h.pushArg_gap hsp (hlen arg List.mem_cons_self) hover) ?_
      exact fun _ _ hk => hk.elim

/-! ## The words above the strings -/

/-- The stack pointer of the new program. -/
def stackTop (sz : Nat) (argv : List (List Byte)) : Nat :=
  argBottom sz argv - (3 + argv.length + 1) * 4

/-- The stack page of the new program. -/
def stackPage (base sz : Nat) (argv : List (List Byte)) (pg : Page) : Page :=
  setBytes (argBytes base pg sz argv) (stackTop sz argv - base)
    ((stackWords (argBottom sz argv) (argPtrs sz argv)).flatMap uintBytes)

section

omit [Link]

theorem length_argPtrs (argv : List (List Byte)) : ∀ sp, (argPtrs sp argv).length = argv.length := by
  induction argv with
  | nil => exact fun _ => rfl
  | cons arg argv ih =>
    intro sp
    rw [argPtrs, List.length_cons, List.length_cons, ih]

theorem length_uintBytes (ws : List Nat) : (ws.flatMap uintBytes).length = 4 * ws.length := by
  induction ws with
  | nil => rfl
  | cons w ws ih =>
    rw [List.flatMap_cons, List.length_append, ih, List.length_cons]
    show 4 + _ = _
    omega

theorem length_stackWords (sp : Nat) (args : List Nat) :
    (stackWords sp args).length = 4 + args.length := by
  simp [stackWords]
  omega

theorem Image.Pointer.bottom (hI : I.Stacked) (hle : I.size ≤ userPages) (argv : List (List Byte)) :
    ∀ {sp : Nat}, I.Pointer sp → StringsFit I.base sp argv →
      I.Pointer (argBottom sp argv) := by
  induction argv with
  | nil => exact fun h _ => h
  | cons arg argv ih => exact fun h hf => ih (h.push hI hle hf.1).1 hf.2

end

/-- The arguments fit in the stack page. -/
structure Image.Roomy (I : Image) (argv : List (List Byte)) : Prop where
  fits : StringsFit I.base (I.size * pgsize) argv
  argc : argv.length ≤ maxarg
  room : I.base + (3 + argv.length + 1) * 4 ≤ argBottom (I.size * pgsize) argv

/-- Pushing the arguments is one write to the stack page, or they do not fit. -/
theorem Stands.pushStack (h : Stands x A0 m0 d I m A) (hwf0 : A0.WF) (hI : I.Stacked)
    {argv : List (List Byte)} (hlen : ∀ arg ∈ argv, arg.length + 1 < uintSize)
    (hnull : F .nullDeref ∨ ¬ Overlong I.base (I.size * pgsize) 0 argv) :
    wp (Xv6.pushStack d (I.size * pgsize) argv) (fun r m' => match r with
      | none => (∃ J, I.Alike J ∧ Holds x A0 m0 d J m') ∧ ¬ I.Roomy argv
      | some esp => I.Roomy argv ∧ esp = stackTop (I.size * pgsize) argv ∧
          m' = m.setPage (stackFrame A d I)
            (stackPage I.base (I.size * pgsize) argv (m.page (stackFrame A d I)))) F m := by
  unfold Xv6.pushStack
  rw [wp_bind]
  refine wp_post (Stands.pushArgs hwf0 argv h hI hI.top hlen hnull) ?_
  rintro (_ | ⟨sp, ptrs⟩) m1 hr
  · rw [wp_pure]
    exact ⟨hr.1, fun hok => hr.2 ⟨hok.fits, by simpa using hok.argc⟩⟩
  obtain ⟨hfits, rfl, hptrs, hcount, rfl⟩ := hr
  rw [List.nil_append] at hptrs
  subst hptrs
  rw [length_argPtrs, List.length_nil, Nat.max_zero] at hcount
  have hargc : maxarg = 32 := rfl
  have hbot := Image.Pointer.bottom hI h.shows.le argv hI.top hfits
  have h2 := hI.two
  have hbase : pgsize ≤ I.base := by
    unfold Image.base
    rw [pgsize_eq]
    omega
  have hps := pgsize_eq
  have hlt : argBottom (I.size * pgsize) argv < uintSize := by
    have h1 := hbot.hi
    have h3 := Image.top_le h.shows.le
    rw [kernbase_eq] at h3
    rw [uintSize_eq]
    omega
  have hlo := hbot.lo
  have hhi := hbot.hi
  have hesp : (argBottom (I.size * pgsize) argv + uintSize -
      (3 + (argPtrs (I.size * pgsize) argv).length + 1) * 4) % uintSize =
      stackTop (I.size * pgsize) argv := by
    rw [length_argPtrs, stackTop]
    rw [uintSize_eq] at hlt ⊢
    omega
  dsimp only
  rw [wp_bind, hesp]
  have hne : (stackWords (argBottom (I.size * pgsize) argv)
      (argPtrs (I.size * pgsize) argv)).flatMap uintBytes ≠ [] := by
    rw [← List.length_pos_iff, length_uintBytes, length_stackWords]
    omega
  have hwords := length_uintBytes
    (stackWords (argBottom (I.size * pgsize) argv) (argPtrs (I.size * pgsize) argv))
  rw [length_stackWords, length_argPtrs] at hwords
  have hst : I.Alike (I.put (I.size - 1) { I.page (I.size - 1) with
      bytes := argBytes I.base (m.page (stackFrame A d I)) (I.size * pgsize) argv }) := .put ..
  have h1 := h.write hwf0 (v := I.size - 1) (by omega)
    (argBytes I.base (m.page (stackFrame A d I)) (I.size * pgsize) argv)
  by_cases hroom : I.base + (3 + argv.length + 1) * 4 ≤ argBottom (I.size * pgsize) argv
  · refine wp_post (h1.stackWrite (hI.alike hst) (stackTop (I.size * pgsize) argv) hne ?_ ?_) ?_
    · show I.base ≤ _
      rw [stackTop]
      omega
    · show _ ≤ I.size * pgsize
      rw [stackTop]
      omega
    · rintro ok m2 ⟨rfl, rfl⟩
      rw [if_pos rfl, wp_pure]
      refine ⟨⟨hfits, hcount, hroom⟩, rfl, ?_⟩
      simp [Mem.setPage, stackFrame, stackPage, Image.base]
  · refine wp_post (Holds.guarded ⟨A, h1⟩ hwf0 (hI.alike hst)
      (stackTop (I.size * pgsize) argv) ?_ ?_ ?_ h.shows.le hne) ?_
    · show _ < I.base
      rw [stackTop]
      omega
    · show I.base < _
      rw [stackTop]
      omega
    · show _ ≤ I.size * pgsize
      rw [stackTop]
      omega
    · rintro ok m2 ⟨rfl, J, hJ, hm⟩
      rw [if_neg (by decide), wp_pure]
      exact ⟨⟨J, hst.trans hJ, hm⟩, fun hok => hroom hok.room⟩

/-- The image with the arguments in the stack page. -/
def Image.pushed (I : Image) (argv : List (List Byte)) : Image :=
  I.put (I.size - 1) { I.page (I.size - 1) with
    bytes := stackPage I.base (I.size * pgsize) argv (I.page (I.size - 1)).bytes }

theorem Stands.pushed (h : Stands x A0 m0 d I m A) (hwf0 : A0.WF) (hI : I.Stacked)
    (argv : List (List Byte)) :
    Stands x A0 m0 d (I.pushed argv) (m.setPage (stackFrame A d I)
      (stackPage I.base (I.size * pgsize) argv (m.page (stackFrame A d I)))) A := by
  have htop : I.size - 1 < I.size := by
    have := hI.two
    omega
  rw [Image.pushed, ← h.shows.bytes _ htop]
  exact h.write hwf0 htop _

/-! ## Adding the two pages -/

/-- The image with a guard and a stack. -/
def Image.withStack (I : Image) : Image :=
  (I.grow (I.size + 2)).put I.size { UPage.fresh with user := false }

omit [Link] in
theorem Image.withStack_page_lt (I : Image) {v : Nat} (hv : v < I.size) :
    I.withStack.page v = I.page v := by
  rw [withStack, put_page_ne _ _ (Nat.ne_of_lt hv), grow_page_lt _ _ hv]

omit [Link] in
theorem Image.stacked_withStack (I : Image) : I.withStack.Stacked := by
  refine ⟨Nat.le_add_left 2 I.size, ?_, ?_⟩
  · exact congrArg UPage.user (Image.put_page_self (I.grow (I.size + 2)) I.size _)
  · have : I.withStack.page (I.size + 1) = .fresh := by
      rw [withStack, put_page_ne _ _ (Nat.succ_ne_self _), grow_page_ge _ _ (Nat.le_succ _)]
    exact congrArg UPage.user this

omit [Link] in
theorem npages_pgroundup (sz : Nat) : npages (pgroundup sz) = npages sz := by
  unfold npages pgroundup
  rw [pgsize_eq]
  omega

theorem Holds.allocStack (h : Holds x A0 m0 d I m) (hwf0 : A0.WF) {sz : Nat}
    (hI : I.size = npages sz) :
    wp (Xv6.allocStack d sz) (fun r m' => (r = 0 → (∃ J, Holds x A0 m0 d J m') ∧
        ¬ (I.withStack.size * pgsize < kernbase ∧ 4 ≤ m.freelist.length)) ∧
      (r ≠ 0 → r = I.withStack.size * pgsize ∧ r < kernbase ∧ Holds x A0 m0 d I.withStack m'))
      F m := by
  rw [← npages_pgroundup] at hI
  have hround : pgroundup sz = I.size * pgsize := by
    rw [hI, npages_pgroundup]
    rfl
  have hend : pgroundup sz + 2 * pgsize = I.withStack.size * pgsize := by
    rw [hround, ← Nat.add_mul]
    rfl
  have hpages : npages (pgroundup sz + 2 * pgsize) = I.size + 2 := by
    rw [hround]
    unfold npages
    rw [pgsize_eq]
    omega
  unfold Xv6.allocStack
  rw [wp_bind]
  refine wp_post (h.allocuvm hwf0 hI (.inr (Nat.le_add_right _ _))) ?_
  rintro r m1 ⟨hlt, hzero, hgrown⟩
  rw [wp_ite]
  split
  · rename_i hr
    obtain ⟨h1, hno⟩ := hzero hr
    rw [wp_pure]
    refine ⟨fun _ => ⟨⟨I, h1⟩, fun hok => hno ⟨?_, ?_, ?_⟩⟩, fun hne => absurd rfl hne⟩
    · rw [hend]
      exact hok.1
    · rw [pgsize_eq]
      omega
    · rw [hpages, ← hI]
      have := hok.2
      omega
  rename_i hr
  obtain ⟨hmax, h1, -⟩ := hgrown hr
  rw [Nat.max_eq_right (Nat.le_add_right _ _)] at hmax
  have hsize : npages r = I.size + 2 := by
    rw [hmax, hpages]
  have hguard : r - 2 * pgsize = I.size * pgsize := by
    rw [hmax, hround, Nat.add_sub_cancel]
  rw [hsize] at h1
  rw [wp_bind, hguard]
  refine wp_post (h1.clearpteu hwf0 (v := I.size) (Nat.lt_add_of_pos_right (by decide))) ?_
  intro _ m2 h2
  rw [wp_pure]
  refine ⟨fun h0 => absurd h0 hr, fun _ => ⟨hmax.trans hend, hlt, ?_⟩⟩
  · rw [Image.grow_page_ge _ _ (le_refl _)] at h2
    exact h2

/-! ## Reading written bytes back -/

omit [Link] in
theorem setBytes_in (pg : Page) (o : Nat) {bs : List Byte} {j : Nat} (hj : j < bs.length) :
    setBytes pg o bs (o + j) = bs.getD j 0#8 := by
  rw [setBytes, if_pos (Nat.le_add_right o j), Nat.add_sub_cancel_left]
  simp [hj]

omit [Link] in
theorem setBytes_out (pg : Page) {o o' : Nat} {bs : List Byte}
    (h : o' < o ∨ o + bs.length ≤ o') : setBytes pg o bs o' = pg o' := by
  unfold setBytes
  split
  · rw [List.getD_eq_default _ _ (by omega)]
  · rfl

end Xv6
