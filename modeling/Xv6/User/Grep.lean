import Xv6.User.Match

/-!
# The reading loop of `grep`

`grep` of `grep.c` reads its input into a buffer of 1024 bytes, writes the lines
that match, and moves what follows the last newline to the front of the buffer.
When the buffer holds no newline at all it is emptied instead: `if(p == buf)
m = 0`.  What had been read of the line is lost then, however short it is.

*What `grep` sees.*  `seen` lists the lines that the loop hands to `match`, and
`grepLoop_eq` says that the output is those of them that match.  Each is an end of
the line of the stream in its place, of at most 1022 bytes (`seen_suffix`), and
for reads of single bytes each is empty (`seen_singles`).

*When the output is right.*  If every read leaves a newline in the buffer, the
lines seen are the lines of the stream (`grep_whole_lines`).  Over all ways of
splitting a stream, the output is right exactly when there is nothing to lose
(`Quiet`).
-/

namespace Xv6.Grep

variable {s pattern l buf stream : List Byte} {reads : List (List Byte)}

/-- `'\n'`. -/
def nl : Byte := 10#8

/-- `sizeof(buf)`. -/
def bufSize : Nat := 1024

/-! ## The loops -/

/-- `strchr`: the distance to the first `c` in a string. -/
def strchr (c : Byte) : List Byte → Option Nat
  | [] => none
  | b :: s =>
    if b = 0#8 then none
    else if b = c then some 0
    else (strchr c s).map (· + 1)

theorem strchr_some {c : Byte} {k : Nat} (h : strchr c s = some k) :
    s = s.take k ++ c :: s.drop (k + 1) ∧ c ∉ s.take k ∧ k < s.length := by
  induction s generalizing k with
  | nil => simp [strchr] at h
  | cons b s ih =>
    rw [strchr] at h
    split at h
    · simp at h
    · split at h
      · next hbc =>
        obtain rfl : 0 = k := Option.some.inj h
        exact ⟨by simp [hbc], by simp, by simp⟩
      · next hbc =>
        obtain ⟨j, hj, rfl⟩ := Option.map_eq_some_iff.mp h
        obtain ⟨heq, hmem, hlt⟩ := ih hj
        refine ⟨?_, ?_, by simpa using hlt⟩
        · rw [List.take_succ_cons, List.cons_append, List.drop_succ_cons, ← heq]
        · simpa [List.take_succ_cons, Ne.symm hbc] using hmem

theorem strchr_none {c : Byte} (hs : 0#8 ∉ s) (h : strchr c s = none) : c ∉ s := by
  induction s with
  | nil => simp
  | cons b s ih =>
    obtain ⟨hb, hs⟩ : ¬ 0#8 = b ∧ 0#8 ∉ s := by simpa using hs
    rw [strchr, if_neg fun h => hb h.symm] at h
    split at h
    · simp at h
    · next hbc =>
      simpa [Ne.symm hbc] using ih hs (Option.map_eq_none_iff.mp h)

/-- The inner loop: write the lines from `p` on that match.  The result is what is
written and where `p` ends. -/
def scan (pattern buf : List Byte) (p : Nat) : List Byte × Nat :=
  match _h : strchr nl (buf.drop p) with
  | none => ([], p)
  | some k =>
    let line := (buf.drop p).take k
    let (out, p') := scan pattern buf (p + k + 1)
    ((if matchText pattern line then line ++ [nl] else []) ++ out, p')
termination_by buf.length - p
decreasing_by
  obtain ⟨-, -, hlt⟩ := strchr_some _h
  rw [List.length_drop] at hlt
  omega

/-- One round of the outer loop: what it writes and the bytes it leaves at the
front of the buffer. -/
def round (pattern buf chunk : List Byte) : List Byte × List Byte :=
  let (out, p) := scan pattern (buf ++ chunk) 0
  (out, if p = 0 then [] else (buf ++ chunk).drop p)

/-- The outer loop, over the results of its reads. -/
def grepLoop (pattern : List Byte) : List Byte → List (List Byte) → List Byte
  | _, [] => []
  | buf, chunk :: reads =>
    (round pattern buf chunk).1 ++ grepLoop pattern (round pattern buf chunk).2 reads

/-- `grep`. -/
def grep (pattern : List Byte) (reads : List (List Byte)) : List Byte :=
  grepLoop pattern [] reads

/-- The reads are non-empty and no longer than asked for. -/
def Respects (pattern : List Byte) : List Byte → List (List Byte) → Prop
  | _, [] => True
  | buf, chunk :: reads =>
    chunk ≠ [] ∧ chunk.length ≤ bufSize - buf.length - 1 ∧
      Respects pattern (round pattern buf chunk).2 reads

/-- A way of splitting a stream into reads. -/
def Splits (pattern stream : List Byte) (reads : List (List Byte)) : Prop :=
  reads.flatten = stream ∧ Respects pattern [] reads

/-! ## Lines -/

/-- The lines of a stream that end in a newline, and what follows the last of them. -/
def splitLines : List Byte → List (List Byte) × List Byte
  | [] => ([], [])
  | b :: s =>
    if b = nl then ([] :: (splitLines s).1, (splitLines s).2)
    else
      match (splitLines s).1 with
      | [] => ([], b :: (splitLines s).2)
      | l :: ls => ((b :: l) :: ls, (splitLines s).2)

/-- The lines that match, each with its newline. -/
def printed (pattern : List Byte) (ls : List (List Byte)) : List Byte :=
  (ls.filter (matchText pattern)).flatMap (· ++ [nl])

/-- The lines of the stream that match, in order.  The last one may lack its newline. -/
def matching (pattern stream : List Byte) : List Byte :=
  printed pattern (splitLines stream).1 ++
    if (splitLines stream).2 ≠ [] ∧ matchText pattern (splitLines stream).2 then
      (splitLines stream).2
    else []

theorem splitLines_line (hl : nl ∉ l) (s : List Byte) :
    splitLines (l ++ nl :: s) = (l :: (splitLines s).1, (splitLines s).2) := by
  induction l with
  | nil => simp [splitLines]
  | cons b l ih =>
    obtain ⟨hb, hl⟩ : ¬ nl = b ∧ nl ∉ l := by simpa using hl
    rw [List.cons_append, splitLines, if_neg fun h => hb h.symm, ih hl]

theorem splitLines_tail {t : List Byte} (ht : nl ∉ t) : splitLines t = ([], t) := by
  induction t with
  | nil => rfl
  | cons b t ih =>
    obtain ⟨hb, ht⟩ : ¬ nl = b ∧ nl ∉ t := by simpa using ht
    rw [splitLines, if_neg fun h => hb h.symm, ih ht]

/-- A stream without newline, or one that begins with a line. -/
theorem lines_cases (s : List Byte) :
    nl ∉ s ∨ ∃ l s', nl ∉ l ∧ s = l ++ nl :: s' := by
  by_cases h : nl ∈ s
  · obtain ⟨l, s', heq, hl⟩ := List.eq_append_cons_of_mem h
    exact .inr ⟨l, s', hl, heq⟩
  · exact .inl h

/-- Induction along the lines of a stream. -/
theorem lines_induction {P : List Byte → Prop} (tail : ∀ t, nl ∉ t → P t)
    (line : ∀ l s, nl ∉ l → P s → P (l ++ nl :: s)) (s : List Byte) : P s := by
  induction h : s.length using Nat.strong_induction_on generalizing s with
  | _ n ih =>
    rcases lines_cases s with hs | ⟨l, s', hl, rfl⟩
    · exact tail s hs
    · exact line l s' hl (ih _ (by simp [← h]; omega) s' rfl)

theorem splitLines_append (s s' : List Byte) :
    splitLines (s ++ s') =
      ((splitLines s).1 ++ (splitLines ((splitLines s).2 ++ s')).1,
        (splitLines ((splitLines s).2 ++ s')).2) := by
  induction s using lines_induction with
  | tail t ht => simp [splitLines_tail ht]
  | line l s hl ih =>
    rw [List.append_assoc, List.cons_append, splitLines_line hl, splitLines_line hl, ih]
    rfl

/-- A line whose beginning comes before the stream. -/
theorem splitLines_prepend {d : List Byte} (hd : nl ∉ d) (s : List Byte) :
    splitLines (d ++ s) =
      match (splitLines s).1 with
      | [] => ([], d ++ (splitLines s).2)
      | l :: ls => ((d ++ l) :: ls, (splitLines s).2) := by
  rcases lines_cases s with hs | ⟨l, s', hl, rfl⟩
  · rw [splitLines_tail hs, splitLines_tail (by simp [hd, hs])]
  · rw [← List.append_assoc, splitLines_line (by simp [hd, hl]), splitLines_line hl]

theorem splitLines_flatten (s : List Byte) :
    (splitLines s).1.flatMap (· ++ [nl]) ++ (splitLines s).2 = s := by
  induction s using lines_induction with
  | tail t ht => simp [splitLines_tail ht]
  | line l s hl ih =>
    rw [splitLines_line hl, List.flatMap_cons]
    simpa using ih

/-- A line and its newline are part of the stream. -/
theorem length_lt_of_mem_splitLines (h : l ∈ (splitLines s).1) : l.length < s.length := by
  induction s using lines_induction with
  | tail t ht => simp [splitLines_tail ht] at h
  | line k s hk ih =>
    rw [splitLines_line hk] at h
    rcases List.mem_cons.mp h with rfl | h
    · simp
    · have := ih h
      simp
      omega

theorem splitLines_eq_nil_iff : (splitLines s).1 = [] ↔ nl ∉ s := by
  rcases lines_cases s with hs | ⟨l, s', hl, rfl⟩
  · simp [splitLines_tail hs, hs]
  · simp [splitLines_line hl]

theorem length_splitLines (s : List Byte) : (splitLines s).1.length = s.count nl := by
  induction s using lines_induction with
  | tail t ht => simp [splitLines_tail ht, List.count_eq_zero_of_not_mem ht]
  | line l s hl ih =>
    simp [splitLines_line hl, List.count_eq_zero_of_not_mem hl, ih]

theorem exists_of_mem_splitLines (h : l ∈ (splitLines s).1) :
    nl ∉ l ∧ ∃ u v, s = u ++ (l ++ nl :: v) := by
  induction s using lines_induction with
  | tail t ht => simp [splitLines_tail ht] at h
  | line k s hk ih =>
    rw [splitLines_line hk] at h
    rcases List.mem_cons.mp h with rfl | h
    · exact ⟨hk, [], s, rfl⟩
    · obtain ⟨hl, u, v, rfl⟩ := ih h
      exact ⟨hl, k ++ nl :: u, v, by simp⟩

theorem nl_notMem_tail (s : List Byte) : nl ∉ (splitLines s).2 := by
  induction s using lines_induction with
  | tail t ht => simpa [splitLines_tail ht] using ht
  | line l s hl ih => simpa [splitLines_line hl] using ih

/-! ## What the loops compute -/

/-- The inner loop writes the lines from `p` on that match and ends after the last
newline, or where it began if there is none. -/
theorem scan_spec (pattern : List Byte) (hbuf : 0#8 ∉ buf) (p : Nat) :
    (scan pattern buf p).1 = printed pattern (splitLines (buf.drop p)).1 ∧
      buf.drop (scan pattern buf p).2 = (splitLines (buf.drop p)).2 ∧
      p ≤ (scan pattern buf p).2 ∧
      ((scan pattern buf p).2 = p ↔ (splitLines (buf.drop p)).1 = []) := by
  fun_induction scan pattern buf p with
  | case1 p h =>
    have hnone := strchr_none (fun hmem => hbuf (List.mem_of_mem_drop hmem)) h
    simp [splitLines_tail hnone, printed]
  | case2 p k h line out p' hrec ih =>
    obtain ⟨heq, hmem, -⟩ := strchr_some h
    rw [List.drop_drop, ← Nat.add_assoc] at heq
    rw [heq, splitLines_line hmem]
    rw [hrec] at ih
    obtain ⟨hout, hdrop, hle, -⟩ := ih
    refine ⟨?_, hdrop, by simp only at hle ⊢; omega, by simp only at hle ⊢; simp; omega⟩
    rw [printed, List.filter_cons]
    split
    · next hm => simpa [line, hm, printed] using hout
    · next hm => simpa [line, hm, printed] using hout

/-- What a round leaves in the buffer: nothing if the buffer held no newline. -/
def leftover (s : List Byte) : List Byte :=
  if (splitLines s).1 = [] then [] else (splitLines s).2

theorem leftover_subset (s : List Byte) : leftover s ⊆ s := by
  intro b hb
  rw [leftover] at hb
  split at hb
  · simp at hb
  · rw [← splitLines_flatten s]
    exact List.mem_append_right _ hb

theorem nl_notMem_leftover (s : List Byte) : nl ∉ leftover s := by
  rw [leftover]
  split
  · simp
  · exact nl_notMem_tail s

theorem round_eq (pattern : List Byte) {chunk : List Byte} (h : 0#8 ∉ buf ++ chunk) :
    round pattern buf chunk =
      (printed pattern (splitLines (buf ++ chunk)).1, leftover (buf ++ chunk)) := by
  obtain ⟨hout, hdrop, -, hmoved⟩ := scan_spec pattern h 0
  rw [List.drop_zero] at hout hdrop hmoved
  rw [leftover, ← hout, ← hdrop]
  simp only [← hmoved]
  rfl

/-- The lines the loop hands to `match`. -/
def seen : List Byte → List (List Byte) → List (List Byte)
  | _, [] => []
  | buf, chunk :: reads => (splitLines (buf ++ chunk)).1 ++ seen (leftover (buf ++ chunk)) reads

theorem printed_append (pattern : List Byte) (ls ls' : List (List Byte)) :
    printed pattern (ls ++ ls') = printed pattern ls ++ printed pattern ls' := by
  simp [printed]

/-- The bytes of a round are in the buffer before it or in its read. -/
theorem round_nul {chunk : List Byte} (hbuf : 0#8 ∉ buf) (hreads : 0#8 ∉ (chunk :: reads).flatten) :
    0#8 ∉ buf ++ chunk ∧ 0#8 ∉ leftover (buf ++ chunk) ∧ 0#8 ∉ reads.flatten := by
  rw [List.flatten_cons, List.mem_append, not_or] at hreads
  have hboth : 0#8 ∉ buf ++ chunk := by simp [hbuf, hreads.1]
  exact ⟨hboth, fun h => hboth (leftover_subset _ h), hreads.2⟩

theorem grepLoop_eq (pattern : List Byte) (hbuf : 0#8 ∉ buf) (hreads : 0#8 ∉ reads.flatten) :
    grepLoop pattern buf reads = printed pattern (seen buf reads) := by
  induction reads generalizing buf with
  | nil => rfl
  | cons chunk reads ih =>
    obtain ⟨hboth, hleft, hrest⟩ := round_nul hbuf hreads
    rw [grepLoop, seen, round_eq pattern hboth, printed_append, ih hleft hrest]

/-- If every read brings a newline, the lines that match are written, whatever
follows the last newline apart. -/
theorem grep_whole_lines (pattern : List Byte) (hnul : 0#8 ∉ reads.flatten)
    (hnl : ∀ chunk ∈ reads, nl ∈ chunk) :
    grep pattern reads = printed pattern (splitLines reads.flatten).1 := by
  have hseen (buf : List Byte) :
      nl ∉ buf → seen buf reads = (splitLines (buf ++ reads.flatten)).1 := by
    clear hnul
    induction reads generalizing buf with
    | nil => intro hbuf; simp [seen, splitLines_tail hbuf]
    | cons chunk reads ih =>
      intro hbuf
      obtain ⟨hchunk, hnl⟩ := List.forall_mem_cons.mp hnl
      have hlines : (splitLines (buf ++ chunk)).1 ≠ [] := by
        rw [ne_eq, splitLines_eq_nil_iff, not_not]
        exact List.mem_append_right _ hchunk
      rw [seen, ih hnl _ (nl_notMem_leftover _), List.flatten_cons, ← List.append_assoc,
        splitLines_append (buf ++ chunk), leftover, if_neg hlines]
  rw [grep, grepLoop_eq pattern (by simp) hnul, hseen [] (by simp), List.nil_append]

/-- The pattern `b` in `ab\nc` and `b\n`: the line that lies across the reads is whole. -/
theorem grep_whole_lines_across : grep [98#8] [[97#8, 98#8, nl, 99#8], [98#8, nl]] =
    [97#8, 98#8, nl, 99#8, 98#8, nl] := by
  rw [grep_whole_lines _ (by decide) (by decide)]
  simp [printed, splitLines, matchText, matchLoop, matchhere, nl]

/-- Each line seen is an end of the line of the stream in its place, and fits in
the buffer.  `d` is what has been lost of the line being read. -/
theorem seen_suffix {d : List Byte} (hd : nl ∉ d) (hbuf : nl ∉ buf) (hnul : 0#8 ∉ buf)
    (hreads : 0#8 ∉ reads.flatten) (h : Respects pattern buf reads) :
    List.Forall₂ (fun s l => s <:+ l ∧ s.length + 1 < bufSize) (seen buf reads)
      (splitLines (d ++ (buf ++ reads.flatten))).1 := by
  induction reads generalizing d buf with
  | nil =>
    have hnone : nl ∉ d ++ (buf ++ [].flatten) := by simp [hd, hbuf]
    rw [splitLines_tail hnone]
    exact .nil
  | cons chunk reads ih =>
    obtain ⟨hboth, hleft, hrest⟩ := round_nul hnul hreads
    obtain ⟨hne, hlen, h⟩ := h
    rw [round_eq pattern hboth] at h
    have hlen : (buf ++ chunk).length < bufSize := by
      have := List.length_pos_iff.mpr hne
      rw [List.length_append]
      omega
    rw [seen, List.flatten_cons, ← List.append_assoc buf]
    cases hlines : (splitLines (buf ++ chunk)).1 with
    | nil =>
      -- no newline: the bytes read so far are lost
      have hnone := splitLines_eq_nil_iff.mp hlines
      rw [leftover, if_pos hlines] at h ⊢
      rw [← List.append_assoc d]
      exact ih (d := d ++ (buf ++ chunk)) (by simpa [hd] using hnone) (by simp) (by simp) hrest h
    | cons l ls =>
      have hsome : (splitLines (buf ++ chunk)).1 ≠ [] := by simp [hlines]
      have hall (k : List Byte) (hk : k ∈ l :: ls) : k.length + 1 < bufSize := by
        have := length_lt_of_mem_splitLines (hlines ▸ hk)
        omega
      rw [leftover, if_neg hsome] at h hleft ⊢
      rw [← List.append_assoc d, splitLines_append (d ++ (buf ++ chunk)), splitLines_prepend hd,
        hlines]
      refine List.rel_append (.cons ⟨List.suffix_append d l, hall l (by simp)⟩ ?_)
        (ih (d := []) (by simp) (nl_notMem_tail _) hleft hrest h)
      exact List.forall₂_same.mpr fun k hk => ⟨List.suffix_rfl, hall k (by simp [hk])⟩

/-! ## Reads of single bytes -/

/-- Reads of one byte each. -/
def singles (s : List Byte) : List (List Byte) := s.map fun b => [b]

@[simp] theorem singles_flatten (s : List Byte) : (singles s).flatten = s := by
  simp [singles, ← List.flatMap_def]

theorem leftover_single (b : Byte) : leftover [b] = [] := by
  by_cases hb : b = nl <;> simp [leftover, splitLines, hb]

/-- Read byte by byte, every line is lost before its newline is read. -/
theorem seen_singles (s : List Byte) (reads : List (List Byte)) :
    seen [] (singles s ++ reads) = List.replicate (s.count nl) [] ++ seen [] reads := by
  induction s with
  | nil => rfl
  | cons b s ih =>
    rw [singles, List.map_cons, List.cons_append, seen, List.nil_append, leftover_single]
    rw [singles] at ih
    rw [ih]
    by_cases hb : b = nl
    · simp [splitLines, hb, List.replicate_succ]
    · simp [splitLines, hb]

theorem respects_singles (hnul : 0#8 ∉ s) (h : Respects pattern [] reads) :
    Respects pattern [] (singles s ++ reads) := by
  induction s with
  | nil => exact h
  | cons b s ih =>
    obtain ⟨hb, hs⟩ : ¬ 0#8 = b ∧ 0#8 ∉ s := by simpa using hnul
    refine ⟨by simp, by simp [bufSize], ?_⟩
    rw [round_eq pattern (by simpa using hb), List.nil_append, leftover_single]
    exact ih hs

/-! ## When every split is right -/

/-- There is nothing to lose: no line that is not empty matches, nor does an end of
it that fits in the buffer, and a last line without newline does not match. -/
def Quiet (pattern stream : List Byte) : Prop :=
  (∀ l ∈ (splitLines stream).1, l ≠ [] → matchText pattern l = false ∧
    ∀ s, s <:+ l → s.length + 1 < bufSize → matchText pattern s = false) ∧
  ((splitLines stream).2 ≠ [] → matchText pattern (splitLines stream).2 = false)

theorem printed_single (pattern l : List Byte) :
    printed pattern [l] = if matchText pattern l then l ++ [nl] else [] := by
  by_cases h : matchText pattern l <;> simp [printed, h]

theorem printed_eq_nil_iff {ls : List (List Byte)} :
    printed pattern ls = [] ↔ ∀ l ∈ ls, matchText pattern l = false := by
  simp [printed, List.flatMap_eq_nil_iff]

/-- A stream read byte by byte, but for an end of a line and its newline. -/
theorem grep_perturbed (pattern : List Byte) {u v : List Byte} (hnul : 0#8 ∉ u ++ (s ++ nl :: v))
    (hs : nl ∉ s) (hlen : s.length + 1 < bufSize) :
    ∃ reads, Splits pattern (u ++ (s ++ nl :: v)) reads ∧
      grep pattern reads = printed pattern (List.replicate (u.count nl) []) ++
        (printed pattern [s] ++ printed pattern (List.replicate (v.count nl) [])) := by
  have hline : splitLines (s ++ [nl]) = ([s], []) := splitLines_line hs []
  have hleft : leftover (s ++ [nl]) = [] := by simp [leftover, hline]
  refine ⟨singles u ++ ((s ++ [nl]) :: (singles v ++ [])), ⟨by simp, ?_⟩, ?_⟩
  · refine respects_singles (fun h => hnul (by simp [h])) ⟨by simp, by simpa using by omega, ?_⟩
    rw [round_eq pattern (fun h => hnul (by simp at h; simp; tauto)), List.nil_append, hleft]
    exact respects_singles (fun h => hnul (by simp [h])) trivial
  · rw [grep, grepLoop_eq pattern (by simp) (by simpa using hnul), seen_singles, seen,
      List.nil_append, hline, hleft, seen_singles, printed_append, printed_append]
    simp [seen]

theorem splits_singles (pattern : List Byte) (hnul : 0#8 ∉ stream) :
    Splits pattern stream (singles stream) := by
  have h : Respects pattern [] (singles stream ++ []) := respects_singles hnul trivial
  exact ⟨singles_flatten stream, by simpa using h⟩

/-- Read byte by byte, the output is one for empty lines. -/
theorem grep_singles (pattern : List Byte) (hnul : 0#8 ∉ stream) :
    grep pattern (singles stream) = printed pattern (List.replicate (stream.count nl) []) := by
  have h := seen_singles stream []
  rw [List.append_nil] at h
  rw [grep, grepLoop_eq pattern (by simp) (by simpa using hnul), h]
  simp [seen]

/-- If all splits agree, an end of a line is written as an empty line would be. -/
theorem printed_suffix {out : List Byte} (hnul : 0#8 ∉ stream)
    (h : ∀ reads, Splits pattern stream reads → grep pattern reads = out)
    (hl : l ∈ (splitLines stream).1) (hs : s <:+ l) (hlen : s.length + 1 < bufSize) :
    printed pattern [s] = printed pattern [[]] := by
  obtain ⟨hnl, u, v, rfl⟩ := exists_of_mem_splitLines hl
  obtain ⟨w, rfl⟩ := hs
  have hw : w.count nl = 0 := List.count_eq_zero_of_not_mem fun h => hnl (by simp [h])
  have hs : nl ∉ s := fun h => hnl (by simp [h])
  have hstream : u ++ (w ++ s ++ nl :: v) = (u ++ w) ++ (s ++ nl :: v) := by simp
  rw [hstream] at h hnul
  obtain ⟨reads, hsplit, hout⟩ := grep_perturbed pattern hnul hs hlen
  have hcount : ((u ++ w) ++ (s ++ nl :: v)).count nl = u.count nl + (1 + v.count nl) := by
    simp [hw, List.count_eq_zero_of_not_mem hs, Nat.add_comm]
  have hsame := (h _ hsplit).trans (h _ (splits_singles pattern hnul)).symm
  rw [hout, grep_singles pattern hnul, hcount, List.replicate_add, List.replicate_add, printed_append,
    printed_append, List.count_append, hw] at hsame
  exact List.append_cancel_right (List.append_cancel_left hsame)

/-- If all splits agree and there is a line to lose, an empty line is not written. -/
theorem matchText_nil {out : List Byte} (hnul : 0#8 ∉ stream)
    (h : ∀ reads, Splits pattern stream reads → grep pattern reads = out)
    (hl : l ∈ (splitLines stream).1) (hne : l ≠ []) : matchText pattern [] = false := by
  have hsuffix : [l.getLast hne] <:+ l := ⟨l.dropLast, List.dropLast_append_getLast hne⟩
  have hone := printed_suffix hnul h hl hsuffix (by simp [bufSize])
  have hlen := congrArg List.length hone
  rw [printed_single, printed_single] at hlen
  by_contra hmatch
  rw [Bool.not_eq_false] at hmatch
  rw [if_pos hmatch] at hlen
  split at hlen <;> simp at hlen

/-- Lines seen as ends of themselves, none of which matches unless it is empty. -/
theorem printed_eq_of_forall₂ {ss ls : List (List Byte)}
    (h : List.Forall₂ (fun s l => s <:+ l ∧ s.length + 1 < bufSize) ss ls)
    (hquiet : ∀ l ∈ ls, l ≠ [] → matchText pattern l = false ∧
      ∀ s, s <:+ l → s.length + 1 < bufSize → matchText pattern s = false) :
    printed pattern ss = printed pattern ls := by
  induction h with
  | nil => rfl
  | @cons s l ss ls hsl _ ih =>
    obtain ⟨hl, hls⟩ := List.forall_mem_cons.mp hquiet
    have hhead : printed pattern [s] = printed pattern [l] := by
      by_cases hne : l = []
      · subst hne
        rw [List.suffix_nil.mp hsl.1]
      · simp [printed_single, (hl hne).1, (hl hne).2 s hsl.1 hsl.2]
    rw [← List.singleton_append, printed_append, hhead, ih hls, ← printed_append,
      List.singleton_append]

/-- `grep` writes the lines of a stream that match, however the stream is split
into reads, exactly when there is nothing to lose. -/
theorem grep_splits_iff (pattern stream : List Byte) (hnul : 0#8 ∉ stream) :
    (∀ reads, Splits pattern stream reads → grep pattern reads = matching pattern stream) ↔
      Quiet pattern stream := by
  constructor
  · intro h
    have hbytes := (grep_singles pattern hnul).symm.trans
      (h _ (splits_singles pattern hnul))
    by_cases hall : ∀ l ∈ (splitLines stream).1, l = []
    · -- the lines are those seen byte by byte, and the rest is never written
      refine ⟨fun l hl hne => absurd (hall l hl) hne, fun hne => ?_⟩
      rw [← length_splitLines, ← List.eq_replicate_length.mpr hall, matching,
        List.self_eq_append_right] at hbytes
      by_contra hmatch
      simp [hne, hmatch] at hbytes
    · simp only [not_forall] at hall
      obtain ⟨l, hl, hne⟩ := hall
      have hempty := matchText_nil hnul h hl hne
      have hnone : printed pattern (List.replicate (stream.count nl) []) = [] :=
        printed_eq_nil_iff.mpr fun k hk => by rw [List.eq_of_mem_replicate hk, hempty]
      rw [hnone, matching, eq_comm, List.append_eq_nil_iff, printed_eq_nil_iff] at hbytes
      refine ⟨fun k hk hkne => ⟨hbytes.1 k hk, fun s hs hlen => ?_⟩, fun htail => ?_⟩
      · have hsame := printed_suffix hnul h hk hs hlen
        have hnil : printed pattern [[]] = [] := printed_eq_nil_iff.mpr (by simpa using hempty)
        rw [hnil, printed_eq_nil_iff] at hsame
        exact hsame s (by simp)
      · by_contra hmatch
        simp [htail, hmatch] at hbytes
  · rintro ⟨hlines, htail⟩ reads ⟨rfl, hreads⟩
    have hseen := seen_suffix (d := []) (by simp) (by simp) (by simp) hnul hreads
    rw [grep, grepLoop_eq pattern (by simp) hnul, matching,
      printed_eq_of_forall₂ hseen (by simpa using hlines)]
    by_cases hne : (splitLines reads.flatten).2 = []
    · simp [hne]
    · simp [htail hne]

/-- A pattern that occurs in no line: every split is right. -/
theorem grep_splits_absent :
    Quiet [chr 'z'] [chr 'a', nl] ∧ ∀ reads, Splits [chr 'z'] [chr 'a', nl] reads →
      grep [chr 'z'] reads = matching [chr 'z'] [chr 'a', nl] := by
  have hquiet : Quiet [chr 'z'] [chr 'a', nl] := by
    refine ⟨?_, ?_⟩
    · have hline : splitLines [chr 'a', nl] = ([[chr 'a']], []) := by decide
      have ha : matchText [chr 'z'] [chr 'a'] = false := by
        simp [matchText, matchLoop, matchhere, chr]
      have hnil : matchText [chr 'z'] [] = false := by
        simp [matchText, matchLoop, matchhere, chr]
      simp only [hline, List.mem_singleton, forall_eq]
      refine fun _ => ⟨ha, fun s hs _ => ?_⟩
      rcases List.suffix_cons_iff.mp hs with rfl | hs
      · exact ha
      · rw [List.suffix_nil.mp hs, hnil]
    · have htail : (splitLines [chr 'a', nl]).2 = [] := by decide
      exact fun h => absurd htail h
  exact ⟨hquiet, (grep_splits_iff [chr 'z'] [chr 'a', nl] (by decide)).mpr hquiet⟩

/-- The line `ab`, read in one piece and in two: the second time `b` is written. -/
theorem grep_loses_start :
    Splits [chr 'b'] [chr 'a', chr 'b', nl] [[chr 'a', chr 'b', nl]] ∧
      Splits [chr 'b'] [chr 'a', chr 'b', nl] [[chr 'a'], [chr 'b', nl]] ∧
      grep [chr 'b'] [[chr 'a', chr 'b', nl]] = [chr 'a', chr 'b', nl] ∧
      grep [chr 'b'] [[chr 'a'], [chr 'b', nl]] = [chr 'b', nl] ∧
      matching [chr 'b'] [chr 'a', chr 'b', nl] = [chr 'a', chr 'b', nl] := by
  have hab : matchText [chr 'b'] [chr 'a', chr 'b'] = true := by
    simp [matchText, matchLoop, matchhere, chr]
  have hb : matchText [chr 'b'] [chr 'b'] = true := by
    simp [matchText, matchLoop, matchhere, chr]
  have hline : splitLines [chr 'a', chr 'b', nl] = ([[chr 'a', chr 'b']], []) := by decide
  have hend : splitLines [chr 'b', nl] = ([[chr 'b']], []) := by decide
  have hlost : leftover [chr 'a'] = [] := by decide
  refine ⟨⟨rfl, by simp, by simp [bufSize], trivial⟩, ⟨rfl, by simp, by simp [bufSize], ?_⟩, ?_, ?_, ?_⟩
  · rw [round_eq _ (by decide), List.nil_append, hlost]
    exact ⟨by simp, by simp [bufSize], trivial⟩
  · rw [grep, grepLoop_eq _ (by simp) (by decide), seen, seen, List.nil_append, hline]
    simp [printed, hab]
  · rw [grep, grepLoop_eq _ (by simp) (by decide), seen, seen, seen, List.nil_append, hlost,
      List.nil_append, hend]
    simp [printed, hb, splitLines]
    decide
  · simp [matching, hline, printed, hab]

end Xv6.Grep
