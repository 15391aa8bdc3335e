import Xv6.Machine.Word

/-!
# The regular expression matcher of `grep`

`match`, `matchhere` and `matchstar` of `grep.c`, over strings without their
terminating NUL.  The two mutually recursive functions terminate because the
pattern gets shorter whenever one calls the other with a new pattern, and the text
gets shorter in the loop of `matchstar`.

*Meaning.*  A pattern is read from left to right as a list of items, each a
character or a starred character, followed or not by an end anchor
(`readItems`).  Its language is the product of the languages of its items.

*Correctness.*  `Begins L e text` says that some beginning of `text` is in `L`,
and all of it when the pattern is anchored at the end.  It follows the sums and
products of languages, so that the recursion of `matchhere` and the loop of
`matchstar` are the two laws `(stands c * L)` and `(stands c)∗ * L`.
-/

namespace Xv6.Grep

open Computability

variable {e : Bool} {L : Language Byte} {text : List Byte} {c : Byte}

/-- A character constant. -/
def chr (c : Char) : Byte := BitVec.ofNat 8 c.toNat

/-! ## The matcher -/

mutual

/-- `matchhere`: search for `re` at the beginning of `text`. -/
def matchhere (re text : List Byte) : Bool :=
  match re with
  | [] => true
  | c :: re' =>
    if re'.head? = some (chr '*') then matchstar c re'.tail text
    else if c = chr '$' ∧ re' = [] then text = []
    else
      match text with
      | [] => false
      | t :: text' => if c = chr '.' ∨ c = t then matchhere re' text' else false
termination_by (re.length, 0)

/-- `matchstar`: search for `c*re` at the beginning of `text`. -/
def matchstar (c : Byte) (re text : List Byte) : Bool :=
  if matchhere re text then true
  else
    match text with
    | [] => false
    | t :: text' => if t = c ∨ c = chr '.' then matchstar c re text' else false
termination_by (re.length, text.length + 1)

end

theorem matchhere_star (c : Byte) (re text : List Byte) :
    matchhere (c :: chr '*' :: re) text = matchstar c re text := by
  rw [matchhere.eq_def]
  simp

theorem matchhere_dollar (text : List Byte) : matchhere [chr '$'] text = decide (text = []) := by
  rw [matchhere.eq_def]
  simp

/-- The `do`-`while` loop of `match`, which also looks at the empty string. -/
def matchLoop (re : List Byte) : List Byte → Bool
  | [] => matchhere re []
  | t :: text => if matchhere re (t :: text) then true else matchLoop re text

/-- `match`. -/
def matchText (re text : List Byte) : Bool :=
  if re.head? = some (chr '^') then matchhere re.tail text
  else matchLoop re text

/-! ## The language of a pattern -/

/-- An item of a pattern: a character, or a starred one. -/
inductive Item where
  | one (c : Byte)
  | star (c : Byte)
  deriving DecidableEq, Repr

/-- The one-letter words that a character of a pattern stands for. -/
def stands (c : Byte) : Language Byte := {w | ∃ b, w = [b] ∧ (c = chr '.' ∨ c = b)}

/-- The words an item stands for. -/
def Item.lang : Item → Language Byte
  | .one c => stands c
  | .star c => (stands c)∗

/-- A pattern read from left to right.  A star belongs to the character before it,
and a last `$` that carries no star is not an item. -/
def readItems : List Byte → List Item
  | [] => []
  | [c] => if c = chr '$' then [] else [.one c]
  | c :: d :: re => if d = chr '*' then .star c :: readItems re else .one c :: readItems (d :: re)

/-- The pattern ends with a `$` that carries no star. -/
def endAnchored : List Byte → Bool
  | [] => false
  | [c] => c = chr '$'
  | _ :: d :: re => if d = chr '*' then endAnchored re else endAnchored (d :: re)

/-- The pattern begins with `^`. -/
def startAnchored (re : List Byte) : Bool := re.head? = some (chr '^')

/-- The pattern without its start anchor. -/
def body (re : List Byte) : List Byte := if startAnchored re then re.tail else re

/-- The words a list of items stands for. -/
def lang (items : List Item) : Language Byte := (items.map Item.lang).prod

theorem lang_nil : lang [] = 1 := rfl

theorem lang_cons (i : Item) (items : List Item) : lang (i :: items) = i.lang * lang items :=
  List.prod_cons

/-! ## Texts that begin with a word -/

/-- Some beginning of the text is in the language, all of the text if `e`. -/
def Begins (L : Language Byte) (e : Bool) (text : List Byte) : Prop :=
  ∃ w v, text = w ++ v ∧ w ∈ L ∧ (e → v = [])

theorem begins_one : Begins 1 e text ↔ (e → text = []) := by
  constructor
  · rintro ⟨w, v, rfl, hw, hv⟩
    rw [Language.mem_one] at hw
    simpa [hw] using hv
  · exact fun h => ⟨[], text, rfl, Language.nil_mem_one, h⟩

theorem begins_add {M : Language Byte} :
    Begins (L + M) e text ↔ Begins L e text ∨ Begins M e text := by
  simp only [Begins, Language.mem_add]
  constructor
  · rintro ⟨w, v, heq, hw | hw, hv⟩
    · exact .inl ⟨w, v, heq, hw, hv⟩
    · exact .inr ⟨w, v, heq, hw, hv⟩
  · rintro (⟨w, v, heq, hw, hv⟩ | ⟨w, v, heq, hw, hv⟩)
    · exact ⟨w, v, heq, .inl hw, hv⟩
    · exact ⟨w, v, heq, .inr hw, hv⟩

theorem not_begins_stands_nil : ¬ Begins (stands c * L) e [] := by
  rintro ⟨w, v, heq, hw, -⟩
  obtain ⟨u, ⟨b, rfl, -⟩, w', -, rfl⟩ := Language.mem_mul.mp hw
  simp at heq

theorem begins_stands_cons {t : Byte} :
    Begins (stands c * L) e (t :: text) ↔ (c = chr '.' ∨ c = t) ∧ Begins L e text := by
  constructor
  · rintro ⟨w, v, heq, hw, hv⟩
    obtain ⟨u, ⟨b, rfl, hb⟩, w', hw', rfl⟩ := Language.mem_mul.mp hw
    obtain ⟨rfl, rfl⟩ : t = b ∧ text = w' ++ v := by simpa using heq
    exact ⟨hb, w', v, rfl, hw', hv⟩
  · rintro ⟨hc, w, v, rfl, hw, hv⟩
    exact ⟨t :: w, v, rfl, Language.mem_mul.mpr ⟨[t], ⟨t, rfl, hc⟩, w, hw, rfl⟩, hv⟩

/-- A starred character in front stands for nothing, or for one character and itself again. -/
theorem star_mul (c : Byte) (L : Language Byte) :
    (stands c)∗ * L = L + stands c * ((stands c)∗ * L) := by
  conv_lhs => rw [← Language.one_add_self_mul_kstar_eq_kstar]
  rw [add_mul, one_mul, mul_assoc]

/-! ## Correctness -/

/-- The loop of `matchstar` decides the star in front of what its call of `matchhere` decides. -/
theorem matchstar_iff {re : List Byte} (hre : ∀ text, matchhere re text = true ↔ Begins L e text)
    (text : List Byte) : matchstar c re text = true ↔ Begins ((stands c)∗ * L) e text := by
  induction text with
  | nil =>
    rw [matchstar, star_mul, begins_add, ← hre]
    simp [not_begins_stands_nil]
  | cons t text ih =>
    rw [matchstar, star_mul, begins_add, begins_stands_cons, ← ih, ← hre]
    have hstands : t = c ∨ c = chr '.' ↔ c = chr '.' ∨ c = t := by
      rw [or_comm, eq_comm (a := t)]
    simp [hstands]

theorem matchhere_iff (re text : List Byte) :
    matchhere re text = true ↔ Begins (lang (readItems re)) (endAnchored re) text := by
  induction re using readItems.induct generalizing text with
  | case1 => simp [matchhere, readItems, endAnchored, lang_nil, begins_one]
  | case2 => simp [matchhere_dollar, readItems, endAnchored, lang_nil, begins_one]
  | case3 c hc =>
    rw [readItems, if_neg hc, lang_cons, lang_nil, endAnchored, Item.lang]
    cases text with
    | nil => exact iff_of_false (by simp [matchhere, hc]) not_begins_stands_nil
    | cons t text =>
      rw [begins_stands_cons, begins_one, matchhere]
      simp [hc, matchhere]
  | case4 c re ih =>
    rw [readItems, if_pos rfl, lang_cons, endAnchored, if_pos rfl, Item.lang, matchhere_star]
    exact matchstar_iff ih text
  | case5 c d re hd ih =>
    rw [readItems, if_neg hd, lang_cons, endAnchored, if_neg hd, Item.lang]
    cases text with
    | nil => simp [matchhere, hd, not_begins_stands_nil]
    | cons t text =>
      rw [begins_stands_cons, matchhere, ← ih]
      simp [hd]

/-- The loop of `match` finds a place where `matchhere` succeeds. -/
theorem matchLoop_iff (re text : List Byte) :
    matchLoop re text = true ↔ ∃ u v, text = u ++ v ∧ matchhere re v = true := by
  induction text with
  | nil => simp [matchLoop]
  | cons t text ih =>
    rw [matchLoop, Bool.if_true_left, Bool.or_eq_true, decide_eq_true_eq, ih]
    constructor
    · rintro (h | ⟨u, v, rfl, h⟩)
      · exact ⟨[], t :: text, rfl, h⟩
      · exact ⟨t :: u, v, rfl, h⟩
    · rintro ⟨u, v, heq, h⟩
      cases u with
      | nil => exact .inl (by simpa [heq] using h)
      | cons b u => exact .inr ⟨u, v, (List.cons.inj heq).2, h⟩

/-- `match` finds a part of the text in the language of the pattern, at the start
of the text if the pattern begins with `^` and at its end if the pattern ends
with a `$` that carries no star. -/
theorem matchText_iff (re text : List Byte) :
    matchText re text = true ↔
      ∃ pre mid post, text = pre ++ mid ++ post ∧ mid ∈ lang (readItems (body re)) ∧
        (startAnchored re → pre = []) ∧ (endAnchored (body re) → post = []) := by
  rw [matchText, body, startAnchored]
  split
  · next h =>
    simp only [h, decide_true, if_true, matchhere_iff, Begins]
    constructor
    · rintro ⟨w, v, rfl, hw, hv⟩
      exact ⟨[], w, v, rfl, hw, fun _ => rfl, hv⟩
    · rintro ⟨pre, w, v, rfl, hw, hpre, hv⟩
      exact ⟨w, v, by simp [hpre], hw, hv⟩
  · next h =>
    simp only [h, decide_false, matchLoop_iff, matchhere_iff, Begins, Bool.false_eq_true,
      if_false, false_imp_iff, true_and]
    constructor
    · rintro ⟨u, _, rfl, w, v, rfl, hw, hv⟩
      exact ⟨u, w, v, (List.append_assoc ..).symm, hw, hv⟩
    · rintro ⟨u, w, v, rfl, hw, hv⟩
      exact ⟨u, w ++ v, List.append_assoc .., w, v, rfl, hw, hv⟩

example : readItems ("a**$".toList.map chr) = [.star (chr 'a'), .one (chr '*')] ∧
    endAnchored ("a**$".toList.map chr) = true := by
  decide

end Xv6.Grep
