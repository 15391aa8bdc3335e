import Xv6.Lib.Prog
import Xv6.User.Match

/-!
# The parser of the shell (`sh.c`)

A pointer into the line is the rest of the line from there to `es`.  The five parsing
functions move one such pointer, the state of the monad.  `parseline` calls itself
through the four others, so these take it as an argument, and the loops and the
recursion count rounds; a count that is used up stops the program.

*Tokens.*  `peek` and `gettoken` skip white space before and after a token, so what a
function does depends only on the tokens that are left.  `Takes` is the precondition
over token lists, and every proof about the parser uses its rules alone.

*Grammar.*  `Derives` has one rule for each form of a line, a pipe and a command.  A
parsed prefix has a derivation, by induction on the rounds.  A derivable list is parsed
up to a token that cannot continue it, by induction on the derivation.
-/

namespace Xv6.Sh

open Prog Grep

variable {toks : List Byte} {m : Nat}

/-- A pointer into the line. -/
abbrev Ptr := List Byte

variable {l eq : Ptr}

/-- The text of a token, from `q` up to `eq`. -/
structure Span where
  q : Ptr
  eq : Ptr
deriving DecidableEq, Repr

variable {s : Span}

/-- What `gettoken` finds, except for the end of the line. -/
inductive Tok where
  | bar | lpar | rpar | semi | amp | lt | gt | append | word
deriving DecidableEq, Repr

/-- The parsed command. -/
inductive Cmd where
  | exec (argv : List Span)
  | redir (cmd : Cmd) (file : Span) (mode fd : Nat)
  | pipe (left right : Cmd)
  | list (left right : Cmd)
  | back (cmd : Cmd)
deriving Repr

/-- Why the shell stopped. -/
inductive Stop where
  | panic : String → Stop
  /-- A loop that did not end. -/
  | endless
deriving DecidableEq, Repr

abbrev M := Prog Ptr Stop

def maxargs : Nat := 10

def oRdonly : Nat := 0x000

def oWronly : Nat := 0x001

def oCreate : Nat := 0x200

/-! ## Tokens -/

def whitespace : List Byte := [chr ' ', chr '\t', chr '\r', chr '\n', 11#8]

def symbols : List Byte := [chr '<', chr '|', chr '>', chr '&', chr ';', chr '(', chr ')']

def white (b : Byte) : Bool := whitespace.contains b

/-- Neither white space nor a symbol. -/
def plain (b : Byte) : Bool := !white b && !symbols.contains b

/-- The cases of the switch that take one character. -/
def single : List (Byte × Tok) :=
  [(chr '|', .bar), (chr '(', .lpar), (chr ')', .rpar), (chr ';', .semi), (chr '&', .amp), (chr '<', .lt)]

/-- The switch of `gettoken`, with the pointer after the token. -/
def scan : Ptr → Option Tok × Ptr
  | [] => (none, [])
  | b :: l =>
    match single.lookup b with
    | some t => (some t, l)
    | none =>
      if b = chr '>' then
        if l.head? = some (chr '>') then (some .append, l.tail) else (some .gt, l)
      else (some .word, (b :: l).dropWhile plain)

def gettoken : M (Option Tok × Span) := do
  let q := (← get).dropWhile white
  let (ret, eq) := scan q
  set (eq.dropWhile white)
  pure (ret, ⟨q, eq⟩)

def peek (toks : List Byte) : M Bool := do
  let s := (← get).dropWhile white
  set s
  pure (s.head?.any fun b => b ≠ 0#8 && toks.contains b)

/-! ## Commands -/

/-- The switch of `parseredirs`. -/
def Cmd.redirect (cmd : Cmd) (file : Span) : Tok → Cmd
  | .lt => .redir cmd file oRdonly 0
  | .gt => .redir cmd file (oWronly ||| oCreate) 1
  | .append => .redir cmd file (oWronly ||| oCreate) 1
  | _ => cmd

def parseredirs : Nat → Cmd → M Cmd
  | 0, _ => throw .endless
  | n + 1, cmd => do
    if ← peek [chr '<', chr '>'] then
      let (tok, _) ← gettoken
      let (t, file) ← gettoken
      if t ≠ some .word then throw (.panic "missing file for redirection")
      else parseredirs n ((tok.map (cmd.redirect file)).getD cmd)
    else pure cmd

/-- `cmd->argv[argc] = q`, through the pointer to the command inside its redirections. -/
def Cmd.arg (s : Span) : Cmd → Cmd
  | .exec argv => .exec (argv ++ [s])
  | .redir cmd file mode fd => .redir (cmd.arg s) file mode fd
  | cmd => cmd

/-- The loop of `parseexec`. -/
def parseargs : Nat → Nat → Cmd → M Cmd
  | 0, _, _ => throw .endless
  | n + 1, argc, ret => do
    if ← peek [chr '|', chr ')', chr '&', chr ';'] then pure ret
    else do
      match ← gettoken with
      | (none, _) => pure ret
      | (some .word, s) =>
        if argc + 1 ≥ maxargs then throw (.panic "too many args")
        else do
          let ret ← parseredirs (n + 1) (ret.arg s)
          parseargs n (argc + 1) ret
      | (some _, _) => throw (.panic "syntax")

section

variable (line : M Cmd)

def parseblock (n : Nat) : M Cmd := do
  if ← peek [chr '('] then
    let _ ← gettoken
    let cmd ← line
    if ← peek [chr ')'] then
      let _ ← gettoken
      parseredirs n cmd
    else throw (.panic "syntax - missing )")
  else throw (.panic "parseblock")

def parseexec (n : Nat) : M Cmd := do
  if ← peek [chr '('] then parseblock line n
  else do
    let ret ← parseredirs n (.exec [])
    parseargs n 0 ret

def parsepipe : Nat → M Cmd
  | 0 => throw .endless
  | n + 1 => do
    let cmd ← parseexec line (n + 1)
    if ← peek [chr '|'] then
      let _ ← gettoken
      let right ← parsepipe n
      pure (.pipe cmd right)
    else pure cmd

end

/-- The loop of `parseline`. -/
def parsebacks : Nat → Cmd → M Cmd
  | 0, _ => throw .endless
  | n + 1, cmd => do
    if ← peek [chr '&'] then
      let _ ← gettoken
      parsebacks n (.back cmd)
    else pure cmd

def parseline : Nat → M Cmd
  | 0 => throw .endless
  | n + 1 => do
    let cmd ← parsepipe (parseline n) (n + 1)
    let cmd ← parsebacks (n + 1) cmd
    if ← peek [chr ';'] then
      let _ ← gettoken
      let right ← parseline n
      pure (.list cmd right)
    else pure cmd

/-- Put a zero at the end of every string. -/
def nulterminate (es : Nat) : Cmd → List Byte → List Byte
  | .exec argv, buf => argv.foldl (fun buf s => buf.set (es - s.eq.length) 0#8) buf
  | .redir cmd file _ _, buf => (nulterminate es cmd buf).set (es - file.eq.length) 0#8
  | .pipe left right, buf => nulterminate es right (nulterminate es left buf)
  | .list left right, buf => nulterminate es right (nulterminate es left buf)
  | .back cmd, buf => nulterminate es cmd buf

/-- The body of `parsecmd`, with `s` at the start of the line. -/
def parseall (line : List Byte) : M (Cmd × List Byte) := do
  let cmd ← parseline (line.length + 1)
  let _ ← peek []
  if (← get) ≠ [] then throw (.panic "syntax")
  else pure (cmd, nulterminate line.length cmd (line ++ [0#8]))

/-- The command of a line, and the buffer of the line afterwards. -/
def parsecmd (line : List Byte) : Except Stop (Cmd × List Byte) := (parseall line line).map Prod.fst

/-! ## The tokens of a line -/

/-- A token and its text. -/
structure Token where
  kind : Tok
  span : Span
deriving DecidableEq, Repr

variable {t : Token}

/-- The first character of a symbol, and one for words. -/
def Tok.char : Tok → Byte
  | .bar => chr '|'
  | .lpar => chr '('
  | .rpar => chr ')'
  | .semi => chr ';'
  | .amp => chr '&'
  | .lt => chr '<'
  | .gt => chr '>'
  | .append => chr '>'
  | .word => chr 'a'

theorem single_char : ∀ b : Byte, ∀ t ∈ single.lookup b, t.char = b ∧ t ≠ .word := by
  decide +kernel

theorem not_symbol : ∀ b : Byte, single.lookup b = none → b ≠ chr '>' → b ∉ symbols := by
  decide +kernel

/-- What the switch finds at a character that is not white space. -/
theorem scan_cons {b : Byte} (hb : white b = false) :
    ∃ t eq, scan (b :: l) = (some t, eq) ∧ eq <:+ l ∧ (t.char = b ∧ t ≠ .word ∨
      t = .word ∧ b ∉ symbols ∧ eq = (b :: l).dropWhile plain) := by
  rw [scan]
  cases hs : single.lookup b with
  | some t => exact ⟨t, l, rfl, List.suffix_refl l, .inl (single_char b t hs)⟩
  | none =>
    dsimp only
    by_cases hgt : b = chr '>'
    · rw [if_pos hgt]
      split
      · exact ⟨_, _, rfl, l.tail_suffix, .inl ⟨hgt.symm, by decide⟩⟩
      · exact ⟨_, _, rfl, List.suffix_refl l, .inl ⟨hgt.symm, by decide⟩⟩
    · have hplain : plain b = true := by simpa [plain, hb] using not_symbol b hs hgt
      rw [if_neg hgt]
      refine ⟨_, _, rfl, ?_, .inr ⟨rfl, not_symbol b hs hgt, rfl⟩⟩
      rw [List.dropWhile_cons_of_pos hplain]
      exact List.dropWhile_suffix _

theorem white_of_dropWhile {r : Ptr} {b : Byte} (h : l.dropWhile white = b :: r) :
    white b = false := by
  have := List.head?_dropWhile_not white l
  rw [h] at this
  simpa using this

theorem length_scan {t : Tok} (h : scan (l.dropWhile white) = (some t, eq)) :
    eq.length < l.length := by
  cases hl : l.dropWhile white with
  | nil => rw [hl] at h; cases h
  | cons b r =>
    obtain ⟨t', eq', hscan, hsuf, -⟩ := scan_cons (l := r) (white_of_dropWhile hl)
    rw [hl, hscan] at h
    cases h
    have := hsuf.length_le
    have := (List.dropWhile_suffix white (l := l)).length_le
    rw [hl, List.length_cons] at this
    omega

/-- The tokens from a place in the line on. -/
def tokens (l : Ptr) : List Token :=
  match _h : scan (l.dropWhile white) with
  | (none, _) => []
  | (some t, eq) => ⟨t, l.dropWhile white, eq⟩ :: tokens eq
termination_by l.length
decreasing_by exact length_scan _h

theorem tokens_of_none (h : scan (l.dropWhile white) = (none, eq)) : tokens l = [] := by
  rw [tokens]
  split <;> simp_all

theorem tokens_of_some {t : Tok} (h : scan (l.dropWhile white) = (some t, eq)) :
    tokens l = ⟨t, l.dropWhile white, eq⟩ :: tokens eq := by
  rw [tokens]
  split <;> simp_all

theorem tokens_dropWhile (l : Ptr) : tokens (l.dropWhile white) = tokens l := by
  cases h : scan (l.dropWhile white) with
  | mk t eq =>
    have h' := h
    rw [← List.dropWhile_idempotent] at h'
    cases t with
    | none => rw [tokens_of_none h, tokens_of_none h']
    | some t => rw [tokens_of_some h, tokens_of_some h', List.dropWhile_idempotent]

/-! ## Preconditions over tokens -/

/-- From a place with the tokens `ts` on, `x` ends as `Q` or `F` say, `Q` about the tokens that
are left. -/
def Takes {α : Type} (x : M α) (Q : α → List Token → Prop) (F : Stop → Prop) (ts : List Token) : Prop :=
  ∀ l, tokens l = ts → wp x (fun a l' => Q a (tokens l')) F l

section

variable {α β : Type} {x : M α} {Q Q' : α → List Token → Prop} {F : Stop → Prop} {ts : List Token}

theorem Takes.pure {a : α} (h : Q a ts) : Takes (pure a) Q F ts := fun l hl => by
  rwa [wp_pure, hl]

theorem Takes.throw {e : Stop} (h : F e) : Takes (throw e) Q F ts := fun l _ => by
  rwa [wp_throw]

theorem Takes.bind {f : α → M β} {R : β → List Token → Prop} (hx : Takes x Q F ts)
    (hf : ∀ a ts', Q a ts' → Takes (f a) R F ts') : Takes (x >>= f) R F ts := fun l hl => by
  rw [wp_bind]
  exact wp_post (hx l hl) fun a l' ha => hf a _ ha l' rfl

theorem Takes.post (hx : Takes x Q F ts) (hQ : ∀ a ts', Q a ts' → Q' a ts') : Takes x Q' F ts :=
  fun l hl => wp_post (hx l hl) fun a _ ha => hQ a _ ha

theorem takes_end {f : Option Tok × Span → M β} {R : β → List Token → Prop}
    (h : ∀ s, Takes (f (none, s)) R F []) : Takes (gettoken >>= f) R F [] := fun l hl => by
  simp only [gettoken, wp_bind, wp_get, wp_set, wp_pure]
  cases hw : l.dropWhile white with
  | nil => exact h _ _ (tokens_of_none rfl)
  | cons b r =>
    obtain ⟨t, eq, hscan, -⟩ := scan_cons (l := r) (white_of_dropWhile hw)
    rw [tokens_of_some (by rwa [hw])] at hl
    cases hl

theorem takes_token {f : Option Tok × Span → M β} {R : β → List Token → Prop}
    (h : Takes (f (some t.kind, t.span)) R F ts) :
    Takes (gettoken >>= f) R F (t :: ts) := fun l hl => by
  simp only [gettoken, wp_bind, wp_get, wp_set, wp_pure]
  rcases hscan : scan (l.dropWhile white) with ⟨_ | k, eq⟩
  · rw [tokens_of_none hscan] at hl
    cases hl
  · rw [tokens_of_some hscan, List.cons.injEq] at hl
    obtain ⟨rfl, rfl⟩ := hl
    exact h _ (tokens_dropWhile eq)

/-- `peek` with these characters tests for these tokens. -/
structure Tests (toks : List Byte) (kinds : List Tok) : Prop where
  symbol : ∀ b ∈ toks, b ∈ symbols
  kind : ∀ k : Tok, k.char ∈ toks ↔ k ∈ kinds

theorem Tests.peek {kinds : List Tok} {y z : M β} {R : β → List Token → Prop} (h : Tests toks kinds)
    (hyes : ∀ t ts', ts = t :: ts' → t.kind ∈ kinds → Takes y R F (t :: ts'))
    (hno : (∀ t ∈ ts.head?, t.kind ∉ kinds) → Takes z R F ts) :
    Takes (Sh.peek toks >>= fun b => if b = true then y else z) R F ts := fun l hl => by
  simp only [Sh.peek, wp_bind, wp_get, wp_set, wp_pure]
  have hl' := (tokens_dropWhile l).trans hl
  cases hw : l.dropWhile white with
  | nil =>
    rw [tokens_of_none (by rw [hw]; rfl)] at hl
    subst hl
    exact hno (by simp) _ (tokens_of_none rfl)
  | cons b r =>
    obtain ⟨t, eq, hscan, -, hb⟩ := scan_cons (l := r) (white_of_dropWhile hw)
    rw [tokens_of_some (by rwa [hw])] at hl
    have htest : (b ≠ 0#8 ∧ b ∈ toks) ↔ t ∈ kinds := by
      rw [← h.kind]
      rcases hb with ⟨rfl, -⟩ | ⟨rfl, hb, -⟩
      · have : t.char ≠ 0#8 := by cases t <;> decide
        exact ⟨fun hc => hc.2, fun hc => ⟨this, hc⟩⟩
      · exact ⟨fun hc => absurd (h.symbol b hc.2) hb, fun hc => absurd (h.symbol _ hc) (by decide)⟩
    rw [hw] at hl'
    by_cases ht : t ∈ kinds
    · rw [if_pos (by simpa using htest.mpr ht)]
      subst hl
      exact hyes _ _ rfl ht _ hl'
    · rw [if_neg (by simpa using fun h1 h2 => ht (htest.mp ⟨h1, h2⟩))]
      exact hno (by rw [← hl]; simpa using ht) _ hl'

end

theorem tests_amp : Tests [chr '&'] [.amp] := ⟨by decide, fun k => by cases k <;> decide⟩

theorem tests_semi : Tests [chr ';'] [.semi] := ⟨by decide, fun k => by cases k <;> decide⟩

theorem tests_bar : Tests [chr '|'] [.bar] := ⟨by decide, fun k => by cases k <;> decide⟩

theorem tests_lpar : Tests [chr '('] [.lpar] := ⟨by decide, fun k => by cases k <;> decide⟩

theorem tests_rpar : Tests [chr ')'] [.rpar] := ⟨by decide, fun k => by cases k <;> decide⟩

theorem tests_redir : Tests [chr '<', chr '>'] [.lt, .gt, .append] :=
  ⟨by decide, fun k => by cases k <;> decide⟩

theorem tests_stop : Tests [chr '|', chr ')', chr '&', chr ';'] [.bar, .rpar, .amp, .semi] :=
  ⟨by decide, fun k => by cases k <;> decide⟩

/-! ## The grammar -/

/-- `('<' | '>' | '>>') word`. -/
def IsRedir (r : Token × Token) : Prop := r.1.kind ∈ [Tok.lt, .gt, .append] ∧ r.2.kind = .word

abbrev Redirs := List (Token × Token)

variable {rs : Redirs}

def spell (rs : Redirs) : List Token := rs.flatMap fun r => [r.1, r.2]

/-- The command with redirections, the last one outermost. -/
def Cmd.redirects (cmd : Cmd) (rs : Redirs) : Cmd :=
  rs.foldl (fun cmd r => cmd.redirect r.2.span r.1.kind) cmd

/-- A word and the redirections after it. -/
abbrev Arg := Token × Redirs

/-- `word redir*`. -/
def IsArg (a : Arg) : Prop := a.1.kind = .word ∧ ∀ r ∈ a.2, IsRedir r

def spellArgs (args : List Arg) : List Token := args.flatMap fun a => a.1 :: spell a.2

inductive Nonterm where
  | line | pipe | exec

/-- The tokens derive from the nonterminal, and the command is the tree of the derivation. -/
inductive Derives : Nonterm → List Token → Cmd → Prop where
  /-- `redir* (word redir*)*`, with fewer than `MAXARGS` words. -/
  | simple {rs : Redirs} {args : List Arg} (hrs : ∀ r ∈ rs, IsRedir r)
      (hargs : ∀ a ∈ args, IsArg a) (hlt : args.length < maxargs) :
      Derives .exec (spell rs ++ spellArgs args)
        ((Cmd.exec (args.map fun a => a.1.span)).redirects (rs ++ args.flatMap Prod.snd))
  /-- `'(' line ')' redir*`. -/
  | block {l r : Token} {ts : List Token} {cmd : Cmd} {rs : Redirs}
      (hl : l.kind = .lpar) (hline : Derives .line ts cmd) (hr : r.kind = .rpar)
      (hrs : ∀ r ∈ rs, IsRedir r) :
      Derives .exec (l :: ts ++ r :: spell rs) (cmd.redirects rs)
  /-- `exec`. -/
  | one {ts : List Token} {cmd : Cmd} (h : Derives .exec ts cmd) : Derives .pipe ts cmd
  /-- `exec '|' pipe`. -/
  | pipe {ts ts' : List Token} {t : Token} {left right : Cmd} (hleft : Derives .exec ts left)
      (ht : t.kind = .bar) (hright : Derives .pipe ts' right) :
      Derives .pipe (ts ++ t :: ts') (.pipe left right)
  /-- `pipe '&'*`. -/
  | last {ts amps : List Token} {cmd : Cmd} (h : Derives .pipe ts cmd)
      (hamps : ∀ t ∈ amps, t.kind = .amp) :
      Derives .line (ts ++ amps) (Cmd.back^[amps.length] cmd)
  /-- `pipe '&'* ';' line`. -/
  | list {ts amps ts' : List Token} {t : Token} {left right : Cmd} (hleft : Derives .pipe ts left)
      (hamps : ∀ t ∈ amps, t.kind = .amp) (ht : t.kind = .semi) (hright : Derives .line ts' right) :
      Derives .line (ts ++ amps ++ t :: ts') (.list (Cmd.back^[amps.length] left) right)

/-! ## What is parsed has a derivation -/

variable {n argc : Nat} {cmd : Cmd} {ts : List Token} {line : M Cmd}

theorem sound_redirs (hn : ts.length < n) :
    Takes (parseredirs n cmd) (fun cmd' ts' => ∃ rs, ts = spell rs ++ ts' ∧ (∀ r ∈ rs, IsRedir r) ∧
      cmd' = cmd.redirects rs) (· ≠ .endless) ts := by
  induction n generalizing cmd ts with
  | zero => omega
  | succ n ih =>
    refine tests_redir.peek ?_ fun _ => .pure ⟨[], rfl, by simp, rfl⟩
    rintro t ts rfl hop
    refine takes_token ?_
    cases ts with
    | nil => exact takes_end fun s => .throw (by decide)
    | cons w ts =>
      refine takes_token ?_
      dsimp only
      split
      · exact .throw (by decide)
      · next hw =>
        refine (ih (by simp only [List.length_cons] at hn; omega)).post ?_
        rintro cmd' ts' ⟨rs, rfl, hrs, rfl⟩
        refine ⟨(t, w) :: rs, rfl, List.forall_mem_cons.mpr ⟨⟨hop, ?_⟩, hrs⟩, rfl⟩
        simpa using hw

theorem sound_args (hn : ts.length < n) (hargc : argc < maxargs) :
    Takes (parseargs n argc cmd) (fun cmd' ts' => ∃ args : List Arg, ts = spellArgs args ++ ts' ∧
      (∀ a ∈ args, IsArg a) ∧ argc + args.length < maxargs ∧
      cmd' = args.foldl (fun cmd a => (cmd.arg a.1.span).redirects a.2) cmd) (· ≠ .endless) ts := by
  induction n generalizing argc cmd ts with
  | zero => omega
  | succ n ih =>
    have hnil : ∃ args : List Arg, ts = spellArgs args ++ ts ∧
        (∀ a ∈ args, IsArg a) ∧ argc + args.length < maxargs ∧
        cmd = args.foldl (fun cmd a => (cmd.arg a.1.span).redirects a.2) cmd :=
      ⟨[], rfl, by simp, hargc, rfl⟩
    refine tests_stop.peek (fun t ts' h _ => h ▸ .pure hnil) fun _ => ?_
    cases ts with
    | nil => exact takes_end fun s => .pure hnil
    | cons w ts =>
      simp only [List.length_cons] at hn
      obtain ⟨k, s⟩ := w
      refine takes_token ?_
      by_cases hw : k = .word
      · subst hw
        dsimp only
        split
        · exact .throw (by decide)
        · refine .bind (sound_redirs (by omega)) ?_
          rintro cmd1 ts1 ⟨rs, rfl, hrs, rfl⟩
          rw [List.length_append] at hn
          refine (ih (by omega) (by omega)).post ?_
          rintro cmd' ts' ⟨args, rfl, hargs, hlt, rfl⟩
          refine ⟨(⟨.word, s⟩, rs) :: args, by simp [spellArgs], ?_, ?_, rfl⟩
          · exact List.forall_mem_cons.mpr ⟨⟨rfl, hrs⟩, hargs⟩
          · rw [List.length_cons]
            omega
      · cases k <;> first | exact absurd rfl hw | exact .throw (by decide)

/-- An argument goes to the command inside the redirections. -/
theorem arg_redirects (s : Span) (rs : Redirs) :
    (cmd.redirects rs).arg s = (cmd.arg s).redirects rs := by
  induction rs generalizing cmd with
  | nil => rfl
  | cons r rs ih =>
    have hr : (cmd.redirect r.2.span r.1.kind).arg s = (cmd.arg s).redirect r.2.span r.1.kind := by
      cases r.1.kind <;> rfl
    rw [Cmd.redirects, List.foldl_cons]
    exact ih.trans (congrArg (Cmd.redirects · rs) hr)

theorem redirects_append (rs rs' : Redirs) :
    cmd.redirects (rs ++ rs') = (cmd.redirects rs).redirects rs' := List.foldl_append

theorem args_tree (argv : List Span) (rs : Redirs) (args : List Arg) :
    args.foldl (fun cmd a => (cmd.arg a.1.span).redirects a.2) ((Cmd.exec argv).redirects rs) =
      (Cmd.exec (argv ++ args.map fun a => a.1.span)).redirects (rs ++ args.flatMap Prod.snd) := by
  induction args generalizing argv rs with
  | nil => simp
  | cons a args ih =>
    rw [List.foldl_cons, arg_redirects, ← redirects_append, Cmd.arg, ih]
    simp

/-- What `x` parses from these tokens derives from the nonterminal, and `x` ends. -/
def Parses (nt : Nonterm) (x : M Cmd) (ts : List Token) : Prop :=
  Takes x (fun cmd ts' => ∃ ts0, ts = ts0 ++ ts' ∧ Derives nt ts0 cmd) (· ≠ .endless) ts

section

variable (hline : ∀ ts, ts.length < m → Parses .line line ts) (hn : ts.length < n)
  (hm : ts.length ≤ m)
include hline hn hm

theorem sound_exec : Parses .exec (parseexec line n) ts := by
  refine tests_lpar.peek ?_ fun _ => ?_
  · rintro t ts rfl ht
    rw [List.length_cons] at hn hm
    refine tests_lpar.peek ?_ fun h => absurd ht (h t rfl)
    rintro _ _ ⟨⟩ -
    refine takes_token (.bind (hline ts (by omega)) ?_)
    rintro cmd ts1 ⟨ts0, rfl, hder⟩
    refine tests_rpar.peek ?_ fun _ => .throw (by decide)
    rintro r ts2 rfl hr
    simp only [List.length_append, List.length_cons] at hn
    refine takes_token ((sound_redirs (by omega)).post ?_)
    rintro cmd' ts' ⟨rs, rfl, hrs, rfl⟩
    exact ⟨t :: ts0 ++ r :: spell rs, by simp,
      .block (List.mem_singleton.mp ht) hder (List.mem_singleton.mp hr) hrs⟩
  · refine .bind (sound_redirs hn) ?_
    rintro cmd ts1 ⟨rs, rfl, hrs, rfl⟩
    rw [List.length_append] at hn
    refine (sound_args (by omega) (by decide)).post ?_
    rintro cmd' ts' ⟨args, rfl, hargs, hlt, rfl⟩
    refine ⟨spell rs ++ spellArgs args, by simp, ?_⟩
    rw [args_tree]
    exact .simple hrs hargs (by omega)

theorem sound_pipe : Parses .pipe (parsepipe line n) ts := by
  induction n generalizing ts with
  | zero => omega
  | succ n ih =>
    refine .bind (sound_exec hline hn hm) ?_
    rintro left ts1 ⟨ts0, rfl, hleft⟩
    refine tests_bar.peek ?_ fun _ => .pure ⟨ts0, rfl, .one hleft⟩
    rintro t ts1 rfl ht
    simp only [List.length_append, List.length_cons] at hn hm
    refine takes_token (.bind (ih (by omega) (by omega)) ?_)
    rintro right ts' ⟨ts2, rfl, hright⟩
    exact .pure ⟨ts0 ++ t :: ts2, by simp, .pipe hleft (List.mem_singleton.mp ht) hright⟩

end

theorem sound_backs (hn : ts.length < n) :
    Takes (parsebacks n cmd) (fun cmd' ts' => ∃ amps, ts = amps ++ ts' ∧
      (∀ t ∈ amps, t.kind = .amp) ∧ cmd' = Cmd.back^[amps.length] cmd) (· ≠ .endless) ts := by
  induction n generalizing cmd ts with
  | zero => omega
  | succ n ih =>
    refine tests_amp.peek ?_ fun _ => .pure ⟨[], rfl, by simp, rfl⟩
    rintro t ts rfl ht
    rw [List.length_cons] at hn
    refine takes_token ((ih (by omega)).post ?_)
    rintro cmd' ts' ⟨amps, rfl, hamps, rfl⟩
    exact ⟨t :: amps, rfl, List.forall_mem_cons.mpr ⟨List.mem_singleton.mp ht, hamps⟩, rfl⟩

theorem sound_line (hn : ts.length < n) : Parses .line (parseline n) ts := by
  induction n generalizing ts with
  | zero => omega
  | succ n ih =>
    refine .bind (sound_pipe (m := n) (fun ts hts => ih hts) hn (by omega)) ?_
    rintro cmd ts1 ⟨ts0, rfl, hcmd⟩
    rw [List.length_append] at hn
    refine .bind (sound_backs (by omega)) ?_
    rintro _ ts2 ⟨amps, rfl, hamps, rfl⟩
    refine tests_semi.peek ?_ fun _ => .pure ⟨ts0 ++ amps, by simp, .last hcmd hamps⟩
    rintro t ts2 rfl ht
    simp only [List.length_append, List.length_cons] at hn
    refine takes_token (.bind (ih (by omega)) ?_)
    rintro right ts' ⟨ts3, rfl, hright⟩
    exact .pure ⟨ts0 ++ amps ++ t :: ts3, by simp,
      .list hcmd hamps (List.mem_singleton.mp ht) hright⟩

/-! ## What has a derivation is parsed -/

/-- The tokens that can follow. -/
def Nonterm.follow : Nonterm → List Tok
  | .line => [.rpar]
  | .pipe => [.rpar, .amp, .semi]
  | .exec => [.bar, .rpar, .amp, .semi]

/-- From tokens that go on with `rest`, `x` parses `cmd` and leaves `rest`. -/
def Reads (x : M Cmd) (ts : List Token) (cmd : Cmd) (rest : List Token) : Prop :=
  Takes x (fun cmd' ts' => cmd' = cmd ∧ ts' = rest) (fun _ => False) (ts ++ rest)

variable {rest : List Token} {kinds : List Tok}

/-- The first token, if there is one, is one of these. -/
def Heads (kinds : List Tok) (ts : List Token) : Prop := ∀ t ∈ ts.head?, t.kind ∈ kinds

theorem Tests.peek_yes {y z : M Cmd} {R : Cmd → List Token → Prop} {F : Stop → Prop}
    (h : Tests toks kinds) (ht : t.kind ∈ kinds) (hy : Takes y R F (t :: ts)) :
    Takes (Sh.peek toks >>= fun b => if b = true then y else z) R F (t :: ts) :=
  h.peek (fun _ _ hts _ => hts ▸ hy) fun hno => absurd ht (hno t rfl)

theorem Tests.peek_no {kinds' : List Tok} {y z : M Cmd} {R : Cmd → List Token → Prop}
    {F : Stop → Prop} (h : Tests toks kinds) (hts : Heads kinds' ts) (hk : ∀ k ∈ kinds', k ∉ kinds)
    (hz : Takes z R F ts) : Takes (Sh.peek toks >>= fun b => if b = true then y else z) R F ts :=
  h.peek (fun t _ ht hmem => absurd hmem (hk _ (hts t (by rw [ht]; rfl)))) fun _ => hz

theorem Reads.bind {β : Type} {x : M Cmd} {f : Cmd → M β} {R : β → List Token → Prop}
    (h : Reads x ts cmd rest) (hf : Takes (f cmd) R (fun _ => False) rest) :
    Takes (x >>= f) R (fun _ => False) (ts ++ rest) := by
  refine Takes.bind h ?_
  rintro _ _ ⟨rfl, rfl⟩
  exact hf

theorem Heads.mono {kinds' : List Tok} (h : Heads kinds ts) (hk : ∀ k ∈ kinds, k ∈ kinds') :
    Heads kinds' ts := fun t ht => hk _ (h t ht)

theorem heads_amps {amps : List Token} (hamps : ∀ t ∈ amps, t.kind = .amp)
    (hrest : Heads [.rpar, .semi] rest) : Heads Nonterm.pipe.follow (amps ++ rest) := by
  cases amps with
  | nil => exact hrest.mono (by decide)
  | cons t amps =>
    rintro _ ⟨⟩
    rw [hamps t List.mem_cons_self]
    decide

theorem heads_args {args : List Arg} (hargs : ∀ a ∈ args, IsArg a)
    (hrest : Heads Nonterm.exec.follow rest) :
    Heads (.word :: Nonterm.exec.follow) (spellArgs args ++ rest) := by
  cases args with
  | nil => exact hrest.mono (by decide)
  | cons a args =>
    rintro t ⟨⟩
    rw [(hargs a List.mem_cons_self).1]
    exact List.mem_cons_self

theorem heads_redirs (hrs : ∀ r ∈ rs, IsRedir r) (hrest : Heads kinds rest) :
    Heads ([.lt, .gt, .append] ++ kinds) (spell rs ++ rest) := by
  cases rs with
  | nil => exact fun t ht => List.mem_append_right _ (hrest t ht)
  | cons r rs =>
    rintro t ⟨⟩
    exact List.mem_append_left _ (hrs r List.mem_cons_self).1

theorem reads_redirs (hrs : ∀ r ∈ rs, IsRedir r) (hrest : Heads (.word :: Nonterm.exec.follow) rest)
    (hn : (spell rs ++ rest).length < n) :
    Reads (parseredirs n cmd) (spell rs) (cmd.redirects rs) rest := by
  obtain ⟨n, rfl⟩ : ∃ k, n = k + 1 := ⟨n - 1, by omega⟩
  induction rs generalizing n cmd with
  | nil => exact tests_redir.peek_no hrest (by decide) (.pure ⟨rfl, rfl⟩)
  | cons r rs ih =>
    obtain ⟨⟨hop, hfile⟩, hrs⟩ := List.forall_mem_cons.mp hrs
    change (r.1 :: r.2 :: (spell rs ++ rest)).length < n + 1 at hn
    simp only [List.length_cons] at hn
    obtain ⟨n, rfl⟩ : ∃ k, n = k + 1 := ⟨n - 1, by omega⟩
    refine tests_redir.peek_yes hop (takes_token (takes_token ?_))
    dsimp only
    rw [if_neg (by simp [hfile])]
    exact ih hrs n (by omega)

theorem reads_args {args : List Arg} (hargs : ∀ a ∈ args, IsArg a)
    (hrest : Heads Nonterm.exec.follow rest) (hargc : argc + args.length < maxargs)
    (hn : (spellArgs args ++ rest).length < n) :
    Reads (parseargs n argc cmd) (spellArgs args)
      (args.foldl (fun cmd a => (cmd.arg a.1.span).redirects a.2) cmd) rest := by
  obtain ⟨n, rfl⟩ : ∃ k, n = k + 1 := ⟨n - 1, by omega⟩
  induction args generalizing n argc cmd with
  | nil =>
    refine tests_stop.peek (fun t ts h _ => .pure ⟨rfl, h.symm⟩) fun h => ?_
    obtain rfl : rest = [] := by
      cases rest with
      | nil => rfl
      | cons t rest => exact absurd (hrest t rfl) (h t rfl)
    exact takes_end fun _ => .pure ⟨rfl, rfl⟩
  | cons a args ih =>
    obtain ⟨⟨hword, hrs⟩, hmore⟩ := List.forall_mem_cons.mp hargs
    obtain ⟨⟨k, s⟩, rs⟩ := a
    obtain rfl : k = .word := hword
    replace hrs : ∀ r ∈ rs, IsRedir r := hrs
    have hts : spellArgs ((⟨.word, s⟩, rs) :: args) ++ rest =
        ⟨.word, s⟩ :: (spell rs ++ (spellArgs args ++ rest)) := by
      simp [spellArgs]
    rw [hts, List.length_cons] at hn
    rw [List.length_cons] at hargc
    obtain ⟨n, rfl⟩ : ∃ k, n = k + 1 := ⟨n - 1, by omega⟩
    rw [Reads, hts]
    have hhead : Heads [.word] (⟨.word, s⟩ :: (spell rs ++ (spellArgs args ++ rest))) := by
      rintro _ ⟨⟩
      exact List.mem_cons_self
    refine tests_stop.peek_no hhead (by decide) (takes_token ?_)
    dsimp only
    rw [if_neg (by omega)]
    refine (reads_redirs hrs (heads_args hmore hrest) (by omega)).bind ?_
    rw [List.length_append] at hn
    exact ih hmore (by omega) n (by omega)

theorem reads_backs {amps : List Token} (hamps : ∀ t ∈ amps, t.kind = .amp)
    (hrest : Heads [.rpar, .semi] rest) (hn : (amps ++ rest).length < n) :
    Reads (parsebacks n cmd) amps (Cmd.back^[amps.length] cmd) rest := by
  obtain ⟨n, rfl⟩ : ∃ k, n = k + 1 := ⟨n - 1, by omega⟩
  induction amps generalizing n cmd with
  | nil => exact tests_amp.peek_no hrest (by decide) (.pure ⟨rfl, rfl⟩)
  | cons t amps ih =>
    obtain ⟨ht, hamps⟩ := List.forall_mem_cons.mp hamps
    rw [List.cons_append, List.length_cons] at hn
    obtain ⟨n, rfl⟩ : ∃ k, n = k + 1 := ⟨n - 1, by omega⟩
    exact tests_amp.peek_yes (List.mem_singleton.mpr ht) (takes_token (ih hamps n (by omega)))

/-- The function for a nonterminal, with its rounds and those of `parseline` in it. -/
def Nonterm.parser (n m : Nat) : Nonterm → M Cmd
  | .line => parseline n
  | .pipe => parsepipe (parseline m) n
  | .exec => parseexec (parseline m) n

theorem Derives.reads {nt : Nonterm} (h : Derives nt ts cmd) (hrest : Heads nt.follow rest)
    (hn : (ts ++ rest).length < n) (hm : (ts ++ rest).length ≤ m) :
    Reads (nt.parser n m) ts cmd rest := by
  induction h generalizing n m rest with
  | @simple rs args hrs hargs hlt =>
    have hwords := heads_args hargs hrest
    rw [Reads, List.append_assoc]
    rw [List.append_assoc] at hn
    refine tests_lpar.peek_no (heads_redirs hrs hwords) (by decide) ?_
    refine (reads_redirs hrs hwords hn).bind ?_
    rw [List.length_append] at hn
    refine (reads_args hargs hrest (by omega) (by omega)).post ?_
    rintro _ _ ⟨rfl, rfl⟩
    exact ⟨args_tree [] rs args, rfl⟩
  | @block l r ts cmd rs hl hline hr hrs ih =>
    have hts : l :: ts ++ r :: spell rs ++ rest = l :: (ts ++ r :: (spell rs ++ rest)) := by simp
    rw [hts, List.length_cons] at hn hm
    rw [Reads, hts]
    refine tests_lpar.peek_yes (List.mem_singleton.mpr hl) ?_
    refine tests_lpar.peek_yes (List.mem_singleton.mpr hl) (takes_token ?_)
    refine (ih (m := m) ?_ (by omega) (by omega)).bind ?_
    · rintro t ⟨⟩
      exact List.mem_singleton.mpr hr
    · rw [List.length_append, List.length_cons] at hn
      exact tests_rpar.peek_yes (List.mem_singleton.mpr hr) (takes_token
        (reads_redirs hrs (hrest.mono (by decide)) (by omega)))
  | one h ih =>
    obtain ⟨n, rfl⟩ : ∃ k, n = k + 1 := ⟨n - 1, by omega⟩
    refine (ih ?_ hn hm).bind ?_
    · exact hrest.mono (by decide)
    · exact tests_bar.peek_no hrest (by decide) (.pure ⟨rfl, rfl⟩)
  | @pipe ts ts' t left right hleft ht hright ihl ihr =>
    obtain ⟨n, rfl⟩ : ∃ k, n = k + 1 := ⟨n - 1, by omega⟩
    rw [List.append_assoc, List.cons_append] at hn hm
    rw [Reads, List.append_assoc, List.cons_append]
    refine (ihl ?_ hn hm).bind ?_
    · rintro _ ⟨⟩
      rw [ht]
      exact List.mem_cons_self
    · rw [List.length_append, List.length_cons] at hn hm
      refine tests_bar.peek_yes (List.mem_singleton.mpr ht) (takes_token ?_)
      exact (ihr hrest (by omega) (by omega)).bind (.pure ⟨rfl, rfl⟩)
  | @last ts amps cmd h hamps ih =>
    obtain ⟨n, rfl⟩ : ∃ k, n = k + 1 := ⟨n - 1, by omega⟩
    rw [List.append_assoc] at hn
    rw [Reads, List.append_assoc]
    refine (ih (heads_amps hamps (hrest.mono (by decide))) hn (by omega)).bind ?_
    rw [List.length_append] at hn
    refine (reads_backs hamps (hrest.mono (by decide)) (by omega)).bind ?_
    exact tests_semi.peek_no hrest (by decide) (.pure ⟨rfl, rfl⟩)
  | @list ts amps ts' t left right hleft hamps ht hright ihl ihr =>
    have hsemi : Heads [.rpar, .semi] (t :: (ts' ++ rest)) := by
      rintro _ ⟨⟩
      rw [ht]
      decide
    have hts : ts ++ amps ++ t :: ts' ++ rest = ts ++ (amps ++ t :: (ts' ++ rest)) := by simp
    obtain ⟨n, rfl⟩ : ∃ k, n = k + 1 := ⟨n - 1, by omega⟩
    rw [hts] at hn
    rw [Reads, hts]
    refine (ihl (heads_amps hamps hsemi) hn (by omega)).bind ?_
    rw [List.length_append] at hn
    refine (reads_backs hamps hsemi (by omega)).bind ?_
    rw [List.length_append, List.length_cons] at hn
    refine tests_semi.peek_yes (List.mem_singleton.mpr ht) (takes_token ?_)
    exact (ihr (m := n) hrest (by omega) (by omega)).bind (.pure ⟨rfl, rfl⟩)

/-! ## The strings -/

/-- The strings of a command, in the order in which they are terminated. -/
def Cmd.spans : Cmd → List Span
  | .exec argv => argv
  | .redir cmd file _ _ => cmd.spans ++ [file]
  | .pipe left right => left.spans ++ right.spans
  | .list left right => left.spans ++ right.spans
  | .back cmd => cmd.spans

def Span.text (s : Span) : List Byte := s.q.take (s.q.length - s.eq.length)

/-- The C string at an address of the buffer. -/
def cstring (buf : List Byte) (p : Nat) : List Byte := (buf.drop p).takeWhile (· ≠ 0#8)

theorem nulterminate_eq (es : Nat) (cmd : Cmd) (buf : List Byte) : nulterminate es cmd buf =
    cmd.spans.foldl (fun buf s => buf.set (es - s.eq.length) 0#8) buf := by
  induction cmd generalizing buf with
  | exec argv => rfl
  | redir cmd file mode fd ih => rw [nulterminate, ih, Cmd.spans, List.foldl_append]; rfl
  | pipe left right ihl ihr => rw [nulterminate, ihl, ihr, Cmd.spans, List.foldl_append]
  | list left right ihl ihr => rw [nulterminate, ihl, ihr, Cmd.spans, List.foldl_append]
  | back cmd ih => exact ih buf

/-- Terminating changes the bytes after the strings, and nothing else. -/
theorem getElem?_terminated (es i : Nat) (spans : List Span) (buf : List Byte) :
    (spans.foldl (fun buf s => buf.set (es - s.eq.length) 0#8) buf)[i]? =
      if ∃ s ∈ spans, es - s.eq.length = i then buf[i]?.map fun _ => 0#8 else buf[i]? := by
  induction spans generalizing buf with
  | nil => simp
  | cons s spans ih =>
    rw [List.foldl_cons, ih, List.getElem?_set']
    by_cases hs : es - s.eq.length = i
    · simp [hs, Function.const_def]
    · simp [hs]

/-- A word of the line: plain characters up to one that is not. -/
structure IsWord (line : List Byte) (s : Span) : Prop where
  suffix : s.q <:+ line
  split : s.q = s.text ++ s.eq
  plain : ∀ b ∈ s.text, plain b = true
  maximal : ∀ b ∈ s.eq.head?, Sh.plain b = false

theorem IsWord.length {line : List Byte} (h : IsWord line s) :
    s.q.length = s.text.length + s.eq.length ∧ s.q.length ≤ line.length :=
  ⟨by rw [← List.length_append, ← h.split], h.suffix.length_le⟩

theorem IsWord.suffix_eq {line : List Byte} (h : IsWord line s) : s.eq <:+ line :=
  List.IsSuffix.trans ⟨s.text, h.split.symm⟩ h.suffix

theorem isWord_dropWhile {q line : List Byte} (hq : q <:+ line) :
    IsWord line ⟨q, q.dropWhile plain⟩ := by
  have hsplit := List.takeWhile_append_dropWhile (p := plain) (l := q)
  have hlen := congrArg List.length hsplit
  rw [List.length_append] at hlen
  have htext : Span.text ⟨q, q.dropWhile plain⟩ = q.takeWhile plain := by
    have htake : (q.takeWhile plain ++ q.dropWhile plain).take
        (q.length - (q.dropWhile plain).length) = q.takeWhile plain :=
      List.take_left' (by omega)
    rwa [hsplit] at htake
  refine ⟨hq, ?_, ?_, fun b hb => ?_⟩
  · rw [htext, hsplit]
  · rw [htext]
    exact fun b hb => List.mem_takeWhile_imp hb
  · have hnot := List.head?_dropWhile_not plain q
    rw [Option.mem_def.mp hb] at hnot
    exact hnot

theorem isWord_of_mem (ht : t ∈ tokens l) (hw : t.kind = .word) : IsWord l t.span := by
  fun_induction tokens l with
  | case1 l eq h => cases ht
  | case2 l k eq h ih =>
    cases hl : l.dropWhile white with
    | nil => rw [hl] at h; cases h
    | cons b r =>
      obtain ⟨k', eq', hscan, hsuf, hb⟩ := scan_cons (l := r) (white_of_dropWhile hl)
      have hl' : b :: r <:+ l := hl ▸ List.dropWhile_suffix white
      rw [hl, hscan] at h
      cases h
      rcases List.mem_cons.mp ht with rfl | ht
      · obtain ⟨-, hk⟩ | ⟨-, -, heq⟩ := hb
        · exact absurd hw hk
        · rw [heq, ← hl]
          exact isWord_dropWhile (List.dropWhile_suffix white)
      · have hword := ih ht
        exact { hword with suffix := hword.suffix.trans (hsuf.trans ((List.suffix_cons b r).trans hl')) }

theorem getElem?_of_suffix {l l' : List Byte} (h : l <:+ l') (i : Nat) :
    l'[l'.length - l.length + i]? = l[i]? := by
  obtain ⟨pre, rfl⟩ := h
  rw [List.length_append, Nat.add_sub_cancel, List.getElem?_append_right (Nat.le_add_right _ _),
    Nat.add_sub_cancel_left]

/-- The strings of words that end at words' ends are the words. -/
theorem cstring_of_words {line : List Byte} {spans : List Span} (h0 : 0#8 ∉ line)
    (hspans : ∀ s ∈ spans, IsWord line s) (hs : s ∈ spans) :
    cstring (spans.foldl (fun buf s => buf.set (line.length - s.eq.length) 0#8) (line ++ [0#8]))
      (line.length - s.q.length) = s.text := by
  have hword := hspans s hs
  have ⟨hsum, hle⟩ := hword.length
  have hpre : s.text ++ [0#8] <+: (spans.foldl (fun buf s => buf.set (line.length - s.eq.length) 0#8)
      (line ++ [0#8])).drop (line.length - s.q.length) := by
    refine List.prefix_iff_getElem?.mpr fun i hi => ?_
    rw [List.getElem?_drop, getElem?_terminated]
    have hi : i < s.text.length + 1 := by simpa using hi
    by_cases hlt : i < s.text.length
    · have hget : (line ++ [0#8])[line.length - s.q.length + i]? = some s.text[i] := by
        rw [List.getElem?_append_left (by omega), getElem?_of_suffix hword.suffix, hword.split,
          List.getElem?_append_left hlt, List.getElem?_eq_getElem hlt]
      rw [if_neg, hget, List.getElem_append_left hlt]
      rintro ⟨s', hs', hend⟩
      -- a string would end at a plain character
      have hword' := hspans s' hs'
      have hhead := getElem?_of_suffix hword'.suffix_eq 0
      rw [Nat.add_zero, hend, ← List.head?_eq_getElem?] at hhead
      rw [List.getElem?_append_left (by omega), hhead] at hget
      have hplain := hword'.maximal _ hget
      rw [hword.plain _ (List.getElem_mem hlt)] at hplain
      cases hplain
    · obtain rfl : i = s.text.length := by omega
      rw [if_pos ⟨s, hs, by omega⟩, List.getElem?_eq_getElem (by simp; omega)]
      simp
  obtain ⟨r, hr⟩ := hpre
  rw [cstring, ← hr, List.append_assoc, List.takeWhile_append_of_pos]
  · simp
  · intro b hb
    have : b ∈ line := hword.suffix.subset (hword.split ▸ List.mem_append_left _ hb)
    simpa using ne_of_mem_of_not_mem this h0

theorem mem_spans_redirects (h : s ∈ (cmd.redirects rs).spans) :
    s ∈ cmd.spans ∨ ∃ r ∈ rs, r.2.span = s := by
  induction rs generalizing cmd with
  | nil => exact .inl h
  | cons r rs ih =>
    rcases ih h with h | ⟨r', hr', hs⟩
    · have hsub : (cmd.redirect r.2.span r.1.kind).spans ⊆ cmd.spans ++ [r.2.span] := by
        cases r.1.kind <;> simp [Cmd.redirect, Cmd.spans]
      rcases List.mem_append.mp (hsub h) with h | h
      · exact .inl h
      · exact .inr ⟨r, List.mem_cons_self, (List.mem_singleton.mp h).symm⟩
    · exact .inr ⟨r', List.mem_cons_of_mem _ hr', hs⟩

theorem mem_spell {r : Token × Token} (hr : r ∈ rs) : r.2 ∈ spell rs :=
  List.mem_flatMap.mpr ⟨r, hr, by simp⟩

theorem spans_backs (n : Nat) : (Cmd.back^[n] cmd).spans = cmd.spans := by
  induction n generalizing cmd with
  | zero => rfl
  | succ n ih => exact ih

/-- The strings of a command are words of its derivation. -/
theorem Derives.span_mem {nt : Nonterm} (h : Derives nt ts cmd) (hs : s ∈ cmd.spans) :
    ∃ t ∈ ts, t.kind = .word ∧ t.span = s := by
  induction h with
  | @simple rs args hrs hargs =>
    have hall : ∀ a ∈ args, ∀ t ∈ a.1 :: spell a.2, t ∈ spell rs ++ spellArgs args := fun a ha t ht =>
      List.mem_append_right _ (List.mem_flatMap.mpr ⟨a, ha, ht⟩)
    rcases mem_spans_redirects hs with hs | ⟨r, hr, hs⟩
    · obtain ⟨a, ha, rfl⟩ := List.mem_map.mp hs
      exact ⟨a.1, hall a ha a.1 List.mem_cons_self, (hargs a ha).1, rfl⟩
    · rcases List.mem_append.mp hr with hr | hr
      · exact ⟨r.2, List.mem_append_left _ (mem_spell hr), (hrs r hr).2, hs⟩
      · obtain ⟨a, ha, hr⟩ := List.mem_flatMap.mp hr
        exact ⟨r.2, hall a ha r.2 (List.mem_cons_of_mem _ (mem_spell hr)), ((hargs a ha).2 r hr).2, hs⟩
  | block hl hline hr hrs ih =>
    rcases mem_spans_redirects hs with hs | ⟨r, hr, hs⟩
    · obtain ⟨t, ht, hword⟩ := ih hs
      exact ⟨t, by simp [ht], hword⟩
    · exact ⟨r.2, by simp [mem_spell hr], (hrs r hr).2, hs⟩
  | one h ih => exact ih hs
  | pipe hleft ht hright ihl ihr =>
    rcases List.mem_append.mp hs with hs | hs
    · obtain ⟨t, ht, hword⟩ := ihl hs
      exact ⟨t, by simp [ht], hword⟩
    · obtain ⟨t, ht, hword⟩ := ihr hs
      exact ⟨t, by simp [ht], hword⟩
  | last h hamps ih =>
    obtain ⟨t, ht, hword⟩ := ih (by rwa [spans_backs] at hs)
    exact ⟨t, by simp [ht], hword⟩
  | list hleft hamps ht hright ihl ihr =>
    rw [Cmd.spans, spans_backs] at hs
    rcases List.mem_append.mp hs with hs | hs
    · obtain ⟨t, ht, hword⟩ := ihl hs
      exact ⟨t, by simp [ht], hword⟩
    · obtain ⟨t, ht, hword⟩ := ihr hs
      exact ⟨t, by simp [ht], hword⟩

/-! ## Parsing a line -/

theorem length_tokens (l : Ptr) : (tokens l).length ≤ l.length := by
  fun_induction tokens l with
  | case1 l eq h => exact Nat.zero_le _
  | case2 l t eq h ih => exact Nat.succ_le_of_lt (ih.trans_lt (length_scan h))

theorem takes_finish {α : Type} {a : α} {Q : α → List Token → Prop} {F : Stop → Prop}
    (hend : ts = [] → Q a []) (hmore : ts ≠ [] → F (.panic "syntax")) :
    Takes (do
      let _ ← peek []
      if (← get) ≠ [] then throw (.panic "syntax") else pure a) Q F ts := fun l hl => by
  simp only [peek, wp_bind, wp_get, wp_set, wp_pure, wp_ite, wp_throw]
  cases hw : l.dropWhile white with
  | nil =>
    rw [tokens_of_none (by rw [hw]; rfl)] at hl
    rw [if_neg (not_not.mpr rfl), tokens_of_none rfl]
    exact hend hl.symm
  | cons b r =>
    obtain ⟨t, eq, hscan, -⟩ := scan_cons (l := r) (white_of_dropWhile hw)
    rw [tokens_of_some (by rwa [hw])] at hl
    rw [if_pos (List.cons_ne_nil b r)]
    exact hmore (by rw [← hl]; exact List.cons_ne_nil _ _)

/-- `parsecmd` returns a command exactly when the tokens of the line derive it, and else stops
with a message.  Every string of the command is then the text of a word of the line. -/
theorem parsecmd_derives {line : List Byte} (h0 : 0#8 ∉ line) :
    parsecmd line ≠ .error .endless ∧
    (∀ cmd, (∃ buf, parsecmd line = .ok (cmd, buf)) ↔ Derives .line (tokens line) cmd) ∧
    ∀ cmd buf, parsecmd line = .ok (cmd, buf) → ∀ s ∈ cmd.spans,
      (∃ t ∈ tokens line, t.kind = .word ∧ t.span = s) ∧
      cstring buf (line.length - s.q.length) = s.text := by
  have hlen : (tokens line).length < line.length + 1 := Nat.lt_succ_of_le (length_tokens line)
  have hsound : Takes (parseall line) (fun r _ => Derives .line (tokens line) r.1 ∧
      r.2 = nulterminate line.length r.1 (line ++ [0#8])) (· ≠ .endless) (tokens line) := by
    refine .bind (sound_line hlen) ?_
    rintro cmd ts ⟨ts0, hts, hder⟩
    refine takes_finish (fun hnil => ⟨?_, rfl⟩) fun _ => by decide
    rwa [hts, hnil, List.append_nil]
  have hok {cmd : Cmd} {buf : List Byte} (h : parsecmd line = .ok (cmd, buf)) :
      Derives .line (tokens line) cmd ∧ buf = nulterminate line.length cmd (line ++ [0#8]) := by
    rw [parsecmd] at h
    cases hrun : parseall line line with
    | error e => rw [hrun] at h; cases h
    | ok r =>
      obtain ⟨⟨cmd', buf'⟩, l'⟩ := r
      rw [hrun] at h
      cases h
      have hres := wp_ok (hsound line rfl) hrun
      exact hres
  refine ⟨fun h => ?_, fun cmd => ⟨fun ⟨buf, h⟩ => (hok h).1, fun h => ?_⟩, fun cmd buf h s hs => ?_⟩
  · rw [parsecmd] at h
    cases hrun : parseall line line with
    | error e =>
      rw [hrun] at h
      cases h
      exact wp_error (hsound line rfl) hrun rfl
    | ok r => rw [hrun] at h; cases h
  · rw [← List.append_nil (tokens line)] at hlen
    have hreads : Reads (Nonterm.line.parser (line.length + 1) (line.length + 1)) (tokens line) cmd [] :=
      h.reads (by rintro t ⟨⟩) hlen hlen.le
    have hall : Takes (parseall line) (fun r _ => r.1 = cmd) (fun _ => False) (tokens line) := by
      rw [← List.append_nil (tokens line)]
      exact hreads.bind (takes_finish (fun _ => rfl) fun hne => hne rfl)
    obtain ⟨⟨cmd', buf⟩, l', hrun, rfl⟩ := wp_total (hall line rfl)
    exact ⟨buf, by rw [parsecmd, hrun]; rfl⟩
  · obtain ⟨hder, rfl⟩ := hok h
    refine ⟨hder.span_mem hs, ?_⟩
    rw [nulterminate_eq]
    refine cstring_of_words h0 (fun s hs => ?_) hs
    obtain ⟨t, ht, hword, rfl⟩ := hder.span_mem hs
    exact isWord_of_mem ht hword

theorem parsecmd_derives_redir : ∃ buf, parsecmd [chr 'a', chr '<', chr 'b'] = .ok
    (.redir (.exec [⟨[chr 'a', chr '<', chr 'b'], [chr '<', chr 'b']⟩]) ⟨[chr 'b'], []⟩ oRdonly 0, buf) := by
  let arg : Arg := (⟨.word, [chr 'a', chr '<', chr 'b'], [chr '<', chr 'b']⟩,
    [(⟨.lt, [chr '<', chr 'b'], [chr 'b']⟩, ⟨.word, [chr 'b'], []⟩)])
  have htokens : tokens [chr 'a', chr '<', chr 'b'] = spell [] ++ spellArgs [arg] ++ [] := by
    rw [tokens_of_some rfl, tokens_of_some rfl, tokens_of_some rfl, tokens_of_none rfl]
    rfl
  refine ((parsecmd_derives (by decide)).2.1 _).mpr ?_
  rw [htokens]
  refine .last (.one (.simple (List.forall_mem_nil _) ?_ (by decide))) (List.forall_mem_nil _)
  simp [arg, IsArg, IsRedir]

end Xv6.Sh
