import CS450.Lib.Outcome

/-!
# The parser of the xv6 shell

`gettoken`, `peek` and the parsing functions of `sh.c`. A pointer into the line is an index; `es` is
the length of the line, where the terminating NUL is. The line itself has no NUL.

`parseexec` fills a node that `parseredirs` may have wrapped in redirections: `Cmd.addArg` adds a
word to the node at the bottom of the redirections. The parsing functions call each other and run on
fuel; `parsecmd` gives more than the line can use up. `panic` prints a message and ends the process.

The tokens of a line and the grammar over them, with the tree of each derivation, are definitions of
their own. Here the scanner is compared with the tokens.

## Main results

* `token_spec`, `gettoken_spec`, `peek_spec`: the scanner follows the tokens
-/

namespace Xv6.Sh

open Except

def MAXARGS : ℕ := 10

/-- The text from `q` up to `eq`, as the parser records it. -/
structure Span where
  q : ℕ
  eq : ℕ
  deriving DecidableEq, Repr

def O_RDONLY : ℕ := 0x000

def O_WRONLY : ℕ := 0x001

def O_CREATE : ℕ := 0x200

/-- `struct cmd` -/
inductive Cmd
  | exec (argv : List Span)
  | redir (cmd : Cmd) (file : Span) (mode fd : ℕ)
  | pipe (left right : Cmd)
  | list (left right : Cmd)
  | back (cmd : Cmd)
  deriving DecidableEq, Repr

/-- The calls of `panic`. -/
inductive Panic
  /-- `missing file for redirection` -/
  | missingFile
  /-- `parseblock` -/
  | parseblock
  /-- `syntax - missing )` -/
  | missingParen
  /-- `syntax` -/
  | syntaxError
  /-- `too many args` -/
  | tooManyArgs
  /-- `syntax`, after the text that is left over -/
  | leftovers (s : ℕ)
  /-- The model ran out of fuel. -/
  | fuel
  deriving DecidableEq, Repr

/-! ### The scanner -/

def isWhitespace (c : Char) : Bool := [' ', '\t', '\r', '\n', '\x0b'].contains c

def isSymbol (c : Char) : Bool := ['<', '|', '>', '&', ';', '(', ')'].contains c

def isWordChar (c : Char) : Bool := !isWhitespace c && !isSymbol c

/-- What `gettoken` returns: `0`, `'<'`, `'>'`, `'+'`, `'|'`, `'&'`, `';'`, `'('`, `')'` or
`'a'`. -/
inductive Tok
  | eof
  | lt
  | gt
  | append
  | bar
  | amp
  | semi
  | lparen
  | rparen
  | word
  deriving DecidableEq, Repr

section Parser

variable (line : List Char)

/-- `while (s < es && go(*s)) s++` -/
def scan (go : Char → Bool) (s : ℕ) : ℕ := s + ((line.drop s).takeWhile go).length

/-- The token at `s` and where it ends, after whitespace. -/
def token (s : ℕ) : Tok × ℕ :=
  match (line)[s]? with
  | none => (.eof, s)
  | some c =>
    if c = '|' then (.bar, s + 1)
    else if c = '(' then (.lparen, s + 1)
    else if c = ')' then (.rparen, s + 1)
    else if c = ';' then (.semi, s + 1)
    else if c = '&' then (.amp, s + 1)
    else if c = '<' then (.lt, s + 1)
    else if c = '>' then if (line)[s + 1]? = some '>' then (.append, s + 2) else (.gt, s + 1)
    else (.word, scan line isWordChar s)

/-- The next token, its text, and where to go on. -/
def gettoken (s : ℕ) : Tok × Span × ℕ :=
  let q := scan line isWhitespace s
  let (ret, eq) := token line q
  (ret, ⟨q, eq⟩, scan line isWhitespace eq)

/-- Advance over whitespace and say whether the next character is one of `toks`. -/
def peek (s : ℕ) (toks : List Char) : Bool × ℕ :=
  let s := scan line isWhitespace s
  ((line)[s]?.any toks.contains, s)

/-! ### The parser -/

/-- `cmd->argv[argc] = q`, where `cmd` is the command below the redirections. -/
def Cmd.addArg : Cmd → Span → Cmd
  | .exec argv, w => .exec (argv ++ [w])
  | .redir cmd file mode fd, w => .redir (cmd.addArg w) file mode fd
  | cmd, _ => cmd

/-- The loop of `parseredirs`. -/
def parseredirsLoop : ℕ → Cmd → ℕ → Except Panic (Cmd × ℕ)
  | 0, _, _ => .error .fuel
  | n + 1, cmd, s =>
    let (more, s) := peek line s ['<', '>']
    if more then
      let (tok, _, s) := gettoken line s
      let (tok', file, s) := gettoken line s
      if tok' ≠ .word then .error .missingFile
      else
        match tok with
        | .lt => parseredirsLoop n (.redir cmd file O_RDONLY 0) s
        | .gt => parseredirsLoop n (.redir cmd file (O_WRONLY ||| O_CREATE) 1) s
        | .append => parseredirsLoop n (.redir cmd file (O_WRONLY ||| O_CREATE) 1) s
        | _ => parseredirsLoop n cmd s
    else .ok (cmd, s)

def parseredirs (cmd : Cmd) (s : ℕ) : Except Panic (Cmd × ℕ) :=
  parseredirsLoop line (line.length + 1) cmd s

/-- The loop of `parseexec`, which ends after `MAXARGS` words. -/
def parseexecLoop : ℕ → ℕ → Cmd → ℕ → Except Panic (Cmd × ℕ)
  | 0, _, _, _ => .error .fuel
  | n + 1, argc, ret, s =>
    let (stop, s) := peek line s ['|', ')', '&', ';']
    if stop then .ok (ret, s)
    else
      let (tok, w, s) := gettoken line s
      if tok = .eof then .ok (ret, s)
      else if tok ≠ .word then .error .syntaxError
      else if MAXARGS ≤ argc + 1 then .error .tooManyArgs
      else do
        let (ret, s) ← parseredirs line (ret.addArg w) s
        parseexecLoop n (argc + 1) ret s

/-- The loop of `parseline` over `&`. -/
def backLoop : ℕ → Cmd → ℕ → Except Panic (Cmd × ℕ)
  | 0, _, _ => .error .fuel
  | n + 1, cmd, s =>
    let (more, s) := peek line s ['&']
    if more then
      let (_, _, s) := gettoken line s
      backLoop n (.back cmd) s
    else .ok (cmd, s)

mutual

def parseline : ℕ → ℕ → Except Panic (Cmd × ℕ)
  | 0, _ => .error .fuel
  | n + 1, s => do
    let (cmd, s) ← parsepipe n s
    let (cmd, s) ← backLoop line (line.length + 1) cmd s
    let (more, s) := peek line s [';']
    if more then
      let (_, _, s) := gettoken line s
      let (right, s) ← parseline n s
      return (.list cmd right, s)
    else return (cmd, s)

def parsepipe : ℕ → ℕ → Except Panic (Cmd × ℕ)
  | 0, _ => .error .fuel
  | n + 1, s => do
    let (cmd, s) ← parseexec n s
    let (more, s) := peek line s ['|']
    if more then
      let (_, _, s) := gettoken line s
      let (right, s) ← parsepipe n s
      return (.pipe cmd right, s)
    else return (cmd, s)

def parseblock : ℕ → ℕ → Except Panic (Cmd × ℕ)
  | 0, _ => .error .fuel
  | n + 1, s =>
    let (opened, s) := peek line s ['(']
    if opened = false then .error .parseblock
    else do
      let (_, _, s) := gettoken line s
      let (cmd, s) ← parseline n s
      let (closed, s) := peek line s [')']
      if closed = false then .error .missingParen
      else
        let (_, _, s) := gettoken line s
        parseredirs line cmd s

def parseexec : ℕ → ℕ → Except Panic (Cmd × ℕ)
  | 0, _ => .error .fuel
  | n + 1, s =>
    let (block, s) := peek line s ['(']
    if block then parseblock n s
    else do
      let (ret, s) ← parseredirs line (.exec []) s
      parseexecLoop line MAXARGS 0 ret s

end

/-- `parsecmd` up to the call of `nulterminate`. -/
def parse : Except Panic Cmd := do
  let (cmd, s) ← parseline line (4 * line.length + 4) 0
  let (_, s) := peek line s []
  if s ≠ line.length then .error (.leftovers s) else return cmd

end Parser

/-- `nulterminate`: the buffer with a NUL behind every word. -/
def nulterminate : Cmd → List Char → List Char
  | .exec argv, buf => argv.foldl (fun buf w => buf.set w.eq '\x00') buf
  | .redir cmd file _ _, buf => (nulterminate cmd buf).set file.eq '\x00'
  | .pipe left right, buf => nulterminate right (nulterminate left buf)
  | .list left right, buf => nulterminate right (nulterminate left buf)
  | .back cmd, buf => nulterminate cmd buf

/-- `parsecmd`: the tree, and the buffer in which the line was, with its terminating NUL. -/
def parsecmd (line : List Char) : Except Panic (Cmd × List Char) := do
  let cmd ← parse line
  return (cmd, nulterminate cmd (line ++ ['\x00']))

example : parsecmd "a <b | (c &; d) > e\n".toList =
    .ok (.pipe (.redir (.exec [⟨0, 1⟩]) ⟨3, 4⟩ 0 0)
      (.redir (.list (.back (.exec [⟨8, 9⟩])) (.exec [⟨13, 14⟩])) ⟨18, 19⟩ 0x201 1),
      "a\x00<b\x00| (c\x00&; d\x00 > e\x00\x00".toList) := by
  decide +kernel

/-! ### Tokens and the grammar -/

/-- The operators, and the words with their texts. -/
inductive Token
  | lt
  | gt
  | append
  | bar
  | amp
  | semi
  | lparen
  | rparen
  | word (w : Span)
  deriving DecidableEq, Repr

/-- The operator of one character. -/
def Token.ofChar (c : Char) : Option Token :=
  if c = '|' then some .bar
  else if c = '(' then some .lparen
  else if c = ')' then some .rparen
  else if c = ';' then some .semi
  else if c = '&' then some .amp
  else if c = '<' then some .lt
  else if c = '>' then some .gt
  else none

/-- **The tokens** of a text that begins at `pos`: the operators, and the maximal runs of other
characters that are not whitespace. -/
def lex (pos : ℕ) : List Char → List Token
  | [] => []
  | '>' :: '>' :: cs => .append :: lex (pos + 2) cs
  | c :: cs =>
    if isWhitespace c then lex (pos + 1) cs
    else
      match Token.ofChar c with
      | some t => t :: lex (pos + 1) cs
      | none =>
        .word ⟨pos, pos + 1 + (cs.takeWhile isWordChar).length⟩ ::
          lex (pos + 1 + (cs.takeWhile isWordChar).length) (cs.dropWhile isWordChar)
termination_by cs => cs.length
decreasing_by
  all_goals simp only [List.length_cons]
  · omega
  · omega
  · omega
  · have := (List.dropWhile_sublist (l := cs) isWordChar).length_le
    omega

/-- A redirection: `<`, `>` or `>>`, and a file. -/
inductive Redir
  | input (file : Span)
  | output (file : Span)
  | append (file : Span)
  deriving DecidableEq, Repr

def Redir.tokens : Redir → List Token
  | .input file => [.lt, .word file]
  | .output file => [.gt, .word file]
  | .append file => [.append, .word file]

/-- The redirection around a tree. -/
def Redir.wrap (cmd : Cmd) : Redir → Cmd
  | .input file => .redir cmd file O_RDONLY 0
  | .output file => .redir cmd file (O_WRONLY ||| O_CREATE) 1
  | .append file => .redir cmd file (O_WRONLY ||| O_CREATE) 1

/-- Redirections around a tree, with the last one outermost. -/
def Cmd.redirs (cmd : Cmd) (rs : List Redir) : Cmd := rs.foldl Redir.wrap cmd

def Cmd.backs (cmd : Cmd) : ℕ → Cmd
  | 0 => cmd
  | k + 1 => .back (cmd.backs k)

/-- The nonterminals. -/
inductive Part
  | line
  | pipe
  | exec
  deriving DecidableEq, Repr

/-- **The grammar**, with the tree of each derivation. -/
inductive Derives : Part → List Token → Cmd → Prop
  /-- `line ::= pipe '&'*` -/
  | line {ts : List Token} {cmd : Cmd} (k : ℕ) (h : Derives .pipe ts cmd) :
      Derives .line (ts ++ List.replicate k .amp) (cmd.backs k)
  /-- `line ::= pipe '&'* ';' line` -/
  | list {ts ts' : List Token} {cmd right : Cmd} (k : ℕ) (h : Derives .pipe ts cmd)
      (h' : Derives .line ts' right) :
      Derives .line (ts ++ List.replicate k .amp ++ .semi :: ts') (.list (cmd.backs k) right)
  /-- `pipe ::= exec` -/
  | pipe {ts : List Token} {cmd : Cmd} (h : Derives .exec ts cmd) : Derives .pipe ts cmd
  /-- `pipe ::= exec '|' pipe` -/
  | pipes {ts ts' : List Token} {cmd right : Cmd} (h : Derives .exec ts cmd)
      (h' : Derives .pipe ts' right) : Derives .pipe (ts ++ .bar :: ts') (.pipe cmd right)
  /-- `exec ::= '(' line ')' redir*` -/
  | block {ts : List Token} {cmd : Cmd} (rs : List Redir) (h : Derives .line ts cmd) :
      Derives .exec (.lparen :: (ts ++ .rparen :: rs.flatMap Redir.tokens)) (cmd.redirs rs)
  /-- `exec ::= redir* (word redir*)*`, with at most 9 words -/
  | simple (rs : List Redir) (ws : List (Span × List Redir)) (h : ws.length ≤ 9) :
      Derives .exec
        (rs.flatMap Redir.tokens ++ ws.flatMap fun w => .word w.1 :: w.2.flatMap Redir.tokens)
        ((Cmd.exec (ws.map Prod.fst)).redirs (rs ++ ws.flatMap Prod.snd))

/-! ### The scanner follows the tokens -/

/-- What `gettoken` returns for a token. -/
def Token.tok : Token → Tok
  | .lt => .lt
  | .gt => .gt
  | .append => .append
  | .bar => .bar
  | .amp => .amp
  | .semi => .semi
  | .lparen => .lparen
  | .rparen => .rparen
  | .word _ => .word

/-- The first character of an operator. -/
def Token.char : Token → Option Char
  | .lt => some '<'
  | .gt => some '>'
  | .append => some '>'
  | .bar => some '|'
  | .amp => some '&'
  | .semi => some ';'
  | .lparen => some '('
  | .rparen => some ')'
  | .word _ => none

/-- The tokens begin with an operator whose first character is one of `toks`. -/
def starts (toks : List Char) (ts : List Token) : Bool :=
  ts.head?.any fun t => t.char.any toks.contains

section Scanner

variable {line : List Char} {s : ℕ} {ts : List Token}

/-- The pointer is in the line, and these tokens follow. -/
structure At (line : List Char) (s : ℕ) (ts : List Token) : Prop where
  le : s ≤ line.length
  lex : lex s (line.drop s) = ts

variable {c : Char} {cs : List Char} {q : ℕ} {t : Token}

theorem lex_of_whitespace {pos : ℕ} (h : isWhitespace c = true) :
    lex pos (c :: cs) = lex (pos + 1) cs := by
  have hne : c ≠ '>' := by
    rintro rfl
    exact absurd h (by decide)
  rw [lex, if_pos h]
  exact fun _ hc => absurd hc hne

/-- Whitespace in front of the tokens does not matter. -/
theorem lex_skip {pos : ℕ} :
    lex (pos + (cs.takeWhile isWhitespace).length) (cs.drop (cs.takeWhile isWhitespace).length) =
      lex pos cs := by
  induction cs generalizing pos with
  | nil => rfl
  | cons c cs ih =>
    cases hc : isWhitespace c with
    | true =>
      rw [List.takeWhile_cons_of_pos hc, List.length_cons, List.drop_succ_cons,
        lex_of_whitespace hc, ← ih, Nat.add_right_comm, Nat.add_assoc]
    | false => rw [List.takeWhile_cons_of_neg (by simp [hc])]; rfl

theorem drop_scan {go : Char → Bool} :
    line.drop (scan line go s) = (line.drop s).dropWhile go := by
  rw [scan, ← List.drop_drop]
  nth_rewrite 2 [← List.takeWhile_append_dropWhile (p := go) (l := line.drop s)]
  exact List.drop_left

theorem scan_le {go : Char → Bool} (h : s ≤ line.length) : scan line go s ≤ line.length := by
  have := (List.takeWhile_sublist (l := line.drop s) go).length_le
  rw [List.length_drop] at this
  unfold scan
  omega

theorem At.skip (h : At line s ts) : At line (scan line isWhitespace s) ts := by
  refine ⟨scan_le h.le, ?_⟩
  rw [scan, ← List.drop_drop, lex_skip, h.lex]

/-- After whitespace comes something else, or the end. -/
theorem skip_head
    (h : line.drop (scan line isWhitespace s) = c :: cs) : isWhitespace c = false := by
  have := List.head?_dropWhile_not isWhitespace (line.drop s)
  rw [← drop_scan, h] at this
  simpa using this

theorem drop_eq_cons (h : line.drop q = c :: cs) :
    (line)[q]? = some c ∧ line.drop (q + 1) = cs ∧ q < line.length := by
  have hlt : q < line.length := by
    by_contra hle
    rw [List.drop_eq_nil_of_le (by omega)] at h
    cases h
  refine ⟨?_, ?_, hlt⟩
  · rw [← List.head?_drop, h]
    rfl
  · rw [← List.tail_drop, h]
    rfl

/-- The operator of a character is not `>>` and not a word. -/
theorem tok_ofChar (h : Token.ofChar c = some t) : t.char = some c := by
  unfold Token.ofChar at h
  split_ifs at h <;> cases h <;> simp [Token.char, *]

theorem ofChar_eq_none_iff : Token.ofChar c = none ↔ isSymbol c = false := by
  constructor
  · intro h
    unfold Token.ofChar at h
    split_ifs at h
    simp [isSymbol, *]
  · intro h
    simp only [isSymbol, List.contains_eq_mem, decide_eq_false_iff_not, List.mem_cons,
      List.not_mem_nil, or_false, not_or] at h
    simp [Token.ofChar, h]

theorem token_of_ofChar (hq : (line)[q]? = some c)
    (ht : Token.ofChar c = some t) (hc : c ≠ '>') : token line q = (t.tok, q + 1) := by
  unfold Token.ofChar at ht
  unfold token
  simp only [hq]
  split_ifs at ht ⊢ <;> cases ht <;> rfl

theorem token_of_word (hq : (line)[q]? = some c) (hc : isSymbol c = false) :
    token line q = (.word, scan line isWordChar q) := by
  simp only [isSymbol, List.contains_eq_mem, decide_eq_false_iff_not, List.mem_cons,
    List.not_mem_nil, or_false, not_or] at hc
  simp [token, hq, hc]

/-- **The token** behind whitespace is the next one. -/
theorem token_spec (hq : line.drop q = c :: cs) (hc : isWhitespace c = false) :
    ∃ t e, lex q (line.drop q) = t :: lex e (line.drop e) ∧ token line q = (t.tok, e) ∧
      e ≤ line.length ∧ (∀ w, t = .word w → w = ⟨q, e⟩) ∧
      t.char = if isSymbol c then some c else none := by
  obtain ⟨hget, hdrop, hlt⟩ := drop_eq_cons hq
  rw [hq]
  by_cases happend : c = '>' ∧ cs.head? = some '>'
  · -- `>>`
    obtain ⟨rfl, hhead⟩ := happend
    obtain ⟨cs, rfl⟩ : ∃ cs', cs = '>' :: cs' := by
      cases cs with
      | nil => cases hhead
      | cons d cs => exact ⟨cs, by rw [Option.some.inj hhead]⟩
    obtain ⟨hget', hdrop', hlt'⟩ := drop_eq_cons hdrop
    refine ⟨.append, q + 2, ?_, ?_, hlt', nofun, rfl⟩
    · rw [lex, hdrop']
    · simp [token, hget, hget', Token.tok]
  · -- The first two patterns of `lex` do not apply.
    have hlex : lex q (c :: cs) = match Token.ofChar c with
        | some t => t :: lex (q + 1) cs
        | none => .word ⟨q, q + 1 + (cs.takeWhile isWordChar).length⟩ ::
            lex (q + 1 + (cs.takeWhile isWordChar).length) (cs.dropWhile isWordChar) := by
      rw [lex, hc]
      · rfl
      · rintro cs' rfl rfl
        exact happend ⟨rfl, rfl⟩
    rw [hlex]
    cases hof : Token.ofChar c with
    | some t =>
      have hnot : ∀ w, t = .word w → w = ⟨q, q + 1⟩ := by
        rintro w rfl
        cases tok_ofChar hof
      have hsym : isSymbol c = true := by
        by_contra h
        rw [ofChar_eq_none_iff.mpr (by simpa using h)] at hof
        cases hof
      refine ⟨t, q + 1, by rw [hdrop], ?_, hlt, hnot, by rw [if_pos hsym, tok_ofChar hof]⟩
      by_cases hgt : c = '>'
      · subst hgt
        obtain rfl : Token.gt = t := Option.some.inj hof
        have hnext : (line)[q + 1]? ≠ some '>' := by
          rw [← List.head?_drop, hdrop]
          exact fun h => happend ⟨rfl, h⟩
        simp [token, hget, hnext, Token.tok]
      · exact token_of_ofChar hget hof hgt
    | none =>
      have hsym := ofChar_eq_none_iff.mp hof
      have hword : isWordChar c = true := by simp [isWordChar, hc, hsym]
      have hscan : scan line isWordChar q = q + 1 + (cs.takeWhile isWordChar).length := by
        rw [scan, hq, List.takeWhile_cons_of_pos hword, List.length_cons]
        omega
      refine ⟨.word ⟨q, q + 1 + (cs.takeWhile isWordChar).length⟩, scan line isWordChar q, ?_,
        token_of_word hget hsym, scan_le hlt.le, ?_, by simp [hsym, Token.char]⟩
      · rw [drop_scan, hq, List.dropWhile_cons_of_pos hword, hscan]
      · rintro w hw
        rw [← Token.word.inj hw, hscan]

/-- **`gettoken`** returns the next token. -/
theorem gettoken_spec (h : At line s (t :: ts)) :
    ∃ w s', gettoken line s = (t.tok, w, s') ∧ At line s' ts ∧ ∀ w', t = .word w' → w' = w := by
  obtain ⟨hle, hlex⟩ := h.skip
  cases hq : line.drop (scan line isWhitespace s) with
  | nil =>
    rw [hq, lex] at hlex
    cases hlex
  | cons c cs =>
    obtain ⟨t', e, hlex', htoken, he, hword, -⟩ := token_spec hq (skip_head hq)
    rw [hlex'] at hlex
    obtain ⟨rfl, htail⟩ := List.cons.inj hlex
    refine ⟨⟨scan line isWhitespace s, e⟩, scan line isWhitespace e, ?_, At.skip ⟨he, htail⟩, hword⟩
    rw [gettoken, htoken]

theorem gettoken_word {w : Span} (h : At line s (.word w :: ts)) :
    ∃ s', gettoken line s = (.word, w, s') ∧ At line s' ts := by
  obtain ⟨w', s', hget, hat, hw⟩ := gettoken_spec h
  rw [hw w rfl]
  exact ⟨s', hget, hat⟩

theorem gettoken_eof (h : At line s []) : ∃ w s', gettoken line s = (.eof, w, s') ∧
    At line s' [] := by
  obtain ⟨hle, hlex⟩ := h.skip
  cases hq : line.drop (scan line isWhitespace s) with
  | nil =>
    have hnone : (line)[scan line isWhitespace s]? = none := by
      rw [← List.head?_drop, hq]
      rfl
    refine ⟨⟨scan line isWhitespace s, scan line isWhitespace s⟩, _, ?_, h.skip.skip⟩
    simp only [gettoken, token, hnone]
  | cons c cs =>
    obtain ⟨t', e, hlex', -⟩ := token_spec hq (skip_head hq)
    rw [hlex'] at hlex
    cases hlex

/-- **`peek`** looks at the next token. -/
theorem peek_spec (h : At line s ts) (toks : List Char) (htoks : toks.all isSymbol = true) :
    ∃ s', peek line s toks = (starts toks ts, s') ∧ At line s' ts ∧
      (s' = line.length ↔ ts = []) := by
  obtain ⟨hle, hlex⟩ := h.skip
  cases hq : line.drop (scan line isWhitespace s) with
  | nil =>
    rw [hq, lex] at hlex
    have hend : line.length ≤ scan line isWhitespace s := List.drop_eq_nil_iff.mp hq
    refine ⟨scan line isWhitespace s, ?_, h.skip, by simp [← hlex]; omega⟩
    rw [peek, ← List.head?_drop, hq, ← hlex]
    rfl
  | cons c cs =>
    obtain ⟨hget, -, hlt⟩ := drop_eq_cons hq
    obtain ⟨t, e, hlex', -, -, -, hchar⟩ := token_spec hq (skip_head hq)
    rw [hlex'] at hlex
    refine ⟨scan line isWhitespace s, ?_, h.skip, by simp [← hlex]; omega⟩
    rw [peek, hget, ← hlex, starts, List.head?_cons, Option.any_some, Option.any_some, hchar]
    cases hsym : isSymbol c with
    | true => rfl
    | false =>
      have hnot : c ∉ toks := fun hmem => by
        rw [List.all_eq_true.mp htoks c hmem] at hsym
        cases hsym
      simp [hnot]

end Scanner

end Xv6.Sh
