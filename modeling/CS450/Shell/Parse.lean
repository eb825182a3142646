import Mathlib.Tactic.Cases
import CS450.Lib.Outcome
import CS450.Lib.Split

/-!
# The parser of `hwsh`

`hwsh` parses a line in a forked child, with four functions that advance one pointer and share two
static variables: `invalid` and `expectingParallel`. A child starts with the shell's own copies of
both, which the shell never changes, so both are `0` when `parsecmd` starts.

A pointer `s` into the line is the list of the characters from `s` to the terminating NUL; `*s == 0`
is the empty list. The static variables are passed along as `Flags`. A `struct cmd *` that is
returned without having been set is `Cmd.unset`. The calls of `exit(-1)` are errors. The recursions
of `parseparallel` and `parseline` run on fuel; `parsecmd` gives more than the line can use up.

A line is read as segments between `;`, and a segment as commands between `&`. On lines without
`<`, `|`, `>` whose commands have at most nine words, `parsecmd_eq` says what the parser returns:
the tree of the line when no segment with an `&` starts or ends with a blank command, and an invalid
node otherwise.

## Main results

* `parseexec_append`: a command is read up to the next operator
* `parseparallel_expecting`, `parseparallel_group`: a segment is read up to the next `;`
* `parseline_spec`, `parsecmd_eq`: the result of parsing a plain line
* `parsecmd_cases`: the three ends of the parser on every line
-/

namespace Hwsh

/-- The most entries of `argv`, its terminating `NULL` included. -/
def MAXARGS : ℕ := 10

/-- A word of a command. -/
abbrev Word := List Char

/-- The trees `parsecmd` returns. -/
inductive Cmd where
  /-- Type `' '`: a command with its words. -/
  | exec (argv : List Word)
  /-- Type `';'`. -/
  | sequence (cmd next : Cmd)
  /-- Type `'&'`. -/
  | parallel (cmd next : Cmd)
  /-- Type `-1`: the node `parsecmd` returns for a line it rejects. -/
  | invalid (argv : List Word)
  /-- A pointer that was never set. -/
  | unset
  deriving DecidableEq, Repr

/-- The type field of a node; an unset pointer leads nowhere. -/
def Cmd.type : Cmd → Option ℤ
  | .exec _ => some 32
  | .sequence _ _ => some 59
  | .parallel _ _ => some 38
  | .invalid _ => some (-1)
  | .unset => none

/-- The ends of the parser other than a tree. -/
inductive ParseError where
  /-- The message is `syntax error`. -/
  | syntaxError
  /-- The message is `too many args`. -/
  | tooManyArgs
  /-- The message is `leftovers:`, with the text left over. -/
  | leftovers (s : List Char)
  /-- The model ran out of fuel. -/
  | fuel
  deriving DecidableEq, Repr

/-! ### Characters and tokens -/

/-- The characters of `whitespace`: blank, tab, carriage return, newline and vertical tab. -/
def isWhitespace (c : Char) : Bool :=
  [' ', '\t', '\r', '\n', '\x0b'].contains c

/-- The characters of `symbols`. -/
def isSymbol (c : Char) : Bool :=
  ['<', '|', '>', ';', '&'].contains c

/-- The characters a word goes on with. -/
def isWordChar (c : Char) : Bool :=
  !isWhitespace c && !isSymbol c

/-- Advance over whitespace. -/
def skip (s : List Char) : List Char :=
  s.dropWhile isWhitespace

/-- What `gettoken` returns: `0` at the end, the operator, or `'a'`. -/
inductive Token where
  | eof
  | op (c : Char)
  | word
  deriving DecidableEq, Repr

/-- The next token, its text from `q` to `eq`, and where to go on. -/
def gettoken (s : List Char) : Token × Word × List Char :=
  match skip s with
  | [] => (.eof, [], [])
  | c :: t =>
    if c = ';' ∨ c = '&' then (.op c, [c], skip t)
    else (.word, (c :: t).takeWhile isWordChar, skip ((c :: t).dropWhile isWordChar))

/-- Advance over whitespace and say whether the next character is one of `toks`. -/
def peek (s : List Char) (toks : List Char) : Bool × List Char :=
  (match skip s with
    | [] => false
    | c :: _ => toks.contains c, skip s)

/-! ### The parser -/

/-- The two static variables. -/
structure Flags where
  invalid : Bool
  expectingParallel : Bool
  deriving DecidableEq, Repr

/-- A parse gives a tree, the static variables and the pointer. -/
abbrev Parse := Except ParseError (Cmd × Flags × List Char)

/-- The loop of `parseexec`, with `n` entries of `argv` left. A word that takes the last one ends
the shell. -/
def parseexecLoop : ℕ → List Word → List Char → Except ParseError (List Word × List Char)
  | 0, _, _ => .error .tooManyArgs
  | n + 1, argv, s =>
    let (stop, s) := peek s [';', '&']
    if stop then .ok (argv, s)
    else
      let (tok, w, s) := gettoken s
      match tok with
      | .eof => .ok (argv, s)
      | .op _ => .error .syntaxError
      | .word => parseexecLoop n (argv ++ [w]) s

/-- Parse a command: its words up to the next operator. -/
def parseexec (s : List Char) : Except ParseError (List Word × List Char) :=
  parseexecLoop MAXARGS [] s

/-- Parse commands in parallel. -/
def parseparallel : ℕ → Flags → List Char → Parse
  | 0, _, _ => .error .fuel
  | n + 1, f, s =>
    if f.expectingParallel = true ∧ s = [] then .ok (.unset, ⟨true, false⟩, s)
    else do
      let (argv, s) ← parseexec s
      let (hasSymbol, s) := peek s ['&']
      if (!f.invalid && hasSymbol || f.expectingParallel) = true then
        if (hasSymbol || !f.expectingParallel) = true then
          let (_, _, s) := gettoken s
          let (atEnd, s) := peek s [';']
          if atEnd then .ok (.exec argv, ⟨true, false⟩, s)
          else do
            let (next, f, s) ← parseparallel n ⟨f.invalid, true⟩ s
            .ok (.parallel (.exec argv) next, f, s)
        else do
          let (next, f, s) ← parseparallel n ⟨f.invalid, false⟩ s
          .ok (.parallel (.exec argv) next, f, s)
      else .ok (.exec argv, f, s)

mutual

/-- Parse a line, which must not start with `&`. -/
def parseline : ℕ → Flags → List Char → Parse
  | 0, _, _ => .error .fuel
  | n + 1, f, s =>
    let (amp, s) := peek s ['&']
    if amp then .ok (.unset, ⟨true, f.expectingParallel⟩, s)
    else parsesequence n ⟨false, f.expectingParallel⟩ s

/-- Parse commands in sequence. -/
def parsesequence : ℕ → Flags → List Char → Parse
  | 0, _, _ => .error .fuel
  | n + 1, f, s => do
    let (cmd, f, s) ← parseparallel (s.length + 3) f s
    if f.invalid then .ok (cmd, f, s)
    else
      let (more, s) := peek s [';']
      if more then
        let (_, _, s) := gettoken s
        let (next, f, s) ← parseline n f s
        .ok (.sequence cmd next, f, s)
      else .ok (cmd, f, s)

end

/-- Parse a command line. -/
def parsecmd (line : List Char) : Except ParseError Cmd := do
  let (cmd, f, s) ← parseline (2 * line.length + 2) ⟨false, false⟩ line
  if f.invalid then
    let (argv, _) ← parseexec s
    .ok (.invalid argv)
  else
    let (_, s) := peek s []
    if s ≠ [] then .error (.leftovers s) else .ok cmd

example : parsecmd "a b & c ; d\n".toList =
    .ok (.sequence
      (.parallel (.exec [['a'], ['b']]) (.parallel (.exec [['c']]) (.exec [])))
      (.exec [['d']])) := by decide +kernel

example : parsecmd "a & ; b\n".toList = .ok (.invalid []) := by decide +kernel

/-! ### How a line is divided -/

/-- The parts of a line between `;`. -/
def segments (line : List Char) : List (List Char) :=
  line.splitOn ';'

/-- The parts of a segment between `&`. -/
def commands (segment : List Char) : List (List Char) :=
  segment.splitOn '&'

/-- The words of a command. -/
def words (command : List Char) : List Word :=
  Split.words isWhitespace command

/-- A text of whitespace only. -/
def Blank (s : List Char) : Prop :=
  ∀ c ∈ s, isWhitespace c = true

instance (s : List Char) : Decidable (Blank s) :=
  decidable_of_iff (s.all isWhitespace = true) List.all_eq_true

/-- The tree of commands in parallel. The chain ends in an empty command, not in `NULL`. -/
def chain : List (List Char) → Cmd
  | [] => .exec []
  | p :: ps => .parallel (.exec (words p)) (chain ps)

/-- The tree of a segment. -/
def groupTree : List (List Char) → Cmd
  | [p] => .exec (words p)
  | ps => chain ps

/-- The tree of segments in sequence. -/
def sequenceTree : List (List (List Char)) → Cmd
  | [] => .exec []
  | [ps] => groupTree ps
  | ps :: g :: gs => .sequence (groupTree ps) (sequenceTree (g :: gs))

/-- The tree of a line. -/
def lineTree (line : List Char) : Cmd :=
  sequenceTree ((segments line).map commands)

/-- The last command of a group is not blank. -/
def LastFilled (ps : List (List Char)) : Prop :=
  ∀ p ∈ ps.getLast?, ¬ Blank p

/-- A group of commands is read to its end unless it has an `&` that no command comes before, or
that no command follows before the end. -/
def GroupOk (ps : List (List Char)) : Prop :=
  ps.length = 1 ∨ (∀ p ∈ ps.head?, ¬ Blank p) ∧ LastFilled ps

instance (ps : List (List Char)) : Decidable (GroupOk ps) :=
  inferInstanceAs (Decidable (ps.length = 1 ∨
    (∀ p ∈ ps.head?, ¬ Blank p) ∧ ∀ p ∈ ps.getLast?, ¬ Blank p))

/-- The line is in the domain of the specification: the redirections and pipes, which this shell
left out, do not occur, and no command has more words than `argv` holds. -/
structure Plain (line : List Char) : Prop where
  noRedirect : ∀ c ∈ line, c ≠ '<' ∧ c ≠ '|' ∧ c ≠ '>'
  wordsLe : ∀ seg ∈ segments line, ∀ p ∈ commands seg, (words p).length ≤ 9

/-! ### Tokens of a command -/

/-- A command the parser can read: no symbol, and few enough words. -/
structure Fits (p : List Char) : Prop where
  noSymbol : ∀ c ∈ p, isSymbol c = false
  few : (words p).length < MAXARGS

/-- The text is at its end or at one of the operators `toks`. -/
def At (toks : List Char) (s : List Char) : Prop :=
  ∀ c ∈ s.head?, c ∈ toks

theorem At.nil (toks : List Char) : At toks [] := by simp [At]

variable {s rest p t line : List Char} {c : Char} {ps : List (List Char)}

theorem At.mono {toks toks' : List Char} (h : At toks s) (hsub : toks ⊆ toks') : At toks' s :=
  fun c hc => hsub (h c hc)

theorem isWhitespace_of_op (h : c ∈ [';', '&']) : isWhitespace c = false := by
  simp only [List.mem_cons, List.not_mem_nil, or_false] at h
  rcases h with rfl | rfl <;> rfl

/-- An operator is not whitespace, so nothing is skipped in front of it. -/
theorem At.skip_eq (h : At [';', '&'] s) : skip s = s := by
  cases s with
  | nil => rfl
  | cons c t =>
    apply List.dropWhile_cons_of_neg
    rw [isWhitespace_of_op (h c rfl)]
    decide

theorem skip_skip (s : List Char) : skip (skip s) = skip s :=
  List.dropWhile_idempotent isWhitespace s

theorem peek_skip (s toks : List Char) : peek (skip s) toks = peek s toks := by
  simp only [peek, skip_skip]

theorem skip_append (p : List Char) (h : At [';', '&'] rest) :
    skip (p ++ rest) = skip p ++ rest := by
  unfold skip
  rw [List.dropWhile_append]
  split
  · next hp =>
    rw [List.isEmpty_iff.mp hp, List.nil_append]
    exact h.skip_eq
  · rfl

theorem skip_eq_nil_iff : skip p = [] ↔ Blank p :=
  List.dropWhile_eq_nil_iff

theorem isWhitespace_of_skip (h : skip p = c :: t) :
    isWhitespace c = false := by
  have hc := List.head?_dropWhile_not isWhitespace p
  rw [show p.dropWhile isWhitespace = c :: t from h] at hc
  simpa using hc

theorem mem_of_mem_skip (h : c ∈ skip p) : c ∈ p :=
  (List.dropWhile_sublist isWhitespace).subset h

theorem words_skip (p : List Char) : words (skip p) = words p :=
  Split.words_skip p

theorem words_of_blank (h : Blank p) : words p = [] :=
  Split.words_eq_nil_of_all h

theorem Fits.skip (h : Fits p) : Fits (skip p) where
  noSymbol c hc := h.noSymbol c (mem_of_mem_skip hc)
  few := by rw [words_skip]; exact h.few

theorem Fits.nil : Fits [] where
  noSymbol := by simp
  few := by decide

/-- A character that is not in a text comes first behind it only where the text is blank. -/
theorem blank_of_head_eq (hc : c ∉ p) (t : List Char)
    (ht : (skip p ++ t).head? = some c) : Blank p := by
  rw [← skip_eq_nil_iff]
  cases hs : skip p with
  | nil => rfl
  | cons d u =>
    rw [hs, List.cons_append, List.head?_cons, Option.some_inj] at ht
    refine absurd (mem_of_mem_skip ?_) hc
    rw [hs, ht]
    exact List.mem_cons_self

/-- A command as it stands between two operators of a line. -/
structure Bare (p : List Char) : Prop where
  noSemi : ';' ∉ p
  noAmp : '&' ∉ p

theorem Fits.bare (h : Fits p) : Bare p where
  noSemi hmem := absurd (h.noSymbol _ hmem) (by decide)
  noAmp hmem := absurd (h.noSymbol _ hmem) (by decide)

/-- A command that is not blank starts with a word, which ends at whitespace or at the end. -/
theorem exists_word (hp : ∀ c ∈ p, isSymbol c = false) (hb : ¬ Blank p) :
    ∃ c t q, skip p = (c :: t) ++ q ∧ (∀ x ∈ c :: t, isWordChar x = true) ∧
      (∀ x ∈ q.head?, isWhitespace x = true) ∧ words p = (c :: t) :: words q := by
  obtain ⟨c, t, hs⟩ := List.exists_cons_of_ne_nil (mt skip_eq_nil_iff.mp hb)
  have hc : isWordChar c = true := by
    have := hp c (mem_of_mem_skip (by rw [hs]; exact List.mem_cons_self))
    simp [isWordChar, isWhitespace_of_skip hs, this]
  have hsplit : (c :: t.takeWhile isWordChar) ++ t.dropWhile isWordChar = skip p := by
    rw [hs, List.cons_append, List.takeWhile_append_dropWhile]
  -- Where the word ends there is a character that is not one of a word, and it is no symbol.
  have hend : ∀ x ∈ (t.dropWhile isWordChar).head?, isWhitespace x = true := by
    intro x hx
    have hnot := List.head?_dropWhile_not isWordChar t
    rw [hx] at hnot
    have hmem : x ∈ skip p := by
      rw [← hsplit]
      exact List.mem_append_right _ (List.mem_of_mem_head? hx)
    simpa [isWordChar, hp x (mem_of_mem_skip hmem)] using hnot
  have hword : ∀ x ∈ c :: t.takeWhile isWordChar, isWordChar x = true := by
    intro x hx
    rcases List.mem_cons.mp hx with rfl | hx
    · exact hc
    · exact List.mem_takeWhile_imp hx
  refine ⟨c, t.takeWhile isWordChar, t.dropWhile isWordChar, hsplit.symm, hword, hend, ?_⟩
  rw [← words_skip, ← hsplit]
  refine Split.words_run (by simp) (fun x hx => ?_) hend
  have := hword x hx
  simp only [isWordChar, Bool.and_eq_true, Bool.not_eq_true'] at this
  exact this.1

/-! ### One command -/

theorem peek_of_op {toks : List Char} (h : c ∈ [';', '&']) :
    peek (c :: t) toks = (toks.contains c, c :: t) := by
  have hskip : skip (c :: t) = c :: t := At.skip_eq fun x hx => by
    rw [List.head?_cons, Option.mem_some_iff] at hx
    exact hx ▸ h
  simp only [peek, hskip]

theorem gettoken_of_op (h : c ∈ [';', '&']) :
    gettoken (c :: t) = (.op c, [c], skip t) := by
  have hskip : skip (c :: t) = c :: t := At.skip_eq fun x hx => by
    rw [List.head?_cons, Option.mem_some_iff] at hx
    exact hx ▸ h
  have hop : c = ';' ∨ c = '&' := by simpa using h
  simp only [gettoken, hskip, if_pos hop]

theorem parseexecLoop_skip (n : ℕ) (argv : List Word) (s : List Char) :
    parseexecLoop n argv (skip s) = parseexecLoop n argv s := by
  cases n with
  | zero => rfl
  | succ n => simp only [parseexecLoop, peek_skip]

/-- At an operator or at the end the loop stops. -/
theorem parseexecLoop_at (n : ℕ) (argv : List Word) (h : At [';', '&'] s) :
    parseexecLoop (n + 1) argv s = .ok (argv, s) := by
  cases s with
  | nil => rfl
  | cons c t =>
    have hc : c ∈ [';', '&'] := h c rfl
    have hcontains : [';', '&'].contains c = true := by simpa using hc
    simp only [parseexecLoop, peek_of_op hc, hcontains, if_true]

/-- At a word the loop takes it. -/
theorem parseexecLoop_word (n : ℕ) (argv : List Word) {q : List Char}
    (hw : ∀ x ∈ c :: t, isWordChar x = true) (hq : ∀ x ∈ q.head?, isWordChar x = false) :
    parseexecLoop (n + 1) argv ((c :: t) ++ q) = parseexecLoop n (argv ++ [c :: t]) q := by
  have hc := hw c List.mem_cons_self
  have hws : isWhitespace c = false := by
    simp only [isWordChar, Bool.and_eq_true, Bool.not_eq_true'] at hc
    exact hc.1
  have hop : ¬ (c = ';' ∨ c = '&') := by
    rintro (rfl | rfl) <;> exact absurd hc (by decide)
  have hskip : skip (c :: (t ++ q)) = c :: (t ++ q) := by
    apply List.dropWhile_cons_of_neg
    rw [hws]
    decide
  have hcontains : [';', '&'].contains c = false := by simpa using hop
  -- The run of word characters is the word, and the loop goes on behind it.
  have htake : (c :: (t ++ q)).takeWhile isWordChar = c :: t := by
    rw [← List.cons_append, List.takeWhile_append_of_pos hw]
    cases q with
    | nil => simp
    | cons x q => rw [List.takeWhile_cons_of_neg (by simp [hq x rfl]), List.append_nil]
  have hdrop : (c :: (t ++ q)).dropWhile isWordChar = q := by
    rw [← List.cons_append, List.dropWhile_append_of_pos hw]
    cases q with
    | nil => rfl
    | cons x q => rw [List.dropWhile_cons_of_neg (by simp [hq x rfl])]
  rw [List.cons_append, ← parseexecLoop_skip n _ q]
  simp only [parseexecLoop, peek, hskip, hcontains, gettoken, if_neg hop, htake, hdrop]
  rfl

theorem parseexecLoop_append : ∀ (n : ℕ) (argv : List Word) (p : List Char) {rest : List Char},
    (∀ c ∈ p, isSymbol c = false) → (words p).length < n → At [';', '&'] rest →
    parseexecLoop n argv (p ++ rest) = .ok (argv ++ words p, rest)
  | n + 1, argv, p, rest, hp, hn, hrest => by
    rw [← parseexecLoop_skip, skip_append p hrest]
    by_cases hb : Blank p
    · rw [skip_eq_nil_iff.mpr hb, words_of_blank hb, List.nil_append, List.append_nil]
      exact parseexecLoop_at n argv hrest
    · obtain ⟨c, t, q, hs, hw, hq, hwords⟩ := exists_word hp hb
      rw [hwords, List.length_cons] at hn
      have hqp : ∀ x ∈ q, isSymbol x = false := fun x hx => by
        apply hp x
        apply mem_of_mem_skip
        rw [hs]
        exact List.mem_append_right _ hx
      have hstop : ∀ x ∈ (q ++ rest).head?, isWordChar x = false := by
        intro x hx
        cases q with
        | nil =>
          have hop := hrest x hx
          simp only [List.mem_cons, List.not_mem_nil, or_false] at hop
          rcases hop with rfl | rfl <;> rfl
        | cons y q =>
          rw [List.cons_append, List.head?_cons, Option.mem_some_iff] at hx
          have hy := hq y rfl
          simp [isWordChar, ← hx, hy]
      rw [hs, List.append_assoc, parseexecLoop_word n argv hw hstop,
        parseexecLoop_append n _ q hqp (by omega) hrest, hwords, List.append_assoc]
      rfl

/-- **A command is read up to the next operator**, as its words. -/
theorem parseexec_append (hp : Fits p) (hrest : At [';', '&'] rest) :
    parseexec (p ++ rest) = .ok (words p, rest) :=
  parseexecLoop_append MAXARGS [] p hp.noSymbol hp.few hrest

theorem parseexec_at (h : At [';', '&'] s) : parseexec s = .ok ([], s) :=
  parseexec_append Fits.nil h

/-! ### Commands in parallel -/

theorem peek_amp_of_at (h : At [';'] rest) : peek rest ['&'] = (false, rest) := by
  cases rest with
  | nil => rfl
  | cons c t =>
    have hc : c = ';' := by simpa using h c rfl
    rw [hc]
    rfl

/-- No `&` follows: the command stands alone. -/
theorem parseparallel_last (n : ℕ) (i : Bool) (hp : Fits p) (hrest : At [';'] rest) :
    parseparallel (n + 1) ⟨i, false⟩ (p ++ rest) = .ok (.exec (words p), ⟨i, false⟩, rest) := by
  have hat : At [';', '&'] rest := hrest.mono (by simp)
  simp [parseparallel, parseexec_append hp hat, peek_amp_of_at hrest]

/-- No `&` follows an expected command: the chain ends, with one more empty command. -/
theorem parseparallel_last_expecting (n : ℕ) (hp : Fits p)
    (hrest : At [';'] rest) (hne : p ++ rest ≠ []) :
    parseparallel (n + 2) ⟨false, true⟩ (p ++ rest) =
      .ok (.parallel (.exec (words p)) (.exec []), ⟨false, false⟩, rest) := by
  have hat : At [';', '&'] rest := hrest.mono (by simp)
  have hnext : parseparallel (n + 1) ⟨false, false⟩ rest = .ok (.exec [], ⟨false, false⟩, rest) :=
    parseparallel_last n false Fits.nil hrest
  rw [parseparallel]
  simp [parseexec_append hp hat, peek_amp_of_at hrest, hnext, hne]

/-- An `&` follows: the group is invalid when a `;` comes next, and goes on otherwise. -/
theorem parseparallel_amp (n : ℕ) (e : Bool) (hp : Fits p) :
    parseparallel (n + 1) ⟨false, e⟩ (p ++ '&' :: t) =
      if (skip t).head? = some ';' then .ok (.exec (words p), ⟨true, false⟩, skip t)
      else (do
        let (next, f, s) ← parseparallel n ⟨false, true⟩ (skip t)
        .ok (.parallel (.exec (words p)) next, f, s)) := by
  have hat : At [';', '&'] ('&' :: t) := by simp [At]
  have hpeek : peek (skip t) [';'] = (decide ((skip t).head? = some ';'), skip t) := by
    rw [peek_skip, peek]
    cases skip t with
    | nil => rfl
    | cons c u => simp
  rw [parseparallel]
  simp [parseexec_append hp hat, peek_of_op, gettoken_of_op, hpeek]

/-- The text of a group in front of `rest`. -/
def groupText (ps : List (List Char)) (rest : List Char) : List Char :=
  Split.join '&' ps ++ rest

theorem groupText_cons (p : List Char) (h : ps ≠ []) (rest : List Char) :
    groupText (p :: ps) rest = p ++ '&' :: groupText ps rest := by
  simp [groupText, Split.join_cons '&' p h]

theorem at_amp (t : List Char) : At [';', '&'] ('&' :: t) := by simp [At]

/-- The parse `r` gives the tree and stops at `rest` when the text is `ok`; otherwise it notes that
the line is invalid, and stops at an operator or at the end. -/
def Reads (r : Parse) (ok : Prop) (tree : Cmd) (rest : List Char) : Prop :=
  (ok → r = .ok (tree, ⟨false, false⟩, rest)) ∧
  (¬ ok → ∃ cmd s, At [';', '&'] s ∧ r = .ok (cmd, ⟨true, false⟩, s))

theorem lastFilled_singleton : LastFilled [p] ↔ ¬ Blank p := by
  simp [LastFilled]

/-- The text of a group starts with a `;` only where the group is one blank command. -/
theorem not_lastFilled_of_head_semi (hne : ps ≠ []) (hps : ∀ p ∈ ps, Bare p) (hrest : At [';'] rest)
    (h : (skip (groupText ps rest)).head? = some ';') : ¬ LastFilled ps := by
  obtain ⟨p, ps, rfl⟩ := List.exists_cons_of_ne_nil hne
  have hfirst := blank_of_head_eq (hps p List.mem_cons_self).noSemi
  by_cases hnil : ps = []
  · subst hnil
    rw [groupText, Split.join_singleton, skip_append p (hrest.mono (by simp))] at h
    rw [lastFilled_singleton, not_not]
    exact hfirst _ h
  · rw [groupText_cons p hnil, skip_append p (at_amp _)] at h
    rw [skip_eq_nil_iff.mpr (hfirst _ h), List.nil_append, List.head?_cons] at h
    exact absurd h (by decide)

/-- A command with an `&` behind it, when the commands after the `&` are known to be read. -/
theorem reads_amp {n : ℕ} (e : Bool) (hp : Fits p)
    (hne : ps ≠ []) (hps : ∀ q ∈ ps, Fits q) (hrest : At [';'] rest)
    (ih : (skip (groupText ps rest)).head? ≠ some ';' →
      Reads (parseparallel n ⟨false, true⟩ (skip (groupText ps rest))) (LastFilled ps)
        (chain ps) rest) :
    Reads (parseparallel (n + 1) ⟨false, e⟩ (p ++ '&' :: groupText ps rest)) (LastFilled ps)
      (chain (p :: ps)) rest := by
  rw [parseparallel_amp n e hp]
  by_cases hsemi : (skip (groupText ps rest)).head? = some ';'
  · rw [if_pos hsemi]
    have hblank := not_lastFilled_of_head_semi hne (fun q hq => (hps q hq).bare) hrest hsemi
    refine ⟨fun h => absurd h hblank, fun _ => ?_⟩
    refine ⟨_, _, ?_, rfl⟩
    intro c hc
    rw [hsemi, Option.mem_some_iff] at hc
    simp [← hc]
  · rw [if_neg hsemi]
    obtain ⟨hok, hbad⟩ := ih hsemi
    constructor
    · intro h
      rw [hok h]
      rfl
    · intro h
      obtain ⟨cmd, s, hs, hparse⟩ := hbad h
      rw [hparse]
      exact ⟨_, s, hs, rfl⟩

/-- **The commands after an `&`** are read to the end of the group, unless the last one is
blank. -/
theorem parseparallel_expecting (hrest : At [';'] rest) :
    ∀ (ps : List (List Char)) (n : ℕ), ps ≠ [] → (∀ p ∈ ps, Fits p) → ps.length < n →
      (skip (groupText ps rest)).head? ≠ some ';' →
      Reads (parseparallel n ⟨false, true⟩ (skip (groupText ps rest))) (LastFilled ps)
        (chain ps) rest
  | [p], n + 2, _, hps, _, hhead => by
    have hp := hps p List.mem_cons_self
    rw [groupText, Split.join_singleton, skip_append p (hrest.mono (by simp))] at hhead ⊢
    rw [Reads, lastFilled_singleton, not_not]
    constructor
    · intro hb
      have hne : skip p ++ rest ≠ [] := by
        intro h
        exact hb (skip_eq_nil_iff.mp (List.append_eq_nil_iff.mp h).1)
      rw [parseparallel_last_expecting n hp.skip hrest hne, words_skip]
      rfl
    · intro hb
      rw [skip_eq_nil_iff.mpr hb, List.nil_append] at hhead ⊢
      -- Only the end of the line is left: a `;` was excluded.
      have hnil : rest = [] := by
        cases rest with
        | nil => rfl
        | cons c t => exact absurd (by simpa using hrest c rfl) (by simpa using hhead)
      subst hnil
      exact ⟨.unset, [], At.nil _, rfl⟩
  | p :: q :: ps, n + 1, _, hps, hn, _ => by
    have hp := hps p List.mem_cons_self
    have hqs : ∀ r ∈ q :: ps, Fits r := fun r hr => hps r (List.mem_cons_of_mem p hr)
    have hlast : LastFilled (p :: q :: ps) ↔ LastFilled (q :: ps) := by
      simp only [LastFilled, List.getLast?_cons_cons]
    have hchain : chain (p :: q :: ps) = chain (skip p :: q :: ps) := by
      simp only [chain, words_skip]
    rw [groupText_cons p (List.cons_ne_nil q ps), skip_append p (at_amp _), hlast, hchain]
    apply reads_amp true hp.skip (List.cons_ne_nil q ps) hqs hrest
    exact parseparallel_expecting hrest (q :: ps) n (List.cons_ne_nil q ps) hqs (by simpa using hn)

/-- **A group that does not start with an `&`** is read to its end, unless it ends with one. -/
theorem parseparallel_group {ps : List (List Char)} {rest : List Char} {n : ℕ} (hne : ps ≠ [])
    (hps : ∀ p ∈ ps, Fits p) (hrest : At [';'] rest) (hn : ps.length < n)
    (hhead : (skip (groupText ps rest)).head? ≠ some '&') :
    Reads (parseparallel n ⟨false, false⟩ (skip (groupText ps rest))) (GroupOk ps)
      (groupTree ps) rest := by
  obtain ⟨p, qs, rfl⟩ := List.exists_cons_of_ne_nil hne
  obtain ⟨n, rfl⟩ := Nat.exists_eq_succ_of_ne_zero (Nat.ne_zero_of_lt hn)
  have hp := hps p List.mem_cons_self
  cases qs with
  | nil =>
    rw [groupText, Split.join_singleton, skip_append p (hrest.mono (by simp)),
      parseparallel_last n false hp.skip hrest, words_skip]
    exact ⟨fun _ => rfl, fun h => absurd (Or.inl rfl) h⟩
  | cons q ps =>
    have hqs : ∀ r ∈ q :: ps, Fits r := fun r hr => hps r (List.mem_cons_of_mem p hr)
    rw [groupText_cons p (List.cons_ne_nil q ps), skip_append p (at_amp _)] at hhead ⊢
    -- The text does not start with `&`, so the first command is not blank.
    have hpb : ¬ Blank p := by
      intro hb
      rw [skip_eq_nil_iff.mpr hb] at hhead
      exact hhead rfl
    have hgroup : GroupOk (p :: q :: ps) ↔ LastFilled (q :: ps) := by
      simp [GroupOk, LastFilled, hpb, List.getLast?_cons_cons]
    have htree : groupTree (p :: q :: ps) = chain (skip p :: q :: ps) := by
      simp only [groupTree, chain, words_skip]
    rw [hgroup, htree]
    apply reads_amp false hp.skip (List.cons_ne_nil q ps) hqs hrest
    exact parseparallel_expecting hrest (q :: ps) n (List.cons_ne_nil q ps) hqs (by simpa using hn)

theorem length_le_groupText (ps : List (List Char)) (rest : List Char) :
    ps.length ≤ (groupText ps rest).length + 1 := by
  have := Split.length_le_join '&' ps
  rw [groupText, List.length_append]
  omega

/-- Skipping whitespace keeps the `&`s, so the fuel of `parsesequence` is enough. -/
theorem length_le_skip_groupText (hne : ps ≠ []) (rest : List Char) :
    ps.length ≤ (skip (groupText ps rest)).length + 1 := by
  obtain ⟨p, qs, rfl⟩ := List.exists_cons_of_ne_nil hne
  by_cases hnil : qs = []
  · subst hnil
    simp
  · have hlen := length_le_groupText qs rest
    rw [groupText_cons p hnil, skip_append p (at_amp _)]
    simp only [List.length_cons, List.length_append] at *
    omega

/-- A group whose text starts with `&` has a blank first command. -/
theorem not_groupOk_of_head_amp (hne : ps ≠ []) (hps : ∀ p ∈ ps, Bare p) (hrest : At [';'] rest)
    (h : (skip (groupText ps rest)).head? = some '&') : ¬ GroupOk ps := by
  obtain ⟨p, ps, rfl⟩ := List.exists_cons_of_ne_nil hne
  have hfirst := blank_of_head_eq (hps p List.mem_cons_self).noAmp
  by_cases hnil : ps = []
  · subst hnil
    rw [groupText, Split.join_singleton, skip_append p (hrest.mono (by simp))] at h
    rw [skip_eq_nil_iff.mpr (hfirst _ h), List.nil_append] at h
    exact absurd (hrest _ h) (by decide)
  · rw [groupText_cons p hnil, skip_append p (at_amp _)] at h
    simp [GroupOk, hnil, hfirst _ h]

/-! ### Groups in sequence -/

/-- The text of groups in sequence. -/
def lineText (gs : List (List (List Char))) : List Char :=
  Split.join ';' (gs.map (Split.join '&'))

/-- What follows the first group of a line. -/
def afterGroup : List (List (List Char)) → List Char
  | [] => []
  | g :: gs => ';' :: lineText (g :: gs)

theorem at_afterGroup (gs : List (List (List Char))) : At [';'] (afterGroup gs) := by
  cases gs <;> simp [At, afterGroup]

theorem lineText_cons (ps : List (List Char)) (gs : List (List (List Char))) :
    lineText (ps :: gs) = groupText ps (afterGroup gs) := by
  cases gs with
  | nil => simp [lineText, groupText, afterGroup]
  | cons g gs => rfl

theorem parseline_skip (n : ℕ) (f : Flags) (s : List Char) :
    parseline n f (skip s) = parseline n f s := by
  cases n with
  | zero => rfl
  | succ n => simp only [parseline, peek_skip]

theorem peek_eq (s : List Char) (c : Char) :
    peek s [c] = (decide ((skip s).head? = some c), skip s) := by
  rw [peek]
  cases skip s <;> simp

/-- **A line is read to its end** when all its groups are; otherwise it is found to be invalid. -/
theorem parseline_spec : ∀ (gs : List (List (List Char))) (n : ℕ) (i : Bool), gs ≠ [] →
    (∀ ps ∈ gs, ps ≠ [] ∧ ∀ p ∈ ps, Fits p) → 2 * gs.length ≤ n →
    Reads (parseline n ⟨i, false⟩ (lineText gs)) (∀ ps ∈ gs, GroupOk ps) (sequenceTree gs) []
  | ps :: gs, n + 2, i, _, hgs, hn => by
    obtain ⟨hne, hps⟩ := hgs ps List.mem_cons_self
    have hrest := at_afterGroup gs
    rw [lineText_cons, parseline, peek_eq]
    by_cases hamp : (skip (groupText ps (afterGroup gs))).head? = some '&'
    · have hbad := not_groupOk_of_head_amp hne (fun p hp => (hps p hp).bare) hrest hamp
      refine ⟨fun h => absurd (h ps List.mem_cons_self) hbad, fun _ => ?_⟩
      refine ⟨.unset, skip (groupText ps (afterGroup gs)), ?_, by simp [hamp]⟩
      intro c hc
      rw [hamp, Option.mem_some_iff] at hc
      simp [← hc]
    · have hfuel := length_le_skip_groupText hne (afterGroup gs)
      obtain ⟨hok, hbad⟩ := @parseparallel_group ps (afterGroup gs)
        ((skip (groupText ps (afterGroup gs))).length + 3) hne hps hrest (by omega) hamp
      simp only [hamp, decide_false, Bool.false_eq_true, if_false, parsesequence]
      by_cases hg : GroupOk ps
      · rw [hok hg]
        cases gs with
        | nil => exact ⟨fun _ => rfl, fun h => absurd (by simpa using hg) h⟩
        | cons g gs =>
          -- The `;` is consumed and the rest of the line is parsed from behind it.
          obtain ⟨hok', hbad'⟩ := parseline_spec (g :: gs) n false (List.cons_ne_nil g gs)
            (fun qs hqs => hgs qs (List.mem_cons_of_mem ps hqs)) (by simp at hn ⊢; omega)
          have hall : (∀ qs ∈ ps :: g :: gs, GroupOk qs) ↔ ∀ qs ∈ g :: gs, GroupOk qs := by
            rw [List.forall_mem_cons]
            exact and_iff_right hg
          rw [hall]
          have hop : ';' ∈ [';', '&'] := by simp
          simp only [afterGroup, Except.ok_bind, peek_of_op hop, gettoken_of_op hop,
            parseline_skip, Bool.false_eq_true, if_false]
          constructor
          · intro h
            rw [hok' h]
            rfl
          · intro h
            obtain ⟨cmd, s, hs, hparse⟩ := hbad' h
            rw [hparse]
            exact ⟨_, s, hs, rfl⟩
      · refine ⟨fun h => absurd (h ps List.mem_cons_self) hg, fun _ => ?_⟩
        obtain ⟨cmd, s, hs, hparse⟩ := hbad hg
        rw [hparse]
        exact ⟨cmd, s, hs, rfl⟩

/-! ### The whole line -/

theorem lineText_segments (line : List Char) :
    lineText ((segments line).map commands) = line := by
  unfold lineText
  rw [List.map_map]
  have : Split.join '&' ∘ commands = id := funext fun seg => Split.join_splitOn '&' seg
  rw [this, List.map_id]
  exact Split.join_splitOn ';' line

theorem segments_ne_nil (line : List Char) : segments line ≠ [] :=
  List.splitOnP_ne_nil _ _

theorem commands_ne_nil (segment : List Char) : commands segment ≠ [] :=
  List.splitOnP_ne_nil _ _

theorem length_segments_le (line : List Char) : (segments line).length ≤ line.length + 1 := by
  have := Split.length_le_join ';' (segments line)
  rwa [show Split.join ';' (segments line) = line from Split.join_splitOn ';' line] at this

/-- In a plain line every command fits. -/
theorem Plain.fits {line : List Char} (h : Plain line) {seg p : List Char}
    (hseg : seg ∈ segments line) (hp : p ∈ commands seg) : Fits p where
  noSymbol c hc := by
    obtain ⟨hamp, hcseg⟩ := Split.mem_of_mem_splitOn hp hc
    obtain ⟨hsemi, hcline⟩ := Split.mem_of_mem_splitOn hseg hcseg
    obtain ⟨h1, h2, h3⟩ := h.noRedirect c hcline
    simp [isSymbol, hamp, hsemi, h1, h2, h3]
  few := Nat.lt_succ_of_le (h.wordsLe seg hseg p hp)

/-- Every segment of the line can be read. -/
def LineOk (line : List Char) : Prop :=
  ∀ seg ∈ segments line, GroupOk (commands seg)

instance (line : List Char) : Decidable (LineOk line) :=
  inferInstanceAs (Decidable (∀ seg ∈ segments line, GroupOk (commands seg)))

/-- **The result of parsing a line**: its tree, or an invalid node without words. -/
theorem parsecmd_eq (h : Plain line) :
    parsecmd line = .ok (if LineOk line then lineTree line else .invalid []) := by
  have hgs : ∀ ps ∈ (segments line).map commands, ps ≠ [] ∧ ∀ p ∈ ps, Fits p := by
    intro ps hps
    obtain ⟨seg, hseg, rfl⟩ := List.mem_map.mp hps
    exact ⟨commands_ne_nil seg, fun p hp => h.fits hseg hp⟩
  have hlen := length_segments_le line
  obtain ⟨hok, hbad⟩ := parseline_spec ((segments line).map commands) (2 * line.length + 2) false
    (by simpa using segments_ne_nil line) hgs (by simp; omega)
  rw [lineText_segments, List.forall_mem_map] at hok hbad
  by_cases hline : LineOk line
  · rw [if_pos hline, parsecmd, hok hline]
    rfl
  · obtain ⟨cmd, s, hs, hparse⟩ := hbad hline
    rw [if_neg hline, parsecmd, hparse]
    simp only [Except.ok_bind, if_true, parseexec_at hs]

/-- The root of the tree of a line is a command, a sequence or commands in parallel. -/
theorem type_lineTree (line : List Char) :
    ∃ t, (lineTree line).type = some t ∧ t ≠ -1 := by
  have hgroup : ∀ ps, ∃ t, (groupTree ps).type = some t ∧ t ≠ -1 := by
    intro ps
    rcases ps with _ | ⟨p, _ | ⟨q, ps⟩⟩
    · exact ⟨32, rfl, by decide⟩
    · exact ⟨32, rfl, by decide⟩
    · exact ⟨38, rfl, by decide⟩
  unfold lineTree
  rcases (segments line).map commands with _ | ⟨ps, _ | ⟨g, gs⟩⟩
  · exact ⟨32, rfl, by decide⟩
  · exact hgroup ps
  · exact ⟨59, rfl, by decide⟩

/-! ### Every line

A line with a redirection, a pipe or too many words is not in the domain of `parsecmd_eq`. A
redirection or pipe is taken for a word of length zero again and again, until there are too many
words, so the parser comes to one of three ends on every line: the shell exits because of the words,
the line is found to be invalid before they are read, or the line is plain. -/

theorem isSymbol_of_isWhitespace (h : isWhitespace c = true) : isSymbol c = false := by
  simp only [isWhitespace, List.contains_eq_mem, List.mem_cons, List.not_mem_nil, or_false,
    decide_eq_true_eq] at h
  rcases h with rfl | rfl | rfl | rfl | rfl <;> rfl

/-- At a symbol that is no operator the loop takes an empty word and stays where it is. -/
theorem parseexecLoop_symbol (n : ℕ) (argv : List Word) (t : List Char)
    (hws : isWhitespace c = false) (hop : ¬ (c = ';' ∨ c = '&')) (hw : isWordChar c = false) :
    parseexecLoop (n + 1) argv (c :: t) = parseexecLoop n (argv ++ [[]]) (c :: t) := by
  have hskip : skip (c :: t) = c :: t := List.dropWhile_cons_of_neg (by simp [hws])
  have hcontains : [';', '&'].contains c = false := by simpa using hop
  have hdrop : (c :: t).dropWhile isWordChar = c :: t :=
    List.dropWhile_cons_of_neg (by simp [hw])
  have htake : (c :: t).takeWhile isWordChar = [] := List.takeWhile_cons_of_neg (by simp [hw])
  rw [parseexecLoop]
  simp only [peek, hskip, hcontains, gettoken, if_neg hop, htake, hdrop, Bool.false_eq_true,
    if_false]

/-- The loop has one way to fail: at an operator it stops before it takes it for a word. -/
theorem parseexecLoop_error {n : ℕ} {argv : List Word} {e : ParseError}
    (h : parseexecLoop n argv s = .error e) : e = .tooManyArgs := by
  induction n generalizing argv s with
  | zero =>
    cases h
    rfl
  | succ n ih =>
    rw [parseexecLoop] at h
    cases hs : skip s with
    | nil =>
      have hnil : skip [] = [] := rfl
      simp [peek, gettoken, hs, hnil] at h
    | cons c t =>
      have hskip : skip (c :: t) = c :: t := by rw [← hs, skip_skip]
      by_cases hop : c = ';' ∨ c = '&'
      · simp [peek, hs, hop] at h
      · have hcontains : [';', '&'].contains c = false := by simpa using hop
        simp only [peek, gettoken, hs, hskip, hcontains, if_neg hop,
          Bool.false_eq_true, if_false] at h
        exact ih h

theorem parseexecLoop_ok : ∀ (n : ℕ) (argv : List Word) (p : List Char) {rest : List Char}
    {r : List Word × List Char}, ';' ∉ p → '&' ∉ p → At [';', '&'] rest →
    parseexecLoop n argv (p ++ rest) = .ok r →
    (∀ c ∈ p, isSymbol c = false) ∧ (words p).length < n
  | n + 1, argv, p, rest, r, hsemi, hamp, hrest, h => by
    rw [← parseexecLoop_skip, skip_append p hrest] at h
    have hsplit : p.takeWhile isWhitespace ++ skip p = p := List.takeWhile_append_dropWhile
    have hblank : ∀ c ∈ p.takeWhile isWhitespace, isSymbol c = false := fun c hc =>
      isSymbol_of_isWhitespace (List.mem_takeWhile_imp hc)
    cases hs : skip p with
    | nil =>
      have hb : Blank p := skip_eq_nil_iff.mp hs
      exact ⟨fun c hc => isSymbol_of_isWhitespace (hb c hc), by simp [words_of_blank hb]⟩
    | cons c u =>
      have hmem : ∀ x ∈ c :: u, x ∈ p := fun x hx => mem_of_mem_skip (hs ▸ hx)
      have hws := isWhitespace_of_skip hs
      have hop : ¬ (c = ';' ∨ c = '&') := by
        rintro (rfl | rfl)
        · exact hsemi (hmem _ List.mem_cons_self)
        · exact hamp (hmem _ List.mem_cons_self)
      rw [hs] at h
      cases hw : isWordChar c with
      | false =>
        -- The position does not change, and the next round says that there is no symbol.
        rw [List.cons_append, parseexecLoop_symbol n argv _ hws hop hw, ← List.cons_append] at h
        obtain ⟨hsym, _⟩ := parseexecLoop_ok n _ (c :: u) (fun hx => hsemi (hmem _ hx))
          (fun hx => hamp (hmem _ hx)) hrest h
        have hc := hsym c List.mem_cons_self
        simp [isWordChar, hws, hc] at hw
      | true =>
        have hu : (c :: u.takeWhile isWordChar) ++ u.dropWhile isWordChar = c :: u := by
          rw [List.cons_append, List.takeWhile_append_dropWhile]
        have hword : ∀ x ∈ c :: u.takeWhile isWordChar, isWordChar x = true := by
          intro x hx
          rcases List.mem_cons.mp hx with rfl | hx
          · exact hw
          · exact List.mem_takeWhile_imp hx
        have hq : ∀ x ∈ u.dropWhile isWordChar, x ∈ p := fun x hx =>
          hmem x (hu ▸ List.mem_append_right _ hx)
        have hend : ∀ x ∈ (u.dropWhile isWordChar).head?, isWordChar x = false := by
          intro x hx
          have hnot := List.head?_dropWhile_not isWordChar u
          rw [hx] at hnot
          simpa using hnot
        have hstop : ∀ x ∈ (u.dropWhile isWordChar ++ rest).head?, isWordChar x = false := by
          intro x hx
          cases hd : u.dropWhile isWordChar with
          | nil =>
            rw [hd] at hx
            have hop := hrest x hx
            simp only [List.mem_cons, List.not_mem_nil, or_false] at hop
            rcases hop with rfl | rfl <;> rfl
          | cons y ys =>
            rw [hd] at hx
            exact hend x (by rw [hd]; exact hx)
        rw [← hu, List.append_assoc, parseexecLoop_word n argv hword hstop] at h
        obtain ⟨hsym, hlen⟩ := parseexecLoop_ok n _ _ (fun hx => hsemi (hq _ hx))
          (fun hx => hamp (hq _ hx)) hrest h
        have hwords : words p =
            (c :: u.takeWhile isWordChar) :: words (u.dropWhile isWordChar) := by
          rw [← words_skip, hs, ← hu]
          refine Split.words_run (by simp) (fun x hx => ?_) fun x hx => ?_
          · have := hword x hx
            simp only [isWordChar, Bool.and_eq_true, Bool.not_eq_true'] at this
            exact this.1
          · have := hend x hx
            simpa [isWordChar, hsym x (List.mem_of_mem_head? hx)] using this
        refine ⟨fun x hx => ?_, by rw [hwords, List.length_cons]; omega⟩
        rw [← hsplit, hs, ← hu] at hx
        rcases List.mem_append.mp hx with hx | hx
        · exact hblank x hx
        · rcases List.mem_append.mp hx with hx | hx
          · have := hword x hx
            simp only [isWordChar, Bool.and_eq_true, Bool.not_eq_true'] at this
            exact this.2
          · exact hsym x hx

/-- **A command fits, or the shell exits** because of its words. -/
theorem parseexec_outcome (hp : Bare p) (hrest : At [';', '&'] rest) :
    Fits p ∨ parseexec (p ++ rest) = .error .tooManyArgs := by
  cases h : parseexec (p ++ rest) with
  | error e => exact Or.inr (by rw [parseexecLoop_error h])
  | ok r =>
    obtain ⟨hsym, hfew⟩ := parseexecLoop_ok MAXARGS [] p hp.noSemi hp.noAmp hrest h
    exact Or.inl ⟨hsym, hfew⟩

theorem Bare.skip (h : Bare p) : Bare (skip p) where
  noSemi hmem := h.noSemi (mem_of_mem_skip hmem)
  noAmp hmem := h.noAmp (mem_of_mem_skip hmem)

theorem fits_of_skip (h : Fits (skip p)) : Fits p where
  noSymbol c hc := by
    have hsplit : p.takeWhile isWhitespace ++ skip p = p := List.takeWhile_append_dropWhile
    rw [← hsplit] at hc
    rcases List.mem_append.mp hc with hc | hc
    · exact isSymbol_of_isWhitespace (List.mem_takeWhile_imp hc)
    · exact h.noSymbol c hc
  few := by
    rw [← words_skip]
    exact h.few

/-- The ends of a parse of a text that is `ok` or not: the shell exits because of the words, the
text is not `ok` and is found to be invalid, or its commands fit. -/
def Outcome (r : Parse) (ok fits : Prop) : Prop :=
  r = .error .tooManyArgs ∨
  (¬ ok ∧ ∃ cmd s, At [';', '&'] s ∧ r = .ok (cmd, ⟨true, false⟩, s)) ∨
  fits

/-- **A group**, at its start or after an `&`. -/
theorem parseparallel_outcome (hrest : At [';'] rest) :
    ∀ (ps : List (List Char)) (n : ℕ) (e : Bool), ps ≠ [] → (∀ p ∈ ps, Bare p) → ps.length < n →
      Outcome (parseparallel n ⟨false, e⟩ (skip (groupText ps rest)))
        (e = false ∧ ps.length = 1 ∨ LastFilled ps) (∀ p ∈ ps, Fits p)
  | [p], n + 1, e, _, hps, _ => by
    have hp := hps p List.mem_cons_self
    have hat : At [';', '&'] rest := hrest.mono (by simp)
    rw [groupText, Split.join_singleton, skip_append p hat]
    by_cases hend : e = true ∧ skip p ++ rest = []
    · -- Nothing follows the `&`: the last command is blank.
      obtain ⟨rfl, hnil⟩ := hend
      obtain ⟨hblank, rfl⟩ := List.append_eq_nil_iff.mp hnil
      refine Or.inr (Or.inl ⟨?_, .unset, [], At.nil _, by simp [parseparallel, hblank]⟩)
      simpa [lastFilled_singleton] using skip_eq_nil_iff.mp hblank
    · rcases parseexec_outcome hp.skip hat with hfits | herror
      · refine Or.inr (Or.inr fun q hq => ?_)
        rw [List.mem_singleton.mp hq]
        exact fits_of_skip hfits
      · refine Or.inl ?_
        rw [parseparallel, if_neg hend, herror]
        rfl
  | p :: q :: ps, n + 1, e, _, hps, hn => by
    have hp := hps p List.mem_cons_self
    have hqs : ∀ r ∈ q :: ps, Bare r := fun r hr => hps r (List.mem_cons_of_mem p hr)
    have hok : (e = false ∧ (p :: q :: ps).length = 1 ∨ LastFilled (p :: q :: ps)) ↔
        LastFilled (q :: ps) := by
      simp [LastFilled, List.getLast?_cons_cons]
    rw [groupText_cons p (List.cons_ne_nil q ps), skip_append p (at_amp _), hok]
    rcases parseexec_outcome hp.skip (at_amp (groupText (q :: ps) rest)) with hfits | herror
    · rw [parseparallel_amp n e hfits]
      by_cases hsemi : (skip (groupText (q :: ps) rest)).head? = some ';'
      · rw [if_pos hsemi]
        have hblank := not_lastFilled_of_head_semi (List.cons_ne_nil q ps) hqs hrest hsemi
        refine Or.inr (Or.inl ⟨hblank, _, _, fun c hc => ?_, rfl⟩)
        rw [hsemi, Option.mem_some_iff] at hc
        simp [← hc]
      · rw [if_neg hsemi]
        rcases parseparallel_outcome hrest (q :: ps) n true (List.cons_ne_nil q ps) hqs
          (by simpa using hn) with herror | ⟨hbad, cmd, s, hs, hparse⟩ | hrec
        · exact Or.inl (by rw [herror]; rfl)
        · exact Or.inr (Or.inl ⟨fun h => hbad (Or.inr h), _, s, hs, by rw [hparse]; rfl⟩)
        · refine Or.inr (Or.inr fun r hr => ?_)
          rcases List.mem_cons.mp hr with rfl | hr
          · exact fits_of_skip hfits
          · exact hrec r hr
    · refine Or.inl ?_
      have hne : ¬ (e = true ∧ skip p ++ '&' :: groupText (q :: ps) rest = []) := by simp
      rw [parseparallel, if_neg hne, herror]
      rfl

/-- **A line.** The groups in front of the first one that does not fit are read as `parseline_spec`
says. -/
theorem parseline_outcome : ∀ (gs : List (List (List Char))) (n : ℕ) (i : Bool), gs ≠ [] →
    (∀ ps ∈ gs, ps ≠ [] ∧ ∀ p ∈ ps, Bare p) → 2 * gs.length ≤ n →
    Outcome (parseline n ⟨i, false⟩ (lineText gs)) (∀ ps ∈ gs, GroupOk ps)
      (∀ ps ∈ gs, ∀ p ∈ ps, Fits p)
  | ps :: gs, n + 2, i, _, hgs, hn => by
    obtain ⟨hne, hps⟩ := hgs ps List.mem_cons_self
    have hrest := at_afterGroup gs
    have hfirst : ¬ GroupOk ps → ¬ ∀ qs ∈ ps :: gs, GroupOk qs := fun hbad h =>
      hbad (h ps List.mem_cons_self)
    rw [lineText_cons, parseline, peek_eq]
    by_cases hamp : (skip (groupText ps (afterGroup gs))).head? = some '&'
    · refine Or.inr (Or.inl ⟨hfirst (not_groupOk_of_head_amp hne hps hrest hamp), .unset,
        skip (groupText ps (afterGroup gs)), fun c hc => ?_, by simp [hamp]⟩)
      rw [hamp, Option.mem_some_iff] at hc
      simp [← hc]
    · have hfuel := length_le_skip_groupText hne (afterGroup gs)
      simp only [hamp, decide_false, Bool.false_eq_true, if_false, parsesequence]
      rcases parseparallel_outcome hrest ps ((skip (groupText ps (afterGroup gs))).length + 3) false
        hne hps (by omega) with herror | ⟨hbad, cmd, s, hs, hparse⟩ | hfits
      · exact Or.inl (by rw [herror]; rfl)
      · refine Or.inr (Or.inl ⟨hfirst fun h => hbad ?_, cmd, s, hs, by rw [hparse]; rfl⟩)
        rcases h with h | h
        · exact Or.inl ⟨rfl, h⟩
        · exact Or.inr h.2
      · obtain ⟨hok, hbad⟩ := @parseparallel_group ps (afterGroup gs)
          ((skip (groupText ps (afterGroup gs))).length + 3) hne hfits hrest (by omega) hamp
        by_cases hg : GroupOk ps
        · rw [hok hg]
          cases gs with
          | nil => exact Or.inr (Or.inr (by simpa using hfits))
          | cons g gs =>
            have hop : ';' ∈ [';', '&'] := by simp
            simp only [afterGroup, Except.ok_bind, peek_of_op hop, gettoken_of_op hop,
              parseline_skip, Bool.false_eq_true, if_false]
            rcases parseline_outcome (g :: gs) n false (List.cons_ne_nil g gs)
              (fun qs hqs => hgs qs (List.mem_cons_of_mem ps hqs)) (by simp at hn ⊢; omega)
              with herror | ⟨hbad', cmd, s, hs, hparse⟩ | hrec
            · exact Or.inl (by rw [herror]; rfl)
            · refine Or.inr (Or.inl ⟨fun h => hbad' fun qs hqs =>
                h qs (List.mem_cons_of_mem ps hqs), _, s, hs, by rw [hparse]; rfl⟩)
            · exact Or.inr (Or.inr (List.forall_mem_cons.mpr ⟨hfits, hrec⟩))
        · obtain ⟨cmd, s, hs, hparse⟩ := hbad hg
          exact Or.inr (Or.inl ⟨hfirst hg, cmd, s, hs, by rw [hparse]; rfl⟩)

theorem bare_commands {seg : List Char} (hseg : seg ∈ segments line)
    (hp : p ∈ commands seg) : Bare p where
  noSemi hmem := (Split.mem_of_mem_splitOn hseg (Split.mem_of_mem_splitOn hp hmem).2).1 rfl
  noAmp hmem := (Split.mem_of_mem_splitOn hp hmem).1 rfl

/-- A line whose commands fit is plain. -/
theorem plain_of_fits (hfit : ∀ seg ∈ segments line, ∀ p ∈ commands seg, Fits p) : Plain line := by
  refine ⟨fun c hc => ?_, fun seg hseg p hp => Nat.le_of_lt_succ (hfit seg hseg p hp).few⟩
  -- A character of the line is in a command, or is an operator.
  have hsym : c = ';' ∨ c = '&' ∨ isSymbol c = false := by
    by_cases hsemi : c = ';'
    · exact Or.inl hsemi
    · obtain ⟨seg, hseg, hcseg⟩ := Split.exists_mem_splitOn hc hsemi
      by_cases hamp : c = '&'
      · exact Or.inr (Or.inl hamp)
      · obtain ⟨p, hp, hcp⟩ := Split.exists_mem_splitOn hcseg hamp
        exact Or.inr (Or.inr ((hfit seg hseg p hp).noSymbol c hcp))
  refine ⟨?_, ?_, ?_⟩ <;> rintro rfl <;> exact absurd hsym (by decide)

/-- **The ends of the parser**, on every line. -/
theorem parsecmd_cases (line : List Char) :
    parsecmd line = .error .tooManyArgs ∨
    (¬ LineOk line ∧ parsecmd line = .ok (.invalid [])) ∨
    (Plain line ∧ LineOk line ∧ parsecmd line = .ok (lineTree line)) := by
  have hgs : ∀ ps ∈ (segments line).map commands, ps ≠ [] ∧ ∀ p ∈ ps, Bare p := by
    intro ps hps
    obtain ⟨seg, hseg, rfl⟩ := List.mem_map.mp hps
    exact ⟨commands_ne_nil seg, fun p hp => bare_commands hseg hp⟩
  have hout := parseline_outcome ((segments line).map commands) (2 * line.length + 2) false
    (by simpa using segments_ne_nil line) hgs (by
      have := length_segments_le line
      simp
      omega)
  rw [lineText_segments] at hout
  rcases hout with herror | ⟨hbad, cmd, s, hs, hparse⟩ | hfits
  · exact Or.inl (by rw [parsecmd, herror]; rfl)
  · refine Or.inr (Or.inl ⟨fun h => hbad (List.forall_mem_map.mpr h), ?_⟩)
    rw [parsecmd, hparse]
    simp only [Except.ok_bind, if_true, parseexec_at hs]
  · have hplain := plain_of_fits (List.forall_mem_map.mp hfits)
    by_cases hok : LineOk line
    · exact Or.inr (Or.inr ⟨hplain, hok, by rw [parsecmd_eq hplain, if_pos hok]⟩)
    · exact Or.inr (Or.inl ⟨hok, by rw [parsecmd_eq hplain, if_neg hok]⟩)

/-- A line without blank commands can be read. -/
theorem lineOk_of_filled
    (hfilled : ∀ seg ∈ segments line, ∀ p ∈ commands seg, ¬ Blank p) : LineOk line :=
  fun seg hseg => Or.inr ⟨fun p hp => hfilled seg hseg p (List.mem_of_mem_head? hp),
    fun p hp => hfilled seg hseg p (List.mem_of_mem_getLast? hp)⟩

/-- **An accepted line is plain**: where the parser returns a tree, no command has a redirection, a
pipe or too many words, and the tree is that of the line. -/
theorem plain_of_accepted {cmd : Cmd} (h : parsecmd line = .ok cmd)
    (hrun : cmd.type ≠ some (-1)) : Plain line ∧ LineOk line ∧ cmd = lineTree line := by
  rcases parsecmd_cases line with herror | ⟨-, hinvalid⟩ | ⟨hplain, hok, htree⟩
  · rw [herror] at h
    cases h
  · rw [hinvalid] at h
    cases h
    exact absurd rfl hrun
  · rw [htree] at h
    cases h
    exact ⟨hplain, hok, rfl⟩

end Hwsh
