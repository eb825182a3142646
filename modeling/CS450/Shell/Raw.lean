import CS450.Shell.Parse

/-!
# The parser's pointers and arrays

The parser of `Hwsh.parsecmd` reads a line as a list, so it cannot leave it, and collects the words
of a command in a list, which cannot overflow. Here is the same parser over what the C code has: a
pointer is an index into the line, `*s` is read at an index, `s++` moves it, and `argv` is an array
of `MAXARGS` entries. A pointer past the terminating NUL, and a store behind the end of `argv`, are
ends of the parser of their own, so that what the code relies on can be stated: they are never
reached.

The loops of `gettoken` and `peek` test `s < es` before they look at `*s`. The test matters, since
`strchr` finds the terminating NUL in every string. The loop of `parseexec` does not advance at a
`<`, a `|` or a `>`. It ends because of the number of words.

The two parsers are compared function by function: at every pointer that is in the line, this one
follows the other at the text from there on.

## Main results

* `follows_parsecmd`: the parser follows `Hwsh.parsecmd`
* `parsing_in_bounds`: the parser ends, within the line and within `argv`
* `parse_lossless`: a tree has the groups, commands and words of the line
-/

namespace Hwsh.Raw

/-- Why the parser ends without a node. -/
inductive Stop where
  /-- The shell exits, or the model has run out of fuel. -/
  | exit (e : ParseError)
  /-- A pointer into the line is used or moved past the terminating NUL. -/
  | pastLine
  /-- A store into `argv` at an index that is not below `MAXARGS`. -/
  | pastArgv
  deriving DecidableEq, Repr

/-- The array `argv` of a command. -/
abbrev Argv := Fin MAXARGS → Option Word

/-- The nodes, with their type as in `Cmd`. -/
inductive Node where
  | exec (argv : Argv)
  | sequence (cmd next : Node)
  | parallel (cmd next : Node)
  | invalid (argv : Argv)
  | unset

def Node.type : Node → Option ℤ
  | .exec _ => some 32
  | .sequence _ _ => some 59
  | .parallel _ _ => some 38
  | .invalid _ => some (-1)
  | .unset => none

/-- The commands of an `&` chain, without the command it ends in. -/
def Node.chain : Node → Option (List Argv)
  | .exec _ => some []
  | .parallel (.exec argv) next => do
    let argvs ← next.chain
    some (argv :: argvs)
  | _ => none

/-- The commands of a group. -/
def Node.group : Node → Option (List Argv)
  | .exec argv => some [argv]
  | .parallel cmd next => Node.chain (.parallel cmd next)
  | _ => none

/-- **The groups of a tree**, where it is one of groups in sequence. -/
def Node.flatten : Node → Option (List (List Argv))
  | .sequence cmd next => do
    let group ← cmd.group
    let groups ← next.flatten
    some (group :: groups)
  | node => node.group.map ([·])

/-- The node an `&` chain ends in. -/
def Node.last : Node → Node
  | .parallel _ next => next.last
  | node => node

/-- The nodes the `&` chains of a tree end in. -/
def Node.chainEnds : Node → List Node
  | .sequence cmd next => cmd.chainEnds ++ next.chainEnds
  | .parallel _ next => [next.last]
  | _ => []

/-! ### Accesses -/

def whitespace : List Char := [' ', '\t', '\r', '\n', '\x0b']

def symbols : List Char := ['<', '|', '>', ';', '&']

/-- Whether the string has the character. The NUL, which is `none`, ends every string. -/
def strchr (toks : List Char) : Option Char → Bool
  | none => true
  | some c => toks.contains c

/-- The next value of `argv`, with the entry set. -/
def store (argv : Argv) (argc : ℕ) (w : Option Word) : Except Stop Argv :=
  if h : argc < MAXARGS then .ok (Function.update argv ⟨argc, h⟩ w) else .error .pastArgv

section Parser

variable (line : List Char)

/-- The character at `s`. -/
def load (s : ℕ) : Except Stop (Option Char) :=
  if s ≤ line.length then .ok (line)[s]? else .error .pastLine

/-- The pointer `s++`. -/
def advance (s : ℕ) : Except Stop ℕ :=
  if s < line.length then .ok (s + 1) else .error .pastLine

/-- The rounds that are left of a scan. -/
def scanLoop (go : Option Char → Bool) : ℕ → ℕ → Except Stop ℕ
  | 0, s => .ok s
  | k + 1, s => do
    let c ← load line s
    if go c then
      let s ← advance line s
      scanLoop go k s
    else .ok s

/-- The loop `while (s < es && go(*s)) s++`. -/
def scan (go : Option Char → Bool) (s : ℕ) : Except Stop ℕ :=
  scanLoop line go (line.length - s) s

/-- The characters from `q` to `eq`. -/
def mkcopy (q eq : ℕ) : Word := (line.drop q).take (eq - q)

/-! ### The parser -/

/-- The next token, where its text starts and ends, and where to go on. -/
def gettoken (s : ℕ) : Except Stop (Token × ℕ × ℕ × ℕ) := do
  let q ← scan line (strchr whitespace) s
  let c ← load line q
  let (tok, eq) ← match c with
    | none => .ok (.eof, q)
    | some c =>
      if c = ';' ∨ c = '&' then do
        let s ← advance line q
        .ok (.op c, s)
      else do
        let s ← scan line (fun c => !strchr whitespace c && !strchr symbols c) q
        .ok (.word, s)
  let s ← scan line (strchr whitespace) eq
  .ok (tok, q, eq, s)

/-- Advance over whitespace and say whether the next character is one of `toks`. -/
def peek (s : ℕ) (toks : List Char) : Except Stop (Bool × ℕ) := do
  let s ← scan line (strchr whitespace) s
  let c ← load line s
  .ok (c.isSome && strchr toks c, s)

/-- The loop of `parseexec`. -/
def parseexecLoop : ℕ → Argv → ℕ → ℕ → Except Stop (Argv × ℕ × ℕ)
  | 0, _, _, _ => .error (.exit .fuel)
  | n + 1, argv, argc, s => do
    let (stop, s) ← peek line s [';', '&']
    if stop then .ok (argv, argc, s)
    else
      let (tok, q, eq, s) ← gettoken line s
      match tok with
      | .eof => .ok (argv, argc, s)
      | .op _ => .error (.exit .syntaxError)
      | .word =>
        let argv ← store argv argc (some (mkcopy line q eq))
        if MAXARGS ≤ argc + 1 then .error (.exit .tooManyArgs)
        else parseexecLoop n argv (argc + 1) s

/-- Parse a command. The array starts with all entries `NULL`. -/
def parseexec (s : ℕ) : Except Stop (Argv × ℕ) := do
  let (argv, argc, s) ← parseexecLoop line MAXARGS (fun _ => none) 0 s
  let argv ← store argv argc none
  .ok (argv, s)

/-- Parse commands in parallel. -/
def parseparallel : ℕ → Flags → ℕ → Except Stop (Node × Flags × ℕ)
  | 0, _, _ => .error (.exit .fuel)
  | n + 1, f, s => do
    let c ← load line s
    if f.expectingParallel = true ∧ c = none then .ok (.unset, ⟨true, false⟩, s)
    else
      let (argv, s) ← parseexec line s
      let (hasSymbol, s) ← peek line s ['&']
      if (!f.invalid && hasSymbol || f.expectingParallel) = true then
        if (hasSymbol || !f.expectingParallel) = true then
          let (_, _, _, s) ← gettoken line s
          let (atEnd, s) ← peek line s [';']
          if atEnd then .ok (.exec argv, ⟨true, false⟩, s)
          else
            let (next, f, s) ← parseparallel n ⟨f.invalid, true⟩ s
            .ok (.parallel (.exec argv) next, f, s)
        else
          let (next, f, s) ← parseparallel n ⟨f.invalid, false⟩ s
          .ok (.parallel (.exec argv) next, f, s)
      else .ok (.exec argv, f, s)

mutual

/-- Parse a line, which must not start with `&`. -/
def parseline : ℕ → Flags → ℕ → Except Stop (Node × Flags × ℕ)
  | 0, _, _ => .error (.exit .fuel)
  | n + 1, f, s => do
    let (amp, s) ← peek line s ['&']
    if amp then .ok (.unset, ⟨true, f.expectingParallel⟩, s)
    else parsesequence n ⟨false, f.expectingParallel⟩ s

/-- Parse commands in sequence. -/
def parsesequence : ℕ → Flags → ℕ → Except Stop (Node × Flags × ℕ)
  | 0, _, _ => .error (.exit .fuel)
  | n + 1, f, s => do
    let (cmd, f, s) ← parseparallel line (line.length - s + 3) f s
    if f.invalid then .ok (cmd, f, s)
    else
      let (more, s) ← peek line s [';']
      if more then
        let (_, _, _, s) ← gettoken line s
        let (next, f, s) ← parseline n f s
        .ok (.sequence cmd next, f, s)
      else .ok (cmd, f, s)

end

/-- Parse a command line. -/
def parsecmd : Except Stop Node := do
  let (cmd, f, s) ← parseline line (2 * line.length + 2) ⟨false, false⟩ 0
  if f.invalid then
    let (argv, _) ← parseexec line s
    .ok (.invalid argv)
  else
    let (_, s) ← peek line s []
    if s ≠ line.length then .error (.exit (.leftovers (line.drop s))) else .ok cmd

end Parser

/-! ### Pointers and texts -/

section Follows

open Except

variable {line : List Char}

/-- The pointer is in the line, and the text goes on from there. -/
structure Points (line : List Char) (s : ℕ) (t : List Char) : Prop where
  le : s ≤ line.length
  drop : line.drop s = t

theorem Points.zero (line : List Char) : Points line 0 line := ⟨Nat.zero_le _, rfl⟩

variable {s : ℕ} {t : List Char}

theorem Points.length (h : Points line s t) : t.length = line.length - s := by
  rw [← h.drop, List.length_drop]

theorem Points.load (h : Points line s t) : load line s = .ok t.head? := by
  rw [Raw.load, if_pos h.le, ← h.drop, List.head?_drop]

theorem Points.advance {c : Char} (h : Points line s (c :: t)) :
    advance line s = .ok (s + 1) ∧ Points line (s + 1) t := by
  have hlen := h.length
  rw [List.length_cons] at hlen
  refine ⟨if_pos (by omega), by omega, ?_⟩
  rw [← List.drop_drop, h.drop, List.drop_one, List.tail_cons]

/-- **A scan** stops at the first character that ends it, or at the end of the line. -/
theorem Points.scanLoop {go : Option Char → Bool} {p : Char → Bool} (hgo : ∀ c, go (some c) = p c) :
    ∀ {k s : ℕ} {t : List Char}, Points line s t → t.length = k →
      ∃ s', scanLoop line go k s = .ok s' ∧ s ≤ s' ∧ Points line s' (t.dropWhile p) ∧
        mkcopy line s s' = t.takeWhile p
  | 0, s, t, h, hk => by
    obtain rfl : t = [] := List.length_eq_zero_iff.mp hk
    exact ⟨s, rfl, le_refl _, h, by simp [mkcopy]⟩
  | k + 1, s, [], h, hk => by simp at hk
  | k + 1, s, c :: t, h, hk => by
    rw [Raw.scanLoop, h.load]
    simp only [List.head?_cons, Except.ok_bind, hgo]
    cases hp : p c with
    | false => exact ⟨s, by simp, le_refl _, by simpa [hp] using h, by simp [mkcopy, hp]⟩
    | true =>
      obtain ⟨hadv, hnext⟩ := h.advance
      obtain ⟨s', hs', hle, hpoints, hcopy⟩ := Points.scanLoop hgo hnext (by simpa using hk)
      refine ⟨s', by simp [hadv, hs'], by omega, by simpa [hp] using hpoints, ?_⟩
      have hdiff : s' - s = s' - (s + 1) + 1 := by omega
      have hdrop : line.drop s = c :: line.drop (s + 1) := by rw [h.drop, hnext.drop]
      rw [mkcopy, hdiff, hdrop, List.take_succ_cons, List.takeWhile_cons_of_pos hp, ← hcopy]
      rfl

theorem strchr_whitespace (c : Char) : strchr whitespace (some c) = isWhitespace c := rfl

theorem strchr_word (c : Char) :
    (!strchr whitespace (some c) && !strchr symbols (some c)) = isWordChar c := rfl

theorem Points.scan {go : Option Char → Bool} {p : Char → Bool} (hgo : ∀ c, go (some c) = p c)
    {s : ℕ} {t : List Char} (h : Points line s t) :
    ∃ s', scan line go s = .ok s' ∧ Points line s' (t.dropWhile p) ∧
      mkcopy line s s' = t.takeWhile p := by
  obtain ⟨s', hs', -, hpoints, hcopy⟩ := h.scanLoop hgo h.length
  exact ⟨s', hs', hpoints, hcopy⟩

theorem Points.peek (h : Points line s t) (toks : List Char) :
    ∃ b s' t', peek line s toks = .ok (b, s') ∧ Hwsh.peek t toks = (b, t') ∧ Points line s' t' := by
  obtain ⟨s', hs', hpoints, -⟩ := h.scan strchr_whitespace
  refine ⟨(Hwsh.peek t toks).1, s', skip t, ?_, rfl, hpoints⟩
  rw [Raw.peek, hs', Except.ok_bind, hpoints.load, Except.ok_bind]
  cases hskip : t.dropWhile isWhitespace with
  | nil => simp [Hwsh.peek, skip, hskip]
  | cons c u => simp [Hwsh.peek, skip, hskip, strchr]

theorem Points.gettoken (h : Points line s t) :
    ∃ tok q eq s' t', gettoken line s = .ok (tok, q, eq, s') ∧
      Hwsh.gettoken t = (tok, mkcopy line q eq, t') ∧ Points line s' t' := by
  obtain ⟨q, hq, hpoints, -⟩ := h.scan strchr_whitespace
  rw [Raw.gettoken, hq, Except.ok_bind, hpoints.load, Except.ok_bind]
  cases hskip : t.dropWhile isWhitespace with
  | nil =>
    -- the end of the line, where the last scan stays
    obtain ⟨s', hs', hend, -⟩ := hpoints.scan strchr_whitespace
    rw [hskip] at hend
    refine ⟨.eof, q, q, s', [], ?_, ?_, hend⟩
    · simp [hs']
    · simp [Hwsh.gettoken, skip, hskip, mkcopy]
  | cons c u =>
    rw [hskip] at hpoints
    by_cases hop : c = ';' ∨ c = '&'
    · obtain ⟨hadv, hnext⟩ := hpoints.advance
      obtain ⟨s', hs', hend, -⟩ := hnext.scan strchr_whitespace
      refine ⟨.op c, q, q + 1, s', skip u, ?_, ?_, hend⟩
      · simp [hop, hadv, hs']
      · simp [Hwsh.gettoken, skip, hskip, hop, mkcopy, hpoints.drop]
    · obtain ⟨eq, heq, hword, hcopy⟩ := @Points.scan line
        (fun c => !strchr whitespace c && !strchr symbols c) isWordChar strchr_word q _ hpoints
      obtain ⟨s', hs', hend, -⟩ := hword.scan strchr_whitespace
      refine ⟨.word, q, eq, s', _, ?_, ?_, hend⟩
      · simp [hop, heq, hs']
      · simp [Hwsh.gettoken, skip, hskip, hop, hcopy]

/-! ### Words and arrays -/

/-- The array of a list of words. -/
def argvOf (ws : List Word) : Argv := fun i => ws[i.val]?

theorem store_argvOf {ws : List Word} (h : ws.length < MAXARGS) (w : Word) :
    store (argvOf ws) ws.length (some w) = .ok (argvOf (ws ++ [w])) := by
  rw [store, dif_pos h]
  congr 1
  funext i
  rcases lt_trichotomy i.val ws.length with hlt | heq | hgt
  · have hne : i ≠ ⟨ws.length, h⟩ := fun he => by simp [he] at hlt
    simp [argvOf, hne, List.getElem?_append_left hlt]
  · obtain rfl : i = ⟨ws.length, h⟩ := Fin.ext heq
    simp [argvOf]
  · have hne : i ≠ ⟨ws.length, h⟩ := fun he => by simp [he] at hgt
    have hle : (ws ++ [w]).length ≤ i.val := by simpa using hgt
    simp [argvOf, hne, List.getElem?_eq_none_iff.mpr hle, List.getElem?_eq_none_iff.mpr hgt.le]

/-- The last store changes nothing, since the entries behind the words are `NULL` already. -/
theorem store_null {ws : List Word} (h : ws.length < MAXARGS) :
    store (argvOf ws) ws.length none = .ok (argvOf ws) := by
  rw [store, dif_pos h]
  simp [argvOf]

/-- What the loop of `parseexec` returns, in both parsers. -/
inductive LoopRel (line : List Char) : Argv × ℕ × ℕ → List Word × List Char → Prop
  | mk {ws : List Word} {s : ℕ} {t : List Char} (lt : ws.length < MAXARGS)
      (points : Points line s t) :
      LoopRel line (argvOf ws, ws.length, s) (ws, t)

/-- **The loop of `parseexec`**, with as many entries left as in the other parser. -/
theorem follows_parseexecLoop : ∀ (n : ℕ) {ws : List Word} {s : ℕ} {t : List Char},
    ws.length + (n + 1) = MAXARGS → Points line s t →
    Follows .exit (LoopRel line) (parseexecLoop line (n + 1) (argvOf ws) ws.length s)
      (Hwsh.parseexecLoop (n + 1) ws t)
  | n, ws, s, t, hn, h => by
    have hlt : ws.length < MAXARGS := by omega
    obtain ⟨stop, s₁, t₁, hpeek, hpeek', h₁⟩ := h.peek [';', '&']
    rw [parseexecLoop, Hwsh.parseexecLoop, hpeek, hpeek', Except.ok_bind]
    cases stop with
    | true => exact .ok ⟨hlt, h₁⟩
    | false =>
      obtain ⟨tok, q, eq, s₂, t₂, htok, htok', h₂⟩ := h₁.gettoken
      simp only [Bool.false_eq_true, if_false, htok, htok', Except.ok_bind]
      cases tok with
      | eof => exact .ok ⟨hlt, h₂⟩
      | op c => exact .error
      | word =>
        simp only [store_argvOf hlt, Except.ok_bind]
        cases n with
        | zero =>
          -- the word has taken the last entry
          rw [if_pos (by omega)]
          exact .error
        | succ n =>
          have hlen : (ws ++ [mkcopy line q eq]).length = ws.length + 1 := by simp
          rw [if_neg (by omega), ← hlen]
          exact follows_parseexecLoop n (by omega) h₂

/-- What `parseexec` returns, in both parsers. -/
inductive ExecRel (line : List Char) : Argv × ℕ → List Word × List Char → Prop
  | mk {ws : List Word} {s : ℕ} {t : List Char} (points : Points line s t) :
      ExecRel line (argvOf ws, s) (ws, t)

theorem follows_parseexec (h : Points line s t) :
    Follows .exit (ExecRel line) (parseexec line s) (Hwsh.parseexec t) := by
  have hloop : Follows .exit (LoopRel line) (parseexecLoop line MAXARGS (argvOf []) 0 s)
      (Hwsh.parseexecLoop MAXARGS [] t) := follows_parseexecLoop 9 rfl h
  unfold parseexec Hwsh.parseexec
  rw [← bind_pure (Hwsh.parseexecLoop MAXARGS [] t)]
  refine hloop.bind ?_
  rintro _ _ ⟨hlt, hpoints⟩
  simp only [store_null hlt, Except.ok_bind]
  exact .ok ⟨hpoints⟩

/-! ### Trees -/

/-- The nodes of a tree. -/
def toNode : Cmd → Node
  | .exec ws => .exec (argvOf ws)
  | .sequence cmd next => .sequence (toNode cmd) (toNode next)
  | .parallel cmd next => .parallel (toNode cmd) (toNode next)
  | .invalid ws => .invalid (argvOf ws)
  | .unset => .unset

/-- What the other functions return, in both parsers. -/
inductive Rel (line : List Char) : Node × Flags × ℕ → Cmd × Flags × List Char → Prop
  | mk {node : Node} {cmd : Cmd} {f : Flags} {s : ℕ} {t : List Char} (node_eq : node = toNode cmd)
      (points : Points line s t) : Rel line (node, f, s) (cmd, f, t)

theorem follows_parseparallel : ∀ (n : ℕ) (f : Flags) {s : ℕ} {t : List Char}, Points line s t →
    Follows .exit (Rel line) (parseparallel line n f s) (Hwsh.parseparallel n f t)
  | 0, _, _, _, _ => rfl
  | n + 1, f, s, t, h => by
    rw [parseparallel, Hwsh.parseparallel, h.load, Except.ok_bind]
    by_cases hend : f.expectingParallel = true ∧ t = []
    · rw [if_pos hend, if_pos ⟨hend.1, by simp [hend.2]⟩]
      exact .ok ⟨rfl, h⟩
    · have hend' : ¬ (f.expectingParallel = true ∧ t.head? = none) := by
        simpa [List.head?_eq_none_iff] using hend
      rw [if_neg hend, if_neg hend']
      refine (follows_parseexec h).bind ?_
      rintro _ _ ⟨h₁⟩
      obtain ⟨hasSymbol, s₂, t₂, hpeek, hpeek', h₂⟩ := h₁.peek ['&']
      simp only [hpeek, hpeek', Except.ok_bind]
      by_cases hmore : (!f.invalid && hasSymbol || f.expectingParallel) = true
      · rw [if_pos hmore, if_pos hmore]
        by_cases hamp : (hasSymbol || !f.expectingParallel) = true
        · rw [if_pos hamp, if_pos hamp]
          obtain ⟨tok, q, eq, s₃, t₃, htok, htok', h₃⟩ := h₂.gettoken
          obtain ⟨atEnd, s₄, t₄, hsemi, hsemi', h₄⟩ := h₃.peek [';']
          simp only [htok, htok', Except.ok_bind, hsemi, hsemi']
          cases atEnd with
          | true => exact .ok ⟨rfl, h₄⟩
          | false =>
            refine (follows_parseparallel n _ h₄).bind ?_
            rintro _ _ ⟨rfl, h₅⟩
            exact .ok ⟨rfl, h₅⟩
        · rw [if_neg hamp, if_neg hamp]
          refine (follows_parseparallel n _ h₂).bind ?_
          rintro _ _ ⟨rfl, h₅⟩
          exact .ok ⟨rfl, h₅⟩
      · rw [if_neg hmore, if_neg hmore]
        exact .ok ⟨rfl, h₂⟩

mutual

theorem follows_parseline : ∀ (n : ℕ) (f : Flags) {s : ℕ} {t : List Char}, Points line s t →
    Follows .exit (Rel line) (parseline line n f s) (Hwsh.parseline n f t)
  | 0, _, _, _, _ => rfl
  | n + 1, f, s, t, h => by
    obtain ⟨amp, s₁, t₁, hpeek, hpeek', h₁⟩ := h.peek ['&']
    rw [parseline, Hwsh.parseline, hpeek, hpeek', Except.ok_bind]
    cases amp with
    | true => exact .ok ⟨rfl, h₁⟩
    | false => exact follows_parsesequence n _ h₁

theorem follows_parsesequence : ∀ (n : ℕ) (f : Flags) {s : ℕ} {t : List Char}, Points line s t →
    Follows .exit (Rel line) (parsesequence line n f s) (Hwsh.parsesequence n f t)
  | 0, _, _, _, _ => rfl
  | n + 1, f, s, t, h => by
    rw [parsesequence, Hwsh.parsesequence, h.length]
    refine (follows_parseparallel _ f h).bind ?_
    rintro _ _ @⟨_, cmd, f', s₁, t₁, rfl, h₁⟩
    simp only
    cases hinvalid : f'.invalid with
    | true => exact .ok ⟨rfl, h₁⟩
    | false =>
      obtain ⟨more, s₂, t₂, hpeek, hpeek', h₂⟩ := h₁.peek [';']
      simp only [Bool.false_eq_true, if_false, hpeek, hpeek', Except.ok_bind]
      cases more with
      | true =>
        obtain ⟨tok, q, eq, s₃, t₃, htok, htok', h₃⟩ := h₂.gettoken
        simp only [if_true, htok, htok', Except.ok_bind]
        refine (follows_parseline n _ h₃).bind ?_
        rintro _ _ ⟨rfl, h₄⟩
        exact .ok ⟨rfl, h₄⟩
      | false => exact .ok ⟨rfl, h₂⟩

end

/-- **The parser follows the parser of lists.** -/
theorem follows_parsecmd (line : List Char) :
    Follows .exit (fun node cmd => node = toNode cmd) (parsecmd line) (Hwsh.parsecmd line) := by
  refine (follows_parseline _ _ (Points.zero line)).bind ?_
  rintro _ _ @⟨_, cmd, f, s, t, rfl, h⟩
  simp only
  cases hinvalid : f.invalid with
  | true =>
    refine (follows_parseexec h).bind ?_
    rintro _ _ ⟨-⟩
    exact .ok rfl
  | false =>
    obtain ⟨b, s', t', hpeek, hpeek', h'⟩ := h.peek []
    simp only [Bool.false_eq_true, if_false, hpeek, hpeek', Except.ok_bind]
    have hend : s' ≠ line.length ↔ t' ≠ [] := by
      have hlen := h'.length
      have hle := h'.le
      rw [ne_eq, ne_eq, ← List.length_eq_zero_iff]
      omega
    by_cases hleft : s' ≠ line.length
    · rw [if_pos hleft, if_pos (hend.mp hleft), h'.drop]
      exact .error
    · rw [if_neg hleft, if_neg (mt hend.mpr hleft)]
      exact .ok rfl

end Follows

/-! ### Every line -/

theorem type_toNode (cmd : Cmd) : (toNode cmd).type = cmd.type := by
  cases cmd <;> rfl

/-- A node is that of the tree the other parser returns. -/
theorem exists_tree {line : List Char} {node : Node} (h : parsecmd line = .ok node) :
    ∃ cmd, Hwsh.parsecmd line = .ok cmd ∧ node = toNode cmd := by
  have hfollows := follows_parsecmd line
  cases hparse : Hwsh.parsecmd line with
  | error e =>
    rw [hparse] at hfollows
    have herror : parsecmd line = .error (.exit e) := hfollows
    rw [h] at herror
    cases herror
  | ok cmd =>
    rw [hparse] at hfollows
    obtain ⟨node', hnode, rfl⟩ := hfollows
    rw [h] at hnode
    cases hnode
    exact ⟨cmd, rfl, rfl⟩

/-- The parser returns a node, or the shell exits because of too many words. -/
theorem parsecmd_ends (line : List Char) :
    parsecmd line = .error (.exit .tooManyArgs) ∨ ∃ node, parsecmd line = .ok node := by
  have hfollows := follows_parsecmd line
  rcases parsecmd_cases line with herror | ⟨-, hparse⟩ | ⟨-, -, hparse⟩
  · rw [herror] at hfollows
    exact Or.inl hfollows
  · rw [hparse] at hfollows
    obtain ⟨node, hnode, -⟩ := hfollows
    exact Or.inr ⟨node, hnode⟩
  · rw [hparse] at hfollows
    obtain ⟨node, hnode, -⟩ := hfollows
    exact Or.inr ⟨node, hnode⟩

/-- An accepted line is plain, and its tree is known. -/
theorem accepted {line : List Char} {node : Node} (h : parsecmd line = .ok node)
    (hrun : node.type ≠ some (-1)) : Plain line ∧ node = toNode (lineTree line) := by
  obtain ⟨cmd, hparse, rfl⟩ := exists_tree h
  rw [type_toNode] at hrun
  obtain ⟨hplain, -, rfl⟩ := plain_of_accepted hparse hrun
  exact ⟨hplain, rfl⟩

/-- **Parsing ends within bounds.** On every line the parser returns a node, or the shell exits
because of too many words. So the fuel is enough, no pointer leaves the line and no store leaves
`argv`; and a line with a `<`, a `|` or a `>` is not accepted. -/
theorem parsing_in_bounds (line : List Char) :
    (parsecmd line = .error (.exit .tooManyArgs) ∨ ∃ node, parsecmd line = .ok node) ∧
    ∀ node, parsecmd line = .ok node → node.type ≠ some (-1) →
      ∀ c ∈ line, c ≠ '<' ∧ c ≠ '|' ∧ c ≠ '>' :=
  ⟨parsecmd_ends line, fun _ h hrun => (accepted h hrun).1.noRedirect⟩

/-- A line with a redirection: an empty word is stored until `argv` is full. -/
theorem parsing_in_bounds_redirect :
    parsecmd ['a', '<', 'b', '\n'] = .error (.exit .tooManyArgs) ∧
    ∀ node, parsecmd ['a', '<', 'b', '\n'] = .ok node → node.type ≠ some (-1) →
      ∀ c ∈ ['a', '<', 'b', '\n'], c ≠ '<' ∧ c ≠ '|' ∧ c ≠ '>' := by
  have hfollows := follows_parsecmd ['a', '<', 'b', '\n']
  exact ⟨hfollows, (parsing_in_bounds _).2⟩

theorem chain_toNode (ps : List (List Char)) :
    (toNode (chain ps)).chain = some (ps.map fun p => argvOf (words p)) := by
  induction ps with
  | nil => rfl
  | cons p ps ih => simp [Hwsh.chain, toNode, Node.chain, ih]

theorem last_toNode (ps : List (List Char)) : (toNode (chain ps)).last = .exec (argvOf []) := by
  induction ps with
  | nil => rfl
  | cons p ps ih => simpa [Hwsh.chain, toNode, Node.last] using ih

theorem group_toNode {ps : List (List Char)} (h : ps ≠ []) :
    (toNode (groupTree ps)).group = some (ps.map fun p => argvOf (words p)) ∧
      (toNode (groupTree ps)).flatten = (toNode (groupTree ps)).group.map ([·]) ∧
      ∀ e ∈ (toNode (groupTree ps)).chainEnds, e = .exec (argvOf []) := by
  obtain ⟨p, qs, rfl⟩ := List.exists_cons_of_ne_nil h
  cases qs with
  | nil => exact ⟨rfl, rfl, by simp [groupTree, toNode, Node.chainEnds]⟩
  | cons q ps =>
    refine ⟨chain_toNode (p :: q :: ps), rfl, ?_⟩
    simp [groupTree, Hwsh.chain, toNode, Node.chainEnds, Node.last, last_toNode]

theorem flatten_toNode : ∀ {gs : List (List (List Char))}, gs ≠ [] → (∀ ps ∈ gs, ps ≠ []) →
    (toNode (sequenceTree gs)).flatten = some (gs.map (List.map fun p => argvOf (words p))) ∧
      ∀ e ∈ (toNode (sequenceTree gs)).chainEnds, e = .exec (argvOf [])
  | [ps], _, hgs => by
    obtain ⟨hgroup, hflat, hends⟩ := group_toNode (hgs ps List.mem_cons_self)
    refine ⟨?_, hends⟩
    show (toNode (groupTree ps)).flatten = _
    rw [hflat, hgroup]
    rfl
  | ps :: g :: gs, _, hgs => by
    obtain ⟨hgroup, -, hends⟩ := group_toNode (hgs ps List.mem_cons_self)
    obtain ⟨hrest, hends'⟩ := flatten_toNode (List.cons_ne_nil g gs)
      fun qs hqs => hgs qs (List.mem_cons_of_mem ps hqs)
    refine ⟨?_, fun e he => ?_⟩
    · simp [sequenceTree, toNode, Node.flatten, hgroup, hrest]
    · rcases List.mem_append.mp he with he | he
      · exact hends e he
      · exact hends' e he

/-- **The parser loses and invents nothing.** No line has leftovers. The groups of an accepted line
are its segments, their commands are those between the `&`s, and the array of a command has its
words and a `NULL` behind them. An `&` chain ends in a command whose first two entries are
`NULL`. -/
theorem parse_lossless (line : List Char) :
    (∀ s, parsecmd line ≠ .error (.exit (.leftovers s))) ∧
    ∀ node, parsecmd line = .ok node → node.type ≠ some (-1) →
      node.flatten = some ((segments line).map fun seg =>
        (commands seg).map fun p => argvOf (words p)) ∧
      (∀ seg ∈ segments line, ∀ p ∈ commands seg, (words p).length < MAXARGS) ∧
      ∀ e ∈ node.chainEnds, ∃ argv, e = .exec argv ∧ ∀ i : Fin MAXARGS,
        i.val < 2 → argv i = none := by
  constructor
  · intro s h
    rcases parsecmd_ends line with h' | ⟨node, h'⟩
    · rw [h] at h'
      cases h'
    · rw [h] at h'
      cases h'
  · intro node h hrun
    obtain ⟨hplain, rfl⟩ := accepted h hrun
    have hgs : ∀ ps ∈ (segments line).map commands, ps ≠ [] := by
      intro ps hps
      obtain ⟨seg, -, rfl⟩ := List.mem_map.mp hps
      exact commands_ne_nil seg
    obtain ⟨hflat, hends⟩ := flatten_toNode (by simpa using segments_ne_nil line) hgs
    refine ⟨?_, fun seg hseg p hp => (hplain.fits hseg hp).few, fun e he => ?_⟩
    · rw [lineTree, hflat, List.map_map]
      rfl
    · exact ⟨argvOf [], hends e he, fun _ _ => rfl⟩

/-- The line `a b & c ; d`, with its newline. -/
def threeCommands : List Char :=
  ['a', ' ', 'b', ' ', '&', ' ', 'c', ' ', ';', ' ', 'd', '\n']

theorem parse_lossless_three_commands : ∃ node, parsecmd threeCommands = .ok node ∧
    node.flatten = some [[argvOf [['a'], ['b']], argvOf [['c']]], [argvOf [['d']]]] ∧
    ∀ e ∈ node.chainEnds, ∃ argv, e = .exec argv ∧ ∀ i :
      Fin MAXARGS, i.val < 2 → argv i = none := by
  have hfollows := follows_parsecmd threeCommands
  obtain ⟨node, hnode, rfl⟩ := hfollows
  obtain ⟨hflat, -, hends⟩ := (parse_lossless threeCommands).2 _ hnode (by rw [type_toNode]; decide)
  refine ⟨_, hnode, ?_, hends⟩
  rw [hflat]
  have hwords : ((segments threeCommands).map fun seg => (commands seg).map words) =
      [[[['a'], ['b']], [['c']]], [[['d']]]] := by decide
  have hmap := congrArg (List.map (List.map argvOf)) hwords
  simpa [List.map_map, Function.comp_def] using hmap

end Hwsh.Raw
