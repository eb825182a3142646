import CS450.Shell.Sh

/-!
# What the xv6 shell accepts

The parser of `sh.c` is a recursive descent over the tokens of the line. It returns the tree of a
derivation of the grammar, or panics; and where there is a derivation, it returns its tree.

## Main results

* `parse_sound`: the parser returns trees of derivations, or panics
* `parse_complete`: it returns the tree of every derivation
* `parsecmd_accepts_grammar`: the parser accepts exactly its grammar
-/

namespace Xv6.Sh

open Except

section Loops

variable {line : List Char} {s n : ℕ} {ts rest : List Token} {cmd : Cmd}

/-- A parse returns something that meets the condition, or panics. -/
def Meets {α : Type} (r : Except Panic α) (Q : α → Prop) : Prop :=
  match r with
  | .ok x => Q x
  | .error p => p ≠ .fuel

theorem meets_bind {α β : Type} {r : Except Panic α} {f : α → Except Panic β} {Q : β → Prop} :
    Meets (r >>= f) Q ↔ Meets r fun x => Meets (f x) Q := by
  cases r <;> rfl

theorem Meets.mono {α : Type} {r : Except Panic α} {Q Q' : α → Prop} (h : Meets r Q)
    (hQ : ∀ x, Q x → Q' x) : Meets r Q' := by
  cases r with
  | ok x => exact hQ x h
  | error p => exact h

/-! ### Loops -/

/-- The number of tokens is bounded by the length of the line. -/
theorem lex_length_le (pos : ℕ) (cs : List Char) : (lex pos cs).length ≤ cs.length := by
  induction pos, cs using lex.induct with
  | case1 => simp [lex]
  | case2 pos cs ih =>
    rw [lex]
    simp only [List.length_cons]
    omega
  | case3 pos c cs hne hc ih =>
    rw [lex, if_pos hc]
    · simp only [List.length_cons]
      omega
    · exact hne
  | case4 pos c cs hne hc t ht ih =>
    rw [lex, if_neg hc, ht]
    · simp only [List.length_cons]
      omega
    · exact hne
  | case5 pos c cs hne hc ht ih =>
    rw [lex, if_neg hc, ht]
    · have := (List.dropWhile_sublist (l := cs) isWordChar).length_le
      simp only [List.length_cons]
      omega
    · exact hne

theorem At.length_le (h : At line s ts) : ts.length ≤ line.length := by
  have := lex_length_le s (line.drop s)
  rw [h.lex, List.length_drop] at this
  omega

variable {c : Char} {t : Token} {rs : List Redir}

theorem ofChar_of_char (h : t.char = some c) (hc : c ≠ '>') :
    Token.ofChar c = some t := by
  cases t with
  | word w => cases h
  | gt => exact absurd (Option.some.inj h).symm hc
  | append => exact absurd (Option.some.inj h).symm hc
  | _ =>
    obtain rfl := Option.some.inj h
    rfl

/-- Tokens that begin with the operator of one character, other than `>`. -/
theorem exists_of_starts (h : starts [c] ts = true)
    (ht : Token.ofChar c = some t) (hc : c ≠ '>') : ∃ ts', ts = t :: ts' := by
  cases ts with
  | nil => cases h
  | cons t' ts =>
    refine ⟨ts, ?_⟩
    have hchar : t'.char = some c := by
      cases hx : t'.char with
      | none => simp [starts, hx] at h
      | some x =>
        have : x = c := by simpa [starts, hx] using h
        rw [this]
    rw [ofChar_of_char hchar hc] at ht
    rw [Option.some.inj ht]

/-- An operator is seen, and then read. -/
theorem eat (h : At line s (t :: ts)) (ht : Token.ofChar c = some t) :
    ∃ s₁ w s₂, peek line s [c] = (true, s₁) ∧ At line s₁ (t :: ts) ∧
      gettoken line s₁ = (t.tok, w, s₂) ∧ At line s₂ ts := by
  have hsym : isSymbol c = true := by
    by_contra hc
    rw [ofChar_eq_none_iff.mpr (by simpa using hc)] at ht
    cases ht
  obtain ⟨s₁, hpeek, h₁, -⟩ := peek_spec h [c] (by simp [hsym])
  obtain ⟨w, s₂, hget, h₂, -⟩ := gettoken_spec h₁
  refine ⟨s₁, w, s₂, ?_, h₁, hget, h₂⟩
  rw [hpeek]
  simp [starts, tok_ofChar ht]

/-- Another operator is not seen. -/
theorem pass (h : At line s ts) (hc : isSymbol c = true) (hts : starts [c] ts = false) :
    ∃ s₁, peek line s [c] = (false, s₁) ∧ At line s₁ ts := by
  obtain ⟨s₁, hpeek, h₁, -⟩ := peek_spec h [c] (by simp [hc])
  rw [hts] at hpeek
  exact ⟨s₁, hpeek, h₁⟩

/-! ### Redirections -/

theorem length_tokens (r : Redir) : r.tokens.length = 2 := by
  cases r <;> rfl

theorem length_le_tokens (rs : List Redir) : rs.length ≤ (rs.flatMap Redir.tokens).length := by
  induction rs with
  | nil => simp
  | cons r rs ih =>
    rw [List.flatMap_cons, List.length_append, length_tokens, List.length_cons]
    omega

/-- A redirection in front is read. -/
theorem redirsLoop_cons (r : Redir) (h : At line s (r.tokens ++ ts)) :
    ∃ s', At line s' ts ∧
      ∀ n cmd, parseredirsLoop line (n + 1) cmd s = parseredirsLoop line n (r.wrap cmd) s' := by
  obtain ⟨t, file, htok⟩ : ∃ t file, r.tokens = [t, .word file] := by
    cases r <;> exact ⟨_, _, rfl⟩
  rw [htok] at h
  obtain ⟨s₁, hpeek, h₁, -⟩ := peek_spec h ['<', '>'] rfl
  obtain ⟨w, s₂, hget, h₂, -⟩ := gettoken_spec h₁
  obtain ⟨s₃, hfile, h₃⟩ := gettoken_word h₂
  refine ⟨s₃, h₃, fun n cmd => ?_⟩
  rw [parseredirsLoop, hpeek]
  cases r <;> cases htok <;> simp [hget, hfile, starts, Token.char, Token.tok, Redir.wrap]

theorem redirsLoop_stop (h : At line s ts) (hts : starts ['<', '>'] ts = false) :
    ∃ s', At line s' ts ∧ ∀ n cmd, parseredirsLoop line (n + 1) cmd s = .ok (cmd, s') := by
  obtain ⟨s₁, hpeek, h₁, -⟩ := peek_spec h ['<', '>'] rfl
  refine ⟨s₁, h₁, fun n cmd => ?_⟩
  rw [parseredirsLoop, hpeek, hts]
  rfl

/-- **Redirections are read**, up to something else. -/
theorem parseredirs_complete (h : At line s (rs.flatMap Redir.tokens ++ rest))
    (hrest : starts ['<', '>'] rest = false) (cmd : Cmd) :
    ∃ s', parseredirs line cmd s = .ok (cmd.redirs rs, s') ∧ At line s' rest := by
  have hloop : ∀ (rs : List Redir) (s n : ℕ) (cmd : Cmd),
      At line s (rs.flatMap Redir.tokens ++ rest) → rs.length < n →
      ∃ s', parseredirsLoop line n cmd s = .ok (cmd.redirs rs, s') ∧ At line s' rest := by
    intro rs
    induction rs with
    | nil =>
      intro s n cmd h hn
      obtain ⟨s', h', hstop⟩ := redirsLoop_stop h hrest
      obtain ⟨n, rfl⟩ := Nat.exists_eq_succ_of_ne_zero (by omega : n ≠ 0)
      exact ⟨s', hstop n cmd, h'⟩
    | cons r rs ih =>
      intro s n cmd h hn
      rw [List.flatMap_cons, List.append_assoc] at h
      obtain ⟨s₁, h₁, hcons⟩ := redirsLoop_cons r h
      obtain ⟨n, rfl⟩ := Nat.exists_eq_succ_of_ne_zero (by omega : n ≠ 0)
      rw [Nat.succ_eq_add_one, hcons]
      exact ih s₁ n (r.wrap cmd) h₁ (by simpa using hn)
  have hlen := h.length_le
  have hrs := length_le_tokens rs
  rw [List.length_append] at hlen
  exact hloop rs s _ cmd h (by omega)

/-- Tokens that begin with an operator of a redirection. -/
theorem exists_redir (h : starts ['<', '>'] (t :: ts) = true) (w : Span) :
    ∃ r : Redir, r.tokens = [t, .word w] := by
  cases t with
  | lt => exact ⟨.input w, rfl⟩
  | gt => exact ⟨.output w, rfl⟩
  | append => exact ⟨.append w, rfl⟩
  | bar => exact absurd h Bool.false_ne_true
  | amp => exact absurd h Bool.false_ne_true
  | semi => exact absurd h Bool.false_ne_true
  | lparen => exact absurd h Bool.false_ne_true
  | rparen => exact absurd h Bool.false_ne_true
  | word w => cases h

/-- Where no word comes next, `gettoken` returns something else. -/
theorem gettoken_ne_word (h : At line s ts) (hts : ∀ w, ts.head? ≠ some (.word w)) :
    (gettoken line s).1 ≠ .word := by
  cases ts with
  | nil =>
    obtain ⟨w, s', hget, -⟩ := gettoken_eof h
    rw [hget]
    exact nofun
  | cons t ts =>
    obtain ⟨w, s', hget, -⟩ := gettoken_spec h
    rw [hget]
    cases t with
    | word w => exact absurd rfl (hts w)
    | _ => exact nofun

/-- **Redirections are all that is read.** -/
theorem parseredirs_sound (h : At line s ts) :
    Meets (parseredirs line cmd s) fun x => ∃ rs rest, ts = rs.flatMap Redir.tokens ++ rest ∧
      starts ['<', '>'] rest = false ∧ x.1 = cmd.redirs rs ∧ At line x.2 rest := by
  have hloop : ∀ (n s : ℕ) (ts : List Token) (cmd : Cmd), At line s ts → ts.length < n →
      Meets (parseredirsLoop line n cmd s) fun x => ∃ rs rest,
        ts = rs.flatMap Redir.tokens ++ rest ∧ starts ['<', '>'] rest = false ∧
        x.1 = cmd.redirs rs ∧ At line x.2 rest := by
    intro n
    induction n with
    | zero => intro s ts cmd h hn; omega
    | succ n ih =>
      intro s ts cmd h hn
      cases hts : starts ['<', '>'] ts with
      | false =>
        obtain ⟨s', h', hstop⟩ := redirsLoop_stop h hts
        rw [hstop]
        exact ⟨[], ts, rfl, hts, rfl, h'⟩
      | true =>
        obtain ⟨t, ts', rfl⟩ : ∃ t ts', ts = t :: ts' := by
          cases ts with
          | nil => cases hts
          | cons t ts => exact ⟨t, ts, rfl⟩
        by_cases hword : ∃ w, ts'.head? = some (.word w)
        · obtain ⟨w, hw⟩ := hword
          obtain ⟨ts'', rfl⟩ := List.head?_eq_some_iff.mp hw
          obtain ⟨r, hr⟩ := exists_redir hts w
          have h' : At line s (r.tokens ++ ts'') := by
            rw [hr]
            exact h
          obtain ⟨s₁, h₁, hcons⟩ := redirsLoop_cons r h'
          rw [hcons]
          refine (ih s₁ ts'' (r.wrap cmd) h₁ (by simp at hn; omega)).mono ?_
          rintro x ⟨rs, rest, rfl, hrest, hx, hat⟩
          exact ⟨r :: rs, rest, by simp [hr], hrest, hx, hat⟩
        · -- The file is missing.
          push Not at hword
          obtain ⟨s₁, hpeek, h₁, -⟩ := peek_spec h ['<', '>'] rfl
          obtain ⟨w, s₂, hget, h₂, -⟩ := gettoken_spec h₁
          have hne := gettoken_ne_word h₂ hword
          rw [parseredirsLoop, hpeek, hts]
          simp only [if_true, hget, if_pos hne]
          exact nofun
  exact hloop _ s ts cmd h (by have := h.length_le; omega)

/-! ### Words -/

/-- The tokens of a word and the redirections behind it. -/
def wordTokens (w : Span × List Redir) : List Token := .word w.1 :: w.2.flatMap Redir.tokens

/-- Words and redirections are added to a command. -/
def Cmd.fill (ret : Cmd) (ws : List (Span × List Redir)) : Cmd :=
  ws.foldl (fun ret w => (ret.addArg w.1).redirs w.2) ret

theorem addArg_redirs {w : Span} :
    (cmd.redirs rs).addArg w = (cmd.addArg w).redirs rs := by
  induction rs generalizing cmd with
  | nil => rfl
  | cons r rs ih =>
    have hwrap : (r.wrap cmd).addArg w = r.wrap (cmd.addArg w) := by
      cases r <;> rfl
    show ((r.wrap cmd).redirs rs).addArg w = (r.wrap (cmd.addArg w)).redirs rs
    rw [ih, hwrap]

/-- The words end up in one command, below all redirections. -/
theorem fill_redirs {argv : List Span} {ws : List (Span × List Redir)} :
    ((Cmd.exec argv).redirs rs).fill ws =
      (Cmd.exec (argv ++ ws.map Prod.fst)).redirs (rs ++ ws.flatMap Prod.snd) := by
  induction ws generalizing argv rs with
  | nil => simp [Cmd.fill]
  | cons w ws ih =>
    have hfirst : (((Cmd.exec argv).redirs rs).addArg w.1).redirs w.2 =
        (Cmd.exec (argv ++ [w.1])).redirs (rs ++ w.2) := by
      rw [addArg_redirs]
      exact (List.foldl_append ..).symm
    show ((((Cmd.exec argv).redirs rs).addArg w.1).redirs w.2).fill ws = _
    rw [hfirst, ih]
    simp

/-- The tokens that may follow a part of a line. -/
def Part.follow : Part → List Token
  | .line => [.rparen]
  | .pipe => [.rparen, .amp, .semi]
  | .exec => [.rparen, .amp, .semi, .bar]

/-- What follows a part of a line. -/
def Follows (p : Part) (rest : List Token) : Prop := ∀ t ∈ rest.head?, t ∈ p.follow

theorem Follows.nil {p : Part} : Follows p [] := nofun

theorem Part.follow_subset (p : Part) : p.follow ⊆ Part.exec.follow := by
  cases p <;> simp [Part.follow]

theorem Follows.exec {p : Part} (h : Follows p rest) : Follows .exec rest :=
  fun t ht => p.follow_subset (h t ht)

/-- What follows a command is the end, or one of the operators at which `parseexec` stops. -/
theorem Follows.starts_exec (h : Follows .exec rest) :
    rest = [] ∨ starts ['|', ')', '&', ';'] rest = true := by
  cases rest with
  | nil => exact .inl rfl
  | cons t rest =>
    have hmem := h t rfl
    simp only [Part.follow, List.mem_cons, List.not_mem_nil, or_false] at hmem
    rcases hmem with rfl | rfl | rfl | rfl <;> exact .inr rfl

theorem Follows.starts_redir (h : Follows .exec rest) : starts ['<', '>'] rest = false := by
  cases rest with
  | nil => rfl
  | cons t rest =>
    have hmem := h t rfl
    simp only [Part.follow, List.mem_cons, List.not_mem_nil, or_false] at hmem
    rcases hmem with rfl | rfl | rfl | rfl <;> rfl

/-- Words, or what follows a command, do not begin with a redirection. -/
theorem starts_redir_words (ws : List (Span × List Redir)) (h : Follows .exec rest) :
    starts ['<', '>'] (ws.flatMap wordTokens ++ rest) = false := by
  cases ws with
  | nil => exact h.starts_redir
  | cons w ws => rfl

/-- **Words are read**, up to what may follow a command. -/
theorem parseexecLoop_complete {ws : List (Span × List Redir)} {argc : ℕ}
    (ret : Cmd) (h : At line s (ws.flatMap wordTokens ++ rest)) (hrest : Follows .exec rest)
    (hargc : argc + ws.length ≤ 9) (hn : ws.length < n) :
    ∃ s', parseexecLoop line n argc ret s = .ok (ret.fill ws, s') ∧ At line s' rest := by
  induction ws generalizing s n argc ret with
  | nil =>
    obtain ⟨n, rfl⟩ := Nat.exists_eq_succ_of_ne_zero (by omega : n ≠ 0)
    obtain ⟨s₁, hpeek, h₁, -⟩ := peek_spec h ['|', ')', '&', ';'] rfl
    rw [parseexecLoop, hpeek]
    rcases hrest.starts_exec with rfl | hstart
    · obtain ⟨w, s₂, hget, h₂⟩ := gettoken_eof h₁
      exact ⟨s₂, by simp [hget, starts, Cmd.fill], h₂⟩
    · refine ⟨s₁, ?_, h₁⟩
      rw [List.flatMap_nil, List.nil_append, hstart]
      rfl
  | cons w ws ih =>
    obtain ⟨n, rfl⟩ := Nat.exists_eq_succ_of_ne_zero (by omega : n ≠ 0)
    rw [List.length_cons] at hargc hn
    rw [List.flatMap_cons, List.append_assoc] at h
    obtain ⟨s₁, hpeek, h₁, -⟩ := peek_spec h ['|', ')', '&', ';'] rfl
    obtain ⟨s₂, hget, h₂⟩ := gettoken_word h₁
    obtain ⟨s₃, hredirs, h₃⟩ :=
      parseredirs_complete h₂ (starts_redir_words ws hrest) (ret.addArg w.1)
    obtain ⟨s₄, hloop, h₄⟩ := @ih _ n (argc + 1) ((ret.addArg w.1).redirs w.2) h₃
      (by omega) (by omega)
    have hfew : ¬ MAXARGS ≤ argc + 1 := by
      unfold MAXARGS
      omega
    refine ⟨s₄, ?_, h₄⟩
    rw [parseexecLoop, hpeek]
    simp only [starts, wordTokens, List.cons_append, List.head?_cons, Option.any_some, Token.char,
      Option.any_none, Bool.false_eq_true, if_false, hget, reduceCtorEq, ne_eq, not_true_eq_false,
      if_neg hfew, hredirs, ok_bind]
    exact hloop

/-- **Words are all that is read.** -/
theorem parseexecLoop_sound {argc : ℕ} {ret : Cmd} (h : At line s ts) (hargc : argc ≤ 9)
    (hn : MAXARGS ≤ n + argc) :
    Meets (parseexecLoop line n argc ret s) fun x => ∃ ws rest, ts = ws.flatMap wordTokens ++ rest ∧
      argc + ws.length ≤ 9 ∧ x.1 = ret.fill ws ∧ At line x.2 rest := by
  induction n generalizing s ts argc ret with
  | zero =>
    unfold MAXARGS at hn
    omega
  | succ n ih =>
    obtain ⟨s₁, hpeek, h₁, -⟩ := peek_spec h ['|', ')', '&', ';'] rfl
    rw [parseexecLoop, hpeek]
    cases hstart : starts ['|', ')', '&', ';'] ts with
    | true => exact ⟨[], ts, rfl, by simpa using hargc, rfl, h₁⟩
    | false =>
      cases ts with
      | nil =>
        obtain ⟨w, s₂, hget, h₂⟩ := gettoken_eof h₁
        simp only [hget, Bool.false_eq_true, if_false, if_true]
        exact ⟨[], [], rfl, by simpa using hargc, rfl, h₂⟩
      | cons t ts =>
        by_cases hword : ∃ w, t = .word w
        · obtain ⟨w, rfl⟩ := hword
          obtain ⟨s₂, hget, h₂⟩ := gettoken_word h₁
          simp only [hget, Bool.false_eq_true, if_false, reduceCtorEq, ne_eq, not_true_eq_false]
          by_cases hfew : MAXARGS ≤ argc + 1
          · rw [if_pos hfew]
            exact nofun
          · rw [if_neg hfew, meets_bind]
            refine (parseredirs_sound h₂).mono ?_
            rintro ⟨ret', s₃⟩ ⟨rs, rest, rfl, -, rfl, h₃⟩
            refine (@ih _ _ (argc + 1) ((ret.addArg w).redirs rs) h₃ ?_ ?_).mono ?_
            · unfold MAXARGS at hfew
              omega
            · omega
            · rintro x ⟨ws, rest, rfl, hlen, hx, hat⟩
              refine ⟨(w, rs) :: ws, rest, ?_, ?_, hx, hat⟩
              · simp [wordTokens]
              · rw [List.length_cons]
                omega
        · obtain ⟨w, s₂, hget, h₂, -⟩ := gettoken_spec h₁
          have hne : t.tok ≠ .word ∧ t.tok ≠ .eof := by
            cases t with
            | word w => exact absurd ⟨w, rfl⟩ hword
            | _ => exact ⟨nofun, nofun⟩
          simp only [hget, Bool.false_eq_true, if_false, if_neg hne.2, if_pos hne.1]
          exact nofun

/-! ### Backgrounds -/

theorem back_backs (k : ℕ) : (Cmd.back cmd).backs k = cmd.backs (k + 1) := by
  induction k with
  | zero => rfl
  | succ k ih => exact congrArg Cmd.back ih

theorem backLoop_cons (h : At line s (.amp :: ts)) :
    ∃ s', At line s' ts ∧ ∀ n cmd,
      backLoop line (n + 1) cmd s = backLoop line n (.back cmd) s' := by
  obtain ⟨s₁, w, s₂, hpeek, -, hget, h₂⟩ := eat h (c := '&') rfl
  refine ⟨s₂, h₂, fun n cmd => ?_⟩
  rw [backLoop, hpeek]
  simp [hget]

theorem backLoop_stop (h : At line s ts) (hts : starts ['&'] ts = false) :
    ∃ s', At line s' ts ∧ ∀ n cmd, backLoop line (n + 1) cmd s = .ok (cmd, s') := by
  obtain ⟨s₁, hpeek, h₁⟩ := pass h rfl hts
  refine ⟨s₁, h₁, fun n cmd => ?_⟩
  rw [backLoop, hpeek]
  rfl

theorem backLoop_complete {k : ℕ} (cmd : Cmd) (h : At line s (List.replicate k .amp ++ rest))
    (hrest : starts ['&'] rest = false) (hn : k < n) :
    ∃ s', backLoop line n cmd s = .ok (cmd.backs k, s') ∧ At line s' rest := by
  induction k generalizing s n cmd with
  | zero =>
    obtain ⟨n, rfl⟩ := Nat.exists_eq_succ_of_ne_zero (by omega : n ≠ 0)
    obtain ⟨s', h', hstop⟩ := backLoop_stop h hrest
    exact ⟨s', hstop n cmd, h'⟩
  | succ k ih =>
    obtain ⟨n, rfl⟩ := Nat.exists_eq_succ_of_ne_zero (by omega : n ≠ 0)
    obtain ⟨s₁, h₁, hcons⟩ := backLoop_cons h
    rw [Nat.succ_eq_add_one, hcons, ← back_backs]
    exact ih _ h₁ (by omega)

theorem backLoop_sound (h : At line s ts) (hn : ts.length < n) :
    Meets (backLoop line n cmd s) fun x => ∃ k rest, ts = List.replicate k .amp ++ rest ∧
      x.1 = cmd.backs k ∧ At line x.2 rest := by
  induction n generalizing s ts cmd with
  | zero => omega
  | succ n ih =>
    cases hts : starts ['&'] ts with
    | false =>
      obtain ⟨s', h', hstop⟩ := backLoop_stop h hts
      rw [hstop]
      exact ⟨0, ts, rfl, rfl, h'⟩
    | true =>
      obtain ⟨ts', rfl⟩ := exists_of_starts (t := .amp) hts rfl (by decide)
      obtain ⟨s₁, h₁, hcons⟩ := backLoop_cons h
      rw [hcons]
      refine (ih h₁ (by simpa using hn)).mono ?_
      rintro x ⟨k, rest, rfl, hx, hat⟩
      rw [back_backs] at hx
      exact ⟨k + 1, rest, rfl, hx, hat⟩

end Loops

/-! ### The parser -/

section Parts

variable {line : List Char} {s n : ℕ} {ts rest : List Token} {cmd : Cmd}

/-- The function for a part of a line. -/
def parsePart (line : List Char) : Part → ℕ → ℕ → Except Panic (Cmd × ℕ)
  | .line => parseline line
  | .pipe => parsepipe line
  | .exec => parseexec line

/-- The depth of the calls before the first token is read. -/
def Part.depth : Part → ℕ
  | .line => 4
  | .pipe => 3
  | .exec => 2

/-- The tokens of a derivation are read, and the tree is returned. -/
def Reads (line : List Char) (p : Part) (ts : List Token) (cmd : Cmd) : Prop :=
  ∀ s rest n, At line s (ts ++ rest) → Follows p rest →
    4 * (ts ++ rest).length + p.depth ≤ n →
    ∃ s', parsePart line p n s = .ok (cmd, s') ∧ At line s' rest

variable {p : Part} {k : ℕ}

theorem Follows.cons {t : Token} (h : t ∈ p.follow) : Follows p (t :: rest) := by
  rintro t' ht'
  cases ht'
  exact h

theorem follows_replicate (h : Follows .pipe rest) :
    Follows .pipe (List.replicate k .amp ++ rest) := by
  cases k with
  | zero => exact h
  | succ k => exact .cons (by simp [Part.follow])

theorem Follows.pipe (h : Follows .line rest) : Follows .pipe rest := by
  intro t ht
  have := h t ht
  simp only [Part.follow, List.mem_singleton] at this
  simp [Part.follow, this]

/-- What follows does not begin with another operator. -/
theorem Follows.starts_ne {c : Char} {t : Token} (h : Follows p rest)
    (ht : Token.ofChar c = some t) (hc : c ≠ '>') (hp : t ∉ p.follow) :
    starts [c] rest = false := by
  by_contra hne
  obtain ⟨ts', rfl⟩ := exists_of_starts (by simpa using hne) ht hc
  exact hp (h t rfl)

/-- `line ::= pipe '&'*` -/
theorem reads_line (ih : Reads line .pipe ts cmd) :
    Reads line .line (ts ++ List.replicate k .amp) (cmd.backs k) := by
  intro s rest n h hrest hn
  rw [List.append_assoc] at h
  obtain ⟨n, rfl⟩ := Nat.exists_eq_succ_of_ne_zero (by simp only [Part.depth] at hn; omega : n ≠ 0)
  obtain ⟨s₁, hpipe, h₁⟩ := ih s (List.replicate k .amp ++ rest) n h (follows_replicate hrest.pipe)
    (by simp only [Part.depth, List.append_assoc] at hn ⊢; omega)
  have hlen := h₁.length_le
  rw [List.length_append, List.length_replicate] at hlen
  obtain ⟨s₂, hback, h₂⟩ := backLoop_complete cmd h₁
    (hrest.starts_ne (t := .amp) rfl (by decide) (by decide)) (by omega : k < line.length + 1)
  obtain ⟨s₃, hpeek, h₃⟩ := pass h₂ (c := ';') rfl (hrest.starts_ne rfl (by decide) (by decide))
  refine ⟨s₃, ?_, h₃⟩
  have hpipe' : parsepipe line n s = .ok (cmd, s₁) := hpipe
  show parseline line (n + 1) s = _
  rw [parseline, hpipe', ok_bind]
  simp only [hback, ok_bind, hpeek]
  rfl

/-- `line ::= pipe '&'* ';' line` -/
theorem reads_list {ts' : List Token} {right : Cmd} (ih : Reads line .pipe ts cmd)
    (ih' : Reads line .line ts' right) :
    Reads line .line (ts ++ List.replicate k .amp ++ .semi :: ts') (.list (cmd.backs k) right) := by
  intro s rest n h hrest hn
  have hassoc : ts ++ List.replicate k .amp ++ .semi :: ts' ++ rest =
      ts ++ (List.replicate k .amp ++ .semi :: (ts' ++ rest)) := by simp
  rw [hassoc] at h hn
  obtain ⟨n, rfl⟩ := Nat.exists_eq_succ_of_ne_zero (by simp only [Part.depth] at hn; omega : n ≠ 0)
  obtain ⟨s₁, hpipe, h₁⟩ := ih s (List.replicate k .amp ++ .semi :: (ts' ++ rest)) n h
    (follows_replicate (.cons (by simp [Part.follow]))) (by simp only [Part.depth] at hn ⊢; omega)
  have hlen := h₁.length_le
  rw [List.length_append, List.length_replicate] at hlen
  obtain ⟨s₂, hback, h₂⟩ := backLoop_complete cmd h₁ rfl (by omega : k < line.length + 1)
  obtain ⟨s₃, w, s₄, hpeek, -, hget, h₄⟩ := eat h₂ (c := ';') rfl
  have hn' : 4 * (ts' ++ rest).length + Part.line.depth ≤ n := by
    simp only [Part.depth, List.length_append, List.length_cons, List.length_replicate] at hn ⊢
    omega
  obtain ⟨s₅, hline, h₅⟩ := ih' s₄ rest n h₄ hrest hn'
  refine ⟨s₅, ?_, h₅⟩
  have hpipe' : parsepipe line n s = .ok (cmd, s₁) := hpipe
  have hline' : parseline line n s₄ = .ok (right, s₅) := hline
  show parseline line (n + 1) s = _
  rw [parseline, hpipe', ok_bind]
  simp only [hback, ok_bind, hpeek, hget]
  rw [if_pos trivial, hline']
  rfl

/-- `pipe ::= exec` -/
theorem reads_pipe (ih : Reads line .exec ts cmd) : Reads line .pipe ts cmd := by
  intro s rest n h hrest hn
  obtain ⟨n, rfl⟩ := Nat.exists_eq_succ_of_ne_zero (by simp only [Part.depth] at hn; omega : n ≠ 0)
  obtain ⟨s₁, hexec, h₁⟩ := ih s rest n h hrest.exec (by simp only [Part.depth] at hn ⊢; omega)
  obtain ⟨s₂, hpeek, h₂⟩ := pass h₁ (c := '|') rfl (hrest.starts_ne rfl (by decide) (by decide))
  refine ⟨s₂, ?_, h₂⟩
  have hexec' : parseexec line n s = .ok (cmd, s₁) := hexec
  show parsepipe line (n + 1) s = _
  rw [parsepipe, hexec', ok_bind]
  simp only [hpeek]
  rfl

/-- `pipe ::= exec '|' pipe` -/
theorem reads_pipes {ts' : List Token} {right : Cmd} (ih : Reads line .exec ts cmd)
    (ih' : Reads line .pipe ts' right) :
    Reads line .pipe (ts ++ .bar :: ts') (.pipe cmd right) := by
  intro s rest n h hrest hn
  rw [List.append_assoc, List.cons_append] at h hn
  obtain ⟨n, rfl⟩ := Nat.exists_eq_succ_of_ne_zero (by simp only [Part.depth] at hn; omega : n ≠ 0)
  obtain ⟨s₁, hexec, h₁⟩ := ih s (.bar :: (ts' ++ rest)) n h (.cons (by simp [Part.follow]))
    (by simp only [Part.depth] at hn ⊢; omega)
  obtain ⟨s₂, w, s₃, hpeek, -, hget, h₃⟩ := eat h₁ (c := '|') rfl
  have hn' : 4 * (ts' ++ rest).length + Part.pipe.depth ≤ n := by
    simp only [Part.depth, List.length_append, List.length_cons] at hn ⊢
    omega
  obtain ⟨s₄, hpipe, h₄⟩ := ih' s₃ rest n h₃ hrest hn'
  refine ⟨s₄, ?_, h₄⟩
  have hexec' : parseexec line n s = .ok (cmd, s₁) := hexec
  have hpipe' : parsepipe line n s₃ = .ok (right, s₄) := hpipe
  show parsepipe line (n + 1) s = _
  rw [parsepipe, hexec', ok_bind]
  simp only [hpeek, hget]
  rw [if_pos trivial, hpipe']
  rfl

/-- `exec ::= '(' line ')' redir*` -/
theorem reads_block {rs : List Redir} (ih : Reads line .line ts cmd) :
    Reads line .exec (.lparen :: (ts ++ .rparen :: rs.flatMap Redir.tokens)) (cmd.redirs rs) := by
  intro s rest n h hrest hn
  have hassoc : .lparen :: (ts ++ .rparen :: rs.flatMap Redir.tokens) ++ rest =
      .lparen :: (ts ++ .rparen :: (rs.flatMap Redir.tokens ++ rest)) := by simp
  rw [hassoc] at h hn
  obtain ⟨n, rfl⟩ : ∃ m, n = m + 2 := ⟨n - 2, by simp only [Part.depth] at hn; omega⟩
  obtain ⟨s₁, -, -, hpeek, h₁, -, -⟩ := eat h (c := '(') rfl
  obtain ⟨s₂, w, s₃, hpeek', -, hget, h₃⟩ := eat h₁ (c := '(') rfl
  have hn' : 4 * (ts ++ .rparen :: (rs.flatMap Redir.tokens ++ rest)).length +
      Part.line.depth ≤ n := by
    simp only [Part.depth, List.length_cons] at hn ⊢
    omega
  obtain ⟨s₄, hline, h₄⟩ := ih s₃ _ n h₃ (.cons (by simp [Part.follow])) hn'
  obtain ⟨s₅, w', s₆, hclose, -, hget', h₆⟩ := eat h₄ (c := ')') rfl
  obtain ⟨s₇, hredirs, h₇⟩ := parseredirs_complete h₆ hrest.starts_redir cmd
  refine ⟨s₇, ?_, h₇⟩
  have hline' : parseline line n s₃ = .ok (cmd, s₄) := hline
  show parseexec line (n + 1 + 1) s = _
  rw [parseexec, hpeek]
  simp only [if_true]
  rw [parseblock, hpeek']
  simp only [hget, hline', ok_bind, hclose, hget']
  exact hredirs

/-- `exec ::= redir* (word redir*)*` -/
theorem reads_simple {rs : List Redir} {ws : List (Span × List Redir)} (hws : ws.length ≤ 9) :
    Reads line .exec (rs.flatMap Redir.tokens ++ ws.flatMap wordTokens)
      ((Cmd.exec (ws.map Prod.fst)).redirs (rs ++ ws.flatMap Prod.snd)) := by
  intro s rest n h hrest hn
  rw [List.append_assoc] at h
  obtain ⟨n, rfl⟩ := Nat.exists_eq_succ_of_ne_zero (by simp only [Part.depth] at hn; omega : n ≠ 0)
  have hopen : starts ['('] (rs.flatMap Redir.tokens ++ (ws.flatMap wordTokens ++ rest)) =
      false := by
    cases rs with
    | cons r rs => cases r <;> rfl
    | nil =>
      cases ws with
      | cons w ws => rfl
      | nil => exact hrest.starts_ne (t := .lparen) rfl (by decide) (by decide)
  obtain ⟨s₁, hpeek, h₁⟩ := pass h rfl hopen
  obtain ⟨s₂, hredirs, h₂⟩ := parseredirs_complete h₁ (starts_redir_words ws hrest) (.exec [])
  obtain ⟨s₃, hloop, h₃⟩ := parseexecLoop_complete (n := MAXARGS)
    ((Cmd.exec []).redirs rs) h₂ hrest (by omega : 0 + ws.length ≤ 9) (by unfold MAXARGS; omega)
  refine ⟨s₃, ?_, h₃⟩
  rw [fill_redirs, List.nil_append] at hloop
  show parseexec line (n + 1) s = _
  rw [parseexec, hpeek]
  simp only [Bool.false_eq_true, if_false, hredirs, ok_bind]
  exact hloop

/-- **Completeness.** The parser returns the tree of every derivation. -/
theorem parse_complete (h : Derives p ts cmd) : Reads line p ts cmd := by
  induction h with
  | line k _ ih => exact reads_line ih
  | list k _ _ ih ih' => exact reads_list ih ih'
  | pipe _ ih => exact reads_pipe ih
  | pipes _ _ ih ih' => exact reads_pipes ih ih'
  | block rs _ ih => exact reads_block ih
  | simple rs ws hws => exact reads_simple hws

/-- What is returned is the tree of a derivation of the tokens that were read. -/
def Returns (line : List Char) (p : Part) (ts : List Token) (x : Cmd × ℕ) : Prop :=
  ∃ ts₁ ts₂, ts = ts₁ ++ ts₂ ∧ Derives p ts₁ x.1 ∧ At line x.2 ts₂

/-- The functions return trees of derivations with the fuel `n`, or panic. -/
structure Sound (buf : List Char) (n : ℕ) : Prop where
  line : ∀ s ts, At buf s ts → 4 * ts.length + 4 ≤ n →
    Meets (parseline buf n s) (Returns buf .line ts)
  pipe : ∀ s ts, At buf s ts → 4 * ts.length + 3 ≤ n →
    Meets (parsepipe buf n s) (Returns buf .pipe ts)
  exec : ∀ s ts, At buf s ts → 4 * ts.length + 2 ≤ n →
    Meets (parseexec buf n s) (Returns buf .exec ts)
  block : ∀ s ts, At buf s ts → 4 * ts.length + 1 ≤ n →
    Meets (parseblock buf n s) (Returns buf .exec ts)

theorem sound_parseline (ih : Sound line n) (h : At line s ts) (hn : 4 * ts.length + 4 ≤ n + 1) :
    Meets (parseline line (n + 1) s) (Returns line .line ts) := by
  rw [parseline, meets_bind]
  refine (ih.pipe s ts h (by omega)).mono ?_
  rintro ⟨cmd, s₁⟩ ⟨ts₁, ts₂, rfl, hpipe, h₁⟩
  simp only [meets_bind]
  have hlen := h₁.length_le
  refine (backLoop_sound h₁ (by omega)).mono ?_
  rintro ⟨cmd', s₂⟩ ⟨k, rest, rfl, rfl, h₂⟩
  cases hsemi : starts [';'] rest with
  | false =>
    obtain ⟨s₃, hpeek, h₃⟩ := pass h₂ rfl hsemi
    simp only [hpeek]
    exact ⟨_, rest, (List.append_assoc ..).symm, .line k hpipe, h₃⟩
  | true =>
    obtain ⟨ts₃, rfl⟩ := exists_of_starts (t := .semi) hsemi rfl (by decide)
    obtain ⟨s₃, w, s₄, hpeek, -, hget, h₄⟩ := eat h₂ (c := ';') rfl
    simp only [hpeek, hget]
    rw [if_pos trivial, meets_bind]
    have hless : 4 * ts₃.length + 4 ≤ n := by
      simp only [List.length_append, List.length_cons] at hn
      omega
    refine (ih.line s₄ ts₃ h₄ hless).mono ?_
    rintro ⟨right, s₅⟩ ⟨ts₄, ts₅, rfl, hline, h₅⟩
    exact ⟨_, ts₅, by simp, .list k hpipe hline, h₅⟩

theorem sound_parsepipe (ih : Sound line n) (h : At line s ts) (hn : 4 * ts.length + 3 ≤ n + 1) :
    Meets (parsepipe line (n + 1) s) (Returns line .pipe ts) := by
  rw [parsepipe, meets_bind]
  refine (ih.exec s ts h (by omega)).mono ?_
  rintro ⟨cmd, s₁⟩ ⟨ts₁, rest, rfl, hexec, h₁⟩
  cases hbar : starts ['|'] rest with
  | false =>
    obtain ⟨s₂, hpeek, h₂⟩ := pass h₁ rfl hbar
    simp only [hpeek]
    exact ⟨ts₁, rest, rfl, .pipe hexec, h₂⟩
  | true =>
    obtain ⟨ts₂, rfl⟩ := exists_of_starts (t := .bar) hbar rfl (by decide)
    obtain ⟨s₂, w, s₃, hpeek, -, hget, h₃⟩ := eat h₁ (c := '|') rfl
    simp only [hpeek, hget]
    rw [if_pos trivial, meets_bind]
    have hless : 4 * ts₂.length + 3 ≤ n := by
      simp only [List.length_append, List.length_cons] at hn
      omega
    refine (ih.pipe s₃ ts₂ h₃ hless).mono ?_
    rintro ⟨right, s₄⟩ ⟨ts₃, ts₄, rfl, hpipe, h₄⟩
    exact ⟨_, ts₄, by simp, .pipes hexec hpipe, h₄⟩

theorem sound_parseblock (ih : Sound line n) (h : At line s ts) (hn : 4 * ts.length + 1 ≤ n + 1) :
    Meets (parseblock line (n + 1) s) (Returns line .exec ts) := by
  rw [parseblock]
  cases hopen : starts ['('] ts with
  | false =>
    obtain ⟨s₁, hpeek, -⟩ := pass h rfl hopen
    simp only [hpeek]
    exact Panic.noConfusion
  | true =>
    obtain ⟨ts, rfl⟩ := exists_of_starts (t := .lparen) hopen rfl (by decide)
    obtain ⟨s₁, w, s₂, hpeek, -, hget, h₂⟩ := eat h (c := '(') rfl
    simp only [hpeek, hget, Bool.true_eq_false, if_false, meets_bind]
    refine (ih.line s₂ ts h₂ (by rw [List.length_cons] at hn; omega)).mono ?_
    rintro ⟨cmd, s₃⟩ ⟨ts₁, rest, rfl, hline, h₃⟩
    cases hclose : starts [')'] rest with
    | false =>
      obtain ⟨s₄, hpeek', -⟩ := pass h₃ rfl hclose
      simp only [hpeek']
      exact Panic.noConfusion
    | true =>
      obtain ⟨ts₂, rfl⟩ := exists_of_starts (t := .rparen) hclose rfl (by decide)
      obtain ⟨s₄, w', s₅, hpeek', -, hget', h₅⟩ := eat h₃ (c := ')') rfl
      simp only [hpeek', hget', Bool.true_eq_false, if_false]
      refine (parseredirs_sound h₅).mono ?_
      rintro ⟨cmd', s₆⟩ ⟨rs, rest, rfl, -, rfl, h₆⟩
      exact ⟨_, rest, by simp, .block rs hline, h₆⟩

theorem sound_parseexec (ih : Sound line n) (h : At line s ts) (hn : 4 * ts.length + 2 ≤ n + 1) :
    Meets (parseexec line (n + 1) s) (Returns line .exec ts) := by
  rw [parseexec]
  cases hopen : starts ['('] ts with
  | true =>
    obtain ⟨ts, rfl⟩ := exists_of_starts (t := .lparen) hopen rfl (by decide)
    obtain ⟨s₁, -, -, hpeek, h₁, -, -⟩ := eat h (c := '(') rfl
    simp only [hpeek, if_true]
    exact ih.block s₁ (.lparen :: ts) h₁ (by omega)
  | false =>
    obtain ⟨s₁, hpeek, h₁⟩ := pass h rfl hopen
    simp only [hpeek, Bool.false_eq_true, if_false, meets_bind]
    refine (parseredirs_sound h₁).mono ?_
    rintro ⟨ret, s₂⟩ ⟨rs, rest, rfl, -, rfl, h₂⟩
    refine (parseexecLoop_sound h₂ (Nat.zero_le 9) le_rfl).mono ?_
    rintro ⟨ret', s₃⟩ ⟨ws, rest', rfl, hfew, hret, h₃⟩
    rw [fill_redirs, List.nil_append] at hret
    have hsimple := Derives.simple rs ws (by omega)
    rw [← hret] at hsimple
    exact ⟨_, rest', (List.append_assoc ..).symm, hsimple, h₃⟩

/-- **Soundness.** The parser returns trees of derivations, or panics. -/
theorem parse_sound (line : List Char) (n : ℕ) : Sound line n := by
  induction n with
  | zero =>
    exact ⟨fun _ _ _ hn => by omega, fun _ _ _ hn => by omega, fun _ _ _ hn => by omega,
      fun _ _ _ hn => by omega⟩
  | succ n ih =>
    exact ⟨fun _ _ => sound_parseline ih, fun _ _ => sound_parsepipe ih,
      fun _ _ => sound_parseexec ih,
      fun _ _ => sound_parseblock ih⟩

theorem at_start (line : List Char) : At line 0 (lex 0 line) := ⟨Nat.zero_le _, rfl⟩

/-- What `parse` returns. -/
theorem parse_meets (line : List Char) :
    Meets (parse line) fun cmd => Derives .line (lex 0 line) cmd := by
  have hlen := (at_start line).length_le
  rw [parse, meets_bind]
  refine ((parse_sound line _).line 0 _ (at_start line) (by omega)).mono ?_
  rintro ⟨cmd, s⟩ ⟨ts, rest, hts, hderives, h⟩
  obtain ⟨s', hpeek, -, hend⟩ := peek_spec h [] rfl
  simp only [hpeek]
  by_cases hs : s' = line.length
  · rw [if_neg (not_not.mpr hs), hts, hend.mp hs, List.append_nil]
    exact hderives
  · rw [if_pos hs]
    exact nofun

theorem parse_of_derives {line : List Char} (h : Derives .line (lex 0 line) cmd) :
    parse line = .ok cmd := by
  have hlen := (at_start line).length_le
  obtain ⟨s, hline, h⟩ := parse_complete h 0 [] (4 * line.length + 4)
    (by rw [List.append_nil]; exact at_start line) .nil (by
      rw [List.append_nil]
      simp only [Part.depth]
      omega)
  have hline' : parseline line (4 * line.length + 4) 0 = .ok (cmd, s) := hline
  obtain ⟨s', hpeek, -, hend⟩ := peek_spec h [] rfl
  rw [parse, hline', ok_bind]
  simp only [hpeek]
  rw [if_neg (not_not.mpr (hend.mpr rfl))]
  rfl

/-- **The parser accepts exactly its grammar.** `parsecmd` returns a tree exactly when it is the
tree of a derivation of all tokens of the line, and otherwise it panics. -/
theorem parsecmd_accepts_grammar (line : List Char) :
    (∀ cmd, (∃ buf, parsecmd line = .ok (cmd, buf)) ↔ Derives .line (lex 0 line) cmd) ∧
      ((∃ r, parsecmd line = .ok r) ∨ ∃ p, p ≠ .fuel ∧ parsecmd line = .error p) := by
  have hmeets := parse_meets line
  unfold parsecmd
  cases hparse : parse line with
  | ok cmd =>
    rw [hparse] at hmeets
    refine ⟨fun cmd' => ⟨?_, fun h => ?_⟩, .inl ⟨_, rfl⟩⟩
    · rintro ⟨buf, heq⟩
      cases heq
      exact hmeets
    · cases hparse.symm.trans (parse_of_derives h)
      exact ⟨_, rfl⟩
  | error p =>
    rw [hparse] at hmeets
    refine ⟨fun cmd' => ⟨?_, fun h => ?_⟩, .inr ⟨p, hmeets, rfl⟩⟩
    · rintro ⟨buf, heq⟩
      cases heq
    · exact absurd (hparse.symm.trans (parse_of_derives h)) nofun

end Parts

end Xv6.Sh
