import CS450.Shell.Grammar

/-!
# The words of a command as C strings

`nulterminate` walks the tree of an accepted line and writes a NUL behind every word. A word ends in
front of a character that belongs to no word, or at the end of the line, so that the NULs, in any
order, leave all words as they are, and each word is then a C string. An operator behind a word is
overwritten; it is not needed any more.
-/

namespace Xv6.Sh

open Except

/-- The entries of `argv` and the file names of all nodes, in the order of `nulterminate`. -/
def Cmd.words : Cmd → List Span
  | .exec argv => argv
  | .redir cmd file _ _ => cmd.words ++ [file]
  | .pipe left right => left.words ++ right.words
  | .list left right => left.words ++ right.words
  | .back cmd => cmd.words

/-- NULs behind some words, in this order. -/
def terminate (ws : List Span) (buf : List Char) : List Char :=
  ws.foldl (fun buf w => buf.set w.eq '\x00') buf

/-- The C string at `p`. -/
def cstr (buf : List Char) (p : ℕ) : List Char := (buf.drop p).takeWhile (· ≠ '\x00')

theorem nulterminate_eq (cmd : Cmd) (buf : List Char) :
    nulterminate cmd buf = terminate cmd.words buf := by
  induction cmd generalizing buf with
  | exec argv => rfl
  | redir cmd file mode fd ih => simp [nulterminate, Cmd.words, terminate, ih]
  | pipe left right ihl ihr => simp [nulterminate, Cmd.words, terminate, ihl, ihr]
  | list left right ihl ihr => simp [nulterminate, Cmd.words, terminate, ihl, ihr]
  | back cmd ih => exact ih buf

/-! ### The words of a tree are tokens -/

theorem words_redirs (cmd : Cmd) (rs : List Redir) :
    ∀ w ∈ (cmd.redirs rs).words, w ∈ cmd.words ∨ .word w ∈ rs.flatMap Redir.tokens := by
  induction rs generalizing cmd with
  | nil => exact fun w hw => .inl hw
  | cons r rs ih =>
    intro w hw
    rw [List.flatMap_cons, List.mem_append]
    rcases ih (r.wrap cmd) w hw with hw | hw
    · cases r <;> simp [Redir.wrap, Cmd.words, Redir.tokens] at hw ⊢ <;> tauto
    · exact .inr (.inr hw)

theorem words_backs (cmd : Cmd) (k : ℕ) : (cmd.backs k).words = cmd.words := by
  induction k with
  | zero => rfl
  | succ k ih => exact ih

/-- The words of a tree are tokens of its derivation. -/
theorem words_mem {p : Part} {ts : List Token} {cmd : Cmd} (h : Derives p ts cmd) :
    ∀ w ∈ cmd.words, .word w ∈ ts := by
  induction h with
  | line k _ ih =>
    intro w hw
    rw [words_backs] at hw
    exact List.mem_append_left _ (ih w hw)
  | list k _ _ ih ih' =>
    intro w hw
    rw [Cmd.words, words_backs, List.mem_append] at hw
    rcases hw with hw | hw
    · exact List.mem_append_left _ (List.mem_append_left _ (ih w hw))
    · exact List.mem_append_right _ (List.mem_cons_of_mem _ (ih' w hw))
  | pipe _ ih => exact ih
  | pipes _ _ ih ih' =>
    intro w hw
    rw [Cmd.words, List.mem_append] at hw
    rcases hw with hw | hw
    · exact List.mem_append_left _ (ih w hw)
    · exact List.mem_append_right _ (List.mem_cons_of_mem _ (ih' w hw))
  | block rs _ ih =>
    intro w hw
    apply List.mem_cons_of_mem
    rcases words_redirs _ rs w hw with hw | hw
    · exact List.mem_append_left _ (ih w hw)
    · exact List.mem_append_right _ (List.mem_cons_of_mem _ hw)
  | simple rs ws _ =>
    intro w hw
    rw [List.mem_append]
    rcases words_redirs _ _ w hw with hw | hw
    · obtain ⟨a, ha, rfl⟩ := List.mem_map.mp hw
      exact .inr (List.mem_flatMap.mpr ⟨a, ha, List.mem_cons_self⟩)
    · rw [List.flatMap_append, List.mem_append] at hw
      refine hw.imp_right fun hw => ?_
      obtain ⟨r, hr, hw⟩ := List.mem_flatMap.mp hw
      obtain ⟨a, ha, hr⟩ := List.mem_flatMap.mp hr
      exact List.mem_flatMap.mpr
        ⟨a, ha, List.mem_cons_of_mem _ (List.mem_flatMap.mpr ⟨r, hr, hw⟩)⟩

/-! ### Words are maximal runs -/

/-- A maximal run of word characters of the line. -/
structure IsWord (line : List Char) (w : Span) : Prop where
  le : w.q ≤ w.eq
  eq_le : w.eq ≤ line.length
  word : ∀ i, w.q ≤ i → i < w.eq → ∃ c, (line)[i]? = some c ∧ isWordChar c = true
  stop : ∀ c, (line)[w.eq]? = some c → isWordChar c = false

section Words

variable {line : List Char} {w w' : Span}

theorem isWord_of_drop {pos : ℕ} {xs ys : List Char} (h : line.drop pos = xs ++ ys)
    (hpos : pos ≤ line.length) (hxs : ∀ c ∈ xs, isWordChar c = true)
    (hys : ∀ c, ys.head? = some c → isWordChar c = false) :
    IsWord line ⟨pos, pos + xs.length⟩ := by
  have hget : ∀ k, (line)[pos + k]? = (xs ++ ys)[k]? := fun k => by rw [← h, List.getElem?_drop]
  have hlen : xs.length + ys.length = line.length - pos := by
    rw [← List.length_append, ← h, List.length_drop]
  refine ⟨Nat.le_add_right _ _, by simp only; omega, fun i hi hlt => ?_, fun c hc => hys c ?_⟩
  · obtain ⟨k, rfl⟩ := Nat.exists_eq_add_of_le hi
    have hk : k < xs.length := Nat.lt_of_add_lt_add_left hlt
    refine ⟨xs[k], ?_, hxs _ (List.getElem_mem hk)⟩
    rw [hget, List.getElem?_append_left hk, List.getElem?_eq_getElem hk]
  · rwa [hget, List.getElem?_append_right le_rfl, Nat.sub_self, ← List.head?_eq_getElem?] at hc

/-- **The words of a line** are maximal runs of word characters. -/
theorem isWord_of_mem_lex {pos : ℕ} {cs : List Char} (hpos : pos ≤ line.length)
    (hcs : line.drop pos = cs) (hw : .word w ∈ lex pos cs) : IsWord line w := by
  -- After a token the rest of the line begins behind it.
  have hrest (xs : List Char) {ys : List Char} {k pos : ℕ} (hpos : pos ≤ line.length)
      (h : line.drop pos = xs ++ ys) (hk : xs.length = k) :
      pos + k ≤ line.length ∧ line.drop (pos + k) = ys := by
    have hlen := congrArg List.length h
    rw [List.length_drop, List.length_append] at hlen
    refine ⟨by omega, ?_⟩
    rw [← List.drop_drop, h, List.drop_left' hk]
  induction pos, cs using lex.induct with
  | case1 => simp [lex] at hw
  | case2 pos cs ih =>
    rw [lex, List.mem_cons] at hw
    obtain ⟨hpos', hcs'⟩ := hrest ['>', '>'] hpos hcs rfl
    exact ih hpos' hcs' (hw.resolve_left Token.noConfusion)
  | case3 pos c cs hne hspace ih =>
    rw [lex_of_whitespace hspace] at hw
    obtain ⟨hpos', hcs'⟩ := hrest [c] hpos hcs rfl
    exact ih hpos' hcs' hw
  | case4 pos c cs hne hspace t ht ih =>
    have hlex : lex pos (c :: cs) = t :: lex (pos + 1) cs := by
      rw [lex, if_neg hspace, ht]
      exact hne
    rw [hlex, List.mem_cons] at hw
    obtain ⟨hpos', hcs'⟩ := hrest [c] hpos hcs rfl
    refine ih hpos' hcs' (hw.resolve_left ?_)
    rintro rfl
    cases tok_ofChar ht
  | case5 pos c cs hne hspace ht ih =>
    have hlex : lex pos (c :: cs) =
        .word ⟨pos, pos + 1 + (cs.takeWhile isWordChar).length⟩ ::
          lex (pos + 1 + (cs.takeWhile isWordChar).length) (cs.dropWhile isWordChar) := by
      rw [lex, if_neg hspace, ht]
      exact hne
    have hlen : pos + 1 + (cs.takeWhile isWordChar).length =
        pos + (c :: cs.takeWhile isWordChar).length := by
      rw [List.length_cons]
      omega
    have hsplit : line.drop pos = (c :: cs.takeWhile isWordChar) ++ cs.dropWhile isWordChar := by
      rw [hcs, List.cons_append, List.takeWhile_append_dropWhile]
    obtain ⟨hpos', hcs'⟩ := hrest _ hpos hsplit rfl
    rw [hlex, List.mem_cons] at hw
    rw [hlen] at hw ih
    rcases hw with hw | hw
    · obtain rfl := Token.word.inj hw
      refine isWord_of_drop hsplit hpos (fun c' hc' => ?_) (fun c' hc' => ?_)
      · rcases List.mem_cons.mp hc' with rfl | hc'
        · simp [isWordChar, hspace, ofChar_eq_none_iff.mp ht]
        · exact List.mem_takeWhile_imp hc'
      · have hstop := List.head?_dropWhile_not isWordChar cs
        rw [hc'] at hstop
        simpa using hstop
    · exact ih hpos' hcs' hw

/-- The end of a word is outside of all words. -/
theorem IsWord.eq_outside (h : IsWord line w) (h' : IsWord line w') {i : ℕ} (hi : w.q ≤ i)
    (hlt : i < w.eq) : w'.eq ≠ i := by
  rintro rfl
  obtain ⟨c, hc, hword⟩ := h.word _ hi hlt
  rw [h'.stop c hc] at hword
  exact absurd hword Bool.false_ne_true

theorem terminate_length (ws : List Span) (buf : List Char) :
    (terminate ws buf).length = buf.length := by
  induction ws generalizing buf with
  | nil => rfl
  | cons w ws ih => rw [terminate, List.foldl_cons, ← terminate, ih, List.length_set]

/-- The NULs are behind the words, and nothing else changes. -/
theorem getElem?_terminate (ws : List Span) (buf : List Char) (i : ℕ) :
    (terminate ws buf)[i]? =
      if i < buf.length ∧ ∃ w ∈ ws, w.eq = i then some '\x00' else buf[i]? := by
  induction ws generalizing buf with
  | nil => simp [terminate]
  | cons w ws ih =>
    rw [terminate, List.foldl_cons, ← terminate, ih, List.length_set, List.getElem?_set]
    by_cases hi : i < buf.length <;> by_cases hw : w.eq = i <;> simp [hi, hw]

/-- A word of the line is the C string at its position, once it and other words are terminated. -/
theorem cstr_terminate {ws : List Span} (hnul : '\x00' ∉ line) (hws : ∀ w ∈ ws, IsWord line w)
    (hw : w ∈ ws) :
    cstr (terminate ws (line ++ ['\x00'])) w.q = (line.drop w.q).take (w.eq - w.q) := by
  have h := hws w hw
  have heq := h.eq_le
  have hle := h.le
  set buf := terminate ws (line ++ ['\x00']) with hbuf
  -- The characters of the word are still there.
  have hkeep : (buf.drop w.q).take (w.eq - w.q) = (line.drop w.q).take (w.eq - w.q) := by
    apply List.ext_getElem?
    intro k
    rw [List.getElem?_take, List.getElem?_take]
    by_cases hk : k < w.eq - w.q
    · have houtside : ¬ ∃ w' ∈ ws, w'.eq = w.q + k := by
        rintro ⟨w', hw', hend⟩
        exact h.eq_outside (hws w' hw') (i := w.q + k) (by omega) (by omega) hend
      rw [if_pos hk, if_pos hk, List.getElem?_drop, List.getElem?_drop, hbuf, getElem?_terminate,
        if_neg (fun hx => houtside hx.2), List.getElem?_append_left (by omega)]
    · rw [if_neg hk, if_neg hk]
  -- Behind it there is a NUL.
  have hend : (buf.drop w.eq).head? = some '\x00' := by
    rw [List.head?_drop, hbuf, getElem?_terminate, if_pos]
    exact ⟨by rw [List.length_append, List.length_singleton]; omega, w, hw, rfl⟩
  have hsplit : buf.drop w.q = (line.drop w.q).take (w.eq - w.q) ++ buf.drop w.eq := by
    rw [← hkeep]
    conv_lhs => rw [← List.take_append_drop (w.eq - w.q) (buf.drop w.q)]
    rw [List.drop_drop, Nat.add_sub_cancel' hle]
  have hall : ∀ c ∈ (line.drop w.q).take (w.eq - w.q), decide (c ≠ '\x00') = true := by
    intro c hc
    rw [decide_eq_true_iff]
    rintro rfl
    exact hnul (List.mem_of_mem_drop (List.mem_of_mem_take hc))
  rw [cstr, hsplit, List.takeWhile_append_of_pos hall]
  cases hrest : buf.drop w.eq with
  | nil =>
    rw [hrest] at hend
    cases hend
  | cons c cs =>
    rw [hrest] at hend
    obtain rfl := Option.some.inj hend
    rw [List.takeWhile_cons_of_neg (by simp), List.append_nil]

/-- The order of the NULs does not matter. -/
theorem terminate_perm {ws ws' : List Span} (h : ws.Perm ws') (buf : List Char) :
    terminate ws buf = terminate ws' buf := by
  apply List.ext_getElem?
  intro i
  simp only [getElem?_terminate, h.mem_iff]

end Words

/-- **`nulterminate` yields exactly the parsed words.** For every line that `parsecmd` accepts, each
word and file name of the tree is a token of the line and is the C string at its position of the
buffer after `nulterminate`. Any other order of the tree gives the same buffer, and no character of
a word of the line is overwritten. -/
theorem nulterminate_yields_words (line : List Char) (hnul : '\x00' ∉ line) (cmd : Cmd)
    (buf : List Char) (h : parsecmd line = .ok (cmd, buf)) :
    (∀ w ∈ cmd.words, .word w ∈ lex 0 line ∧
        cstr buf w.q = (line.drop w.q).take (w.eq - w.q)) ∧
      (∀ ws, ws.Perm cmd.words → terminate ws (line ++ ['\x00']) = buf) ∧
      ∀ w, .word w ∈ lex 0 line → ∀ i, w.q ≤ i → i < w.eq → buf[i]? = (line)[i]? := by
  have hmeets := parse_meets line
  unfold parsecmd at h
  cases hparse : parse line with
  | error p =>
    rw [hparse] at h
    cases h
  | ok cmd' =>
    rw [hparse] at h hmeets
    obtain ⟨rfl, rfl⟩ : cmd' = cmd ∧ nulterminate cmd' (line ++ ['\x00']) = buf := by
      cases h
      exact ⟨rfl, rfl⟩
    rw [nulterminate_eq]
    have hword : ∀ w, .word w ∈ lex 0 line → IsWord line w := fun w hw =>
      isWord_of_mem_lex (Nat.zero_le _) List.drop_zero hw
    have htoken : ∀ w ∈ cmd'.words, .word w ∈ lex 0 line := words_mem hmeets
    refine ⟨fun w hw => ⟨htoken w hw, cstr_terminate hnul (fun w hw => hword w (htoken w hw)) hw⟩,
      fun ws hws => terminate_perm hws _, fun w hw i hi hlt => ?_⟩
    have hin : i < line.length := hlt.trans_le (hword w hw).eq_le
    have houtside : ¬ ∃ w' ∈ cmd'.words, w'.eq = i := by
      rintro ⟨w', hw', hend⟩
      exact (hword w hw).eq_outside (hword w' (htoken w' hw')) hi hlt hend
    rw [getElem?_terminate, if_neg (fun hx => houtside hx.2), List.getElem?_append_left hin]

/-- The C strings of `a|b>c`, where the NULs replace both operators. -/
theorem nulterminate_yields_words_pipe :
    ∃ cmd buf, parsecmd "a|b>c".toList = .ok (cmd, buf) ∧
      cmd.words = [⟨0, 1⟩, ⟨2, 3⟩, ⟨4, 5⟩] ∧
      ∀ w ∈ cmd.words, cstr buf w.q = ("a|b>c".toList.drop w.q).take (w.eq - w.q) := by
  refine ⟨.pipe (.exec [⟨0, 1⟩]) (.redir (.exec [⟨2, 3⟩]) ⟨4, 5⟩ 0x201 1),
    "a\x00b\x00c\x00".toList, by decide +kernel, rfl, fun w hw => ?_⟩
  exact ((nulterminate_yields_words _ (by decide) _ _ (by decide +kernel)).1 w hw).2

end Xv6.Sh
