import CS450.Shell.Parse

/-!
# The language of `hwsh`

The lines `hwsh` is to accept: every segment between `;` is blank, or is a list of commands with a
single `&` between one and the next. The parser rejects an `&` at the start or at the end of a
segment, and accepts a doubled one: after an `&` it reads a command, which may be empty, and an `&`
behind it only says that there is another. The empty command becomes a node of the tree, and runs
as a child that calls `execvp` with no file.

## Main results

* `parsecmd_accepts_iff`: the parser accepts the language up to doubled `&`s
* `parsecmd_accepts_doubled_amp`: it accepts `a&&b`
-/

namespace Hwsh

/-- Every segment is blank, or a list of commands separated by single `&`s. -/
def InLanguage (line : List Char) : Prop :=
  ∀ seg ∈ segments line, Blank seg ∨ ∀ p ∈ commands seg, ¬ Blank p

/-- Some segment has two `&` with nothing but whitespace between. -/
def DoubledAmp (line : List Char) : Prop :=
  ∃ seg ∈ segments line, ∃ p ∈ (commands seg).tail.dropLast, Blank p

instance (line : List Char) : Decidable (InLanguage line) :=
  inferInstanceAs (Decidable (∀ seg ∈ segments line, Blank seg ∨ ∀ p ∈ commands seg, ¬ Blank p))

/-- A segment is blank exactly when it is one blank command. -/
theorem blank_iff_commands {seg : List Char} : Blank seg ↔ ∃ p, commands seg = [p] ∧ Blank p := by
  constructor
  · intro h
    refine ⟨seg, ?_, h⟩
    apply List.splitOnP_eq_singleton
    intro c hc
    have hne : c ≠ '&' := by
      rintro rfl
      exact absurd (h _ hc) (by decide)
    simpa using hne
  · rintro ⟨p, hp, hb⟩
    have hjoin : Split.join '&' (commands seg) = seg := Split.join_splitOn '&' seg
    rw [hp, Split.join_singleton] at hjoin
    rwa [← hjoin]

/-- A group of at least two commands: the first, the inner ones and the last. -/
theorem exists_inner {ps : List (List Char)} (h : 2 ≤ ps.length) :
    ∃ p ms q, ps = p :: (ms ++ [q]) ∧ ps.tail.dropLast = ms := by
  obtain ⟨p, qs, rfl⟩ := List.exists_cons_of_length_pos (by omega : 0 < ps.length)
  have hne : qs ≠ [] := by
    rintro rfl
    simp at h
  exact ⟨p, qs.dropLast, qs.getLast hne, by rw [List.dropLast_append_getLast], rfl⟩

/-- A segment that can be read is in the language, up to blank commands between two `&`s. -/
theorem segment_iff (seg : List Char) :
    (Blank seg ∨ ∀ p ∈ commands seg, ¬ Blank p) ↔
      GroupOk (commands seg) ∧ ∀ p ∈ (commands seg).tail.dropLast, ¬ Blank p := by
  have hpos : 0 < (commands seg).length := List.length_pos_of_ne_nil (commands_ne_nil seg)
  rw [blank_iff_commands]
  by_cases hone : (commands seg).length = 1
  · -- One command, blank or not.
    obtain ⟨p, hp⟩ := List.length_eq_one_iff.mp hone
    simp only [hp, GroupOk, List.cons.injEq, and_true, exists_eq_left', List.mem_singleton,
      forall_eq, List.length_singleton, true_or, List.tail_cons, List.dropLast_nil,
      List.not_mem_nil, false_imp_iff, implies_true]
    exact iff_true_intro (em _)
  · obtain ⟨p, ms, q, hps, hms⟩ := exists_inner (by omega : 2 ≤ (commands seg).length)
    have hmany : ¬ ∃ r, commands seg = [r] ∧ Blank r := by
      rintro ⟨r, hr, _⟩
      rw [hr] at hone
      exact hone rfl
    rw [or_iff_right hmany, hms, GroupOk, or_iff_right hone, LastFilled, hps]
    simp only [List.mem_cons, List.mem_append, List.head?_cons, Option.mem_some_iff, forall_eq',
      List.getLast?_cons, List.getLast?_append, Option.some_or,
      Option.getD_some, List.not_mem_nil, or_false]
    constructor
    · intro h
      exact ⟨⟨h p (Or.inl rfl), h q (Or.inr (Or.inr rfl))⟩, fun r hr => h r (Or.inr (Or.inl hr))⟩
    · rintro ⟨⟨hp, hq⟩, hinner⟩ r (rfl | hr | rfl)
      · exact hp
      · exact hinner r hr
      · exact hq

/-- **The language** is what can be read without a doubled `&`. -/
theorem inLanguage_iff (line : List Char) :
    InLanguage line ↔ LineOk line ∧ ¬ DoubledAmp line := by
  constructor
  · intro h
    refine ⟨fun seg hseg => ((segment_iff seg).mp (h seg hseg)).1, ?_⟩
    rintro ⟨seg, hseg, p, hp, hb⟩
    exact ((segment_iff seg).mp (h seg hseg)).2 p hp hb
  · rintro ⟨hok, hdouble⟩ seg hseg
    apply (segment_iff seg).mpr
    exact ⟨hok seg hseg, fun p hp hb => hdouble ⟨seg, hseg, p, hp, hb⟩⟩

/-- **The parser accepts the language, except for doubled `&`s.** On a line without redirections
and with at most nine words in each command, the parser returns a node. Whether it is runnable says
whether the line is in the language exactly when the line does not both pass the parser's checks,
which are about the first and the last command of a segment, and have a doubled `&`. -/
theorem parsecmd_accepts_iff {line : List Char} (h : Plain line) :
    ∃ cmd t, parsecmd line = .ok cmd ∧ cmd.type = some t ∧
      ((t ≠ -1 ↔ InLanguage line) ↔ ¬ (LineOk line ∧ DoubledAmp line)) := by
  rw [parsecmd_eq h, inLanguage_iff]
  by_cases hok : LineOk line
  · obtain ⟨t, ht, hrun⟩ := type_lineTree line
    refine ⟨lineTree line, t, by rw [if_pos hok], ht, ?_⟩
    simp only [hok, hrun, ne_eq, not_false_iff, true_and, true_iff]
  · refine ⟨.invalid [], -1, by rw [if_neg hok], rfl, ?_⟩
    simp only [hok, ne_eq, not_true, false_and, not_false_iff]

/-- The line `a & b ; c`, with its newline. -/
def twoSegments : List Char := ['a', ' ', '&', ' ', 'b', ' ', ';', ' ', 'c', '\n']

theorem parsecmd_accepts_two_segments : Plain twoSegments ∧
    ∃ cmd t, parsecmd twoSegments = .ok cmd ∧ cmd.type = some t ∧
      ((t ≠ -1 ↔ InLanguage twoSegments) ↔ ¬ (LineOk twoSegments ∧ DoubledAmp twoSegments)) := by
  have h : Plain twoSegments := ⟨by simp [twoSegments], by decide⟩
  exact ⟨h, parsecmd_accepts_iff h⟩

/-- The line `a&&b`, with its newline. -/
def doubledAmp : List Char := ['a', '&', '&', 'b', '\n']

/-- **A doubled `&` is accepted**: `a&&b` gives commands in parallel, with an empty one between. -/
theorem parsecmd_accepts_doubled_amp : Plain doubledAmp ∧
    parsecmd doubledAmp = .ok (.parallel (.exec [['a']])
      (.parallel (.exec []) (.parallel (.exec [['b']]) (.exec [])))) ∧
    ¬ InLanguage doubledAmp :=
  ⟨⟨by simp [doubledAmp], by decide⟩, by decide +kernel, by decide⟩

end Hwsh
