import CS450.User.Match

/-!
# Lines of `grep`

The loop of `grep` over what `read` returns. The characters `buf[0..m)` are a list, which is also
the C string at `buf`, since `buf[m]` is set to NUL and the input has none. A pointer `p` into the
buffer is the part from there on.

A line that is not complete is kept for the next round, unless the round found no newline at all:
then `p == buf`, and the whole buffer is dropped. So the output is that of a filter on lines exactly
when every piece that `read` returns has a newline in it.

## Main results

* `scanRound_spec`: one round writes the lines that are complete
* `grep_filters_iff`: the output is right for all patterns exactly when every piece has a newline
* `grep_drops_line`: a line that arrives in two pieces is lost
-/

namespace Xv6.Grep

/-- `sizeof(buf)` -/
def BUFSIZE : ℕ := 1024

/-! ### The code -/

/-- `strchr(p, '\n')`: the characters before the newline, and the part behind it. -/
def strchr : List Char → Option (List Char × List Char)
  | [] => none
  | c :: p => if c = '\n' then some ([], p) else (strchr p).map fun r => (c :: r.1, r.2)

/-- The inner loop: what is written, and where `p` is in the end. There are at most `fuel`
characters in the buffer. -/
def scan (pattern : List Char) : ℕ → List Char → List (List Char) × List Char
  | 0, p => ([], p)
  | fuel + 1, p =>
    match strchr p with
    | none => ([], p)
    | some (line, rest) =>
      let (writes, p) := scan pattern fuel rest
      (if matchText pattern line then (line ++ ['\n']) :: writes else writes, p)

/-- One round, with the buffer as `read` has filled it: what is written, and what is kept. -/
def scanRound (pattern buf : List Char) : List (List Char) × List Char :=
  let (writes, p) := scan pattern buf.length buf
  (writes, if p.length = buf.length then [] else p)

/-- The room for `read`: `sizeof(buf)-m-1`. -/
def room (kept : List Char) : ℕ := BUFSIZE - kept.length - 1

/-- `grep`, with what is kept in the buffer and the pieces that `read` returns: what is written.
Without room, `read` returns `0`. -/
def grep (pattern : List Char) : List Char → List (List Char) → List (List Char)
  | _, [] => []
  | kept, piece :: pieces =>
    if room kept = 0 then []
    else
      let (writes, kept) := scanRound pattern (kept ++ piece)
      writes ++ grep pattern kept pieces

/-- The pieces are such that `read` can return them: none is empty, and there is room for each. What
is kept does not depend on the pattern. -/
def Reads : List Char → List (List Char) → Prop
  | _, [] => True
  | kept, piece :: pieces =>
    piece ≠ [] ∧ (room kept ≠ 0 → piece.length ≤ room kept) ∧
      Reads (scanRound [] (kept ++ piece)).2 pieces

/-! ### Lines -/

/-- The lines of the input. -/
structure IsLine (line : List Char) : Prop where
  newline : '\n' ∉ line
  nul : '\x00' ∉ line
  short : line.length < 1023

/-- The text of lines, each with its newline. -/
def text (lines : List (List Char)) : List Char := lines.flatMap fun line => line ++ ['\n']

/-- **What is to be written**: the lines that match. -/
def filtered (pattern : List Char) (lines : List (List Char)) : List (List Char) :=
  (lines.filter fun line => matchText pattern line).map fun line => line ++ ['\n']

section Lines

variable {lines lines' : List (List Char)} {line rest p pattern : List Char}

theorem text_cons : text (line :: lines) = line ++ '\n' :: text lines := by
  simp [text]

theorem filtered_cons : filtered pattern (line :: lines) =
    if matchText pattern line then (line ++ ['\n']) :: filtered pattern lines
    else filtered pattern lines := by
  unfold filtered
  rw [List.filter_cons]
  split_ifs <;> rfl

theorem filtered_append :
    filtered pattern (lines ++ lines') = filtered pattern lines ++ filtered pattern lines' := by
  simp [filtered]

/-- Every line matches the empty pattern. -/
theorem filtered_nil : (filtered [] lines).flatten = text lines := by
  have hall : ∀ line, matchText [] line = true := by
    intro line
    cases line <;> rfl
  simp [filtered, hall, text, List.flatMap]

/-- A text without newline has no lines. -/
theorem eq_nil_of_text (h : '\n' ∉ text lines) : lines = [] := by
  cases lines with
  | nil => rfl
  | cons line lines => simp [text_cons] at h

theorem append_newline_inj {line line' rest rest' : List Char} (h : '\n' ∉ line) (h' : '\n' ∉ line')
    (heq : line ++ '\n' :: rest = line' ++ '\n' :: rest') : line = line' ∧ rest = rest' := by
  induction line generalizing line' with
  | nil =>
    cases line' with
    | nil => exact ⟨rfl, (List.cons.inj heq).2⟩
    | cons c line' =>
      exact absurd ((List.cons.inj heq).1 ▸ List.mem_cons_self) h'
  | cons c line ih =>
    cases line' with
    | nil => exact absurd ((List.cons.inj heq).1 ▸ List.mem_cons_self) h
    | cons c' line' =>
      obtain ⟨rfl, htail⟩ := List.cons.inj heq
      rw [List.mem_cons, not_or] at h h'
      obtain ⟨rfl, hrest⟩ := ih h.2 h'.2 htail
      exact ⟨rfl, hrest⟩

/-- A text that begins with lines has them. -/
theorem text_prefix (hlines : ∀ line ∈ lines, '\n' ∉ line) (hlines' : ∀ line ∈ lines', '\n' ∉ line)
    (h : text lines ++ rest = text lines') : ∃ more, lines' = lines ++ more ∧ rest = text more := by
  induction lines generalizing lines' with
  | nil => exact ⟨lines', rfl, h⟩
  | cons line lines ih =>
    obtain ⟨hline, hlines⟩ := List.forall_mem_cons.mp hlines
    rw [text_cons, List.append_assoc, List.cons_append] at h
    cases lines' with
    | nil => simp [text] at h
    | cons line' lines' =>
      rw [text_cons] at h
      have hline' := hlines' line' List.mem_cons_self
      obtain ⟨rfl, htail⟩ := append_newline_inj hline hline' h
      obtain ⟨more, rfl, hmore⟩ :=
        ih hlines (fun l hl => hlines' l (List.mem_cons_of_mem _ hl)) htail
      exact ⟨more, rfl, hmore⟩

/-! ### One round -/

theorem strchr_eq_none (h : strchr p = none) : '\n' ∉ p := by
  induction p with
  | nil => simp
  | cons c p ih =>
    rw [strchr] at h
    split_ifs at h with hc
    simp [ih (Option.map_eq_none_iff.mp h), Ne.symm hc]

theorem strchr_eq_some (h : strchr p = some (line, rest)) :
    p = line ++ '\n' :: rest ∧ '\n' ∉ line := by
  induction p generalizing line with
  | nil => cases h
  | cons c p ih =>
    rw [strchr] at h
    split_ifs at h with hc
    · cases h
      simp [hc]
    · obtain ⟨⟨line', rest'⟩, hr, heq⟩ := Option.map_eq_some_iff.mp h
      cases heq
      obtain ⟨rfl, hline⟩ := ih hr
      simp [hline, Ne.symm hc]

/-- **The inner loop** goes over all lines that are complete. -/
theorem scan_spec {fuel : ℕ} (h : p.length ≤ fuel) :
    ∃ lines rest, p = text lines ++ rest ∧ (∀ line ∈ lines, '\n' ∉ line) ∧ '\n' ∉ rest ∧
      ∀ pattern, scan pattern fuel p = (filtered pattern lines, rest) := by
  induction fuel generalizing p with
  | zero =>
    obtain rfl := List.length_eq_zero_iff.mp (Nat.le_zero.mp h)
    exact ⟨[], [], rfl, by simp, by simp, fun _ => rfl⟩
  | succ fuel ih =>
    cases hs : strchr p with
    | none => exact ⟨[], p, rfl, by simp, strchr_eq_none hs, fun _ => by rw [scan, hs]; rfl⟩
    | some r =>
      obtain ⟨line, tail⟩ := r
      obtain ⟨rfl, hline⟩ := strchr_eq_some hs
      obtain ⟨lines, rest, rfl, hlines, hrest, hscan⟩ := ih (p := tail) (by simp at h; omega)
      refine ⟨line :: lines, rest, ?_, List.forall_mem_cons.mpr ⟨hline, hlines⟩, hrest, ?_⟩
      · rw [text_cons, List.append_assoc, List.cons_append]
      · intro pattern
        simp only [scan, hs, hscan]
        rw [filtered_cons]

/-- **One round** writes the complete lines and keeps the rest, if there is a newline. -/
theorem scanRound_spec (buf : List Char) (h : '\n' ∈ buf) :
    ∃ lines rest, buf = text lines ++ rest ∧ (∀ line ∈ lines, '\n' ∉ line) ∧ '\n' ∉ rest ∧
      ∀ pattern, scanRound pattern buf = (filtered pattern lines, rest) := by
  obtain ⟨lines, rest, hbuf, hlines, hrest, hscan⟩ := scan_spec (p := buf) le_rfl
  refine ⟨lines, rest, hbuf, hlines, hrest, fun pattern => ?_⟩
  have hshort : rest.length ≠ buf.length := by
    intro hlen
    -- Then there are no lines, and the newline is in the rest.
    have hnil : text lines = [] := by
      rw [hbuf, List.length_append] at hlen
      exact List.length_eq_zero_iff.mp (by omega)
    rw [hbuf, hnil, List.nil_append] at h
    exact hrest h
  rw [scanRound, hscan]
  simp only [if_neg hshort]

/-- A round without a newline drops everything. -/
theorem scanRound_drop {buf : List Char} (h : '\n' ∉ buf) (pattern : List Char) :
    scanRound pattern buf = ([], []) := by
  obtain ⟨lines, rest, hbuf, -, -, hscan⟩ := scan_spec (p := buf) le_rfl
  have hnil : lines = [] := eq_nil_of_text fun hmem => h (hbuf ▸ List.mem_append_left _ hmem)
  have hrest : buf = rest := by
    rw [hbuf, hnil]
    rfl
  rw [scanRound, hscan, hnil]
  simp [hrest, filtered]

end Lines

/-! ### The whole input -/

section Input

variable {lines pieces : List (List Char)} {kept : List Char}

/-- What is kept is the beginning of a line, so there is room. -/
theorem room_pos {more : List Char} (hlines : ∀ line ∈ lines, IsLine line) (hkept : '\n' ∉ kept)
    (h : kept ++ more = text lines) (hne : more ≠ []) : room kept ≠ 0 := by
  cases lines with
  | nil =>
    have : more = [] := (List.append_eq_nil_iff.mp h).2
    exact absurd this hne
  | cons line lines =>
    have hline := hlines line List.mem_cons_self
    rw [text_cons] at h
    have hle : kept.length ≤ line.length := by
      by_contra hlt
      -- The newline behind the line would be among what is kept.
      have hget := congrArg (fun l => l[line.length]?) h
      simp only [List.getElem?_append_left (by omega : line.length < kept.length),
        List.getElem?_append_right le_rfl, Nat.sub_self, List.getElem?_cons_zero] at hget
      exact hkept (List.mem_of_getElem? hget)
    have := hline.short
    unfold room BUFSIZE
    omega

/-- **Pieces with newlines.** Nothing is dropped. -/
theorem grep_of_newlines {pattern : List Char} (hlines : ∀ line ∈ lines, IsLine line)
    (hkept : '\n' ∉ kept) (h : kept ++ pieces.flatten = text lines)
    (hnewline : ∀ piece ∈ pieces, '\n' ∈ piece) :
    grep pattern kept pieces = filtered pattern lines := by
  induction pieces generalizing kept lines with
  | nil =>
    rw [List.flatten_nil, List.append_nil] at h
    rw [h] at hkept
    rw [eq_nil_of_text hkept]
    rfl
  | cons piece pieces ih =>
    obtain ⟨hpiece, hnewline⟩ := List.forall_mem_cons.mp hnewline
    have hne : (piece :: pieces).flatten ≠ [] := by
      exact fun hnil => List.ne_nil_of_mem hpiece (List.append_eq_nil_iff.mp hnil).1
    have hroom := room_pos hlines hkept h hne
    obtain ⟨ls, rest, hbuf, hls, hrest, hround⟩ := scanRound_spec (kept ++ piece)
      (List.mem_append_right _ hpiece)
    rw [List.flatten_cons, ← List.append_assoc, hbuf, List.append_assoc] at h
    obtain ⟨more, rfl, hmore⟩ := text_prefix hls (fun line hl => (hlines line hl).newline) h
    have hmoreLines : ∀ line ∈ more, IsLine line := fun line hl =>
      hlines line (List.mem_append_right _ hl)
    rw [filtered_append, ← ih hmoreLines hrest hmore hnewline, grep, if_neg hroom, hround]

/-- With the empty pattern no more is written than arrived, and less if a piece has no newline. -/
theorem grep_length_le (hkept : '\n' ∉ kept) :
    (grep [] kept pieces).flatten.length ≤ kept.length + pieces.flatten.length ∧
      ((∀ piece ∈ pieces, piece ≠ []) → (∃ piece ∈ pieces, '\n' ∉ piece) →
        (grep [] kept pieces).flatten.length < kept.length + pieces.flatten.length) := by
  induction pieces generalizing kept with
  | nil => simp [grep]
  | cons piece pieces ih =>
    rw [grep, List.flatten_cons, List.length_append]
    by_cases hroom : room kept = 0
    · rw [if_pos hroom]
      refine ⟨by simp, fun hne _ => ?_⟩
      have := List.length_pos_of_ne_nil (hne piece List.mem_cons_self)
      simp only [List.flatten_nil, List.length_nil]
      omega
    · rw [if_neg hroom]
      by_cases hpiece : '\n' ∈ piece
      · obtain ⟨ls, rest, hbuf, -, hrest, hround⟩ := scanRound_spec (kept ++ piece)
          (List.mem_append_right _ hpiece)
        have hlen := congrArg List.length hbuf
        rw [List.length_append, List.length_append] at hlen
        obtain ⟨hle, hlt⟩ := ih hrest
        rw [hround]
        simp only [List.flatten_append, List.length_append, filtered_nil]
        refine ⟨by omega, fun hne hex => ?_⟩
        have := hlt (fun p hp => hne p (List.mem_cons_of_mem _ hp)) (by
          obtain ⟨p, hp, hno⟩ := hex
          rcases List.mem_cons.mp hp with rfl | hp
          · exact absurd hpiece hno
          · exact ⟨p, hp, hno⟩)
        omega
      · -- The whole buffer is dropped.
        have hbuf : '\n' ∉ kept ++ piece := by simp [hkept, hpiece]
        obtain ⟨hle, -⟩ := @ih [] (by simp)
        rw [scanRound_drop hbuf]
        simp only [List.nil_append, List.length_nil, Nat.zero_add] at hle ⊢
        refine ⟨by omega, fun hne _ => ?_⟩
        have := List.length_pos_of_ne_nil (hne piece List.mem_cons_self)
        omega

theorem Reads.ne_nil (h : Reads kept pieces) : ∀ piece ∈ pieces, piece ≠ [] := by
  induction pieces generalizing kept with
  | nil => simp
  | cons piece pieces ih => exact List.forall_mem_cons.mpr ⟨h.1, ih h.2.2⟩

/-- **`grep` filters lines when every piece has a newline.** The lines arrive in pieces as `read`
can return them; the output is that of the filter for all patterns exactly when none of the pieces
is without a newline. -/
theorem grep_filters_iff (lines pieces : List (List Char)) (hlines : ∀ line ∈ lines, IsLine line)
    (hreads : Reads [] pieces) (htext : pieces.flatten = text lines) :
    (∀ pattern, grep pattern [] pieces = filtered pattern lines) ↔
      ∀ piece ∈ pieces, '\n' ∈ piece := by
  constructor
  · intro h piece hpiece
    by_contra hno
    have hlt := (grep_length_le (List.not_mem_nil (a := '\n'))).2 hreads.ne_nil ⟨piece, hpiece, hno⟩
    rw [h [], filtered_nil, htext] at hlt
    simp at hlt
  · intro h pattern
    exact grep_of_newlines hlines (by simp) htext h

/-- Lines that arrive one by one are filtered. -/
theorem grep_filters_two_lines :
    grep "b".toList [] ["ab\n".toList, "c\n".toList] =
      filtered "b".toList ["ab".toList, "c".toList] :=
  (grep_filters_iff ["ab".toList, "c".toList] ["ab\n".toList, "c\n".toList]
    (by
      simp only [List.forall_mem_cons, List.not_mem_nil, false_imp_iff, implies_true, and_true]
      exact ⟨⟨by decide, by decide, by decide⟩, ⟨by decide, by decide, by decide⟩⟩)
    ⟨by decide, by decide, by decide, by decide, trivial⟩ (by decide)).mpr (by decide) _

/-- **A line that arrives in two pieces is lost**, and a part of it is taken for a line: `ab`
matches the pattern `a`, and nothing is written. -/
theorem grep_drops_line :
    IsLine "ab".toList ∧ Reads [] ["a".toList, "b\n".toList] ∧
      ["a".toList, "b\n".toList].flatten = text ["ab".toList] ∧
      grep "a".toList [] ["a".toList, "b\n".toList] = [] ∧
      filtered "a".toList ["ab".toList] = ["ab\n".toList] :=
  ⟨⟨by decide, by decide, by decide⟩, ⟨by decide, by decide, by decide, by decide, trivial⟩,
    by decide, by decide, by decide⟩

end Input

end Xv6.Grep
