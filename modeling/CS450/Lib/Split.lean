import Mathlib.Data.List.TakeWhile

/-!
# Splitting lists at separators

`List.splitOn` cuts a list into the pieces between the occurrences of a separator. Here: the pieces
have no separator, joining them gives the list back, and the words of a list are the pieces between
separators that are not empty.

## Main definitions

* `Split.join a ps`: the pieces with the separator between them
* `Split.words p xs`: the maximal runs of `xs` without an element that satisfies `p`

## Main results

* `Split.join_splitOn`, `Split.mem_of_mem_splitOn`: a list is the join of its pieces
* `Split.words_skip`, `Split.words_run`: the words of a list, one at a time
-/

namespace Split

variable {α : Type*}

/-- The pieces, with the separator `a` between them. -/
def join (a : α) : List (List α) → List α
  | [] => []
  | [l] => l
  | l :: l' :: ls => l ++ a :: join a (l' :: ls)

@[simp] theorem join_singleton (a : α) (l : List α) : join a [l] = l := rfl

theorem join_cons (a : α) (l : List α) {ls : List (List α)} (h : ls ≠ []) :
    join a (l :: ls) = l ++ a :: join a ls := by
  obtain ⟨l', ls', rfl⟩ := List.exists_cons_of_ne_nil h
  rfl

theorem join_cons_cons (a x : α) (l : List α) (ls : List (List α)) :
    join a ((x :: l) :: ls) = x :: join a (l :: ls) := by
  cases ls <;> rfl

theorem length_le_join (a : α) : ∀ ls : List (List α), ls.length ≤ (join a ls).length + 1
  | [] => by simp
  | [_] => by simp
  | l :: l' :: ls => by
    have ih := length_le_join a (l' :: ls)
    rw [join, List.length_append, List.length_cons]
    simp only [List.length_cons] at *
    omega

section SplitOn

variable [BEq α] [LawfulBEq α]

/-- A list is the join of its pieces. -/
theorem join_splitOn (a : α) (xs : List α) : join a (xs.splitOn a) = xs := by
  unfold List.splitOn
  induction xs with
  | nil => rfl
  | cons x xs ih =>
    rw [List.splitOnP_cons_eq_if_modifyHead]
    have hne := List.splitOnP_ne_nil (· == a) xs
    split
    · next hx =>
      rw [join_cons a [] hne, ih, List.nil_append, beq_iff_eq.mp hx]
    · obtain ⟨l, ls, hl⟩ := List.exists_cons_of_ne_nil hne
      rw [hl] at ih ⊢
      rw [List.modifyHead_cons, join_cons_cons, ih]

/-- A piece has no separator, and its elements are those of the list. -/
theorem mem_of_mem_splitOn {a x : α} {l xs : List α} (hl : l ∈ xs.splitOn a) (hx : x ∈ l) :
    x ≠ a ∧ x ∈ xs := by
  unfold List.splitOn at hl
  induction xs generalizing l with
  | nil =>
    simp only [List.splitOnP_nil, List.mem_singleton] at hl
    rw [hl] at hx
    cases hx
  | cons y ys ih =>
    rw [List.splitOnP_cons_eq_if_modifyHead] at hl
    split at hl
    · rcases List.mem_cons.mp hl with rfl | hl
      · cases hx
      · obtain ⟨hxa, hxs⟩ := ih hl hx
        exact ⟨hxa, List.mem_cons_of_mem y hxs⟩
    · next hy =>
      obtain ⟨k, ks, hk⟩ := List.exists_cons_of_ne_nil (List.splitOnP_ne_nil (· == a) ys)
      rw [hk] at hl ih
      rcases List.mem_cons.mp hl with rfl | hl
      · rcases List.mem_cons.mp hx with rfl | hx
        · exact ⟨fun he => hy (by simp [he]), List.mem_cons_self⟩
        · obtain ⟨hxa, hxs⟩ := ih List.mem_cons_self hx
          exact ⟨hxa, List.mem_cons_of_mem y hxs⟩
      · obtain ⟨hxa, hxs⟩ := ih (List.mem_cons_of_mem k hl) hx
        exact ⟨hxa, List.mem_cons_of_mem y hxs⟩

/-- An element other than the separator is in a piece. -/
theorem exists_mem_splitOn {a x : α} {xs : List α} (hx : x ∈ xs) (hne : x ≠ a) :
    ∃ l ∈ xs.splitOn a, x ∈ l := by
  have hmem : ∀ ls : List (List α), x ∈ join a ls → ∃ l ∈ ls, x ∈ l := by
    intro ls
    induction ls with
    | nil => exact fun h => absurd h List.not_mem_nil
    | cons l ls ih =>
      intro h
      by_cases hls : ls = []
      · subst hls
        exact ⟨l, List.mem_cons_self, h⟩
      · rw [join_cons a l hls] at h
        rcases List.mem_append.mp h with h | h
        · exact ⟨l, List.mem_cons_self, h⟩
        · obtain ⟨l', hl', hx'⟩ := ih ((List.mem_cons.mp h).resolve_left hne)
          exact ⟨l', List.mem_cons_of_mem l hl', hx'⟩
  exact hmem _ (by rwa [join_splitOn])

end SplitOn

/-! ### Words -/

/-- The maximal runs of elements that do not satisfy `p`. -/
def words (p : α → Bool) (xs : List α) : List (List α) :=
  (xs.splitOnP p).filter fun l => !l.isEmpty

section Words

variable {p : α → Bool}

@[simp] theorem words_nil : words p [] = [] := rfl

theorem words_cons_of_sep {x : α} (hx : p x = true) (xs : List α) :
    words p (x :: xs) = words p xs := by
  unfold words
  rw [List.splitOnP_cons_eq_if_modifyHead, if_pos hx]
  rfl

/-- Separators in front do not matter. -/
theorem words_skip (xs : List α) : words p (xs.dropWhile p) = words p xs := by
  induction xs with
  | nil => rfl
  | cons x xs ih =>
    cases hx : p x with
    | true => rw [List.dropWhile_cons_of_pos hx, ih, words_cons_of_sep hx]
    | false => rw [List.dropWhile_cons_of_neg (by simp [hx])]

theorem words_eq_nil_of_all {xs : List α} (h : ∀ x ∈ xs, p x = true) : words p xs = [] := by
  rw [← words_skip, List.dropWhile_eq_nil_iff.mpr h, words_nil]

/-- A run up to the end or to a separator is a word. -/
theorem words_run {w xs : List α} (hne : w ≠ []) (hw : ∀ x ∈ w, p x = false)
    (hxs : ∀ x ∈ xs.head?, p x = true) : words p (w ++ xs) = w :: words p xs := by
  cases xs with
  | nil =>
    unfold words
    rw [List.append_nil, List.splitOnP_eq_singleton hw]
    simp [hne]
  | cons x xs =>
    have hx : p x = true := hxs x (by simp)
    rw [words_cons_of_sep hx]
    unfold words
    rw [List.splitOnP_append_cons_of_forall_mem hw x hx]
    simp [hne]

end Words

end Split
