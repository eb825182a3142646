import Mathlib.Computability.Language

/-!
# The matcher of `grep`

`match`, `matchhere` and `matchstar` of `grep.c`. A C string is the list of its characters, without
the terminating NUL: `*text == 0` is the empty list, and `text++` drops the first character.
`matchstar` is given the matcher for the rest of the pattern, which is what it calls `matchhere`
for.

A pattern is read as a sequence of items, between an optional `^` and an optional `$`. Each item has
a language, and the pattern has their product. The matcher looks for a substring that is in it.

## Main results

* `matchhere_iff`: what is matched at the beginning of a text
* `match_decides`: the matcher decides the language of the pattern
-/

namespace Xv6.Grep

/-! ### The matcher -/

/-- The loop of `matchstar`, where `here` matches the rest of the pattern. -/
def matchstar (c : Char) (here : List Char → Bool) : List Char → Bool
  | [] => here []
  | x :: text => here (x :: text) || ((x == c || c == '.') && matchstar c here text)

/-- Search for the pattern at the beginning of the text. -/
def matchhere : List Char → List Char → Bool
  | [], _ => true
  | [c], text =>
    if c = '$' then text.isEmpty
    else
      match text with
      | [] => false
      | x :: _ => c == '.' || c == x
  | c :: d :: re, text =>
    if d = '*' then matchstar c (matchhere re) text
    else
      match text with
      | [] => false
      | x :: text => (c == '.' || c == x) && matchhere (d :: re) text

/-- The loop of `match`. -/
def matchLoop (re : List Char) : List Char → Bool
  | [] => matchhere re []
  | x :: text => matchhere re (x :: text) || matchLoop re text

/-- `match` -/
def matchText (re text : List Char) : Bool :=
  match re with
  | '^' :: re => matchhere re text
  | re => matchLoop re text

/-! ### Patterns -/

/-- An item of a pattern: a character, or a character with a `*`. -/
inductive Item
  | one (c : Char)
  | star (c : Char)
  deriving DecidableEq, Repr

/-- A pattern: its items, and whether it begins with `^` and ends with `$`. -/
structure Pattern where
  bol : Bool
  items : List Item
  eol : Bool
  deriving DecidableEq, Repr

/-- The items of a pattern after an initial `^`, and whether a `$` comes last. -/
def readItems : List Char → List Item × Bool
  | [] => ([], false)
  | [c] => if c = '$' then ([], true) else ([.one c], false)
  | c :: d :: re =>
    if d = '*' then (.star c :: (readItems re).1, (readItems re).2)
    else (.one c :: (readItems (d :: re)).1, (readItems (d :: re)).2)

def Pattern.read : List Char → Pattern
  | '^' :: re => ⟨true, (readItems re).1, (readItems re).2⟩
  | re => ⟨false, (readItems re).1, (readItems re).2⟩

/-- The character `c` of a pattern stands for `x`. -/
def Fits (c x : Char) : Prop := c = '.' ∨ c = x

/-- The texts of one character that `c` stands for. -/
def oneLang (c : Char) : Language Char := {w | ∃ x, Fits c x ∧ w = [x]}

def Item.lang : Item → Language Char
  | .one c => oneLang c
  | .star c => KStar.kstar (oneLang c)

def itemsLang (items : List Item) : Language Char := (items.map Item.lang).prod

/-- **The language of a pattern**, apart from where in the text it has to be. -/
def Pattern.lang (p : Pattern) : Language Char := itemsLang p.items

/-! ### Correctness -/

theorem nil_mem_itemsLang : [] ∈ itemsLang [] := rfl

variable {w text : List Char} {items : List Item} {c : Char}

theorem mem_itemsLang_nil : w ∈ itemsLang [] ↔ w = [] := Iff.rfl

theorem mem_itemsLang_cons {i : Item} :
    w ∈ itemsLang (i :: items) ↔ ∃ a ∈ i.lang, ∃ b ∈ itemsLang items, a ++ b = w := by
  exact Language.mem_mul

/-- A starred character stands for any number of characters that it fits. -/
theorem mem_star_iff :
    w ∈ (Item.star c).lang ↔ ∀ x ∈ w, Fits c x := by
  constructor
  · rintro ⟨ws, rfl, hws⟩ x hx
    obtain ⟨v, hv, hxv⟩ := List.mem_flatten.mp hx
    obtain ⟨y, hy, rfl⟩ := hws v hv
    rwa [List.mem_singleton.mp hxv]
  · intro h
    refine ⟨w.map fun x => [x], ?_, ?_⟩
    · induction w with
      | nil => rfl
      | cons x w ih => simpa using ih fun y hy => h y (List.mem_cons_of_mem x hy)
    · intro v hv
      obtain ⟨x, hx, rfl⟩ := List.mem_map.mp hv
      exact ⟨x, h x hx, rfl⟩

/-- The text begins with a text of the language, which reaches its end if there is a `$`. -/
def Begins (items : List Item × Bool) (text : List Char) : Prop :=
  ∃ v w, text = v ++ w ∧ v ∈ itemsLang items.1 ∧ (items.2 = true → w = [])

/-- One character of the pattern and one of the text. -/
theorem begins_one {eol : Bool} :
    Begins (.one c :: items, eol) text ↔
      ∃ x rest, text = x :: rest ∧ Fits c x ∧ Begins (items, eol) rest := by
  constructor
  · rintro ⟨v, w, rfl, hv, hw⟩
    obtain ⟨a, ⟨x, hx, rfl⟩, b, hb, rfl⟩ := mem_itemsLang_cons.mp hv
    exact ⟨x, b ++ w, rfl, hx, b, w, rfl, hb, hw⟩
  · rintro ⟨x, rest, rfl, hx, v, w, rfl, hv, hw⟩
    refine ⟨x :: v, w, rfl, ?_, hw⟩
    exact mem_itemsLang_cons.mpr ⟨[x], ⟨x, hx, rfl⟩, v, hv, rfl⟩

/-- A starred character takes a part of the text that it fits. -/
theorem begins_star {eol : Bool} :
    Begins (.star c :: items, eol) text ↔
      ∃ u rest, text = u ++ rest ∧ (∀ x ∈ u, Fits c x) ∧ Begins (items, eol) rest := by
  constructor
  · rintro ⟨v, w, rfl, hv, hw⟩
    obtain ⟨u, hu, b, hb, rfl⟩ := mem_itemsLang_cons.mp hv
    exact ⟨u, b ++ w, List.append_assoc .., mem_star_iff.mp hu, b, w, rfl, hb, hw⟩
  · rintro ⟨u, rest, rfl, hu, v, w, rfl, hv, hw⟩
    refine ⟨u ++ v, w, (List.append_assoc ..).symm, ?_, hw⟩
    exact mem_itemsLang_cons.mpr ⟨u, mem_star_iff.mpr hu, v, hv, rfl⟩

/-- **`matchstar`** tries all parts, the shortest first. -/
theorem matchstar_iff {here : List Char → Bool} :
    matchstar c here text = true ↔
      ∃ u rest, text = u ++ rest ∧ (∀ x ∈ u, Fits c x) ∧ here rest = true := by
  induction text with
  | nil =>
    constructor
    · intro h
      exact ⟨[], [], rfl, by simp, h⟩
    · rintro ⟨u, rest, heq, -, h⟩
      obtain ⟨-, rfl⟩ := List.append_eq_nil_iff.mp heq.symm
      exact h
  | cons x text ih =>
    rw [matchstar, Bool.or_eq_true, Bool.and_eq_true, ih]
    constructor
    · rintro (h | ⟨hx, u, rest, rfl, hu, h⟩)
      · exact ⟨[], x :: text, rfl, by simp, h⟩
      · have hfits : Fits c x := by
          rw [Bool.or_eq_true, beq_iff_eq, beq_iff_eq] at hx
          rcases hx with rfl | rfl
          · exact .inr rfl
          · exact .inl rfl
        refine ⟨x :: u, rest, rfl, ?_, h⟩
        rw [List.forall_mem_cons]
        exact ⟨hfits, hu⟩
    · rintro ⟨u, rest, heq, hu, h⟩
      cases u with
      | nil =>
        left
        rw [heq]
        exact h
      | cons y u =>
        obtain ⟨rfl, rfl⟩ := List.cons.inj heq
        obtain ⟨hx, hu⟩ := List.forall_mem_cons.mp hu
        refine .inr ⟨?_, u, rest, rfl, hu, h⟩
        rw [Bool.or_eq_true, beq_iff_eq, beq_iff_eq]
        exact hx.symm.imp Eq.symm id

theorem fits_iff {x : Char} : (c == '.' || c == x) = true ↔ Fits c x := by
  rw [Bool.or_eq_true, beq_iff_eq, beq_iff_eq]
  exact Iff.rfl

theorem begins_nil : Begins ([], false) text :=
  ⟨[], text, rfl, nil_mem_itemsLang, by simp⟩

theorem begins_eol : Begins ([], true) text ↔ text = [] := by
  constructor
  · rintro ⟨v, w, rfl, hv, hw⟩
    rw [mem_itemsLang_nil.mp hv, hw rfl]
    rfl
  · rintro rfl
    exact ⟨[], [], rfl, nil_mem_itemsLang, fun _ => rfl⟩

/-- **`matchhere`** decides whether the text begins as the pattern says. -/
theorem matchhere_iff {re : List Char} :
    matchhere re text = true ↔ Begins (readItems re) text := by
  induction re using List.twoStepInduction generalizing text with
  | nil => simp [matchhere, readItems, begins_nil]
  | singleton c =>
    by_cases hc : c = '$'
    · -- a `$` at the end of the pattern
      rw [readItems, if_pos hc, begins_eol]
      cases text <;> simp [matchhere, hc]
    · rw [readItems, if_neg hc, begins_one]
      cases text with
      | nil => simp [matchhere, hc]
      | cons x text => simp [matchhere, hc, begins_nil, Fits]
  | cons_cons c d re ihre ih =>
    by_cases hd : d = '*'
    · have hstar : matchhere (c :: d :: re) text = matchstar c (matchhere re) text := by
        cases text <;> simp [matchhere, hd]
      rw [hstar, readItems, if_pos hd, matchstar_iff, begins_star]
      simp only [ihre]
    · rw [readItems, if_neg hd, begins_one]
      cases text with
      | nil => simp [matchhere, hd]
      | cons x text =>
        rw [matchhere, if_neg hd, Bool.and_eq_true, fits_iff, ih]
        simp

/-- The loop of `match` tries all places in the text. -/
theorem matchLoop_iff {re : List Char} :
    matchLoop re text = true ↔ ∃ u rest, text = u ++ rest ∧ matchhere re rest = true := by
  induction text with
  | nil =>
    constructor
    · intro h
      exact ⟨[], [], rfl, h⟩
    · rintro ⟨u, rest, heq, h⟩
      obtain ⟨-, rfl⟩ := List.append_eq_nil_iff.mp heq.symm
      exact h
  | cons x text ih =>
    rw [matchLoop, Bool.or_eq_true, ih]
    constructor
    · rintro (h | ⟨u, rest, rfl, h⟩)
      · exact ⟨[], x :: text, rfl, h⟩
      · exact ⟨x :: u, rest, rfl, h⟩
    · rintro ⟨u, rest, heq, h⟩
      cases u with
      | nil =>
        left
        rw [heq]
        exact h
      | cons y u =>
        obtain ⟨rfl, rfl⟩ := List.cons.inj heq
        exact .inr ⟨u, rest, rfl, h⟩

/-- **The matcher decides its pattern language.** It finds a match exactly when some part of the
text is in the language of the pattern, a part at the beginning of the text after a `^`, and one at
its end before a `$`. -/
theorem match_decides (re text : List Char) :
    matchText re text = true ↔
      ∃ u v w, text = u ++ v ++ w ∧ v ∈ (Pattern.read re).lang ∧
        ((Pattern.read re).bol = true → u = []) ∧ ((Pattern.read re).eol = true → w = []) := by
  unfold matchText Pattern.read
  split
  · -- the pattern begins with `^`
    rw [matchhere_iff]
    constructor
    · rintro ⟨v, w, rfl, hv, hw⟩
      exact ⟨[], v, w, rfl, hv, fun _ => rfl, hw⟩
    · rintro ⟨u, v, w, rfl, hv, hu, hw⟩
      rw [hu rfl]
      exact ⟨v, w, rfl, hv, hw⟩
  · rw [matchLoop_iff]
    constructor
    · rintro ⟨u, rest, rfl, h⟩
      obtain ⟨v, w, rfl, hv, hw⟩ := matchhere_iff.mp h
      exact ⟨u, v, w, (List.append_assoc ..).symm, hv, nofun, hw⟩
    · rintro ⟨u, v, w, rfl, hv, -, hw⟩
      exact ⟨u, v ++ w, List.append_assoc .., matchhere_iff.mpr ⟨v, w, rfl, hv, hw⟩⟩

example : matchText "^a.*b$".toList "axyb".toList = true := by decide

example : matchText "a*$".toList "xb".toList = true := by decide

end Xv6.Grep
