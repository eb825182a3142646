import Mathlib

/-!
# Tables of slots

A finite map kept as a list of slots: a slot is vacant or binds a key to a value. A new binding goes
into the first vacant slot, or into a new slot at the end; a binding is removed by making its slot
vacant. As long as a key is only bound when it is not bound yet, the keys of the slots are distinct
and the list represents a map.

## Main definitions

* `Binds live t j k v`: the slot `j` binds `k` to `v`
* `Distinct live t`: no key is bound in two slots
* `find live t k`: the first slot that binds `k`, with the value
* `vacant live t`: the first vacant slot, or the end
* `put t j e`: the slot `j` becomes `e`

## Main results

* `find_eq_some_iff`, `find_eq_none_iff`: what `find` finds
* `binds_put`: the bindings after `put`
* `Distinct.insert`, `Distinct.erase`: the keys stay distinct
* `find_insert`, `find_erase`: what is found afterwards
-/

namespace Slots

universe u

variable {E K V : Type u} (live : E → Option (K × V))

/-- The slot `j` binds `k` to `v`. -/
def Binds (t : List E) (j : ℕ) (k : K) (v : V) : Prop := ∃ e, t[j]? = some e ∧ live e = some (k, v)

/-- No key is bound in two slots. -/
def Distinct (t : List E) : Prop :=
  ∀ ⦃i j k v w⦄, Binds live t i k v → Binds live t j k w → i = j

/-- The slot `j` becomes `e`; at the end a new slot is added. -/
def put (t : List E) (j : ℕ) (e : E) : List E := if j < t.length then t.set j e else t ++ [e]

/-- The first vacant slot, or the end. -/
def vacant (t : List E) : ℕ := t.findIdx fun e => (live e).isNone

section Find

variable [DecidableEq K]

/-- The first slot from `j` on that binds `k`, for a table whose slots before `j` are left out. -/
def findFrom (k : K) : List E → ℕ → Option (V × ℕ)
  | [], _ => none
  | e :: t, j =>
    match live e with
    | some (k', v) => if k' = k then some (v, j) else findFrom k t (j + 1)
    | none => findFrom k t (j + 1)

/-- The first slot that binds `k`, with the value. -/
def find (t : List E) (k : K) : Option (V × ℕ) := findFrom live k t 0

end Find

variable {live} {t : List E} {i j : ℕ} {k k' : K} {v v' : V} {e : E}

theorem Binds.lt_length (h : Binds live t j k v) : j < t.length := by
  obtain ⟨e, he, -⟩ := h
  exact (List.getElem?_eq_some_iff.mp he).1

theorem Binds.unique (h : Binds live t j k v) (h' : Binds live t j k' v') : k = k' ∧ v = v' := by
  obtain ⟨e, he, hl⟩ := h
  obtain ⟨e', he', hl'⟩ := h'
  rw [he] at he'
  cases he'
  rw [hl] at hl'
  cases hl'
  exact ⟨rfl, rfl⟩

theorem vacant_le (live : E → Option (K × V)) (t : List E) : vacant live t ≤ t.length :=
  List.findIdx_le_length

theorem not_binds_vacant : ¬ Binds live t (vacant live t) k v := by
  rintro ⟨e, he, hl⟩
  obtain ⟨hlt, rfl⟩ := List.getElem?_eq_some_iff.mp he
  have hnone : (live (t[vacant live t])).isNone = true :=
    List.findIdx_getElem (p := fun e => (live e).isNone) (w := hlt)
  rw [hl] at hnone
  cases hnone

theorem getElem?_put (hj : j ≤ t.length) : (put t j e)[i]? = if i = j then some e else t[i]? := by
  unfold put
  split_ifs with h hij hij
  · subst hij
    rw [List.getElem?_set_self h]
  · rw [List.getElem?_set_ne (fun heq => hij heq.symm)]
  · rw [hij, show j = t.length by omega, List.getElem?_concat_length]
  · by_cases hlt : i < t.length
    · rw [List.getElem?_append_left hlt]
    · rw [List.getElem?_eq_none (by rw [List.length_append, List.length_singleton]; omega),
        List.getElem?_eq_none (by omega)]

/-- **The bindings after `put`.** -/
theorem binds_put (hj : j ≤ t.length) :
    Binds live (put t j e) i k v ↔ i = j ∧ live e = some (k, v) ∨ i ≠ j ∧ Binds live t i k v := by
  unfold Binds
  rw [getElem?_put hj]
  by_cases hij : i = j
  · simp [hij]
  · simp [hij]

/-- A key that is not bound takes a slot. -/
theorem Distinct.insert (h : Distinct live t) (hj : j ≤ t.length) (he : live e = some (k, v))
    (habsent : ∀ i w, ¬ Binds live t i k w) : Distinct live (put t j e) := by
  intro a b c x y ha hb
  rw [binds_put hj] at ha hb
  rcases ha with ⟨rfl, ha⟩ | ⟨hne, ha⟩
  · rcases hb with ⟨rfl, -⟩ | ⟨-, hb⟩
    · rfl
    · rw [he] at ha
      cases ha
      exact absurd hb (habsent b y)
  · rcases hb with ⟨rfl, hb⟩ | ⟨-, hb⟩
    · rw [he] at hb
      cases hb
      exact absurd ha (habsent a x)
    · exact h ha hb

/-- A slot becomes vacant. -/
theorem Distinct.erase (h : Distinct live t) (hj : j ≤ t.length) (he : live e = none) :
    Distinct live (put t j e) := by
  intro a b c x y ha hb
  rw [binds_put hj, he] at ha hb
  rcases ha with ⟨-, ha⟩ | ⟨-, ha⟩
  · cases ha
  · rcases hb with ⟨-, hb⟩ | ⟨-, hb⟩
    · cases hb
    · exact h ha hb

section Find

variable [DecidableEq K]

theorem findFrom_eq_some {n : ℕ} (h : findFrom live k t n = some (v, j)) :
    n ≤ j ∧ Binds live t (j - n) k v := by
  induction t generalizing n with
  | nil => cases h
  | cons e t ih =>
    have hrest : findFrom live k t (n + 1) = some (v, j) →
        n ≤ j ∧ Binds live (e :: t) (j - n) k v := by
      intro h
      obtain ⟨hle, e', he', hl⟩ := ih h
      refine ⟨by omega, e', ?_, hl⟩
      rw [show j - n = j - (n + 1) + 1 by omega]
      exact he'
    rw [findFrom] at h
    cases hl : live e with
    | none =>
      rw [hl] at h
      exact hrest h
    | some b =>
      obtain ⟨k', v'⟩ := b
      rw [hl] at h
      simp only at h
      split_ifs at h with hk
      · cases h
        exact ⟨le_rfl, e, by simp, by rw [hl, hk]⟩
      · exact hrest h

theorem findFrom_eq_none {n : ℕ} (h : findFrom live k t n = none) : ¬ Binds live t j k v := by
  rintro ⟨e', he', hl'⟩
  induction t generalizing n j with
  | nil => simp at he'
  | cons e t ih =>
    rw [findFrom] at h
    have hrest : findFrom live k t (n + 1) = none ∧ live e ≠ some (k, v) := by
      cases hl : live e with
      | none =>
        rw [hl] at h
        exact ⟨h, nofun⟩
      | some b =>
        rw [hl] at h
        simp only at h
        split_ifs at h with hk
        refine ⟨h, fun heq => hk ?_⟩
        cases heq
        rfl
    cases j with
    | zero =>
      cases he'
      exact hrest.2 hl'
    | succ j => exact ih hrest.1 (by simpa using he')

theorem find_eq_none_iff : find live t k = none ↔ ∀ j v, ¬ Binds live t j k v := by
  constructor
  · intro h j v
    exact findFrom_eq_none h
  · intro h
    cases hf : find live t k with
    | none => rfl
    | some r => exact absurd (findFrom_eq_some hf).2 (h _ _)

theorem find_binds (h : find live t k = some (v, j)) : Binds live t j k v :=
  (findFrom_eq_some h).2

/-- **What `find` finds** in a table with distinct keys. -/
theorem find_eq_some_iff (h : Distinct live t) :
    find live t k = some (v, j) ↔ Binds live t j k v := by
  refine ⟨find_binds, fun hb => ?_⟩
  cases hf : find live t k with
  | none => exact absurd hb (find_eq_none_iff.mp hf j v)
  | some r =>
    have hb' := find_binds hf
    obtain rfl := h hb hb'
    rw [(hb.unique hb').2]

/-- A table with distinct keys finds what another one with the same bindings of the key does. -/
theorem find_congr {t' : List E} (h' : Distinct live t')
    (heq : ∀ j v, Binds live t' j k v ↔ Binds live t j k v) : find live t' k = find live t k := by
  cases hf : find live t k with
  | none => exact find_eq_none_iff.mpr fun j v hb => find_eq_none_iff.mp hf j v ((heq j v).mp hb)
  | some r => exact (find_eq_some_iff h').mpr ((heq _ _).mpr (find_binds hf))

/-- What is found after a key that was not bound took a vacant slot. -/
theorem find_insert (h : Distinct live t) (hj : j ≤ t.length) (he : live e = some (k, v))
    (habsent : ∀ i w, ¬ Binds live t i k w) (hvacant : ∀ k w, ¬ Binds live t j k w) :
    find live (put t j e) k' = if k' = k then some (v, j) else find live t k' := by
  have hd := h.insert hj he habsent
  split_ifs with hk
  · rw [find_eq_some_iff hd, binds_put hj]
    exact .inl ⟨rfl, by rw [hk]; exact he⟩
  · apply find_congr hd
    intro i w
    rw [binds_put hj]
    constructor
    · rintro (⟨-, hl⟩ | ⟨-, hb⟩)
      · rw [he] at hl
        cases hl
        exact absurd rfl hk
      · exact hb
    · intro hb
      refine .inr ⟨?_, hb⟩
      rintro rfl
      exact hvacant _ _ hb

/-- What is found after the slot of a key became vacant. -/
theorem find_erase (h : Distinct live t) (he : live e = none) (hb : Binds live t j k v) :
    find live (put t j e) k' = if k' = k then none else find live t k' := by
  have hj := hb.lt_length.le
  have hd := h.erase hj he
  split_ifs with hk
  · rw [find_eq_none_iff]
    intro i w hi
    rw [binds_put hj, he] at hi
    rcases hi with ⟨-, hi⟩ | ⟨hne, hi⟩
    · cases hi
    · rw [hk] at hi
      exact hne (h hi hb)
  · apply find_congr hd
    intro i w
    rw [binds_put hj, he]
    constructor
    · rintro (⟨-, hl⟩ | ⟨-, hi⟩)
      · cases hl
      · exact hi
    · intro hi
      refine .inr ⟨?_, hi⟩
      rintro rfl
      exact hk (hi.unique hb).1

end Find

end Slots
