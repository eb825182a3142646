import Mathlib

/-!
# Fixed tables

A table of `n` records is a function on `Fin n`; a store into one record is `Function.update`.
The lemmas say what a store does to a sum over all records, to the number of records with a
property, and what the linear scan `for (i = 0; i < n; i++) if (p(i)) goto found` finds.

## Main definitions

* `firstIdx p`: the first index the scan stops at
* `tally P`: the number of records with the property `P`

## Main results

* `sum_add_of_eq_off`: a store exchanges one summand
* `tally_add_of_eq_off`: a store exchanges one unit of a tally
* `firstIdx_eq_none`, `firstIdx_spec`: what the scan finds
-/

namespace Table

variable {n : ℕ}

/-- Two tables that agree off `i` have sums that differ by the exchange of one summand. -/
theorem sum_add_of_eq_off {ι M : Type*} [Fintype ι] [DecidableEq ι] [AddCommMonoid M] {f g : ι → M}
    (i : ι) (h : ∀ j, j ≠ i → g j = f j) : ∑ j, g j + f i = ∑ j, f j + g i := by
  rw [← Finset.add_sum_erase _ g (Finset.mem_univ i), ← Finset.add_sum_erase _ f
    (Finset.mem_univ i),
    Finset.sum_congr rfl fun j hj => h j (Finset.ne_of_mem_erase hj)]
  abel

/-- A loop that adds up the entries of a table and skips those at zero. -/
theorem foldl_add_ne_zero {M : Type*} [AddCommMonoid M] [DecidableEq M] (f : Fin n → M) :
    (List.finRange n).foldl (fun c i => if f i ≠ 0 then c + f i else c) 0 = ∑ i, f i := by
  have hskip : (fun c i => if f i ≠ 0 then c + f i else c) = fun c i => c + f i := by
    funext c i
    split
    · rfl
    · next hzero => rw [not_not.mp hzero, add_zero]
  rw [hskip, ← List.foldl_map, ← List.sum_eq_foldl, ← List.ofFn_eq_map, List.sum_ofFn]

/-- The number of records with the property `P`. -/
def tally {α : Type*} (P : α → Prop) [DecidablePred P] (t : Fin n → α) : ℕ :=
  (Finset.univ.filter fun i => P (t i)).card

/-- Two tables that agree off `i` have tallies that differ by the exchange of one unit. -/
theorem tally_add_of_eq_off {α : Type*} (P : α → Prop) [DecidablePred P] {t t' : Fin n → α}
    (i : Fin n) (h : ∀ j, j ≠ i → (P (t' j) ↔ P (t j))) :
    tally P t' + (if P (t i) then 1 else 0) = tally P t + (if P (t' i) then 1 else 0) := by
  simp only [tally, Finset.card_filter]
  exact sum_add_of_eq_off i fun j hj => if_congr (h j hj) rfl rfl

theorem tally_pos_iff {α : Type*} (P : α → Prop) [DecidablePred P] (t : Fin n → α) :
    0 < tally P t ↔ ∃ i, P (t i) := by
  simp [tally, Finset.card_pos, Finset.filter_nonempty_iff]

theorem one_lt_tally {α : Type*} (P : α → Prop) [DecidablePred P] {t : Fin n → α} {i j : Fin n}
    (hi : P (t i)) (hj : P (t j)) (hne : i ≠ j) : 1 < tally P t :=
  Finset.one_lt_card.mpr ⟨i, by simpa using hi, j, by simpa using hj, hne⟩

/-- The first index at which `p` holds, as a scan from `0` finds it. -/
def firstIdx (p : Fin n → Bool) : Option (Fin n) :=
  (List.finRange n).find? p

theorem firstIdx_spec {p : Fin n → Bool} {i : Fin n} (h : firstIdx p = some i) : p i = true :=
  List.find?_some h

theorem firstIdx_eq_none {p : Fin n → Bool} : firstIdx p = none ↔ ∀ i, p i = false := by
  simp [firstIdx, List.find?_eq_none]

end Table
