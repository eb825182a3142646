import Mathlib

/-!
# Exact ownership

A number of places each hold a resource, given by a number, or none, given by `0`. Ownership is
exact when no resource is held in two places and the resources in use are those that are held.
-/

namespace Place

universe u

variable {π : Type u}

/-- No resource is held in two places, and `used` are the resources held. -/
structure Exact (place : π → ℕ) (used : Set ℕ) : Prop where
  inj : ∀ {p q : π}, place p ≠ 0 → place p = place q → p = q
  mem_iff : ∀ b, b ∈ used ↔ b ≠ 0 ∧ ∃ p, place p = b

variable {place place' : π → ℕ} {used used' : Set ℕ}

theorem Exact.mem (h : Exact place used) {p : π} (hp : place p ≠ 0) : place p ∈ used :=
  (h.mem_iff _).mpr ⟨hp, p, rfl⟩

theorem Exact.ne_of_notMem (h : Exact place used) {b : ℕ} (hb : b ∉ used) (hb0 : b ≠ 0) (p : π) :
    place p ≠ b := by
  rintro rfl
  exact hb (h.mem hb0)

/-- **Taking a resource.** -/
theorem Exact.insert (h : Exact place used) {p : π} {b : ℕ} (hp : place p = 0) (hb : b ∉ used)
    (hb0 : b ≠ 0) (hself : place' p = b) (hother : ∀ q, q ≠ p → place' q = place q)
    (hused : ∀ x, x ∈ used' ↔ x ∈ used ∨ x = b) : Exact place' used' := by
  have hne := h.ne_of_notMem hb hb0
  constructor
  · intro q r hq hqr
    by_cases hqp : q = p
    · by_cases hrp : r = p
      · rw [hqp, hrp]
      · -- The new resource was held nowhere else.
        rw [hqp, hself, hother r hrp] at hqr
        exact absurd hqr.symm (hne r)
    · by_cases hrp : r = p
      · rw [hrp, hself, hother q hqp] at hqr
        exact absurd hqr (hne q)
      · rw [hother q hqp] at hq hqr
        rw [hother r hrp] at hqr
        exact h.inj hq hqr
  · intro x
    rw [hused, h.mem_iff]
    constructor
    · rintro (⟨hx0, q, rfl⟩ | rfl)
      · have hqp : q ≠ p := by
          rintro rfl
          exact hx0 hp
        exact ⟨hx0, q, hother q hqp⟩
      · exact ⟨hb0, p, hself⟩
    · rintro ⟨hx0, q, rfl⟩
      by_cases hqp : q = p
      · right
        rw [hqp, hself]
      · left
        rw [hother q hqp] at hx0 ⊢
        exact ⟨hx0, q, rfl⟩

end Place
