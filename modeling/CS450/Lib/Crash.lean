import Mathlib

/-!
# Writes and crashes

A store is a function from addresses to contents, and a program is seen through the writes it makes
to it, in order. A crash cuts the writes off after some number of them; what the store then holds is
what that many writes made of it.
-/

namespace Crash

universe u v

variable {κ : Type u} {β : Type v} [DecidableEq κ]

/-- The store after the writes, in order. -/
def apply (ws : List (κ × β)) (d : κ → β) : κ → β :=
  ws.foldl (fun d w => Function.update d w.1 w.2) d

@[simp] theorem apply_nil (d : κ → β) : apply [] d = d := rfl

theorem apply_append (us vs : List (κ × β)) (d : κ → β) :
    apply (us ++ vs) d = apply vs (apply us d) := by
  simp [apply]

theorem apply_snoc (ws : List (κ × β)) (x : κ) (v : β) (d : κ → β) :
    apply (ws ++ [(x, v)]) d = Function.update (apply ws d) x v := by
  simp [apply]

/-- The property holds of the store wherever a crash cuts the writes off. -/
def Always (P : (κ → β) → Prop) (d : κ → β) (ws : List (κ × β)) : Prop :=
  ∀ k, P (apply (ws.take k) d)

variable {P Q : (κ → β) → Prop} {d : κ → β} {us ws : List (κ × β)}

theorem always_nil (h : P d) : Always P d [] := by
  intro k
  simpa using h

theorem always_append (hu : Always P d us) (hw : Always P (apply us d) ws) :
    Always P d (us ++ ws) := by
  intro k
  rw [List.take_append, apply_append]
  by_cases hk : k ≤ us.length
  · -- The crash falls into the first phase, and nothing of the second is written.
    have h0 : k - us.length = 0 := by omega
    simpa [h0] using hu k
  · rw [List.take_of_length_le (l := us) (by omega)]
    exact hw _

theorem always_snoc {x : κ} {v : β} (h : Always P d ws)
    (hv : P (Function.update (apply ws d) x v)) : Always P d (ws ++ [(x, v)]) := by
  apply always_append h
  intro k
  cases k with
  | zero => simpa using h ws.length
  | succ k => simpa [apply] using hv

end Crash
