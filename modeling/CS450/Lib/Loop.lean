import Mathlib

/-!
# Counting loops

The loop `for (i = 0; i < n; i++)` as a function of the number of rounds, and its rule: what holds
before the first round and is carried from round to round holds after the last.
-/

namespace Loop

universe u

variable {σ : Type u}

/-- The state after the rounds `0` to `n - 1`, each of which is `f i`. -/
def upTo (f : ℕ → σ → σ) : ℕ → σ → σ
  | 0, s => s
  | n + 1, s => f n (upTo f n s)

/-- **The invariant rule.** `I i` holds after `i` rounds. -/
theorem upTo_rule {f : ℕ → σ → σ} {n : ℕ} {s : σ} (I : ℕ → σ → Prop) (h0 : I 0 s)
    (hstep : ∀ i < n, ∀ s, I i s → I (i + 1) (f i s)) : I n (upTo f n s) := by
  induction n with
  | zero => exact h0
  | succ n ih =>
    apply hstep n (Nat.lt_succ_self n)
    exact ih fun i hi => hstep i (by omega)

end Loop
