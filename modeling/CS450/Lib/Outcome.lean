import Mathlib

/-!
# Computations that return or fault

How `Except` computations in sequence return and fault, in the shape in which the specifications
of a program written with `do` are peeled apart.

## Main results

* `Except.bind_eq_ok`: a sequence returns when both parts do
* `StateT.bind_eq_ok`: the same for computations that also carry a state
* `StateT.bind_of_ok`, `StateT.bind_of_error`: what a sequence does after its first part
* `Except.Meets.bind`: a sequence meets its specification part by part
* `Except.Follows.bind`: a computation follows a more abstract one part by part
-/

namespace Except

universe u v

variable {ε : Type u} {α β : Type v}

theorem bind_eq_ok {x : Except ε α} {f : α → Except ε β} {b : β} :
    (x >>= f) = .ok b ↔ ∃ a, x = .ok a ∧ f a = .ok b := by
  cases x with
  | error e => simp [bind, Except.bind]
  | ok a => simp [bind, Except.bind]

@[simp] theorem ok_bind (a : α) (f : α → Except ε β) : ((.ok a : Except ε α) >>= f) = f a := rfl

@[simp] theorem pure_eq_ok_iff {a b : α} : (pure a : Except ε α) = .ok b ↔ a = b := by
  simp [pure, Except.pure]

/-! ### Specifications -/

/-- **The computation meets its specification**: it returns when `C` is the case, and whatever it
returns satisfies `P`. -/
structure Meets (C : Prop) (P : α → Prop) (x : Except ε α) : Prop where
  returns : C → ∃ a, x = .ok a
  holds : ∀ a, x = .ok a → P a

section Meets

variable {C C' : Prop} {P P' : α → Prop} {Q : β → Prop} {x : Except ε α}

theorem Meets.ok {a : α} (h : P a) : Meets C P (.ok a : Except ε α) :=
  ⟨fun _ => ⟨a, rfl⟩, fun _ he => by cases he; exact h⟩

theorem Meets.error {e : ε} (h : ¬ C) : Meets C P (.error e) :=
  ⟨fun hC => absurd hC h, fun _ he => by cases he⟩

/-- **Sequences.** -/
theorem Meets.bind {f : α → Except ε β} (h : Meets C P x) (hf : ∀ a, P a → Meets C Q (f a)) :
    Meets C Q (x >>= f) := by
  refine ⟨fun hC => ?_, fun b hb => ?_⟩
  · obtain ⟨a, rfl⟩ := h.returns hC
    exact (hf a (h.holds a rfl)).returns hC
  · obtain ⟨a, rfl, hb⟩ := bind_eq_ok.mp hb
    exact (hf a (h.holds a rfl)).holds b hb

theorem Meets.mono (h : Meets C P x) (hC : C' → C) (hP : ∀ a, P a → P' a) : Meets C' P' x :=
  ⟨fun hC' => h.returns (hC hC'), fun a ha => hP a (h.holds a ha)⟩

theorem Meets.exists (h : Meets C P x) (hC : C) : ∃ a, x = .ok a ∧ P a := by
  obtain ⟨a, ha⟩ := h.returns hC
  exact ⟨a, ha, h.holds a ha⟩

end Meets

/-! ### Refinement

A computation over concrete data follows one over abstract data: it faults where the abstract one
does, with the fault that `E` gives, and returns related data where the abstract one returns. -/

variable {ε' : Type u} {α' β' : Type v} {E : ε' → ε} {R : α → α' → Prop} {S : β → β' → Prop}

/-- **The computation follows the abstract one.** -/
def Follows (E : ε' → ε) (R : α → α' → Prop) (x : Except ε α) : Except ε' α' → Prop
  | .error e => x = .error (E e)
  | .ok b => ∃ a, x = .ok a ∧ R a b

theorem Follows.error {e : ε'} : Follows E R (.error (E e)) (.error e) := rfl

theorem Follows.ok {a : α} {b : α'} (h : R a b) : Follows E R (.ok a) (.ok b) := ⟨a, rfl, h⟩

/-- **Sequences.** -/
theorem Follows.bind {x : Except ε α} {y : Except ε' α'} {f : α → Except ε β}
    {g : α' → Except ε' β'} (h : Follows E R x y) (hf : ∀ a b, R a b → Follows E S (f a) (g b)) :
    Follows E S (x >>= f) (y >>= g) := by
  cases y with
  | error e =>
    have hx : x = .error (E e) := h
    rw [hx]
    exact rfl
  | ok b =>
    obtain ⟨a, rfl, hR⟩ := h
    exact hf a b hR

end Except

namespace StateT

universe u v

variable {σ ε : Type u} {α β : Type u}

variable {f : α → StateT σ (Except ε) β} {s : σ} {x : StateT σ (Except ε) α}

theorem bind_eq_ok {r : β × σ} :
    (x >>= f) s = .ok r ↔ ∃ a t, x s = .ok (a, t) ∧ f a t = .ok r := by
  constructor
  · intro h
    obtain ⟨⟨a, t⟩, hx, hf⟩ := Except.bind_eq_ok.mp h
    exact ⟨a, t, hx, hf⟩
  · rintro ⟨a, t, hx, hf⟩
    exact Except.bind_eq_ok.mpr ⟨(a, t), hx, hf⟩

theorem bind_of_ok {t : σ} {a : α} (h : x s = .ok (a, t)) : (x >>= f) s = f a t := by
  show (x s >>= fun p => f p.1 p.2) = _
  rw [h]
  rfl

theorem bind_of_error {e : ε} (h : x s = .error e) : (x >>= f) s = .error e := by
  show (x s >>= fun p => f p.1 p.2) = _
  rw [h]
  rfl

theorem get_bind {f : σ → StateT σ (Except ε) β} : (get >>= f) s = f s s := rfl

theorem modify_bind {g : σ → σ} {f : PUnit → StateT σ (Except ε) β} :
    (modify g >>= f) s = f ⟨⟩ (g s) := rfl

end StateT
