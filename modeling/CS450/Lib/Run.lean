import Mathlib

/-!
# Labelled runs

A transition system is a relation `step : σ → ε → σ → Prop`: `step s e s'` says that the event
`e` takes the state `s` to `s'`. A run is a finite sequence of steps, recorded by the list of its
events. Everything that is proved about a whole run in this development is proved here once, by
induction on the run, from a fact about one step.

## Main definitions

* `Run step s es s'`: the events `es`, in order, take `s` to `s'`
* `Guarded step guard`: the steps of `step` that meet the condition `guard`

## Main results

* `Run.invariant`: what every step preserves holds at the end of every run
* `Run.invariant_history`: the same for a property of the state and of the events so far
* `Run.exists_of_foldlM`: a run by evaluation
* `Run.exists_maximal`: where a number goes down with every step, runs come to an end
-/

namespace Transition

universe u v

variable {σ : Type u} {ε : Type v} {step : σ → ε → σ → Prop}

/-- The events `es`, in order, take the first state to the last. -/
inductive Run (step : σ → ε → σ → Prop) (s : σ) : List ε → σ → Prop
  | nil : Run step s [] s
  | snoc {t u : σ} {es : List ε} {e : ε} :
      Run step s es t → step t e u → Run step s (es ++ [e]) u

/-- The steps that meet a condition on the state before the step and on its event. -/
def Guarded (step : σ → ε → σ → Prop) (guard : σ → ε → Prop) (s : σ) (e : ε) (s' : σ) : Prop :=
  step s e s' ∧ guard s e

namespace Run

theorem single {s s' : σ} {e : ε} (h : step s e s') : Run step s [e] s' :=
  .snoc .nil h

theorem trans {s t u : σ} {es fs : List ε} (h : Run step s es t) (h' : Run step t fs u) :
    Run step s (es ++ fs) u := by
  induction h' with
  | nil => simpa using h
  | snoc _ hs ih => simpa [List.append_assoc] using Run.snoc ih hs

theorem nil_iff {s s' : σ} : Run step s [] s' ↔ s = s' := by
  constructor
  · intro h
    generalize hes : ([] : List ε) = es at h
    cases h with
    | nil => rfl
    | snoc _ _ => simp at hes
  · rintro rfl
    exact .nil

theorem snoc_iff {s s' : σ} {es : List ε} {e : ε} :
    Run step s (es ++ [e]) s' ↔ ∃ t, Run step s es t ∧ step t e s' := by
  constructor
  · intro h
    generalize hfs : es ++ [e] = fs at h
    cases h with
    | nil => simp at hfs
    | @snoc t _ _ _ h hs =>
      obtain ⟨rfl, he⟩ := List.append_inj' hfs rfl
      obtain rfl : e = _ := by simpa using he
      exact ⟨t, h, hs⟩
  · rintro ⟨t, h, hs⟩
    exact .snoc h hs

/-- **Invariants.** What every step preserves holds at the end of every run. -/
theorem invariant {I : σ → Prop} (hI : ∀ s e s', I s → step s e s' → I s') {s s' : σ}
    {es : List ε} (h : Run step s es s') (hs : I s) : I s' := by
  induction h with
  | nil => exact hs
  | snoc _ hstep ih => exact hI _ _ _ ih hstep

/-- **History invariants.** A property of the events so far and of the state, kept by every step
that extends the events. -/
theorem invariant_history {J : List ε → σ → Prop}
    (hJ : ∀ es s e s', J es s → step s e s' → J (es ++ [e]) s') {s s' : σ} {es : List ε}
    (h : Run step s es s') (hs : J [] s) : J es s' := by
  induction h with
  | nil => exact hs
  | snoc _ hstep ih => exact hJ _ _ _ _ ih hstep

/-- A run of a smaller step relation is a run of a larger one. -/
theorem mono {step' : σ → ε → σ → Prop} (hsub : ∀ s e s', step s e s' → step' s e s') {s s' : σ}
    {es : List ε} (h : Run step s es s') : Run step' s es s' := by
  induction h with
  | nil => exact .nil
  | snoc _ hstep ih => exact .snoc ih (hsub _ _ _ hstep)

/-- A run whose events all meet a condition. -/
theorem guarded {guard : σ → ε → Prop} {s s' : σ} {es : List ε} (h : Run step s es s')
    (hes : ∀ e ∈ es, ∀ t, guard t e) : Run (Guarded step guard) s es s' := by
  induction h with
  | nil => exact .nil
  | snoc _ hstep ih =>
    refine .snoc (ih fun e he => hes e (List.mem_append_left _ he)) ⟨hstep, ?_⟩
    exact hes _ (List.mem_append_right _ List.mem_cons_self) _

/-- A run by evaluation, where the next state can be computed. -/
theorem exists_of_foldlM {next : σ → ε → Option σ}
    (hnext : ∀ s e s', next s e = some s' → step s e s')
    {s : σ} {es : List ε} {p : σ → Bool} (h : (es.foldlM next s).any p = true) :
    ∃ s', Run step s es s' ∧ p s' = true := by
  have hrun : ∀ (es : List ε) (s s' : σ), es.foldlM next s = some s' → Run step s es s' := by
    intro es
    induction es with
    | nil =>
      intro s s' h
      cases h
      exact .nil
    | cons e es ih =>
      intro s s' h
      obtain ⟨t, ht, hrest⟩ := Option.bind_eq_some_iff.mp h
      exact (Run.single (hnext s e t ht)).trans (ih t s' hrest)
  obtain ⟨s', hs', hp⟩ := (Option.any_eq_true _ _).mp h
  exact ⟨s', hrun es s s' hs', hp⟩

/-- **Runs that come to an end.** Where a number goes down with every step, every state leads to
one without a step, and the number bounds the length of every run. -/
theorem exists_maximal {I : σ → Prop} {μ : σ → ℕ} (hI : ∀ s e s', I s → step s e s' → I s')
    (hμ : ∀ s e s', I s → step s e s' → μ s' < μ s) {s : σ} (hs : I s) :
    ∃ es s', Run step s es s' ∧ ∀ e s'', ¬ step s' e s'' := by
  induction hm : μ s using Nat.strong_induction_on generalizing s with
  | _ m ih =>
    by_cases hstuck : ∀ e s', ¬ step s e s'
    · exact ⟨[], s, .nil, hstuck⟩
    · push Not at hstuck
      obtain ⟨e, t, hstep⟩ := hstuck
      obtain ⟨es, s', hrun, hend⟩ := ih (μ t) (hm ▸ hμ s e t hs hstep) (hI s e t hs hstep) rfl
      exact ⟨e :: es, s', (Run.single hstep).trans hrun, hend⟩

theorem length_add_le {I : σ → Prop} {μ : σ → ℕ} (hI : ∀ s e s', I s → step s e s' → I s')
    (hμ : ∀ s e s', I s → step s e s' → μ s' < μ s) {s s' : σ} {es : List ε}
    (h : Run step s es s') (hs : I s) : es.length + μ s' ≤ μ s := by
  induction h with
  | nil => simp
  | @snoc t u es e hrun hstep ih =>
    have := hμ t e u (hrun.invariant hI hs) hstep
    simp only [List.length_append, List.length_singleton]
    omega

end Run

end Transition
