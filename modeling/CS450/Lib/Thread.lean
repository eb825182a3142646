import CS450.Lib.Run

/-!
# Threads that run programs

A program is a tree of atomic actions: after each action it goes on with the response. A machine
executes the actions of several threads on a common state, one action at a time and in any order.

What the threads may assume about each other is written down as a protocol over ghost states. Each
thread has one; an action is allowed in some of them, and changes the ghost state of its thread. A
program that keeps to the protocol is checked by itself, and an invariant that ties the state to the
ghost states of all threads is checked action by action. Together they hold in every run.

## Main definitions

* `Prog R α`: programs whose action `a` has a response in `R a`
* `Prog.expand`: a program over calls, with the programs of the calls in their place
* `Machine`: how actions are executed, and the programs of the calls
* `Pool`, `Step`: the state with the programs under way, and what one thread does
* `Protocol`, `Spec`: ghost states, and that a program keeps to the protocol
* `Sound`: what has to be shown for an invariant

## Main results

* `Spec.bind`: a sequence keeps to the protocol when its parts do
* `Spec.expand`: a program over calls keeps to the protocol when the calls do
* `Sound.run`: the invariant holds in every run
* `Machine.run_of_moves`: a schedule that can be evaluated is a run
-/

namespace Thread

open Function (update update_eq_self update_idem update_of_ne update_self)
open Transition

/-- Programs whose actions are in `A`, with a response in `R a` for the action `a`. -/
inductive Prog {A : Type} (R : A → Type) (α : Type) : Type
  | ret (x : α)
  | act (a : A) (next : R a → Prog R α)

namespace Prog

variable {A : Type} {R : A → Type} {α β : Type}

protected def bind : Prog R α → (α → Prog R β) → Prog R β
  | .ret x, f => f x
  | .act a next, f => .act a fun r => (next r).bind f

instance : Monad (Prog R) where
  pure := .ret
  bind := Prog.bind

/-- A single action. -/
def perform (a : A) : Prog R (R a) := .act a .ret

/-- The program by itself. -/
def run {σ ε : Type} (exec : (a : A) → σ → Except ε (R a × σ)) :
    Prog R α → σ → Except ε (α × σ)
  | .ret x, s => .ok (x, s)
  | .act a next, s =>
    match exec a s with
    | .ok (r, s) => (next r).run exec s
    | .error e => .error e

/-- A program over calls, each of which is a program itself. -/
def expand {C : Type} {S : C → Type} (impl : (c : C) → Prog R (S c)) : Prog S α → Prog R α
  | .ret x => .ret x
  | .act c next => impl c >>= fun r => (next r).expand impl

@[simp] theorem pure_bind (x : α) (f : α → Prog R β) : (pure x >>= f) = f x := rfl

@[simp] theorem act_bind (a : A) (next : R a → Prog R α) (f : α → Prog R β) :
    ((.act a next : Prog R α) >>= f) = .act a fun r => next r >>= f := rfl

section Run

variable {σ ε : Type} {exec : (a : A) → σ → Except ε (R a × σ)} {x : Prog R α} {f : α → Prog R β}
  {s t : σ}

/-- A sequence goes on where its first part ends. -/
theorem run_bind_of_ok {a : α} (h : x.run exec s = .ok (a, t)) :
    (x >>= f).run exec s = (f a).run exec t := by
  induction x generalizing s with
  | ret y =>
    cases h
    rfl
  | act b next ih =>
    rw [act_bind, run]
    rw [run] at h
    cases hexec : exec b s with
    | error e =>
      rw [hexec] at h
      cases h
    | ok r =>
      rw [hexec] at h
      exact ih r.1 h

/-- A sequence faults when its first part does. -/
theorem run_bind_of_error {e : ε} (h : x.run exec s = .error e) :
    (x >>= f).run exec s = .error e := by
  induction x generalizing s with
  | ret y => cases h
  | act b next ih =>
    rw [act_bind, run]
    rw [run] at h
    cases hexec : exec b s with
    | error e' =>
      rw [hexec] at h
      cases h
      rfl
    | ok r =>
      rw [hexec] at h
      exact ih r.1 h

theorem run_perform {a : A} : (perform a : Prog R (R a)).run exec s = exec a s := by
  rw [perform, run]
  cases exec a s <;> rfl

end Run

end Prog

/-! ### Machines -/

section Machine

variable {P A σ ε C ρ : Type} {R : A → Type}

/-- How the actions of a thread are executed, the programs of the calls, and when a thread may make
a call. -/
structure Machine (P σ ε C ρ : Type) {A : Type} (R : A → Type) where
  exec : P → (a : A) → σ → Except ε (R a × σ)
  body : C → Prog R ρ
  ready : σ → P → Bool

/-- The state, and what is left of the programs under way. -/
structure Pool (P σ ρ : Type) {A : Type} (R : A → Type) where
  st : σ
  code : P → Option (Prog R ρ)

/-- What a thread does. -/
inductive Event (P C ρ : Type) {A : Type} (R : A → Type)
  | start (p : P) (c : C)
  | act (p : P) (a : A) (r : R a)
  | ret (p : P) (x : ρ)

variable [DecidableEq P]

/-- One step of one thread. -/
inductive Step (M : Machine P σ ε C ρ R) :
    Pool P σ ρ R → Event P C ρ R → Pool P σ ρ R → Prop
  | start {s : Pool P σ ρ R} {p : P} {c : C} (hidle : s.code p = none)
      (hready : M.ready s.st p = true) :
      Step M s (.start p c) { s with code := Function.update s.code p (some (M.body c)) }
  | act {s : Pool P σ ρ R} {p : P} {a : A} {next : R a → Prog R ρ} {r : R a} {t : σ}
      (hcode : s.code p = some (.act a next)) (hexec : M.exec p a s.st = .ok (r, t)) :
      Step M s (.act p a r) ⟨t, Function.update s.code p (some (next r))⟩
  | ret {s : Pool P σ ρ R} {p : P} {x : ρ} (hcode : s.code p = some (.ret x)) :
      Step M s (.ret p x) { s with code := Function.update s.code p none }

end Machine

/-! ### Protocols -/

/-- A protocol over the ghost states `G`: whether an action is allowed, which responses it can have,
and the ghost state after it. -/
structure Protocol {A : Type} (R : A → Type) (G : Type) where
  pre : G → A → Prop
  poss : G → (a : A) → R a → Prop
  post : G → (a : A) → R a → G

section Protocol

variable {A G α β : Type} {R : A → Type} {T : Protocol R G}

/-- **The program keeps to the protocol** from the ghost state on, and `Q` holds of its result and
of the ghost state in the end. -/
def Spec (T : Protocol R G) : Prog R α → G → (α → G → Prop) → Prop
  | .ret x, g, Q => Q x g
  | .act a next, g, Q => T.pre g a ∧ ∀ r, T.poss g a r → Spec T (next r) (T.post g a r) Q

/-- **Sequences.** -/
@[simp] theorem spec_bind {x : Prog R α} {f : α → Prog R β} {g : G} {Q : β → G → Prop} :
    Spec T (x >>= f) g Q ↔ Spec T x g fun a g => Spec T (f a) g Q := by
  induction x generalizing g with
  | ret x => rfl
  | act a next ih =>
    exact and_congr_right fun _ => forall_congr' fun r => imp_congr_right fun _ => ih r

theorem Spec.mono {x : Prog R α} {g : G} {Q Q' : α → G → Prop} (h : Spec T x g Q)
    (hQ : ∀ a g, Q a g → Q' a g) : Spec T x g Q' := by
  induction x generalizing g with
  | ret x => exact hQ _ _ h
  | act a next ih => exact ⟨h.1, fun r hr => ih r (h.2 r hr)⟩

/-- **Calls.** A program that keeps to a protocol of calls keeps to the protocol of the actions,
when each call does what the protocol of calls says. -/
theorem Spec.expand {C H : Type} {S : C → Type} {U : Protocol S H} {impl : (c : C) → Prog R (S c)}
    (lift : H → G)
    (himpl : ∀ h c, U.pre h c →
      Spec T (impl c) (lift h) fun r g => U.poss h c r ∧ g = lift (U.post h c r))
    {x : Prog S α} {h : H} {Q : α → H → Prop} (hx : Spec U x h Q) :
    Spec T (x.expand impl) (lift h) fun a g => ∃ h', g = lift h' ∧ Q a h' := by
  induction x generalizing h with
  | ret x => exact ⟨h, rfl, hx⟩
  | act c next ih =>
    rw [Prog.expand, spec_bind]
    refine (himpl h c hx.1).mono ?_
    rintro r g ⟨hposs, rfl⟩
    exact ih r (hx.2 r hposs)

end Protocol

/-! ### Invariants -/

section Sound

variable {P A σ ε C ρ G : Type} {R : A → Type} [DecidableEq P]

/-- Each thread is where its ghost state says: it has no program and the idle ghost state, or what
is left of its program keeps to the protocol. -/
def Covers (T : Protocol R G) (idle : G) (done : G → Prop) (s : Pool P σ ρ R) (g : P → G) : Prop :=
  ∀ p, match s.code p with
    | none => g p = idle
    | some x => Spec T x (g p) fun _ => done

/-- **What an invariant has to meet**, for the steps that meet a condition: it ties the state to the
ghost states of all threads, and every action that the protocol allows keeps it. -/
structure Sound (M : Machine P σ ε C ρ R) (T : Protocol R G) (idle start : G) (done : G → Prop)
    (guard : Pool P σ ρ R → Event P C ρ R → Prop) (J : σ → (P → G) → Prop) : Prop where
  body : ∀ s p c, guard s (.start p c) → Spec T (M.body c) start fun _ => done
  start : ∀ s g p, J s g → g p = idle → M.ready s p = true → J s (Function.update g p start)
  act : ∀ (s : Pool P σ ρ R) g p a r t, J s.st g → Covers T idle done s g →
    guard s (.act p a r) → T.pre (g p) a → M.exec p a s.st = .ok (r, t) →
    T.poss (g p) a r ∧ J t (Function.update g p (T.post (g p) a r))
  ret : ∀ s g p, J s g → done (g p) → J s (Function.update g p idle)

variable {M : Machine P σ ε C ρ R} {T : Protocol R G} {idle start : G} {done : G → Prop}
  {guard : Pool P σ ρ R → Event P C ρ R → Prop} {J : σ → (P → G) → Prop} {s s' : Pool P σ ρ R}

/-- After a step of one thread, the others are where they were. -/
theorem Covers.update {g : P → G} (h : Covers T idle done s g) {p : P} {t : σ} {g' : G}
    {c : Option (Prog R ρ)}
    (hp : match c with
      | none => g' = idle
      | some x => Spec T x g' fun _ => done) :
    Covers T idle done ⟨t, update s.code p c⟩ (update g p g') := by
  intro q
  by_cases hq : q = p
  · subst hq
    simp only [update_self]
    exact hp
  · simp only [update_of_ne hq]
    exact h q

/-- **One step** keeps the invariant and the protocol. -/
theorem Sound.step (hs : Sound M T idle start done guard J) {e : Event P C ρ R}
    (hstep : Guarded (Step M) guard s e s') :
    (∃ g, J s.st g ∧ Covers T idle done s g) → ∃ g, J s'.st g ∧ Covers T idle done s' g := by
  rintro ⟨g, hJ, hc⟩
  obtain ⟨hstep, hguard⟩ := hstep
  cases hstep with
  | @start p c hidle hready =>
    have hp := hc p
    rw [hidle] at hp
    exact ⟨_, hs.start _ g p hJ hp hready, hc.update (hs.body s p c hguard)⟩
  | @act p a next r t hcode hexec =>
    have hp := hc p
    rw [hcode] at hp
    obtain ⟨hposs, hJ'⟩ := hs.act s g p a r t hJ hc hguard hp.1 hexec
    exact ⟨_, hJ', hc.update (hp.2 r hposs)⟩
  | @ret p x hcode =>
    have hp := hc p
    rw [hcode] at hp
    exact ⟨_, hs.ret _ g p hJ hp, hc.update rfl⟩

/-- **Runs.** The invariant holds in every state of a run in which all steps meet the condition. -/
theorem Sound.run (hs : Sound M T idle start done guard J) {es : List (Event P C ρ R)}
    (hrun : Run (Guarded (Step M) guard) s es s')
    (h0 : ∃ g, J s.st g ∧ Covers T idle done s g) : ∃ g, J s'.st g ∧ Covers T idle done s' g :=
  hrun.invariant (fun _ _ _ h hstep => hs.step hstep h) h0

omit [DecidableEq P] in
/-- The action that a thread is about to do is allowed. -/
theorem Covers.pre {g : P → G} (h : Covers T idle done s g) {p : P} {a : A}
    {next : R a → Prog R ρ} (hcode : s.code p = some (.act a next)) : T.pre (g p) a := by
  have := h p
  rw [hcode] at this
  exact this.1

end Sound

/-! ### Schedules -/

section Moves

variable {P A σ ε C ρ : Type} {R : A → Type} [DecidableEq P]

/-- A part of a schedule: a whole call without interruption, the beginning of a call, or a number of
steps of a thread. -/
inductive Move (P C : Type)
  | call (p : P) (c : C)
  | start (p : P) (c : C)
  | steps (p : P) (n : ℕ)

namespace Machine

variable (M : Machine P σ ε C ρ R)

/-- The next step of a thread that has a program. -/
def next (p : P) (s : Pool P σ ρ R) : Option (Pool P σ ρ R) :=
  match s.code p with
  | none => none
  | some (.ret _) => some { s with code := Function.update s.code p none }
  | some (.act a next) =>
    match M.exec p a s.st with
    | .ok (r, t) => some ⟨t, Function.update s.code p (some (next r))⟩
    | .error _ => none

def nexts (p : P) : ℕ → Pool P σ ρ R → Option (Pool P σ ρ R)
  | 0, s => some s
  | n + 1, s => (M.next p s).bind (nexts p n)

def move : Move P C → Pool P σ ρ R → Option (Pool P σ ρ R)
  | .call p c, s =>
    if (s.code p).isNone ∧ M.ready s.st p = true then
      match (M.body c).run (M.exec p) s.st with
      | .ok (_, t) => some { s with st := t }
      | .error _ => none
    else none
  | .start p c, s =>
    if (s.code p).isNone ∧ M.ready s.st p = true then
      some { s with code := Function.update s.code p (some (M.body c)) }
    else none
  | .steps p n, s => M.nexts p n s

def moves : List (Move P C) → Pool P σ ρ R → Option (Pool P σ ρ R)
  | [], s => some s
  | m :: ms, s => (M.move m s).bind (moves ms)

variable {M} {s s' : Pool P σ ρ R} {guard : Pool P σ ρ R → Event P C ρ R → Prop}

theorem step_of_next {p : P} (h : M.next p s = some s') :
    ∃ e, Step M s e s' ∧ ∀ p c, e ≠ .start p c := by
  unfold next at h
  cases hcode : s.code p with
  | none =>
    rw [hcode] at h
    cases h
  | some x =>
    rw [hcode] at h
    cases x with
    | ret x =>
      cases h
      exact ⟨_, .ret hcode, by simp⟩
    | act a next =>
      simp only at h
      cases hexec : M.exec p a s.st with
      | error e =>
        rw [hexec] at h
        cases h
      | ok r =>
        rw [hexec] at h
        cases h
        exact ⟨_, .act hcode hexec, by simp⟩

-- the condition is one on the beginnings of calls
variable (hguard : ∀ s e, (∀ p c, e ≠ .start p c) → guard s e)

include hguard

theorem run_of_nexts {p : P} {n : ℕ} (h : M.nexts p n s = some s') :
    ∃ es, Run (Guarded (Step M) guard) s es s' := by
  induction n generalizing s with
  | zero =>
    cases h
    exact ⟨[], .nil⟩
  | succ n ih =>
    obtain ⟨t, ht, h⟩ := Option.bind_eq_some_iff.mp h
    obtain ⟨e, he, hne⟩ := step_of_next ht
    obtain ⟨es, hes⟩ := ih h
    exact ⟨e :: es, (Run.single ⟨he, hguard s e hne⟩).trans hes⟩

/-- A program that is run by itself is a run of the pool. -/
theorem run_of_prog {p : P} {x : Prog R ρ} {y : ρ} {t : σ} (hcode : s.code p = some x)
    (h : x.run (M.exec p) s.st = .ok (y, t)) :
    ∃ es, Run (Guarded (Step M) guard) s es ⟨t, update s.code p none⟩ := by
  induction x generalizing s with
  | ret x =>
    cases h
    exact ⟨_, .single ⟨.ret hcode, hguard _ _ (by simp)⟩⟩
  | act a next ih =>
    rw [Prog.run] at h
    cases hexec : M.exec p a s.st with
    | error e =>
      rw [hexec] at h
      cases h
    | ok r =>
      obtain ⟨r, u⟩ := r
      rw [hexec] at h
      obtain ⟨es, hes⟩ := @ih r ⟨u, update s.code p (some (next r))⟩
        (update_self ..) h
      rw [update_idem] at hes
      exact ⟨_ :: es, (Run.single ⟨.act hcode hexec, hguard _ _ (by simp)⟩).trans hes⟩

theorem run_of_move {m : Move P C} (h : M.move m s = some s')
    (hstart : ∀ p c, m = .call p c ∨ m = .start p c → guard s (.start p c)) :
    ∃ es, Run (Guarded (Step M) guard) s es s' := by
  cases m with
  | call p c =>
    rw [move] at h
    split_ifs at h with hready
    have hidle : s.code p = none := Option.isNone_iff_eq_none.mp hready.1
    cases hrun : (M.body c).run (M.exec p) s.st with
    | error e =>
      rw [hrun] at h
      cases h
    | ok r =>
      rw [hrun] at h
      cases h
      have hfirst : Step M s (.start p c) _ := .start hidle hready.2
      obtain ⟨es, hes⟩ := run_of_prog hguard
        (s := { s with code := update s.code p (some (M.body c)) })
        (update_self ..) hrun
      rw [update_idem, ← hidle, update_eq_self] at hes
      exact ⟨_ :: es, (Run.single ⟨hfirst, hstart p c (.inl rfl)⟩).trans hes⟩
  | start p c =>
    rw [move] at h
    split_ifs at h with hready
    cases h
    exact ⟨_, .single ⟨.start (Option.isNone_iff_eq_none.mp hready.1) hready.2,
      hstart p c (.inr rfl)⟩⟩
  | steps p n => exact run_of_nexts hguard h

/-- **Schedules.** A schedule that can be followed is a run, when the calls meet the condition. -/
theorem run_of_moves {ms : List (Move P C)} (h : M.moves ms s = some s')
    (hstart : ∀ m ∈ ms, ∀ p c, m = .call p c ∨ m = .start p c → ∀ t, guard t (.start p c)) :
    ∃ es, Run (Guarded (Step M) guard) s es s' := by
  induction ms generalizing s with
  | nil =>
    cases h
    exact ⟨[], .nil⟩
  | cons m ms ih =>
    obtain ⟨t, ht, h⟩ := Option.bind_eq_some_iff.mp h
    obtain ⟨es, hes⟩ := run_of_move hguard ht fun p c hm => hstart m List.mem_cons_self p c hm s
    obtain ⟨fs, hfs⟩ := ih h fun m hm => hstart m (List.mem_cons_of_mem _ hm)
    exact ⟨es ++ fs, hes.trans hfs⟩

end Machine

end Moves

end Thread
