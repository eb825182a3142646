import CS450.Lib.Run
import CS450.Proc.Table

/-!
# `sleep` and `wakeup`

Code that runs with a spin lock `lk` and waits with `sleep(chan, lk)` for a condition on the data
that the lock protects, on several CPUs. A step is one lock operation, one access to the data, or
what the holder of `ptable.lock` does to the process table. `sleep` takes `ptable.lock` before it
gives `lk` up and goes to the scheduler with it; the scheduler leaves it to the process that it
picks. Processes are also killed, yield, and sleep elsewhere.

The code itself is a parameter: from each point, with `lk` held, it accesses the data, calls
`wakeup` or `sleep`, or releases the lock. A debt says that the condition has become true and a
`wakeup` is still to come. Code that never releases the lock with a debt loses no wakeup.

## Main results

* `Inv.step`: a proper step keeps the invariant
* `no_lost_wakeup`: nobody sleeps while the condition holds and the locks are free
-/

namespace Xv6.Sleep

open Function (update update_eq_self update_of_ne update_self)
open Transition

/-- What code that holds `lk` does next. -/
inductive Next (K D X R : Type)
  /-- it accesses the data -/
  | go (d : D) (k : K)
  | wakeup (x : X) (k : K)
  /-- `sleep(x, lk)` -/
  | sleep (x : X) (k : K)
  /-- it releases `lk`, with the result `r` -/
  | leave (r : R)

/-- Code for a lock: where it can be entered, what it does at a point, which may depend on
`myproc()->killed`, and what other code may do to the data without the lock. -/
structure Client (K D X R : Type) where
  entry : K → Prop
  code : K → Bool → D → Next K D X R
  outside : D → D → Prop

/-- Where a process is in a function that uses `ptable.lock`. -/
inductive Stage
  /-- in `acquire(&ptable.lock)` -/
  | take
  /-- `sleep` is about to release `lk` -/
  | drop
  /-- about to change the process table -/
  | act
  /-- `sched` has returned to `sleep` -/
  | tidy
  /-- in `release(&ptable.lock)` -/
  | release
  deriving DecidableEq, Repr

/-- What a process does apart from the code of the lock. -/
inductive Other (P X : Type)
  | wakeup (x : X)
  | kill (q : P)
  | yield
  /-- `sleep` on another condition -/
  | sleep (x : X)

/-- Where a process is that runs on a CPU. -/
inductive Pos (P K X : Type)
  /-- outside of the code, without a lock -/
  | out
  /-- in `acquire(lk)` -/
  | enter (k : K)
  | at (k : K)
  /-- in `wakeup`, with `lk` -/
  | wakeup (x : X) (st : Stage) (k : K)
  | sleep (x : X) (st : Stage) (k : K)
  | other (o : Other P X) (st : Stage)

/-- Where a process is that is not on a CPU: what `sched` returns to. -/
inductive Parked (K X : Type)
  | sleep (x : X) (k : K)
  | elsewhere (x : X)
  | yield
  deriving DecidableEq

/-- What a CPU does: the scheduler, with `ptable.lock` or without, or a process. -/
inductive Cpu (P K X : Type)
  | scheduler (locked : Bool)
  | proc (p : P) (pos : Pos P K X)

structure State (P C K D X : Type) where
  data : D
  /-- the CPU that holds `lk` -/
  lk : Option C
  /-- the CPU that holds `ptable.lock` -/
  ptable : Option C
  cpu : C → Cpu P K X
  parked : P → Option (Parked K X)
  state : P → ProcState
  chan : P → Option X
  killed : P → Bool

/-- What is recorded of a step: the code that a process executes, and its entries. -/
inductive Event (P K D X R : Type)
  | call (p : P) (k : K)
  | run (p : P) (k : K) (n : Next K D X R)
  | other

section Machine

variable {P C K D X R : Type}

namespace Pos

/-- `acquire(&ptable.lock)` returns. -/
def take : Pos P K X → Option (Pos P K X)
  | .wakeup x .take k => some (.wakeup x .act k)
  | .sleep x .take k => some (.sleep x .drop k)
  | .other o .take => some (.other o .act)
  | _ => none

/-- `release(&ptable.lock)` returns. -/
def release : Pos P K X → Option (Pos P K X)
  | .wakeup _ .release k => some (.at k)
  | .sleep _ .release k => some (.enter k)
  | .other _ .release => some .out
  | _ => none

/-- `p->chan = 0` at the end of `sleep`. -/
def tidy : Pos P K X → Option (Pos P K X)
  | .sleep x .tidy k => some (.sleep x .release k)
  | .other o .tidy => some (.other o .release)
  | _ => none

def holdsLk : Pos P K X → Bool
  | .at _ => true
  | .wakeup _ _ _ => true
  | .sleep _ .take _ => true
  | .sleep _ .drop _ => true
  | _ => false

def holdsPtable : Pos P K X → Bool
  | .wakeup _ st _ => st ≠ .take
  | .sleep _ st _ => st ≠ .take
  | .other _ st => st ≠ .take
  | _ => false

end Pos

namespace Cpu

def holdsLk : Cpu P K X → Bool
  | .scheduler _ => false
  | .proc _ pos => pos.holdsLk

def holdsPtable : Cpu P K X → Bool
  | .scheduler locked => locked
  | .proc _ pos => pos.holdsPtable

end Cpu

/-- Where a process goes on when the scheduler picks it, with `ptable.lock`. -/
def Parked.resume : Parked K X → Pos P K X
  | .sleep x k => .sleep x .tidy k
  | .elsewhere x => .other (.sleep x) .tidy
  | .yield => .other .yield .release

variable [DecidableEq P] [DecidableEq C] [DecidableEq X]

namespace State

variable (s : State P C K D X)

def setCpu (c : C) (x : Cpu P K X) : State P C K D X :=
  { s with cpu := Function.update s.cpu c x }

/-- All processes that sleep on `x` become runnable. -/
def wakeup1 (x : X) : State P C K D X :=
  { s with state := fun q =>
      if s.state q = .sleeping ∧ s.chan q = some x then .runnable else s.state q }

def kill (q : P) : State P C K D X :=
  { s with
    killed := Function.update s.killed q true
    state := fun q' => if q' = q ∧ s.state q' = .sleeping then .runnable else s.state q' }

/-- `sched`, with `ptable.lock`: the scheduler goes on. -/
def sched (c : C) (p : P) (r : Parked K X) : State P C K D X :=
  { s with cpu := Function.update s.cpu c (.scheduler true)
           parked := Function.update s.parked p (some r) }

/-- The process sleeps on `x`, and goes to the scheduler. -/
def sleepOn (c : C) (p : P) (x : X) (r : Parked K X) : State P C K D X :=
  { s.sched c p r with
    chan := Function.update s.chan p (some x)
    state := Function.update s.state p .sleeping }

end State

/-- One step of the CPU `c`. -/
inductive Step (M : Client K D X R) (s : State P C K D X) :
    C × Event P K D X R → State P C K D X → Prop
  -- `scheduler`
  | lock {c} (hc : s.cpu c = .scheduler false) (hfree : s.ptable = none) :
      Step M s (c, .other) { s.setCpu c (.scheduler true) with ptable := some c }
  | unlock {c} (hc : s.cpu c = .scheduler true) :
      Step M s (c, .other) { s.setCpu c (.scheduler false) with ptable := none }
  | pick {c p r} (hc : s.cpu c = .scheduler true) (hrunnable : s.state p = .runnable)
      (hparked : s.parked p = some r) :
      Step M s (c, .other)
        { s.setCpu c (.proc p r.resume) with
          state := Function.update s.state p .running
          parked := Function.update s.parked p none }
  -- the code of the lock
  | call {c p k} (hc : s.cpu c = .proc p .out) (hk : M.entry k) :
      Step M s (c, .call p k) (s.setCpu c (.proc p (.enter k)))
  | enter {c p k} (hc : s.cpu c = .proc p (.enter k)) (hfree : s.lk = none) :
      Step M s (c, .other) { s.setCpu c (.proc p (.at k)) with lk := some c }
  | go {c p k d k'} (hc : s.cpu c = .proc p (.at k))
      (hcode : M.code k (s.killed p) s.data = .go d k') :
      Step M s (c, .run p k (.go d k')) { s.setCpu c (.proc p (.at k')) with data := d }
  | callWakeup {c p k x k'} (hc : s.cpu c = .proc p (.at k))
      (hcode : M.code k (s.killed p) s.data = .wakeup x k') :
      Step M s (c, .run p k (.wakeup x k')) (s.setCpu c (.proc p (.wakeup x .take k')))
  | callSleep {c p k x k'} (hc : s.cpu c = .proc p (.at k))
      (hcode : M.code k (s.killed p) s.data = .sleep x k') :
      Step M s (c, .run p k (.sleep x k')) (s.setCpu c (.proc p (.sleep x .take k')))
  | leave {c p k r} (hc : s.cpu c = .proc p (.at k))
      (hcode : M.code k (s.killed p) s.data = .leave r) :
      Step M s (c, .run p k (.leave r)) { s.setCpu c (.proc p .out) with lk := none }
  -- `ptable.lock`
  | other {c p o} (hc : s.cpu c = .proc p .out) :
      Step M s (c, .other) (s.setCpu c (.proc p (.other o .take)))
  | take {c p pos pos'} (hc : s.cpu c = .proc p pos) (hpos : pos.take = some pos')
      (hfree : s.ptable = none) :
      Step M s (c, .other) { s.setCpu c (.proc p pos') with ptable := some c }
  | release {c p pos pos'} (hc : s.cpu c = .proc p pos) (hpos : pos.release = some pos') :
      Step M s (c, .other) { s.setCpu c (.proc p pos') with ptable := none }
  -- `wakeup`
  | wakeup {c p x k} (hc : s.cpu c = .proc p (.wakeup x .act k)) :
      Step M s (c, .other) ((s.wakeup1 x).setCpu c (.proc p (.wakeup x .release k)))
  -- `sleep`
  | drop {c p x k} (hc : s.cpu c = .proc p (.sleep x .drop k)) :
      Step M s (c, .other) { s.setCpu c (.proc p (.sleep x .act k)) with lk := none }
  | sleep {c p x k} (hc : s.cpu c = .proc p (.sleep x .act k)) :
      Step M s (c, .other) (s.sleepOn c p x (.sleep x k))
  | tidy {c p pos pos'} (hc : s.cpu c = .proc p pos) (hpos : pos.tidy = some pos') :
      Step M s (c, .other)
        { s.setCpu c (.proc p pos') with chan := Function.update s.chan p none }
  -- other code
  | otherWakeup {c p x} (hc : s.cpu c = .proc p (.other (.wakeup x) .act)) :
      Step M s (c, .other) ((s.wakeup1 x).setCpu c (.proc p (.other (.wakeup x) .release)))
  | kill {c p q} (hc : s.cpu c = .proc p (.other (.kill q) .act)) :
      Step M s (c, .other) ((s.kill q).setCpu c (.proc p (.other (.kill q) .release)))
  | yield {c p} (hc : s.cpu c = .proc p (.other .yield .act)) :
      Step M s (c, .other)
        { s.sched c p .yield with state := Function.update s.state p .runnable }
  | otherSleep {c p x} (hc : s.cpu c = .proc p (.other (.sleep x) .act)) :
      Step M s (c, .other) (s.sleepOn c p x (.elsewhere x))
  | outside {c d} (hd : M.outside s.data d) : Step M s (c, .other) { s with data := d }

/-- The code that a step executes. -/
theorem Step.code {M : Client K D X R} {s s' : State P C K D X} {e : C × Event P K D X R}
    (h : Step M s e s') {p : P} {k : K} {n : Next K D X R} (he : e.2 = .run p k n) :
    M.code k (s.killed p) s.data = n := by
  cases h with
  | go hc hcode =>
    cases he
    exact hcode
  | callWakeup hc hcode =>
    cases he
    exact hcode
  | callSleep hc hcode =>
    cases he
    exact hcode
  | leave hc hcode =>
    cases he
    exact hcode
  | _ => cases he

/-- The locks are free, all CPUs are in the scheduler, and no process is in the code of the lock. -/
structure Initial (s : State P C K D X) : Prop where
  lk : s.lk = none
  ptable : s.ptable = none
  cpu : ∀ c, s.cpu c = .scheduler false
  parked : ∀ p r, s.parked p = some r → r = .yield

/-! ### The locks -/

/-- The lock is held by the CPUs that are where they hold it. -/
def HeldBy (l : Option C) (f : C → Bool) : Prop := ∀ c, l = some c ↔ f c = true

namespace HeldBy

variable {l : Option C} {f : C → Bool} {c : C}

theorem keep {b : Bool} (h : HeldBy l f) (hb : b = f c) : HeldBy l (update f c b) := by
  rw [hb, update_eq_self]
  exact h

theorem acquire (h : HeldBy none f) : HeldBy (some c) (update f c true) := by
  intro c'
  by_cases hc : c' = c
  · subst hc
    simp
  · have := h c'
    simp only [update_of_ne hc]
    constructor
    · intro he
      exact absurd (Option.some.inj he).symm hc
    · intro hf
      exact absurd (this.mpr hf) nofun

theorem drop (h : HeldBy l f) (hc : f c = true) : HeldBy none (update f c false) := by
  have hl : l = some c := (h c).mpr hc
  intro c'
  by_cases hc' : c' = c
  · subst hc'
    simp
  · simp only [update_of_ne hc']
    constructor
    · nofun
    · intro hf
      have := (h c').mpr hf
      rw [hl] at this
      exact absurd (Option.some.inj this).symm hc'

end HeldBy

end Machine

/-! ### Debts -/

section Debt

variable {P C K D X R : Type}

/-- A condition that processes wait for on a channel, with the points at which a `wakeup` is still
to come, and what the code knows about the data at a point. -/
structure Rules (K D X : Type) where
  chan : X
  cond : D → Prop
  owes : K → Prop
  knows : K → D → Prop

/-- The process sleeps in the code on the channel `x`, or is going to: it has given `lk` up. -/
def Dozing (x : X) (s : State P C K D X) (q : P) : Prop :=
  (∃ k, s.parked q = some (.sleep x k) ∧ s.state q = .sleeping) ∨
    ∃ c k, s.cpu c = .proc q (.sleep x .act k)

variable (W : Rules K D X)

/-- **What the code may do**, at a point with the data `d`. The condition does not become true
without a debt, a debt is paid by `wakeup`, and the lock is not given up with a debt. Debts only
matter while somebody is asleep. -/
def Proper (dozing : Prop) (k : K) (d : D) : Next K D X R → Prop
  | .go d' k' => W.knows k' d' ∧ (dozing → W.owes k ∨ (W.cond d' ∧ ¬ W.cond d) → W.owes k')
  | .wakeup x k' => W.knows k' d ∧ (dozing → W.owes k → x = W.chan ∨ W.owes k')
  | .sleep x k' =>
    (∀ d, W.knows k' d) ∧ (x = W.chan → ¬ W.cond d) ∧ (dozing → ¬ W.owes k)
  | .leave _ => dozing → ¬ W.owes k

/-- What holds of the code apart from its steps: nothing is assumed where it is entered, and without
the lock the condition is not made true. -/
structure Fair (M : Client K D X R) : Prop where
  entry : ∀ k, M.entry k → ∀ d, W.knows k d
  outside : ∀ d d', M.outside d d' → W.cond d' → W.cond d
  knows : ∀ d d' k, M.outside d d' → W.knows k d → W.knows k d'

/-- The process has a debt. -/
def Pos.Owes : Pos P K X → Prop
  | .at k => W.owes k
  | .wakeup x st k => (st ≠ .release ∧ x = W.chan) ∨ W.owes k
  | _ => False

/-- What the process knows about the data. -/
def Pos.Knows (d : D) : Pos P K X → Prop
  | .enter k => ∀ d, W.knows k d
  | .at k => W.knows k d
  | .wakeup _ _ k => W.knows k d
  | .sleep x st k => (∀ d, W.knows k d) ∧ (st = .take ∨ st = .drop → x = W.chan → ¬ W.cond d)
  | _ => True

def Cpu.Owes : Cpu P K X → Prop
  | .scheduler _ => False
  | .proc _ pos => pos.Owes W

def Cpu.Knows (d : D) : Cpu P K X → Prop
  | .scheduler _ => True
  | .proc _ pos => pos.Knows W d

/-- The process of a CPU. -/
def Cpu.proc? : Cpu P K X → Option P
  | .scheduler _ => none
  | .proc p _ => some p

/-- **The invariant.** -/
structure Inv (s : State P C K D X) : Prop where
  lk : HeldBy s.lk fun c => (s.cpu c).holdsLk
  ptable : HeldBy s.ptable fun c => (s.cpu c).holdsPtable
  single : ∀ c c' p, (s.cpu c).proc? = some p → (s.cpu c').proc? = some p → c = c'
  placed : ∀ c p, (s.cpu c).proc? = some p → s.parked p = none
  chan : ∀ q x k, s.parked q = some (.sleep x k) → s.state q = .sleeping → s.chan q = some x
  resume : ∀ q x k, s.parked q = some (.sleep x k) → ∀ d, W.knows k d
  knows : ∀ c, (s.cpu c).Knows W s.data
  debt : (∃ q, Dozing W.chan s q) → W.cond s.data → ∃ c, (s.cpu c).Owes W

variable {W} {M : Client K D X R} {s : State P C K D X} {c : C}

theorem Initial.inv (h : Initial s) : Inv W s where
  lk c := by simp [h.lk, h.cpu, Cpu.holdsLk]
  ptable c := by simp [h.ptable, h.cpu, Cpu.holdsPtable]
  single c c' p hc := by simp [h.cpu, Cpu.proc?] at hc
  placed c p hc := by simp [h.cpu, Cpu.proc?] at hc
  chan q x k hq := by cases h.parked q _ hq
  resume q x k hq := by cases h.parked q _ hq
  knows c := by
    rw [h.cpu]
    trivial
  debt := by
    rintro ⟨q, ⟨k, hq, -⟩ | ⟨c, k, hc⟩⟩
    · cases h.parked q _ hq
    · rw [h.cpu] at hc
      cases hc

variable {d : D} {x : Cpu P K X} {pos pos' : Pos P K X} {q : P}

/-- What is known without the lock does not depend on the data. -/
theorem Cpu.knows_of_not_holdsLk {d' : D} (h : x.Knows W d)
    (hx : x.holdsLk = false) : x.Knows W d' := by
  cases x with
  | scheduler => trivial
  | proc p pos =>
    cases pos with
    | out => trivial
    | enter k => exact h
    | «at» k => cases hx
    | wakeup x st k => cases hx
    | sleep x st k =>
      refine ⟨h.1, ?_⟩
      rintro (rfl | rfl)
      · cases hx
      · cases hx
    | other o st => trivial

/-- A debt is only had with the lock. -/
theorem Cpu.holdsLk_of_owes (h : x.Owes W) : x.holdsLk = true := by
  cases x with
  | scheduler => cases h
  | proc p pos =>
    cases pos with
    | «at» k => rfl
    | wakeup x st k => rfl
    | out => cases h
    | enter k => cases h
    | sleep x st k => cases h
    | other o st => cases h

/-- Processes are woken. -/
theorem Inv.wake (h : Inv W s) {state : P → ProcState} {killed : P → Bool}
    (hstate : ∀ q, state q = .sleeping → s.state q = .sleeping) :
    Inv W { s with state, killed } where
  lk := h.lk
  ptable := h.ptable
  single := h.single
  placed := h.placed
  chan q x k hq hs := h.chan q x k hq (hstate q hs)
  resume := h.resume
  knows := h.knows
  debt := by
    rintro ⟨q, ⟨k, hq, hs⟩ | hq⟩ hcond
    · exact h.debt ⟨q, .inl ⟨k, hq, hstate q hs⟩⟩ hcond
    · exact h.debt ⟨q, .inr hq⟩ hcond

/-- The data are changed without the lock. -/
theorem Inv.setData (h : Inv W s) (hM : Fair W M) (hd : M.outside s.data d) :
    Inv W { s with data := d } where
  lk := h.lk
  ptable := h.ptable
  single := h.single
  placed := h.placed
  chan := h.chan
  resume := h.resume
  knows c := by
    have hc := h.knows c
    revert hc
    cases hcpu : s.cpu c with
    | scheduler => exact id
    | proc p pos =>
      cases pos with
      | out => exact id
      | enter k => exact id
      | «at» k => exact hM.knows _ _ k hd
      | wakeup x st k => exact hM.knows _ _ k hd
      | sleep x st k =>
        exact fun hc => ⟨hc.1, fun hst hx hcond => hc.2 hst hx (hM.outside _ _ hd hcond)⟩
      | other o st => exact id
  debt hdoze hcond := h.debt hdoze (hM.outside _ _ hd hcond)

/-- All that sleep on the channel are awake after `wakeup1`, which runs with `ptable.lock`. -/
theorem Inv.not_dozing [DecidableEq X] (h : Inv W s) (hc : (s.cpu c).holdsPtable = true)
    (hact : ∀ p k, s.cpu c ≠ .proc p (.sleep W.chan .act k)) (q : P) :
    ¬ Dozing W.chan (s.wakeup1 W.chan) q := by
  rintro (⟨k, hq, hs⟩ | ⟨c', k, hc'⟩)
  · have hs' : (if s.state q = .sleeping ∧ s.chan q = some W.chan then .runnable else s.state q) =
        ProcState.sleeping := hs
    split_ifs at hs' with hsleep
    exact hsleep ⟨hs', h.chan q W.chan k hq hs'⟩
  · have hheld : (s.cpu c').holdsPtable = true := by
      have : s.cpu c' = .proc q (.sleep W.chan .act k) := hc'
      rw [this]
      rfl
    have hcc := (h.ptable c').mpr hheld
    rw [(h.ptable c).mpr hc] at hcc
    obtain rfl := Option.some.inj hcc
    exact hact q k hc'

/-- What `acquire(&ptable.lock)` changes. -/
theorem Pos.take_spec (h : pos.take = some pos') :
    pos'.holdsLk = pos.holdsLk ∧ pos'.holdsPtable = true ∧
      (∀ d, pos.Knows W d → pos'.Knows W d) ∧ (pos.Owes W → pos'.Owes W) ∧
      ∀ k, pos' ≠ .sleep W.chan .act k := by
  cases pos with
  | wakeup x st k =>
    cases st with
    | take =>
      cases h
      refine ⟨rfl, rfl, fun d hd => hd, ?_, nofun⟩
      exact fun ho => ho.imp_left fun hx => ⟨nofun, hx.2⟩
    | _ => cases h
  | sleep x st k =>
    cases st with
    | take =>
      cases h
      exact ⟨rfl, rfl, fun d hd => ⟨hd.1, fun _ => hd.2 (.inl rfl)⟩, nofun, nofun⟩
    | _ => cases h
  | other o st =>
    cases st with
    | take =>
      cases h
      exact ⟨rfl, rfl, fun _ _ => trivial, nofun, nofun⟩
    | _ => cases h
  | _ => cases h

/-- What `release(&ptable.lock)` changes. -/
theorem Pos.release_spec (h : pos.release = some pos') :
    pos'.holdsLk = pos.holdsLk ∧ pos.holdsPtable = true ∧ pos'.holdsPtable = false ∧
      (∀ d, pos.Knows W d → pos'.Knows W d) ∧ (pos.Owes W → pos'.Owes W) ∧
      ∀ k, pos' ≠ .sleep W.chan .act k := by
  cases pos with
  | wakeup x st k =>
    cases st with
    | release =>
      cases h
      refine ⟨rfl, rfl, rfl, fun d hd => hd, ?_, nofun⟩
      exact fun ho => ho.resolve_left fun hx => hx.1 rfl
    | _ => cases h
  | sleep x st k =>
    cases st with
    | release =>
      cases h
      exact ⟨rfl, rfl, rfl, fun d hd => hd.1, nofun, nofun⟩
    | _ => cases h
  | other o st =>
    cases st with
    | release =>
      cases h
      exact ⟨rfl, rfl, rfl, fun _ _ => trivial, nofun, nofun⟩
    | _ => cases h
  | _ => cases h

/-- What the end of `sleep` changes. -/
theorem Pos.tidy_spec (h : pos.tidy = some pos') :
    pos'.holdsLk = pos.holdsLk ∧ pos'.holdsPtable = pos.holdsPtable ∧
      (∀ d, pos.Knows W d → pos'.Knows W d) ∧ (pos.Owes W → pos'.Owes W) ∧
      ∀ k, pos' ≠ .sleep W.chan .act k := by
  cases pos with
  | sleep x st k =>
    cases st with
    | tidy =>
      cases h
      refine ⟨rfl, rfl, fun d hd => ⟨hd.1, ?_⟩, nofun, nofun⟩
      rintro (hst | hst) <;> cases hst
    | _ => cases h
  | other o st =>
    cases st with
    | tidy =>
      cases h
      exact ⟨rfl, rfl, fun _ _ => trivial, nofun, nofun⟩
    | _ => cases h
  | _ => cases h

section Step

variable [DecidableEq C]

theorem comp_update {α : Type} {f : Cpu P K X → α} {g : C → Cpu P K X} :
    (fun c' => f (update g c x c')) = update (fun c' => f (g c')) c (f x) := by
  funext c'
  by_cases h : c' = c
  · subst h
    simp
  · simp [h]

/-- **Steps of a process**, as far as the CPUs, the locks and the data go. -/
theorem Inv.move (h : Inv W s) {lk ptable : Option C} (hproc : x.proc? = (s.cpu c).proc?)
    (hlk : HeldBy lk (update (fun c => (s.cpu c).holdsLk) c x.holdsLk))
    (hptable : HeldBy ptable (update (fun c => (s.cpu c).holdsPtable) c x.holdsPtable))
    (hknows : x.Knows W d) (hdata : d = s.data ∨ (s.cpu c).holdsLk = true)
    (hdebt : (∃ q, Dozing W.chan { s with cpu := update s.cpu c x } q) → W.cond d →
      x.Owes W ∨ ∃ c', c' ≠ c ∧ (s.cpu c').Owes W) :
    Inv W { s with cpu := update s.cpu c x, lk, ptable, data := d } where
  lk := by
    rw [comp_update]
    exact hlk
  ptable := by
    rw [comp_update]
    exact hptable
  single c₁ c₂ p h₁ h₂ := by
    have hsame : ∀ c', (update s.cpu c x c').proc? = (s.cpu c').proc? := by
      intro c'
      by_cases hc : c' = c
      · subst hc
        rw [update_self, hproc]
      · rw [update_of_ne hc]
    rw [hsame] at h₁ h₂
    exact h.single c₁ c₂ p h₁ h₂
  placed c' p hc := by
    by_cases h' : c' = c
    · subst h'
      simp only [update_self, hproc] at hc
      exact h.placed c' p hc
    · simp only [update_of_ne h'] at hc
      exact h.placed c' p hc
  chan := h.chan
  resume := h.resume
  knows c' := by
    by_cases h' : c' = c
    · subst h'
      simpa only [update_self] using hknows
    · simp only [update_of_ne h']
      rcases hdata with rfl | hheld
      · exact h.knows c'
      · refine Cpu.knows_of_not_holdsLk (h.knows c') ?_
        by_contra hne
        have hc' := (h.lk c').mpr (by simpa using hne)
        rw [(h.lk c).mpr hheld] at hc'
        exact h' (Option.some.inj hc').symm
  debt hdoze hcond := by
    rcases hdebt hdoze hcond with hx | ⟨c', hne, hc'⟩
    · exact ⟨c, by simpa only [update_self] using hx⟩
    · exact ⟨c', by simpa only [update_of_ne hne] using hc'⟩

/-- A debt of the state before a step. -/
theorem Inv.debt_or (h : Inv W s) (c : C) (hdoze : ∃ q, Dozing W.chan s q) (hcond : W.cond s.data) :
    (s.cpu c).Owes W ∨ ∃ c', c' ≠ c ∧ (s.cpu c').Owes W := by
  obtain ⟨c', hc'⟩ := h.debt hdoze hcond
  by_cases hc : c' = c
  · exact .inl (hc ▸ hc')
  · exact .inr ⟨c', hc, hc'⟩

/-- A position that does not let anybody fall asleep. -/
theorem Dozing.of_update (hx : ∀ p k, x ≠ .proc p (.sleep W.chan .act k))
    (h : Dozing W.chan { s with cpu := update s.cpu c x } q) : Dozing W.chan s q := by
  rcases h with h | ⟨c', k, hc'⟩
  · exact .inl h
  · by_cases hc : c' = c
    · subst hc
      simp only [update_self] at hc'
      exact absurd hc' (hx q k)
    · simp only [update_of_ne hc] at hc'
      exact .inr ⟨c', k, hc'⟩

/-- Where nobody falls asleep and no debt is dropped. -/
theorem Inv.debt_keep (h : Inv W s)
    (hx : ∀ p k, x ≠ .proc p (.sleep W.chan .act k)) (howes : (s.cpu c).Owes W → x.Owes W)
    (hdoze : ∃ q, Dozing W.chan { s with cpu := update s.cpu c x } q)
    (hcond : W.cond s.data) : x.Owes W ∨ ∃ c', c' ≠ c ∧ (s.cpu c').Owes W := by
  obtain ⟨q, hq⟩ := hdoze
  exact (h.debt_or c ⟨q, hq.of_update hx⟩ hcond).imp_left howes

variable [DecidableEq P]

omit [DecidableEq P] in
/-- The CPUs that still run a process. -/
theorem proc?_of_update {c' : C} (hx : x.proc? = none)
    (h : (update s.cpu c x c').proc? = some q) : c' ≠ c ∧ (s.cpu c').proc? = some q := by
  by_cases hc : c' = c
  · subst hc
    rw [update_self, hx] at h
    cases h
  · rw [update_of_ne hc] at h
    exact ⟨hc, h⟩

theorem of_update_none {α : Type} {f : P → Option α} {p : P} {r : α}
    (h : update f p none q = some r) : q ≠ p ∧ f q = some r := by
  by_cases hq : q = p
  · subst hq
    rw [update_self] at h
    cases h
  · rw [update_of_ne hq] at h
    exact ⟨hq, h⟩

/-- **`sched`.** The process gives the CPU to the scheduler, with `ptable.lock`. -/
theorem Inv.park (h : Inv W s) {p : P} {r : Parked K X} {state : P → ProcState}
    {chan : P → Option X} (hc : s.cpu c = .proc p pos) (hlk : pos.holdsLk = false)
    (hptable : pos.holdsPtable = true) (hstate : ∀ q, q ≠ p → state q = s.state q)
    (hchan : ∀ q, q ≠ p → chan q = s.chan q)
    (hr : ∀ x k, r = .sleep x k → chan p = some x ∧ pos = .sleep x .act k) :
    Inv W { s.sched c p r with state, chan } where
  lk := by
    show HeldBy s.lk fun c' => (update s.cpu c (.scheduler true) c').holdsLk
    rw [comp_update]
    refine h.lk.keep ?_
    rw [hc]
    exact hlk.symm
  ptable := by
    show HeldBy s.ptable fun c' => (update s.cpu c (.scheduler true) c').holdsPtable
    rw [comp_update]
    refine h.ptable.keep ?_
    rw [hc]
    exact hptable.symm
  single c₁ c₂ q h₁ h₂ :=
    h.single c₁ c₂ q (proc?_of_update rfl h₁).2 (proc?_of_update rfl h₂).2
  placed c' q hq := by
    obtain ⟨hne, hq'⟩ := proc?_of_update rfl hq
    have hqp : q ≠ p := by
      rintro rfl
      exact hne (h.single c' c q hq' (by rw [hc]; rfl))
    exact (update_of_ne hqp ..).trans (h.placed c' q hq')
  chan q x k hq hs := by
    change update s.parked p (some r) q = _ at hq
    by_cases hqp : q = p
    · subst hqp
      rw [update_self] at hq
      exact (hr x k (Option.some.inj hq)).1
    · rw [update_of_ne hqp] at hq
      exact (hchan q hqp).trans (h.chan q x k hq ((hstate q hqp).symm.trans hs))
  resume q x k hq := by
    change update s.parked p (some r) q = _ at hq
    by_cases hqp : q = p
    · subst hqp
      rw [update_self] at hq
      obtain ⟨-, rfl⟩ := hr x k (Option.some.inj hq)
      have hknows := h.knows c
      rw [hc] at hknows
      exact hknows.1
    · rw [update_of_ne hqp] at hq
      exact h.resume q x k hq
  knows c' := by
    show (update s.cpu c (.scheduler true) c').Knows W s.data
    by_cases hc' : c' = c
    · subst hc'
      rw [update_self]
      trivial
    · rw [update_of_ne hc']
      exact h.knows c'
  debt := by
    rintro ⟨q, hq⟩ hcond
    -- Who dozes now did so before: the process itself was about to sleep.
    have hdoze : Dozing W.chan s q := by
      rcases hq with ⟨k, hq, hs⟩ | ⟨c', k, hc'⟩
      · change update s.parked p (some r) q = _ at hq
        by_cases hqp : q = p
        · subst hqp
          rw [update_self] at hq
          obtain ⟨-, rfl⟩ := hr _ k (Option.some.inj hq)
          exact .inr ⟨c, k, hc⟩
        · rw [update_of_ne hqp] at hq
          exact .inl ⟨k, hq, (hstate q hqp).symm.trans hs⟩
      · obtain ⟨hne, -⟩ := proc?_of_update rfl (congrArg Cpu.proc? hc')
        exact .inr ⟨c', k, (update_of_ne hne ..).symm.trans hc'⟩
    obtain ⟨c', hc'⟩ := h.debt ⟨q, hdoze⟩ hcond
    have hne : c' ≠ c := by
      rintro rfl
      have := Cpu.holdsLk_of_owes hc'
      rw [hc] at this
      exact absurd (hlk.symm.trans this) nofun
    refine ⟨c', ?_⟩
    show (update s.cpu c (.scheduler true) c').Owes W
    rw [update_of_ne hne]
    exact hc'

/-- **`scheduler`** picks a process, and leaves `ptable.lock` to it. -/
theorem Inv.pick (h : Inv W s) {p : P} {r : Parked K X} (hc : s.cpu c = .scheduler true)
    (hparked : s.parked p = some r) :
    Inv W { s.setCpu c (.proc p r.resume) with
      state := update s.state p .running
      parked := update s.parked p none } where
  lk := by
    show HeldBy s.lk fun c' => (update s.cpu c (.proc p r.resume) c').holdsLk
    rw [comp_update]
    refine h.lk.keep ?_
    rw [hc]
    cases r <;> rfl
  ptable := by
    show HeldBy s.ptable fun c' => (update s.cpu c (.proc p r.resume) c').holdsPtable
    rw [comp_update]
    refine h.ptable.keep ?_
    rw [hc]
    cases r <;> rfl
  single c₁ c₂ q h₁ h₂ := by
    change (update s.cpu c (.proc p r.resume) c₁).proc? = _ at h₁
    change (update s.cpu c (.proc p r.resume) c₂).proc? = _ at h₂
    have hnone : ∀ c', (s.cpu c').proc? ≠ some p := by
      intro c' hc'
      rw [h.placed c' p hc'] at hparked
      cases hparked
    by_cases hc₁ : c₁ = c <;> by_cases hc₂ : c₂ = c
    · rw [hc₁, hc₂]
    · subst hc₁
      rw [update_self] at h₁
      rw [update_of_ne hc₂] at h₂
      exact absurd (h₂.trans h₁.symm) (hnone c₂)
    · subst hc₂
      rw [update_self] at h₂
      rw [update_of_ne hc₁] at h₁
      exact absurd (h₁.trans h₂.symm) (hnone c₁)
    · rw [update_of_ne hc₁] at h₁
      rw [update_of_ne hc₂] at h₂
      exact h.single c₁ c₂ q h₁ h₂
  placed c' q hq := by
    change (update s.cpu c (.proc p r.resume) c').proc? = _ at hq
    show update s.parked p none q = none
    by_cases hqp : q = p
    · rw [hqp, update_self]
    · rw [update_of_ne hqp]
      by_cases hc' : c' = c
      · subst hc'
        rw [update_self] at hq
        exact absurd (Option.some.inj hq).symm hqp
      · rw [update_of_ne hc'] at hq
        exact h.placed c' q hq
  chan q x k hq hs := by
    obtain ⟨hqp, hq⟩ := of_update_none hq
    exact h.chan q x k hq ((update_of_ne hqp ..).symm.trans hs)
  resume q x k hq := h.resume q x k (of_update_none hq).2
  knows c' := by
    show (update s.cpu c (.proc p r.resume) c').Knows W s.data
    by_cases hc' : c' = c
    · subst hc'
      rw [update_self]
      cases r with
      | sleep x k => exact ⟨h.resume p x k hparked, by rintro (hst | hst) <;> cases hst⟩
      | elsewhere x => trivial
      | yield => trivial
    · rw [update_of_ne hc']
      exact h.knows c'
  debt := by
    rintro ⟨q, hq⟩ hcond
    have hdoze : Dozing W.chan s q := by
      rcases hq with ⟨k, hq, hs⟩ | ⟨c', k, hc'⟩
      · obtain ⟨hqp, hq⟩ := of_update_none hq
        exact .inl ⟨k, hq, (update_of_ne hqp ..).symm.trans hs⟩
      · change update s.cpu c (.proc p r.resume) c' = _ at hc'
        by_cases hcc : c' = c
        · subst hcc
          rw [update_self] at hc'
          cases r <;> cases hc'
        · rw [update_of_ne hcc] at hc'
          exact .inr ⟨c', k, hc'⟩
    obtain ⟨c', hc'⟩ := h.debt ⟨q, hdoze⟩ hcond
    have hne : c' ≠ c := by
      rintro rfl
      rw [hc] at hc'
      cases hc'
    refine ⟨c', ?_⟩
    show (update s.cpu c (.proc p r.resume) c').Owes W
    rw [update_of_ne hne]
    exact hc'

omit [DecidableEq C] [DecidableEq P] in
theorem sleeping_of_wakeup1 [DecidableEq X] (x : X) (q : P)
    (h : (s.wakeup1 x).state q = .sleeping) : s.state q = .sleeping := by
  change (if s.state q = .sleeping ∧ s.chan q = some x then _ else s.state q) = _ at h
  split_ifs at h with hx
  exact h

omit [DecidableEq C] in
theorem sleeping_of_kill (q' q : P) (h : (s.kill q').state q = .sleeping) :
    s.state q = .sleeping := by
  change (if q = q' ∧ s.state q = .sleeping then _ else s.state q) = _ at h
  split_ifs at h with hx
  exact h

/-- **One step** in which the code does what it may do keeps the invariant. -/
theorem Inv.step [DecidableEq X] (h : Inv W s) (hM : Fair W M) {e : C × Event P K D X R}
    {s' : State P C K D X} (hstep : Step M s e s')
    (hproper : ∀ p k n, e.2 = .run p k n → W.knows k s.data →
      Proper W (∃ q, Dozing W.chan s q) k s.data n) : Inv W s' := by
  cases hstep with
  | @lock c hc hfree =>
    refine h.move (by rw [hc]; rfl) (h.lk.keep (by rw [hc]; rfl)) ?_ trivial (.inl rfl)
      (h.debt_keep nofun (by rw [hc]; exact id))
    have hnone := h.ptable
    rw [hfree] at hnone
    exact hnone.acquire
  | @unlock c hc =>
    exact h.move (by rw [hc]; rfl) (h.lk.keep (by rw [hc]; rfl)) (h.ptable.drop (by rw [hc]; rfl))
      trivial (.inl rfl) (h.debt_keep nofun (by rw [hc]; exact id))
  | @pick c p r hc hrunnable hparked => exact h.pick hc hparked
  | @call c p k hc hk =>
    exact h.move (by rw [hc]; rfl) (h.lk.keep (by rw [hc]; rfl)) (h.ptable.keep (by rw [hc]; rfl))
      (hM.entry k hk) (.inl rfl) (h.debt_keep nofun (by rw [hc]; exact id))
  | @enter c p k hc hfree =>
    have hknows := h.knows c
    rw [hc] at hknows
    have hnone := h.lk
    rw [hfree] at hnone
    exact h.move (by rw [hc]; rfl) hnone.acquire (h.ptable.keep (by rw [hc]; rfl))
      (hknows s.data) (.inl rfl) (h.debt_keep nofun (by rw [hc]; exact False.elim))
  | @go c p k d k' hc hcode =>
    have hknows := h.knows c
    rw [hc] at hknows
    obtain ⟨hknows', hdebt⟩ := hproper p k _ rfl hknows
    refine h.move (by rw [hc]; rfl) (h.lk.keep (by rw [hc]; rfl)) (h.ptable.keep (by rw [hc]; rfl))
      hknows' (.inr (by rw [hc]; rfl)) ?_
    rintro ⟨q, hq⟩ hcond
    have hdoze : ∃ q, Dozing W.chan s q := ⟨q, hq.of_update (by nofun)⟩
    by_cases hold : W.cond s.data
    · refine (h.debt_or c hdoze hold).imp_left fun howes => ?_
      rw [hc] at howes
      exact hdebt hdoze (.inl howes)
    · exact .inl (hdebt hdoze (.inr ⟨hcond, hold⟩))
  | @callWakeup c p k x k' hc hcode =>
    have hknows := h.knows c
    rw [hc] at hknows
    obtain ⟨hknows', hdebt⟩ := hproper p k _ rfl hknows
    refine h.move (by rw [hc]; rfl) (h.lk.keep (by rw [hc]; rfl)) (h.ptable.keep (by rw [hc]; rfl))
      hknows' (.inl rfl) ?_
    rintro ⟨q, hq⟩ hcond
    have hdoze : ∃ q, Dozing W.chan s q := ⟨q, hq.of_update (by nofun)⟩
    refine (h.debt_or c hdoze hcond).imp_left fun howes => ?_
    rw [hc] at howes
    exact (hdebt hdoze howes).imp_left fun hx => ⟨nofun, hx⟩
  | @callSleep c p k x k' hc hcode =>
    have hknows := h.knows c
    rw [hc] at hknows
    obtain ⟨hknows', hcond', hdebt⟩ := hproper p k _ rfl hknows
    refine h.move (by rw [hc]; rfl) (h.lk.keep (by rw [hc]; rfl)) (h.ptable.keep (by rw [hc]; rfl))
      ⟨hknows', fun _ => hcond'⟩ (.inl rfl) ?_
    rintro ⟨q, hq⟩ hcond
    have hdoze : ∃ q, Dozing W.chan s q := ⟨q, hq.of_update (by nofun)⟩
    refine (h.debt_or c hdoze hcond).imp_left fun howes => ?_
    rw [hc] at howes
    exact absurd howes (hdebt hdoze)
  | @leave c p k r hc hcode =>
    have hknows := h.knows c
    rw [hc] at hknows
    have hdebt := hproper p k _ rfl hknows
    refine h.move (by rw [hc]; rfl) (h.lk.drop (by rw [hc]; rfl)) (h.ptable.keep (by rw [hc]; rfl))
      trivial (.inl rfl) ?_
    rintro ⟨q, hq⟩ hcond
    have hdoze : ∃ q, Dozing W.chan s q := ⟨q, hq.of_update (by nofun)⟩
    refine (h.debt_or c hdoze hcond).imp_left fun howes => ?_
    rw [hc] at howes
    exact absurd howes (hdebt hdoze)
  | @other c p o hc =>
    exact h.move (by rw [hc]; rfl) (h.lk.keep (by rw [hc]; rfl)) (h.ptable.keep (by rw [hc]; rfl))
      trivial (.inl rfl) (h.debt_keep nofun (by rw [hc]; exact id))
  | @take c p pos pos' hc hpos hfree =>
    obtain ⟨hlk, hptable, hknows', howes, hact⟩ := Pos.take_spec (W := W) hpos
    have hknows := h.knows c
    rw [hc] at hknows
    have hnone := h.ptable
    rw [hfree] at hnone
    refine h.move (by rw [hc]; rfl) (h.lk.keep ?_) ?_ (hknows' _ hknows) (.inl rfl)
      (h.debt_keep ?_ ?_)
    · rw [hc]
      exact hlk
    · show HeldBy _ (update _ c pos'.holdsPtable)
      rw [hptable]
      exact hnone.acquire
    · rintro p' k ⟨⟩
      exact hact k rfl
    · rw [hc]
      exact howes
  | @release c p pos pos' hc hpos =>
    obtain ⟨hlk, hheld, hptable, hknows', howes, hact⟩ := Pos.release_spec (W := W) hpos
    have hknows := h.knows c
    rw [hc] at hknows
    refine h.move (by rw [hc]; rfl) (h.lk.keep ?_) ?_ (hknows' _ hknows) (.inl rfl)
      (h.debt_keep ?_ ?_)
    · rw [hc]
      exact hlk
    · show HeldBy _ (update _ c pos'.holdsPtable)
      rw [hptable]
      refine h.ptable.drop ?_
      rw [hc]
      exact hheld
    · rintro p' k ⟨⟩
      exact hact k rfl
    · rw [hc]
      exact howes
  | @wakeup c p x k hc =>
    have hknows := h.knows c
    rw [hc] at hknows
    have hawake : Inv W (s.wakeup1 x) := h.wake (sleeping_of_wakeup1 x)
    have hc' : (s.wakeup1 x).cpu c = .proc p (.wakeup x .act k) := hc
    refine hawake.move (by rw [hc']; rfl) (hawake.lk.keep (by rw [hc']; rfl))
      (hawake.ptable.keep (by rw [hc']; rfl)) hknows (.inl rfl) ?_
    by_cases hx : x = W.chan
    · rintro ⟨q, hq⟩
      subst hx
      exact absurd (hq.of_update (by nofun)) (h.not_dozing (by rw [hc]; rfl) (by rw [hc]; nofun) q)
    · refine hawake.debt_keep nofun ?_
      rw [hc']
      exact fun ho => .inr (ho.resolve_left fun hst => hx hst.2)
  | @drop c p x k hc =>
    have hknows := h.knows c
    rw [hc] at hknows
    refine h.move (by rw [hc]; rfl) (h.lk.drop (by rw [hc]; rfl)) (h.ptable.keep (by rw [hc]; rfl))
      ⟨hknows.1, by rintro (hst | hst) <;> cases hst⟩ (.inl rfl) ?_
    by_cases hx : x = W.chan
    · -- The process has found the condition false, and has held the lock since.
      exact fun _ hcond => absurd hcond (hknows.2 (.inr rfl) hx)
    · refine h.debt_keep ?_ (by rw [hc]; exact False.elim)
      rintro p' k' ⟨⟩
      exact hx rfl
  | @sleep c p x k hc =>
    refine h.park hc rfl rfl (fun q hq => update_of_ne hq ..)
      (fun q hq => update_of_ne hq ..) ?_
    rintro x' k' ⟨⟩
    exact ⟨update_self .., rfl⟩
  | @tidy c p pos pos' hc hpos =>
    obtain ⟨hlk, hptable, hknows', howes, hact⟩ := Pos.tidy_spec (W := W) hpos
    have hknows := h.knows c
    rw [hc] at hknows
    have htidy : Inv W { s with chan := update s.chan p none } := by
      refine { h with chan := fun q x k hq hs => ?_ }
      have hqp : q ≠ p := by
        rintro rfl
        have hnone := h.placed c q (by rw [hc]; rfl)
        exact absurd (hnone.symm.trans hq) nofun
      exact (update_of_ne hqp ..).trans (h.chan q x k hq hs)
    refine htidy.move (c := c) (x := .proc p pos') (by rw [hc]; rfl) (h.lk.keep ?_)
      (h.ptable.keep ?_) (hknows' _ hknows) (.inl rfl) (htidy.debt_keep ?_ ?_)
    · rw [hc]
      exact hlk
    · rw [hc]
      exact hptable
    · rintro p' k ⟨⟩
      exact hact k rfl
    · rw [hc]
      exact howes
  | @otherWakeup c p x hc =>
    have hawake : Inv W (s.wakeup1 x) := h.wake (sleeping_of_wakeup1 x)
    have hc' : (s.wakeup1 x).cpu c = .proc p (.other (.wakeup x) .act) := hc
    exact hawake.move (by rw [hc']; rfl) (hawake.lk.keep (by rw [hc']; rfl))
      (hawake.ptable.keep (by rw [hc']; rfl)) trivial (.inl rfl)
      (hawake.debt_keep nofun (by rw [hc']; exact id))
  | @kill c p q hc =>
    have hawake : Inv W (s.kill q) := h.wake (sleeping_of_kill q)
    have hc' : (s.kill q).cpu c = .proc p (.other (.kill q) .act) := hc
    exact hawake.move (by rw [hc']; rfl) (hawake.lk.keep (by rw [hc']; rfl))
      (hawake.ptable.keep (by rw [hc']; rfl)) trivial (.inl rfl)
      (hawake.debt_keep nofun (by rw [hc']; exact id))
  | @yield c p hc =>
    exact h.park hc rfl rfl (fun q hq => update_of_ne hq ..) (fun q hq => rfl) nofun
  | @otherSleep c p x hc =>
    exact h.park hc rfl rfl (fun q hq => update_of_ne hq ..)
      (fun q hq => update_of_ne hq ..) nofun
  | @outside c d hd => exact h.setData hM hd

end Step

end Debt

/-! ### Runs -/

section Run

variable {P C K D X R : Type} [DecidableEq P] [DecidableEq C] [DecidableEq X]
  {M : Client K D X R} {s s' : State P C K D X}

/-- The invariant holds in every run in which the code does what it may do. -/
theorem Inv.run {W : Rules K D X} (hM : Fair W M)
    {guard : State P C K D X → C × Event P K D X R → Prop}
    (hproper : ∀ s e p k n, guard s e → e.2 = .run p k n → M.code k (s.killed p) s.data = n →
      W.knows k s.data → Proper W (∃ q, Dozing W.chan s q) k s.data n)
    {es : List (C × Event P K D X R)} (hrun : Run (Guarded (Step M) guard) s es s')
    (h : Inv W s) : Inv W s' := by
  refine hrun.invariant (fun t e t' ht hstep => ?_) h
  refine ht.step hM hstep.1 fun p k n he hknows => ?_
  exact hproper t e p k n hstep.2 he (hstep.1.code he) hknows

/-- **Code for a condition.** It is only made true with the lock, and then `wakeup` is called before
the lock is released: `owes` are the points in between. Who sleeps on the channel has found the
condition false. -/
structure Disciplined (M : Client K D X R) (chan : X) (cond : D → Prop) (owes : K → Prop) :
    Prop where
  outside : ∀ d d', M.outside d d' → cond d' → cond d
  go : ∀ k b d d' k', M.code k b d = .go d' k' → owes k ∨ (cond d' ∧ ¬ cond d) → owes k'
  wakeup : ∀ k b d x k', M.code k b d = .wakeup x k' → owes k → x = chan ∨ owes k'
  sleep : ∀ k b d x k', M.code k b d = .sleep x k' → ¬ owes k ∧ (x = chan → ¬ cond d)
  leave : ∀ k b d r, M.code k b d = .leave r → ¬ owes k

omit [DecidableEq X] in
theorem Disciplined.proper {chan : X} {cond : D → Prop} {owes : K → Prop}
    (hM : Disciplined M chan cond owes) {dozing : Prop} {k : K} {b : Bool} {d : D}
    {n : Next K D X R} (hcode : M.code k b d = n) :
    Proper ⟨chan, cond, owes, fun _ _ => True⟩ dozing k d n := by
  cases n with
  | go d' k' => exact ⟨trivial, fun _ => hM.go k b d d' k' hcode⟩
  | wakeup x k' => exact ⟨trivial, fun _ => hM.wakeup k b d x k' hcode⟩
  | sleep x k' =>
    obtain ⟨howes, hcond⟩ := hM.sleep k b d x k' hcode
    exact ⟨fun _ => trivial, hcond, fun _ => howes⟩
  | leave r => exact fun _ => hM.leave k b d r hcode

omit [DecidableEq P] [DecidableEq C] [DecidableEq X] in
/-- Nobody sleeps while the condition holds and the lock is free. -/
theorem Inv.not_cond {W : Rules K D X} (h : Inv W s) (hlk : s.lk = none)
    (hdoze : ∃ q, Dozing W.chan s q) : ¬ W.cond s.data := by
  intro hcond
  obtain ⟨c, hc⟩ := h.debt hdoze hcond
  have := (h.lk c).mpr (Cpu.holdsLk_of_owes hc)
  rw [hlk] at this
  cases this

/-- **No wakeup is lost.** -/
theorem no_lost_wakeup {chan : X} {cond : D → Prop} {owes : K → Prop}
    (hM : Disciplined M chan cond owes) (h₀ : Initial s) {es : List (C × Event P K D X R)}
    (hrun : Run (Step M) s es s') :
    (s'.lk = none → s'.ptable = none → ∀ p k, s'.parked p = some (.sleep chan k) →
      s'.state p = .sleeping → ¬ cond s'.data) ∧
    ∀ c p k, s'.cpu c = .proc p (.at k) → s'.lk = some c := by
  let W : Rules K D X := ⟨chan, cond, owes, fun _ _ => True⟩
  have hfair : Fair W M := ⟨fun _ _ _ => trivial, hM.outside, fun _ _ _ _ _ => trivial⟩
  have hinv : Inv W s' := by
    have hguard : Run (Guarded (Step M) fun _ _ => True) s es s' :=
      hrun.mono fun _ _ _ hstep => ⟨hstep, trivial⟩
    exact Inv.run hfair (fun t e p k n _ _ hcode _ => hM.proper hcode) hguard h₀.inv
  refine ⟨fun hlk _ p k hp hs => hinv.not_cond hlk ⟨p, .inl ⟨k, hp, hs⟩⟩, fun c p k hc => ?_⟩
  have hheld : (s'.cpu c).holdsLk = true := by
    rw [hc]
    rfl
  exact (hinv.lk c).mpr hheld

end Run

/-! ### Where a process is in the code -/

section Point

variable {P C K D X R : Type}

/-- The point of the code at which a process is or goes on. -/
def Pos.point : Pos P K X → Option K
  | .enter k => some k
  | .at k => some k
  | .wakeup _ _ k => some k
  | .sleep _ _ k => some k
  | _ => none

def Next.point : Next K D X R → Option K
  | .go _ k => some k
  | .wakeup _ k => some k
  | .sleep _ k => some k
  | .leave _ => none

/-- The process whose code is recorded. -/
def Event.proc? : Event P K D X R → Option P
  | .call p _ => some p
  | .run p _ _ => some p
  | .other => none

def State.PointOf (s : State P C K D X) (p : P) (k : K) : Prop :=
  (∃ c pos, s.cpu c = .proc p pos ∧ pos.point = some k) ∨ ∃ x, s.parked p = some (.sleep x k)

variable [DecidableEq P] [DecidableEq C] {W : Rules K D X} {M : Client K D X R}
  {s s' : State P C K D X} {c : C} {p p' : P} {pos pos' : Pos P K X} {k : K}

omit [DecidableEq P] in
/-- A process that moves is nowhere else. -/
theorem Inv.pointOf_move (h : Inv W s) (hk : s'.PointOf p' k) (hc : s.cpu c = .proc p pos)
    (hcpu : s'.cpu = update s.cpu c (.proc p pos')) (hparked : s'.parked = s.parked) :
    (p' = p ∧ pos'.point = some k) ∨ (p' ≠ p ∧ s.PointOf p' k) := by
  have hproc : (s.cpu c).proc? = some p := by
    rw [hc]
    rfl
  rcases hk with ⟨c', pos'', hc', hk⟩ | ⟨x, hx⟩
  · rw [hcpu] at hc'
    by_cases hcc : c' = c
    · subst hcc
      rw [update_self] at hc'
      cases hc'
      exact .inl ⟨rfl, hk⟩
    · rw [update_of_ne hcc] at hc'
      refine .inr ⟨?_, .inl ⟨c', pos'', hc', hk⟩⟩
      rintro rfl
      exact hcc (h.single c' c p' (by rw [hc']; rfl) hproc)
  · rw [hparked] at hx
    refine .inr ⟨?_, .inr ⟨x, hx⟩⟩
    rintro rfl
    rw [h.placed c p' hproc] at hx
    cases hx

omit [DecidableEq P] in
/-- A step of a process within a function keeps its point. -/
theorem Inv.pointOf_stay (h : Inv W s) (hk : s'.PointOf p' k) (hc : s.cpu c = .proc p pos)
    (hcpu : s'.cpu = update s.cpu c (.proc p pos')) (hparked : s'.parked = s.parked)
    (hpoint : pos'.point = pos.point) : s.PointOf p' k := by
  rcases h.pointOf_move hk hc hcpu hparked with ⟨rfl, hk⟩ | ⟨-, hk⟩
  · exact .inl ⟨c, pos, hc, hpoint ▸ hk⟩
  · exact hk

/-- A process that goes to the scheduler keeps its point. -/
theorem State.PointOf.of_park {r : Parked K X} (hk : s'.PointOf p' k) (hc : s.cpu c = .proc p pos)
    (hcpu : s'.cpu = update s.cpu c (.scheduler true))
    (hparked : s'.parked = update s.parked p (some r))
    (hr : ∀ x k, r = .sleep x k → pos.point = some k) : s.PointOf p' k := by
  rcases hk with ⟨c', pos'', hc', hk⟩ | ⟨x, hx⟩
  · rw [hcpu] at hc'
    by_cases hcc : c' = c
    · subst hcc
      rw [update_self] at hc'
      cases hc'
    · rw [update_of_ne hcc] at hc'
      exact .inl ⟨c', pos'', hc', hk⟩
  · rw [hparked] at hx
    by_cases hp : p' = p
    · subst hp
      rw [update_self] at hx
      exact .inl ⟨c, pos, hc, hr x k (Option.some.inj hx)⟩
    · rw [update_of_ne hp] at hx
      exact .inr ⟨x, hx⟩

/-- A process that the scheduler picks keeps its point. -/
theorem State.PointOf.of_pick {r : Parked K X} (hk : s'.PointOf p' k)
    (hcpu : s'.cpu = update s.cpu c (.proc p r.resume)) (hparked : s.parked p = some r)
    (hparked' : s'.parked = update s.parked p none) : s.PointOf p' k := by
  rcases hk with ⟨c', pos'', hc', hk⟩ | ⟨x, hx⟩
  · rw [hcpu] at hc'
    by_cases hcc : c' = c
    · subst hcc
      rw [update_self] at hc'
      cases hc'
      cases r with
      | sleep x k' =>
        cases hk
        exact .inr ⟨x, hparked⟩
      | _ => cases hk
    · rw [update_of_ne hcc] at hc'
      exact .inl ⟨c', pos'', hc', hk⟩
  · rw [hparked'] at hx
    exact .inr ⟨x, (of_update_none hx).2⟩

omit [DecidableEq P] in
/-- The scheduler by itself moves no process. -/
theorem State.PointOf.of_scheduler {b : Bool} (hk : s'.PointOf p' k)
    (hcpu : s'.cpu = update s.cpu c (.scheduler b)) (hparked : s'.parked = s.parked) :
    s.PointOf p' k := by
  rcases hk with ⟨c', pos'', hc', hk⟩ | ⟨x, hx⟩
  · rw [hcpu] at hc'
    by_cases hcc : c' = c
    · subst hcc
      rw [update_self] at hc'
      cases hc'
    · rw [update_of_ne hcc] at hc'
      exact .inl ⟨c', pos'', hc', hk⟩
  · exact .inr ⟨x, hparked ▸ hx⟩

omit [DecidableEq P] in
theorem Pos.point_take (h : pos.take = some pos') : pos'.point = pos.point := by
  cases pos with
  | wakeup x st k => cases st <;> cases h; rfl
  | sleep x st k => cases st <;> cases h; rfl
  | other o st => cases st <;> cases h; rfl
  | _ => cases h

omit [DecidableEq P] in
theorem Pos.point_release (h : pos.release = some pos') : pos'.point = pos.point := by
  cases pos with
  | wakeup x st k => cases st <;> cases h; rfl
  | sleep x st k => cases st <;> cases h; rfl
  | other o st => cases st <;> cases h; rfl
  | _ => cases h

omit [DecidableEq P] in
theorem Pos.point_tidy (h : pos.tidy = some pos') : pos'.point = pos.point := by
  cases pos with
  | sleep x st k => cases st <;> cases h; rfl
  | other o st => cases st <;> cases h; rfl
  | _ => cases h

/-- **Where processes are after a step**: a process has entered the code, has executed the code at a
point, or is where it was. -/
theorem Inv.pointOf_step [DecidableEq X] (h : Inv W s) {e : C × Event P K D X R}
    (hstep : Step M s e s') (hk : s'.PointOf p' k) :
    (e.2 = .call p' k ∧ M.entry k) ∨
      (∃ k₀ n, e.2 = .run p' k₀ n ∧ n.point = some k ∧ s.PointOf p' k₀) ∨
      (s.PointOf p' k ∧ e.2.proc? ≠ some p') := by
  have hrun : ∀ {c p k₀ n pos'}, s.cpu c = .proc p (.at k₀) →
      (pos' : Pos P K X).point = Next.point n →
      s'.cpu = update s.cpu c (.proc p pos') → s'.parked = s.parked →
      e.2 = .run p k₀ n → (∃ k₀ n, e.2 = .run p' k₀ n ∧ n.point = some k ∧ s.PointOf p' k₀) ∨
      (s.PointOf p' k ∧ e.2.proc? ≠ some p') := by
    intro c p k₀ n pos' hc hpoint hcpu hparked he
    rcases h.pointOf_move hk hc hcpu hparked with ⟨rfl, hk⟩ | ⟨hne, hk⟩
    · exact .inl ⟨k₀, n, he, hpoint ▸ hk, .inl ⟨c, _, hc, rfl⟩⟩
    · refine .inr ⟨hk, ?_⟩
      rw [he]
      exact fun heq => hne (Option.some.inj heq).symm
  have hother : e.2.proc? = none → s.PointOf p' k → (e.2 = .call p' k ∧ M.entry k) ∨
      (∃ k₀ n, e.2 = .run p' k₀ n ∧ n.point = some k ∧ s.PointOf p' k₀) ∨
      (s.PointOf p' k ∧ e.2.proc? ≠ some p') := by
    intro he hk
    refine .inr (.inr ⟨hk, ?_⟩)
    rw [he]
    nofun
  cases hstep with
  | @lock c hc hfree => exact hother rfl (hk.of_scheduler rfl rfl)
  | @unlock c hc => exact hother rfl (hk.of_scheduler rfl rfl)
  | @pick c p r hc hrunnable hparked => exact hother rfl (hk.of_pick rfl hparked rfl)
  | @call c p k₀ hc hentry =>
    rcases h.pointOf_move hk hc rfl rfl with ⟨rfl, hpoint⟩ | ⟨hne, hk⟩
    · cases hpoint
      exact .inl ⟨rfl, hentry⟩
    · exact .inr (.inr ⟨hk, fun heq => hne (Option.some.inj heq).symm⟩)
  | @enter c p k hc hfree => exact hother rfl (h.pointOf_stay hk hc rfl rfl rfl)
  | @go c p k d k' hc hcode => exact .inr (hrun hc rfl rfl rfl rfl)
  | @callWakeup c p k x k' hc hcode => exact .inr (hrun hc rfl rfl rfl rfl)
  | @callSleep c p k x k' hc hcode => exact .inr (hrun hc rfl rfl rfl rfl)
  | @leave c p k r hc hcode => exact .inr (hrun hc rfl rfl rfl rfl)
  | @other c p o hc => exact hother rfl (h.pointOf_stay hk hc rfl rfl rfl)
  | @take c p pos pos' hc hpos hfree =>
    exact hother rfl (h.pointOf_stay hk hc rfl rfl (Pos.point_take hpos))
  | @release c p pos pos' hc hpos =>
    exact hother rfl (h.pointOf_stay hk hc rfl rfl (Pos.point_release hpos))
  | @wakeup c p x k hc => exact hother rfl (h.pointOf_stay hk hc rfl rfl rfl)
  | @drop c p x k hc => exact hother rfl (h.pointOf_stay hk hc rfl rfl rfl)
  | @sleep c p x k hc =>
    refine hother rfl (hk.of_park hc rfl rfl ?_)
    rintro x' k' ⟨⟩
    rfl
  | @tidy c p pos pos' hc hpos =>
    exact hother rfl (h.pointOf_stay hk hc rfl rfl (Pos.point_tidy hpos))
  | @otherWakeup c p x hc => exact hother rfl (h.pointOf_stay hk hc rfl rfl rfl)
  | @kill c p q hc => exact hother rfl (h.pointOf_stay hk hc rfl rfl rfl)
  | @yield c p hc => exact hother rfl (hk.of_park hc rfl rfl nofun)
  | @otherSleep c p x hc => exact hother rfl (hk.of_park hc rfl rfl nofun)
  | @outside c d hd => exact hother rfl hk

end Point

/-! ### Schedules -/

section Schedule

variable {P C K D X R : Type} [DecidableEq P] [DecidableEq C] [DecidableEq X]

/-- What a CPU does where there is a choice. -/
inductive Choice (P K X : Type)
  | next
  | pick (p : P)
  | call (k : K)
  | other (o : Other P X)

/-- The step of a CPU. -/
def next? (M : Client K D X R) [DecidablePred M.entry] (c : C) (x : Choice P K X)
    (s : State P C K D X) : Option (Event P K D X R × State P C K D X) :=
  match x, s.cpu c with
  | .next, .scheduler false =>
    if s.ptable = none then some (.other, { s.setCpu c (.scheduler true) with ptable := some c })
    else none
  | .next, .scheduler true => some (.other, { s.setCpu c (.scheduler false) with ptable := none })
  | .pick p, .scheduler true =>
    match s.parked p with
    | some r =>
      if s.state p = .runnable then
        some (.other, { s.setCpu c (.proc p r.resume) with
          state := Function.update s.state p .running
          parked := Function.update s.parked p none })
      else none
    | none => none
  | .call k, .proc p .out =>
    if M.entry k then some (.call p k, s.setCpu c (.proc p (.enter k))) else none
  | .other o, .proc p .out => some (.other, s.setCpu c (.proc p (.other o .take)))
  | .next, .proc p (.enter k) =>
    if s.lk = none then some (.other, { s.setCpu c (.proc p (.at k)) with lk := some c }) else none
  | .next, .proc p (.at k) =>
    match M.code k (s.killed p) s.data with
    | .go d k' => some (.run p k (.go d k'), { s.setCpu c (.proc p (.at k')) with data := d })
    | .wakeup x k' => some (.run p k (.wakeup x k'), s.setCpu c (.proc p (.wakeup x .take k')))
    | .sleep x k' => some (.run p k (.sleep x k'), s.setCpu c (.proc p (.sleep x .take k')))
    | .leave r => some (.run p k (.leave r), { s.setCpu c (.proc p .out) with lk := none })
  | .next, .proc p (.wakeup x .act k) =>
    some (.other, (s.wakeup1 x).setCpu c (.proc p (.wakeup x .release k)))
  | .next, .proc p (.sleep x .drop k) =>
    some (.other, { s.setCpu c (.proc p (.sleep x .act k)) with lk := none })
  | .next, .proc p (.sleep x .act k) => some (.other, s.sleepOn c p x (.sleep x k))
  | .next, .proc p (.other (.kill q) .act) =>
    some (.other, (s.kill q).setCpu c (.proc p (.other (.kill q) .release)))
  | .next, .proc p (.other (.wakeup x) .act) =>
    some (.other, (s.wakeup1 x).setCpu c (.proc p (.other (.wakeup x) .release)))
  | .next, .proc p (.other .yield .act) =>
    some (.other, { s.sched c p .yield with state := Function.update s.state p .runnable })
  | .next, .proc p (.other (.sleep x) .act) => some (.other, s.sleepOn c p x (.elsewhere x))
  | .next, .proc p pos =>
    match pos.take, pos.tidy, pos.release with
    | some pos', _, _ =>
      if s.ptable = none then some (.other, { s.setCpu c (.proc p pos') with ptable := some c })
      else none
    | none, some pos', _ =>
      some (.other, { s.setCpu c (.proc p pos') with chan := Function.update s.chan p none })
    | none, none, some pos' => some (.other, { s.setCpu c (.proc p pos') with ptable := none })
    | none, none, none => none
  | _, _ => none

/-- A sequence of steps, with their events. -/
def follow (M : Client K D X R) [DecidablePred M.entry] : List (C × Choice P K X) →
    State P C K D X → Option (List (C × Event P K D X R) × State P C K D X)
  | [], s => some ([], s)
  | (c, x) :: xs, s =>
    match next? M c x s with
    | some (e, t) => (follow M xs t).map fun r => ((c, e) :: r.1, r.2)
    | none => none

variable {M : Client K D X R} [DecidablePred M.entry] {s s' : State P C K D X}

theorem step_of_next? {c : C} {x : Choice P K X} {e : Event P K D X R}
    (h : next? M c x s = some (e, s')) : Step M s (c, e) s' := by
  unfold next? at h
  split at h
  next hc =>
    split_ifs at h with hfree
    cases h
    exact .lock hc hfree
  next hc =>
    cases h
    exact .unlock hc
  next p hc =>
    split at h
    next r hparked =>
      split_ifs at h with hrunnable
      cases h
      exact .pick hc hrunnable hparked
    next => cases h
  next k p hc =>
    split_ifs at h with hk
    cases h
    exact .call hc hk
  next o p hc =>
    cases h
    exact .other hc
  next p k hc =>
    split_ifs at h with hfree
    cases h
    exact .enter hc hfree
  next p k hc =>
    split at h
    next d k' hcode =>
      cases h
      exact .go hc hcode
    next x k' hcode =>
      cases h
      exact .callWakeup hc hcode
    next x k' hcode =>
      cases h
      exact .callSleep hc hcode
    next r hcode =>
      cases h
      exact .leave hc hcode
  next p x k hc =>
    cases h
    exact .wakeup hc
  next p x k hc =>
    cases h
    exact .drop hc
  next p x k hc =>
    cases h
    exact .sleep hc
  next p q hc =>
    cases h
    exact .kill hc
  next p x hc =>
    cases h
    exact .otherWakeup hc
  next p hc =>
    cases h
    exact .yield hc
  next p x hc =>
    cases h
    exact .otherSleep hc
  next p pos _ _ _ _ _ _ _ _ _ hc =>
    split at h
    next pos' _ htake =>
      split_ifs at h with hfree
      cases h
      exact .take hc htake hfree
    next pos' _ _ htidy =>
      cases h
      exact .tidy hc htidy
    next pos' _ _ hrelease =>
      cases h
      exact .release hc hrelease
    next => cases h
  next => cases h

theorem run_of_follow {xs : List (C × Choice P K X)} {es : List (C × Event P K D X R)}
    (h : follow M xs s = some (es, s')) : Run (Step M) s es s' := by
  induction xs generalizing s es with
  | nil =>
    cases h
    exact .nil
  | cons y xs ih =>
    rw [follow] at h
    split at h
    next e t ht =>
      obtain ⟨⟨fs, u⟩, hfs, heq⟩ := Option.map_eq_some_iff.mp h
      cases heq
      exact (Run.single (step_of_next? ht)).trans (ih hfs)
    next => cases h

/-- A run with a property that can be evaluated. -/
theorem exists_run_of_any {xs : List (C × Choice P K X)}
    {p : List (C × Event P K D X R) × State P C K D X → Bool}
    (h : (follow M xs s).any p = true) : ∃ es s', Run (Step M) s es s' ∧ p (es, s') = true := by
  cases hr : follow M xs s with
  | none =>
    rw [hr] at h
    cases h
  | some r =>
    rw [hr] at h
    exact ⟨r.1, r.2, run_of_follow hr, h⟩

end Schedule

/-! ### Sleep locks -/

/-- Where a process is in `acquiresleep` and `releasesleep`. -/
inductive SleeplockPoint
  | acquiresleep
  | releasesleep
  /-- `releasesleep` is about to call `wakeup` -/
  | wake
  | done
  deriving DecidableEq

/-- `sleeplock.c`; the data are `lk->locked`, the channel is the lock itself. -/
def sleeplock : Client SleeplockPoint Bool Unit Unit where
  entry k := k = .acquiresleep ∨ k = .releasesleep
  code
    | .acquiresleep, _, locked => if locked then .sleep () .acquiresleep else .go true .done
    | .releasesleep, _, _ => .go false .wake
    | .wake, _, _ => .wakeup () .done
    | .done, _, _ => .leave ()
  outside _ _ := False

instance : DecidablePred sleeplock.entry := fun k =>
  inferInstanceAs (Decidable (k = .acquiresleep ∨ k = .releasesleep))

/-- A free sleep lock is a condition for which no wakeup is lost. -/
theorem sleeplock_disciplined :
    Disciplined sleeplock () (fun locked => locked = false) (fun k => k = .wake) where
  outside d d' h := h.elim
  go k b d d' k' h := by
    rintro (rfl | ⟨hfree, -⟩)
    · cases h
    · cases k with
      | acquiresleep =>
        cases d <;> cases h
        cases hfree
      | releasesleep =>
        cases h
        rfl
      | _ => cases h
  wakeup k b d x k' h := fun _ => .inl rfl
  sleep k b d x k' h := by
    cases k with
    | acquiresleep =>
      cases d <;> cases h
      exact ⟨nofun, nofun⟩
    | _ => cases h
  leave k b d r h := by
    cases k with
    | acquiresleep => cases d <;> cases h
    | done => nofun
    | _ => cases h

/-- Two processes and one CPU. -/
def boot : State (Fin 2) (Fin 1) SleeplockPoint Bool Unit where
  data := false
  lk := none
  ptable := none
  cpu _ := .scheduler false
  parked _ := some .yield
  state _ := .runnable
  chan _ := none
  killed _ := false

/-- The process `p` takes the sleep lock, and `q` waits for it. -/
def contended (c : Fin 1) (p q : Fin 2) : List (Fin 1 × Choice (Fin 2) SleeplockPoint Unit) :=
  [(c, .next), (c, .pick p), (c, .next), (c, .call .acquiresleep), (c, .next),
    (c, .next), (c, .next),
    (c, .other .yield), (c, .next), (c, .next), (c, .pick q), (c, .next), (c, .call .acquiresleep),
    (c, .next), (c, .next), (c, .next), (c, .next), (c, .next), (c, .next)]

theorem no_lost_wakeup_contended : ∃ es s', Run (Step sleeplock) boot es s' ∧ s'.lk = none ∧
    s'.ptable = none ∧ s'.parked 1 = some (.sleep () .acquiresleep) ∧ s'.state 1 = .sleeping ∧
    ¬ s'.data = false := by
  obtain ⟨es, s', hrun, hend⟩ := @exists_run_of_any _ _ _ _ _ _ _ _ _ sleeplock _ boot
    (contended 0 0 1) (fun r => decide (r.2.lk = none ∧ r.2.ptable = none ∧
      r.2.parked 1 = some (.sleep () .acquiresleep) ∧ r.2.state 1 = .sleeping)) (by decide +kernel)
  obtain ⟨hlk, hptable, hparked, hstate⟩ := of_decide_eq_true hend
  have hboot : Initial boot := ⟨rfl, rfl, fun _ => rfl, fun _ _ h => (Option.some.inj h).symm⟩
  exact ⟨es, s', hrun, hlk, hptable, hparked, hstate,
    (no_lost_wakeup sleeplock_disciplined hboot hrun).1 hlk hptable 1 _ hparked hstate⟩

end Xv6.Sleep
