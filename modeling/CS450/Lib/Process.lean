import Mathlib
import CS450.Lib.Run

/-!
# Processes that fork and wait

A family of processes with the calls `fork`, `wait` and `exit`. Every process has a parent and a
code, which says what it does next; a process that has exited keeps its entry until its parent
waits for it. A program says what a code does by itself, how it forks, and how it goes on when
`wait` returns a child, or returns because there is none. Processes are scheduled in any order.

The number of children a code may leave without waiting for them is its limit. When codes keep to
their limits, a process that may have none has only descendants that are gone.

## Main definitions

* `Process.Program γ ε`: a program over codes `γ` whose own steps have labels `ε`
* `Process.Forest γ`: the processes, and `Process.Step` what one of them does
* `Process.Discipline P limit`: the program keeps to the limits
* `Process.total w s`: the sum of a weight over all processes

## Main results

* `Process.Kept.step`: the limits are kept
* `Process.Kept.desc_reaped`: below a process with no child left, every process is gone
* `Process.Step.total_eq`, `Process.Step.total_lt`: conserved and decreasing weights
* `Process.Kept.exists_ready`: below a process that has not exited, some process is not held up by
  a child
-/

namespace Process

variable {γ ε : Type*}

/-- What the codes of a program do. -/
structure Program (γ ε : Type*) where
  /-- A step of the process by itself. -/
  act : γ → ε → γ → Prop
  /-- The code forks: how the parent goes on, and the code of the child. -/
  fork : γ → γ → γ → Prop
  /-- How the code goes on when `wait` returns a child. -/
  reap : γ → γ → Prop
  /-- How the code goes on when `wait` finds no child. -/
  idle : γ → γ → Prop
  /-- The process has exited. -/
  exited : γ
  /-- The process has exited and its parent has waited for it. -/
  reaped : γ

/-- The processes `0, …, n - 1`, in the order of their creation. -/
structure Forest (γ : Type*) where
  n : ℕ
  parent : ℕ → Option ℕ
  code : ℕ → γ

/-- What one process does. -/
inductive Event (ε : Type*) where
  | act (p : ℕ) (e : ε)
  | fork (p child : ℕ)
  | wait (p : ℕ) (child : Option ℕ)
  deriving DecidableEq

namespace Forest

/-- The process `p` goes on with the code `c`. -/
def become (s : Forest γ) (p : ℕ) (c : γ) : Forest γ :=
  { s with code := Function.update s.code p c }

/-- The process `p` goes on with the code `c`, and a child with the code `d` is created. -/
def spawn (s : Forest γ) (p : ℕ) (c d : γ) : Forest γ where
  n := s.n + 1
  parent := Function.update s.parent s.n (some p)
  code := Function.update (Function.update s.code p c) s.n d

/-- `q` is a child of `p`. -/
def Child (s : Forest γ) (p q : ℕ) : Prop :=
  q < s.n ∧ s.parent q = some p

/-- `q` is below `p`. -/
def Desc (s : Forest γ) : ℕ → ℕ → Prop :=
  Relation.TransGen s.Child

end Forest

/-- One process takes a step. -/
inductive Step (P : Program γ ε) (s : Forest γ) : Event ε → Forest γ → Prop
  | act {p : ℕ} {e : ε} {c : γ} : p < s.n → P.act (s.code p) e c →
      Step P s (.act p e) (s.become p c)
  | fork {p : ℕ} {c d : γ} : p < s.n → P.fork (s.code p) c d →
      Step P s (.fork p s.n) (s.spawn p c d)
  | reap {p q : ℕ} {c : γ} : p < s.n → P.reap (s.code p) c → s.Child p q →
      s.code q = P.exited →
      Step P s (.wait p (some q)) ((s.become p c).become q P.reaped)
  | idle {p : ℕ} {c : γ} : p < s.n → P.idle (s.code p) c →
      (∀ q, s.Child p q → s.code q = P.reaped) →
      Step P s (.wait p none) (s.become p c)

/-! ### Parents come first -/

/-- Every parent was created before its child. -/
def Rooted (s : Forest γ) : Prop :=
  ∀ p q, s.Child p q → p < q

namespace Forest

variable {s : Forest γ} {p q : ℕ} {c d : γ}

@[simp] theorem become_n : (s.become p c).n = s.n := rfl

@[simp] theorem become_self : (s.become p c).code p = c := by simp [become]

theorem become_of_ne (h : q ≠ p) : (s.become p c).code q = s.code q := by simp [become, h]

@[simp] theorem spawn_n : (s.spawn p c d).n = s.n + 1 := rfl

@[simp] theorem spawn_child : (s.spawn p c d).code s.n = d := by simp [spawn]

theorem spawn_self (hp : p < s.n) : (s.spawn p c d).code p = c := by simp [spawn, hp.ne]

theorem spawn_of_ne (hq : q < s.n) (h : q ≠ p) : (s.spawn p c d).code q = s.code q := by
  simp [spawn, hq.ne, h]

variable {r : ℕ}

@[simp] theorem become_child : (s.become p c).Child r q ↔ s.Child r q := Iff.rfl

theorem spawn_child_iff :
    (s.spawn p c d).Child r q ↔ s.Child r q ∨ q = s.n ∧ r = p := by
  unfold Child spawn
  by_cases hq : q = s.n
  · subst hq
    simp [eq_comm]
  · simp only [Function.update_of_ne hq, hq, false_and, or_false]
    constructor
    · rintro ⟨h, hr⟩
      exact ⟨by omega, hr⟩
    · rintro ⟨h, hr⟩
      exact ⟨by omega, hr⟩

/-- A fork keeps what is below what. -/
theorem Desc.spawn (h : s.Desc r q) : (s.spawn p c d).Desc r q := by
  induction h with
  | single hc => exact .single (spawn_child_iff.mpr (Or.inl hc))
  | tail _ hc ih => exact .tail ih (spawn_child_iff.mpr (Or.inl hc))

/-- After a fork, an old process is below an old process only where it was before, and the new one
is below its parent and what that was below. -/
theorem desc_spawn_cases (hroot : Rooted s) (hp : p < s.n) (h : (s.spawn p c d).Desc r q) :
    s.Desc r q ∨ q = s.n ∧ (r = p ∨ s.Desc r p) := by
  induction h with
  | single h =>
    rcases spawn_child_iff.mp h with h | ⟨rfl, rfl⟩
    · exact Or.inl (.single h)
    · exact Or.inr ⟨rfl, Or.inl rfl⟩
  | tail _ h ih =>
    rcases spawn_child_iff.mp h with h | ⟨rfl, rfl⟩
    · rcases ih with ih | ⟨rfl, _⟩
      · exact Or.inl (.tail ih h)
      · -- The new process has no child yet.
        exact absurd (hroot _ _ h) (Nat.not_lt.mpr h.1.le)
    · rcases ih with ih | ⟨rfl, _⟩
      · exact Or.inr ⟨rfl, Or.inr ih⟩
      · exact absurd hp (lt_irrefl _)

theorem Desc.lt_n (h : s.Desc r q) : q < s.n := by
  cases h with
  | single h => exact h.1
  | tail _ h => exact h.1

end Forest

variable {e : Event ε}

theorem Rooted.step {P : Program γ ε} {s s' : Forest γ} (h : Rooted s)
    (hstep : Step P s e s') : Rooted s' := by
  cases hstep with
  | act _ _ => exact h
  | reap _ _ _ _ => exact h
  | idle _ _ _ => exact h
  | fork hp _ =>
    intro r q hc
    rcases Forest.spawn_child_iff.mp hc with hc | ⟨rfl, rfl⟩
    · exact h r q hc
    · exact hp

theorem Rooted.desc_lt {s : Forest γ} (h : Rooted s) {p q : ℕ} (hd : s.Desc p q) : p < q := by
  induction hd with
  | single hc => exact h _ _ hc
  | tail _ hc ih => exact ih.trans (h _ _ hc)

/-! ### Limits on the children left -/

section Limits

variable [DecidableEq γ]

/-- The children of `p` that are not gone. -/
def kids (P : Program γ ε) (s : Forest γ) (p : ℕ) : Finset ℕ :=
  (Finset.range s.n).filter fun q => s.parent q = some p ∧ s.code q ≠ P.reaped

variable {p q : ℕ}

theorem mem_kids {P : Program γ ε} {s : Forest γ} :
    q ∈ kids P s p ↔ s.Child p q ∧ s.code q ≠ P.reaped := by
  simp [kids, Forest.Child, and_assoc]

/-- The program keeps to the limits: a code gets a child only where its limit allows one more, and
where `wait` returned a child the limit may go down by one. -/
structure Discipline (P : Program γ ε) (limit : γ → ℕ∞) : Prop where
  act : ∀ {c e c'}, P.act c e c' → limit c ≤ limit c' ∧ c ≠ P.reaped ∧ c' ≠ P.reaped
  fork : ∀ {c c' d}, P.fork c c' d →
    limit c + 1 ≤ limit c' ∧ c ≠ P.reaped ∧ c' ≠ P.reaped
  reap : ∀ {c c'}, P.reap c c' →
    limit c ≤ limit c' + 1 ∧ c ≠ P.reaped ∧ c' ≠ P.reaped
  idle : ∀ {c c'}, P.idle c c' → c ≠ P.reaped ∧ c' ≠ P.reaped
  exited_ne : P.exited ≠ P.reaped
  exited : limit P.exited = 0
  reaped : limit P.reaped = 0

/-- Parents come first, and every process has at most as many children left as its code allows. -/
structure Kept (P : Program γ ε) (limit : γ → ℕ∞) (s : Forest γ) : Prop where
  rooted : Rooted s
  card_le : ∀ p, p < s.n → ((kids P s p).card : ℕ∞) ≤ limit (s.code p)

variable {P : Program γ ε} {limit : γ → ℕ∞} {s s' : Forest γ}

/-- A process that is not gone goes on with a code that is not gone: no child is lost or added. -/
theorem kids_become {c : γ} (hp : s.code p ≠ P.reaped) (hc : c ≠ P.reaped) (r : ℕ) :
    kids P (s.become p c) r = kids P s r := by
  ext q
  rw [mem_kids, mem_kids, Forest.become_child]
  by_cases hq : q = p
  · subst hq
    simp [hp, hc]
  · rw [Forest.become_of_ne hq]

theorem kids_reaped (r : ℕ) : kids P (s.become q P.reaped) r = (kids P s r).erase q := by
  ext k
  rw [Finset.mem_erase, mem_kids, mem_kids, Forest.become_child]
  by_cases hk : k = q
  · subst hk
    simp
  · simp [Forest.become_of_ne hk, hk]

theorem kids_spawn_subset {p : ℕ} {c d : γ} (hp : s.code p ≠ P.reaped) (hlt : p < s.n) (r : ℕ) :
    kids P (s.spawn p c d) r ⊆ if r = p then insert s.n (kids P s r) else kids P s r := by
  intro q hq
  obtain ⟨hchild, hcode⟩ := mem_kids.mp hq
  have hold : s.Child r q → q ∈ kids P s r := by
    intro hc
    refine mem_kids.mpr ⟨hc, ?_⟩
    by_cases hqp : q = p
    · exact hqp ▸ hp
    · rwa [Forest.spawn_of_ne hc.1 hqp] at hcode
  rcases Forest.spawn_child_iff.mp hchild with hc | ⟨rfl, rfl⟩
  · split
    · exact Finset.mem_insert_of_mem (hold hc)
    · exact hold hc
  · rw [if_pos rfl]
    exact Finset.mem_insert_self _ _

/-- **The limits are kept by every step.** -/
theorem Kept.step (h : Kept P limit s) (hP : Discipline P limit)
    (hstep : Step P s e s') : Kept P limit s' := by
  refine ⟨h.rooted.step hstep, ?_⟩
  cases hstep with
  | @act p e c hp hact =>
    obtain ⟨hle, hne, hne'⟩ := hP.act hact
    intro r hr
    rw [kids_become hne hne']
    by_cases hrp : r = p
    · subst hrp
      rw [Forest.become_self]
      exact (h.card_le r hp).trans hle
    · rw [Forest.become_of_ne hrp]
      exact h.card_le r hr
  | @fork p c d hp hfork =>
    obtain ⟨hle, hne, hne'⟩ := hP.fork hfork
    intro r hr
    have hsub := Finset.card_le_card (@kids_spawn_subset γ ε _ P s p c d hne hp r)
    by_cases hrp : r = p
    · subst hrp
      rw [if_pos rfl] at hsub
      rw [Forest.spawn_self hp]
      calc ((kids P (s.spawn r c d) r).card : ℕ∞)
          ≤ ((insert s.n (kids P s r)).card : ℕ∞) := by exact_mod_cast hsub
        _ ≤ ((kids P s r).card : ℕ∞) + 1 := by exact_mod_cast Finset.card_insert_le _ _
        _ ≤ limit (s.code r) + 1 := by gcongr; exact h.card_le r hp
        _ ≤ limit c := hle
    · rw [if_neg hrp] at hsub
      rcases Nat.lt_succ_iff_lt_or_eq.mp hr with hr | rfl
      · rw [Forest.spawn_of_ne hr hrp]
        exact le_trans (by exact_mod_cast hsub) (h.card_le r hr)
      · -- The new process has no child.
        have hnone : kids P s s.n = ∅ := by
          apply Finset.eq_empty_of_forall_notMem
          intro q hq
          have hc := (mem_kids.mp hq).1
          exact absurd (h.rooted _ _ hc) (Nat.not_lt.mpr hc.1.le)
        rw [hnone, Finset.card_empty, Nat.le_zero] at hsub
        rw [hsub]
        exact zero_le
  | @reap p q c hp hreap hchild hq =>
    obtain ⟨hle, hne, hne'⟩ := hP.reap hreap
    intro r hr
    rw [kids_reaped, kids_become hne hne']
    by_cases hrq : r = q
    · -- The child that is gone now had exited, and had no child left then.
      subst hrq
      have hzero := h.card_le r hchild.1
      rw [hq, hP.exited] at hzero
      rw [Forest.become_self, hP.reaped]
      exact le_trans (by exact_mod_cast Finset.card_erase_le) hzero
    · rw [Forest.become_of_ne hrq]
      by_cases hrp : r = p
      · subst hrp
        have hmem : q ∈ kids P s r := mem_kids.mpr ⟨hchild, by rw [hq]; exact hP.exited_ne⟩
        have hcard := Finset.card_erase_add_one hmem
        have hbound := (h.card_le r hp).trans hle
        rw [Forest.become_self]
        rw [← hcard, Nat.cast_add, Nat.cast_one] at hbound
        exact (WithTop.add_le_add_iff_right ENat.one_ne_top).mp hbound
      · rw [Forest.become_of_ne hrp]
        exact le_trans (by exact_mod_cast Finset.card_erase_le) (h.card_le r hr)
  | @idle p c hp hidle hnone =>
    obtain ⟨hne, hne'⟩ := hP.idle hidle
    intro r hr
    rw [kids_become hne hne']
    by_cases hrp : r = p
    · subst hrp
      have hempty : kids P s r = ∅ := by
        apply Finset.eq_empty_of_forall_notMem
        intro q hq
        exact (mem_kids.mp hq).2 (hnone q (mem_kids.mp hq).1)
      rw [hempty]
      exact zero_le
    · rw [Forest.become_of_ne hrp]
      exact h.card_le r hr

/-- **Below a process with no child left, every process is gone.** -/
theorem Kept.desc_reaped (h : Kept P limit s) (hP : Discipline P limit)
    (hp : kids P s p = ∅) (hd : s.Desc p q) : s.code q = P.reaped := by
  have hchild : ∀ r k, kids P s r = ∅ → s.Child r k → s.code k = P.reaped := by
    intro r k hr hc
    by_contra hne
    have hk : k ∈ kids P s r := mem_kids.mpr ⟨hc, hne⟩
    rw [hr] at hk
    exact absurd hk (Finset.notMem_empty k)
  induction hd with
  | single hc => exact hchild _ _ hp hc
  | @tail k m hd hc ih =>
    -- A process that is gone may have no child left.
    have hzero := h.card_le k (Forest.Desc.lt_n hd)
    rw [ih, hP.reaped] at hzero
    have hempty : kids P s k = ∅ := by
      rw [← Finset.card_eq_zero]
      exact_mod_cast le_antisymm hzero zero_le
    exact hchild _ _ hempty hc

theorem Kept.kids_eq_empty (h : Kept P limit s) (hp : p < s.n)
    (hlimit : limit (s.code p) = 0) : kids P s p = ∅ := by
  rw [← Finset.card_eq_zero]
  have := h.card_le p hp
  rw [hlimit] at this
  exact_mod_cast le_antisymm this zero_le

/-! ### Who can go on -/

omit [DecidableEq γ] in
/-- Where `wait` goes on in either way, it is held up only by a child that has not exited. -/
theorem exists_live_child (hp : p < s.n) {c c' : γ} (hreap : P.reap (s.code p) c)
    (hidle : P.idle (s.code p) c') (hstuck : ∀ q s', ¬ Step P s (.wait p q) s') :
    ∃ q, s.Child p q ∧ s.code q ≠ P.exited ∧ s.code q ≠ P.reaped := by
  by_contra hnone
  push Not at hnone
  -- No child has exited, so all are gone and `wait` returns for want of a child.
  refine hstuck none _ (.idle hp hidle fun q hq => hnone q hq fun hexit => ?_)
  exact hstuck (some q) _ (.reap hp hreap hq hexit)

/-- **Some process is not held up by a child.** When no call of `wait` can return, every process
that has not exited is, or has below it, one that has not exited and is not waiting. -/
theorem Kept.exists_ready (h : Kept P limit s)
    (hstuck : ∀ p q s', ¬ Step P s (.wait p q) s') (hp : p < s.n)
    (hlive : s.code p ≠ P.exited ∧ s.code p ≠ P.reaped) :
    ∃ q, (q = p ∨ s.Desc p q) ∧ q < s.n ∧ (s.code q ≠ P.exited ∧ s.code q ≠ P.reaped) ∧
      ¬ ((∃ c, P.reap (s.code q) c) ∧ ∃ c, P.idle (s.code q) c) := by
  -- A child has a larger number than its parent, so the search goes up to `n`.
  induction hm : s.n - p using Nat.strong_induction_on generalizing p with
  | _ m ih =>
    by_cases hwait : (∃ c, P.reap (s.code p) c) ∧ ∃ c, P.idle (s.code p) c
    · obtain ⟨⟨c, hreap⟩, c', hidle⟩ := hwait
      obtain ⟨q, hq, hlive'⟩ := exists_live_child hp hreap hidle (hstuck p)
      have hlt := h.rooted _ _ hq
      obtain ⟨r, hr, hrest⟩ := ih (s.n - q) (by have := hq.1; omega) hq.1 hlive' rfl
      refine ⟨r, Or.inr ?_, hrest⟩
      rcases hr with rfl | hr
      · exact .single hq
      · exact .head hq hr
    · exact ⟨p, Or.inl rfl, hp, hlive, hwait⟩

end Limits

/-! ### Weights -/

/-- The sum of a weight over all processes. -/
def total (w : γ → ℕ) (s : Forest γ) : ℕ :=
  ∑ p ∈ Finset.range s.n, w (s.code p)

section Weights

variable {P : Program γ ε} {s s' : Forest γ} {w : γ → ℕ}

theorem total_become {p : ℕ} (hp : p < s.n) (c : γ) :
    total w (s.become p c) + w (s.code p) = total w s + w c := by
  unfold total
  have hmem : p ∈ Finset.range s.n := Finset.mem_range.mpr hp
  rw [Forest.become_n, ← Finset.add_sum_erase _ _ hmem, ← Finset.add_sum_erase _ _ hmem,
    Finset.sum_congr rfl fun q hq => by rw [Forest.become_of_ne (Finset.ne_of_mem_erase hq)],
    Forest.become_self]
  omega

theorem total_spawn {p : ℕ} (hp : p < s.n) (c d : γ) :
    total w (s.spawn p c d) + w (s.code p) = total w s + w c + w d := by
  have hold : ∑ q ∈ Finset.range s.n, w ((s.spawn p c d).code q) = total w (s.become p c) := by
    refine Finset.sum_congr rfl fun q hq => ?_
    have hq : q < s.n := Finset.mem_range.mp hq
    by_cases hqp : q = p
    · rw [hqp, Forest.spawn_self hp, Forest.become_self]
    · rw [Forest.spawn_of_ne hq hqp, Forest.become_of_ne hqp]
  have hsum : total w (s.spawn p c d) = total w (s.become p c) + w d := by
    rw [total, Forest.spawn_n, Finset.sum_range_succ, hold, Forest.spawn_child]
  have := @total_become γ s w p hp c
  omega

theorem total_reap (hroot : Rooted s) {p q : ℕ} (hp : p < s.n) (hq : s.Child p q) (c d : γ) :
    total w ((s.become p c).become q d) + w (s.code p) + w (s.code q) =
      total w s + w c + w d := by
  have h1 := @total_become γ s w p hp c
  have h2 := @total_become γ (s.become p c) w q hq.1 d
  rw [Forest.become_of_ne (hroot _ _ hq).ne'] at h2
  omega

theorem le_total {p : ℕ} (hp : p < s.n) : w (s.code p) ≤ total w s :=
  Finset.single_le_sum (f := fun p => w (s.code p)) (fun _ _ => zero_le) (Finset.mem_range.mpr hp)

theorem exists_of_total_pos (h : 0 < total w s) : ∃ p, p < s.n ∧ 0 < w (s.code p) := by
  by_contra hnone
  push Not at hnone
  refine absurd h (Nat.not_lt.mpr (Nat.le_of_eq ?_))
  exact Finset.sum_eq_zero fun p hp => Nat.le_zero.mp (hnone p (Finset.mem_range.mp hp))

/-- A weight that leaves the processes only by their own steps, each of which takes away its
tick. -/
structure Conserved (P : Program γ ε) (w : γ → ℕ) (tick : ε → ℕ) : Prop where
  act : ∀ {c e c'}, P.act c e c' → w c = w c' + tick e
  fork : ∀ {c c' d}, P.fork c c' d → w c = w c' + w d
  reap : ∀ {c c'}, P.reap c c' → w c = w c'
  idle : ∀ {c c'}, P.idle c c' → w c = w c'
  gone : w P.exited = w P.reaped

/-- A weight that goes down with every step. -/
structure Decreasing (P : Program γ ε) (w : γ → ℕ) : Prop where
  act : ∀ {c e c'}, P.act c e c' → w c' < w c
  fork : ∀ {c c' d}, P.fork c c' d → w c' + w d < w c
  reap : ∀ {c c'}, P.reap c c' → w c' ≤ w c
  idle : ∀ {c c'}, P.idle c c' → w c' < w c
  gone : w P.reaped < w P.exited

/-- The tick of an event. -/
def Event.tick (tick : ε → ℕ) : Event ε → ℕ
  | .act _ e => tick e
  | _ => 0

/-- **A conserved weight** is the sum of the ticks and of what is left. -/
theorem Step.total_eq {tick : ε → ℕ} (hstep : Step P s e s') (hroot : Rooted s)
    (hw : Conserved P w tick) : total w s = total w s' + e.tick tick := by
  cases hstep with
  | @act p e c hp h =>
    have h1 := @total_become γ s w p hp c
    have h2 := hw.act h
    simp only [Event.tick]
    omega
  | @fork p c d hp h =>
    have h1 := @total_spawn γ s w p hp c d
    have h2 := hw.fork h
    simp only [Event.tick]
    omega
  | @reap p q c hp h hq hexit =>
    have h1 := @total_reap γ s w hroot p q hp hq c P.reaped
    have h2 := hw.reap h
    have h3 := hw.gone
    rw [hexit] at h1
    simp only [Event.tick]
    omega
  | @idle p c hp h _ =>
    have h1 := @total_become γ s w p hp c
    have h2 := hw.idle h
    simp only [Event.tick]
    omega

/-- **A decreasing weight** bounds the number of steps. -/
theorem Step.total_lt (hstep : Step P s e s') (hroot : Rooted s)
    (hw : Decreasing P w) : total w s' < total w s := by
  cases hstep with
  | @act p e c hp h =>
    have h1 := @total_become γ s w p hp c
    have h2 := hw.act h
    omega
  | @fork p c d hp h =>
    have h1 := @total_spawn γ s w p hp c d
    have h2 := hw.fork h
    omega
  | @reap p q c hp h hq hexit =>
    have h1 := @total_reap γ s w hroot p q hp hq c P.reaped
    have h2 := hw.reap h
    have h3 := hw.gone
    rw [hexit] at h1
    omega
  | @idle p c hp h _ =>
    have h1 := @total_become γ s w p hp c
    have h2 := hw.idle h
    omega

end Weights

end Process
