import CS450.Proc.Sched

/-!
# `kill` and recycled slots

Only `wait` clears `pid` and `killed` in a slot: `allocproc` does not, and neither do the ways in
which `fork` fails. `kill` compares the pid of every slot without looking at its state. So a `kill`
whose pid is left in an unused slot, as `0` is in every slot never used, marks that slot, and the
next process in it is born killed. A `kill` of the pid that `allocproc` has just given does the same
to an embryo, and if the `fork` fails the mark stays in the unused slot.

The steps are those of `Sched`, where other CPUs run in the middle of `fork`.

## Main results

* `Unmarked.step`: a `kill` that finds neither marks no slot without a process
* `kill_only_live`: what follows for every run of such calls
* `kill_marks_unused`: `kill(0)` right after boot, and the process born killed
-/

namespace Xv6.Kill

open Function (update update_of_ne update_self)
open Transition Sched

/-- The states of a slot without a process of its own: free, or still being filled by `fork`. -/
def Unborn (s : ProcState) : Prop := s = .unused ∨ s = .embryo

/-- A `kill` marks, if any, a slot that is neither unused nor an embryo. -/
def KillsLive (k : Machine) (e : Cpu × Event) : Prop :=
  ∀ pid q, e.2 = .kill pid → findPid pid k.proc = some q → ¬ Unborn (k.proc q).state

/-- No slot without a process of its own is marked as killed. -/
def Unmarked (t : ProcTable) : Prop := ∀ i, Unborn (t i).state → (t i).killed = false

section Steps

variable {t t' : ProcTable} {k k' : Machine}

theorem not_unborn_of_eq {s s' : ProcState} (h : s = s') (hs : s' ≠ .unused ∧ s' ≠ .embryo) :
    ¬ Unborn s := by
  rintro (hu | he)
  · exact hs.1 (h.symm.trans hu)
  · exact hs.2 (h.symm.trans he)

/-- A change of one slot that does not leave it marked and without a process. -/
theorem Unmarked.set (h : Unmarked t) {p : Slot} {c : Proc}
    (hc : Unborn c.state → c.killed = false) : Unmarked (update t p c) := by
  intro i hi
  rcases eq_or_ne i p with rfl | hne
  · rw [update_self] at hi ⊢
    exact hc hi
  · rw [update_of_ne hne] at hi ⊢
    exact h i hi

/-- A change of one slot that has a process afterwards. -/
theorem Unmarked.set_born (h : Unmarked t) {p : Slot} {c : Proc}
    (hc : c.state ≠ .unused ∧ c.state ≠ .embryo) : Unmarked (update t p c) :=
  h.set fun hu => absurd hu (not_unborn_of_eq rfl hc)

/-- A change that marks nobody and frees no slot. -/
theorem Unmarked.of_state (h : Unmarked t) (hkilled : ∀ i, (t' i).killed = (t i).killed)
    (hstate : ∀ i, Unborn (t' i).state → Unborn (t i).state) : Unmarked t' := by
  intro i hi
  rw [hkilled]
  exact h i (hstate i hi)

/-- A slot that is woken had a process. -/
theorem unborn_of_woken {s s' : ProcState} (h : s' = s ∨ s = .sleeping ∧ s' = .runnable)
    (hu : Unborn s') : Unborn s := by
  rcases h with rfl | ⟨-, rfl⟩
  · exact hu
  · exact absurd hu (not_unborn_of_eq rfl ⟨nofun, nofun⟩)

theorem Unmarked.exitTable (h : Unmarked t) (cur initproc : Slot) :
    Unmarked (exitTable cur initproc t) := by
  apply h.of_state
  · exact exitTable_killed t
  · intro i hi
    rcases eq_or_ne i cur with rfl | hne
    · -- the process that exits becomes a zombie
      refine absurd hi (@not_unborn_of_eq _ .zombie ?_ ⟨nofun, nofun⟩)
      simp [Xv6.exitTable]
    · exact unborn_of_woken (exitTable_state t hne) hi

theorem Unmarked.goOn (h : Unmarked k.proc) (p : Slot) (r : Resume) :
    Unmarked (k.goOn p r).proc := by
  have hclear : Unmarked (update k.proc p { k.proc p with chan := none }) := h.set fun hu => h p hu
  cases r with
  | forkret => exact h
  | yield => exact h
  | sleep => exact hclear
  | wait => exact hclear

theorem Unmarked.kill (h : Unmarked k.proc) {pid : ℤ}
    (hlive : ∀ q, findPid pid k.proc = some q → ¬ Unborn (k.proc q).state) :
    Unmarked (k.kill pid).2.proc := by
  unfold Machine.kill
  split
  · exact h
  · next q hq =>
    apply h.set
    intro hu
    refine absurd (unborn_of_woken ?_ hu) (hlive q hq)
    dsimp only
    split
    · next hs => exact .inr ⟨hs, rfl⟩
    · exact .inl rfl

/-- **Every step keeps slots without a process unmarked**, if its `kill` does. Where `fork` gives
the slot up, and where it makes the process runnable, the slot has been an embryo all the time. -/
theorem Unmarked.step {e : Cpu × Event} (hinv : Inv k) (h : Unmarked k.proc) (hstep : Step k e k')
    (hlive : KillsLive k e) : Unmarked k'.proc := by
  cases hstep with
  | acquire => exact h
  | pick => exact h.set_born ⟨nofun, nofun⟩
  | release => exact h
  | resume => exact h.goOn _ _
  | forkNone => exact h
  | forkAlloc _ _ _ hf => exact h.set fun _ => h _ (.inl (findUnused_spec hf))
  | forkFail _ hpc => exact h.set fun _ => h _ (.inr (hinv.embryo _ _ (.inl hpc)))
  | forkParent _ hpc => exact h.set fun _ => h _ (.inr (hinv.embryo _ _ (.inl hpc)))
  | forkRun => exact h.set_born ⟨nofun, nofun⟩
  | exit => exact h.exitTable _ _
  | waitEnter => exact h
  | waitReap => exact h.set fun _ => rfl
  | waitFail => exact h
  | waitSleep => exact h.set_born ⟨nofun, nofun⟩
  | sleep => exact h.set_born ⟨nofun, nofun⟩
  | yield => exact h.set_born ⟨nofun, nofun⟩
  | wakeup =>
    exact h.of_state (wakeup1_killed _ _) fun i => unborn_of_woken (wakeup1_state _ _ i)
  | kill => exact h.kill fun q hq => hlive _ q rfl hq

end Steps

theorem unmarked_boot : Unmarked boot.proc := by
  intro i _
  rcases eq_or_ne i 0 with rfl | hi
  · rfl
  · simp only [boot, update_of_ne hi]
    rfl

/-- Exactly the processes with the pid make `kill` return `0`, provided that the slot it marks is in
use. -/
theorem kill_result {k : Machine} {pid : ℤ}
    (hlive : ∀ q, findPid pid k.proc = some q → ¬ Unborn (k.proc q).state) :
    ((∃ p, (k.proc p).state ≠ .unused ∧ (k.proc p).pid = pid) ∧ (k.kill pid).1 = 0) ∨
      ((¬ ∃ p, (k.proc p).state ≠ .unused ∧ (k.proc p).pid = pid) ∧ k.kill pid = (-1, k)) := by
  unfold Machine.kill
  cases hfind : findPid pid k.proc with
  | none =>
    right
    refine ⟨?_, rfl⟩
    rintro ⟨p, -, hp⟩
    have := Table.firstIdx_eq_none.mp hfind p
    simp [hp] at this
  | some p =>
    left
    exact ⟨⟨p, fun hu => hlive p hfind (.inl hu), by simpa using Table.firstIdx_spec hfind⟩, rfl⟩

/-- **`kill` affects processes only**, as long as the slot that each `kill` of the run marks is
neither unused nor an embryo: unused slots are never marked, every process that `fork` makes
runnable starts unmarked, and the next such `kill` returns `0` exactly when a process in use has the
pid and changes nothing otherwise. -/
theorem kill_only_live {es : List (Cpu × Event)} {k : Machine}
    (hrun : Run (Guarded Step KillsLive) boot es k) :
    (∀ i, (k.proc i).state = .unused → (k.proc i).killed = false) ∧
    (∀ p np, k.pc p = .forked np → ((k.forkRun p np).proc np).state = .runnable ∧
      ((k.forkRun p np).proc np).killed = false) ∧
    ∀ c pid, KillsLive k (c, .kill pid) →
      ((∃ p, (k.proc p).state ≠ .unused ∧ (k.proc p).pid = pid) ∧ (k.kill pid).1 = 0) ∨
      ((¬ ∃ p, (k.proc p).state ≠ .unused ∧ (k.proc p).pid = pid) ∧ k.kill pid = (-1, k)) := by
  obtain ⟨hinv, h⟩ : Inv k ∧ Unmarked k.proc :=
    Run.invariant (I := fun k => Inv k ∧ Unmarked k.proc)
      (fun _ _ _ h hs => ⟨h.1.step hs.1, h.2.step h.1 hs.1 hs.2⟩) hrun ⟨boot_inv, unmarked_boot⟩
  refine ⟨fun i hi => h i (.inl hi), fun p np hpc => ?_, fun c pid hlive => ?_⟩
  · have hkilled := h np (.inr (hinv.embryo p np (.inr hpc)))
    simp [Machine.forkRun, Machine.setPc, Machine.setProc, hkilled]
  · exact kill_result fun q hq => hlive pid q rfl hq

/-! ### Two runs on one CPU -/

theorem killsLive_of_ne {k : Machine} {c : Cpu} {e : Event} (h : ∀ pid, e ≠ .kill pid) :
    KillsLive k (c, e) := fun pid _ he => absurd he (h pid)

/-- The first process forks, and kills its child by its pid. -/
theorem kill_only_live_child : ∃ es k, Run (Guarded Step KillsLive) boot es k ∧
    (k.proc 1).state = .runnable ∧ (k.proc 1).killed = true ∧
    ∀ i, (k.proc i).state = .unused → (k.proc i).killed = false := by
  have hforked : Run (Guarded Step KillsLive) boot _ _ := run_forked.guarded fun ⟨c, e⟩ he t =>
    killsLive_of_ne fun pid hk => by simp [hk] at he
  have hkill := hforked.snoc ⟨@Step.kill _ 0 0 2 rfl ⟨rfl, rfl⟩ rfl, by
    rintro pid q ⟨⟩ hq
    obtain rfl : (1 : Slot) = q := Option.some.inj ((by decide : some (1 : Slot) = _).trans hq)
    exact @not_unborn_of_eq _ .runnable (by decide) ⟨nofun, nofun⟩⟩
  exact ⟨_, _, hkill, by decide, by decide, (kill_only_live hkill).1⟩

/-- Right after boot `kill(0)` finds an unused slot: it returns `0` although no process in use has
the pid `0`, it marks the slot, and the next `fork` makes a process that is already killed. -/
theorem kill_marks_unused : ∃ es k, Run Step boot es k ∧ (k.kill 0).1 = 0 ∧
    (¬ ∃ p, (k.proc p).state ≠ .unused ∧ (k.proc p).pid = 0) ∧
    (∃ i, ((k.kill 0).2.proc i).state = .unused ∧ ((k.kill 0).2.proc i).killed = true) ∧
    ∃ es' k', Run Step boot (es ++ [(0, .kill 0)] ++ es') k' ∧ (k'.proc 1).state = .runnable ∧
      (k'.proc 1).pid = 2 ∧ (k'.proc 1).killed = true := by
  have h₁ := run_started.snoc (@Step.kill _ 0 0 0 rfl ⟨rfl, rfl⟩ rfl)
  have h₂ := h₁.snoc (.forkAlloc (c := 0) (p := 0) rfl ⟨rfl, rfl⟩ rfl
    (show _ = some (1 : Slot) by decide))
  have h₃ := h₂.snoc (.forkParent (c := 0) ⟨rfl, rfl⟩ rfl)
  have h₄ := h₃.snoc (.forkRun (c := 0) rfl ⟨rfl, rfl⟩ rfl)
  exact ⟨_, started, run_started, by decide, by decide, ⟨1, by decide⟩,
    [(0, .fork), (0, .forkParent), (0, .forkRun)], _, h₄, by decide, by decide, by decide⟩

end Xv6.Kill
