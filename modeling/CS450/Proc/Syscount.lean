import CS450.Proc.Trap

/-!
# System call counters

The second table of the trap-counting kernel. `trap` counts a system call in `trapcounts[21]` before
it looks at the process, and `syscall` counts it in `syscounts[num]` after it has looked at the
number. Between the two are the check of `killed`, which can end the process, and the check of the
number, which can refuse the call. So the tables differ by the calls that did not get that far,
apart from a call that is on its way: a process can be interrupted between the two counts, and
others can run.

The model is the one of the trap counters, with what `syscall` adds to it: the number of the call a
process has made, and whether `syscall` has looked at it. A system call that has been dispatched is
carried out by a step of the trap model, which may be much later. System calls are made from user
mode only, so there is one at a time, and it is the outermost frame of the process.

## Main results

* `shift_of_step`: what a step of the trap model does to the frames of a process
* `Inv.step`: the two tables differ by the refused calls and by a call on its way
* `syscounts_agree`: the tables over every run
-/

namespace Xv6.Syscount

open Function (update update_of_ne update_self)
open Transition Calls
open Trap (Machine Frame T_SYSCALL taken)

/-- The number of entries of `syscalls`, and of counters. -/
abbrev NSYSCALLS : ℕ := 23

/-- The class of system calls in the trap table. -/
def syscallClass : Fin Trap.NTRAPS := Trap.trapnos T_SYSCALL

/-- The check of `syscall`. All entries of `syscalls` but the first are set. -/
def Known (num : ℤ) : Prop := 0 < num ∧ num < NSYSCALLS

instance (num : ℤ) : Decidable (Known num) := inferInstanceAs (Decidable (_ ∧ _))

/-- The counter of a known number. -/
def Known.index {num : ℤ} (h : Known num) : Fin (NSYSCALLS - 1) :=
  ⟨num.toNat - 1, by
    have h₁ := h.1
    have h₂ : num < 23 := h.2
    show num.toNat - 1 < 22
    omega⟩

def SYS_fork : ℤ := 1
def SYS_exit : ℤ := 2
def SYS_wait : ℤ := 3
def SYS_kill : ℤ := 6
def SYS_countTraps : ℤ := 22

structure State where
  machine : Machine
  syscounts : Slot → Fin NSYSCALLS → BitVec 32
  /-- the number in `tf->eax` of the last system call, and whether `syscall` has looked at it -/
  call : Slot → Option (ℤ × Bool)

/-- The process is between the entry of `trap` and the dispatch in `syscall`. -/
def State.window (s : State) (p : Slot) : Bool := (s.call p).any fun c => !c.2

inductive Event
  /-- A system call of a process that has been killed; `trap` calls `exit`. -/
  | cutOff (p : Slot)
  /-- A system call with a number that goes on to `syscall`. -/
  | enter (p : Slot) (num : ℤ)
  /-- `syscall` counts the call. -/
  | dispatch (p : Slot) (num : ℤ)
  /-- `syscall` refuses the number. -/
  | reject (p : Slot) (num : ℤ)
  /-- Any other step. -/
  | base (e : Trap.Event)
  deriving DecidableEq

/-- The process whose system call is carried out. -/
def server : Trap.Event → Option Slot
  | .fork p _ _ => some p
  | .wait p => some p
  | .kill p _ => some p
  | .callExit p => some p
  | .countTraps p _ => some p
  | .other p => some p
  | _ => none

/-- The step carries out the system call with the number. -/
def Serves : Trap.Event → ℤ → Prop
  | .fork _ _ _, num => num = SYS_fork
  | .wait _, num => num = SYS_wait
  | .kill _ _, num => num = SYS_kill
  | .callExit _, num => num = SYS_exit
  | .countTraps _ _, num => num = SYS_countTraps
  | .other _, num => num ∉ [SYS_fork, SYS_exit, SYS_wait, SYS_kill, SYS_countTraps]
  | _, _ => False

/-- `wait` clears the counters of the child it reaps. -/
def clearCounts (t : Ptable) (counts : Slot → Fin NSYSCALLS → BitVec 32) :
    Trap.Event → Slot → Fin NSYSCALLS → BitVec 32
  | .wait p =>
    match Trap.reaped t p with
    | some q => Function.update counts q 0
    | none => counts
  | _ => counts

/-- The child of `fork` is in no system call. -/
def clearCall (call : Slot → Option (ℤ × Bool)) : Trap.Event → Slot → Option (ℤ × Bool)
  | .fork _ _ (some np) => Function.update call np none
  | _ => call

/-- `++curproc->syscounts[num]`. -/
def State.count (s : State) (p : Slot) {num : ℤ} (h : Known num) : State :=
  { s with
    syscounts := Function.update s.syscounts p (Function.update (s.syscounts p)
      (Fin.succ h.index) (s.syscounts p (Fin.succ h.index) + 1))
    call := Function.update s.call p (some (num, true)) }

/-- One step. -/
inductive Step (s : State) : Event → State → Prop
  | cutOff {p : Slot} {m : Machine} : (s.machine.proc p).killed = true →
      Trap.Step s.machine (.trap (some p) T_SYSCALL true) m →
      Step s (.cutOff p) { s with machine := m }
  | enter {p : Slot} {num : ℤ} {m : Machine} : (s.machine.proc p).killed = false →
      Trap.Step s.machine (.trap (some p) T_SYSCALL true) m →
      Step s (.enter p num) { s with
        machine := m, call := Function.update s.call p (some (num, false)) }
  | dispatch {p : Slot} {num : ℤ} {fs : List Frame} (h : Known num) :
      (s.machine.proc p).state = .running → s.machine.frames p = .syscall :: fs →
      s.call p = some (num, false) → Step s (.dispatch p num) (s.count p h)
  | reject {p : Slot} {num : ℤ} {m : Machine} : ¬ Known num → s.call p = some (num, false) →
      Trap.Step s.machine (.other p) m →
      Step s (.reject p num) { s with
        machine := m, call := Function.update s.call p none }
  | serve {p : Slot} {num : ℤ} {e : Trap.Event} {m : Machine} : server e = some p → Serves e num →
      s.call p = some (num, true) → Trap.Step s.machine e m →
      Step s (.base e)
        ⟨m, clearCounts s.machine.ptable s.syscounts e, clearCall s.call e⟩
  | quiet {e : Trap.Event} {m : Machine} : server e = none →
      (∀ p user, e ≠ .trap (some p) T_SYSCALL user) → Trap.Step s.machine e m →
      Step s (.base e) { s with machine := m }

/-- After `userinit`. -/
def boot : State := ⟨Trap.boot, fun _ _ => 0, fun _ => none⟩

/-- The loop of `countSyscalls`, which starts at the second counter. -/
def countSyscalls (s : State) (p : Slot) : BitVec 32 :=
  (List.finRange (NSYSCALLS - 1)).foldl (fun c i =>
    let n := s.syscounts p (Fin.succ i)
    if n ≠ 0 then c + n else c) 0

/-! ### Counting calls -/

/-- What the trap model sees of a step. -/
def Event.trapEvents : Event → List Trap.Event
  | .cutOff p => [.trap (some p) T_SYSCALL true]
  | .enter p _ => [.trap (some p) T_SYSCALL true]
  | .dispatch _ _ => []
  | .reject p _ => [.other p]
  | .base e => [e]

def trapHistory (h : List Event) : List Trap.Event := h.flatMap Event.trapEvents

/-- The slot is allocated for a new process. -/
def Event.starts (q : Slot) : Event → Bool
  | .base (.fork _ _ np) => np = some q
  | _ => false

/-- The number of events of a kind since the slot was allocated, after one more event. -/
def Event.since (q : Slot) (mine : Event → Bool) (n : ℕ) (e : Event) : ℕ :=
  if e.starts q then 0 else if mine e then n + 1 else n

/-- The number of events of a kind since the slot was allocated for the process in it. -/
def since (h : List Event) (q : Slot) (mine : Event → Bool) : ℕ := h.foldl (Event.since q mine) 0

def Event.dispatches (q : Slot) : Event → Bool
  | .dispatch p _ => p = q
  | _ => false

def Event.rejects (q : Slot) : Event → Bool
  | .reject p _ => p = q
  | _ => false

def Event.cutsOff (q : Slot) : Event → Bool
  | .cutOff p => p = q
  | _ => false

/-- The calls that `syscall` has counted. -/
def dispatched (h : List Event) (q : Slot) : ℕ := since h q (Event.dispatches q)

/-- The calls with a number that `syscall` has refused. -/
def rejected (h : List Event) (q : Slot) : ℕ := since h q (Event.rejects q)

/-- The calls that were cut off by the check of `killed`. -/
def cutOffs (h : List Event) (q : Slot) : ℕ := since h q (Event.cutsOff q)

/-- **The calls that did not get as far as the second counter.** -/
def refused (h : List Event) (q : Slot) : ℕ := rejected h q + cutOffs h q

variable {q p : Slot} {f : Frame} {fs : List Frame} {m m' : Machine} {num : ℤ}

theorem since_of_starts (h : List Event) {e : Event} (mine : Event → Bool)
    (hs : e.starts q = true) : since (h ++ [e]) q mine = 0 := by
  simp [since, Event.since, hs]

theorem since_of_not_starts (h : List Event) {e : Event} (mine : Event → Bool)
    (hs : e.starts q = false) : since (h ++ [e]) q mine = since h q mine + (mine e).toNat := by
  cases hm : mine e <;> simp [since, Event.since, hs, hm]

theorem trapHistory_append (h : List Event) (e : Event) :
    trapHistory (h ++ [e]) = trapHistory h ++ e.trapEvents := by
  simp [trapHistory]

theorem clearCall_of_starts {e : Trap.Event} (call : Slot → Option (ℤ × Bool))
    (hs : (Event.base e).starts q = true) : clearCall call e q = none := by
  cases e with
  | fork p mem np =>
    obtain rfl : np = some q := by simpa [Event.starts] using hs
    exact update_self ..
  | _ => cases hs

theorem clearCall_of_not_starts {e : Trap.Event} (call : Slot → Option (ℤ × Bool))
    (hs : (Event.base e).starts q = false) : clearCall call e q = call q := by
  cases e with
  | fork p mem np =>
    cases np with
    | none => rfl
    | some np =>
      have hne : np ≠ q := by
        rintro rfl
        exact absurd hs (by simp [Event.starts])
      exact update_of_ne hne.symm ..
  | _ => rfl

/-! ### Frames

A frame that is not the outermost one is that of an interrupt in the kernel. Interrupts come and go
above a system call; the outermost frame changes when the system call goes on. -/

/-- The frame of an interrupt that came in the kernel. -/
def Nested : Frame → Prop
  | .handled false _ => True
  | .yielded false => True
  | _ => False

/-- Only the outermost frame is not that of an interrupt in the kernel. -/
def Stacked (fs : List Frame) : Prop := ∀ f ∈ fs.dropLast, Nested f

/-- A change of the frames of a process that leaves a system call before its dispatch alone. -/
inductive Shift : List Frame → List Frame → Prop
  | same {fs : List Frame} : Shift fs fs
  | push {f : Frame} {fs : List Frame} : Nested f ∨ fs = [] → f ≠ .syscall → Shift fs (f :: fs)
  | swap {f g : Frame} {fs : List Frame} : Nested g ∨ fs = [] → f ≠ .syscall → g ≠ .syscall →
      Shift (f :: fs) (g :: fs)
  | pop {f : Frame} {fs : List Frame} : f ≠ .syscall → Shift (f :: fs) fs

theorem Stacked.nil : Stacked [] := by simp [Stacked]

theorem Stacked.singleton (f : Frame) : Stacked [f] := by simp [Stacked]

theorem Stacked.cons_iff :
    Stacked (f :: fs) ↔ (Nested f ∨ fs = []) ∧ Stacked fs := by
  cases fs with
  | nil => simp [Stacked]
  | cons g fs => simp [Stacked]

theorem getLast?_eq_syscall_cons (hf : f ≠ .syscall) :
    (f :: fs).getLast? = some .syscall ↔ fs.getLast? = some .syscall := by
  cases fs with
  | nil => simp [hf]
  | cons g fs => rw [List.getLast?_cons_cons]

theorem Shift.stacked {fs' : List Frame} (h : Shift fs fs') (hs : Stacked fs) : Stacked fs' := by
  cases h with
  | same => exact hs
  | push hf _ => exact Stacked.cons_iff.mpr ⟨hf, hs⟩
  | swap hg _ _ => exact Stacked.cons_iff.mpr ⟨hg, (Stacked.cons_iff.mp hs).2⟩
  | pop _ => exact (Stacked.cons_iff.mp hs).2

theorem Shift.last {fs' : List Frame} (h : Shift fs fs') :
    fs'.getLast? = some .syscall ↔ fs.getLast? = some .syscall := by
  cases h with
  | same => exact Iff.rfl
  | push _ hf => exact getLast?_eq_syscall_cons hf
  | swap _ hf hg => rw [getLast?_eq_syscall_cons hf, getLast?_eq_syscall_cons hg]
  | pop hf => exact (getLast?_eq_syscall_cons hf).symm

/-- A system call is the outermost frame. -/
theorem Stacked.eq_nil (h : Stacked (f :: fs)) (hf : ¬ Nested f) :
    fs = [] :=
  (Stacked.cons_iff.mp h).1.resolve_left hf

/-- The frames of one process are shifted. -/
theorem shift_update {frames : Slot → List Frame}
    (h : Shift (frames p) fs) (q : Slot) : Shift (frames q) (update frames p fs q) := by
  rcases eq_or_ne q p with rfl | hne
  · rw [update_self]
    exact h
  · rw [update_of_ne hne]
    exact .same

/-- The rest of `trap` shifts the frames. -/
theorem shift_goOn (hs : Stacked (m.frames p))
    (hok : Trap.goOn m p = some m') (q : Slot) : Shift (m.frames q) (m'.frames q) := by
  unfold Trap.goOn at hok
  split at hok
  · next fs hfs =>
    cases hok
    rw [hfs] at hs
    refine shift_update ?_ q
    rw [hfs]
    split_ifs
    · exact .swap (.inr (hs.eq_nil id)) (by simp) (by simp)
    · exact .pop (by simp)
  · next user timer fs hfs =>
    rw [hfs] at hs
    split at hok
    · next hexit =>
      cases hok
      refine shift_update ?_ q
      rw [hfs]
      -- the trap came from user mode
      have huser : user = true := by simpa using (Bool.and_eq_true_iff.mp hexit).2
      subst huser
      exact .swap (.inr (hs.eq_nil id)) (by simp) (by simp)
    · simp only [Option.some.injEq] at hok
      subst hok
      have hframes : (if timer = true then m.setState p .runnable else m).frames = m.frames := by
        cases timer <;> rfl
      show Shift _ (update (if timer = true then m.setState p .runnable else m).frames _ _ q)
      rw [hframes]
      refine shift_update ?_ q
      rw [hfs]
      refine .swap ?_ (by simp) (by simp)
      cases user with
      | true => exact .inr (hs.eq_nil id)
      | false => exact .inl trivial
  · next user fs hfs =>
    cases hok
    rw [hfs] at hs
    refine shift_update ?_ q
    rw [hfs]
    split_ifs with hexit
    · have huser : user = true := by simpa using (Bool.and_eq_true_iff.mp hexit).2
      subst huser
      exact .swap (.inr (hs.eq_nil id)) (by simp) (by simp)
    · exact .pop (by simp)
  · cases hok

/-- A system call is carried out, or goes to sleep in `wait`. -/
theorem shift_serve {frames : Slot → List Frame} {g : Frame}
    (hs : Stacked (frames p)) (hfs : frames p = f :: fs) (hf : ¬ Nested f) (hg : g ≠ .syscall)
    (q : Slot) : Shift (frames q) (update frames p (g :: fs) q) ∨
      some p = some q ∧ ∃ k, k ≠ .syscall ∧ update frames p (g :: fs) q = [k] := by
  rw [hfs] at hs
  obtain rfl := hs.eq_nil hf
  rcases eq_or_ne q p with rfl | hne
  · exact .inr ⟨rfl, g, hg, update_self ..⟩
  · rw [update_of_ne hne]
    exact .inl .same

/-- **What a step of the trap model does to the frames of a process**, system calls on entry apart:
it shifts them, carries out its system call, or starts it as a new process. -/
theorem shift_of_step {e : Trap.Event} (hs : ∀ q, Stacked (m.frames q))
    (hentry : ∀ p user, e ≠ .trap (some p) T_SYSCALL user) (hstep : Trap.Step m e m') (q : Slot) :
    Shift (m.frames q) (m'.frames q) ∨
      (server e = some q ∧ ∃ g, g ≠ .syscall ∧ m'.frames q = [g]) ∨
      (∃ p mem, e = .fork p mem (some q) ∧ m'.frames q = []) := by
  cases hstep with
  | @trap p trapno user _ hp huser hok =>
    have hne : trapno ≠ T_SYSCALL := fun h => hentry p user (by rw [h])
    have hpush : ∀ t, Nested (.handled user t) ∨ m.frames p = [] := by
      intro t
      cases user with
      | true => exact .inr (huser.mp rfl)
      | false => exact .inl trivial
    simp only [Trap.trap, if_neg hne] at hok
    split_ifs at hok
    · cases hok
      exact .inl (shift_update (.push (hpush _) (by simp)) q)
    · cases hok
      exact .inl (shift_update (.push (hpush _) (by simp)) q)
  | trapNoProc _ => exact .inl .same
  | @goOn p _ hp hok => exact .inl (shift_goOn (hs p) hok q)
  | @fork p mem fs hp hfs =>
    cases hfind : findUnused m.ptable.proc with
    | none =>
      have hframes : (Trap.sysFork m p mem fs).frames =
          update m.frames p (.sysret :: fs) := by simp only [Trap.sysFork, hfind]
      rw [hframes]
      exact (shift_serve (hs p) hfs id (g := .sysret) (by simp) q).imp_right .inl
    | some np =>
      have hframes : (Trap.sysFork m p mem fs).frames =
          update (update m.frames np []) p (.sysret :: fs) := by
        simp only [Trap.sysFork, hfind]
      have hne : p ≠ np := by
        rintro rfl
        have hun : (m.proc p).state = .unused := findUnused_spec hfind
        rw [hp] at hun
        cases hun
      have hfs' : update m.frames np [] p = .syscall :: fs := by
        rw [update_of_ne hne, hfs]
      rw [hframes]
      rcases eq_or_ne q np with rfl | hqn
      · refine .inr (.inr ⟨p, mem, rfl, ?_⟩)
        rw [update_of_ne hne.symm, update_self]
      · rcases shift_serve (by rw [hfs', ← hfs]; exact hs p) hfs' id (g := .sysret) (by simp) q with
          h | h
        · rw [update_of_ne hqn] at h
          exact .inl h
        · exact .inr (.inl h)
  | @wait p f fs hp hfs hf =>
    have hnested : ¬ Nested f := by
      rcases hf with rfl | rfl <;> exact id
    have hafter : Trap.afterWait (wait m.ptable p).1 ≠ .syscall := by
      cases (wait m.ptable p).1 <;> simp [Trap.afterWait]
    exact (shift_serve (hs p) hfs hnested hafter q).imp_right .inl
  | @kill p pid fs hp hfs =>
    exact (shift_serve (hs p) hfs id (g := .sysret) (by simp) q).imp_right .inl
  | @callExit p fs hp hfs =>
    exact (shift_serve (hs p) hfs id (g := .exiting) (by simp) q).imp_right .inl
  | @countTraps p fs hp hfs =>
    exact (shift_serve (hs p) hfs id (g := .sysret) (by simp) q).imp_right .inl
  | @other p fs hp hfs =>
    exact (shift_serve (hs p) hfs id (g := .sysret) (by simp) q).imp_right .inl
  | @exit p fs t hp hfs hok =>
    refine .inl (shift_update ?_ q)
    have hstack := hs p
    rw [hfs] at hstack ⊢
    obtain rfl := hstack.eq_nil id
    exact .pop (by simp)
  | sched _ => exact .inl .same
  | sleep _ _ => exact .inl .same
  | wakeup => exact .inl .same

/-! ### The fate of a slot

A step of the trap model starts a process in a slot, reaps the process in it, or keeps it. -/

/-- What a step keeps of a slot that it neither takes into use nor frees. -/
structure Kept (m m' : Machine) (e : Trap.Event) (q : Slot) : Prop where
  unused : (m'.proc q).state = .unused ↔ (m.proc q).state = .unused
  killed : (m.proc q).killed = true → (m'.proc q).killed = true
  starts : (Event.base e).starts q = false
  counts : ∀ counts, clearCounts m.ptable counts e q = counts q

theorem Kept.of_keeps {e : Trap.Event} (hkeeps : Trap.Keeps m.ptable m'.ptable)
    (hstarts : ∀ q, (Event.base e).starts q = false)
    (hcounts : ∀ counts, clearCounts m.ptable counts e = counts) (q : Slot) : Kept m m' e q :=
  ⟨(hkeeps q).1, (hkeeps q).2, hstarts q, fun counts => by rw [hcounts]⟩

/-- **The fate of a slot in a step.** -/
theorem fate_of_step {e : Trap.Event} (hstep : Trap.Step m e m') (q : Slot) :
    (∃ p mem, e = .fork p mem (some q) ∧ (m.proc q).state = .unused) ∨
      (∃ p, e = .wait p ∧ Trap.reaped m.ptable p = some q ∧ (m'.proc q).state = .unused) ∨
      Kept m m' e q := by
  -- All steps but `fork` and `wait` keep every slot.
  have hquiet : Trap.Keeps m.ptable m'.ptable → (∀ q, (Event.base e).starts q = false) →
      (∀ counts, clearCounts m.ptable counts e = counts) → Kept m m' e q :=
    fun h h' h'' => Kept.of_keeps h h' h'' q
  cases hstep with
  | @trap p trapno user _ hp huser hok =>
    refine .inr (.inr (hquiet ?_ (fun _ => rfl) fun _ => rfl))
    simp only [Trap.trap] at hok
    split at hok
    · cases hok
      exact Trap.Keeps.refl _
    · split_ifs at hok
      · cases hok
        exact Trap.Keeps.refl _
      · cases hok
        exact Trap.Keeps.set m.ptable p Iff.rfl fun _ => rfl
  | trapNoProc _ => exact .inr (.inr (hquiet (Trap.Keeps.refl _) (fun _ => rfl) fun _ => rfl))
  | @goOn p _ hp hok =>
    refine .inr (.inr (hquiet ?_ (fun _ => rfl) fun _ => rfl))
    unfold Trap.goOn at hok
    split at hok
    · cases hok
      exact Trap.Keeps.refl _
    · next user timer fs hfs =>
      split at hok
      · cases hok
        exact Trap.Keeps.refl _
      · simp only [Option.some.injEq] at hok
        subst hok
        cases timer with
        | true =>
          have hp' : (m.ptable.proc p).state = .running := hp
          exact Trap.Keeps.set m.ptable p (by simp [hp']) id
        | false => exact Trap.Keeps.refl _
    · cases hok
      exact Trap.Keeps.refl _
    · cases hok
  | @fork p mem fs hp hfs =>
    rcases Trap.fork_table m.ptable p mem with ⟨hnone, htable⟩ | ⟨np, hnp, htable⟩
    · refine .inr (.inr (hquiet ?_ (fun _ => by rw [hnone]; rfl) fun _ => rfl))
      rw [Trap.sysFork, htable]
      exact Trap.Keeps.refl _
    · rcases eq_or_ne q np with rfl | hne
      · exact .inl ⟨p, mem, by rw [hnp], findUnused_spec hnp⟩
      · have hproc : (Trap.sysFork m p mem fs).proc q = m.proc q := htable q hne
        refine .inr (.inr ⟨by rw [hproc], by rw [hproc]; exact id, ?_, fun _ => rfl⟩)
        simp [hnp, Event.starts, hne.symm]
  | @wait p f fs hp hfs hf =>
    rcases Trap.wait_table m.ptable p (Proc.used_of_running hp) with
      ⟨hnone, hkeeps⟩ | ⟨r, hr, hun, hsame⟩
    · exact .inr (.inr (hquiet hkeeps (fun _ => rfl) fun _ => by simp only [clearCounts, hnone]))
    · rcases eq_or_ne q r with rfl | hne
      · exact .inr (.inl ⟨p, rfl, hr, hun⟩)
      · have hq := hsame q hne
        refine .inr (.inr ⟨?_, ?_, rfl, fun _ => ?_⟩)
        · show ((wait m.ptable p).2.proc q).state = .unused ↔ (m.ptable.proc q).state = .unused
          rw [hq.1]
        · show (m.ptable.proc q).killed = true → ((wait m.ptable p).2.proc q).killed = true
          rw [hq.2]
          exact id
        · simp only [clearCounts, hr]
          exact update_of_ne hne ..
  | kill _ _ =>
    exact .inr (.inr (hquiet (Trap.keeps_kill _ _) (fun _ => rfl) fun _ => rfl))
  | callExit _ _ => exact .inr (.inr (hquiet (Trap.Keeps.refl _) (fun _ => rfl) fun _ => rfl))
  | countTraps _ _ => exact .inr (.inr (hquiet (Trap.Keeps.refl _) (fun _ => rfl) fun _ => rfl))
  | other _ _ => exact .inr (.inr (hquiet (Trap.Keeps.refl _) (fun _ => rfl) fun _ => rfl))
  | @exit p fs t hp hfs hok =>
    exact .inr (.inr (hquiet (Trap.keeps_exit (Proc.used_of_running hp) hok) (fun _ => rfl)
      fun _ => rfl))
  | @sched p hp =>
    have hp' : (m.ptable.proc p).state = .runnable := hp
    refine .inr (.inr (hquiet (Trap.Keeps.set m.ptable p ?_ id) (fun _ => rfl) fun _ => rfl))
    simp [hp']
  | @sleep p addr hp _ =>
    have hp' : (m.ptable.proc p).state = .running := hp
    refine .inr (.inr (hquiet (Trap.Keeps.set m.ptable p ?_ id) (fun _ => rfl) fun _ => rfl))
    simp [hp']
  | wakeup =>
    exact .inr (.inr (hquiet (Trap.keeps_wakeup _ _) (fun _ => rfl) fun _ => rfl))

/-! ### The invariant -/

theorem trapnos_eq_syscallClass {trapno : ℤ} :
    Trap.trapnos trapno = syscallClass ↔ trapno = T_SYSCALL := by
  constructor
  · intro h
    have hclass : (Trap.trapnos trapno).val = 21 := by rw [h]; rfl
    unfold Trap.trapnos at hclass
    split_ifs at hclass with h₁ h₂ h₃
    · have hval : trapno.toNat = 21 := hclass
      omega
    · exact absurd hclass (by decide)
    · exact h₃
    · exact absurd hclass (by decide)
  · rintro rfl
    rfl

/-- Only a system call on entry is counted in the class. -/
theorem taken_of_not_starts {e : Trap.Event} (hs : (Event.base e).starts q = false)
    (hentry : ∀ p user, e ≠ .trap (some p) T_SYSCALL user) (n : ℕ) :
    e.taken q syscallClass n = n := by
  cases e with
  | trap cur trapno user =>
    cases cur with
    | none => rfl
    | some p =>
      rw [Trap.Event.taken, if_neg]
      rintro ⟨-, hclass⟩
      exact hentry p user (by rw [trapnos_eq_syscallClass.mp hclass])
  | fork p mem np =>
    cases np with
    | none => rfl
    | some np =>
      rw [Trap.Event.taken, if_neg]
      rintro rfl
      exact absurd hs (by simp [Event.starts])
  | _ => rfl

/-- What holds of a process. The calls counted in the first table are those counted in the second
one, those refused, and the one on its way; and a process with a call that was cut off is in
none. -/
structure SlotInv (h : List Event) (s : State) (q : Slot) : Prop where
  counts : ∑ i, s.syscounts q (Fin.succ i) = BitVec.ofNat 32 (dispatched h q)
  total : taken (trapHistory h) q syscallClass =
    dispatched h q + refused h q + (s.window q).toNat
  window : s.window q = true → (s.machine.frames q).getLast? = some .syscall
  cut : 0 < cutOffs h q →
    (s.machine.proc q).killed = true ∧ (s.machine.frames q).getLast? ≠ some .syscall

structure Inv (h : List Event) (s : State) : Prop where
  base : Trap.Inv (trapHistory h) s.machine
  stacked : ∀ q, Stacked (s.machine.frames q)
  unused : ∀ q, (s.machine.proc q).state = .unused → ∀ i, s.syscounts q i = 0
  used : ∀ q, (s.machine.proc q).state ≠ .unused → SlotInv h s q

section Step

variable {h : List Event} {s s' : State} {e : Event} {te : Trap.Event}

/-- A new process has counters at zero, and has made no call. -/
theorem SlotInv.of_starts (hi : Inv h s) (hun : (s.machine.proc q).state = .unused)
    (hcounts : s'.syscounts q = s.syscounts q) (hstarts : e.starts q = true)
    (htaken : taken (trapHistory (h ++ [e])) q syscallClass = 0) (hwindow : s'.window q = false) :
    SlotInv (h ++ [e]) s' q where
  counts := by
    have hzero : ∀ i, s'.syscounts q i = 0 := fun i => by rw [hcounts, hi.unused q hun i]
    rw [dispatched, since_of_starts h _ hstarts, Finset.sum_eq_zero fun i _ => hzero _]
    rfl
  total := by
    rw [htaken, dispatched, refused, rejected, cutOffs, since_of_starts h _ hstarts,
      since_of_starts h _ hstarts, since_of_starts h _ hstarts, hwindow]
    rfl
  window hw := absurd hw (by simp [hwindow])
  cut hpos := by
    rw [cutOffs, since_of_starts h _ hstarts] at hpos
    exact absurd hpos (lt_irrefl 0)

/-- **A step of the trap model** that is not the entry of a system call. A call on its way may be
refused in it, and a call that is carried out is not on its way. -/
theorem Inv.of_trap (hi : Inv h s) (htrap : e.trapEvents = [te])
    (hentry : ∀ p user, te ≠ .trap (some p) T_SYSCALL user)
    (hstep : Trap.Step s.machine te s'.machine)
    (hcounts : s'.syscounts = clearCounts s.machine.ptable s.syscounts te)
    (hstarts : ∀ q, e.starts q = (Event.base te).starts q)
    (hdispatch : ∀ q, e.dispatches q = false) (hcutOff : ∀ q, e.cutsOff q = false)
    (hstarted : ∀ q, e.starts q = true → s'.window q = false)
    (hwindow : ∀ q, e.starts q = false →
      (e.rejects q).toNat + (s'.window q).toNat = (s.window q).toNat)
    (hserved : ∀ q, server te = some q → s'.window q = false) : Inv (h ++ [e]) s' where
  base := by
    rw [trapHistory_append, htrap]
    exact hi.base.step hstep
  stacked q := by
    rcases shift_of_step hi.stacked hentry hstep q with hshift | ⟨-, g, -, hg⟩ | ⟨p, mem, -, hnil⟩
    · exact hshift.stacked (hi.stacked q)
    · rw [hg]
      exact .singleton g
    · rw [hnil]
      exact .nil
  unused q hq i := by
    rw [hcounts]
    rcases fate_of_step hstep q with ⟨p, mem, rfl, hun⟩ | ⟨p, rfl, hr, -⟩ | hkept
    · exact hi.unused q hun i
    · simp only [clearCounts, hr, update_self]
      rfl
    · rw [hkept.counts]
      exact hi.unused q (hkept.unused.mp hq) i
  used q hq := by
    rcases fate_of_step hstep q with ⟨p, mem, rfl, hun⟩ | ⟨p, -, -, hun⟩ | hkept
    · have hq' : e.starts q = true := by
        rw [hstarts]
        simp [Event.starts]
      refine .of_starts hi hun ?_ hq' ?_ (hstarted q hq')
      · rw [hcounts]
        rfl
      · rw [trapHistory_append, htrap, Trap.taken_append]
        simp [Trap.Event.taken]
    · exact absurd hun hq
    · have hold := hi.used q (mt hkept.unused.mpr hq)
      have hnot : e.starts q = false := by rw [hstarts, hkept.starts]
      have hdispatched : dispatched (h ++ [e]) q = dispatched h q := by
        rw [dispatched, since_of_not_starts h _ hnot, hdispatch]
        rfl
      have hcutOffs : cutOffs (h ++ [e]) q = cutOffs h q := by
        rw [cutOffs, since_of_not_starts h _ hnot, hcutOff]
        rfl
      have hrejected : rejected (h ++ [e]) q = rejected h q + (e.rejects q).toNat :=
        since_of_not_starts h _ hnot
      -- A frame of a system call is left alone, unless the call is carried out.
      have hframe := shift_of_step hi.stacked hentry hstep q
      have hsame := hwindow q hnot
      refine ⟨?_, ?_, fun hw => ?_, fun hpos => ?_⟩
      · rw [hcounts, hkept.counts, hdispatched]
        exact hold.counts
      · have htotal := hold.total
        rw [trapHistory_append, htrap, Trap.taken_append, taken_of_not_starts hkept.starts hentry,
          refused, hdispatched, hrejected, hcutOffs]
        rw [refused] at htotal
        omega
      · have hw' : s.window q = true := by
          rw [hw] at hsame
          cases hold' : s.window q with
          | true => rfl
          | false =>
            rw [hold'] at hsame
            exact absurd hsame (by simp)
        rcases hframe with hshift | ⟨hserver, -⟩ | ⟨p, mem, rfl, -⟩
        · exact hshift.last.mpr (hold.window hw')
        · rw [hserved q hserver] at hw
          cases hw
        · exact absurd hkept.starts (by simp [Event.starts])
      · rw [hcutOffs] at hpos
        obtain ⟨hk, hf⟩ := hold.cut hpos
        refine ⟨hkept.killed hk, ?_⟩
        rcases hframe with hshift | ⟨-, g, hg, hgs⟩ | ⟨p, mem, rfl, -⟩
        · exact mt hshift.last.mp hf
        · rw [hgs]
          simp [hg]
        · exact absurd hkept.starts (by simp [Event.starts])

/-- What the entry of a system call does to the machine. -/
theorem trap_syscall (hstep : Trap.Step m (.trap (some p) T_SYSCALL true) m') :
    (m.proc p).state = .running ∧ m.frames p = [] ∧ (∀ q, m'.proc q = m.proc q) ∧
      m'.frames p = [if (m.proc p).killed = true then .exiting else .syscall] ∧
      ∀ q, q ≠ p → m'.frames q = m.frames q := by
  cases hstep with
  | trap hp huser hok =>
    have hnil : m.frames p = [] := huser.mp rfl
    simp only [Trap.trap, if_pos, Option.some.injEq] at hok
    subst hok
    refine ⟨hp, hnil, fun _ => rfl, ?_, fun q hne => Trap.setFrames_of_ne _ _ _ hne⟩
    rw [Trap.setFrames_self]
    exact congrArg _ hnil

/-- A process in user mode has no call on its way. -/
theorem Inv.window_eq_false (hi : Inv h s) (hp : (s.machine.proc p).state = .running)
    (hnil : s.machine.frames p = []) : s.window p = false := by
  have hused := Proc.used_of_running hp
  refine Bool.eq_false_iff.mpr fun hw => ?_
  have hlast := (hi.used p hused).window hw
  rw [hnil] at hlast
  cases hlast

/-- The entry of a system call: the call is counted in the first table, and goes on or is cut
off. -/
theorem Inv.of_entry (hi : Inv h s) (htrap : e.trapEvents = [.trap (some p) T_SYSCALL true])
    (hstep : Trap.Step s.machine (.trap (some p) T_SYSCALL true) s'.machine)
    (hcounts : s'.syscounts = s.syscounts) (hstarts : ∀ q, e.starts q = false)
    (hdispatch : ∀ q, e.dispatches q = false) (hreject : ∀ q, e.rejects q = false)
    (hcutOff : ∀ q, e.cutsOff q = (decide (q = p) && (s.machine.proc p).killed))
    (hother : ∀ q, q ≠ p → s'.window q = s.window q)
    (hself : s'.window p = !(s.machine.proc p).killed) : Inv (h ++ [e]) s' := by
  obtain ⟨hp, hnil, hproc, hframe, hframes⟩ := trap_syscall hstep
  have hdispatched : ∀ q, dispatched (h ++ [e]) q = dispatched h q := fun q => by
    rw [dispatched, since_of_not_starts h _ (hstarts q), hdispatch]
    rfl
  have hrejected : ∀ q, rejected (h ++ [e]) q = rejected h q := fun q => by
    rw [rejected, since_of_not_starts h _ (hstarts q), hreject]
    rfl
  have hcutOffs : ∀ q, cutOffs (h ++ [e]) q =
      cutOffs h q + (decide (q = p) && (s.machine.proc p).killed).toNat := fun q => by
    rw [cutOffs, since_of_not_starts h _ (hstarts q), hcutOff]
    rfl
  have htaken : ∀ q, taken (trapHistory (h ++ [e])) q syscallClass =
      taken (trapHistory h) q syscallClass + (decide (q = p)).toNat := fun q => by
    rw [trapHistory_append, htrap, Trap.taken_append, Trap.Event.taken]
    rcases eq_or_ne q p with rfl | hne
    · rw [if_pos ⟨rfl, rfl⟩]
      simp
    · rw [if_neg fun hq => hne hq.1.symm]
      simp [hne]
  refine ⟨?_, fun q => ?_, fun q hq i => ?_, fun q hq => ?_⟩
  · rw [trapHistory_append, htrap]
    exact hi.base.step hstep
  · rcases eq_or_ne q p with rfl | hne
    · rw [hframe]
      exact .singleton _
    · rw [hframes q hne]
      exact hi.stacked q
  · rw [hcounts]
    rw [hproc] at hq
    exact hi.unused q hq i
  · rw [hproc] at hq
    have hold := hi.used q hq
    have htotal := hold.total
    rw [refused] at htotal
    refine ⟨by rw [hcounts, hdispatched, hold.counts], ?_, fun hw => ?_, fun hpos => ?_⟩
    · rw [htaken, refused, hdispatched, hrejected, hcutOffs]
      rcases eq_or_ne q p with rfl | hne
      · rw [hi.window_eq_false hp hnil] at htotal
        rw [hself, htotal]
        cases (s.machine.proc q).killed with
        | true => simp [Nat.add_assoc]
        | false => simp
      · rw [hother q hne, htotal]
        simp [hne]
    · rcases eq_or_ne q p with rfl | hne
      · rw [hself, Bool.not_eq_true'] at hw
        rw [hframe, hw]
        rfl
      · rw [hframes q hne]
        exact hold.window (by rwa [hother q hne] at hw)
    · rw [hcutOffs] at hpos
      rw [hproc]
      rcases eq_or_ne q p with rfl | hne
      · have hkilled : (s.machine.proc q).killed = true := by
          by_contra hk
          rw [Bool.not_eq_true] at hk
          rw [hk] at hpos
          have hcut : (s.machine.proc q).killed = true := (hold.cut (by simpa using hpos)).1
          rw [hk] at hcut
          cases hcut
        rw [hframe, if_pos hkilled]
        exact ⟨hkilled, by simp⟩
      · rw [hframes q hne]
        exact hold.cut (by simpa [hne] using hpos)

/-- `++curproc->syscounts[num]` raises the sum by one. -/
theorem sum_count (hk : Known num) (q : Slot) :
    ∑ i, (s.count p hk).syscounts q (Fin.succ i) =
      ∑ i, s.syscounts q (Fin.succ i) + if q = p then 1 else 0 := by
  rcases eq_or_ne q p with rfl | hne
  · have hself : ∀ i, (s.count q hk).syscounts q i = update (s.syscounts q)
        (Fin.succ hk.index) (s.syscounts q (Fin.succ hk.index) + 1) i := fun i => by
      simp [State.count]
    have hsum := Table.sum_add_of_eq_off
      (g := fun i => (s.count q hk).syscounts q (Fin.succ i)) hk.index fun j hj => by
        rw [hself, update_of_ne fun h => hj (Fin.succ_injective _ h)]
    rw [hself, update_self] at hsum
    rw [if_pos rfl]
    refine add_right_cancel (b := s.syscounts q (Fin.succ hk.index)) (hsum.trans ?_)
    abel
  · simp [State.count, hne]

/-- **The dispatch** counts the call in the second table; it is no longer on its way. -/
theorem Inv.dispatch (hi : Inv h s) (hk : Known num)
    (hp : (s.machine.proc p).state = .running) (hcall : s.call p = some (num, false)) :
    Inv (h ++ [.dispatch p num]) (s.count p hk) := by
  have hwindow : s.window p = true := by simp [State.window, hcall]
  have hwindow' : (s.count p hk).window p = false := by simp [State.window, State.count]
  have hother : ∀ q, q ≠ p → (s.count p hk).window q = s.window q := fun q hne => by
    simp [State.window, State.count, hne]
  have hdispatched : ∀ q, dispatched (h ++ [.dispatch p num]) q =
      dispatched h q + (decide (p = q)).toNat := fun q => since_of_not_starts h _ rfl
  have hrejected : ∀ q, rejected (h ++ [.dispatch p num]) q = rejected h q :=
    fun q => since_of_not_starts h _ rfl
  have hcutOffs : ∀ q, cutOffs (h ++ [.dispatch p num]) q = cutOffs h q :=
    fun q => since_of_not_starts h _ rfl
  have htrap : trapHistory (h ++ [.dispatch p num]) = trapHistory h := by
    rw [trapHistory_append]
    exact List.append_nil _
  have hused := Proc.used_of_running hp
  refine ⟨?_, hi.stacked, fun q hq i => ?_, fun q hq => ?_⟩
  · rw [htrap]
    exact hi.base
  · have hne : q ≠ p := by
      rintro rfl
      exact hused hq
    simp only [State.count, update_of_ne hne]
    exact hi.unused q hq i
  · have hold := hi.used q hq
    have htotal := hold.total
    refine ⟨?_, ?_, fun hw => ?_, fun hpos => hold.cut (by rwa [hcutOffs] at hpos)⟩
    · rw [sum_count, hold.counts, hdispatched, BitVec.ofNat_add]
      rcases eq_or_ne q p with rfl | hne
      · simp
      · simp [hne, hne.symm]
    · rw [refused] at htotal
      rw [htrap, refused, hdispatched, hrejected, hcutOffs, htotal]
      rcases eq_or_ne q p with rfl | hne
      · rw [hwindow, hwindow']
        simp
        omega
      · rw [hother q hne]
        simp [hne.symm]
    · rcases eq_or_ne q p with rfl | hne
      · rw [hwindow'] at hw
        cases hw
      · exact hold.window (by rwa [hother q hne] at hw)

/-- **The invariant is kept by every step.** -/
theorem Inv.step (hi : Inv h s) (hstep : Step s e s') : Inv (h ++ [e]) s' := by
  cases hstep with
  | @cutOff p m hkilled hstep =>
    obtain ⟨hp, hnil, -⟩ := trap_syscall hstep
    refine hi.of_entry rfl hstep rfl (fun _ => rfl) (fun _ => rfl) (fun _ => rfl) (fun q => ?_)
      (fun _ _ => rfl) ?_
    · simp [Event.cutsOff, hkilled, eq_comm]
    · rw [hkilled]
      exact hi.window_eq_false hp hnil
  | @enter p num m hkilled hstep =>
    refine hi.of_entry rfl hstep rfl (fun _ => rfl) (fun _ => rfl) (fun _ => rfl) (fun q => ?_)
      (fun q hne => ?_) ?_
    · simp [Event.cutsOff, hkilled]
    · simp [State.window, hne]
    · simp [State.window, hkilled]
  | dispatch hk hp _ hcall => exact hi.dispatch hk hp hcall
  | @reject p num m _ hcall hstep =>
    have hwindow : ∀ q, (State.window ⟨m, s.syscounts, update s.call p none⟩ q) =
        (!decide (p = q) && s.window q) := fun q => by
      rcases eq_or_ne q p with rfl | hne
      · simp [State.window]
      · simp [State.window, hne, hne.symm]
    refine hi.of_trap rfl (by simp) hstep rfl (fun _ => rfl) (fun _ => rfl) (fun _ => rfl)
      (fun q hq => absurd hq (by simp [Event.starts])) (fun q _ => ?_) fun q hq => ?_
    · rw [hwindow, Event.rejects]
      rcases eq_or_ne p q with rfl | hne
      · simp [State.window, hcall]
      · simp [hne]
    · obtain rfl : p = q := Option.some.inj hq
      simp [hwindow]
  | @serve p num te m hserver hserves hcall hstep =>
    refine hi.of_trap rfl ?_ hstep rfl (fun _ => rfl) (fun _ => rfl) (fun _ => rfl)
      (fun q hq => ?_) (fun q hq => ?_) fun q hq => ?_
    · rintro r user rfl
      cases hserver
    · simp only [State.window, clearCall_of_starts s.call hq]
      rfl
    · simp only [State.window, clearCall_of_not_starts s.call hq]
      exact Nat.zero_add _
    · -- The call has been dispatched, so it is not on its way.
      obtain rfl : p = q := Option.some.inj (hserver.symm.trans hq)
      simp only [State.window]
      cases hs : (Event.base te).starts p with
      | true =>
        rw [clearCall_of_starts s.call hs]
        rfl
      | false =>
        rw [clearCall_of_not_starts s.call hs, hcall]
        rfl
  | @quiet te m hserver hentry hstep =>
    have hstarts : ∀ q, (Event.base te).starts q = false := fun q => by
      cases te with
      | fork _ _ _ => cases hserver
      | _ => rfl
    have hcounts : s.syscounts = clearCounts s.machine.ptable s.syscounts te := by
      cases te with
      | wait _ => cases hserver
      | _ => rfl
    refine hi.of_trap rfl hentry hstep hcounts (fun _ => rfl) (fun _ => rfl) (fun _ => rfl)
      (fun q hq => ?_) (fun _ _ => Nat.zero_add _) fun q hq => ?_
    · rw [hstarts] at hq
      cases hq
    · rw [hserver] at hq
      cases hq

end Step

/-! ### The results -/

theorem boot_inv : Inv [] boot where
  base := Trap.boot_inv
  stacked _ := .nil
  unused _ _ _ := rfl
  used _ _ := {
    counts := Finset.sum_const_zero
    total := rfl
    window := fun hw => by cases hw
    cut := fun hpos => absurd hpos (lt_irrefl 0) }

/-- The loop of `countSyscalls` adds up the counters. -/
theorem countSyscalls_eq_sum (s : State) (p : Slot) :
    countSyscalls s p = ∑ i, s.syscounts p (Fin.succ i) :=
  Table.foldl_add_ne_zero fun i => s.syscounts p (Fin.succ i)

/-- The process is in a system call with the number, after the dispatch. -/
structure InCall (s : State) (p : Slot) (num : ℤ) : Prop where
  used : (s.machine.proc p).state ≠ .unused
  call : s.call p = some (num, true)
  frame : (s.machine.frames p).getLast? = some .syscall

/-- The process enters a system call, or its slot is allocated for another one. -/
def Event.enters (q : Slot) : Event → Bool
  | .cutOff p => p = q
  | .enter p _ => p = q
  | e => e.starts q

theorem InCall.window {s : State} (h : InCall s p num) : s.window p = false := by
  simp [State.window, h.call]

/-- A process in a system call has had no call cut off. -/
theorem InCall.cutOffs_eq_zero {h : List Event} {s : State}
    (hcall : InCall s p num) (hi : SlotInv h s p) : cutOffs h p = 0 :=
  Nat.eq_zero_of_not_pos fun hpos => (hi.cut hpos).2 hcall.frame

theorem starts_of_not_enters {e : Event} (he : e.enters p = false) :
    e.starts p = false := by
  cases e <;> first | rfl | exact he

/-- A step with no entry of a system call counts none in the first table. -/
theorem taken_of_step {s s' : State} {e : Event} (hstep : Step s e s')
    (he : e.enters p = false) (h : List Event) :
    taken (trapHistory (h ++ [e])) p syscallClass = taken (trapHistory h) p syscallClass := by
  rw [trapHistory_append]
  have hentry : ∀ r, (decide (r = p)) = false →
      taken (trapHistory h ++ [.trap (some r) T_SYSCALL true]) p syscallClass =
        taken (trapHistory h) p syscallClass := fun r hr => by
    rw [Trap.taken_append, Trap.Event.taken, if_neg fun hq => of_decide_eq_false hr hq.1]
  cases hstep with
  | cutOff _ _ => exact hentry _ he
  | enter _ _ => exact hentry _ he
  | dispatch _ _ _ _ => exact congrArg (taken · p syscallClass) (List.append_nil _)
  | reject _ _ _ => exact Trap.taken_append ..
  | serve hserver _ _ _ =>
    rw [Event.trapEvents, Trap.taken_append]
    refine taken_of_not_starts (starts_of_not_enters he) ?_ _
    rintro r user rfl
    cases hserver
  | quiet _ hquiet _ =>
    rw [Event.trapEvents, Trap.taken_append]
    exact taken_of_not_starts (starts_of_not_enters he) hquiet _

/-- No system call is counted in the first table along a run in which none is entered. -/
theorem taken_append_of_run {s s' : State} {h' : List Event} (hrun : Run Step s h' s')
    (hh : ∀ e ∈ h', e.enters p = false) (h : List Event) :
    taken (trapHistory (h ++ h')) p syscallClass = taken (trapHistory h) p syscallClass := by
  refine hrun.invariant_history
    (J := fun h' _ => (∀ e ∈ h', e.enters p = false) →
      taken (trapHistory (h ++ h')) p syscallClass = taken (trapHistory h) p syscallClass)
    (fun h' _ e _ ih hstep hh => ?_) (fun _ => by rw [List.append_nil]) hh
  rw [← List.append_assoc, taken_of_step hstep (hh e (by simp)),
    ih fun e he => hh e (List.mem_append_left _ he)]

/-- **The two tables agree.** After every run, outside the way from `trap` to the dispatch, the
counters of a process differ by the calls that were refused for their number or cut off because the
process had been killed, modulo `2 ^ 32`. And when a process that has had no number refused executes
`sys_countTraps`, the total of `countSyscalls` is the counter of system calls that is printed later
in the same call. -/
theorem syscounts_agree {h : List Event} {s : State} (hrun : Run Step boot h s) :
    (∀ p, (s.machine.proc p).state ≠ .unused → s.window p = false →
      s.machine.trapcounts p syscallClass - ∑ i, s.syscounts p (Fin.succ i) =
        BitVec.ofNat 32 (refused h p)) ∧
    ∀ p h' s', Run Step s h' s' → (∀ e ∈ h', e.enters p = false) →
      InCall s p SYS_countTraps → InCall s' p SYS_countTraps → rejected h p = 0 →
      countSyscalls s p = s'.machine.trapcounts p syscallClass := by
  have hinv : ∀ {h s}, Run Step boot h s → Inv h s := fun hrun =>
    hrun.invariant_history (fun _ _ _ _ hi hstep => hi.step hstep) boot_inv
  have hi := hinv hrun
  constructor
  · intro p hused hwindow
    have hslot := hi.used p hused
    have htotal := hslot.total
    rw [hwindow, Bool.toNat_false, Nat.add_zero] at htotal
    rw [hslot.counts, hi.base.counts p hused, htotal, BitVec.ofNat_add]
    abel
  · intro p h' s' hrun' henters hcall hcall' hrejected
    have hi' := hinv (hrun.trans hrun')
    have hslot := hi.used p hcall.used
    have htotal := hslot.total
    rw [refused, hrejected, hcall.cutOffs_eq_zero hslot, hcall.window] at htotal
    rw [countSyscalls_eq_sum, hslot.counts, hi'.base.counts p hcall'.used,
      taken_append_of_run hrun' henters h, htotal]
    rfl

/-- The first process runs and calls `countTraps`: both tables have one system call. -/
theorem syscounts_agree_first_call :
    ∃ h s, Run Step boot h s ∧ h = [.base (.sched 0), .enter 0 SYS_countTraps,
        .dispatch 0 SYS_countTraps] ∧
      s.machine.trapcounts 0 syscallClass - ∑ i, s.syscounts 0 (Fin.succ i) = 0 ∧
      countSyscalls s 0 = s.machine.trapcounts 0 syscallClass ∧ countSyscalls s 0 = 1 := by
  have hsched : Trap.Step Trap.boot (.sched 0) (Trap.boot.setState 0 .running) := .sched (by decide)
  obtain ⟨m, hm, hfs, hstate⟩ : ∃ m,
      Trap.trap (Trap.boot.setState 0 .running) 0 T_SYSCALL true = some m ∧
      m.frames 0 = [.syscall] ∧ (m.proc 0).state = .running :=
    ⟨_, rfl, by decide, by decide⟩
  have hknown : Known SYS_countTraps := by decide
  have hused := Proc.used_of_running hstate
  obtain ⟨s, hrun, hin, hone⟩ : ∃ s, Run Step boot [.base (.sched 0), .enter 0 SYS_countTraps,
      .dispatch 0 SYS_countTraps] s ∧ InCall s 0 SYS_countTraps ∧ countSyscalls s 0 = 1 := by
    refine ⟨_, ((Run.single (Step.quiet (s := boot) rfl (by simp) hsched)).snoc
      (.enter (by decide) (.trap (p := 0) (by decide) (by decide) hm))).snoc
      (.dispatch hknown hstate hfs rfl), ⟨hused, rfl, congrArg List.getLast? hfs⟩, ?_⟩
    rw [countSyscalls_eq_sum, sum_count, if_pos rfl]
    simp [boot]
  obtain ⟨hdiff, hcall⟩ := syscounts_agree hrun
  exact ⟨_, s, hrun, rfl, hdiff 0 hin.used hin.window,
    hcall 0 [] s .nil (by simp) hin hin (by decide), hone⟩

end Xv6.Syscount
