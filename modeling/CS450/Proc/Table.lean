import CS450.Lib.Table

/-!
# The process table

The part of `struct proc` that `fork`, `exit`, `wait`, `sleep`, `wakeup` and `kill` work on, which
is the same in both kernels, and the scans of `proc.c` over the table. The memory of a process and
its counters are kept in separate tables by the modules that model them.
-/

namespace Xv6

open Function (update update_of_ne)

abbrev NPROC : ℕ := 64

instance : NeZero NPROC := ⟨by decide⟩

/-- An index into `ptable.proc`, which stands for the pointer to that entry. -/
abbrev Slot := Fin NPROC

/-- `enum procstate`. -/
inductive ProcState
  | unused
  | embryo
  | sleeping
  | runnable
  | running
  | zombie
  deriving DecidableEq, Repr

/-- What a process sleeps on: an entry of the process table, as in `wait`, or another address. -/
inductive Chan
  | proc (p : Slot)
  | other (addr : ℕ)
  deriving DecidableEq, Repr

/-- The scheduling part of `struct proc`; null pointers are `none`. -/
structure Proc where
  state : ProcState
  pid : ℤ
  parent : Option Slot
  chan : Option Chan
  killed : Bool
  deriving DecidableEq, Repr

/-- An entry of the zero-initialised table. -/
def Proc.zero : Proc := ⟨.unused, 0, none, none, false⟩

theorem Proc.used_of_running {p : Proc} (h : p.state = .running) : p.state ≠ .unused := by
  rw [h]
  decide

abbrev ProcTable := Slot → Proc

/-- `wakeup1`: every process sleeping on `chan` becomes runnable. -/
def wakeup1 (chan : Option Chan) (t : ProcTable) : ProcTable := fun i =>
  if (t i).state = .sleeping ∧ (t i).chan = chan then { t i with state := .runnable } else t i

/-- The loop of `exit`: the children of `cur` pass to `initproc`, which is woken for a zombie. -/
def exitLoop (cur initproc : Slot) : List Slot → ProcTable → ProcTable
  | [], t => t
  | p :: ps, t =>
    if (t p).parent = some cur then
      let t' := Function.update t p { t p with parent := some initproc }
      exitLoop cur initproc ps
        (if (t p).state = .zombie then wakeup1 (some (.proc initproc)) t' else t')
    else exitLoop cur initproc ps t

/-- The part of `exit` under `ptable.lock`, up to the call of `sched`. -/
def exitTable (cur initproc : Slot) (t : ProcTable) : ProcTable :=
  let t := wakeup1 ((t cur).parent.map .proc) t
  let t := exitLoop cur initproc (List.finRange NPROC) t
  Function.update t cur { t cur with state := .zombie }

/-- The scan of `allocproc`. -/
def findUnused (t : ProcTable) : Option Slot :=
  Table.firstIdx fun i => (t i).state == .unused

/-- The scan of `wait` for an exited child. -/
def findZombie (cur : Slot) (t : ProcTable) : Option Slot :=
  Table.firstIdx fun i => (t i).parent == some cur && (t i).state == .zombie

/-- The flag `havekids` of `wait`, after a scan that found no exited child. -/
def havekids (cur : Slot) (t : ProcTable) : Bool :=
  (Table.firstIdx fun i => (t i).parent == some cur).isSome

/-- The scan of `kill`. -/
def findPid (pid : ℤ) (t : ProcTable) : Option Slot := Table.firstIdx fun i => (t i).pid == pid

/-- The fields that `wait` clears in the entry of a reaped child. -/
def Proc.reaped (p : Proc) : Proc :=
  { p with pid := 0, parent := none, killed := false, state := .unused }

/-! ### Scans -/

theorem findUnused_spec {t : ProcTable} {i : Slot} (h : findUnused t = some i) :
    (t i).state = .unused := by
  simpa using Table.firstIdx_spec h

theorem findZombie_spec {cur i : Slot} {t : ProcTable} (h : findZombie cur t = some i) :
    (t i).parent = some cur ∧ (t i).state = .zombie := by
  simpa using Table.firstIdx_spec h

theorem findZombie_eq_none {cur : Slot} {t : ProcTable} (h : findZombie cur t = none) (i : Slot)
    (hp : (t i).parent = some cur) : (t i).state ≠ .zombie := by
  have hi := Table.firstIdx_eq_none.mp h i
  simpa [hp] using hi

/-! ### `wakeup1` -/

section Wakeup

variable (chan : Option Chan) (t : ProcTable) (i : Slot)

@[simp] theorem wakeup1_parent : (wakeup1 chan t i).parent = (t i).parent := by
  unfold wakeup1; split <;> rfl

@[simp] theorem wakeup1_pid : (wakeup1 chan t i).pid = (t i).pid := by
  unfold wakeup1; split <;> rfl

@[simp] theorem wakeup1_chan : (wakeup1 chan t i).chan = (t i).chan := by
  unfold wakeup1; split <;> rfl

@[simp] theorem wakeup1_killed : (wakeup1 chan t i).killed = (t i).killed := by
  unfold wakeup1; split <;> rfl

/-- A state changes only from sleeping to runnable. -/
theorem wakeup1_state :
    (wakeup1 chan t i).state = (t i).state ∨
      (t i).state = .sleeping ∧ (wakeup1 chan t i).state = .runnable := by
  unfold wakeup1
  split
  · next h => exact .inr ⟨h.1, rfl⟩
  · exact .inl rfl

/-- Whoever still sleeps slept before, and on something else. -/
theorem wakeup1_sleeping {chan : Option Chan} {t : ProcTable} {i : Slot}
    (h : (wakeup1 chan t i).state = .sleeping) : (t i).state = .sleeping ∧ (t i).chan ≠ chan := by
  unfold wakeup1 at h
  split at h
  · cases h
  · next hc => exact ⟨h, fun he => hc ⟨h, he⟩⟩

end Wakeup

/-! ### The loop of `exit` -/

section ExitLoop

variable {cur initproc : Slot}

/-- The table after one iteration of the loop that finds a child. -/
def adopt (initproc p : Slot) (t : ProcTable) : ProcTable :=
  let t' := Function.update t p { t p with parent := some initproc }
  if (t p).state = .zombie then wakeup1 (some (.proc initproc)) t' else t'

theorem exitLoop_cons (p : Slot) (ps : List Slot) (t : ProcTable) :
    exitLoop cur initproc (p :: ps) t =
      exitLoop cur initproc ps (if (t p).parent = some cur then adopt initproc p t else t) := by
  rw [exitLoop]
  split <;> rfl

theorem adopt_parent (initproc p : Slot) (t : ProcTable) (i : Slot) :
    (adopt initproc p t i).parent = if i = p then some initproc else (t i).parent := by
  unfold adopt
  by_cases hi : i = p
  · subst hi
    split <;> simp
  · split <;> simp [hi]

theorem adopt_state (initproc p : Slot) (t : ProcTable) (i : Slot) :
    (adopt initproc p t i).state = (t i).state ∨
      (t i).state = .sleeping ∧ (adopt initproc p t i).state = .runnable := by
  have hupd : ∀ j, (update t p { t p with parent := some initproc } j).state =
      (t j).state := by
    intro j
    rcases eq_or_ne j p with rfl | hj
    · simp
    · rw [update_of_ne hj]
  unfold adopt
  split
  · have h := wakeup1_state (some (.proc initproc))
      (update t p { t p with parent := some initproc }) i
    rwa [hupd i] at h
  · exact .inl (hupd i)

theorem adopt_rest (initproc p : Slot) (t : ProcTable) (i : Slot) :
    (adopt initproc p t i).pid = (t i).pid ∧ (adopt initproc p t i).chan = (t i).chan ∧
      (adopt initproc p t i).killed = (t i).killed := by
  unfold adopt
  rcases eq_or_ne i p with rfl | hi
  · split <;> simp
  · split <;> simp [update_of_ne hi]

/-- The loop changes neither pids, channels nor kill flags. -/
theorem exitLoop_rest :
    ∀ (ps : List Slot) (t : ProcTable) (i : Slot),
      (exitLoop cur initproc ps t i).pid = (t i).pid ∧
      (exitLoop cur initproc ps t i).chan = (t i).chan ∧
      (exitLoop cur initproc ps t i).killed = (t i).killed
  | [], _, _ => ⟨rfl, rfl, rfl⟩
  | p :: ps, t, i => by
    rw [exitLoop_cons]
    obtain ⟨h₁, h₂, h₃⟩ := exitLoop_rest ps
      (if (t p).parent = some cur then adopt initproc p t else t) i
    rw [h₁, h₂, h₃]
    split
    · exact adopt_rest initproc p t i
    · exact ⟨rfl, rfl, rfl⟩

/-- A state changes only from sleeping to runnable. -/
theorem exitLoop_state :
    ∀ (ps : List Slot) (t : ProcTable) (i : Slot),
      (exitLoop cur initproc ps t i).state = (t i).state ∨
        (t i).state = .sleeping ∧ (exitLoop cur initproc ps t i).state = .runnable
  | [], _, _ => .inl rfl
  | p :: ps, t, i => by
    rw [exitLoop_cons]
    split
    · rcases exitLoop_state ps (adopt initproc p t) i with h | h
      · rw [h]
        exact adopt_state initproc p t i
      · rcases adopt_state initproc p t i with h' | ⟨-, h'⟩
        · exact .inr ⟨h' ▸ h.1, h.2⟩
        · rw [h'] at h
          cases h.1
    · exact exitLoop_state ps t i

/-- Exactly the children of `cur` among `ps` get a new parent. -/
theorem exitLoop_parent (hne : cur ≠ initproc) :
    ∀ (ps : List Slot) (t : ProcTable) (i : Slot),
      (exitLoop cur initproc ps t i).parent =
        if i ∈ ps ∧ (t i).parent = some cur then some initproc else (t i).parent
  | [], _, _ => by simp [exitLoop]
  | p :: ps, t, i => by
    rw [exitLoop_cons, exitLoop_parent hne ps]
    by_cases hp : (t p).parent = some cur
    · rw [if_pos hp, adopt_parent]
      rcases eq_or_ne i p with rfl | hi
      · simp [hp, hne.symm]
      · simp [hi]
    · rw [if_neg hp]
      rcases eq_or_ne i p with rfl | hi
      · simp [hp]
      · simp [hi]

/-- If `cur` had a zombie child among `ps`, nobody sleeps on `initproc` after the loop. -/
theorem exitLoop_wakes :
    ∀ (ps : List Slot) (t : ProcTable) (i : Slot),
      (∃ p ∈ ps, (t p).parent = some cur ∧ (t p).state = .zombie) → ps.Nodup →
      (exitLoop cur initproc ps t i).state = .sleeping → (t i).chan ≠ some (.proc initproc)
  | [], _, _, h, _, _ => by simp at h
  | p :: ps, t, i, ⟨q, hq, hpar, hz⟩, hnd, hs => by
    rw [exitLoop_cons] at hs
    rw [List.nodup_cons] at hnd
    by_cases hp : (t p).parent = some cur
    · rw [if_pos hp] at hs
      rcases List.mem_cons.mp hq with rfl | hq
      · -- the zombie is this entry: the wakeup happens now
        rcases @exitLoop_state cur initproc ps (adopt initproc q t) i with h | ⟨-, h⟩
        · rw [h] at hs
          unfold adopt at hs
          rw [if_pos hz] at hs
          obtain ⟨-, hc⟩ := wakeup1_sleeping hs
          rcases eq_or_ne i q with rfl | hi
          · simpa using hc
          · rwa [update_of_ne hi] at hc
        · rw [h] at hs
          cases hs
      · have hqp : q ≠ p := fun he => hnd.1 (he ▸ hq)
        have hq' : (adopt initproc p t q).parent = some cur ∧
            (adopt initproc p t q).state = .zombie := by
          refine ⟨by rw [adopt_parent, if_neg hqp, hpar], ?_⟩
          rcases adopt_state initproc p t q with h | ⟨h, -⟩
          · rw [h, hz]
          · rw [hz] at h
            cases h
        have h := exitLoop_wakes ps _ i ⟨q, hq, hq'⟩ hnd.2 hs
        rwa [(adopt_rest initproc p t i).2.1] at h
    · rw [if_neg hp] at hs
      rcases List.mem_cons.mp hq with rfl | hq
      · exact absurd hpar hp
      · exact exitLoop_wakes ps t i ⟨q, hq, hpar, hz⟩ hnd.2 hs

/-- The children of the process that exits pass to `initproc`. -/
theorem exitTable_parent (hne : cur ≠ initproc) (t : ProcTable) (i : Slot) :
    (exitTable cur initproc t i).parent =
      if (t i).parent = some cur then some initproc else (t i).parent := by
  have hloop := exitLoop_parent hne (List.finRange NPROC) (wakeup1 ((t cur).parent.map .proc) t) i
  simp only [List.mem_finRange, true_and, wakeup1_parent] at hloop
  rw [← hloop]
  unfold exitTable
  rcases eq_or_ne i cur with rfl | hi
  · simp
  · simp [update_of_ne hi]

/-- The others keep their state, or are woken. -/
theorem exitTable_state (t : ProcTable) {i : Slot} (hi : i ≠ cur) :
    (exitTable cur initproc t i).state = (t i).state ∨
      (t i).state = .sleeping ∧ (exitTable cur initproc t i).state = .runnable := by
  have hloop := @exitLoop_state cur initproc (List.finRange NPROC)
    (wakeup1 ((t cur).parent.map .proc) t) i
  have hwake := wakeup1_state ((t cur).parent.map .proc) t i
  simp only [exitTable, update_of_ne hi]
  rcases hloop with h | ⟨h, h'⟩
  · rw [h]
    exact hwake
  · rcases hwake with hw | ⟨-, hw⟩
    · exact .inr ⟨hw ▸ h, h'⟩
    · rw [hw] at h
      cases h

/-- `exit` neither takes nor frees a slot. -/
theorem exitTable_unused {t : ProcTable} (hcur : (t cur).state ≠ .unused) (i : Slot) :
    (exitTable cur initproc t i).state = .unused ↔ (t i).state = .unused := by
  rcases eq_or_ne i cur with rfl | hi
  · simp [exitTable, hcur]
  · rcases @exitTable_state cur initproc t i hi with h | ⟨h, h'⟩
    · rw [h]
    · rw [h, h']
      simp

/-- Who still sleeps does not wait for the process that exits. -/
theorem exitTable_sleeping {t : ProcTable} {i : Slot} (hi : i ≠ cur)
    (hs : (exitTable cur initproc t i).state = .sleeping) :
    (t i).chan = (exitTable cur initproc t i).chan ∧ (t i).state = .sleeping ∧
      (t i).chan ≠ (t cur).parent.map .proc := by
  have hrest := (@exitLoop_rest cur initproc (List.finRange NPROC)
    (wakeup1 ((t cur).parent.map .proc) t) i).2.1
  simp only [exitTable, update_of_ne hi] at hs ⊢
  rcases @exitLoop_state cur initproc (List.finRange NPROC)
    (wakeup1 ((t cur).parent.map .proc) t) i with h | ⟨-, h⟩
  · rw [h] at hs
    obtain ⟨h₁, h₂⟩ := wakeup1_sleeping hs
    exact ⟨by rw [hrest, wakeup1_chan], h₁, h₂⟩
  · rw [h] at hs
    cases hs

/-- Nobody sleeps on `initproc` once it has inherited a zombie. -/
theorem exitTable_wakes {t : ProcTable} {i q : Slot} (hi : i ≠ cur)
    (hs : (exitTable cur initproc t i).state = .sleeping) (hq : (t q).parent = some cur)
    (hz : (t q).state = .zombie) : (t i).chan ≠ some (.proc initproc) := by
  simp only [exitTable, update_of_ne hi] at hs
  have hq' : (wakeup1 ((t cur).parent.map .proc) t q).state = .zombie := by
    rcases wakeup1_state ((t cur).parent.map .proc) t q with h | ⟨h, -⟩
    · rw [h, hz]
    · rw [hz] at h
      cases h
  have h := exitLoop_wakes _ _ i ⟨q, List.mem_finRange q, by simpa using hq, hq'⟩
    (List.nodup_finRange NPROC) hs
  rwa [wakeup1_chan] at h

/-- `exit` marks nobody. -/
theorem exitTable_killed (t : ProcTable) (i : Slot) :
    (exitTable cur initproc t i).killed = (t i).killed := by
  unfold exitTable
  have hloop := fun j => (@exitLoop_rest cur initproc (List.finRange NPROC)
    (wakeup1 ((t cur).parent.map .proc) t) j).2.2
  rcases eq_or_ne i cur with rfl | hi
  · simp [hloop]
  · simp [update_of_ne hi, hloop]

end ExitLoop

end Xv6
