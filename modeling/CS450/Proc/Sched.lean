import CS450.Lib.Run
import CS450.Proc.Table

/-!
# Processes, CPUs and `ptable.lock`

The process table of the two kernels under all interleavings: several CPUs, each in its
scheduler or running a process, and processes that fork, exit, wait, sleep, yield and are killed.

What the code does between `acquire(&ptable.lock)` and the next point where it gives the lock or
the CPU away is one step. `sched` does not release the lock: the process that goes to the scheduler
leaves it to the scheduler, which leaves it to the process it picks, which releases it where it
goes on, in `yield`, `sleep` or `forkret`, or scans again in `wait`. `fork` takes the lock twice and
works on its slot in between without it, so there other CPUs run in the middle of a call; the fields
it writes there, the state and the parent of an embryo, are not those other steps act on.

## Main results

* `TableInv.exitTable`: `exit` strands no zombie and misses no sleeping parent
* `Inv.step`, `no_stranded_zombie`: the invariant, and what it says in every state of every run
-/

namespace Xv6.Sched

open Function (update update_eq_self update_of_ne update_self)
open Transition

abbrev NCPU : ℕ := 8

/-- An index into `cpus`. -/
abbrev Cpu := Fin NCPU

/-- Where a process is in the kernel, as far as the process table goes. -/
inductive Pc
  /-- in user space, or in the kernel without `ptable.lock` -/
  | free
  /-- in `fork`, with the slot that `allocproc` took -/
  | forking (np : Slot)
  /-- in `fork`, after the parent of the new process was set -/
  | forked (np : Slot)
  /-- in the loop of `wait`, with `ptable.lock` -/
  | waiting
  /-- in `exit`, never to return -/
  | exited
  deriving DecidableEq, Repr

/-- Where a process in `sched` goes on once it is picked. -/
inductive Resume
  | forkret
  | yield
  | sleep
  | wait
  deriving DecidableEq, Repr

structure Machine where
  proc : ProcTable
  nextpid : ℤ
  initproc : Slot
  /-- the CPU that holds `ptable.lock` -/
  lock : Option Cpu
  /-- `c->proc` -/
  cur : Cpu → Option Slot
  pc : Slot → Pc
  /-- set while a process is in `sched`, or waits for its first schedule -/
  resume : Slot → Option Resume

namespace Machine

variable (k : Machine)

def setProc (p : Slot) (c : Proc) : Machine := { k with proc := Function.update k.proc p c }

def setPc (p : Slot) (pc : Pc) : Machine := { k with pc := Function.update k.pc p pc }

/-- `sched` of the process `p` on the CPU `c`: the scheduler goes on, with `ptable.lock`. -/
def sched (c : Cpu) (p : Slot) (r : Option Resume) : Machine :=
  { k with
    lock := some c
    cur := Function.update k.cur c none
    resume := Function.update k.resume p r }

/-! ### `scheduler` -/

/-- The scheduler switches to `p`. -/
def pick (c : Cpu) (p : Slot) : Machine :=
  { k.setProc p { k.proc p with state := .running } with
    cur := Function.update k.cur c (some p) }

/-- The process `p` goes on after `sched`, still with `ptable.lock`. -/
def goOn (p : Slot) (r : Resume) : Machine :=
  let k := { k with resume := Function.update k.resume p none }
  match r with
  | .forkret => { k with lock := none }
  | .yield => { k with lock := none }
  | .sleep => { k.setProc p { k.proc p with chan := none } with lock := none }
  | .wait => (k.setProc p { k.proc p with chan := none }).setPc p .waiting

/-! ### `fork` -/

/-- The critical section of `allocproc`. -/
def forkAlloc (p np : Slot) : Machine :=
  { (k.setProc np { k.proc np with state := .embryo, pid := k.nextpid }).setPc p (.forking np) with
    nextpid := (k.nextpid + 1).bmod (2 ^ 32) }

/-- `kalloc` or `copyuvm` failed: the slot is given back, without the lock. -/
def forkFail (p np : Slot) : Machine :=
  (k.setProc np { k.proc np with state := .unused }).setPc p .free

/-- `np->parent = curproc`, without the lock. -/
def forkParent (p np : Slot) : Machine :=
  (k.setProc np { k.proc np with parent := some p }).setPc p (.forked np)

/-- The new process becomes runnable; it will start in `forkret`. -/
def forkRun (p np : Slot) : Machine :=
  { ((k.setProc np { k.proc np with state := .runnable }).setPc p .free).setPc np .free with
    resume := Function.update k.resume np (some .forkret) }

/-! ### `exit`, `wait`, `sleep`, `yield`, `kill` -/

def exit (c : Cpu) (p : Slot) : Machine :=
  ({ k with proc := exitTable p k.initproc k.proc }.setPc p .exited).sched c p none

/-- `wait` has found an exited child. -/
def waitReap (p z : Slot) : Machine :=
  { (k.setProc z (k.proc z).reaped).setPc p .free with lock := none }

/-- `wait` returns `-1`. -/
def waitFail (p : Slot) : Machine := { k.setPc p .free with lock := none }

/-- `sleep(chan, lk)`, up to `sched`. -/
def sleep (c : Cpu) (p : Slot) (chan : Chan) (r : Resume) : Machine :=
  (k.setProc p { k.proc p with chan := some chan, state := .sleeping }).sched c p (some r)

def yield (c : Cpu) (p : Slot) : Machine :=
  (k.setProc p { k.proc p with state := .runnable }).sched c p (some .yield)

/-- `kill` marks the slot `p`, and wakes it if it sleeps. -/
def mark (p : Slot) : Machine :=
  k.setProc p { k.proc p with
    killed := true
    state := if (k.proc p).state = .sleeping then .runnable else (k.proc p).state }

/-- `kill`: its result, and the first slot with the pid is marked, whatever its state. -/
def kill (pid : ℤ) : ℤ × Machine :=
  match findPid pid k.proc with
  | none => (-1, k)
  | some p => (0, k.mark p)

end Machine

/-- The steps, named after the code that makes them. -/
inductive Event
  | acquire
  | pick (p : Slot)
  | release
  | resume
  | fork
  | forkFail
  | forkParent
  | forkRun
  | exit
  | waitEnter
  | waitScan
  | sleep (addr : ℕ)
  | yield
  | wakeup (chan : Chan)
  | kill (pid : ℤ)
  deriving DecidableEq, Repr

/-- The CPU `c` runs the code of `p`, which is not in `sched`. -/
def Runs (k : Machine) (c : Cpu) (p : Slot) : Prop := k.cur c = some p ∧ k.resume p = none

/-- The steps of the CPU `c`. A critical section starts with the lock free; in the scheduler and
where a process goes on, the CPU already has it. -/
inductive Step (k : Machine) : Cpu × Event → Machine → Prop
  | acquire {c} (hl : k.lock = none) (hc : k.cur c = none) :
      Step k (c, .acquire) { k with lock := some c }
  | pick {c p} (hl : k.lock = some c) (hc : k.cur c = none) (hp : (k.proc p).state = .runnable) :
      Step k (c, .pick p) (k.pick c p)
  | release {c} (hl : k.lock = some c) (hc : k.cur c = none) :
      Step k (c, .release) { k with lock := none }
  | resume {c p r} (hl : k.lock = some c) (hc : k.cur c = some p) (hr : k.resume p = some r) :
      Step k (c, .resume) (k.goOn p r)
  | forkNone {c p} (hl : k.lock = none) (hr : Runs k c p) (hpc : k.pc p = .free)
      (hf : findUnused k.proc = none) : Step k (c, .fork) k
  | forkAlloc {c p np} (hl : k.lock = none) (hr : Runs k c p) (hpc : k.pc p = .free)
      (hf : findUnused k.proc = some np) : Step k (c, .fork) (k.forkAlloc p np)
  | forkFail {c p np} (hr : Runs k c p) (hpc : k.pc p = .forking np) :
      Step k (c, .forkFail) (k.forkFail p np)
  | forkParent {c p np} (hr : Runs k c p) (hpc : k.pc p = .forking np) :
      Step k (c, .forkParent) (k.forkParent p np)
  | forkRun {c p np} (hl : k.lock = none) (hr : Runs k c p) (hpc : k.pc p = .forked np) :
      Step k (c, .forkRun) (k.forkRun p np)
  | exit {c p} (hl : k.lock = none) (hr : Runs k c p) (hpc : k.pc p = .free)
      (hi : p ≠ k.initproc) : Step k (c, .exit) (k.exit c p)
  | waitEnter {c p} (hl : k.lock = none) (hr : Runs k c p) (hpc : k.pc p = .free) :
      Step k (c, .waitEnter) { k.setPc p .waiting with lock := some c }
  | waitReap {c p z} (hl : k.lock = some c) (hr : Runs k c p) (hpc : k.pc p = .waiting)
      (hf : findZombie p k.proc = some z) : Step k (c, .waitScan) (k.waitReap p z)
  | waitFail {c p} (hl : k.lock = some c) (hr : Runs k c p) (hpc : k.pc p = .waiting)
      (hf : findZombie p k.proc = none) (hk : havekids p k.proc = false ∨
        (k.proc p).killed = true) :
      Step k (c, .waitScan) (k.waitFail p)
  | waitSleep {c p} (hl : k.lock = some c) (hr : Runs k c p) (hpc : k.pc p = .waiting)
      (hf : findZombie p k.proc = none) (hk : havekids p k.proc = true)
      (hnk : (k.proc p).killed = false) :
      Step k (c, .waitScan) (k.sleep c p (.proc p) .wait)
  | sleep {c p addr} (hl : k.lock = none) (hr : Runs k c p) (hpc : k.pc p ≠ .waiting) :
      Step k (c, .sleep addr) (k.sleep c p (.other addr) .sleep)
  | yield {c p} (hl : k.lock = none) (hr : Runs k c p) (hpc : k.pc p ≠ .waiting) :
      Step k (c, .yield) (k.yield c p)
  | wakeup {c chan} (hl : k.lock = none) :
      Step k (c, .wakeup chan) { k with proc := wakeup1 (some chan) k.proc }
  | kill {c p pid} (hl : k.lock = none) (hr : Runs k c p) (hpc : k.pc p = .free) :
      Step k (c, .kill pid) (k.kill pid).2

/-- The machine when the CPUs enter their schedulers: `userinit` has made the first process. -/
def boot : Machine where
  proc := Function.update (fun _ => .zero) 0 { Proc.zero with state := .runnable, pid := 1 }
  nextpid := 2
  initproc := 0
  lock := none
  cur _ := none
  pc _ := .free
  resume := Function.update (fun _ => none) 0 (some .forkret)

/-! ### The table -/

/-- The states of a process that can still do something. -/
def Live (s : ProcState) : Prop := s = .sleeping ∨ s = .runnable ∨ s = .running

/-- The states of a process that has to have a parent. -/
def Active (s : ProcState) : Prop := Live s ∨ s = .zombie

/-- The invariant of the table: the first process is live and has no parent, every other process
has a live parent different from itself, and nobody sleeps in `wait` with an exited child. -/
structure TableInv (initproc : Slot) (t : ProcTable) : Prop where
  init : Live (t initproc).state
  orphan : (t initproc).parent = none
  parent : ∀ p, p ≠ initproc → Active (t p).state →
    ∃ q, (t p).parent = some q ∧ q ≠ p ∧ Live (t q).state
  sleeper : ∀ p q, (t p).state = .sleeping → (t p).chan = some (.proc p) →
    (t q).parent = some p → (t q).state ≠ .zombie

variable {initproc np : Slot} {t : ProcTable} {d : Proc}

/-- What most steps do to the table: nobody live dies, a process that comes to need a parent has a
live one, no zombie appears, and who falls asleep in `wait` has no exited child. -/
theorem TableInv.of_change {t' : ProcTable} (h : TableInv initproc t)
    (hlive : ∀ i, Live (t i).state → Live (t' i).state)
    (horphan : (t' initproc).parent = (t initproc).parent)
    (hactive : ∀ i, i ≠ initproc → Active (t' i).state →
      Active (t i).state ∧ (t' i).parent = (t i).parent ∨
        ∃ q, (t' i).parent = some q ∧ q ≠ i ∧ Live (t' q).state)
    (hzombie : ∀ i, (t' i).state = .zombie →
      (t i).state = .zombie ∧ (t' i).parent = (t i).parent)
    (hsleep : ∀ i, (t' i).state = .sleeping → (t' i).chan = some (.proc i) →
      (t i).state = .sleeping ∧ (t i).chan = some (.proc i) ∨
        ∀ q, (t' q).parent = some i → (t' q).state ≠ .zombie) : TableInv initproc t' where
  init := hlive _ h.init
  orphan := horphan.trans h.orphan
  parent p hp ha := by
    rcases hactive p hp ha with ⟨ha', hpar⟩ | hnew
    · obtain ⟨q, hq, hne, hl⟩ := h.parent p hp ha'
      exact ⟨q, hpar.trans hq, hne, hlive q hl⟩
    · exact hnew
  sleeper p q hs hc hq hz := by
    rcases hsleep p hs hc with ⟨hs', hc'⟩ | hnone
    · obtain ⟨hz', hpar⟩ := hzombie q hz
      exact h.sleeper p q hs' hc' (hpar.symm.trans hq) hz'
    · exact hnone q hq hz

/-- **`exit` strands nobody**: the children have a live parent again before the process becomes a
zombie, and neither its parent nor `initproc` sleeps through a zombie it now has. -/
theorem TableInv.exitTable {cur : Slot} (h : TableInv initproc t)
    (hne : cur ≠ initproc) (hcur : (t cur).state = .running) :
    TableInv initproc (Xv6.exitTable cur initproc t) := by
  have hlive : ∀ i, i ≠ cur → Live (t i).state → Live (Xv6.exitTable cur initproc t i).state := by
    intro i hi hl
    rcases @exitTable_state cur initproc t i hi with hs | ⟨-, hs⟩
    · rwa [hs]
    · exact .inr (.inl hs)
  have hactive : ∀ i, Active (Xv6.exitTable cur initproc t i).state → Active (t i).state := by
    intro i ha
    rcases eq_or_ne i cur with rfl | hi
    · exact .inl (.inr (.inr hcur))
    · rcases @exitTable_state cur initproc t i hi with hs | ⟨hs, -⟩
      · rwa [hs] at ha
      · exact .inl (.inl hs)
  refine ⟨hlive _ hne.symm h.init, ?_, fun p hp ha => ?_, fun p q hs hc hq hz => ?_⟩
  · rw [exitTable_parent hne, if_neg (by rw [h.orphan]; nofun), h.orphan]
  · -- A child of the process that exits passes to `initproc`; the others keep their parent.
    obtain ⟨q, hq, hqp, hl⟩ := h.parent p hp (hactive p ha)
    rw [exitTable_parent hne]
    by_cases hqc : q = cur
    · rw [if_pos (by rw [hq, hqc])]
      exact ⟨initproc, rfl, hp.symm, hlive _ hne.symm h.init⟩
    · rw [if_neg (by rw [hq]; simpa using hqc)]
      exact ⟨q, hq, hqp, hlive q hqc hl⟩
  · have hpc : p ≠ cur := by
      rintro rfl
      simp [Xv6.exitTable] at hs
    obtain ⟨hchan, hs', hwoken⟩ := exitTable_sleeping hpc hs
    rw [← hchan] at hc
    rw [exitTable_parent hne] at hq
    rcases eq_or_ne q cur with rfl | hqc
    · -- The zombie is the process that exits: its parent was woken first.
      obtain ⟨r, hr, hrq, -⟩ := h.parent q hne (.inl (.inr (.inr hcur)))
      rw [hr, if_neg (by simpa using hrq)] at hq
      rw [hr, Option.map_some, Option.some.inj hq] at hwoken
      exact hwoken hc
    · have hz' : (t q).state = .zombie := by
        rcases @exitTable_state cur initproc t q hqc with hq' | ⟨-, hq'⟩
        · rwa [hq'] at hz
        · rw [hq'] at hz
          cases hz
      by_cases hpar : (t q).parent = some cur
      · -- The zombie is inherited: `initproc` was woken for it.
        rw [if_pos hpar] at hq
        obtain rfl := Option.some.inj hq
        exact exitTable_wakes hpc hs hpar hz' hc
      · rw [if_neg hpar] at hq
        exact h.sleeper p q hs' hc hq hz'

/-! ### The machine -/

/-- The process is in `fork` and works on the slot `np`. -/
def Pc.Forks (pc : Pc) (np : Slot) : Prop := pc = .forking np ∨ pc = .forked np

/-- The invariant of the machine: that of the table; a CPU's process is running, and on one CPU
only; the slot a process forks into is an embryo of its own, with the process as parent once that
is set. -/
structure Inv (k : Machine) : Prop where
  table : TableInv k.initproc k.proc
  running : ∀ c p, k.cur c = some p → (k.proc p).state = .running
  single : ∀ c c' p, k.cur c = some p → k.cur c' = some p → c = c'
  embryo : ∀ p np, (k.pc p).Forks np → (k.proc np).state = .embryo
  forked : ∀ p np, k.pc p = .forked np → (k.proc np).parent = some p
  own : ∀ p q np, (k.pc p).Forks np → (k.pc q).Forks np → p = q

section Steps

variable {k k' : Machine} {c : Cpu} {p : Slot}

/-- What most steps do to the machine: no CPU gets a process, and no process starts to fork. -/
theorem Inv.of_change (h : Inv k) (htable : TableInv k'.initproc k'.proc)
    (hcur : ∀ c p, k'.cur c = some p → k.cur c = some p ∧ (k'.proc p).state = .running)
    (hpc : ∀ p np, (k'.pc p).Forks np → (k.pc p).Forks np ∧ (k'.proc np).state = .embryo)
    (hpar : ∀ p np, k'.pc p = .forked np → (k'.proc np).parent = some p) : Inv k' where
  table := htable
  running c p hc := (hcur c p hc).2
  single c c' p hc hc' := h.single c c' p (hcur c p hc).1 (hcur c' p hc').1
  embryo p np hf := (hpc p np hf).2
  forked := hpar
  own p q np hp hq := h.own p q np (hpc p np hp).1 (hpc q np hq).1

/-- The table changes in the slot `p` only, which keeps its parent and stays live or dead, and
which does not come to sleep in `wait`. -/
theorem TableInv.set_state (h : TableInv initproc t) {p : Slot}
    {c : Proc} (hpar : c.parent = (t p).parent) (hlive : Live (t p).state → Live c.state)
    (hactive : Active c.state → Active (t p).state)
    (hzombie : c.state = .zombie → (t p).state = .zombie)
    (hsleep : c.state = .sleeping → c.chan = some (.proc p) →
      (t p).state = .sleeping ∧ (t p).chan = some (.proc p)) :
    TableInv initproc (update t p c) := by
  have hparent : ∀ i, (update t p c i).parent = (t i).parent := by
    intro i
    rcases eq_or_ne i p with rfl | hi
    · rw [update_self, hpar]
    · rw [update_of_ne hi]
  refine h.of_change (fun i hl => ?_) (hparent _) (fun i _ ha => .inl ⟨?_, hparent i⟩)
    (fun i hz => ⟨?_, hparent i⟩) (fun i hs hc => .inl ?_)
  all_goals rcases eq_or_ne i p with rfl | hi
  all_goals first
    | rw [update_self] at *
    | rw [update_of_ne hi] at *
  · exact hlive hl
  · exact hl
  · exact hactive ha
  · exact ha
  · exact hzombie hz
  · exact hz
  · exact hsleep hs hc
  · exact ⟨hs, hc⟩

/-- A step that changes one slot, which stays an embryo with the same parent if it is one. -/
theorem Inv.set_slot (h : Inv k) {i : Slot} (hproc : k'.proc = update k.proc i d)
    (htable : TableInv k'.initproc (update k.proc i d))
    (hemb : (k.proc i).state = .embryo → d.state = .embryo ∧ d.parent = (k.proc i).parent)
    (hcur : ∀ c p, k'.cur c = some p → k.cur c = some p ∧ (p = i → d.state = .running))
    (hpc : ∀ p np, (k'.pc p).Forks np → k'.pc p = k.pc p) : Inv k' := by
  refine h.of_change (by rw [hproc]; exact htable) (fun c p hc => ?_) (fun p np hf => ?_)
    (fun p np hf => ?_)
  · obtain ⟨hc', hi⟩ := hcur c p hc
    refine ⟨hc', ?_⟩
    rw [hproc]
    rcases eq_or_ne p i with rfl | hne
    · rw [update_self]
      exact hi rfl
    · rw [update_of_ne hne]
      exact h.running c p hc'
  · have hf' := hf
    rw [hpc p np hf] at hf'
    refine ⟨hf', ?_⟩
    rw [hproc]
    rcases eq_or_ne np i with rfl | hne
    · rw [update_self]
      exact (hemb (h.embryo p np hf')).1
    · rw [update_of_ne hne]
      exact h.embryo p np hf'
  · have hf' := hf
    rw [hpc p np (.inr hf)] at hf'
    rw [hproc]
    rcases eq_or_ne np i with rfl | hne
    · rw [update_self, (hemb (h.embryo p np (.inr hf'))).2]
      exact h.forked p np hf'
    · rw [update_of_ne hne]
      exact h.forked p np hf'

/-- A step that leaves the table alone. -/
theorem Inv.of_proc_eq (h : Inv k) (hproc : k'.proc = k.proc) (hinit : k'.initproc = k.initproc)
    (hcur : k'.cur = k.cur) (hpc : ∀ p np, (k'.pc p).Forks np → k'.pc p = k.pc p) : Inv k' := by
  apply h.set_slot (i := k.initproc) (d := k.proc k.initproc)
  · rw [hproc, update_eq_self]
  · rw [update_eq_self, hinit]
    exact h.table
  · exact fun he => ⟨he, rfl⟩
  · intro c p hc
    rw [hcur] at hc
    exact ⟨hc, fun hi => hi ▸ h.running c p hc⟩
  · exact hpc

/-- A process that starts nothing keeps the others in their forks. -/
theorem setPc_forks {pc : Pc} (hno : ∀ np, ¬ pc.Forks np) (p q np : Slot)
    (hf : (update k.pc p pc q).Forks np) : update k.pc p pc q = k.pc q := by
  rcases eq_or_ne q p with rfl | hq
  · rw [update_self] at hf
    exact absurd hf (hno np)
  · rw [update_of_ne hq]

/-- The process of a CPU that goes to the scheduler is gone from it. -/
theorem cur_of_sched (h : Inv k) (hc : k.cur c = some p) {c' : Cpu} {q : Slot}
    (hq : update k.cur c none c' = some q) : k.cur c' = some q ∧ q ≠ p := by
  rcases eq_or_ne c' c with rfl | hne
  · rw [update_self] at hq
    cases hq
  · rw [update_of_ne hne] at hq
    refine ⟨hq, ?_⟩
    rintro rfl
    exact hne (h.single c' c q hq hc)

theorem not_forks_free (np : Slot) : ¬ Pc.free.Forks np := by
  rintro (h | h) <;> cases h

theorem not_forks_waiting (np : Slot) : ¬ Pc.waiting.Forks np := by
  rintro (h | h) <;> cases h

theorem not_forks_exited (np : Slot) : ¬ Pc.exited.Forks np := by
  rintro (h | h) <;> cases h

/-! ### The scheduler -/

theorem Inv.pick (h : Inv k) (hc : k.cur c = none) (hp : (k.proc p).state = .runnable) :
    Inv (k.pick c p) := by
  have htable : TableInv k.initproc
      (update k.proc p { k.proc p with state := .running }) := by
    refine h.table.set_state rfl (fun _ => ?_) (fun _ => ?_) nofun nofun
    · exact .inr (.inr rfl)
    · exact .inl (.inr (.inl hp))
  -- a process that another CPU runs is running, so it is not the one picked
  have hother : ∀ c' q, update k.cur c (some p) c' = some q →
      c' = c ∧ q = p ∨ c' ≠ c ∧ k.cur c' = some q ∧ q ≠ p := by
    intro c' q hq
    rcases eq_or_ne c' c with rfl | hne
    · rw [update_self] at hq
      exact .inl ⟨rfl, (Option.some.inj hq).symm⟩
    · rw [update_of_ne hne] at hq
      refine .inr ⟨hne, hq, ?_⟩
      rintro rfl
      rw [h.running c' q hq] at hp
      cases hp
  have hslot : ∀ np, (k.proc np).state = .embryo → (k.pick c p).proc np = k.proc np := by
    intro np hnp
    refine update_of_ne ?_ _ _
    rintro rfl
    rw [hnp] at hp
    cases hp
  refine ⟨htable, fun c' q hq => ?_, fun c₁ c₂ q h₁ h₂ => ?_, fun q np hf => ?_,
    fun q np hf => ?_, h.own⟩
  · rcases hother c' q hq with ⟨-, rfl⟩ | ⟨-, hq', hqp⟩
    · simp [Machine.pick, Machine.setProc]
    · simp only [Machine.pick, Machine.setProc, update_of_ne hqp]
      exact h.running c' q hq'
  · rcases hother c₁ q h₁ with ⟨rfl, rfl⟩ | ⟨-, h₁', hne₁⟩
    · rcases hother c₂ q h₂ with ⟨rfl, -⟩ | ⟨-, -, hne₂⟩
      · rfl
      · exact absurd rfl hne₂
    · rcases hother c₂ q h₂ with ⟨-, rfl⟩ | ⟨-, h₂', -⟩
      · exact absurd rfl hne₁
      · exact h.single c₁ c₂ q h₁' h₂'
  · rw [hslot np (h.embryo q np hf)]
    exact h.embryo q np hf
  · rw [hslot np (h.embryo q np (.inr hf))]
    exact h.forked q np hf

/-- A running process clears its channel. -/
theorem TableInv.clear_chan (h : TableInv initproc t) {p : Slot} (hp : (t p).state = .running) :
    TableInv initproc (update t p { t p with chan := none }) :=
  h.set_state rfl id id id fun hs => by rw [hp] at hs; cases hs

theorem Inv.goOn (h : Inv k) (hc : k.cur c = some p) (r : Resume) : Inv (k.goOn p r) := by
  have hp := h.running c p hc
  have hemb : (k.proc p).state = .embryo → ({ k.proc p with chan := none } : Proc).state = .embryo ∧
      ({ k.proc p with chan := none } : Proc).parent = (k.proc p).parent := fun he => ⟨he, rfl⟩
  have hcur : ∀ c' q, k.cur c' = some q → k.cur c' = some q ∧
      (q = p → ({ k.proc p with chan := none } : Proc).state = .running) :=
    fun _ _ hq => ⟨hq, fun _ => hp⟩
  cases r with
  | forkret => exact h.of_proc_eq rfl rfl rfl fun _ _ _ => rfl
  | yield => exact h.of_proc_eq rfl rfl rfl fun _ _ _ => rfl
  | sleep => exact h.set_slot rfl (h.table.clear_chan hp) hemb hcur fun _ _ _ => rfl
  | wait => exact h.set_slot rfl (h.table.clear_chan hp) hemb hcur (setPc_forks not_forks_waiting p)

/-! ### `fork` -/

theorem Inv.forkAlloc (h : Inv k) (hc : k.cur c = some p)
    (hun : (k.proc np).state = .unused) : Inv (k.forkAlloc p np) := by
  have hslot : ∀ i, (k.proc i).state ≠ .unused → (k.forkAlloc p np).proc i = k.proc i := by
    intro i hi
    refine update_of_ne ?_ _ _
    rintro rfl
    exact hi hun
  have htable : TableInv k.initproc (update k.proc np
      { k.proc np with state := .embryo, pid := k.nextpid }) := by
    refine h.table.set_state rfl (fun hl => ?_) (fun ha => ?_) nofun nofun
    · rw [hun] at hl
      rcases hl with hl | hl | hl <;> cases hl
    · rcases ha with (ha | ha | ha) | ha <;> cases ha
  -- the slot was unused, so nobody else forks into it
  have hforks : ∀ q i, ((k.forkAlloc p np).pc q).Forks i →
      q = p ∧ i = np ∨ q ≠ p ∧ (k.pc q).Forks i ∧ i ≠ np := by
    intro q i hf
    simp only [Machine.forkAlloc, Machine.setPc, Machine.setProc] at hf
    rcases eq_or_ne q p with rfl | hq
    · rw [update_self] at hf
      rcases hf with hf | hf
      · exact .inl ⟨rfl, (Pc.forking.inj hf).symm⟩
      · cases hf
    · rw [update_of_ne hq] at hf
      refine .inr ⟨hq, hf, ?_⟩
      rintro rfl
      rw [h.embryo q i hf] at hun
      cases hun
  refine ⟨htable, fun c' q hq => ?_, h.single, fun q i hf => ?_, fun q i hf => ?_,
    fun q q' i hf hf' => ?_⟩
  · have hrun := h.running c' q hq
    rw [hslot q (by rw [hrun]; nofun)]
    exact hrun
  · rcases hforks q i hf with ⟨-, rfl⟩ | ⟨-, hf', -⟩
    · simp [Machine.forkAlloc, Machine.setPc, Machine.setProc]
    · rw [hslot i (by rw [h.embryo q i hf']; nofun)]
      exact h.embryo q i hf'
  · rcases hforks q i (.inr hf) with ⟨rfl, rfl⟩ | ⟨hq, hf', -⟩
    · simp [Machine.forkAlloc, Machine.setPc] at hf
    · have hold : k.pc q = .forked i := by
        simpa [Machine.forkAlloc, Machine.setPc, Machine.setProc, update_of_ne hq] using hf
      rw [hslot i (by rw [h.embryo q i hf']; nofun)]
      exact h.forked q i hold
  · rcases hforks q i hf with ⟨rfl, rfl⟩ | ⟨-, h₁, hne⟩
    · rcases hforks q' i hf' with ⟨rfl, -⟩ | ⟨-, -, hne⟩
      · rfl
      · exact absurd rfl hne
    · rcases hforks q' i hf' with ⟨-, rfl⟩ | ⟨-, h₂, -⟩
      · exact absurd rfl hne
      · exact h.own q q' i h₁ h₂

/-- The last part of `fork` on the slot `np`: the process leaves the fork, and the others are in
forks of other slots. -/
theorem Inv.leave_fork (h : Inv k) (hf : (k.pc p).Forks np)
    (hproc : k'.proc = update k.proc np d)
    (htable : TableInv k'.initproc (update k.proc np d)) (hcur : k'.cur = k.cur)
    (hpc : ∀ q i, (k'.pc q).Forks i → q ≠ p ∧ k'.pc q = k.pc q) : Inv k' := by
  have hother : ∀ q i, (k'.pc q).Forks i → (k.pc q).Forks i ∧ i ≠ np := by
    intro q i hq
    obtain ⟨hne, he⟩ := hpc q i hq
    rw [he] at hq
    refine ⟨hq, ?_⟩
    rintro rfl
    exact hne (h.own q p i hq hf)
  refine h.of_change (by rw [hproc]; exact htable) (fun c q hc => ?_) (fun q i hq => ?_)
    (fun q i hq => ?_)
  · rw [hcur] at hc
    have hrun := h.running c q hc
    refine ⟨hc, ?_⟩
    rw [hproc, update_of_ne]
    · exact hrun
    · rintro rfl
      rw [h.embryo p q hf] at hrun
      cases hrun
  · obtain ⟨hq', hi⟩ := hother q i hq
    refine ⟨hq', ?_⟩
    rw [hproc, update_of_ne hi]
    exact h.embryo q i hq'
  · obtain ⟨-, hi⟩ := hother q i (.inr hq)
    rw [hproc, update_of_ne hi]
    apply h.forked
    rw [← (hpc q i (.inr hq)).2]
    exact hq

theorem not_live_embryo {s : ProcState} (h : s = .embryo) : ¬ Live s := by
  rintro (hl | hl | hl) <;> rw [h] at hl <;> cases hl

theorem Inv.forkFail (h : Inv k) (hpc : k.pc p = .forking np) :
    Inv (k.forkFail p np) := by
  have hemb := h.embryo p np (.inl hpc)
  refine h.leave_fork (d := { k.proc np with state := .unused }) (.inl hpc) rfl ?_ rfl ?_
  · refine h.table.set_state rfl (fun hl => ?_) (fun ha => ?_) nofun nofun
    · exact absurd hl (not_live_embryo hemb)
    · rcases ha with (ha | ha | ha) | ha <;> cases ha
  · intro q i hq
    refine ⟨?_, setPc_forks not_forks_free p q i hq⟩
    rintro rfl
    exact not_forks_free i (by simpa [Machine.forkFail, Machine.setPc] using hq)

theorem Inv.forkParent (h : Inv k) (hc : k.cur c = some p)
    (hpc : k.pc p = .forking np) : Inv (k.forkParent p np) := by
  have hemb := h.embryo p np (.inl hpc)
  have hforks : ∀ q i, ((k.forkParent p np).pc q).Forks i →
      q = p ∧ i = np ∨ q ≠ p ∧ (k.forkParent p np).pc q = k.pc q ∧ (k.pc q).Forks i ∧ i ≠ np := by
    intro q i hf
    rcases eq_or_ne q p with rfl | hq
    · left
      rcases hf with hf | hf
      · simp [Machine.forkParent, Machine.setPc] at hf
      · exact ⟨rfl, by simpa [Machine.forkParent, Machine.setPc] using hf.symm⟩
    · have he : (k.forkParent p np).pc q = k.pc q := update_of_ne hq _ _
      rw [he] at hf
      refine .inr ⟨hq, he, hf, ?_⟩
      rintro rfl
      exact hq (h.own q p i hf (.inl hpc))
  have hslot : ∀ i, i ≠ np → (k.forkParent p np).proc i = k.proc i :=
    fun i hi => update_of_ne hi _ _
  have hself : (k.forkParent p np).proc np = { k.proc np with parent := some p } :=
    update_self ..
  refine h.of_change ?_ (fun c' q hq => ⟨hq, ?_⟩) (fun q i hf => ?_) (fun q i hf => ?_)
  · -- the embryo needs no parent yet, and it is nobody's zombie
    have hstate : ∀ i, ((k.forkParent p np).proc i).state = (k.proc i).state := by
      intro i
      rcases eq_or_ne i np with rfl | hi
      · rw [hself]
      · rw [hslot i hi]
    have hnot : ∀ i, Active (k.proc i).state → i ≠ np := by
      rintro i (hl | hz) rfl
      · exact not_live_embryo hemb hl
      · rw [hemb] at hz
        cases hz
    refine h.table.of_change (fun i hl => by rwa [hstate i]) ?_ (fun i _ ha => ?_) (fun i hz => ?_)
      (fun i hs hch => ?_)
    · rw [hslot _ (hnot _ (.inl h.table.init))]
    · rw [hstate i] at ha
      rw [hslot i (hnot i ha)]
      exact .inl ⟨ha, rfl⟩
    · rw [hstate i] at hz
      rw [hslot i (hnot i (.inr hz))]
      exact ⟨hz, rfl⟩
    · rw [hstate i] at hs
      rw [hslot i (hnot i (.inl (.inl hs)))] at hch
      exact .inl ⟨hs, hch⟩
  · have hrun := h.running c' q hq
    rw [hslot q (by rintro rfl; rw [hemb] at hrun; cases hrun)]
    exact hrun
  · rcases hforks q i hf with ⟨rfl, rfl⟩ | ⟨-, -, hf', hi⟩
    · exact ⟨.inl hpc, by rw [hself]; exact hemb⟩
    · exact ⟨hf', by rw [hslot i hi]; exact h.embryo q i hf'⟩
  · rcases hforks q i (.inr hf) with ⟨rfl, rfl⟩ | ⟨-, he, -, hi⟩
    · rw [hself]
    · rw [hslot i hi]
      exact h.forked q i (he ▸ hf)

theorem Inv.forkRun (h : Inv k) (hc : k.cur c = some p) (hpc : k.pc p = .forked np) :
    Inv (k.forkRun p np) := by
  have hemb := h.embryo p np (.inr hpc)
  have hrun := h.running c p hc
  have hne : p ≠ np := by
    rintro rfl
    rw [hemb] at hrun
    cases hrun
  refine h.leave_fork (d := { k.proc np with state := .runnable }) (.inr hpc) rfl ?_ rfl ?_
  · have hslot : ∀ i, i ≠ np → update k.proc np
        { k.proc np with state := .runnable } i = k.proc i := fun i hi => update_of_ne hi _ _
    have hinit : k.initproc ≠ np := by
      intro he
      exact not_live_embryo hemb (he ▸ h.table.init)
    refine h.table.of_change (fun i hl => ?_) (by rw [hslot _ hinit]) (fun i _ ha => ?_)
      (fun i hz => ?_) (fun i hs hch => ?_)
    · rcases eq_or_ne i np with rfl | hi
      · exact absurd hl (not_live_embryo hemb)
      · rwa [hslot i hi]
    · rcases eq_or_ne i np with rfl | hi
      · -- the new process needs a parent: the process that forks, which is running
        right
        refine ⟨p, ?_, hne, ?_⟩
        · rw [update_self]
          exact h.forked p i hpc
        · rw [hslot p hne]
          exact .inr (.inr hrun)
      · rw [hslot i hi] at ha ⊢
        exact .inl ⟨ha, rfl⟩
    · rcases eq_or_ne i np with rfl | hi
      · rw [update_self] at hz
        cases hz
      · rw [hslot i hi] at hz ⊢
        exact ⟨hz, rfl⟩
    · rcases eq_or_ne i np with rfl | hi
      · rw [update_self] at hs
        cases hs
      · rw [hslot i hi] at hs hch
        exact .inl ⟨hs, hch⟩
  · intro q i hq
    simp only [Machine.forkRun, Machine.setPc, Machine.setProc] at hq ⊢
    rcases eq_or_ne q np with rfl | hqn
    · rw [update_self] at hq
      exact absurd hq (not_forks_free i)
    · rw [update_of_ne hqn] at hq ⊢
      rcases eq_or_ne q p with rfl | hqp
      · rw [update_self] at hq
        exact absurd hq (not_forks_free i)
      · exact ⟨hqp, update_of_ne hqp _ _⟩

/-! ### `exit`, `wait`, `sleep`, `yield`, `wakeup`, `kill` -/

theorem Inv.exit (h : Inv k) (hc : k.cur c = some p) (hpc : k.pc p = .free)
    (hi : p ≠ k.initproc) : Inv (k.exit c p) := by
  have hrun := h.running c p hc
  -- an embryo is neither the process that exits nor asleep, and its parent is in `fork`
  have hkeep : ∀ q np, (k.pc q).Forks np →
      (exitTable p k.initproc k.proc np).state = .embryo := by
    intro q np hf
    have hemb := h.embryo q np hf
    have hnp : np ≠ p := by
      rintro rfl
      rw [hemb] at hrun
      cases hrun
    rcases @exitTable_state p k.initproc k.proc np hnp with hs | ⟨hs, -⟩
    · rw [hs, hemb]
    · rw [hemb] at hs
      cases hs
  refine h.of_change (h.table.exitTable hi hrun) (fun c' q hq => ?_) (fun q np hf => ?_)
    (fun q np hf => ?_)
  · obtain ⟨hq', hqp⟩ := cur_of_sched h hc hq
    refine ⟨hq', ?_⟩
    have hrunq := h.running c' q hq'
    rcases @exitTable_state p k.initproc k.proc q hqp with hs | ⟨hs, -⟩
    · exact hs.trans hrunq
    · rw [hrunq] at hs
      cases hs
  · have he : (k.exit c p).pc q = k.pc q := setPc_forks not_forks_exited p q np hf
    rw [he] at hf
    exact ⟨hf, hkeep q np hf⟩
  · have he : (k.exit c p).pc q = k.pc q := setPc_forks not_forks_exited p q np (.inr hf)
    rw [he] at hf
    have hqp : q ≠ p := by
      rintro rfl
      rw [hpc] at hf
      cases hf
    have hpar := h.forked q np hf
    change (exitTable p k.initproc k.proc np).parent = some q
    rw [exitTable_parent hi, hpar, if_neg (by simpa using hqp)]

theorem Inv.waitReap (h : Inv k) {z : Slot} (hz : (k.proc z).state = .zombie) :
    Inv (k.waitReap p z) := by
  have hslot : ∀ i, i ≠ z → update k.proc z (k.proc z).reaped i = k.proc i :=
    fun i hi => update_of_ne hi _ _
  have hself : (update k.proc z (k.proc z).reaped z).state = .unused := by
    rw [update_self]
    rfl
  have hlive : ∀ i, Live (k.proc i).state → i ≠ z := by
    rintro i hl rfl
    rw [hz] at hl
    rcases hl with hl | hl | hl <;> cases hl
  refine h.set_slot rfl ?_ (fun he => ?_) (fun c' q hq => ⟨hq, ?_⟩)
    (setPc_forks not_forks_free p)
  · refine h.table.of_change (fun i hl => by rwa [hslot i (hlive i hl)])
      (by rw [hslot _ (hlive _ h.table.init)]) (fun i _ ha => ?_) (fun i hzi => ?_)
      (fun i hs hch => ?_)
    · rcases eq_or_ne i z with rfl | hi
      · rw [hself] at ha
        rcases ha with (ha | ha | ha) | ha <;> cases ha
      · rw [hslot i hi] at ha ⊢
        exact .inl ⟨ha, rfl⟩
    · rcases eq_or_ne i z with rfl | hi
      · rw [hself] at hzi
        cases hzi
      · rw [hslot i hi] at hzi ⊢
        exact ⟨hzi, rfl⟩
    · rcases eq_or_ne i z with rfl | hi
      · rw [hself] at hs
        cases hs
      · rw [hslot i hi] at hs hch
        exact .inl ⟨hs, hch⟩
  · rw [hz] at he
    cases he
  · rintro rfl
    rw [h.running c' q hq] at hz
    cases hz

/-- A running process gives up its CPU. -/
theorem Inv.give_up (h : Inv k) (hc : k.cur c = some p) (r : Resume)
    (htable : TableInv k.initproc (update k.proc p d)) :
    Inv ((k.setProc p d).sched c p (some r)) := by
  have hrun := h.running c p hc
  refine h.set_slot rfl htable (fun he => ?_) (fun c' q hq => ?_) fun _ _ _ => rfl
  · rw [hrun] at he
    cases he
  · obtain ⟨hq', hqp⟩ := cur_of_sched h hc hq
    exact ⟨hq', fun he => absurd he hqp⟩

/-- A process goes to sleep in `wait` only without an exited child. -/
theorem Inv.waitSleep (h : Inv k) (hc : k.cur c = some p) (hf : findZombie p k.proc = none) :
    Inv (k.sleep c p (.proc p) .wait) := by
  have hrun := h.running c p hc
  apply h.give_up hc
  have hslot : ∀ i, i ≠ p → update k.proc p
      { k.proc p with chan := some (.proc p), state := .sleeping } i = k.proc i :=
    fun i hi => update_of_ne hi _ _
  have hpar : ∀ i, (update k.proc p
      { k.proc p with chan := some (.proc p), state := .sleeping } i).parent =
        (k.proc i).parent := by
    intro i
    rcases eq_or_ne i p with rfl | hi
    · rw [update_self]
    · rw [hslot i hi]
  have hzombie : ∀ i, (update k.proc p
      { k.proc p with chan := some (.proc p), state := .sleeping } i).state = .zombie →
        (k.proc i).state = .zombie := by
    intro i hz
    rcases eq_or_ne i p with rfl | hi
    · rw [update_self] at hz
      cases hz
    · rwa [hslot i hi] at hz
  refine h.table.of_change (fun i hl => ?_) (hpar _) (fun i _ ha => .inl ⟨?_, hpar i⟩)
    (fun i hz => ⟨hzombie i hz, hpar i⟩) (fun i hs hch => ?_)
  · rcases eq_or_ne i p with rfl | hi
    · rw [update_self]
      exact .inl rfl
    · rwa [hslot i hi]
  · rcases eq_or_ne i p with rfl | hi
    · exact .inl (.inr (.inr hrun))
    · rwa [hslot i hi] at ha
  · rcases eq_or_ne i p with rfl | hi
    · -- the scan has just found no zombie among the children
      right
      intro q hq hz
      rw [hpar q] at hq
      exact findZombie_eq_none hf q hq (hzombie q hz)
    · rw [hslot i hi] at hs hch
      exact .inl ⟨hs, hch⟩

theorem Inv.sleep (h : Inv k) (hc : k.cur c = some p) (addr : ℕ) :
    Inv (k.sleep c p (.other addr) .sleep) := by
  have hrun := h.running c p hc
  apply h.give_up hc
  refine h.table.set_state rfl (fun _ => .inl rfl) (fun _ => ?_) nofun (fun _ hch => ?_)
  · exact .inl (.inr (.inr hrun))
  · cases hch

theorem Inv.yield (h : Inv k) (hc : k.cur c = some p) : Inv (k.yield c p) := by
  have hrun := h.running c p hc
  apply h.give_up hc
  refine h.table.set_state rfl (fun _ => .inr (.inl rfl)) (fun _ => ?_) nofun nofun
  exact .inl (.inr (.inr hrun))

theorem Inv.wakeup (h : Inv k) (chan : Option Chan) :
    Inv { k with proc := wakeup1 chan k.proc } := by
  have hstate := wakeup1_state chan k.proc
  -- only sleeping processes change, and they become runnable
  have hsame : ∀ i, (k.proc i).state ≠ .sleeping →
      (wakeup1 chan k.proc i).state = (k.proc i).state := by
    intro i hi
    rcases hstate i with hs | ⟨hs, -⟩
    · exact hs
    · exact absurd hs hi
  refine h.of_change ?_ (fun c q hq => ⟨hq, ?_⟩) (fun q np hf => ⟨hf, ?_⟩) (fun q np hf => ?_)
  · refine h.table.of_change (fun i hl => ?_) (wakeup1_parent ..)
      (fun i _ ha => .inl ⟨?_, wakeup1_parent ..⟩) (fun i hz => ⟨?_, wakeup1_parent ..⟩)
      (fun i hs hch => .inl ?_)
    · rcases hstate i with hs | ⟨-, hs⟩
      · rwa [hs]
      · exact .inr (.inl hs)
    · rcases hstate i with hs | ⟨hs, -⟩
      · rwa [hs] at ha
      · exact .inl (.inl hs)
    · rcases hstate i with hs | ⟨-, hs⟩
      · rwa [hs] at hz
      · rw [hs] at hz
        cases hz
    · rw [wakeup1_chan] at hch
      exact ⟨(wakeup1_sleeping hs).1, hch⟩
  · have hrun := h.running c q hq
    exact (hsame q (by rw [hrun]; nofun)).trans hrun
  · have hemb := h.embryo q np hf
    exact (hsame np (by rw [hemb]; nofun)).trans hemb
  · exact (wakeup1_parent ..).trans (h.forked q np hf)

theorem Inv.mark (h : Inv k) (q : Slot) : Inv (k.mark q) := by
  have hkeep : (k.proc q).state ≠ .sleeping →
      (if (k.proc q).state = .sleeping then ProcState.runnable else (k.proc q).state) =
        (k.proc q).state := fun hs => if_neg hs
  refine h.set_slot rfl ?_ (fun he => ⟨?_, rfl⟩) (fun c p hc => ⟨hc, ?_⟩) fun _ _ _ => rfl
  · refine h.table.set_state rfl (fun hl => ?_) (fun ha => ?_) (fun hz => ?_) (fun hs hch => ?_)
    · split
      · exact .inr (.inl rfl)
      · exact hl
    · by_cases hs : (k.proc q).state = .sleeping
      · exact .inl (.inl hs)
      · rwa [hkeep hs] at ha
    · by_cases hs : (k.proc q).state = .sleeping
      · simp [hs] at hz
      · rwa [hkeep hs] at hz
    · by_cases hs' : (k.proc q).state = .sleeping
      · simp [hs'] at hs
      · rw [hkeep hs'] at hs
        exact absurd hs hs'
  · exact (hkeep (by rw [he]; nofun)).trans he
  · rintro rfl
    have hrun := h.running c p hc
    exact (hkeep (by rw [hrun]; nofun)).trans hrun

theorem Inv.kill (h : Inv k) (pid : ℤ) : Inv (k.kill pid).2 := by
  unfold Machine.kill
  split
  · exact h
  · exact h.mark _

/-- **Every step keeps the invariant.** -/
theorem Inv.step {e : Cpu × Event} (h : Inv k) (hstep : Step k e k') : Inv k' := by
  cases hstep with
  | acquire => exact h.of_proc_eq rfl rfl rfl fun _ _ _ => rfl
  | pick _ hc hp => exact h.pick hc hp
  | release => exact h.of_proc_eq rfl rfl rfl fun _ _ _ => rfl
  | resume _ hc _ => exact h.goOn hc _
  | forkNone => exact h
  | forkAlloc _ hr _ hf => exact h.forkAlloc hr.1 (findUnused_spec hf)
  | forkFail _ hpc => exact h.forkFail hpc
  | forkParent hr hpc => exact h.forkParent hr.1 hpc
  | forkRun _ hr hpc => exact h.forkRun hr.1 hpc
  | exit _ hr hpc hi => exact h.exit hr.1 hpc hi
  | waitEnter => exact h.of_proc_eq rfl rfl rfl (setPc_forks not_forks_waiting _)
  | waitReap _ _ _ hf => exact h.waitReap (findZombie_spec hf).2
  | waitFail => exact h.of_proc_eq rfl rfl rfl (setPc_forks not_forks_free _)
  | waitSleep _ hr _ hf => exact h.waitSleep hr.1 hf
  | sleep _ hr => exact h.sleep hr.1 _
  | yield _ hr => exact h.yield hr.1
  | wakeup => exact h.wakeup _
  | kill => exact h.kill _

end Steps

theorem boot_inv : Inv boot := by
  have hzero : ∀ p, p ≠ 0 → boot.proc p = .zero := by
    intro p hp
    simp only [boot, update_of_ne hp]
  refine ⟨⟨.inr (.inl rfl), rfl, fun p hp ha => ?_, fun p q hs => ?_⟩, nofun, nofun,
    fun p np hf => absurd hf (not_forks_free np), nofun,
    fun p _ np hf => absurd hf (not_forks_free np)⟩
  · rw [hzero p hp] at ha
    rcases ha with (ha | ha | ha) | ha <;> cases ha
  · rcases eq_or_ne p 0 with rfl | hp
    · cases hs
    · rw [hzero p hp] at hs
      cases hs

/-- **No stranded zombie and no missed exit.** In every state of every run, in particular whenever
`ptable.lock` is free: every process that is not `initproc` and has not been reaped has a parent
that is neither unused nor a zombie, and no process sleeps in `wait` while it has an exited
child. -/
theorem no_stranded_zombie {es : List (Cpu × Event)} {k : Machine} (hrun : Run Step boot es k) :
    (∀ p, p ≠ k.initproc →
      ((k.proc p).state = .sleeping ∨ (k.proc p).state = .runnable ∨
        (k.proc p).state = .running ∨ (k.proc p).state = .zombie) →
      ∃ q, (k.proc p).parent = some q ∧ (k.proc q).state ≠ .unused ∧ (k.proc q).state ≠ .zombie) ∧
    ∀ p q, (k.proc p).state = .sleeping → (k.proc p).chan = some (.proc p) →
      (k.proc q).parent = some p → (k.proc q).state ≠ .zombie := by
  have h : Inv k := Run.invariant (I := Inv) (fun _ _ _ h hs => h.step hs) hrun boot_inv
  refine ⟨fun p hp hs => ?_, h.table.sleeper⟩
  have ha : Active (k.proc p).state := by
    rcases hs with hs | hs | hs | hs
    · exact .inl (.inl hs)
    · exact .inl (.inr (.inl hs))
    · exact .inl (.inr (.inr hs))
    · exact .inr hs
  obtain ⟨q, hq, -, hl⟩ := h.table.parent p hp ha
  refine ⟨q, hq, ?_⟩
  rcases hl with hl | hl | hl <;> rw [hl] <;> exact ⟨nofun, nofun⟩

/-- The first process is about to make its first call. -/
def started : Machine := (({ boot with lock := some 0 } : Machine).pick 0 0).goOn 0 .forkret

theorem run_started : Run Step boot [(0, .acquire), (0, .pick 0), (0, .resume)] started := by
  have h₁ := Run.nil.snoc (Step.acquire (k := boot) (c := 0) rfl rfl)
  have h₂ := h₁.snoc (.pick (p := 0) rfl rfl rfl)
  exact h₂.snoc (.resume (c := 0) rfl rfl rfl)

/-- The first process forks. -/
theorem run_forked : Run Step boot [(0, .acquire), (0, .pick 0), (0, .resume), (0, .fork),
    (0, .forkParent), (0, .forkRun)] (((started.forkAlloc 0 1).forkParent 0 1).forkRun 0 1) := by
  have h₁ := run_started.snoc (.forkAlloc (c := 0) (p := 0) rfl ⟨rfl, rfl⟩ rfl
    (show _ = some (1 : Slot) by decide))
  have h₂ := h₁.snoc (.forkParent (c := 0) ⟨rfl, rfl⟩ rfl)
  exact h₂.snoc (.forkRun (c := 0) rfl ⟨rfl, rfl⟩ rfl)

/-- A run on one CPU: the first process forks and waits, its child exits, and the parent is woken
for it. -/
theorem no_stranded_zombie_exit : ∃ es k, Run Step boot es k ∧ k.lock = none ∧
    (k.proc 1).state = .zombie ∧ (k.proc 1).parent = some 0 ∧ (k.proc 0).state = .runnable ∧
    ((∀ p, p ≠ k.initproc →
      ((k.proc p).state = .sleeping ∨ (k.proc p).state = .runnable ∨
        (k.proc p).state = .running ∨ (k.proc p).state = .zombie) →
      ∃ q, (k.proc p).parent = some q ∧ (k.proc q).state ≠ .unused ∧ (k.proc q).state ≠ .zombie) ∧
    ∀ p q, (k.proc p).state = .sleeping → (k.proc p).chan = some (.proc p) →
      (k.proc q).parent = some p → (k.proc q).state ≠ .zombie) := by
  have h₁ := run_forked.snoc (.waitEnter (c := 0) rfl ⟨rfl, rfl⟩ rfl)
  have h₂ := h₁.snoc (.waitSleep (c := 0) rfl ⟨rfl, rfl⟩ rfl (by decide) (by decide) rfl)
  have h₃ := h₂.snoc (.pick (p := 1) rfl rfl rfl)
  have h₄ := h₃.snoc (.resume (c := 0) rfl rfl rfl)
  have h₅ := h₄.snoc (.exit (c := 0) (p := 1) rfl ⟨rfl, rfl⟩ rfl (by decide))
  have h₆ := h₅.snoc (.release (c := 0) rfl rfl)
  exact ⟨_, _, h₆, rfl, by decide, by decide, by decide, no_stranded_zombie h₆⟩

/-- **A process runs on one CPU.** In every state of every run the process of a CPU is running, and
it is the process of no other CPU; a slot that `fork` fills is an embryo, and no other `fork` fills
it. -/
theorem running_exclusive {es : List (Cpu × Event)} {k : Machine} (hrun : Run Step boot es k) :
    (∀ c p, k.cur c = some p → (k.proc p).state = .running ∧ ∀ c', k.cur c' = some p → c' = c) ∧
    ∀ p np, (k.pc p).Forks np → (k.proc np).state = .embryo ∧
      ∀ q, (k.pc q).Forks np → q = p := by
  have h : Inv k := Run.invariant (I := Inv) (fun _ _ _ h hs => h.step hs) hrun boot_inv
  exact ⟨fun c p hc => ⟨h.running c p hc, fun c' hc' => h.single c' c p hc' hc⟩,
    fun p np hf => ⟨h.embryo p np hf, fun q hq => h.own q p np hq hf⟩⟩

/-- A run on two CPUs: the first process forks, its child runs on the other CPU, and the first
process is about to fork again. -/
theorem running_exclusive_two_cpus : ∃ es k, Run Step boot es k ∧ k.cur 0 = some 0 ∧
    k.cur 1 = some 1 ∧ (∀ c, k.cur c = some 1 → c = 1) ∧ (k.proc 2).state = .embryo ∧
    ∀ q, (k.pc q).Forks 2 → q = 0 := by
  have h₁ := run_forked.snoc (.acquire (c := 1) rfl rfl)
  have h₂ := h₁.snoc (.pick (p := 1) rfl rfl rfl)
  have h₃ := h₂.snoc (.resume (c := 1) rfl rfl rfl)
  have h₄ := h₃.snoc (.forkAlloc (c := 0) (p := 0) rfl ⟨rfl, rfl⟩ rfl
    (show _ = some (2 : Slot) by decide))
  obtain ⟨hcur, hforks⟩ := running_exclusive h₄
  obtain ⟨hembryo, hown⟩ := hforks 0 2 (.inl rfl)
  exact ⟨_, _, h₄, rfl, rfl, (hcur 1 1 rfl).2, hembryo, hown⟩

end Xv6.Sched
