import CS450.Proc.Calls

/-!
# Trap counters

The counters of the trap-counting kernel. `trap` raises the counter of the current process for the
class of the trap, before it looks at what the trap is; `wait` clears the counters of the child it
reaps; nothing else touches them. So a counter is right only if every slot that becomes unused in
another way has its counters at zero. `sys_countTraps` adds up all counters but the last one, the
counter of the catch-all class: it is right only if no process that took such a trap makes the call.

A process that runs is in user mode or in nested traps, which are its frames, the innermost first.
A trap in user mode that is not known kills the process; the same trap in kernel mode panics, and a
panic ends the run. A system call is one step, on the process table of `Calls`. A call may put the
process to sleep, and between two steps of a process others may run. Of `sys_countTraps` the step is
the addition, without the printing: interrupts that arrive before it are counted. What a trap does
apart from the counters, `killed` and the processor (clock, disk, keyboard) is left out, and so are
the counters of system calls, which are printed only.

## Main results

* `Inv.step`: counters are right, and a process with a catch-all trap is on its way to `exit`
* `trapcounts_exact`: the counters and the result of `sys_countTraps` over every run
-/

namespace Xv6.Trap

open Function (update update_of_ne update_self)
open Transition Calls

/-- The number of counters. -/
abbrev NTRAPS : ℕ := 23

/-- `trapnos`: the class of a trap number. -/
def trapnos (trapno : ℤ) : Fin NTRAPS :=
  if h : 0 ≤ trapno ∧ trapno ≤ 19 then ⟨trapno.toNat, show trapno.toNat < 23 by omega⟩
  else if 32 ≤ trapno ∧ trapno < 64 then 20
  else if trapno = 64 then 21
  else 22

def T_SYSCALL : ℤ := 64

/-- `T_IRQ0 + IRQ_TIMER`. -/
def T_TIMER : ℤ := 32

/-- The cases of the `switch`: timer, the two of the disk, keyboard, serial line and the two for
spurious interrupts. -/
def knownTraps : List ℤ := [32, 46, 47, 33, 36, 39, 63]

/-- Where a process is inside the kernel. -/
inductive Frame
  /-- About to call `syscall`. -/
  | syscall
  /-- Asleep in `wait`, or woken there. -/
  | waiting
  /-- Back from `syscall`. -/
  | sysret
  /-- Behind the `switch` of `trap`; whether the trap came from user mode, and from the timer. -/
  | handled (user timer : Bool)
  /-- Behind the point where `trap` gives up the processor. -/
  | yielded (user : Bool)
  /-- In `exit`. -/
  | exiting
  deriving DecidableEq, Repr

/-- The process table, the counters, and where the processes are in the kernel. -/
structure Machine where
  ptable : Ptable
  trapcounts : Slot → Fin NTRAPS → BitVec 32
  frames : Slot → List Frame

/-- The steps of the system. -/
inductive Event
  /-- A trap, with the current process if there is one, its number, and whether it came from user
  mode. -/
  | trap (cur : Option Slot) (trapno : ℤ) (user : Bool)
  /-- The process goes on in `trap`, behind the handling of the trap. -/
  | goOn (p : Slot)
  /-- `fork`, with the memory it finds and the slot it takes, if there is one. -/
  | fork (p : Slot) (mem : Memory) (np : Option Slot)
  | wait (p : Slot)
  | kill (p : Slot) (pid : ℤ)
  /-- The call of `exit` by a system call, and its end. -/
  | callExit (p : Slot)
  | exit (p : Slot)
  /-- `sys_countTraps`, with its result. -/
  | countTraps (p : Slot) (result : BitVec 32)
  /-- Another system call, `exec` among them, or a number that is none. -/
  | other (p : Slot)
  /-- The scheduler runs a process, or a process in the kernel goes to sleep or is woken. -/
  | sched (p : Slot)
  | sleep (p : Slot) (addr : ℕ)
  | wakeup (chan : Option Chan)
  deriving DecidableEq

namespace Machine

def proc (m : Machine) (p : Slot) : Proc := m.ptable.proc p

def setFrames (m : Machine) (p : Slot) (fs : List Frame) : Machine :=
  { m with frames := Function.update m.frames p fs }

/-- `++curproc->trapcounts[trapnos(tf->trapno)]`. -/
def count (m : Machine) (p : Slot) (trapno : ℤ) : Machine :=
  { m with trapcounts := Function.update m.trapcounts p (Function.update (m.trapcounts p)
      (trapnos trapno) (m.trapcounts p (trapnos trapno) + 1)) }

/-- `curproc->killed = 1`. -/
def markKilled (m : Machine) (p : Slot) : Machine :=
  { m with ptable := m.ptable.set p { m.proc p with killed := true } }

def setPtable (m : Machine) (t : Ptable) : Machine :=
  { m with ptable := t }

/-- `p->state = st`. -/
def setState (m : Machine) (p : Slot) (st : ProcState) : Machine :=
  { m with ptable := m.ptable.set p { m.proc p with state := st } }

end Machine

section MachineLemmas

variable (m : Machine) (p : Slot) (fs : List Frame)

theorem setFrames_self : (m.setFrames p fs).frames p = fs := update_self ..

theorem setFrames_of_ne {q : Slot} (h : q ≠ p) : (m.setFrames p fs).frames q = m.frames q :=
  update_of_ne h ..

theorem count_self (trapno : ℤ) : (m.count p trapno).trapcounts p (trapnos trapno) =
    m.trapcounts p (trapnos trapno) + 1 := by
  simp [Machine.count]

theorem count_of_ne (trapno : ℤ) {q : Slot} {i : Fin NTRAPS} (h : q ≠ p ∨ i ≠ trapnos trapno) :
    (m.count p trapno).trapcounts q i = m.trapcounts q i := by
  rcases eq_or_ne q p with rfl | hq
  · simp [Machine.count, update_of_ne (h.resolve_left fun hne => hne rfl)]
  · simp [Machine.count, update_of_ne hq]

end MachineLemmas

/-- `trap` of the current process `p`, up to the end of the handling; `none` for the panic. -/
def trap (m : Machine) (p : Slot) (trapno : ℤ) (user : Bool) : Option Machine :=
  let m := m.count p trapno
  if trapno = T_SYSCALL then
    some (m.setFrames p ((if (m.proc p).killed then .exiting else .syscall) :: m.frames p))
  else if trapno ∈ knownTraps then
    some (m.setFrames p (.handled user (trapno = T_TIMER) :: m.frames p))
  else if user then
    some ((m.markKilled p).setFrames p (.handled user false :: m.frames p))
  else none

/-- The rest of `trap`, one check at a time: `exit` when the process has been killed, the yield on a
clock tick, and the return. -/
def goOn (m : Machine) (p : Slot) : Option Machine :=
  match m.frames p with
  | .sysret :: fs =>
    some (m.setFrames p (if (m.proc p).killed then .exiting :: fs else fs))
  | .handled user timer :: fs =>
    if (m.proc p).killed && user then some (m.setFrames p (.exiting :: fs))
    else
      let m := if timer then m.setState p .runnable else m
      some (m.setFrames p (.yielded user :: fs))
  | .yielded user :: fs =>
    some (m.setFrames p (if (m.proc p).killed && user then .exiting :: fs else fs))
  | _ => none

/-- The loop of `sys_countTraps`, which leaves out the last counter. -/
def sysCountTraps (m : Machine) (p : Slot) : BitVec 32 :=
  (List.finRange (NTRAPS - 1)).foldl (fun c i =>
    let s := m.trapcounts p i.castSucc
    if s ≠ 0 then c + s else c) 0

/-- The child that `wait` reaps. -/
def reaped (t : Ptable) (cur : Slot) : Option Slot :=
  findZombie cur (t.set cur { t.proc cur with chan := none }).proc

/-- Where a process is after `wait` returned, or went to sleep. -/
def afterWait : Option ℤ → Frame
  | some _ => .sysret
  | none => .waiting

/-- `wait`, which clears the counters of the child it reaps. -/
def sysWait (m : Machine) (p : Slot) (fs : List Frame) : Machine :=
  { ptable := (wait m.ptable p).2
    trapcounts := match reaped m.ptable p with
      | some q => Function.update m.trapcounts q 0
      | none => m.trapcounts
    frames := Function.update m.frames p (afterWait (wait m.ptable p).1 :: fs) }

/-- `fork`; the child starts in user mode. -/
def sysFork (m : Machine) (p : Slot) (mem : Memory) (fs : List Frame) : Machine :=
  let frames := match findUnused m.ptable.proc with
    | some np => Function.update m.frames np []
    | none => m.frames
  { m with
    ptable := (fork m.ptable p mem).2
    frames := Function.update frames p (.sysret :: fs) }

/-- One step. Only a process that runs does something; a trap comes from user mode exactly when the
process is not in the kernel. -/
inductive Step (m : Machine) : Event → Machine → Prop
  | trap {p : Slot} {trapno : ℤ} {user : Bool} {m' : Machine} : (m.proc p).state = .running →
      (user = true ↔ m.frames p = []) → trap m p trapno user = some m' →
      Step m (.trap (some p) trapno user) m'
  | trapNoProc {trapno : ℤ} {user : Bool} : trapno ∈ knownTraps →
      Step m (.trap none trapno user) m
  | goOn {p : Slot} {m' : Machine} : (m.proc p).state = .running → goOn m p = some m' →
      Step m (.goOn p) m'
  | fork {p : Slot} {mem : Memory} {fs : List Frame} : (m.proc p).state = .running →
      m.frames p = .syscall :: fs →
      Step m (.fork p mem (findUnused m.ptable.proc)) (sysFork m p mem fs)
  | wait {p : Slot} {f : Frame} {fs : List Frame} : (m.proc p).state = .running →
      m.frames p = f :: fs → f = .syscall ∨ f = .waiting → Step m (.wait p) (sysWait m p fs)
  | kill {p : Slot} {pid : ℤ} {fs : List Frame} : (m.proc p).state = .running →
      m.frames p = .syscall :: fs →
      Step m (.kill p pid) ((m.setPtable (kill m.ptable pid).2).setFrames p (.sysret :: fs))
  | callExit {p : Slot} {fs : List Frame} : (m.proc p).state = .running →
      m.frames p = .syscall :: fs → Step m (.callExit p) (m.setFrames p (.exiting :: fs))
  | exit {p : Slot} {fs : List Frame} {t : Ptable} : (m.proc p).state = .running →
      m.frames p = .exiting :: fs → exit m.ptable p = some t →
      Step m (.exit p) ((m.setPtable t).setFrames p [])
  | countTraps {p : Slot} {fs : List Frame} : (m.proc p).state = .running →
      m.frames p = .syscall :: fs →
      Step m (.countTraps p (sysCountTraps m p)) (m.setFrames p (.sysret :: fs))
  | other {p : Slot} {fs : List Frame} : (m.proc p).state = .running →
      m.frames p = .syscall :: fs → Step m (.other p) (m.setFrames p (.sysret :: fs))
  | sched {p : Slot} : (m.proc p).state = .runnable → Step m (.sched p) (m.setState p .running)
  | sleep {p : Slot} {addr : ℕ} : (m.proc p).state = .running → m.frames p ≠ [] →
      Step m (.sleep p addr) (m.setPtable (m.ptable.set p
        { m.proc p with state := .sleeping, chan := some (.other addr) }))
  | wakeup {chan : Option Chan} :
      Step m (.wakeup chan) (m.setPtable { m.ptable with proc := wakeup1 chan m.ptable.proc })

/-- After `userinit`: the first process is about to run in user mode, and all counters are zero. -/
def boot : Machine where
  ptable := userinit
  trapcounts := fun _ _ => 0
  frames := fun _ => []

/-! ### Counting traps -/

/-- The number of traps of class `i` that the process in slot `q` has taken, after one more event.
It starts again when the slot is allocated. -/
def Event.taken (q : Slot) (i : Fin NTRAPS) (n : ℕ) : Event → ℕ
  | .trap (some p) trapno _ => if p = q ∧ trapnos trapno = i then n + 1 else n
  | .fork _ _ (some np) => if np = q then 0 else n
  | _ => n

/-- The number of traps of class `i` taken by the process in slot `q` since the slot was allocated
for it. -/
def taken (h : List Event) (q : Slot) (i : Fin NTRAPS) : ℕ :=
  h.foldl (Event.taken q i) 0

theorem taken_append (h : List Event) (e : Event) (q : Slot) (i : Fin NTRAPS) :
    taken (h ++ [e]) q i = e.taken q i (taken h q i) := by
  simp [taken]

/-- The last class. -/
def catchAll : Fin NTRAPS := 22

/-- Only traps that kill the process or panic are in the last class. -/
theorem unknown_of_catchAll {trapno : ℤ} (h : trapnos trapno = catchAll) :
    trapno ≠ T_SYSCALL ∧ trapno ∉ knownTraps := by
  constructor
  · rintro rfl
    exact absurd h (by decide)
  · intro hmem
    simp only [knownTraps, List.mem_cons, List.not_mem_nil, or_false] at hmem
    rcases hmem with rfl | rfl | rfl | rfl | rfl | rfl | rfl <;> exact absurd h (by decide)

/-! ### The invariant -/

/-- No slot is freed or taken into use, and no mark is cleared. -/
def Keeps (t t' : Ptable) : Prop :=
  ∀ q, ((t'.proc q).state = .unused ↔ (t.proc q).state = .unused) ∧
    ((t.proc q).killed = true → (t'.proc q).killed = true)

theorem Keeps.refl (t : Ptable) : Keeps t t := fun _ => ⟨Iff.rfl, id⟩

/-- A change of one slot that keeps it in use, or unused, and marked. -/
theorem Keeps.set (t : Ptable) (p : Slot) {c : Proc}
    (hstate : c.state = .unused ↔ (t.proc p).state = .unused)
    (hkilled : (t.proc p).killed = true → c.killed = true) : Keeps t (t.set p c) := by
  intro q
  rcases eq_or_ne q p with rfl | hne
  · rw [set_proc_self]
    exact ⟨hstate, hkilled⟩
  · rw [set_proc_of_ne t c hne]
    exact ⟨Iff.rfl, id⟩

theorem Keeps.trans {t t' t'' : Ptable} (h : Keeps t t') (h' : Keeps t' t'') : Keeps t t'' :=
  fun q => ⟨(h' q).1.trans (h q).1, fun hk => (h' q).2 ((h q).2 hk)⟩

theorem keeps_kill (t : Ptable) (pid : ℤ) : Keeps t (kill t pid).2 := by
  unfold kill
  split
  · exact Keeps.refl t
  · next p _ =>
    have hmark : Keeps t (t.set p { t.proc p with killed := true }) :=
      Keeps.set t p Iff.rfl fun _ => rfl
    simp only
    split
    · next hsleep =>
      refine hmark.trans (Keeps.set _ p ?_ id)
      simp [hsleep]
    · exact hmark

theorem keeps_exit {t t' : Ptable} {p : Slot} (hp : (t.proc p).state ≠ .unused)
    (h : exit t p = some t') : Keeps t t' := by
  unfold exit at h
  split at h
  · cases h
  · cases h
    intro q
    refine ⟨exitTable_unused hp q, fun hk => ?_⟩
    rw [exitTable_killed]
    exact hk

theorem keeps_wakeup (t : Ptable) (chan : Option Chan) :
    Keeps t { t with proc := wakeup1 chan t.proc } := by
  intro q
  constructor
  · rcases wakeup1_state chan t.proc q with hs | ⟨hs, hs'⟩
    · rw [hs]
    · rw [hs', hs]
      simp
  · intro hk
    rwa [wakeup1_killed]

/-- Counters are right, those of unused slots are zero, and a process that took a trap of the last
class is marked and in no system call. -/
structure Inv (h : List Event) (m : Machine) : Prop where
  unused : ∀ q, (m.proc q).state = .unused → ∀ i, m.trapcounts q i = 0
  counts : ∀ q, (m.proc q).state ≠ .unused → ∀ i, m.trapcounts q i = BitVec.ofNat 32 (taken h q i)
  caught : ∀ q, (m.proc q).state ≠ .unused → 0 < taken h q catchAll →
    (m.proc q).killed = true ∧ .syscall ∉ m.frames q

section Step

variable {h : List Event} {m m' : Machine} {e : Event}

/-- A step that counts nothing and starts no system call. -/
theorem Inv.of_keeps (hi : Inv h m) (hkeeps : Keeps m.ptable m'.ptable)
    (hcounts : m'.trapcounts = m.trapcounts)
    (hframes : ∀ q, .syscall ∈ m'.frames q → .syscall ∈ m.frames q)
    (htaken : ∀ q i n, e.taken q i n = n) : Inv (h ++ [e]) m' where
  unused q hq i := by
    rw [hcounts]
    exact hi.unused q ((hkeeps q).1.mp hq) i
  counts q hq i := by
    rw [hcounts, taken_append, htaken]
    exact hi.counts q (mt (hkeeps q).1.mpr hq) i
  caught q hq hpos := by
    rw [taken_append, htaken] at hpos
    obtain ⟨hk, hf⟩ := hi.caught q (mt (hkeeps q).1.mpr hq) hpos
    exact ⟨(hkeeps q).2 hk, mt (hframes q) hf⟩

theorem syscall_mem_tail {f : Frame} {fs : List Frame} (hmem : .syscall ∈ f :: fs)
    (hf : f ≠ .syscall) : .syscall ∈ fs :=
  List.mem_of_ne_of_mem hf.symm hmem

/-- Replacing the innermost frame by others than that of a system call. -/
theorem frames_setFrames (m₁ : Machine) (p : Slot) (fs : List Frame)
    (hsame : m₁.frames = m.frames) (hfs : .syscall ∈ fs → .syscall ∈ m.frames p) (q : Slot) :
    .syscall ∈ (m₁.setFrames p fs).frames q → .syscall ∈ m.frames q := by
  intro hq
  rcases eq_or_ne q p with rfl | hne
  · rw [setFrames_self] at hq
    exact hfs hq
  · rwa [setFrames_of_ne _ _ _ hne, hsame] at hq

/-- A trap raises the counter of the current process by one. -/
theorem Inv.of_count (hi : Inv h m) {p : Slot} {trapno : ℤ} {user : Bool}
    (hp : (m.proc p).state ≠ .unused) (hkeeps : Keeps m.ptable m'.ptable)
    (hcounts : m'.trapcounts = (m.count p trapno).trapcounts)
    (hframes : ∀ q, q ≠ p → m'.frames q = m.frames q)
    (hcaught : 0 < taken (h ++ [.trap (some p) trapno user]) p catchAll →
      (m'.proc p).killed = true ∧ .syscall ∉ m'.frames p) :
    Inv (h ++ [.trap (some p) trapno user]) m' := by
  -- What a process other than the current one has taken does not change.
  have hother : ∀ q i, q ≠ p →
      taken (h ++ [.trap (some p) trapno user]) q i = taken h q i := by
    intro q i hne
    rw [taken_append, Event.taken, if_neg fun hq => hne hq.1.symm]
  refine ⟨fun q hq i => ?_, fun q hq i => ?_, fun q hq hpos => ?_⟩
  · have hne : q ≠ p := by
      rintro rfl
      exact hp ((hkeeps q).1.mp hq)
    rw [hcounts, count_of_ne m p trapno (Or.inl hne)]
    exact hi.unused q ((hkeeps q).1.mp hq) i
  · have hcount := hi.counts q (mt (hkeeps q).1.mpr hq)
    rw [hcounts]
    rcases eq_or_ne q p with rfl | hne
    · rw [taken_append, Event.taken]
      rcases eq_or_ne i (trapnos trapno) with rfl | hi'
      · rw [count_self, hcount, if_pos ⟨rfl, rfl⟩, BitVec.ofNat_add]
        rfl
      · rw [count_of_ne m q trapno (Or.inr hi'), hcount, if_neg fun hq => hi' hq.2.symm]
    · rw [count_of_ne m p trapno (Or.inl hne), hcount, hother q i hne]
  · rcases eq_or_ne q p with rfl | hne
    · exact hcaught hpos
    · rw [hother q _ hne] at hpos
      obtain ⟨hk, hf⟩ := hi.caught q (mt (hkeeps q).1.mpr hq) hpos
      exact ⟨(hkeeps q).2 hk, by rwa [hframes q hne]⟩

/-- **A trap** is counted, and one of the last class leads to `exit`. -/
theorem Inv.trap (hi : Inv h m) {p : Slot} {trapno : ℤ} {user : Bool}
    (hp : (m.proc p).state = .running) (huser : user = true ↔ m.frames p = [])
    (hok : trap m p trapno user = some m') : Inv (h ++ [.trap (some p) trapno user]) m' := by
  have hused := Proc.used_of_running hp
  have hframes : ∀ (m₁ : Machine) fs, m₁.frames = m.frames → ∀ q, q ≠ p →
      (m₁.setFrames p fs).frames q = m.frames q := by
    intro m₁ fs hsame q hne
    rw [setFrames_of_ne _ _ _ hne, hsame]
  -- A trap of another class leaves the count of the last one as it is.
  have hknown : trapnos trapno ≠ catchAll →
      0 < taken (h ++ [.trap (some p) trapno user]) p catchAll →
      (m.proc p).killed = true ∧ .syscall ∉ m.frames p := by
    intro hne hpos
    rw [taken_append, Event.taken, if_neg fun hq => hne hq.2] at hpos
    exact hi.caught p hused hpos
  simp only [Trap.trap] at hok
  split at hok
  · next hsys =>
    cases hok
    refine hi.of_count hused (Keeps.refl _) rfl (hframes _ _ rfl) fun hpos => ?_
    obtain ⟨hk, hf⟩ := hknown (fun hcatch => (unknown_of_catchAll hcatch).1 hsys) hpos
    refine ⟨hk, ?_⟩
    have hk' : ((m.count p trapno).proc p).killed = true := hk
    rw [setFrames_self, if_pos hk']
    exact fun hmem => hf (syscall_mem_tail hmem nofun)
  · split at hok
    · next hmem =>
      cases hok
      refine hi.of_count hused (Keeps.refl _) rfl (hframes _ _ rfl) fun hpos => ?_
      obtain ⟨hk, hf⟩ := hknown (fun hcatch => (unknown_of_catchAll hcatch).2 hmem) hpos
      refine ⟨hk, ?_⟩
      rw [setFrames_self]
      exact fun hmem => hf (syscall_mem_tail hmem nofun)
    · split at hok
      · next huser' =>
        cases hok
        refine hi.of_count hused (Keeps.set m.ptable p Iff.rfl fun _ => rfl) rfl
          (hframes _ _ rfl) fun _ => ?_
        -- The process was in user mode: it is marked now, and in no system call.
        have hnil : (m.count p trapno).frames p = [] := huser.mp huser'
        refine ⟨by simp [Machine.proc, Machine.setFrames, Machine.markKilled, Ptable.set], ?_⟩
        rw [setFrames_self, hnil]
        simp
      · cases hok

/-- The checks behind the handling of a trap. -/
theorem Inv.goOn (hi : Inv h m) {p : Slot} (hp : (m.proc p).state = .running)
    (hok : goOn m p = some m') : Inv (h ++ [.goOn p]) m' := by
  have hquiet : ∀ q i n, (Event.goOn p).taken q i n = n := fun _ _ _ => rfl
  unfold Trap.goOn at hok
  split at hok
  · next fs hfs =>
    cases hok
    refine hi.of_keeps (Keeps.refl _) rfl (frames_setFrames _ _ _ rfl fun hmem => ?_) hquiet
    rw [hfs]
    split at hmem
    · exact List.mem_cons_of_mem _ (syscall_mem_tail hmem nofun)
    · exact List.mem_cons_of_mem _ hmem
  · next user timer fs hfs =>
    split at hok
    · cases hok
      refine hi.of_keeps (Keeps.refl _) rfl (frames_setFrames _ _ _ rfl fun hmem => ?_) hquiet
      rw [hfs]
      exact List.mem_cons_of_mem _ (syscall_mem_tail hmem nofun)
    · simp only [Option.some.injEq] at hok
      subst hok
      have hkeeps : Keeps m.ptable (if timer = true then m.setState p .runnable else m).ptable := by
        split
        · refine Keeps.set m.ptable p ?_ id
          have hp' : (m.ptable.proc p).state = .running := hp
          simp [hp']
        · exact Keeps.refl _
      refine hi.of_keeps hkeeps ?_ (frames_setFrames _ _ _ ?_ fun hmem => ?_) hquiet
      · cases timer <;> rfl
      · cases timer <;> rfl
      · rw [hfs]
        exact List.mem_cons_of_mem _ (syscall_mem_tail hmem nofun)
  · next user fs hfs =>
    cases hok
    refine hi.of_keeps (Keeps.refl _) rfl (frames_setFrames _ _ _ rfl fun hmem => ?_) hquiet
    rw [hfs]
    split at hmem
    · exact List.mem_cons_of_mem _ (syscall_mem_tail hmem nofun)
    · exact List.mem_cons_of_mem _ hmem
  · cases hok

/-- What `fork` does to the table: it takes the first unused slot into use, or leaves it unused. -/
theorem fork_table (t : Ptable) (cur : Slot) (mem : Memory) :
    (findUnused t.proc = none ∧ (fork t cur mem).2 = t) ∨
    ∃ np, findUnused t.proc = some np ∧ ∀ q, q ≠ np → (fork t cur mem).2.proc q = t.proc q := by
  cases hfind : findUnused t.proc with
  | none => exact Or.inl ⟨rfl, by simp [fork, allocproc, hfind]⟩
  | some np =>
    refine Or.inr ⟨np, rfl, fun q hne => ?_⟩
    cases mem <;> simp [fork, allocproc, hfind, Ptable.set, update_of_ne hne]

/-- **`fork`** starts a process whose counters are zero, since an unused slot has them at zero. -/
theorem Inv.fork (hi : Inv h m) {p : Slot} {mem : Memory} {fs : List Frame}
    (hp : (m.proc p).state = .running) (hfs : m.frames p = .syscall :: fs) :
    Inv (h ++ [.fork p mem (findUnused m.ptable.proc)]) (sysFork m p mem fs) := by
  rcases fork_table m.ptable p mem with ⟨hnone, htable⟩ | ⟨np, hnp, htable⟩
  · refine hi.of_keeps ?_ rfl (fun q hq => ?_) fun q i n => ?_
    · rw [sysFork, htable]
      exact Keeps.refl _
    · simp only [sysFork, hnone] at hq
      refine frames_setFrames m p (.sysret :: fs) rfl (fun hmem => ?_) q hq
      rw [hfs]
      exact List.mem_cons_of_mem _ (syscall_mem_tail hmem nofun)
    · rw [hnone]
      rfl
  · have hun : (m.proc np).state = .unused := findUnused_spec hnp
    have hproc : ∀ q, q ≠ np → (sysFork m p mem fs).proc q = m.proc q := htable
    have htaken : ∀ q i, taken (h ++ [.fork p mem (findUnused m.ptable.proc)]) q i =
        if np = q then 0 else taken h q i := by
      intro q i
      rw [taken_append, hnp]
      rfl
    refine ⟨fun q hq i => ?_, fun q hq i => ?_, fun q hq hpos => ?_⟩
    · rcases eq_or_ne q np with rfl | hne
      · exact hi.unused q hun i
      · rw [hproc q hne] at hq
        exact hi.unused q hq i
    · rw [htaken]
      rcases eq_or_ne q np with rfl | hne
      · rw [if_pos rfl]
        exact hi.unused q hun i
      · rw [if_neg hne.symm]
        rw [hproc q hne] at hq
        exact hi.counts q hq i
    · rw [htaken] at hpos
      rcases eq_or_ne q np with rfl | hne
      · rw [if_pos rfl] at hpos
        exact absurd hpos (lt_irrefl 0)
      · rw [if_neg hne.symm] at hpos
        rw [hproc q hne] at hq ⊢
        obtain ⟨hk, hf⟩ := hi.caught q hq hpos
        refine ⟨hk, ?_⟩
        simp only [sysFork, hnp]
        rcases eq_or_ne q p with rfl | hqp
        · rw [hfs] at hf
          exact absurd List.mem_cons_self hf
        · rwa [update_of_ne hqp, update_of_ne hne]

/-- What `wait` does to the table: it clears the slot it reaps, and marks no slot otherwise. -/
theorem wait_table (t : Ptable) (cur : Slot) (hcur : (t.proc cur).state ≠ .unused) :
    (reaped t cur = none ∧ Keeps t (wait t cur).2) ∨
    ∃ q, reaped t cur = some q ∧ ((wait t cur).2.proc q).state = .unused ∧
      ∀ r, r ≠ q → ((wait t cur).2.proc r).state = (t.proc r).state ∧
        ((wait t cur).2.proc r).killed = (t.proc r).killed := by
  have hchan : Keeps t (t.set cur { t.proc cur with chan := none }) :=
    Keeps.set t cur Iff.rfl id
  cases hreap : reaped t cur with
  | none =>
    refine Or.inl ⟨rfl, ?_⟩
    rw [reaped] at hreap
    simp only [wait, hreap]
    split
    · exact hchan
    · refine hchan.trans (Keeps.set _ cur ?_ id)
      rw [set_proc_self]
      simp [hcur]
  | some q =>
    refine Or.inr ⟨q, rfl, ?_⟩
    rw [reaped] at hreap
    simp only [wait, hreap]
    refine ⟨by rw [set_proc_self]; rfl, fun r hne => ?_⟩
    rw [set_proc_of_ne _ _ hne]
    rcases eq_or_ne r cur with rfl | hr
    · rw [set_proc_self]
      exact ⟨rfl, rfl⟩
    · rw [set_proc_of_ne _ _ hr]
      exact ⟨rfl, rfl⟩

/-- **`wait`** clears the counters of the slot it frees. -/
theorem Inv.wait (hi : Inv h m) {p : Slot} {f : Frame} {fs : List Frame}
    (hp : (m.proc p).state = .running) (hfs : m.frames p = f :: fs) :
    Inv (h ++ [.wait p]) (sysWait m p fs) := by
  have hused : (m.ptable.proc p).state ≠ .unused := Proc.used_of_running hp
  have hframes : ∀ q, .syscall ∈ (sysWait m p fs).frames q → .syscall ∈ m.frames q := by
    intro q hq
    refine frames_setFrames m p (afterWait (Calls.wait m.ptable p).1 :: fs) rfl
      (fun hmem => ?_) q hq
    rw [hfs]
    refine List.mem_cons_of_mem _ (syscall_mem_tail hmem ?_)
    cases (Calls.wait m.ptable p).1 <;> exact nofun
  rcases wait_table m.ptable p hused with ⟨hnone, hkeeps⟩ | ⟨q, hq, hun, hsame⟩
  · refine hi.of_keeps hkeeps ?_ hframes fun _ _ _ => rfl
    simp only [sysWait, hnone]
  · have hcounts : (sysWait m p fs).trapcounts = update m.trapcounts q 0 := by
      simp only [sysWait, hq]
    have hstate : ∀ r, r ≠ q → ((sysWait m p fs).proc r).state = (m.proc r).state :=
      fun r hr => (hsame r hr).1
    have hfree : ((sysWait m p fs).proc q).state = .unused := hun
    refine ⟨fun r hr i => ?_, fun r hr i => ?_, fun r hr hpos => ?_⟩
    · rw [hcounts]
      rcases eq_or_ne r q with rfl | hne
      · rw [update_self]
        rfl
      · rw [update_of_ne hne]
        exact hi.unused r (hstate r hne ▸ hr) i
    · have hne : r ≠ q := by
        rintro rfl
        exact hr hfree
      rw [hcounts, update_of_ne hne, taken_append]
      exact hi.counts r (hstate r hne ▸ hr) i
    · have hne : r ≠ q := by
        rintro rfl
        exact hr hfree
      rw [taken_append] at hpos
      obtain ⟨hk, hf⟩ := hi.caught r (hstate r hne ▸ hr) hpos
      refine ⟨?_, mt (hframes r) hf⟩
      exact (hsame r hne).2.trans hk

/-- A step that only replaces the frame of a system call by another one. -/
theorem Inv.leave_syscall (hi : Inv h m) {p : Slot} {f g : Frame} {fs : List Frame} {t : Ptable}
    (hfs : m.frames p = f :: fs) (hg : g ≠ .syscall) (hkeeps : Keeps m.ptable t)
    (htaken : ∀ q i n, e.taken q i n = n) :
    Inv (h ++ [e]) ((m.setPtable t).setFrames p (g :: fs)) := by
  refine hi.of_keeps hkeeps rfl (frames_setFrames _ _ _ rfl fun hmem => ?_) htaken
  rw [hfs]
  exact List.mem_cons_of_mem _ (syscall_mem_tail hmem hg)

/-- **The invariant is kept by every step.** -/
theorem Inv.step (hi : Inv h m) (hstep : Step m e m') : Inv (h ++ [e]) m' := by
  cases hstep with
  | trap hp huser hok => exact hi.trap hp huser hok
  | trapNoProc _ => exact hi.of_keeps (Keeps.refl _) rfl (fun _ => id) fun _ _ _ => rfl
  | goOn hp hok => exact hi.goOn hp hok
  | fork hp hfs => exact hi.fork hp hfs
  | wait hp hfs _ => exact hi.wait hp hfs
  | kill hp hfs => exact hi.leave_syscall hfs nofun (keeps_kill _ _) fun _ _ _ => rfl
  | callExit hp hfs => exact hi.leave_syscall hfs nofun (Keeps.refl _) fun _ _ _ => rfl
  | countTraps hp hfs => exact hi.leave_syscall hfs nofun (Keeps.refl _) fun _ _ _ => rfl
  | other hp hfs => exact hi.leave_syscall hfs nofun (Keeps.refl _) fun _ _ _ => rfl
  | @exit p fs t hp hfs hok =>
    refine hi.of_keeps (keeps_exit (Proc.used_of_running hp) hok) rfl
      (frames_setFrames _ _ _ rfl fun hmem => ?_) fun _ _ _ => rfl
    exact absurd hmem List.not_mem_nil
  | @sched p hp =>
    have hp' : (m.ptable.proc p).state = .runnable := hp
    refine hi.of_keeps (Keeps.set m.ptable p ?_ id) rfl (fun _ => id) fun _ _ _ => rfl
    simp [hp']
  | @sleep p addr hp _ =>
    have hp' : (m.ptable.proc p).state = .running := hp
    refine hi.of_keeps (Keeps.set m.ptable p ?_ id) rfl (fun _ => id) fun _ _ _ => rfl
    simp [hp']
  | @wakeup chan =>
    exact hi.of_keeps (keeps_wakeup m.ptable chan) rfl (fun _ => id) fun _ _ _ => rfl

end Step

/-! ### The results -/

theorem boot_inv : Inv [] boot where
  unused _ _ _ := rfl
  counts _ _ _ := rfl
  caught _ _ hpos := absurd hpos (lt_irrefl 0)

/-- **`sys_countTraps` is exact** for a process that took no trap of the last class. -/
theorem sysCountTraps_eq {m : Machine} {p : Slot} {n : Fin NTRAPS → ℕ}
    (hcounts : ∀ i, m.trapcounts p i = BitVec.ofNat 32 (n i)) (hlast : n catchAll = 0) :
    sysCountTraps m p = BitVec.ofNat 32 (∑ i, n i) := by
  have hlast' : n (Fin.last 22) = 0 := hlast
  have htotal : ∑ i, n i = ∑ i : Fin 22, n i.castSucc := by
    rw [Fin.sum_univ_castSucc, hlast', Nat.add_zero]
  calc sysCountTraps m p
      = ∑ i : Fin (NTRAPS - 1), m.trapcounts p i.castSucc :=
        Table.foldl_add_ne_zero fun i : Fin (NTRAPS - 1) => m.trapcounts p i.castSucc
    _ = ∑ i : Fin 22, ((n i.castSucc : ℕ) : BitVec 32) :=
        Finset.sum_congr rfl fun i _ => hcounts i.castSucc
    _ = BitVec.ofNat 32 (∑ i, n i) := by rw [htotal, ← Nat.cast_sum]; rfl

/-- **Trap counters are exact.** After every run, the counter of a process for a class is, modulo
`2 ^ 32`, the number of traps of the class that the process took since its slot was allocated for
it; and whenever a process next executes `sys_countTraps`, the result is, modulo `2 ^ 32`, the
number of all traps it has taken. -/
theorem trapcounts_exact {h : List Event} {m : Machine} (hrun : Run Step boot h m) :
    (∀ p, (m.proc p).state ≠ .unused → ∀ i,
      m.trapcounts p i = BitVec.ofNat 32 (taken h p i)) ∧
    ∀ p result m', Step m (.countTraps p result) m' →
      result = BitVec.ofNat 32 (∑ i, taken h p i) := by
  have hi : Inv h m := hrun.invariant_history (fun _ _ _ _ hi hstep => hi.step hstep) boot_inv
  refine ⟨hi.counts, fun p result m' hstep => ?_⟩
  cases hstep with
  | countTraps hp hfs =>
    have hused := Proc.used_of_running hp
    refine sysCountTraps_eq (hi.counts p hused) (Nat.eq_zero_of_not_pos fun hpos => ?_)
    -- The process is in a system call, so it has taken no trap of the last class.
    refine (hi.caught p hused hpos).2 ?_
    rw [hfs]
    exact List.mem_cons_self

/-- The first process runs, and makes a system call: it has taken one trap. -/
theorem trapcounts_exact_first_call :
    ∃ m m', Run Step boot [.sched 0, .trap (some 0) T_SYSCALL true] m ∧
      Step m (.countTraps 0 (sysCountTraps m 0)) m' ∧
      sysCountTraps m 0 = BitVec.ofNat 32 1 := by
  have h1 : Step boot (.sched 0) (boot.setState 0 .running) := .sched (by decide)
  obtain ⟨m, hm, hfs, hstate⟩ : ∃ m, trap (boot.setState 0 .running) 0 T_SYSCALL true = some m ∧
      m.frames 0 = [.syscall] ∧ (m.proc 0).state = .running := ⟨_, rfl, by decide, by decide⟩
  have hrun := (Run.single h1).snoc (.trap (p := 0) (by decide) (by decide) hm)
  have hcall : Step m (.countTraps 0 (sysCountTraps m 0)) _ := .countTraps hstate hfs
  exact ⟨m, _, hrun, hcall, ((trapcounts_exact hrun).2 0 _ _ hcall).trans (by decide)⟩

end Xv6.Trap
