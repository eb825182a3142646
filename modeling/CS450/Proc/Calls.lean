import CS450.Lib.Run
import CS450.Proc.Table

/-!
# System calls on the process table

`fork`, `kill`, `exit` and `wait` of the trap-counting kernel, each as one step on the process
table. Whether `fork` finds the memory it needs is part of the step. The counters of the kernel are
kept with these steps; `Sched` has the same code with `fork` cut where it does not hold
`ptable.lock`.
-/

namespace Xv6.Calls

/-- The process table, the counter of pids and the first process. -/
structure Ptable where
  proc : ProcTable
  nextpid : ℤ
  initproc : Slot

def Ptable.set (t : Ptable) (p : Slot) (c : Proc) : Ptable :=
  { t with proc := Function.update t.proc p c }

/-- What `fork` finds: memory enough, none for the kernel stack, or too little for the copy. -/
inductive Memory
  | enough
  | noStack
  | noCopy
  deriving DecidableEq, Repr

/-- `allocproc`, given whether `kalloc` has a page for the kernel stack. -/
def allocproc (t : Ptable) (stack : Bool) : Option Slot × Ptable :=
  match findUnused t.proc with
  | none => (none, t)
  | some p =>
    let t' := t.set p { t.proc p with state := .embryo, pid := t.nextpid }
    let t' := { t' with nextpid := (t.nextpid + 1).bmod (2 ^ 32) }
    if stack then (some p, t')
    else (none, t'.set p { t'.proc p with state := .unused })

/-- `fork`: the pid of the child, or `none` for `-1`. -/
def fork (t : Ptable) (cur : Slot) (mem : Memory) : Option ℤ × Ptable :=
  match allocproc t (mem ≠ .noStack) with
  | (none, t) => (none, t)
  | (some np, t) =>
    if mem = .noCopy then (none, t.set np { t.proc np with state := .unused })
    else
      let t := t.set np { t.proc np with parent := some cur }
      (some (t.proc np).pid, t.set np { t.proc np with state := .runnable })

/-- `kill`: the first slot with the pid is marked, and woken if it sleeps. -/
def kill (t : Ptable) (pid : ℤ) : ℤ × Ptable :=
  match findPid pid t.proc with
  | none => (-1, t)
  | some p =>
    let t := t.set p { t.proc p with killed := true }
    if (t.proc p).state = .sleeping then (0, t.set p { t.proc p with state := .runnable })
    else (0, t)

/-- `exit`; `none` for the panic of the first process. -/
def exit (t : Ptable) (cur : Slot) : Option Ptable :=
  if cur = t.initproc then none
  else some { t with proc := exitTable cur t.initproc t.proc }

/-- `wait`: a child is reaped, there is nothing to wait for, or the caller goes to sleep. A caller
that was asleep first clears `chan`. -/
def wait (t : Ptable) (cur : Slot) : Option ℤ × Ptable :=
  let t := t.set cur { t.proc cur with chan := none }
  match findZombie cur t.proc with
  | some p => (some (t.proc p).pid, t.set p (t.proc p).reaped)
  | none =>
    if !havekids cur t.proc || (t.proc cur).killed then (some (-1), t)
    else (none, t.set cur { t.proc cur with chan := some (.proc cur), state := .sleeping })

/-- The table after `userinit`: the first process is in the first slot. -/
def userinit : Ptable :=
  (⟨fun _ => .zero, 1, 0⟩ : Ptable) |> fun t =>
    let t := (allocproc t true).2
    t.set 0 { t.proc 0 with state := .runnable }

theorem set_proc_self (t : Ptable) (p : Slot) (c : Proc) : (t.set p c).proc p = c :=
  Function.update_self ..

theorem set_proc_of_ne (t : Ptable) {p q : Slot} (c : Proc) (h : q ≠ p) :
    (t.set p c).proc q = t.proc q :=
  Function.update_of_ne h ..

end Xv6.Calls
