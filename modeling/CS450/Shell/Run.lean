import CS450.Lib.Process
import CS450.Shell.Parse

/-!
# Running a tree: the processes of `runcmd`

`runcmd` walks over the tree of a line and forks. A `;` node runs its command in a child, waits for
one child and goes on with the next node. An `&` node runs the commands of a linked list in one
child each, without waiting, and then waits until no child is left. A command is run by `execvp`;
the process that called it becomes the command, or prints that the command was not found and exits.

The list of an `&` node does not end in `NULL`: its last node is an empty command, which the loop
reads as if it were a node of the list. The words of an empty command are `NULL`, so the loop sees
no command and no next node there: it forks one more child, which exits at once, and stops.

A pointer to a node is the node with its place in the tree, so that two commands with the same
words are told apart. Scheduling is that of `Process.Step`: the processes take their steps in any
order, `fork` succeeds, and `wait` returns for a child that exited or because there is no child.

## Main results

* `Inv.step`, `Inv.of_run`: the commands still to run, the commands running and the commands that
  terminated make up the tree, and what a command has to wait for is above it in the process tree
* `Inv.exited`: when the first process has exited, every command has terminated
* `Inv.exec_after`: a command runs after those it has to wait for
* `Inv.exists_exec`: a command runs without any other command of its group terminating
-/

namespace Hwsh

open Process Transition

/-! ### Pointers -/

/-- The pointer fields of a node. -/
inductive Field where
  | cmd
  | next
  deriving DecidableEq, Repr

/-- A pointer to a node: the way from the root of the tree, and the node. -/
structure Ptr where
  addr : List Field
  node : Cmd
  deriving DecidableEq, Repr

/-- The field at the place of `cmd`. In a command that place holds the first word. -/
def Cmd.cmdField : Cmd → Option Cmd
  | .sequence c _ => some c
  | .parallel c _ => some c
  | .exec [] => none
  | .invalid [] => none
  | _ => some .unset

/-- The field at the place of `next`. In a command that place holds the second word. -/
def Cmd.nextField : Cmd → Option Cmd
  | .sequence _ n => some n
  | .parallel _ n => some n
  | .exec [] => none
  | .exec [_] => none
  | .invalid [] => none
  | .invalid [_] => none
  | _ => some .unset

/-- The pointer `p->cmd`. -/
def Ptr.cmd (p : Ptr) : Option Ptr :=
  p.node.cmdField.map (Ptr.mk (p.addr ++ [.cmd]))

/-- The pointer `p->next`. -/
def Ptr.next (p : Ptr) : Option Ptr :=
  p.node.nextField.map (Ptr.mk (p.addr ++ [.next]))

/-! ### The program -/

/-- What a process of the shell does next. -/
inductive Code where
  /-- It calls `runcmd(cmd)`. -/
  | runcmd (cmd : Option Ptr)
  /-- It waits for the first part of a sequence, and then runs the rest. -/
  | seqWait (next : Option Ptr)
  /-- It is at the head of the loop over the commands of an `&` node. -/
  | loop (prcmd : Option Ptr)
  /-- It waits until it has no child. -/
  | waitAll
  /-- It called `execvp` and is the command, or `hwsh` on its way to `exit` when no file was
  found. -/
  | command (cmd : Ptr) (found : Bool)
  /-- It calls `exit`. -/
  | exiting
  | exited
  | reaped
  deriving DecidableEq, Repr

/-- The labels of the steps a process takes by itself. -/
inductive Act where
  | tau
  /-- The call of `execvp` for a command. -/
  | exec (cmd : Ptr) (found : Bool)
  /-- The end of a process, with the command it called `execvp` for, if it did. -/
  | exit (cmd : Option Ptr)
  deriving DecidableEq

/-- The steps of a process by itself. -/
inductive Acts : Code → Act → Code → Prop
  | null : Acts (.runcmd none) .tau .exiting
  | invalid {a : List Field} {argv : List Word} :
      Acts (.runcmd (some ⟨a, .invalid argv⟩)) .tau .exiting
  | exec {a : List Field} {argv : List Word} {found : Bool} : (argv = [] → found = false) →
      Acts (.runcmd (some ⟨a, .exec argv⟩)) (.exec ⟨a, .exec argv⟩ found)
        (.command ⟨a, .exec argv⟩ found)
  | parallel {a : List Field} {c n : Cmd} :
      Acts (.runcmd (some ⟨a, .parallel c n⟩)) .tau (.loop (some ⟨a, .parallel c n⟩))
  | loopEnd : Acts (.loop none) .tau .waitAll
  | terminate {p : Ptr} {found : Bool} : Acts (.command p found) (.exit (some p)) .exited
  | exit : Acts .exiting (.exit none) .exited

/-- The calls of `fork`: how the parent goes on, and what the child does. -/
inductive Forks : Code → Code → Code → Prop
  | sequence {a : List Field} {c n : Cmd} :
      Forks (.runcmd (some ⟨a, .sequence c n⟩)) (.seqWait (Ptr.next ⟨a, .sequence c n⟩))
        (.runcmd (Ptr.cmd ⟨a, .sequence c n⟩))
  | loop {p : Ptr} : p.node ≠ .unset → Forks (.loop (some p)) (.loop p.next) (.runcmd p.cmd)

/-- How a process goes on when `wait` returned a child. -/
inductive Reaps : Code → Code → Prop
  | sequence {n : Option Ptr} : Reaps (.seqWait n) (.runcmd n)
  | all : Reaps .waitAll .waitAll

/-- How a process goes on when `wait` returned `-1`. -/
inductive Idles : Code → Code → Prop
  | sequence {n : Option Ptr} : Idles (.seqWait n) (.runcmd n)
  | all : Idles .waitAll .exiting

/-- The program of the shell's processes. -/
def shell : Program Code Act where
  act := Acts
  fork := Forks
  reap := Reaps
  idle := Idles
  exited := .exited
  reaped := .reaped

/-- The process that runs a tree, before its first step. -/
def start (t : Cmd) : Forest Code where
  n := 1
  parent := fun _ => none
  code := fun _ => .runcmd (some ⟨[], t⟩)

/-- How many children a code may have that are not gone. -/
def limit : Code → ℕ∞
  | .seqWait _ => 1
  | .loop _ => ⊤
  | .waitAll => ⊤
  | _ => 0

theorem shell_discipline : Discipline shell limit where
  act h := by cases h <;> exact ⟨by simp [limit], nofun, nofun⟩
  fork h := by cases h <;> exact ⟨by simp [limit], nofun, nofun⟩
  reap h := by cases h <;> exact ⟨by simp [limit], nofun, nofun⟩
  idle h := by cases h <;> exact ⟨nofun, nofun⟩
  exited_ne := nofun
  exited := rfl
  reaped := rfl

/-! ### The commands of a tree -/

mutual

/-- The commands `runcmd` runs. -/
def Cmd.commands : Cmd → List Field → List Ptr
  | .exec argv, a => [⟨a, .exec argv⟩]
  | .sequence c n, a => c.commands (a ++ [.cmd]) ++ n.commands (a ++ [.next])
  | .parallel c n, a => c.commands (a ++ [.cmd]) ++ n.loopCommands (a ++ [.next])
  | .invalid _, _ => []
  | .unset, _ => []

/-- The commands the loop of an `&` node runs. -/
def Cmd.loopCommands : Cmd → List Field → List Ptr
  | .exec _, _ => []
  | .sequence c n, a => c.commands (a ++ [.cmd]) ++ n.loopCommands (a ++ [.next])
  | .parallel c n, a => c.commands (a ++ [.cmd]) ++ n.loopCommands (a ++ [.next])
  | .invalid _, _ => []
  | .unset, _ => []

end

mutual

/-- The pairs of commands of which the second has to wait for the first: those of a sequence's
command come before those of its next node. -/
def Cmd.order : Cmd → List Field → List (Ptr × Ptr)
  | .sequence c n, a =>
    c.commands (a ++ [.cmd]) ×ˢ n.commands (a ++ [.next]) ++
      (c.order (a ++ [.cmd]) ++ n.order (a ++ [.next]))
  | .parallel c n, a => c.order (a ++ [.cmd]) ++ n.loopOrder (a ++ [.next])
  | .exec _, _ => []
  | .invalid _, _ => []
  | .unset, _ => []

/-- The same for the loop of an `&` node. -/
def Cmd.loopOrder : Cmd → List Field → List (Ptr × Ptr)
  | .sequence c n, a => c.order (a ++ [.cmd]) ++ n.loopOrder (a ++ [.next])
  | .parallel c n, a => c.order (a ++ [.cmd]) ++ n.loopOrder (a ++ [.next])
  | .exec _, _ => []
  | .invalid _, _ => []
  | .unset, _ => []

end

mutual

/-- No pointer that was never set is followed. -/
def Cmd.Sound : Cmd → Prop
  | .exec _ => True
  | .sequence c n => c.Sound ∧ n.Sound
  | .parallel c n => c.Sound ∧ n.LoopSound
  | .invalid _ => True
  | .unset => False

/-- The same for the loop of an `&` node: a list that ends in an empty command. -/
def Cmd.LoopSound : Cmd → Prop
  | .exec argv => argv = []
  | .sequence c n => c.Sound ∧ n.LoopSound
  | .parallel c n => c.Sound ∧ n.LoopSound
  | .invalid argv => argv = []
  | .unset => False

end

/-- A bound on the steps of the processes that run a tree, and of those of the loop. -/
def Cmd.steps : Cmd → ℕ × ℕ
  | .exec _ => (3, 8)
  | .sequence c n => (c.steps.1 + n.steps.1 + 2, c.steps.1 + n.steps.2 + 1)
  | .parallel c n => (c.steps.1 + n.steps.2 + 2, c.steps.1 + n.steps.2 + 1)
  | .invalid _ => (3, 8)
  | .unset => (3, 4)

namespace Code

/-- The commands a process and its future children have still to run. -/
def todo : Code → List Ptr
  | .runcmd (some p) => p.node.commands p.addr
  | .seqWait (some p) => p.node.commands p.addr
  | .loop (some p) => p.node.loopCommands p.addr
  | _ => []

/-- The same, and the command the process is. -/
def pending : Code → List Ptr
  | .command p _ => [p]
  | c => c.todo

/-- The commands that run only after the process waited for a child. -/
def guarded : Code → List Ptr
  | .seqWait (some p) => p.node.commands p.addr
  | _ => []

/-- Which of its commands has to wait for which. -/
def order : Code → List (Ptr × Ptr)
  | .runcmd (some p) => p.node.order p.addr
  | .seqWait (some p) => p.node.order p.addr
  | .loop (some p) => p.node.loopOrder p.addr
  | _ => []

/-- The code follows no pointer that was never set. -/
def Sound : Code → Prop
  | .runcmd (some p) => p.node.Sound
  | .seqWait (some p) => p.node.Sound
  | .loop (some p) => p.node.LoopSound
  | _ => True

/-- A bound on the steps of the process and its future children. -/
def steps : Code → ℕ
  | .runcmd none => 3
  | .runcmd (some p) => p.node.steps.1
  | .seqWait none => 4
  | .seqWait (some p) => p.node.steps.1 + 1
  | .loop none => 4
  | .loop (some p) => p.node.steps.2
  | .waitAll => 3
  | .command _ _ => 2
  | .exiting => 2
  | .exited => 1
  | .reaped => 0

end Code

/-! ### What one step does to the commands -/

theorem Cmd.sound_cmdField {t : Cmd} (h : t.LoopSound) :
    (∀ c ∈ t.cmdField, c.Sound) ∧ ∀ n ∈ t.nextField, n.LoopSound := by
  cases t with
  | exec argv =>
    obtain rfl : argv = [] := h
    simp [Cmd.cmdField, Cmd.nextField]
  | sequence c n => simpa [Cmd.cmdField, Cmd.nextField, Cmd.LoopSound] using h
  | parallel c n => simpa [Cmd.cmdField, Cmd.nextField, Cmd.LoopSound] using h
  | invalid argv =>
    obtain rfl : argv = [] := h
    simp [Cmd.cmdField, Cmd.nextField]
  | unset => exact absurd h (by simp [Cmd.LoopSound])

/-- The command of a call of `execvp`. -/
def Act.execs : Act → List Ptr
  | .exec p _ => [p]
  | _ => []

/-- The command that ends with a process. -/
def Act.ends : Act → List Ptr
  | .exit (some p) => [p]
  | _ => []

section Local

variable {c c' d : Code} {e : Act}

theorem Acts.todo_eq (h : Acts c e c') : c.todo = c'.todo ++ e.execs := by
  cases h <;> simp [Code.todo, Act.execs, Cmd.commands, Cmd.loopCommands]

theorem Acts.pending_eq (h : Acts c e c') : c.pending = c'.pending ++ e.ends := by
  cases h <;> simp [Code.pending, Code.todo, Act.ends, Cmd.commands, Cmd.loopCommands]

theorem Acts.order_eq (h : Acts c e c') : c'.order = c.order := by
  cases h <;> simp [Code.order, Cmd.order, Cmd.loopOrder]

theorem Acts.guarded_eq (h : Acts c e c') : c'.guarded = c.guarded := by
  cases h <;> rfl

theorem Acts.sound (h : Acts c e c') (hs : c.Sound) : c'.Sound := by
  cases h with
  | parallel => simpa [Code.Sound, Cmd.Sound, Cmd.LoopSound] using hs
  | _ => trivial

theorem Acts.steps_lt (h : Acts c e c') : c'.steps < c.steps := by
  cases h <;> simp [Code.steps, Cmd.steps]

/-- Reading the fields of a node divides the commands of the loop. -/
theorem Cmd.loopCommands_fields (t : Cmd) (a : List Field) :
    t.loopCommands a = (t.cmdField.elim [] fun c => c.commands (a ++ [.cmd])) ++
      (t.nextField.elim [] fun n => n.loopCommands (a ++ [.next])) := by
  match t with
  | .sequence c n => simp [Cmd.loopCommands, Cmd.cmdField, Cmd.nextField]
  | .parallel c n => simp [Cmd.loopCommands, Cmd.cmdField, Cmd.nextField]
  | .exec [] | .invalid [] | .unset =>
    simp [Cmd.loopCommands, Cmd.commands, Cmd.cmdField, Cmd.nextField]
  | .exec [_] | .invalid [_] =>
    simp [Cmd.loopCommands, Cmd.commands, Cmd.cmdField, Cmd.nextField]
  | .exec (_ :: _ :: _) | .invalid (_ :: _ :: _) =>
    simp [Cmd.loopCommands, Cmd.commands, Cmd.cmdField, Cmd.nextField]

theorem Cmd.loopOrder_fields (t : Cmd) (a : List Field) :
    t.loopOrder a = (t.cmdField.elim [] fun c => c.order (a ++ [.cmd])) ++
      (t.nextField.elim [] fun n => n.loopOrder (a ++ [.next])) := by
  match t with
  | .sequence c n => simp [Cmd.loopOrder, Cmd.cmdField, Cmd.nextField]
  | .parallel c n => simp [Cmd.loopOrder, Cmd.cmdField, Cmd.nextField]
  | .exec [] | .invalid [] | .unset =>
    simp [Cmd.loopOrder, Cmd.order, Cmd.cmdField, Cmd.nextField]
  | .exec [_] | .invalid [_] =>
    simp [Cmd.loopOrder, Cmd.order, Cmd.cmdField, Cmd.nextField]
  | .exec (_ :: _ :: _) | .invalid (_ :: _ :: _) =>
    simp [Cmd.loopOrder, Cmd.order, Cmd.cmdField, Cmd.nextField]

theorem todo_runcmd (p : Option Ptr) :
    (Code.runcmd p).todo = p.elim [] fun p => p.node.commands p.addr := by
  cases p <;> rfl

theorem todo_loop (p : Option Ptr) :
    (Code.loop p).todo = p.elim [] fun p => p.node.loopCommands p.addr := by
  cases p <;> rfl

theorem order_runcmd (p : Option Ptr) :
    (Code.runcmd p).order = p.elim [] fun p => p.node.order p.addr := by
  cases p <;> rfl

theorem order_loop (p : Option Ptr) :
    (Code.loop p).order = p.elim [] fun p => p.node.loopOrder p.addr := by
  cases p <;> rfl

/-- A fork divides the commands between the parent and the child. -/
theorem Forks.todo_eq (h : Forks c c' d) : c.todo = d.todo ++ c'.todo := by
  cases h with
  | sequence => rfl
  | @loop p _ =>
    rw [todo_runcmd, todo_loop, todo_loop, Ptr.cmd, Ptr.next]
    simp only [Option.elim_some, Option.elim_map]
    exact Cmd.loopCommands_fields p.node p.addr

theorem Forks.pending_eq (h : Forks c c' d) :
    c.pending = c.todo ∧ c'.pending = c'.todo ∧ d.pending = d.todo := by
  cases h <;> exact ⟨rfl, rfl, rfl⟩

/-- A fork divides what has to wait for what: the commands of the child come before those the
parent waits with. -/
theorem Forks.order_eq (h : Forks c c' d) :
    c.order = d.todo ×ˢ c'.guarded ++ (d.order ++ c'.order) := by
  cases h with
  | sequence => rfl
  | @loop p _ =>
    rw [order_runcmd, order_loop, order_loop, Ptr.cmd, Ptr.next]
    have hnil : ∀ p, (Code.loop p).guarded = [] := fun p => by cases p <;> rfl
    simp only [hnil, List.product_nil, List.nil_append, Option.elim_some, Option.elim_map]
    exact Cmd.loopOrder_fields p.node p.addr

/-- A process that starts to wait for a child had none before. -/
theorem Forks.guarded (h : Forks c c' d) :
    c.guarded = [] ∧ d.guarded = [] ∧ (c'.guarded = [] ∨ limit c = 0) := by
  cases h with
  | sequence => exact ⟨rfl, rfl, Or.inr rfl⟩
  | @loop p _ =>
    refine ⟨rfl, rfl, Or.inl ?_⟩
    cases p.next <;> rfl

theorem Forks.sound (h : Forks c c' d) (hs : c.Sound) : c'.Sound ∧ d.Sound := by
  cases h with
  | sequence => exact ⟨hs.2, hs.1⟩
  | @loop p _ =>
    obtain ⟨hcmd, hnext⟩ := Cmd.sound_cmdField hs
    rw [Ptr.next, Ptr.cmd]
    constructor
    · cases hn : p.node.nextField with
      | none => trivial
      | some n => exact hnext n hn
    · cases hc : p.node.cmdField with
      | none => trivial
      | some n => exact hcmd n hc

theorem Forks.steps_lt (h : Forks c c' d) : c'.steps + d.steps < c.steps := by
  cases h with
  | @sequence a t n =>
    simp only [Ptr.next, Ptr.cmd, Cmd.cmdField, Cmd.nextField, Option.map_some, Code.steps,
      Cmd.steps]
    omega
  | @loop p hne =>
    obtain ⟨a, t⟩ := p
    match t, hne with
    | .sequence _ _, _ | .parallel _ _, _ =>
      simp only [Ptr.next, Ptr.cmd, Cmd.cmdField, Cmd.nextField, Option.map_some, Code.steps,
        Cmd.steps]
      omega
    | .exec [], _ | .invalid [], _ => simp [Ptr.next, Ptr.cmd, Cmd.cmdField, Cmd.nextField,
        Code.steps, Cmd.steps]
    | .exec [_], _ | .invalid [_], _ => simp [Ptr.next, Ptr.cmd, Cmd.cmdField, Cmd.nextField,
        Code.steps, Cmd.steps]
    | .exec (_ :: _ :: _), _ | .invalid (_ :: _ :: _), _ =>
      simp [Ptr.next, Ptr.cmd, Cmd.cmdField, Cmd.nextField, Code.steps, Cmd.steps]
    | .unset, hne => exact absurd rfl hne

/-- `wait` changes nothing about the commands of the process. -/
theorem Reaps.same (h : Reaps c c') : c'.todo = c.todo ∧ c'.pending = c.pending ∧
    c'.order = c.order ∧ (c.Sound → c'.Sound) ∧ c'.steps ≤ c.steps := by
  cases h with
  | all => exact ⟨rfl, rfl, rfl, id, le_rfl⟩
  | @sequence n => cases n <;> exact ⟨rfl, rfl, rfl, id, by simp [Code.steps]⟩

theorem Idles.same (h : Idles c c') : c'.todo = c.todo ∧ c'.pending = c.pending ∧
    c'.order = c.order ∧ (c.Sound → c'.Sound) ∧ c'.steps < c.steps := by
  cases h with
  | all => exact ⟨rfl, rfl, rfl, id, by simp [Code.steps]⟩
  | @sequence n => cases n <;> exact ⟨rfl, rfl, rfl, id, by simp [Code.steps]⟩

/-- When `wait` returned, nothing is guarded any more, or nothing was; and the former leaves the
process without a child. -/
theorem Reaps.guarded (h : Reaps c c') : c'.guarded = c.guarded ∨ limit c' = 0 := by
  cases h with
  | all => exact Or.inl rfl
  | sequence => exact Or.inr rfl

theorem Idles.guarded (h : Idles c c') : limit c' = 0 := by
  cases h <;> rfl

end Local

/-! ### The commands of a tree are distinct -/

/-- Every command of a tree lies below its root. -/
theorem Cmd.addr_of_mem (t : Cmd) : ∀ a x,
    (x ∈ t.commands a → a <+: x.addr) ∧ (x ∈ t.loopCommands a → a <+: x.addr) := by
  have hdown : ∀ {a : List Field} {f : Field} {x : Ptr}, a ++ [f] <+: x.addr → a <+: x.addr :=
    fun h => (List.prefix_append _ _).trans h
  induction t with
  | exec argv =>
    intro a x
    refine ⟨fun h => ?_, fun h => absurd h List.not_mem_nil⟩
    rw [List.mem_singleton.mp h]
  | sequence c n ihc ihn =>
    intro a x
    constructor
    · intro h
      rcases List.mem_append.mp h with h | h
      · exact hdown ((ihc _ x).1 h)
      · exact hdown ((ihn _ x).1 h)
    · intro h
      rcases List.mem_append.mp h with h | h
      · exact hdown ((ihc _ x).1 h)
      · exact hdown ((ihn _ x).2 h)
  | parallel c n ihc ihn =>
    intro a x
    constructor
    · intro h
      rcases List.mem_append.mp h with h | h
      · exact hdown ((ihc _ x).1 h)
      · exact hdown ((ihn _ x).2 h)
    · intro h
      rcases List.mem_append.mp h with h | h
      · exact hdown ((ihc _ x).1 h)
      · exact hdown ((ihn _ x).2 h)
  | invalid argv => exact fun a x => ⟨nofun, nofun⟩
  | unset => exact fun a x => ⟨nofun, nofun⟩

/-- A place is not both in the command and in the next node. -/
theorem not_both_fields {a b : List Field} (hc : a ++ [.cmd] <+: b) (hn : a ++ [.next] <+: b) :
    False := by
  have h := List.prefix_of_prefix_length_le hc hn (by simp)
  have := h.eq_of_length (by simp)
  simp at this

theorem Cmd.commands_nodup (t : Cmd) : ∀ a, (t.commands a).Nodup ∧ (t.loopCommands a).Nodup := by
  induction t with
  | exec argv => exact fun a => ⟨List.nodup_singleton _, List.nodup_nil⟩
  | sequence c n ihc ihn =>
    intro a
    constructor
    · refine (ihc _).1.append (ihn _).1 fun x hx hx' => ?_
      exact not_both_fields ((c.addr_of_mem _ x).1 hx) ((n.addr_of_mem _ x).1 hx')
    · refine (ihc _).1.append (ihn _).2 fun x hx hx' => ?_
      exact not_both_fields ((c.addr_of_mem _ x).1 hx) ((n.addr_of_mem _ x).2 hx')
  | parallel c n ihc ihn =>
    intro a
    have h : (c.commands (a ++ [.cmd]) ++ n.loopCommands (a ++ [.next])).Nodup := by
      refine (ihc _).1.append (ihn _).2 fun x hx hx' => ?_
      exact not_both_fields ((c.addr_of_mem _ x).1 hx) ((n.addr_of_mem _ x).2 hx')
    exact ⟨h, h⟩
  | invalid argv => exact fun a => ⟨List.nodup_nil, List.nodup_nil⟩
  | unset => exact fun a => ⟨List.nodup_nil, List.nodup_nil⟩

variable {x y : Ptr} {p : ℕ}

/-- Pairs from two lists put one after the other. -/
private theorem mem_append_pair {l₁ l₂ : List Ptr} {r₁ r₂ : List (Ptr × Ptr)}
    (h₁ : (x, y) ∈ r₁ → x ∈ l₁ ∧ y ∈ l₁) (h₂ : (x, y) ∈ r₂ → x ∈ l₂ ∧ y ∈ l₂)
    (h : (x, y) ∈ r₁ ++ r₂) : x ∈ l₁ ++ l₂ ∧ y ∈ l₁ ++ l₂ := by
  rcases List.mem_append.mp h with h | h
  · exact (h₁ h).imp (List.mem_append_left l₂) (List.mem_append_left l₂)
  · exact (h₂ h).imp (List.mem_append_right l₁) (List.mem_append_right l₁)

/-- Both commands of an ordered pair are commands of the tree. -/
theorem Cmd.mem_of_order (t : Cmd) : ∀ a x y,
    ((x, y) ∈ t.order a → x ∈ t.commands a ∧ y ∈ t.commands a) ∧
    ((x, y) ∈ t.loopOrder a → x ∈ t.loopCommands a ∧ y ∈ t.loopCommands a) := by
  induction t with
  | exec argv => exact fun a x y => ⟨nofun, nofun⟩
  | sequence c n ihc ihn =>
    intro a x y
    have hc := ihc (a ++ [.cmd]) x y
    have hn := ihn (a ++ [.next]) x y
    refine ⟨fun h => ?_, mem_append_pair hc.1 hn.2⟩
    -- The only new pairs have their first command in `c` and their second one in `n`.
    rcases List.mem_append.mp h with h | h
    · rw [List.mem_product] at h
      exact ⟨List.mem_append_left _ h.1, List.mem_append_right _ h.2⟩
    · exact mem_append_pair hc.1 hn.1 h
  | parallel c n ihc ihn =>
    intro a x y
    have hc := ihc (a ++ [.cmd]) x y
    have hn := ihn (a ++ [.next]) x y
    exact ⟨mem_append_pair hc.1 hn.2, mem_append_pair hc.1 hn.2⟩
  | invalid argv => exact fun a x y => ⟨nofun, nofun⟩
  | unset => exact fun a x y => ⟨nofun, nofun⟩

theorem Code.mem_of_order {c : Code} (h : (x, y) ∈ c.order) :
    x ∈ c.todo ∧ y ∈ c.todo := by
  match c, h with
  | .runcmd (some p), h => exact (p.node.mem_of_order _ x y).1 h
  | .seqWait (some p), h => exact (p.node.mem_of_order _ x y).1 h
  | .loop (some p), h => exact (p.node.mem_of_order _ x y).2 h

theorem Code.mem_todo_of_guarded {c : Code} (h : y ∈ c.guarded) : y ∈ c.todo := by
  match c, h with
  | .seqWait (some p), h => exact h

/-! ### The invariant -/

/-- How often `execvp` was called for a command. -/
def execCount (h : List (Event Act)) (x : Ptr) : ℕ :=
  (h.map (Event.tick fun e => e.execs.count x)).sum

/-- How many processes ended as the command. -/
def endCount (h : List (Event Act)) (x : Ptr) : ℕ :=
  (h.map (Event.tick fun e => e.ends.count x)).sum

/-- The command has terminated. -/
def Terminated (h : List (Event Act)) (x : Ptr) : Prop :=
  0 < endCount h x

/-- **The invariant** of the processes that run the tree `t`, after the events `h`. -/
structure Inv (t : Cmd) (h : List (Event Act)) (s : Forest Code) : Prop where
  kept : Kept shell limit s
  /-- The first process is there, and all others are below it. -/
  root : 0 < s.n ∧ s.parent 0 = none ∧ s.code 0 ≠ .reaped ∧ ∀ p, p < s.n → p ≠ 0 → s.Desc 0 p
  sound : ∀ p, p < s.n → (s.code p).Sound
  /-- A command of the tree is still to be run, or was run. -/
  execs : ∀ x, execCount h x + total (fun c => c.todo.count x) s = (t.commands []).count x
  /-- A command of the tree has not terminated yet, or it has. -/
  ends : ∀ x, endCount h x + total (fun c => c.pending.count x) s = (t.commands []).count x
  /-- What has to wait for a command that has not terminated is still to be run, by the same
  process in this order or by a process above that waits. -/
  order : ∀ p, p < s.n → ∀ x ∈ (s.code p).pending, ∀ y, (x, y) ∈ t.order [] ↔
    (x, y) ∈ (s.code p).order ∨ ∃ q, s.Desc q p ∧ y ∈ (s.code q).guarded

theorem start_inv {t : Cmd} (ht : t.Sound) : Inv t [] (start t) := by
  have hnone : ∀ p q, ¬ (start t).Child p q := fun p q h => nomatch h.2
  have hdesc : ∀ p q, ¬ (start t).Desc p q := by
    intro p q h
    cases h with
    | single h => exact hnone _ _ h
    | tail _ h => exact hnone _ _ h
  refine
    { kept := ⟨fun p q h => absurd h (hnone p q), fun p _ => ?_⟩
      root := ⟨Nat.one_pos, rfl, nofun, fun p hp hne => absurd (Nat.lt_one_iff.mp hp) hne⟩
      sound := fun p _ => ht
      execs := fun x => by simp [execCount, total, start, Code.todo]
      ends := fun x => by simp [endCount, total, start, Code.pending, Code.todo]
      order := fun p _ x _ y => ?_ }
  · have hempty : kids shell (start t) p = ∅ := by
      apply Finset.eq_empty_of_forall_notMem
      intro q hq
      exact hnone p q (mem_kids.mp hq).1
    simp [hempty]
  · constructor
    · exact Or.inl
    · rintro (h | ⟨q, hq, _⟩)
      · exact h
      · exact absurd hq (hdesc q p)

section Step

variable {t : Cmd} {h : List (Event Act)} {s s' : Forest Code} {e : Event Act}

theorem execCount_append (h h' : List (Event Act)) (x : Ptr) :
    execCount (h ++ h') x = execCount h x + execCount h' x := by
  simp only [execCount, List.map_append, List.sum_append]

theorem endCount_append (h h' : List (Event Act)) (x : Ptr) :
    endCount (h ++ h') x = endCount h x + endCount h' x := by
  simp only [endCount, List.map_append, List.sum_append]

theorem execCount_singleton (e : Event Act) (x : Ptr) :
    execCount [e] x = e.tick fun e => e.execs.count x := by
  simp [execCount]

theorem endCount_singleton (e : Event Act) (x : Ptr) :
    endCount [e] x = e.tick fun e => e.ends.count x := by
  simp [endCount]

/-- A command leaves the commands to be run when `execvp` is called for it. -/
theorem todo_conserved (x : Ptr) :
    Conserved shell (fun c => c.todo.count x) fun e => e.execs.count x where
  act h := by rw [Acts.todo_eq h, List.count_append]
  fork h := by rw [Forks.todo_eq h, List.count_append, Nat.add_comm]
  reap h := by rw [(Reaps.same h).1]
  idle h := by rw [(Idles.same h).1]
  gone := rfl

/-- A command leaves the commands that have not terminated when its process ends. -/
theorem pending_conserved (x : Ptr) :
    Conserved shell (fun c => c.pending.count x) fun e => e.ends.count x where
  act h := by rw [Acts.pending_eq h, List.count_append]
  fork h := by
    obtain ⟨h1, h2, h3⟩ := Forks.pending_eq h
    rw [h1, h2, h3, Forks.todo_eq h, List.count_append, Nat.add_comm]
  reap h := by rw [(Reaps.same h).2.1]
  idle h := by rw [(Idles.same h).2.1]
  gone := rfl

theorem steps_decreasing : Decreasing shell Code.steps where
  act h := Acts.steps_lt h
  fork h := Forks.steps_lt h
  reap h := (Reaps.same h).2.2.2.2
  idle h := (Idles.same h).2.2.2.2
  gone := Nat.zero_lt_one

/-- A command stands at most once in the code of a process. -/
theorem Inv.todo_nodup (hi : Inv t h s) (hp : p < s.n) : (s.code p).todo.Nodup := by
  rw [List.nodup_iff_count_le_one]
  intro x
  have h1 := hi.execs x
  have h2 : (s.code p).todo.count x ≤ total (fun c => c.todo.count x) s :=
    le_total (w := fun c => c.todo.count x) hp
  have h3 := List.nodup_iff_count_le_one.mp (t.commands_nodup []).1 x
  omega

/-- A process that is not gone or was not there before is below the first one. -/
theorem Inv.root_step (hi : Inv t h s) (hstep : Step shell s e s') :
    0 < s'.n ∧ s'.parent 0 = none ∧ s'.code 0 ≠ .reaped ∧
      ∀ p, p < s'.n → p ≠ 0 → s'.Desc 0 p := by
  obtain ⟨hn, hparent, hcode, hdesc⟩ := hi.root
  cases hstep with
  | @act p e c hp hact =>
    refine ⟨hn, hparent, ?_, hdesc⟩
    by_cases h0 : 0 = p
    · subst h0
      exact (shell_discipline.act hact).2.2
    · rwa [Forest.become_of_ne h0]
  | @fork p c d hp hfork =>
    refine ⟨Nat.succ_pos _, ?_, ?_, ?_⟩
    · simpa [Forest.spawn, Function.update_of_ne hn.ne] using hparent
    · by_cases h0 : 0 = p
      · subst h0
        rw [Forest.spawn_self hp]
        exact (shell_discipline.fork hfork).2.2
      · rwa [Forest.spawn_of_ne hn h0]
    · intro r hr hr0
      rcases Nat.lt_succ_iff_lt_or_eq.mp hr with hr | rfl
      · exact (hdesc r hr hr0).spawn
      · have hchild : (s.spawn p c d).Child p s.n := Forest.spawn_child_iff.mpr (Or.inr ⟨rfl, rfl⟩)
        by_cases hp0 : p = 0
        · subst hp0
          exact .single hchild
        · exact .tail (hdesc p hp hp0).spawn hchild
  | @reap p q c hp hreap hchild hq =>
    have hq0 : 0 ≠ q := by
      rintro rfl
      rw [Forest.Child, hparent] at hchild
      exact absurd hchild.2 (by simp)
    refine ⟨hn, hparent, ?_, hdesc⟩
    rw [Forest.become_of_ne hq0]
    by_cases h0 : 0 = p
    · subst h0
      exact (shell_discipline.reap hreap).2.2
    · rwa [Forest.become_of_ne h0]
  | @idle p c hp hidle _ =>
    refine ⟨hn, hparent, ?_, hdesc⟩
    by_cases h0 : 0 = p
    · subst h0
      exact (shell_discipline.idle hidle).2
    · rwa [Forest.become_of_ne h0]

theorem Inv.sound_step (hi : Inv t h s) (hstep : Step shell s e s') :
    ∀ p, p < s'.n → (s'.code p).Sound := by
  have hbecome : ∀ {p c}, c.Sound → ∀ r, r < s.n → ((s.become p c).code r).Sound := by
    intro p c hc r hr
    by_cases hrp : r = p
    · rwa [hrp, Forest.become_self]
    · rw [Forest.become_of_ne hrp]
      exact hi.sound r hr
  cases hstep with
  | @act p e c hp hact => exact hbecome (Acts.sound hact (hi.sound p hp))
  | @fork p c d hp hfork =>
    obtain ⟨hc, hd⟩ := Forks.sound hfork (hi.sound p hp)
    intro r hr
    rcases Nat.lt_succ_iff_lt_or_eq.mp hr with hr | rfl
    · by_cases hrp : r = p
      · rwa [hrp, Forest.spawn_self hp]
      · rw [Forest.spawn_of_ne hr hrp]
        exact hi.sound r hr
    · rwa [Forest.spawn_child]
  | @reap p q c hp hreap hchild hq =>
    intro r hr
    by_cases hrq : r = q
    · rw [hrq, Forest.become_self]
      trivial
    · rw [Forest.become_of_ne hrq]
      exact hbecome ((Reaps.same hreap).2.2.2.1 (hi.sound p hp)) r hr
  | @idle p c hp hidle _ => exact hbecome ((Idles.same hidle).2.2.2.1 (hi.sound p hp))

/-- Steps that create no process keep the order, when no process loses what it guards from a
command below it that has not terminated. -/
theorem Inv.order_of_code (hi : Inv t h s) (hchild : s'.Child = s.Child) (hn : s'.n = s.n)
    (hcode : ∀ r, r < s.n → ∀ x ∈ (s'.code r).pending,
      x ∈ (s.code r).pending ∧ (s'.code r).order = (s.code r).order)
    (hguard : ∀ q r, s.Desc q r → (s'.code r).pending ≠ [] →
      (s'.code q).guarded = (s.code q).guarded) :
    ∀ p, p < s'.n → ∀ x ∈ (s'.code p).pending, ∀ y, (x, y) ∈ t.order [] ↔
      (x, y) ∈ (s'.code p).order ∨ ∃ q, s'.Desc q p ∧ y ∈ (s'.code q).guarded := by
  intro p hp x hx y
  rw [hn] at hp
  obtain ⟨hpending, horder⟩ := hcode p hp x hx
  rw [hi.order p hp x hpending y, horder]
  unfold Forest.Desc
  rw [hchild]
  refine or_congr_right (exists_congr fun q => and_congr_right fun hd => ?_)
  rw [hguard q p hd (List.ne_nil_of_mem hx)]

/-- A fork keeps the order: what the parent waits with is guarded from the child. -/
theorem Inv.order_fork (hi : Inv t h s) {c d : Code} (hp : p < s.n) (hfork : Forks (s.code p) c d) :
    ∀ r, r < s.n + 1 → ∀ x ∈ ((s.spawn p c d).code r).pending, ∀ y, (x, y) ∈ t.order [] ↔
      (x, y) ∈ ((s.spawn p c d).code r).order ∨
        ∃ q, (s.spawn p c d).Desc q r ∧ y ∈ ((s.spawn p c d).code q).guarded := by
  obtain ⟨hpend, hpend', hpendd⟩ := Forks.pending_eq hfork
  obtain ⟨hg, hgd, hg'⟩ := Forks.guarded hfork
  have htodo := Forks.todo_eq hfork
  have hnodup := hi.todo_nodup hp
  rw [htodo, List.nodup_append'] at hnodup
  have hdisj := hnodup.2.2
  -- What the processes above an old process guard is as before.
  have habove : ∀ q r, s.Desc q r → (q = p → c.guarded = []) →
      ((s.spawn p c d).code q).guarded = (s.code q).guarded := by
    intro q r hd hq
    have hlt : q < s.n := (hi.kept.rooted.desc_lt hd).trans hd.lt_n
    by_cases hqp : q = p
    · rw [hqp, Forest.spawn_self hp, hg, hq hqp]
    · rw [Forest.spawn_of_ne hlt hqp]
  intro r hr x hx y
  rcases Nat.lt_succ_iff_lt_or_eq.mp hr with hr | rfl
  · -- An old process: the same processes are above it.
    have hdesc : ∀ q, (s.spawn p c d).Desc q r ↔ s.Desc q r := by
      intro q
      constructor
      · intro hd
        rcases Forest.desc_spawn_cases hi.kept.rooted hp hd with hd | ⟨rfl, _⟩
        · exact hd
        · exact absurd hr (lt_irrefl _)
      · exact Forest.Desc.spawn
    by_cases hrp : r = p
    · subst hrp
      rw [Forest.spawn_self hp, hpend'] at hx
      have hxc : x ∈ (s.code r).pending := by
        rw [hpend, htodo]
        exact List.mem_append_right _ hx
      have hxd : x ∉ d.todo := fun hxd => hdisj hxd hx
      have horder : (x, y) ∈ (s.code r).order ↔ (x, y) ∈ c.order := by
        rw [Forks.order_eq hfork]
        simp only [List.mem_append, List.mem_product, hxd, false_and, false_or]
        exact or_iff_right fun hd => hxd (Code.mem_of_order hd).1
      rw [hi.order r hp x hxc y, horder, Forest.spawn_self hp]
      refine or_congr_right (exists_congr fun q => ?_)
      rw [hdesc]
      refine and_congr_right fun hd => ?_
      rw [habove q r hd fun hq => absurd (hi.kept.rooted.desc_lt hd) (by omega)]
    · rw [Forest.spawn_of_ne hr hrp] at hx ⊢
      rw [hi.order r hr x hx y]
      refine or_congr_right (exists_congr fun q => ?_)
      rw [hdesc]
      refine and_congr_right fun hd => ?_
      rw [habove q r hd ?_]
      rintro rfl
      -- The parent guards nothing new from an old process that has not terminated.
      rcases hg' with hg' | hlimit
      · exact hg'
      · have hgone := hi.kept.desc_reaped shell_discipline (hi.kept.kids_eq_empty hp hlimit) hd
        rw [hgone] at hx
        exact absurd hx List.not_mem_nil
  · -- The child: its parent is above it, and what was above its parent.
    rw [Forest.spawn_child, hpendd] at hx
    have hxp : x ∈ (s.code p).pending := by
      rw [hpend, htodo]
      exact List.mem_append_left _ hx
    have hxc : x ∉ c.todo := fun hxc => hdisj hx hxc
    have horder : (x, y) ∈ (s.code p).order ↔ y ∈ c.guarded ∨ (x, y) ∈ d.order := by
      rw [Forks.order_eq hfork]
      simp only [List.mem_append, List.mem_product, hx, true_and]
      refine or_congr_right (or_iff_left fun hc => hxc (Code.mem_of_order hc).1)
    have hchild : (s.spawn p c d).Child p s.n := Forest.spawn_child_iff.mpr (Or.inr ⟨rfl, rfl⟩)
    rw [hi.order p hp x hxp y, horder, Forest.spawn_child]
    constructor
    · rintro ((hy | hy) | ⟨q, hd, hy⟩)
      · exact Or.inr ⟨p, .single hchild, by rwa [Forest.spawn_self hp]⟩
      · exact Or.inl hy
      · refine Or.inr ⟨q, .tail hd.spawn hchild, ?_⟩
        rwa [habove q p hd fun hq => absurd (hi.kept.rooted.desc_lt hd) (by omega)]
    · rintro (hy | ⟨q, hd, hy⟩)
      · exact Or.inl (Or.inr hy)
      · rcases Forest.desc_spawn_cases hi.kept.rooted hp hd with hd | ⟨_, rfl | hd⟩
        · exact absurd hd.lt_n (lt_irrefl _)
        · rw [Forest.spawn_self hp] at hy
          exact Or.inl (Or.inl hy)
        · refine Or.inr ⟨q, hd, ?_⟩
          rwa [habove q p hd fun hq => absurd (hi.kept.rooted.desc_lt hd) (by omega)] at hy

/-- **The invariant is kept by every step.** -/
theorem Inv.step (hi : Inv t h s) (hstep : Step shell s e s') : Inv t (h ++ [e]) s' where
  kept := hi.kept.step shell_discipline hstep
  root := hi.root_step hstep
  sound := hi.sound_step hstep
  execs x := by
    have h1 := hstep.total_eq hi.kept.rooted (todo_conserved x)
    have h2 := hi.execs x
    rw [execCount_append, execCount_singleton]
    omega
  ends x := by
    have h1 := hstep.total_eq hi.kept.rooted (pending_conserved x)
    have h2 := hi.ends x
    rw [endCount_append, endCount_singleton]
    omega
  order := by
    have hkept := hi.kept.step shell_discipline hstep
    cases hstep with
    | @fork p c d hp hfork => exact hi.order_fork hp hfork
    | @act p e c hp hact =>
      refine hi.order_of_code rfl rfl (fun r hr x hx => ?_) fun q r hd _ => ?_
      · by_cases hrp : r = p
        · subst hrp
          rw [Forest.become_self] at hx ⊢
          refine ⟨?_, Acts.order_eq hact⟩
          rw [Acts.pending_eq hact]
          exact List.mem_append_left _ hx
        · rw [Forest.become_of_ne hrp] at hx ⊢
          exact ⟨hx, rfl⟩
      · by_cases hqp : q = p
        · rw [hqp, Forest.become_self, Acts.guarded_eq hact]
        · rw [Forest.become_of_ne hqp]
    | @reap p q c hp hreap hchild hq =>
      obtain ⟨_, hpend, horder, _, _⟩ := Reaps.same hreap
      have hpq : p ≠ q := (hi.kept.rooted _ _ hchild).ne
      refine hi.order_of_code rfl rfl (fun r hr x hx => ?_) fun k r hd hr => ?_
      · by_cases hrq : r = q
        · rw [hrq, Forest.become_self] at hx
          exact absurd hx List.not_mem_nil
        · rw [Forest.become_of_ne hrq] at hx ⊢
          by_cases hrp : r = p
          · subst hrp
            rw [Forest.become_self] at hx ⊢
            exact ⟨hpend ▸ hx, horder⟩
          · rw [Forest.become_of_ne hrp] at hx ⊢
            exact ⟨hx, rfl⟩
      · by_cases hkq : k = q
        · rw [hkq, Forest.become_self, hq]
          rfl
        · rw [Forest.become_of_ne hkq]
          by_cases hkp : k = p
          · subst hkp
            rw [Forest.become_self]
            rcases Reaps.guarded hreap with hguard | hlimit
            · exact hguard
            · -- No child is left, so the process below has terminated.
              have hempty := hkept.kids_eq_empty (p := k) hp (by
                rw [Forest.become_of_ne hpq, Forest.become_self]
                exact hlimit)
              rw [hkept.desc_reaped shell_discipline hempty hd] at hr
              exact absurd rfl hr
          · rw [Forest.become_of_ne hkp]
    | @idle p c hp hidle _ =>
      obtain ⟨_, hpend, horder, _, _⟩ := Idles.same hidle
      refine hi.order_of_code rfl rfl (fun r hr x hx => ?_) fun k r hd hr => ?_
      · by_cases hrp : r = p
        · subst hrp
          rw [Forest.become_self] at hx ⊢
          exact ⟨hpend ▸ hx, horder⟩
        · rw [Forest.become_of_ne hrp] at hx ⊢
          exact ⟨hx, rfl⟩
      · by_cases hkp : k = p
        · subst hkp
          have hempty := hkept.kids_eq_empty (p := k) hp (by
            rw [Forest.become_self]
            exact Idles.guarded hidle)
          rw [hkept.desc_reaped shell_discipline hempty hd] at hr
          exact absurd rfl hr
        · rw [Forest.become_of_ne hkp]

end Step

/-- **The invariant of a whole run.** -/
theorem Inv.of_run {t : Cmd} (ht : t.Sound) {h : List (Event Act)} {s : Forest Code}
    (hrun : Run (Step shell) (start t) h s) : Inv t h s :=
  hrun.invariant_history (fun _ _ _ _ hi hstep => hi.step hstep) (start_inv ht)

/-! ### Order, progress and the end -/

section Results

variable {t : Cmd} {h : List (Event Act)} {s : Forest Code}

/-- A command that has not terminated is held by some process. -/
theorem Inv.exists_pending (hi : Inv t h s) (hx : x ∈ t.commands [])
    (hend : endCount h x = 0) : ∃ p, p < s.n ∧ x ∈ (s.code p).pending := by
  have hcount := hi.ends x
  have hpos := List.count_pos_iff.mpr hx
  obtain ⟨p, hp, hp'⟩ := exists_of_total_pos (w := fun c : Code => c.pending.count x) (s := s)
    (by omega)
  exact ⟨p, hp, List.count_pos_iff.mp hp'⟩

theorem Inv.exists_todo (hi : Inv t h s) (hx : x ∈ t.commands [])
    (hexec : execCount h x = 0) : ∃ p, p < s.n ∧ x ∈ (s.code p).todo := by
  have hcount := hi.execs x
  have hpos := List.count_pos_iff.mpr hx
  obtain ⟨p, hp, hp'⟩ := exists_of_total_pos (w := fun c : Code => c.todo.count x) (s := s)
    (by omega)
  exact ⟨p, hp, List.count_pos_iff.mp hp'⟩

theorem Inv.count_le_one (_ : Inv t h s) (x : Ptr) : (t.commands []).count x ≤ 1 :=
  List.nodup_iff_count_le_one.mp (t.commands_nodup []).1 x

/-- A command that some process has still to run was not run before. -/
theorem Inv.execCount_eq_zero (hi : Inv t h s) (hp : p < s.n)
    (hx : x ∈ (s.code p).todo) : execCount h x = 0 := by
  have h1 := hi.execs x
  have h2 := hi.count_le_one x
  have h3 := le_total (w := fun c : Code => c.todo.count x) hp
  have h4 : 0 < (s.code p).todo.count x := List.count_pos_iff.mpr hx
  omega

theorem Inv.endCount_eq_zero (hi : Inv t h s) (hp : p < s.n)
    (hx : x ∈ (s.code p).pending) : endCount h x = 0 := by
  have h1 := hi.ends x
  have h2 := hi.count_le_one x
  have h3 := le_total (w := fun c : Code => c.pending.count x) hp
  have h4 : 0 < (s.code p).pending.count x := List.count_pos_iff.mpr hx
  omega

/-- Only commands of the tree are run, each at most once. -/
theorem Inv.execCount_le (hi : Inv t h s) (x : Ptr) :
    execCount h x ≤ 1 ∧ (0 < execCount h x → x ∈ t.commands []) := by
  have h1 := hi.execs x
  have h2 := hi.count_le_one x
  refine ⟨by omega, fun hpos => ?_⟩
  exact List.count_pos_iff.mp (by omega)

/-- **A command runs after those it has to wait for.** -/
theorem Inv.exec_after (hi : Inv t h s) (hxy : (x, y) ∈ t.order [])
    (hy : 0 < execCount h y) : Terminated h x := by
  by_contra hend
  have hend : endCount h x = 0 := Nat.eq_zero_of_not_pos hend
  obtain ⟨p, hp, hx⟩ := hi.exists_pending ((t.mem_of_order [] x y).1 hxy).1 hend
  -- The second command is still to be run, so it was not run.
  rcases (hi.order p hp x hx y).mp hxy with horder | ⟨q, hd, hguard⟩
  · have := hi.execCount_eq_zero hp (Code.mem_of_order horder).2
    omega
  · have hq : q < s.n := (hi.kept.rooted.desc_lt hd).trans hd.lt_n
    have := hi.execCount_eq_zero hq (Code.mem_todo_of_guarded hguard)
    omega

/-- **When the first process has exited, every command has terminated.** -/
theorem Inv.exited (hi : Inv t h s) (hexit : s.code 0 = .exited)
    (hx : x ∈ t.commands []) : execCount h x = 1 ∧ Terminated h x := by
  have hnone : ∀ p, p < s.n → (s.code p).pending = [] ∧ (s.code p).todo = [] := by
    intro p hp
    by_cases h0 : p = 0
    · rw [h0, hexit]
      exact ⟨rfl, rfl⟩
    · have hempty := hi.kept.kids_eq_empty hi.root.1 (by rw [hexit]; rfl)
      rw [hi.kept.desc_reaped shell_discipline hempty (hi.root.2.2.2 p hp h0)]
      exact ⟨rfl, rfl⟩
  constructor
  · have hle := (hi.execCount_le x).1
    by_contra hne
    obtain ⟨p, hp, hmem⟩ := hi.exists_todo hx (by omega)
    rw [(hnone p hp).2] at hmem
    exact absurd hmem List.not_mem_nil
  · by_contra hend
    obtain ⟨p, hp, hmem⟩ := hi.exists_pending hx (Nat.eq_zero_of_not_pos hend)
    rw [(hnone p hp).1] at hmem
    exact absurd hmem List.not_mem_nil

/-- A process that has not exited and does not wait is a command, or takes a step of the shell. -/
theorem Code.progress {c : Code} (hs : c.Sound) (hexit : c ≠ .exited ∧ c ≠ .reaped)
    (hwait : ¬ ((∃ c', Reaps c c') ∧ ∃ c', Idles c c')) :
    (∃ x found, c = .command x found) ∨ (∃ e c', Acts c e c' ∧ e.ends = []) ∨
      ∃ c' d, Forks c c' d := by
  match c, hs, hexit, hwait with
  | .runcmd none, _, _, _ => exact Or.inr (Or.inl ⟨_, _, .null, rfl⟩)
  | .runcmd (some ⟨a, .exec argv⟩), _, _, _ =>
    exact Or.inr (Or.inl ⟨_, _, @Acts.exec a argv false fun _ => rfl, rfl⟩)
  | .runcmd (some ⟨a, .sequence c n⟩), _, _, _ => exact Or.inr (Or.inr ⟨_, _, .sequence⟩)
  | .runcmd (some ⟨a, .parallel c n⟩), _, _, _ => exact Or.inr (Or.inl ⟨_, _, .parallel, rfl⟩)
  | .runcmd (some ⟨a, .invalid argv⟩), _, _, _ => exact Or.inr (Or.inl ⟨_, _, .invalid, rfl⟩)
  | .seqWait n, _, _, hwait => exact absurd ⟨⟨_, .sequence⟩, _, .sequence⟩ hwait
  | .loop none, _, _, _ => exact Or.inr (Or.inl ⟨_, _, .loopEnd, rfl⟩)
  | .loop (some p), hs, _, _ =>
    refine Or.inr (Or.inr ⟨_, _, .loop fun hunset => ?_⟩)
    simp [Code.Sound, hunset, Cmd.LoopSound] at hs
  | .waitAll, _, _, hwait => exact absurd ⟨⟨_, .all⟩, _, .all⟩ hwait
  | .command x found, _, _, _ => exact Or.inl ⟨x, found, rfl⟩
  | .exiting, _, _, _ => exact Or.inr (Or.inl ⟨_, _, .exit, rfl⟩)
  | .exited, _, hexit, _ => exact absurd rfl hexit.1
  | .reaped, _, hexit, _ => exact absurd rfl hexit.2

/-- The events at which no command ends. -/
def Quiet (e : Event Act) : Prop :=
  ∀ x, endCount [e] x = 0

theorem quiet_act {e : Act} (he : e.ends = []) : Quiet (.act p e) := by
  intro x
  rw [endCount_singleton, Event.tick, he]
  rfl

theorem quiet_fork {q : ℕ} : Quiet (.fork p q) := fun x => by simp [endCount, Event.tick]

theorem quiet_wait {q : Option ℕ} : Quiet (.wait p q) := fun x => by
  simp [endCount, Event.tick]

/-- Where only commands can go on by ending, every process that has not exited is a command, or
waits with one below it. -/
theorem Inv.exists_command (hi : Inv t h s)
    (hstuck : ∀ e s', ¬ Guarded (Step shell) (fun _ e => Quiet e) s e s') (hp : p < s.n)
    (hlive : s.code p ≠ .exited ∧ s.code p ≠ .reaped) :
    ∃ q x found, (q = p ∨ s.Desc p q) ∧ q < s.n ∧ s.code q = .command x found := by
  obtain ⟨q, hpq, hq, hlive', hwait⟩ := hi.kept.exists_ready
    (fun p q s' hstep => hstuck _ s' ⟨hstep, quiet_wait⟩) hp hlive
  rcases Code.progress (hi.sound q hq) hlive' hwait with
    ⟨x, found, hx⟩ | ⟨e, c, hact, he⟩ | ⟨c, d, hfork⟩
  · exact ⟨q, x, found, hpq, hq, hx⟩
  · exact absurd ⟨.act hq hact, quiet_act he⟩ (hstuck _ _)
  · exact absurd ⟨.fork hq hfork, quiet_fork⟩ (hstuck _ _)

/-- Where only commands can go on by ending, a command that was not run has to wait for one that
is running. -/
theorem Inv.exists_running_before (hi : Inv t h s)
    (hstuck : ∀ e s', ¬ Guarded (Step shell) (fun _ e => Quiet e) s e s')
    (hy : y ∈ t.commands []) (hexec : execCount h y = 0) :
    ∃ x, (x, y) ∈ t.order [] ∧ endCount h x = 0 := by
  obtain ⟨p, hp, htodo⟩ := hi.exists_todo hy hexec
  have hlive : s.code p ≠ .exited ∧ s.code p ≠ .reaped := by
    constructor <;> intro hcode <;> rw [hcode] at htodo <;> exact absurd htodo List.not_mem_nil
  obtain ⟨q, x, found, hpq, hq, hcode⟩ := hi.exists_command hstuck hp hlive
  have hx : x ∈ (s.code q).pending := by
    rw [hcode]
    exact List.mem_singleton_self x
  have hdesc : s.Desc p q := by
    rcases hpq with rfl | hd
    · rw [hcode] at htodo
      exact absurd htodo List.not_mem_nil
    · exact hd
  -- The process with the command to be run waits, since it could go on otherwise.
  have hguard : y ∈ (s.code p).guarded := by
    by_cases hwait : (∃ c', Reaps (s.code p) c') ∧ ∃ c', Idles (s.code p) c'
    · obtain ⟨⟨c', hreap⟩, _⟩ := hwait
      generalize s.code p = c at hreap htodo
      cases hreap with
      | @sequence n =>
        cases n with
        | none => exact absurd htodo List.not_mem_nil
        | some n => exact htodo
      | all => exact absurd htodo List.not_mem_nil
    · rcases Code.progress (hi.sound p hp) hlive hwait with
        ⟨z, found, hz⟩ | ⟨e, c, hact, he⟩ | ⟨c, d, hfork⟩
      · rw [hz] at htodo
        exact absurd htodo List.not_mem_nil
      · exact absurd ⟨.act hp hact, quiet_act he⟩ (hstuck _ _)
      · exact absurd ⟨.fork hp hfork, quiet_fork⟩ (hstuck _ _)
  refine ⟨x, (hi.order q hq x hx y).mpr (Or.inr ⟨p, hdesc, hguard⟩), ?_⟩
  exact hi.endCount_eq_zero hq hx

/-- **Commands wait for no others.** From every state on, without any command ending, all commands
can be run that have to wait only for commands that have terminated. -/
theorem Inv.exists_exec (hi : Inv t h s) : ∃ h' s', Run (Step shell) s h' s' ∧
    (∀ x, endCount h' x = 0) ∧
    ∀ y ∈ t.commands [], (∀ x, (x, y) ∈ t.order [] → Terminated h x) →
      execCount (h ++ h') y = 1 := by
  obtain ⟨h', s', hrun, hstuck⟩ := @Run.exists_maximal _ _
    (Guarded (Step shell) fun _ e => Quiet e) Rooted (total Code.steps)
    (fun s e s' hroot hstep => hroot.step hstep.1)
    (fun s e s' hroot hstep => hstep.1.total_lt hroot steps_decreasing) s hi.kept.rooted
  have hquiet : ∀ x, endCount h' x = 0 :=
    hrun.invariant_history (J := fun es _ => ∀ x, endCount es x = 0)
      (fun es s e s' hes hstep x => by rw [endCount_append, hes x, hstep.2 x]) fun x => rfl
  have hi' : Inv t (h ++ h') s' :=
    hrun.invariant_history (J := fun es s => Inv t (h ++ es) s)
      (fun es s e s' hes hstep => by rw [← List.append_assoc]; exact hes.step hstep.1)
      (by rwa [List.append_nil])
  refine ⟨h', s', hrun.mono fun _ _ _ hstep => hstep.1, hquiet, fun y hy hbefore => ?_⟩
  have hle := (hi'.execCount_le y).1
  by_contra hne
  obtain ⟨x, hxy, hend⟩ := hi'.exists_running_before hstuck hy (by omega)
  have hterm : 0 < endCount h x := hbefore x hxy
  rw [endCount_append] at hend
  omega

/-- **Every schedule comes to an end**, at which the first process has exited. -/
theorem Inv.exited_of_stuck (hi : Inv t h s) (hstuck : ∀ e s', ¬ Step shell s e s') :
    s.code 0 = .exited := by
  by_contra hexit
  obtain ⟨q, x, found, _, hq, hcode⟩ := hi.exists_command
    (fun e s' hstep => hstuck e s' hstep.1) hi.root.1 ⟨hexit, hi.root.2.2.1⟩
  refine hstuck _ _ (.act (e := .exit (some x)) (c := .exited) hq ?_)
  rw [hcode]
  exact .terminate

theorem length_le_steps {h : List (Event Act)} (hrun : Run (Step shell) (start t) h s) :
    h.length ≤ t.steps.1 := by
  have hroot : Rooted (start t) := fun p q hchild => nomatch hchild.2
  have hlen := hrun.length_add_le (I := Rooted) (μ := total Code.steps)
    (fun s e s' hroot hstep => hroot.step hstep)
    (fun s e s' hroot hstep => hstep.total_lt hroot steps_decreasing) hroot
  have hstart : total Code.steps (start t) = t.steps.1 := by simp [total, start, Code.steps]
  omega

end Results

end Hwsh
