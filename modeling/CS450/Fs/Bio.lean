import CS450.Lib.Table
import CS450.Lib.Thread
import CS450.Fs.Reserve

/-!
# The buffer cache

`bread`, `bwrite` and `brelse` of `bio.c`, and the log as their user, run by any number of
processes. What the code does with `bcache.lock` or `log.lock` held is one action, so a process can
be overtaken between its search for a buffer and its wait for the sleep lock of the buffer, and
between the release of that lock and the critical section of `brelse`. A buffer is on its way to or
from the disk only while its sleep lock is held, so the request in the queue of the driver is one
action, too.

The file system reads blocks, stores into the buffers it holds and records them with `log_write`. A
caller is an arbitrary program over the calls that follows the rules of `caller`: it stores into
blocks outside the log between `begin_op` and `end_op`, into buffers that it holds, and records what
it has stored before it lets go. In `caller L true` it may write the buffers it holds with `bwrite`,
too; in the kernel only the log does. The run begins after `initlog`.

Two variables of the state are there for the history only, and no action looks at them: what was
last stored into each block, and what the last written header has committed.

## Main results

* `spec_commit`: a commit keeps to the protocol
* `spec_body`: so does every caller that follows its rules
-/

namespace Xv6.Bio

open Thread
open Log (Area Disk LOGSIZE MAXOPBLOCKS setHead)

abbrev NBUF : ℕ := MAXOPBLOCKS * 3

abbrev ROOTDEV : ℕ := 1

abbrev FSSIZE : ℕ := 1000

/-- The buffers of `bcache.buf`. -/
abbrev Bix := Fin NBUF

/-- `struct buf`; the links of its lists are not part of it. -/
structure Buf (P : Type) where
  dev : ℕ
  blockno : ℕ
  /-- `B_VALID` -/
  valid : Bool
  /-- `B_DIRTY` -/
  dirty : Bool
  refcnt : ℕ
  /-- the process that holds `lock` -/
  lock : Option P
  data : Block

/-- The buffer is for the block `n` of the root disk. -/
def Buf.Holds {P : Type} (x : Buf P) (n : ℕ) : Prop := x.dev = ROOTDEV ∧ x.blockno = n

instance {P : Type} (x : Buf P) (n : ℕ) : Decidable (x.Holds n) :=
  inferInstanceAs (Decidable (_ ∧ _))

structure State (P : Type) where
  buf : Bix → Buf P
  /-- the list of all buffers from `bcache.head.next` on, most recently used first -/
  lru : List Bix
  disk : Disk
  /-- `log.lh.block[0..n)` -/
  lh : List ℕ
  outstanding : ℤ
  committing : Bool
  /-- history: what was last stored into each block -/
  stored : Disk
  /-- history: what the last written header has committed -/
  committed : Disk

/-- A process does not go on: it has to wait, or the kernel panics. -/
inductive Stop
  | wait
  | panic (msg : String)
  deriving DecidableEq, Repr

inductive Act
  /-- the critical section of `bget` -/
  | bget (n : ℕ)
  | acquiresleep (b : Bix)
  /-- the rest of `bread(dev, n)`: the buffer is read from the disk unless it is valid -/
  | fill (n : ℕ) (b : Bix)
  /-- a look at `b->data` -/
  | load (b : Bix)
  /-- a change of `b->data` -/
  | store (b : Bix) (v : Block)
  | bwrite (b : Bix)
  /-- the first part of `brelse` -/
  | releasesleep (b : Bix)
  /-- the critical section of `brelse` -/
  | unref (b : Bix)
  | beginOp
  /-- the checks of `log_write` -/
  | logCheck
  /-- the critical section of `log_write` -/
  | logRecord (b : Bix)
  /-- the first critical section of `end_op`; whether to commit -/
  | endOp
  /-- a look at `log.lh` -/
  | lh
  /-- `log.lh.n = 0` -/
  | clear
  /-- the last critical section of `end_op` -/
  | endCommit

abbrev Act.Resp : Act → Type
  | .bget _ => Bix
  | .fill _ _ => Block
  | .load _ => Block
  | .endOp => Bool
  | .lh => List ℕ
  | _ => Unit

section Exec

variable {P : Type} [DecidableEq P]

namespace State

variable (s : State P)

def setBuf (b : Bix) (x : Buf P) : State P := { s with buf := Function.update s.buf b x }

/-- The search of `bget` for the block. -/
def cached (n : ℕ) : Option Bix := s.lru.find? fun b => (s.buf b).Holds n

/-- The search of `bget` for a buffer to recycle, from the least recently used one on. -/
def recyclable : Option Bix :=
  s.lru.reverse.find? fun b => (s.buf b).refcnt = 0 ∧ (s.buf b).dirty = false

end State

/-- `iderw` by the process `p`. -/
def iderw (L : Area) (p : P) (b : Bix) (s : State P) : Except Stop (State P) :=
  let x := s.buf b
  if x.lock ≠ some p then .error (.panic "iderw: buf not locked")
  else if x.valid = true ∧ x.dirty = false then .error (.panic "iderw: nothing to do")
  else if FSSIZE ≤ x.blockno then .error (.panic "incorrect blockno")
  else if x.dirty then
    .ok { s.setBuf b { x with valid := true, dirty := false } with
      disk := Function.update s.disk x.blockno x.data
      -- the header of a transaction reaches the disk: it is committed
      committed := if x.blockno = L.start ∧ s.lh ≠ [] then s.stored else s.committed }
  else .ok (s.setBuf b { x with valid := true, data := s.disk x.blockno })

/-- What an action of the process `p` does. -/
def exec (L : Area) (p : P) : (a : Act) → State P → Except Stop (a.Resp × State P)
  | .bget n, s =>
    match s.cached n with
    | some b => .ok (b, s.setBuf b { s.buf b with refcnt := (s.buf b).refcnt + 1 })
    | none =>
      match s.recyclable with
      | some b => .ok (b, s.setBuf b { s.buf b with
          dev := ROOTDEV, blockno := n, valid := false, dirty := false, refcnt := 1 })
      | none => .error (.panic "bget: no buffers")
  | .acquiresleep b, s =>
    if (s.buf b).lock = none then .ok ((), s.setBuf b { s.buf b with lock := some p })
    else .error .wait
  | .fill _ b, s =>
    if (s.buf b).valid then .ok ((s.buf b).data, s)
    else do
      let s ← iderw L p b s
      return ((s.buf b).data, s)
  | .load b, s => .ok ((s.buf b).data, s)
  | .store b v, s =>
    .ok ((), { s.setBuf b { s.buf b with data := v } with
      stored := Function.update s.stored (s.buf b).blockno v })
  | .bwrite b, s =>
    if (s.buf b).lock ≠ some p then .error (.panic "bwrite")
    else do
      let s ← iderw L p b (s.setBuf b { s.buf b with dirty := true })
      return ((), s)
  | .releasesleep b, s =>
    if (s.buf b).lock ≠ some p then .error (.panic "brelse")
    else .ok ((), s.setBuf b { s.buf b with lock := none })
  | .unref b, s =>
    let refcnt := (s.buf b).refcnt - 1
    .ok ((), { s.setBuf b { s.buf b with refcnt := refcnt } with
      lru := if refcnt = 0 then b :: s.lru.erase b else s.lru })
  | .beginOp, s =>
    if s.committing = false ∧ s.lh.length + (s.outstanding + 1) * MAXOPBLOCKS ≤ LOGSIZE then
      .ok ((), { s with outstanding := s.outstanding + 1 })
    else .error .wait
  | .logCheck, s =>
    if LOGSIZE ≤ s.lh.length ∨ (L.size : ℤ) - 1 ≤ s.lh.length then
      .error (.panic "too big a transaction")
    else if s.outstanding < 1 then .error (.panic "log_write outside of trans")
    else .ok ((), s)
  | .logRecord b, s =>
    let n := (s.buf b).blockno
    .ok ((), { s.setBuf b { s.buf b with dirty := true } with
      lh := if n ∈ s.lh then s.lh else s.lh ++ [n] })
  | .endOp, s =>
    if s.committing then .error (.panic "log.committing")
    else if s.outstanding - 1 = 0 then .ok (true, { s with outstanding := 0, committing := true })
    else .ok (false, { s with outstanding := s.outstanding - 1 })
  | .lh, s => .ok (s.lh, s)
  | .clear, s => .ok ((), { s with lh := [] })
  | .endCommit, s => .ok ((), { s with committing := false })

end Exec

/-! ### The functions -/

abbrev BioProg := Prog Act.Resp

def act (a : Act) : BioProg a.Resp := .perform a

def bread (n : ℕ) : BioProg Bix := do
  let b ← act (.bget n)
  act (.acquiresleep b)
  let _ ← act (.fill n b)
  return b

def bwrite (b : Bix) : BioProg Unit := act (.bwrite b)

def brelse (b : Bix) : BioProg Unit := do
  act (.releasesleep b)
  act (.unref b)

/-- `memmove(dst->data, src->data, BSIZE)`. -/
def memmove (dst src : Bix) : BioProg Unit := do
  let v ← act (.load src)
  act (.store dst v)

def logWrite (b : Bix) : BioProg Unit := do
  act .logCheck
  act (.logRecord b)

section Log

variable (L : Area)

def writeHead : BioProg Unit := do
  let buf ← bread L.start
  let lh ← act .lh
  let hb ← act (.load buf)
  act (.store buf (setHead hb lh))
  bwrite buf
  brelse buf

/-- The loop of `write_log` over the blocks that are left. -/
def writeLogLoop : List ℕ → ℕ → BioProg Unit
  | [], _ => pure ()
  | n :: rest, tail => do
    let dst ← bread (L.start + tail + 1)
    let src ← bread n
    memmove dst src
    bwrite dst
    brelse src
    brelse dst
    writeLogLoop rest (tail + 1)

def writeLog : BioProg Unit := do
  let lh ← act .lh
  writeLogLoop L lh 0

/-- The loop of `install_trans` over the blocks that are left. -/
def installLoop : List ℕ → ℕ → BioProg Unit
  | [], _ => pure ()
  | n :: rest, tail => do
    let lbuf ← bread (L.start + tail + 1)
    let dbuf ← bread n
    memmove dbuf lbuf
    bwrite dbuf
    brelse lbuf
    brelse dbuf
    installLoop rest (tail + 1)

def installTrans : BioProg Unit := do
  let lh ← act .lh
  installLoop L lh 0

def commit : BioProg Unit := do
  let lh ← act .lh
  if 0 < lh.length then
    writeLog L
    writeHead L
    installTrans L
    act .clear
    writeHead L

def endOp : BioProg Unit := do
  if ← act .endOp then
    commit L
    act .endCommit

end Log

/-! ### Callers -/

/-- What a caller does. -/
inductive Call
  | bread (n : ℕ)
  | load (b : Bix)
  | store (b : Bix) (v : Block)
  | logWrite (b : Bix)
  | bwrite (b : Bix)
  | brelse (b : Bix)
  | beginOp
  | endOp

abbrev Call.Resp : Call → Type
  | .bread _ => Bix
  | .load _ => Block
  | _ => Unit

def Call.run (L : Area) : (c : Call) → BioProg c.Resp
  | .bread n => Bio.bread n
  | .load b => act (.load b)
  | .store b v => act (.store b v)
  | .logWrite b => Bio.logWrite b
  | .bwrite b => Bio.bwrite b
  | .brelse b => Bio.brelse b
  | .beginOp => act .beginOp
  | .endOp => Bio.endOp L

/-- What a caller knows: whether it is in an operation, the buffers it holds with their blocks, and
whether it has stored into them since the last `log_write` or `bwrite`. -/
structure Caller where
  inOp : Bool
  held : Bix → Option (ℕ × Bool)

namespace Caller

def idle : Caller := ⟨false, fun _ => none⟩

def Done (c : Caller) : Prop := c.inOp = false ∧ ∀ b, c.held b = none

def set (c : Caller) (b : Bix) (h : Option (ℕ × Bool)) : Caller :=
  { c with held := Function.update c.held b h }

/-- When a caller may make a call; `direct` says whether `bwrite` is one of its calls. -/
def allowed (L : Area) (direct : Bool) (c : Caller) : Call → Prop
  | .bread _ => True
  | .load b => ∃ h, c.held b = some h
  | .store b _ => c.inOp = true ∧ ∃ n t, c.held b = some (n, t) ∧ L.Home n
  | .logWrite b => c.inOp = true ∧ ∃ n t, c.held b = some (n, t) ∧ L.Home n
  | .bwrite b => direct = true ∧ ∃ n t, c.held b = some (n, t) ∧ L.Home n
  | .brelse b => ∃ n, c.held b = some (n, false)
  | .beginOp => c.inOp = false
  | .endOp => c.inOp = true ∧ ∀ b n, c.held b ≠ some (n, true)

def after (c : Caller) : (a : Call) → a.Resp → Caller
  | .bread n, b => c.set b (some (n, false))
  | .load _, _ => c
  | .store b _, _ => c.set b ((c.held b).map fun h => (h.1, true))
  | .logWrite b, _ | .bwrite b, _ => c.set b ((c.held b).map fun h => (h.1, false))
  | .brelse b, _ => c.set b none
  | .beginOp, _ => { c with inOp := true }
  | .endOp, _ => { c with inOp := false }

end Caller

/-- The rules for callers. -/
def caller (L : Area) (direct : Bool) : Protocol Call.Resp Caller :=
  ⟨Caller.allowed L direct, fun _ _ _ => True, Caller.after⟩

/-- A caller, from its first call to its last. -/
abbrev Program := Prog Call.Resp Unit

/-- The processes run any number of callers, one after another. -/
def machine (P : Type) [DecidableEq P] (L : Area) :
    Machine P (State P) Stop Program Unit Act.Resp where
  exec := exec L
  body u := u.expand (Call.run L)
  ready _ _ := true

/-- The caller follows the rules, and holds nothing in the end. -/
def Disciplined {P : Type} (L : Area) (direct : Bool) (_ : Pool P (State P) Unit Act.Resp) :
    Thread.Event P Program Unit Act.Resp → Prop
  | .start _ u => Spec (caller L direct) u Caller.idle fun _ => Caller.Done
  | _ => True

/-! ### What a process holds -/

/-- A buffer whose sleep lock a process holds: its block, whether `bread` has made it valid, and
whether the process has stored into it since the last `log_write` or `bwrite`. -/
structure Hold where
  n : ℕ
  filled : Bool
  touched : Bool

/-- How far a commit has come. The counter is the one of the loop, advanced by the `bwrite`. -/
inductive Role
  | user (inOp : Bool)
  | begun
  | writeLog (lh : List ℕ) (tail : ℕ)
  | install (lh : List ℕ) (tail : ℕ)
  | erase
  | erased
  deriving DecidableEq

/-- The process commits. -/
def Role.Commits : Role → Prop
  | .user _ => False
  | _ => True

@[ext]
structure Held where
  role : Role
  held : Bix → Option Hold
  /-- the buffer whose lock it waits for in `bget`, and its block -/
  wait : Option (Bix × ℕ)
  /-- the buffer whose lock it has released in `brelse` -/
  leave : Option Bix
  /-- the bytes that a `memmove` of the commit has loaded, and from which block -/
  copy : Option (ℕ × Block)

namespace Held

def idle : Held := ⟨.user false, fun _ => none, none, none, none⟩

def Done (g : Held) : Prop := g = idle

variable (g : Held)

def set (b : Bix) (h : Option Hold) : Held := { g with held := Function.update g.held b h }

/-- The bytes that the process may store. -/
def MayStore (L : Area) (n : ℕ) (v : Block) : Prop :=
  match g.role with
  | .user inOp => inOp = true ∧ L.Home n
  | .writeLog lh tail =>
    lh.length < NBUF ∧ ((∃ m, lh[tail]? = some m ∧ n = L.start + tail + 1 ∧ g.copy = some (m, v)) ∨
      tail = lh.length ∧ lh ≠ [] ∧ n = L.start ∧ ∃ hb, v = setHead hb lh)
  | .install lh tail => lh[tail]? = some n ∧ g.copy = some (L.start + tail + 1, v)
  | .erase => n = L.start
  | _ => False

/-- The role after a `bwrite`. -/
def advance : Role :=
  match g.role with
  | .writeLog lh tail => if tail < lh.length then .writeLog lh (tail + 1) else .install lh 0
  | .install lh tail => .install lh (tail + 1)
  | .erase => .erased
  | r => r

/-- What an action needs. -/
def allowed (L : Area) : Act → Prop
  | .bget _ => g.wait = none ∧ g.leave = none
  | .acquiresleep b => ∃ n, g.wait = some (b, n)
  | .fill n b => g.held b = some ⟨n, false, false⟩
  | .load b => ∃ n t, g.held b = some ⟨n, true, t⟩
  | .store b v => ∃ n t, g.held b = some ⟨n, true, t⟩ ∧ g.MayStore L n v
  | .bwrite b => (∃ n, g.held b = some ⟨n, true, true⟩) ∧ g.role.Commits
  | .releasesleep b => g.leave = none ∧ ∃ n f, g.held b = some ⟨n, f, false⟩
  | .unref b => g.leave = some b
  | .beginOp => g.role = .user false
  | .logCheck => True
  | .logRecord b => g.role = .user true ∧ ∃ n t, g.held b = some ⟨n, true, t⟩ ∧ L.Home n
  | .endOp => g.role = .user true ∧ ∀ b h, g.held b = some h → h.touched = false
  | .lh => g.role.Commits
  | .clear => ∃ lh, g.role = .install lh lh.length ∧ ∀ b h, g.held b = some h → h.touched = false
  | .endCommit => (g.role = .writeLog [] 0 ∨ g.role = .erased) ∧
      ∀ b h, g.held b = some h → h.touched = false

/-- Which responses are possible. -/
def possible (L : Area) : (a : Act) → a.Resp → Prop
  | .bget n, _ =>
    match g.role with
    | .writeLog lh _ => n ∉ lh → lh.length < NBUF
    | _ => True
  | .acquiresleep b, _ => g.held b = none
  | .lh, r =>
    match g.role with
    | .begun => ∀ n ∈ r, L.Home n
    | .writeLog lh _ => r = lh
    | .install lh _ => r = lh
    | _ => True
  | _, _ => True

def after : (a : Act) → a.Resp → Held
  | .bget n, b => { g with wait := some (b, n) }
  | .acquiresleep b, _ =>
    { g with
      held := Function.update g.held b (g.wait.map fun w => ⟨w.2, false, false⟩)
      wait := none }
  | .fill n b, _ => g.set b (some ⟨n, true, false⟩)
  | .load b, v =>
    match g.role with
    | .user _ => g
    | _ => { g with copy := (g.held b).map fun h => (h.n, v) }
  | .store b _, _ =>
    { g.set b ((g.held b).map fun h => { h with touched := true }) with copy := none }
  | .bwrite b, _ =>
    { g.set b ((g.held b).map fun h => { h with touched := false }) with
      role := g.advance, copy := none }
  | .releasesleep b, _ => { g.set b none with leave := some b }
  | .unref _, _ => { g with leave := none }
  | .beginOp, _ => { g with role := .user true }
  | .logCheck, _ => g
  | .logRecord b, _ => g.set b ((g.held b).map fun h => { h with touched := false })
  | .endOp, r => { g with role := if r then .begun else .user false }
  | .lh, r =>
    match g.role with
    | .begun => { g with role := .writeLog r 0 }
    | _ => g
  | .clear, _ => { g with role := .erase, copy := none }
  | .endCommit, _ => { g with role := .user false, copy := none }

end Held

def protocol (L : Area) : Protocol Act.Resp Held :=
  ⟨fun g => g.allowed L, fun g => g.possible L, Held.after⟩

/-! ### The functions keep to the protocol -/

section Spec

variable {L : Area} {g : Held} {b dst src : Bix} {n m : ℕ}

namespace Held

@[simp] theorem set_role (h : Option Hold) : (g.set b h).role = g.role := rfl

@[simp] theorem set_held_self (h : Option Hold) : (g.set b h).held b = h := Function.update_self ..

theorem set_held_of_ne {b' : Bix} (h : Option Hold) (hne : b' ≠ b) :
    (g.set b h).held b' = g.held b' := Function.update_of_ne hne ..

theorem set_comm (hne : dst ≠ src) (h h' : Option Hold) :
    (g.set dst h).set src h' = (g.set src h').set dst h := by
  simp only [set, Function.update_comm hne]

/-- The process has stored into none of the buffers it holds. -/
def Clean (g : Held) : Prop := ∀ b h, g.held b = some h → h.touched = false

end Held

/-- **`bread`** returns a buffer that the process did not hold. -/
theorem spec_bread {Q : Bix → Held → Prop} (hw : g.wait = none) (hl : g.leave = none)
    (hQ : ∀ b, g.held b = none → (∀ lh t, g.role = .writeLog lh t → n ∉ lh → lh.length < NBUF) →
      Q b (g.set b (some ⟨n, true, false⟩))) : Spec (protocol L) (bread n) g Q := by
  refine ⟨⟨hw, hl⟩, fun b hposs => ⟨⟨n, rfl⟩, fun _ hnone => ⟨?_, fun _ _ => ?_⟩⟩⟩
  · exact Function.update_self ..
  · have hend : Q b (g.set b (some ⟨n, true, false⟩)) := by
      refine hQ b hnone fun lh t hrole hn => ?_
      have hposs : g.possible L (.bget n) b := hposs
      simp only [Held.possible, hrole] at hposs
      exact hposs hn
    have hafter : (Held.set { g with
        held := Function.update g.held b (some ⟨n, false, false⟩), wait := none } b
        (some ⟨n, true, false⟩)) = g.set b (some ⟨n, true, false⟩) := by
      simp [Held.set, hw]
    show Q b (Held.set _ b (some ⟨n, true, false⟩))
    rw [← hafter] at hend
    exact hend

/-- **`brelse`** of a buffer with nothing left to record. -/
theorem spec_brelse {Q : Unit → Held → Prop} {f : Bool} (hl : g.leave = none)
    (hb : g.held b = some ⟨n, f, false⟩) (hQ : Q () (g.set b none)) :
    Spec (protocol L) (brelse b) g Q := by
  refine ⟨⟨hl, n, f, hb⟩, fun _ _ => ⟨rfl, fun _ _ => ?_⟩⟩
  obtain ⟨role, held, wait, leave, copy⟩ := g
  obtain rfl : leave = none := hl
  exact hQ

theorem spec_load {Q : Block → Held → Prop} {t : Bool} (hc : g.role.Commits)
    (hb : g.held b = some ⟨n, true, t⟩) (hQ : ∀ v, Q v { g with copy := some (n, v) }) :
    Spec (protocol L) (act (.load b)) g Q := by
  refine ⟨⟨n, t, hb⟩, fun v _ => ?_⟩
  have hafter : g.after (.load b) v = { g with copy := some (n, v) } := by
    simp only [Held.after, hb, Option.map_some]
    split
    · next hrole =>
      rw [hrole] at hc
      exact hc.elim
    · rfl
  show Q v (g.after (.load b) v)
  rw [hafter]
  exact hQ v

variable {Q : Unit → Held → Prop}

theorem spec_store {t : Bool} {v : Block}
    (hb : g.held b = some ⟨n, true, t⟩) (hmay : g.MayStore L n v)
    (hQ : Q () { g.set b (some ⟨n, true, true⟩) with copy := none }) :
    Spec (protocol L) (act (.store b v)) g Q := by
  refine ⟨⟨n, t, hb, hmay⟩, fun _ _ => ?_⟩
  show Q () (g.after (.store b v) ())
  simpa only [Held.after, hb, Option.map_some] using hQ

theorem spec_bwrite (hc : g.role.Commits) (hb : g.held b = some ⟨n, true, true⟩)
    (hQ : Q () { g.set b (some ⟨n, true, false⟩) with role := g.advance, copy := none }) :
    Spec (protocol L) (bwrite b) g Q := by
  refine ⟨⟨⟨n, hb⟩, hc⟩, fun _ _ => ?_⟩
  show Q () (g.after (.bwrite b) ())
  simpa only [Held.after, hb, Option.map_some] using hQ

/-- A block is copied and written, and both buffers are released. -/
theorem spec_copy (hne : src ≠ dst) (hd : g.held dst = none)
    (hs : g.held src = none) (hl : g.leave = none) (hc : g.role.Commits)
    (hmay : ∀ v, ({ g with copy := some (m, v) } : Held).MayStore L n v)
    {rest : BioProg Unit}
    (hQ : Spec (protocol L) rest { g with role := g.advance, copy := none } Q) :
    Spec (protocol L) (do
      memmove dst src
      bwrite dst
      brelse src
      brelse dst
      rest) ((g.set dst (some ⟨n, true, false⟩)).set src (some ⟨m, true, false⟩)) Q := by
  unfold memmove
  simp only [spec_bind]
  refine spec_load hc (Held.set_held_self _) fun v => ?_
  -- the other buffer is still held as it was
  have hdst : ((g.set dst (some ⟨n, true, false⟩)).set src (some ⟨m, true, false⟩)).held dst =
      some ⟨n, true, false⟩ := by
    rw [Held.set_held_of_ne _ hne.symm, Held.set_held_self]
  refine spec_store hdst (hmay v) ?_
  refine spec_bwrite hc (Held.set_held_self _) ?_
  refine @spec_brelse _ _ src m _ true hl ?_ ?_
  · simp [Held.set, hne]
  refine @spec_brelse _ _ dst n _ true hl ?_ ?_
  · simp [Held.set, hne.symm]
  · -- what is held is what was held before
    convert hQ using 1
    ext b h
    · rfl
    · simp only [Held.set, Function.update_apply]
      split_ifs <;> simp_all
    · rfl
    · rfl
    · rfl

/-- The block of the log for the place `tail` of the header is not one of the home blocks. -/
theorem not_home_slot {tail : ℕ} (h : tail + 1 < L.size) : ¬ L.Home (L.start + tail + 1) := by
  unfold Area.Home
  omega

theorem not_home_head : ¬ L.Home L.start := by
  have := L.size_pos
  unfold Area.Home
  omega

/-- **The loop of `write_log`**, by induction on the blocks that are left. That the first block of
the log has found a buffer shows that not all of them are pinned. -/
theorem spec_writeLogLoop {lh : List ℕ} (hsize : 2 ≤ L.size) (hhome : ∀ n ∈ lh, L.Home n) :
    ∀ (rest done : List ℕ) {g : Held}, lh = done ++ rest → g.role = .writeLog lh done.length →
      g.wait = none → g.leave = none → g.copy = none → (done ≠ [] → lh.length < NBUF) →
      ((lh ≠ [] → lh.length < NBUF) → Q () { g with role := .writeLog lh lh.length }) →
      Spec (protocol L) (writeLogLoop L rest done.length) g Q := by
  intro rest
  induction rest with
  | nil =>
    intro done g hlh hrole _ _ _ hlen hQ
    rw [List.append_nil] at hlh
    subst hlh
    have hg : ({ g with role := .writeLog lh lh.length } : Held) = g := by
      rw [← hrole]
    rw [hg] at hQ
    exact hQ hlen
  | cons n rest ih =>
    intro done g hlh hrole hw hl hcopy hlen hQ
    have hc : g.role.Commits := by
      rw [hrole]
      trivial
    have hget : lh[done.length]? = some n := by simp [hlh]
    rw [writeLogLoop, spec_bind]
    refine spec_bread hw hl fun dst hd hfree => ?_
    have hlen' : lh.length < NBUF := by
      by_cases hdone : done = []
      · refine hfree lh _ hrole fun hmem => @not_home_slot L done.length ?_ (hhome _ hmem)
        rw [hdone, List.length_nil]
        omega
      · exact hlen hdone
    rw [spec_bind]
    refine spec_bread hw hl fun src hs _ => ?_
    have hne : src ≠ dst := by
      rintro rfl
      simp at hs
    rw [Held.set_held_of_ne _ hne] at hs
    refine spec_copy hne hd hs hl hc (fun v => ?_) ?_
    · rw [hrole]
      exact ⟨hlen', .inl ⟨n, hget, rfl, rfl⟩⟩
    · have hlt : done.length < lh.length := by simp [hlh]
      have hadv : g.advance = .writeLog lh (done ++ [n]).length := by
        simp [Held.advance, hrole, hlt]
      have hlen'' : done.length + 1 = (done ++ [n]).length := by simp
      rw [hlen'']
      refine ih (done ++ [n]) (by simp [hlh]) hadv hw hl rfl (fun _ => hlen') fun hl' => ?_
      convert hQ hl' using 1
      rw [hcopy]

/-- **The loop of `install_trans`.** -/
theorem spec_installLoop {lh : List ℕ} :
    ∀ (rest done : List ℕ) {g : Held}, lh = done ++ rest → g.role = .install lh done.length →
      g.wait = none → g.leave = none → g.copy = none →
      Q () { g with role := .install lh lh.length } →
      Spec (protocol L) (installLoop L rest done.length) g Q := by
  intro rest
  induction rest with
  | nil =>
    intro done g hlh hrole _ _ _ hQ
    rw [List.append_nil] at hlh
    subst hlh
    have hg : ({ g with role := .install lh lh.length } : Held) = g := by
      rw [← hrole]
    rw [hg] at hQ
    exact hQ
  | cons n rest ih =>
    intro done g hlh hrole hw hl hcopy hQ
    have hc : g.role.Commits := by
      rw [hrole]
      trivial
    have hget : lh[done.length]? = some n := by simp [hlh]
    rw [installLoop, spec_bind]
    refine spec_bread hw hl fun src hs _ => ?_
    rw [spec_bind]
    refine spec_bread hw hl fun dst hd _ => ?_
    have hne : src ≠ dst := by
      rintro rfl
      simp at hd
    rw [Held.set_held_of_ne _ hne.symm] at hd
    rw [Held.set_comm hne]
    refine spec_copy hne hd hs hl hc (fun v => ?_) ?_
    · rw [hrole]
      exact ⟨hget, rfl⟩
    · have hadv : g.advance = .install lh (done ++ [n]).length := by
        simp [Held.advance, hrole]
      have hlen'' : done.length + 1 = (done ++ [n]).length := by simp
      rw [hlen'']
      refine ih (done ++ [n]) (by simp [hlh]) hadv hw hl rfl ?_
      convert hQ using 1
      rw [hcopy]

/-- A look at the header in the middle of a commit. -/
theorem spec_lh {Q : List ℕ → Held → Prop} (hc : g.role.Commits) (hb : g.role ≠ .begun)
    (hQ : ∀ r, g.possible L .lh r → Q r g) : Spec (protocol L) (act .lh) g Q := by
  refine ⟨hc, fun r hr => ?_⟩
  have hafter : g.after .lh r = g := by
    cases hrole : g.role with
    | begun => exact absurd hrole hb
    | _ => simp only [Held.after, hrole]
  show Q r (g.after .lh r)
  rw [hafter]
  exact hQ r hr

/-- **`write_head`**, in a commit that may store the header. -/
theorem spec_writeHead (hw : g.wait = none) (hl : g.leave = none)
    (hc : g.role.Commits) (hb : g.role ≠ .begun)
    (hmay : ∀ c hb lh, g.possible L .lh lh →
      ({ g with copy := c } : Held).MayStore L L.start (setHead hb lh))
    (hQ : Q () { g with role := g.advance, copy := none }) :
    Spec (protocol L) (writeHead L) g Q := by
  unfold writeHead
  simp only [spec_bind]
  refine spec_bread hw hl fun buf hbuf _ => ?_
  refine spec_lh hc hb fun lh hlh => ?_
  refine spec_load hc (Held.set_held_self _) fun hb => ?_
  refine spec_store (Held.set_held_self _) (hmay _ hb lh hlh) ?_
  refine spec_bwrite hc (Held.set_held_self _) ?_
  refine spec_brelse hl (Held.set_held_self _) ?_
  convert hQ using 1
  ext b h
  · rfl
  · simp only [Held.set, Function.update_apply]
    split_ifs <;> simp_all
  · rfl
  · rfl
  · rfl

/-- **A commit** keeps to the protocol, and holds nothing that was not held before. -/
theorem spec_commit (hsize : 2 ≤ L.size) (hrole : g.role = .begun)
    (hw : g.wait = none) (hl : g.leave = none) (hcopy : g.copy = none) (hclean : g.Clean)
    (hQ : ∀ r, r = .writeLog [] 0 ∨ r = .erased → Q () { g with role := r }) :
    Spec (protocol L) (commit L) g Q := by
  unfold commit
  rw [spec_bind]
  have hc : g.role.Commits := by
    rw [hrole]
    trivial
  refine ⟨hc, fun lh hhome => ?_⟩
  have hhome : ∀ n ∈ lh, L.Home n := by
    have : g.possible L .lh lh := hhome
    simpa only [Held.possible, hrole] using this
  have hafter : g.after .lh lh = { g with role := .writeLog lh 0 } := by
    simp only [Held.after, hrole]
  show Spec (protocol L) _ (g.after .lh lh) Q
  rw [hafter]
  split_ifs with hpos
  · have hne : lh ≠ [] := List.length_pos_iff.mp hpos
    simp only [spec_bind]
    unfold writeLog
    rw [spec_bind]
    refine spec_lh trivial (by simp) fun r hr => ?_
    obtain rfl : r = lh := hr
    refine spec_writeLogLoop hsize hhome r [] rfl rfl hw hl hcopy (absurd rfl) fun hlen => ?_
    refine spec_writeHead hw hl trivial (by simp) (fun c hb lh hlh => ?_) ?_
    · obtain rfl : lh = r := hlh
      exact ⟨hlen hne, .inr ⟨rfl, hne, rfl, hb, rfl⟩⟩
    have hadv : Held.advance { g with role := .writeLog r r.length } = .install r 0 := by
      simp [Held.advance]
    rw [hadv]
    unfold installTrans
    rw [spec_bind]
    refine spec_lh trivial (by simp) fun r' hr => ?_
    obtain rfl : r' = r := hr
    refine spec_installLoop r' [] rfl rfl hw hl rfl ?_
    refine ⟨⟨r', rfl, hclean⟩, fun _ _ => ?_⟩
    refine spec_writeHead hw hl trivial (fun h => by cases h) (fun _ _ _ _ => rfl) ?_
    convert hQ .erased (.inr rfl) using 1
    rw [hcopy]
    rfl
  · obtain rfl : lh = [] := by simpa using hpos
    exact hQ _ (.inl rfl)

end Spec

/-! ### Callers keep to the protocol -/

/-- What a process holds between two calls. -/
def Caller.lift (c : Caller) : Held :=
  ⟨.user c.inOp, fun b => (c.held b).map fun h => ⟨h.1, true, h.2⟩, none, none, none⟩

theorem Caller.lift_set (c : Caller) (b : Bix) (h : Option (ℕ × Bool)) :
    (c.set b h).lift = c.lift.set b (h.map fun h => ⟨h.1, true, h.2⟩) := by
  ext b' x
  · rfl
  · simp only [lift, set, Held.set, Function.update_apply]
    split_ifs <;> rfl
  · rfl
  · rfl
  · rfl

theorem Caller.lift_held {c : Caller} {b : Bix} {n : ℕ} {t : Bool} (h : c.held b = some (n, t)) :
    c.lift.held b = some ⟨n, true, t⟩ := by
  simp [lift, h]

/-- **Every call** that is allowed keeps to the protocol, when `bwrite` is left to the log. -/
theorem spec_call {L : Area} (hsize : 2 ≤ L.size) (c : Caller) (a : Call)
    (h : c.allowed L false a) :
    Spec (protocol L) (a.run L) c.lift fun r g => True ∧ g = (c.after a r).lift := by
  cases a with
  | bread n =>
    refine spec_bread rfl rfl fun b _ _ => ⟨trivial, ?_⟩
    rw [Caller.after, Caller.lift_set]
    rfl
  | load b =>
    obtain ⟨⟨n, t⟩, hb⟩ := h
    exact ⟨⟨n, t, Caller.lift_held hb⟩, fun v _ => ⟨trivial, rfl⟩⟩
  | store b v =>
    obtain ⟨hop, n, t, hb, hn⟩ := h
    refine spec_store (Caller.lift_held hb) ⟨hop, hn⟩ ⟨trivial, ?_⟩
    rw [Caller.after, hb, Option.map_some, Caller.lift_set]
    rfl
  | logWrite b =>
    obtain ⟨hop, n, t, hb, hn⟩ := h
    refine ⟨trivial, fun _ _ => ⟨⟨?_, n, t, Caller.lift_held hb, hn⟩, fun _ _ => ⟨trivial, ?_⟩⟩⟩
    · exact congrArg Role.user hop
    · show Held.set _ b (Option.map _ (c.lift.held b)) = _
      rw [Caller.lift_held hb, Caller.after, hb, Option.map_some, Option.map_some, Caller.lift_set]
      rfl
  | bwrite b => exact absurd h.1 Bool.false_ne_true
  | brelse b =>
    obtain ⟨n, hb⟩ := h
    refine spec_brelse rfl (Caller.lift_held hb) ⟨trivial, ?_⟩
    rw [Caller.after, Caller.lift_set]
    rfl
  | beginOp => exact ⟨congrArg Role.user h, fun _ _ => ⟨trivial, rfl⟩⟩
  | endOp =>
    obtain ⟨hop, hclean⟩ := h
    have hclean' : c.lift.Clean := by
      intro b x hb
      cases hc : c.held b with
      | none => simp [Caller.lift, hc] at hb
      | some h =>
        obtain ⟨n, t⟩ := h
        rw [Caller.lift_held hc, Option.some.injEq] at hb
        subst hb
        cases t with
        | false => rfl
        | true => exact absurd hc (hclean b n)
    refine ⟨⟨congrArg Role.user hop, hclean'⟩, fun r _ => ?_⟩
    cases r with
    | false => exact ⟨trivial, rfl⟩
    | true =>
      show Spec (protocol L) (commit L >>= fun _ => act .endCommit) _ _
      rw [spec_bind]
      refine spec_commit hsize rfl rfl rfl rfl hclean' fun r hr => ?_
      exact ⟨⟨hr, hclean'⟩, fun _ _ => ⟨trivial, rfl⟩⟩

/-- **Every caller** that follows its rules keeps to the protocol. -/
theorem spec_body {L : Area} (hsize : 2 ≤ L.size) {u : Program}
    (h : Spec (caller L false) u Caller.idle fun _ => Caller.Done) :
    Spec (protocol L) (u.expand (Call.run L)) Held.idle fun _ => Held.Done := by
  have hu := h.expand Caller.lift fun c a ha => spec_call hsize c a ha
  refine hu.mono ?_
  rintro _ g ⟨c, rfl, hop, hheld⟩
  show c.lift = Held.idle
  ext b x
  · rw [Caller.lift, hop]
    rfl
  · simp [Caller.lift, hheld, Held.idle]
  · rfl
  · rfl
  · rfl

end Xv6.Bio
