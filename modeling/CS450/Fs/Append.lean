import CS450.Lib.Table
import CS450.Lib.Run
import CS450.Fs.File

/-!
# Writing through one open file from several processes

After `dup` or `fork` several processes share one entry of the file table, and with it one offset. A
`filewrite` holds the lock of the inode while it reads the offset, writes a chunk there and moves
the offset, but gives it up between two chunks.

Every process runs `filewrite` statement by statement, and the statements of different processes
interleave in any way. The chunks then end up one after the other at the end of the file, as if each
had been appended in one step.

## Main results

* `Inv.step`, `Inv.run`: every step keeps the invariant
* `shared_writes_append`: the file is the old content and then the chunks, in some order
-/

namespace Xv6.Fs

namespace Append

open Function (update update_of_ne update_self)
open Transition

/-! ### `filewrite`, statement by statement -/

/-- The next statement of a `filewrite` on an inode. `none` is the result `-1`. -/
inductive Stage
  /-- `while(i < n)` -/
  | loop
  | beginOp
  | ilock
  /-- `f->off` is read as an argument of `writei` -/
  | load
  | writei (off : ℕ)
  /-- `if(r > 0)`, and `f->off` is read in `f->off += r` -/
  | test (r : Option ℕ)
  /-- `f->off` is written in `f->off += r` -/
  | store (r off : ℕ)
  | iunlock (r : Option ℕ)
  | endOp (r : Option ℕ)
  /-- `if(r < 0) break; if(r != n1) panic("short filewrite"); i += r` -/
  | check (r : Option ℕ)
  deriving DecidableEq, Repr

/-- Where a process is: outside of `filewrite`, after a call with the result `r`, or in a call with
the bytes `src`, of which it has handled `i`. -/
inductive Pc
  | out (r : Option ℕ)
  | call (src : List UInt8) (i : ℕ) (stage : Stage)
  deriving DecidableEq, Repr

/-- What the processes share: the open file, its inode and the disk, and who holds the lock of the
inode. -/
structure Shared (P : Type) where
  file : File
  work : Work
  lock : Option P

structure State (P : Type) extends Shared P where
  pc : P → Pc

/-- The length of the next chunk. -/
def n1 (src : List UInt8) (i : ℕ) : ℕ := min (src.length - i) chunk

section Machine

variable {P : Type} [DecidableEq P] (env : Env)

/-- The beginning of `filewrite`; nothing for the panic. -/
def enter (f : File) (src : List UInt8) : Option Pc :=
  if f.writable = false then some (.out none)
  else
    match f.type with
    | .inode => some (.call src 0 .loop)
    | .none => none

/-- The end of `filewrite`: `return i == n ? n : -1`. -/
def leave (src : List UInt8) (i : ℕ) : Pc := .out (if i = src.length then some src.length else none)

/-- The process `p` executes its next statement; nothing where it waits for the lock or panics.
`begin_op` and `end_op` do nothing but wait. -/
def next (p : P) (src : List UInt8) (i : ℕ) (s : Shared P) : Stage → Option (Pc × Shared P)
  | .loop => some (if i < src.length then .call src i .beginOp else leave src i, s)
  | .beginOp => some (.call src i .ilock, s)
  | .ilock => if s.lock = none then some (.call src i .load, { s with lock := some p }) else none
  | .load => some (.call src i (.writei s.file.off), s)
  | .writei off =>
    match writei env ((src.drop i).take (n1 src i)) off s.work with
    | .ok (r, w) => some (.call src i (.test r), { s with work := w })
    | .error _ => none
  | .test r =>
    match r with
    | some (k + 1) => some (.call src i (.store (k + 1) s.file.off), s)
    | _ => some (.call src i (.iunlock r), s)
  | .store r off =>
    some (.call src i (.iunlock (some r)),
      { s with file := { s.file with off := (off + r) % 2 ^ 32 } })
  | .iunlock r =>
    if s.lock = some p then some (.call src i (.endOp r), { s with lock := none }) else none
  | .endOp r => some (.call src i (.check r), s)
  | .check r =>
    match r with
    | none => some (leave src i, s)
    | some k => if k = n1 src i then some (.call src (i + k) .loop, s) else none

/-- What happens. -/
inductive Event (P : Type)
  | call (p : P) (src : List UInt8)
  | run (p : P)
  /-- something happens to other files -/
  | other
  deriving DecidableEq, Repr

/-- The disk changes, but neither the inode nor its blocks. -/
structure Elsewhere (w w' : Work) : Prop where
  inum_eq : w'.inum = w.inum
  ip_eq : w'.ip = w.ip
  owned : Owned env w'.view w'.disk
  block_eq : ∀ bn, w'.block bn = w.block bn
  data_eq : ∀ bn, w.block bn ≠ 0 → w'.disk.data (w.block bn) = w.disk.data (w.block bn)

inductive Step : State P → Event P → State P → Prop
  | call {s : State P} {p : P} {r : Option ℕ} {src : List UInt8} {c : Pc} (hpc : s.pc p = .out r)
      (hc : enter s.file src = some c) :
      Step s (.call p src) { s with pc := Function.update s.pc p c }
  | run {s : State P} {p : P} {src : List UInt8} {i : ℕ} {st : Stage} {c : Pc} {t : Shared P}
      (hpc : s.pc p = .call src i st) (hc : next env p src i s.toShared st = some (c, t)) :
      Step s (.run p) ⟨t, Function.update s.pc p c⟩
  | other {s : State P} {w : Work} (hw : Elsewhere env s.work w) :
      Step s .other { s with work := w }

end Machine

/-! ### Pieces of a list -/

section Pieces

variable {α : Type} {c i : ℕ} {l : List α}

/-- The pieces of `c` elements of a list, the last one with what is left. -/
def pieces (c : ℕ) (l : List α) : List (List α) :=
  (List.range ((l.length + (c - 1)) / c)).map fun k => (l.drop (k * c)).take c

theorem length_le_of_mem_pieces {x : List α} (h : x ∈ pieces c l) : x.length ≤ c := by
  obtain ⟨k, -, rfl⟩ := List.mem_map.mp h
  exact List.length_take_le _ _

theorem pieces_nil (hc : 0 < c) : pieces c ([] : List α) = [] := by
  unfold pieces
  rw [List.length_nil, Nat.div_eq_of_lt (by omega)]
  rfl

/-- The pieces of what comes before `i`, and one more. -/
theorem pieces_take_add (hc : 0 < c) (hi : i % c = 0) (hlt : i < l.length) :
    pieces c (l.take (i + min (l.length - i) c)) =
      pieces c (l.take i) ++ [(l.drop i).take (min (l.length - i) c)] := by
  obtain ⟨k, rfl⟩ : ∃ k, i = k * c := ⟨i / c, (Nat.div_mul_cancel (Nat.dvd_of_mod_eq_zero hi)).symm⟩
  set n := min (l.length - k * c) c with hn
  have hlen : ((l.take (k * c + n)).length + (c - 1)) / c = k + 1 := by
    rw [List.length_take, Nat.min_eq_left (by omega), Nat.div_eq_iff (by omega), Nat.succ_mul]
    omega
  have hlen' : ((l.take (k * c)).length + (c - 1)) / c = k := by
    rw [List.length_take, Nat.min_eq_left hlt.le, Nat.div_eq_iff (by omega)]
    omega
  have hfirst : ∀ j ∈ List.range k, ((l.take (k * c + n)).drop (j * c)).take c =
      ((l.take (k * c)).drop (j * c)).take c := by
    intro j hj
    have hle : j * c + c ≤ k * c := by
      rw [← Nat.succ_mul]
      exact Nat.mul_le_mul_right _ (List.mem_range.mp hj)
    rw [List.drop_take, List.drop_take, List.take_take, List.take_take, Nat.min_eq_left (by omega),
      Nat.min_eq_left (by omega)]
  have hlast : ((l.take (k * c + n)).drop (k * c)).take c = (l.drop (k * c)).take n := by
    rw [List.drop_take, List.take_take, Nat.add_sub_cancel_left, Nat.min_eq_right (by omega)]
  unfold pieces
  rw [hlen, hlen', List.range_succ, List.map_append, List.map_singleton, hlast,
    List.map_congr_left hfirst]

/-- The pieces together are the list. -/
theorem flatten_pieces (hc : 0 < c) (l : List α) : (pieces c l).flatten = l := by
  have hpre : ∀ k, (pieces c (l.take (k * c))).flatten = l.take (k * c) := by
    intro k
    induction k with
    | zero => rw [Nat.zero_mul, List.take_zero, pieces_nil hc, List.flatten_nil]
    | succ k ih =>
      rcases Nat.lt_or_ge (k * c) l.length with hlt | hge
      · have htake : l.take ((k + 1) * c) = l.take (k * c + min (l.length - k * c) c) := by
          rw [Nat.succ_mul]
          rcases Nat.le_total (l.length - k * c) c with hle | hle
          · rw [Nat.min_eq_left hle, List.take_of_length_le (by omega),
              List.take_of_length_le (by omega)]
          · rw [Nat.min_eq_right hle]
        rw [htake, pieces_take_add hc (Nat.mul_mod_left k c) hlt, List.flatten_append,
          List.flatten_singleton, ih, List.take_add]
      · have hge' : l.length ≤ (k + 1) * c := by
          rw [Nat.succ_mul]
          omega
        rw [List.take_of_length_le hge] at ih
        rw [List.take_of_length_le hge', ih]
  have hall := hpre l.length
  rwa [List.take_of_length_le (Nat.le_mul_of_pos_right _ hc)] at hall

end Pieces

/-! ### What was asked for -/

/-- The pieces that `filewrite` cuts its bytes into. -/
def chunks (src : List UInt8) : List (List UInt8) := pieces chunk src

/-- The calls of a process, in order. -/
def callsOf {P : Type} [DecidableEq P] (p : P) (es : List (Event P)) : List (List UInt8) :=
  es.filterMap fun
    | .call q src => if q = p then some src else none
    | _ => none

/-- The number of bytes of all calls. -/
def total {P : Type} (es : List (Event P)) : ℕ :=
  (es.map fun
    | .call _ src => src.length
    | _ => 0).sum

theorem callsOf_append {P : Type} [DecidableEq P] (p : P) (es fs : List (Event P)) :
    callsOf p (es ++ fs) = callsOf p es ++ callsOf p fs := List.filterMap_append

theorem total_append {P : Type} (es fs : List (Event P)) :
    total (es ++ fs) = total es + total fs := by
  simp [total]

theorem callsOf_run {P : Type} [DecidableEq P] (p q : P) (es : List (Event P)) :
    callsOf q (es ++ [.run p]) = callsOf q es := by
  rw [callsOf_append]
  exact List.append_nil _

theorem total_run {P : Type} (p : P) (es : List (Event P)) :
    total (es ++ [.run p]) = total es := total_append es _

/-! ### The invariant -/

namespace Stage

/-- The bytes of this round that are in the file. -/
def wrote : Stage → ℕ
  | .test r | .iunlock r | .endOp r | .check r => r.getD 0
  | .store r _ => r
  | _ => 0

/-- The bytes of this round that are in the file and not yet in the offset. -/
def pending : Stage → ℕ
  | .test r => r.getD 0
  | .store r _ => r
  | _ => 0

/-- The process holds the lock of the inode. -/
def inside : Stage → Bool
  | .load | .writei _ | .test _ | .store _ _ | .iunlock _ => true
  | _ => false

/-- The offset that the process has read. -/
def offset : Stage → Option ℕ
  | .writei off | .store _ off => some off
  | _ => none

/-- A round starts at a multiple of the length of a chunk, and writes a whole chunk. -/
def Ok (src : List UInt8) (i : ℕ) : Stage → Prop
  | .loop => i ≤ src.length ∧ (i % chunk = 0 ∨ i = src.length)
  | .test r | .iunlock r | .endOp r | .check r =>
    i < src.length ∧ i % chunk = 0 ∧ r = some (n1 src i)
  | .store r _ => i < src.length ∧ i % chunk = 0 ∧ r = n1 src i
  | _ => i < src.length ∧ i % chunk = 0

end Stage

namespace Pc

def current : Pc → Option (List UInt8)
  | .out _ => none
  | .call src _ _ => some src

/-- What the file has of the current call. -/
def written : Pc → List UInt8
  | .out _ => []
  | .call src i st => src.take (i + st.wrote)

/-- The number of bytes that are still to be written. -/
def left : Pc → ℕ
  | .out _ => 0
  | .call src i st => src.length - (i + st.wrote)

def pending : Pc → ℕ
  | .out _ => 0
  | .call _ _ st => st.pending

def inside : Pc → Bool
  | .out _ => false
  | .call _ _ st => st.inside

def offset : Pc → Option ℕ
  | .out _ => none
  | .call _ _ st => st.offset

def Ok : Pc → Prop
  | .out _ => True
  | .call src i st => st.Ok src i

theorem inside_of_offset {c : Pc} {off : ℕ} (h : c.offset = some off) : c.inside = true := by
  cases c with
  | out r => cases h
  | call src i st => cases st <;> first | rfl | cases h

theorem pending_of_not_inside {c : Pc} (h : c.inside = false) : c.pending = 0 := by
  cases c with
  | out r => rfl
  | call src i st => cases st <;> first | rfl | cases h

end Pc

section Invariant

variable {P : Type} [DecidableEq P]

/-- The pieces in the file are those of the calls that have ended and of the current ones, of every
process in the order of its calls. -/
def Pieces (w₀ : Work) (es : List (Event P)) (s : State P) (ws : List (P × List UInt8)) : Prop :=
  s.work.content = w₀.content ++ (ws.map Prod.snd).flatten ∧
    ∀ p, ∃ earlier, callsOf p es = earlier ++ (s.pc p).current.toList ∧
      (ws.filter (·.1 = p)).map Prod.snd = earlier.flatMap chunks ++ chunks (s.pc p).written

/-- **The invariant**: outside of the lock the offset is the end of the file. -/
structure Inv [Fintype P] (env : Env) (w₀ : Work) (es : List (Event P)) (s : State P) : Prop where
  owned : Owned env s.work.view s.work.disk
  whole : s.work.Whole
  file : s.work.ip.type = .file
  writable : s.file.writable = true
  type : s.file.type = .inode
  lock : ∀ p, (s.pc p).inside = true ↔ s.lock = some p
  ok : ∀ p, (s.pc p).Ok
  loaded : ∀ p off, (s.pc p).offset = some off → off = s.file.off
  off : s.file.off + ∑ p, (s.pc p).pending = s.work.ip.size
  budget : s.work.ip.size + ∑ p, (s.pc p).left = w₀.ip.size + total es
  pieces : ∃ ws, Pieces w₀ es s ws

variable [Fintype P] {env : Env} {w₀ : Work} {es : List (Event P)} {s s' : State P}

variable {p : P} {pc : P → Pc} {c : Pc} {i : ℕ} {src : List UInt8} {w : Work}

/-- A sum over all processes after one of them has moved. -/
theorem sum_update (f : Pc → ℕ) {c₀ : Pc} (hpc : pc p = c₀) (c : Pc) :
    ∑ q, f (update pc p c q) + f c₀ = ∑ q, f (pc q) + f c := by
  subst hpc
  have := Table.sum_add_of_eq_off (f := fun q => f (pc q))
    (g := fun q => f (update pc p c q)) p fun q hq => by
      show f (update pc p c q) = _
      rw [update_of_ne hq]
  simpa using this

omit [Fintype P] in
/-- A property of every process after one of them has moved. -/
theorem forall_update {Q : P → Pc → Prop} (h : ∀ q, q ≠ p → Q q (pc q))
    (hc : Q p c) (q : P) : Q q (update pc p c q) := by
  rcases eq_or_ne q p with rfl | hq
  · rwa [update_self]
  · rw [update_of_ne hq]
    exact h q hq

omit [Fintype P] in
theorem lock_of_same {lock : Option P}
    (h : ∀ q, (pc q).inside = true ↔ lock = some q) (hc : c.inside = (pc p).inside) (q : P) :
    (update pc p c q).inside = true ↔ lock = some q :=
  forall_update (Q := fun q c => c.inside = true ↔ lock = some q) (fun q _ => h q)
    (by rw [hc]; exact h p) q

omit [Fintype P] in
/-- The pieces after a step of `p`, from those of `p`. -/
theorem Pieces.update {ws ws' : List (P × List UInt8)} {e : Event P}
    {t : Shared P} (h : Pieces w₀ es s ws)
    (hcontent : t.work.content = w₀.content ++ (ws'.map Prod.snd).flatten)
    (hcalls : ∀ q, q ≠ p → callsOf q (es ++ [e]) = callsOf q es)
    (hws : ∀ q, q ≠ p → ws'.filter (·.1 = q) = ws.filter (·.1 = q))
    (hp : ∃ earlier, callsOf p (es ++ [e]) = earlier ++ c.current.toList ∧
      (ws'.filter (·.1 = p)).map Prod.snd = earlier.flatMap chunks ++ chunks c.written) :
    Pieces w₀ (es ++ [e]) ⟨t, update s.pc p c⟩ ws' := by
  refine ⟨hcontent, forall_update (Q := fun q c => ∃ earlier, callsOf q (es ++ [e]) =
    earlier ++ c.current.toList ∧ (ws'.filter (·.1 = q)).map Prod.snd =
      earlier.flatMap chunks ++ chunks c.written) (fun q hq => ?_) hp⟩
  rw [hcalls q hq, hws q hq]
  exact h.2 q

/-- Nothing has changed about the call but its stage. -/
structure Pc.Same (c c' : Pc) : Prop where
  current : c'.current = c.current
  written : c'.written = c.written
  left : c'.left = c.left
  pending : c'.pending = c.pending

/-- **An event that changes neither the file nor the offset**: what is new of the call of `p` and of
the bytes it has left comes from the event. -/
theorem Inv.move (h : Inv env w₀ es s) {e : Event P} {c₀ : Pc} {lock : Option P}
    (hpc : s.pc p = c₀) (hok : c.Ok) (hoff : ∀ off, c.offset = some off → off = s.file.off)
    (hlock : ∀ q, (update s.pc p c q).inside = true ↔ lock = some q)
    (hpending : c.pending = c₀.pending) (hleft : c.left = c₀.left + total [e])
    (hothers : ∀ q, q ≠ p → callsOf q [e] = [])
    (hcalls : ∀ earlier, callsOf p es = earlier ++ c₀.current.toList →
      ∃ earlier', callsOf p (es ++ [e]) = earlier' ++ c.current.toList ∧
        earlier.flatMap chunks ++ chunks c₀.written =
          earlier'.flatMap chunks ++ chunks c.written) :
    Inv env w₀ (es ++ [e]) ⟨⟨s.file, s.work, lock⟩, update s.pc p c⟩ := by
  obtain ⟨ws, hws⟩ := h.pieces
  refine ⟨h.owned, h.whole, h.file, h.writable, h.type, hlock,
    forall_update (fun q _ => h.ok q) hok,
    forall_update (Q := fun _ c => ∀ off, c.offset = some off → off = s.file.off)
      (fun q _ => h.loaded q) hoff, ?_, ?_, ws, hws.update hws.1 (fun q hq => ?_)
      (fun _ _ => rfl) ?_⟩
  · have hsum := sum_update Pc.pending hpc c
    have := h.off
    show s.file.off + ∑ q, (update s.pc p c q).pending = s.work.ip.size
    omega
  · have hsum := sum_update Pc.left hpc c
    have := h.budget
    show s.work.ip.size + ∑ q, (update s.pc p c q).left = _
    rw [total_append]
    omega
  · rw [callsOf_append, hothers q hq, List.append_nil]
  · obtain ⟨earlier, hold, hp⟩ := hws.2 p
    rw [hpc] at hold hp
    obtain ⟨earlier', hnew, hchunks⟩ := hcalls earlier hold
    exact ⟨earlier', hnew, hp.trans hchunks⟩

/-- Another stage of the same call. -/
theorem Inv.quiet (h : Inv env w₀ es s) {c₀ : Pc} {lock : Option P} (hpc : s.pc p = c₀)
    (hsame : c₀.Same c) (hok : c.Ok) (hoff : ∀ off, c.offset = some off → off = s.file.off)
    (hlock : ∀ q, (update s.pc p c q).inside = true ↔ lock = some q) :
    Inv env w₀ (es ++ [.run p]) ⟨⟨s.file, s.work, lock⟩, update s.pc p c⟩ := by
  refine h.move hpc hok hoff hlock hsame.pending hsame.left (fun _ _ => rfl) fun earlier hold => ?_
  rw [callsOf_run, hsame.current, hsame.written]
  exact ⟨earlier, hold, rfl⟩

/-- The offset is moved to the end of the file. -/
theorem Inv.stored (h : Inv env w₀ es s) {r off : ℕ} (hpc : s.pc p = .call src i (.store r off)) :
    Inv env w₀ (es ++ [.run p]) ⟨⟨{ s.file with off := (off + r) % 2 ^ 32 }, s.work, s.lock⟩,
      update s.pc p (.call src i (.iunlock (some r)))⟩ := by
  obtain ⟨ws, hws⟩ := h.pieces
  obtain ⟨hlt, hi, hr⟩ : i < src.length ∧ i % chunk = 0 ∧ r = n1 src i := by
    have := h.ok p
    rwa [hpc] at this
  have hin : (s.pc p).inside = true := by rw [hpc]; rfl
  have hoff : off = s.file.off := h.loaded p off (by rw [hpc]; rfl)
  have hpending : ∑ q, (update s.pc p (.call src i (.iunlock (some r))) q).pending + r =
      ∑ q, (s.pc q).pending + 0 := sum_update Pc.pending hpc _
  have hleft : ∑ q, (update s.pc p (.call src i (.iunlock (some r))) q).left +
      (src.length - (i + r)) = ∑ q, (s.pc q).left + (src.length - (i + r)) :=
    sum_update Pc.left hpc _
  have hsize : MAXFILE * BSIZE = 71680 := rfl
  have hle := h.whole.size_le
  have hend := h.off
  refine ⟨h.owned, h.whole, h.file, h.writable, h.type, ?_, forall_update (fun q _ => h.ok q)
    ⟨hlt, hi, by rw [hr]⟩, ?_, ?_, ?_, ws, hws.update hws.1 (fun q _ => callsOf_run p q es)
      (fun _ _ => rfl) ?_⟩
  · exact lock_of_same h.lock (by rw [hpc]; rfl)
  · -- nobody else has read the offset, because `p` holds the lock
    refine forall_update (Q := fun _ c => ∀ off', c.offset = some off' → off' = _)
      (fun q hq off' ho => ?_) nofun
    have hq' := (h.lock q).mp (Pc.inside_of_offset ho)
    rw [(h.lock p).mp hin] at hq'
    exact absurd (Option.some.inj hq').symm hq
  · show (off + r) % 2 ^ 32 + ∑ q, (update s.pc p _ q).pending = s.work.ip.size
    omega
  · have := h.budget
    show s.work.ip.size + ∑ q, (update s.pc p _ q).left = _
    rw [total_run]
    omega
  · have := hws.2 p
    rw [callsOf_run]
    rwa [hpc] at this

theorem n1_pos (h : i < src.length) :
    0 < n1 src i ∧ i + n1 src i ≤ src.length := by
  have hchunk : 0 < chunk := by decide
  unfold n1
  omega

/-- While a process is at the lock, no other has written beyond the offset. -/
theorem Inv.pending_eq_zero (h : Inv env w₀ es s) (hpc : s.pc p = c)
    (hin : c.inside = true) (hc : c.pending = 0) : ∑ q, (s.pc q).pending = 0 := by
  refine Finset.sum_eq_zero fun q _ => ?_
  rcases eq_or_ne q p with rfl | hq
  · rw [hpc, hc]
  · have hout : (s.pc q).inside = false := by
      rw [Bool.eq_false_iff]
      intro hq'
      have hlock := (h.lock p).mp (by rw [hpc]; exact hin)
      rw [(h.lock q).mp hq'] at hlock
      exact hq (Option.some.inj hlock)
    exact Pc.pending_of_not_inside hout

/-- A chunk is written at the end of the file. -/
theorem Inv.wrote (h : Inv env w₀ es s) {off : ℕ} {r : Option ℕ}
    (hmax : w₀.ip.size + total es ≤ MAXFILE * BSIZE)
    (hpc : s.pc p = .call src i (.writei off))
    (hw : writei env ((src.drop i).take (n1 src i)) off s.work = .ok (r, w)) :
    Inv env w₀ (es ++ [.run p]) ⟨⟨s.file, w, s.lock⟩,
      update s.pc p (.call src i (.test r))⟩ := by
  obtain ⟨ws, hws⟩ := h.pieces
  obtain ⟨hlt, hi⟩ : i < src.length ∧ i % chunk = 0 := by
    have := h.ok p
    rwa [hpc] at this
  obtain ⟨hpos, hn⟩ := n1_pos hlt
  have hoff : off = s.work.ip.size := by
    rw [h.loaded p off (by rw [hpc]; rfl), ← h.off, h.pending_eq_zero hpc rfl rfl, Nat.add_zero]
  have hsrc : ((src.drop i).take (n1 src i)).length = n1 src i := by
    rw [List.length_take, List.length_drop]
    omega
  have hsize : MAXFILE * BSIZE = 71680 := rfl
  have hbudget := h.budget
  have hleft : ∀ r, ∑ q, (update s.pc p (.call src i (.test r)) q).left +
      (src.length - (i + 0)) = ∑ q, (s.pc q).left + (src.length - (i + r.getD 0)) :=
    fun r => sum_update Pc.left hpc _
  have hpending : ∀ r, ∑ q, (update s.pc p (.call src i (.test r)) q).pending + 0 =
      ∑ q, (s.pc q).pending + r.getD 0 := fun r => sum_update Pc.pending hpc _
  have hle : src.length - i ≤ ∑ q, (s.pc q).left :=
    le_of_eq_of_le (by rw [hpc]; rfl) (Finset.single_le_sum (f := fun q => (s.pc q).left)
      (fun _ _ => Nat.zero_le _) (Finset.mem_univ p))
  have hspec := writei_spec h.owned h.whole (by rw [h.file]; decide) (by rw [h.file]; decide)
    (by omega) (by omega) hw
  rw [if_pos (by omega), hsrc] at hspec
  obtain ⟨rfl, hwritten⟩ := hspec
  have hcontent : w.content = s.work.content ++ (src.drop i).take (n1 src i) := by
    have hlen := s.work.length_content
    have hdrop :
        s.work.content.drop (s.work.ip.size + ((src.drop i).take (n1 src i)).length) = [] :=
      List.drop_of_length_le (by omega)
    rw [hwritten.content_eq, hoff, List.take_of_length_le hlen.le, hdrop, List.append_nil]
  refine ⟨hwritten.owned,
    hwritten.whole, by rw [hwritten.type_eq]; exact h.file, h.writable, h.type,
    lock_of_same h.lock (by rw [hpc]; rfl), forall_update (fun q _ => h.ok q) ⟨hlt, hi, rfl⟩,
    forall_update (Q := fun _ c => ∀ off, c.offset = some off → off = s.file.off)
      (fun q _ => h.loaded q) nofun, ?_, ?_, ws ++ [(p, (src.drop i).take (n1 src i))],
    hws.update ?_ (fun q _ => callsOf_run p q es) (fun q hq => ?_) ?_⟩
  · have hsum := hpending (some (n1 src i))
    have hend := h.off
    simp only [Option.getD_some] at hsum
    show s.file.off + ∑ q, (update s.pc p _ q).pending = w.ip.size
    rw [hwritten.size_eq, hsrc]
    omega
  · have hsum := hleft (some (n1 src i))
    simp only [Option.getD_some] at hsum
    show w.ip.size + ∑ q, (update s.pc p _ q).left = _
    rw [hwritten.size_eq, hsrc, total_run]
    omega
  · rw [hcontent, hws.1, List.map_append, List.flatten_append, List.append_assoc]
    simp
  · simp [Ne.symm hq]
  · obtain ⟨earlier, hcalls, hp⟩ := hws.2 p
    rw [hpc] at hcalls hp
    refine ⟨earlier, by rw [callsOf_run]; exact hcalls, ?_⟩
    have hchunks : chunks (src.take (i + n1 src i)) =
        chunks (src.take i) ++ [(src.drop i).take (n1 src i)] :=
      pieces_take_add (by decide) hi hlt
    rw [List.filter_append, List.map_append, hp]
    show _ = _ ++ chunks (src.take (i + n1 src i))
    rw [hchunks]
    simp [Pc.written, Stage.wrote]

/-- A call ends when everything is written. -/
theorem Inv.left (h : Inv env w₀ es s) (hpc : s.pc p = .call src src.length .loop) (r : Option ℕ) :
    Inv env w₀ (es ++ [.run p]) ⟨s.toShared, update s.pc p (.out r)⟩ := by
  refine h.move hpc trivial nofun (lock_of_same h.lock (by rw [hpc]; rfl)) rfl
    (Nat.sub_self src.length).symm (fun _ _ => rfl) fun earlier hold => ⟨earlier ++ [src], ?_, ?_⟩
  · rw [callsOf_run, hold]
    simp [Pc.current]
  · simp [Pc.written, Stage.wrote, chunks, pieces_nil (show 0 < chunk by decide)]

/-- A call begins. -/
theorem Inv.called (h : Inv env w₀ es s) {r : Option ℕ} (hpc : s.pc p = .out r) :
    Inv env w₀ (es ++ [.call p src]) { s with pc := update s.pc p (.call src 0 .loop) } := by
  refine h.move hpc ⟨Nat.zero_le _, .inl rfl⟩ nofun (lock_of_same h.lock (by rw [hpc]; rfl)) rfl ?_
    (fun q hq => by simp [callsOf, Ne.symm hq]) fun earlier hold => ⟨earlier, ?_, rfl⟩
  · simp [Pc.left, Stage.wrote, total]
  · rw [callsOf_append, hold]
    simp [callsOf, Pc.current]

omit [DecidableEq P] [Fintype P] in
/-- What happens to other files does not change this one. -/
theorem Elsewhere.content_eq {w' : Work} (h : Elsewhere env w w') (hw : w.Whole) :
    w'.Whole ∧ w'.content = w.content := by
  refine ⟨⟨by rw [h.ip_eq]; exact hw.size_le, fun bn hbn => ?_⟩, ?_⟩
  · rw [h.ip_eq] at hbn
    have := h.block_eq bn
    exact fun h0 => hw.block_ne bn hbn (this.symm.trans h0)
  · unfold Work.content Dinode.content
    rw [h.ip_eq]
    refine List.map_congr_left fun x hx => ?_
    have hblock : w.block (x / BSIZE) ≠ 0 :=
      hw.block_ne _ (lt_of_le_of_lt (Nat.div_mul_le_self _ _) (List.mem_range.mp hx))
    show w'.disk.data (w.ip.block w'.disk.data (x / BSIZE)) (x % BSIZE) = w.byte x
    have hb : w.ip.block w'.disk.data (x / BSIZE) = w.block (x / BSIZE) := by
      rw [← h.block_eq, Work.block, h.ip_eq]
    rw [hb, h.data_eq _ hblock, Work.byte_eq]

theorem Inv.elsewhere (h : Inv env w₀ es s) (hw : Elsewhere env s.work w) :
    Inv env w₀ (es ++ [.other]) { s with work := w } := by
  obtain ⟨ws, hcontent, hws⟩ := h.pieces
  obtain ⟨hwhole, hc⟩ := hw.content_eq h.whole
  refine ⟨hw.owned, hwhole, ?_, h.writable, h.type, h.lock, h.ok, h.loaded, ?_, ?_, ws, ?_,
    fun p => ?_⟩
  · rw [hw.ip_eq]
    exact h.file
  · rw [hw.ip_eq]
    exact h.off
  · rw [hw.ip_eq, total_append]
    exact h.budget
  · exact hc.trans hcontent
  · simpa [callsOf] using hws p

/-- **Every step keeps the invariant.** -/
theorem Inv.step {e : Event P} (h : Inv env w₀ es s)
    (hmax : w₀.ip.size + total es ≤ MAXFILE * BSIZE) (hs : Step env s e s') :
    Inv env w₀ (es ++ [e]) s' := by
  cases hs with
  | @call p r src c hpc hc =>
    unfold enter at hc
    rw [h.writable, h.type] at hc
    cases hc
    exact h.called hpc
  | other hw => exact h.elsewhere hw
  | @run p src i st c t hpc hc =>
    have hok := h.ok p
    have hinside : (s.pc p).inside = st.inside := by rw [hpc]; rfl
    rw [hpc] at hok
    cases st with
    | loop =>
      obtain ⟨hle, hi⟩ := hok
      cases hc
      split
      next hlt =>
        exact h.quiet hpc ⟨rfl, rfl, rfl, rfl⟩ ⟨hlt, by omega⟩ nofun
          (lock_of_same h.lock hinside.symm)
      next hge =>
        obtain rfl : i = src.length := by omega
        exact h.left hpc _
    | beginOp =>
      cases hc
      exact h.quiet hpc ⟨rfl, rfl, rfl, rfl⟩ hok nofun (lock_of_same h.lock hinside.symm)
    | ilock =>
      simp only [next] at hc
      split_ifs at hc with hfree
      cases hc
      refine h.quiet hpc ⟨rfl, rfl, rfl, rfl⟩ hok nofun ?_
      refine forall_update (Q := fun q c => c.inside = true ↔ some p = some q) (fun q hq => ?_) ?_
      · rw [h.lock q, hfree]
        simp [Ne.symm hq]
      · simp [Pc.inside, Stage.inside]
    | load =>
      cases hc
      exact h.quiet hpc ⟨rfl, rfl, rfl, rfl⟩ hok (fun off ho => (Option.some.inj ho).symm)
        (lock_of_same h.lock hinside.symm)
    | writei off =>
      simp only [next] at hc
      split at hc
      next r w hw =>
        cases hc
        exact h.wrote hmax hpc hw
      next => cases hc
    | test r =>
      obtain ⟨hlt, hi, rfl⟩ := hok
      obtain ⟨k, hk⟩ := Nat.exists_eq_succ_of_ne_zero (n1_pos hlt).1.ne'
      rw [hk] at hc hpc
      cases hc
      exact h.quiet hpc ⟨rfl, rfl, rfl, rfl⟩ ⟨hlt, hi, hk.symm⟩
        (fun off ho => (Option.some.inj ho).symm) (lock_of_same h.lock hinside.symm)
    | store r off =>
      cases hc
      exact h.stored hpc
    | iunlock r =>
      simp only [next] at hc
      split_ifs at hc with hheld
      cases hc
      refine h.quiet hpc ⟨rfl, rfl, rfl, rfl⟩ hok nofun ?_
      refine forall_update (Q := fun q c => c.inside = true ↔ none = some q) (fun q hq => ?_) ?_
      · rw [h.lock q, hheld]
        simp [Ne.symm hq]
      · simp [Pc.inside, Stage.inside]
    | endOp r =>
      cases hc
      exact h.quiet hpc ⟨rfl, rfl, rfl, rfl⟩ hok nofun (lock_of_same h.lock hinside.symm)
    | check r =>
      obtain ⟨hlt, hi, rfl⟩ := hok
      simp only [next, ↓reduceIte] at hc
      cases hc
      refine h.quiet hpc ⟨rfl, rfl, rfl, rfl⟩ ⟨(n1_pos hlt).2, ?_⟩ nofun
        (lock_of_same h.lock hinside.symm)
      -- a chunk that is not the last one has the full length
      rcases Nat.le_total (src.length - i) chunk with hle | hle
      · rw [n1, Nat.min_eq_left hle]
        omega
      · refine .inl ?_
        rw [n1, Nat.min_eq_right hle, Nat.add_mod_right]
        exact hi

/-- **The invariant holds in every state of every run** from the end of the file, as long as the
calls stay within the maximal size. -/
theorem Inv.run {s₀ : State P} (h : Inv env s₀.work [] s₀) (hrun : Run (Step env) s₀ es s)
    (hmax : s₀.work.ip.size + total es ≤ MAXFILE * BSIZE) : Inv env s₀.work es s := by
  induction hrun with
  | nil => exact h
  | snoc _ hstep ih =>
    rw [total_append] at hmax
    exact (ih (by omega)).step (by omega) hstep

end Invariant

/-! ### The theorem -/

section Main

variable {P : Type} [DecidableEq P]

/-- Nobody is in `filewrite`. -/
def State.Quiet (s : State P) : Prop := ∀ p, ∃ r, s.pc p = .out r

/-- An open file at its end, for writing, that nobody is writing to; its inode has no holes. -/
structure AtEnd (env : Env) (s : State P) : Prop where
  quiet : s.Quiet
  free : s.lock = none
  writable : s.file.writable = true
  type : s.file.type = .inode
  file : s.work.ip.type = .file
  owned : Owned env s.work.view s.work.disk
  whole : s.work.Whole
  off : s.file.off = s.work.ip.size

variable [Fintype P] {env : Env} {s₀ s : State P} {es : List (Event P)}

theorem AtEnd.inv (h : AtEnd env s₀) : Inv env s₀.work [] s₀ := by
  have hout : ∀ {f : Pc → ℕ}, (∀ r, f (.out r) = 0) → ∑ p, f (s₀.pc p) = 0 := by
    intro f hf
    refine Finset.sum_eq_zero fun p _ => ?_
    obtain ⟨r, hr⟩ := h.quiet p
    rw [hr, hf]
  refine ⟨h.owned, h.whole, h.file, h.writable, h.type, fun p => ?_, fun p => ?_,
    fun p off ho => ?_,
    ?_, ?_, [], ?_, fun p => ?_⟩
  · obtain ⟨r, hr⟩ := h.quiet p
    rw [hr, h.free]
    exact iff_of_false nofun nofun
  · obtain ⟨r, hr⟩ := h.quiet p
    rw [hr]
    trivial
  · obtain ⟨r, hr⟩ := h.quiet p
    rw [hr] at ho
    cases ho
  · rw [hout fun _ => rfl, h.off]
    rfl
  · rw [hout fun _ => rfl]
    rfl
  · exact (List.append_nil _).symm
  · obtain ⟨r, hr⟩ := h.quiet p
    rw [hr]
    refine ⟨[], rfl, ?_⟩
    simp [Pc.written, chunks, pieces_nil (show 0 < chunk by decide)]

/-- **Writes through a shared open file do not overwrite each other.** Whatever the interleaving of
the statements of any `filewrite` calls, when nobody is in a call the file is its old content
followed by chunks `ws` of the calls. Those of one process are the chunks of its calls, in order, so
that its bytes are written once; and the offset is the new size. -/
theorem shared_writes_append (h : AtEnd env s₀) (hrun : Run (Step env) s₀ es s)
    (hmax : s₀.work.ip.size + total es ≤ MAXFILE * BSIZE) (hquiet : s.Quiet) :
    ∃ ws : List (P × List UInt8),
      s.work.content = s₀.work.content ++ (ws.map Prod.snd).flatten ∧
      (∀ p, (ws.filter (·.1 = p)).map Prod.snd = (callsOf p es).flatMap chunks) ∧
      (∀ p, ((ws.filter (·.1 = p)).map Prod.snd).flatten = (callsOf p es).flatten) ∧
      (∀ c ∈ ws, c.2.length ≤ 1536) ∧
      s.file.off = s.work.ip.size := by
  have hinv := h.inv.run hrun hmax
  obtain ⟨ws, hcontent, hws⟩ := hinv.pieces
  have hpieces : ∀ p, (ws.filter (·.1 = p)).map Prod.snd = (callsOf p es).flatMap chunks := by
    intro p
    obtain ⟨earlier, hcalls, hp⟩ := hws p
    obtain ⟨r, hr⟩ := hquiet p
    rw [hr] at hcalls hp
    rw [hp, hcalls]
    simp [Pc.current, Pc.written, chunks, pieces_nil (show 0 < chunk by decide)]
  refine ⟨ws, hcontent, hpieces, fun p => ?_, fun c hc => ?_, ?_⟩
  · rw [hpieces, List.flatMap_def, List.flatten_flatten, List.map_map]
    have hid : List.flatten ∘ chunks = id := funext fun src => flatten_pieces (by decide) src
    rw [hid, List.map_id]
  · have hmem : c.2 ∈ (callsOf c.1 es).flatMap chunks := by
      rw [← hpieces]
      exact List.mem_map_of_mem (List.mem_filter.mpr ⟨hc, decide_eq_true rfl⟩)
    obtain ⟨src, -, hsrc⟩ := List.mem_flatMap.mp hmem
    exact length_le_of_mem_pieces hsrc
  · have hzero : ∑ p, (s.pc p).pending = 0 := Finset.sum_eq_zero fun p _ => by
      obtain ⟨r, hr⟩ := hquiet p
      rw [hr]
      rfl
    have := hinv.off
    omega

/-! ### Two writers -/

/-- The next state of the events of the processes. -/
def next? (env : Env) (s : State P) : Event P → Option (State P)
  | .call p src =>
    match s.pc p with
    | .out _ => (enter s.file src).map fun c => { s with pc := Function.update s.pc p c }
    | .call _ _ _ => none
  | .run p =>
    match s.pc p with
    | .out _ => none
    | .call src i st =>
      (next env p src i s.toShared st).map fun r => ⟨r.2, Function.update s.pc p r.1⟩
  | .other => none

omit [Fintype P] in
theorem step_of_next? {s s' : State P} {e : Event P} (h : next? env s e = some s') :
    Step env s e s' := by
  cases e with
  | other => cases h
  | call p src =>
    simp only [next?] at h
    split at h
    · next r hpc =>
      obtain ⟨c, hc, rfl⟩ := Option.map_eq_some_iff.mp h
      exact .call hpc hc
    · cases h
  | run p =>
    simp only [next?] at h
    split at h
    · cases h
    · next src i st hpc =>
      obtain ⟨⟨c, t⟩, hc, rfl⟩ := Option.map_eq_some_iff.mp h
      exact .run hpc hc

/-- An empty file, open for writing. -/
def emptyFile : State (Fin 2) where
  file := ⟨.inode, 2, false, true, 0, 0⟩
  work := blank .file
  lock := none
  pc _ := .out none

theorem atEnd_emptyFile : AtEnd smallEnv emptyFile where
  quiet _ := ⟨none, rfl⟩
  free := rfl
  writable := rfl
  type := rfl
  file := rfl
  owned := (noHoles_blank .file).owned
  whole := by
    have hwhole := (noHoles_blank .file).whole 2
    exact hwhole (by decide)
  off := rfl

/-- Both processes start a call; the second one is first at the lock. -/
def twoWriters : List (Event (Fin 2)) :=
  [.call 0 [1, 2], .call 1 [3], .run 0, .run 0] ++ List.replicate 11 (.run 1) ++
    List.replicate 9 (.run 0)

theorem shared_writes_append_two_writers : ∃ s, Run (Step smallEnv) emptyFile twoWriters s ∧
    s.Quiet ∧ ∃ ws : List (Fin 2 × List UInt8),
      s.work.content = (ws.map Prod.snd).flatten ∧
      (∀ p, (ws.filter (·.1 = p)).map Prod.snd = (callsOf p twoWriters).flatMap chunks) ∧
      s.file.off = s.work.ip.size := by
  obtain ⟨s, hrun, hout⟩ := @Run.exists_of_foldlM _ _ (Step smallEnv)
    (next? smallEnv) (fun _ _ _ => step_of_next?) emptyFile twoWriters
    (fun s => decide (s.pc 0 = .out (some 2) ∧ s.pc 1 = .out (some 1))) (by decide +kernel)
  obtain ⟨h0, h1⟩ := of_decide_eq_true hout
  have hquiet : s.Quiet := fun p => by
    fin_cases p
    · exact ⟨_, h0⟩
    · exact ⟨_, h1⟩
  obtain ⟨ws, hcontent, hws, -, -, hoff⟩ :=
    shared_writes_append atEnd_emptyFile hrun (by decide) hquiet
  exact ⟨s, hrun, hquiet, ws, hcontent, hws, hoff⟩

end Main

end Append

end Xv6.Fs
