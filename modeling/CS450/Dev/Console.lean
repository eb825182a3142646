import CS450.Lib.Ring
import CS450.Lib.Run

/-!
# Console input

`consoleintr` and `consoleread`, run by the interrupt handler and by any number of readers. The part
of `consoleread` between `acquire` or a return of `sleep` and the next `sleep` or `release` runs
with `cons.lock`, and is one step here; so is the whole of `consoleintr`. Where the code sleeps, the
reader may go on at any time: it looks at the indices again, whoever woke it.

What is typed makes up a text of committed lines, of which the readers have taken some part, and the
line that is being edited. The buffer holds what has not been taken.

## Main results

* `key_spec`: a key does to the buffer what it does to the text
* `readLoop_spec`: a reader gets a part of the text
* `console_exact`: line editing is exact, in every run
-/

namespace Xv6.Console

open Function (update update_of_ne update_self)
open Transition Ring

abbrev INPUT_BUF : ℕ := 128

instance : NeZero INPUT_BUF := ⟨by decide⟩

/-- Control-x. -/
def C (x : Char) : UInt8 := UInt8.ofNat (x.toNat - 64)

def newline : UInt8 := 10

def carriageReturn : UInt8 := 13

/-- `input` -/
structure Input where
  buf : Fin INPUT_BUF → UInt8
  r : BitVec 32
  w : BitVec 32
  e : BitVec 32

namespace Input

variable (s : Input)

/-! ### The code -/

/-- The loop for control-U, which has at most `k` rounds. -/
def killLoop : ℕ → Input → Input
  | 0, s => s
  | k + 1, s =>
    if s.e ≠ s.w ∧ s.buf (slot INPUT_BUF (s.e - 1#32)) ≠ newline then
      killLoop k { s with e := s.e - 1#32 }
    else s

/-- `input.buf[input.e++ % INPUT_BUF] = c` -/
def store (c : UInt8) : Input :=
  { s with buf := Function.update s.buf (slot INPUT_BUF s.e) c, e := s.e + 1#32 }

/-- A character is stored, and the line committed if it is complete. -/
def accept (c : UInt8) : Input :=
  let s := s.store c
  if c = newline ∨ c = C 'D' ∨ s.e = s.r + 128#32 then { s with w := s.e } else s

/-- What `consoleintr` does with one character. -/
def key (c : UInt8) : Input :=
  if c = C 'P' then s
  else if c = C 'U' then killLoop (s.e - s.w).toNat s
  else if c = C 'H' ∨ c = 0x7f then
    if s.e ≠ s.w then { s with e := s.e - 1#32 } else s
  else if c ≠ 0 ∧ (s.e - s.r).toNat < INPUT_BUF then
    s.accept (if c = carriageReturn then newline else c)
  else s

/-- `consoleintr`, with the characters that `getc` returns. -/
def consoleintr (cs : List UInt8) : Input := cs.foldl key s

end Input

/-- Why a reader stops. -/
inductive End
  /-- it sleeps -/
  | sleep
  | killed
  /-- it has as much as it asked for -/
  | full
  | newline
  /-- control-D; it is taken by a reader that has got nothing -/
  | eof (taken : Bool)
  deriving DecidableEq, Repr

/-- The loop of `consoleread` up to a `sleep` or a `release`: what is copied to `dst`, why the
reader stops, what is left of `n`, and the buffer. -/
def readLoop (killed : Bool) (target : ℕ) : ℕ → Input → List UInt8 × End × ℕ × Input
  | 0, s => ([], .full, 0, s)
  | n + 1, s =>
    if s.r = s.w then ([], if killed then .killed else .sleep, n + 1, s)
    else
      let c := s.buf (slot INPUT_BUF s.r)
      let s := { s with r := s.r + 1#32 }
      if c = C 'D' then
        if n + 1 < target then ([], .eof false, n + 1, { s with r := s.r - 1#32 })
        else ([], .eof true, n + 1, s)
      else if c = newline then ([c], .newline, n, s)
      else
        let (bytes, e, m, s) := readLoop killed target n s
        (c :: bytes, e, m, s)

/-- What `consoleread` returns, unless it sleeps. -/
def End.value (target n : ℕ) : End → Option ℤ
  | .sleep => none
  | .killed => some (-1)
  | _ => some (target - n)

/-! ### Runs -/

/-- A call of `consoleread` that has not returned. -/
structure Reader where
  target : ℕ
  n : ℕ

structure System (P : Type) where
  input : Input
  reader : P → Option Reader

inductive Event (P : Type)
  | intr (cs : List UInt8)
  | call (p : P) (n : ℤ)
  | read (p : P) (bytes : List UInt8) (e : End) (r : Option ℤ)

variable {P : Type} [DecidableEq P]

/-- What happens with `cons.lock`, and the calls. A call with a negative length does not enter the
loop and returns `0`, like one with length `0`. -/
inductive Step : System P → Event P → System P → Prop
  | intr {s : System P} {cs : List UInt8} :
      Step s (.intr cs) { s with input := s.input.consoleintr cs }
  | call {s : System P} {p : P} {n : ℤ} (hp : s.reader p = none) :
      Step s (.call p n) { s with reader := Function.update s.reader p (some ⟨n.toNat, n.toNat⟩) }
  | read {s : System P} {p : P} {x : Reader} {killed : Bool} {bytes : List UInt8} {e : End} {n : ℕ}
      {input : Input} (hp : s.reader p = some x)
      (hread : readLoop killed x.target x.n s.input = (bytes, e, n, input)) :
      Step s (.read p bytes e (e.value x.target n))
        ⟨input, Function.update s.reader p (if e = .sleep then some ⟨x.target, n⟩ else none)⟩

/-- The buffer is empty, and nobody reads. -/
def boot : System P := ⟨⟨fun _ => 0, 0#32, 0#32, 0#32⟩, fun _ => none⟩

/-! ### What was typed -/

/-- The text that was committed so far, how much of it the readers have taken, and the line that is
being edited. -/
structure Typed where
  text : List UInt8
  taken : ℕ
  line : List UInt8
  deriving DecidableEq, Repr

namespace Typed

variable (t : Typed)

/-- What has not been taken. -/
def unread : List UInt8 := t.text.drop t.taken

/-- A character is added to the line. A newline, a control-D and a full buffer commit the line. -/
def accept (c : UInt8) : Typed :=
  if c = newline ∨ c = C 'D' ∨ t.unread.length + t.line.length + 1 = INPUT_BUF then
    { t with text := t.text ++ (t.line ++ [c]), line := [] }
  else { t with line := t.line ++ [c] }

/-- **A key.** Backspace removes the last character of the line, and control-U the line. Other
characters are accepted if there is room. -/
def key (c : UInt8) : Typed :=
  if c = C 'P' then t
  else if c = C 'U' then { t with line := [] }
  else if c = C 'H' ∨ c = 0x7f then { t with line := t.line.dropLast }
  else if c ≠ 0 ∧ t.unread.length + t.line.length < INPUT_BUF then
    t.accept (if c = carriageReturn then newline else c)
  else t

/-- What an event does to the text. -/
def event (t : Typed) : Event P → Typed
  | .intr cs => cs.foldl key t
  | .call _ _ => t
  | .read _ bytes e _ =>
    { t with taken := t.taken + bytes.length + if e = .eof true then 1 else 0 }

end Typed

/-- **The text** after the events. -/
def typed (es : List (Event P)) : Typed := es.foldl Typed.event ⟨[], 0, []⟩

/-- The bytes that the readers have got, in order. -/
def delivered (es : List (Event P)) : List UInt8 :=
  es.flatMap fun
    | .read _ bytes _ _ => bytes
    | _ => []

/-- The call of `p` that has not returned: its length, and what it has got so far. -/
def reading (p : P) (es : List (Event P)) : Option (ℕ × List UInt8) :=
  es.foldl (fun x e =>
    match e with
    | .intr _ => x
    | .call q n => if q = p then some (n.toNat, []) else x
    | .read q bytes e _ =>
      if q = p then if e = .sleep then x.map fun y => (y.1, y.2 ++ bytes) else none else x) none

/-- Why a reader stops, when it has got `got` and the first `n` bytes of what was not taken. -/
def StopOk (unread got : List UInt8) (target n : ℕ) : End → Option ℤ → Prop
  | .sleep, r => n = unread.length ∧ r = none
  | .killed, r => n = unread.length ∧ r = some (-1)
  | .full, r => got.length = target ∧ r = some target
  | .newline, r => got.getLast? = some newline ∧ r = some got.length
  | .eof taken, r => unread[n]? = some (C 'D') ∧ (taken = true ↔ got = []) ∧ r = some got.length

/-- **What a reader may get**: the next part of the text, up to a newline or a control-D, and no
more than it asked for. -/
structure ReadOk (t : Typed) (target : ℕ) (got bytes : List UInt8) (e : End) (r : Option ℤ) :
    Prop where
  begins : bytes <+: t.unread
  noEof : C 'D' ∉ bytes
  noNewline : newline ∉ bytes.dropLast
  le : (got ++ bytes).length ≤ target
  stop : StopOk t.unread (got ++ bytes) target bytes.length e r

/-! ### The buffer -/

namespace Input

variable {s : Input} {c : UInt8}

/-- The committed bytes that have not been read. -/
def committed (s : Input) : List UInt8 := segment s.buf s.r (s.w - s.r).toNat

/-- The line that is being edited. -/
def pending (s : Input) : List UInt8 := segment s.buf s.w (s.e - s.w).toNat

/-- **The indices are in order**: `0 <= w-r <= e-r <= INPUT_BUF`. -/
structure Ordered (s : Input) : Prop where
  le : (s.w - s.r).toNat ≤ (s.e - s.r).toNat
  bound : (s.e - s.r).toNat ≤ INPUT_BUF

theorem dvd_buf : INPUT_BUF ∣ 2 ^ 32 := ⟨2 ^ 25, by norm_num⟩

/-- The numbers of committed and of uncommitted bytes. -/
theorem Ordered.counts (h : s.Ordered) :
    (s.e - s.r).toNat = (s.w - s.r).toNat + (s.e - s.w).toNat := by
  have := h.le
  bv_omega

theorem w_eq : s.w = s.r + BitVec.ofNat 32 (s.w - s.r).toNat := by
  bv_omega

theorem e_eq : s.e = s.w + BitVec.ofNat 32 (s.e - s.w).toNat := by
  rw [BitVec.ofNat_toNat, BitVec.setWidth_eq]
  bv_omega

theorem length_committed : s.committed.length = (s.w - s.r).toNat := length_segment

theorem length_pending : s.pending.length = (s.e - s.w).toNat := length_segment

theorem pending_eq_nil (h : s.e = s.w) : s.pending = [] := by
  rw [pending, h, BitVec.sub_self]
  rfl

/-- The last index that is not committed. -/
theorem back_spec (h : s.Ordered) (hne : s.e ≠ s.w) :
    Ordered { s with e := s.e - 1#32 } ∧
      s.pending = pending { s with e := s.e - 1#32 } ++ [s.buf (slot INPUT_BUF (s.e - 1#32))] := by
  have hpos : (s.e - s.w).toNat = (s.e - 1#32 - s.w).toNat + 1 := by bv_omega
  have := h.le
  have := h.bound
  refine ⟨⟨?_, ?_⟩, ?_⟩
  · bv_omega
  · show (s.e - 1#32 - s.r).toNat ≤ INPUT_BUF
    have : (s.e - 1#32 - s.r).toNat ≤ (s.e - s.r).toNat := by bv_omega
    omega
  · have hlast : s.w + BitVec.ofNat 32 (s.e - 1#32 - s.w).toNat = s.e - 1#32 := by
      bv_omega
    rw [pending, hpos, segment_succ, hlast]
    rfl

/-- **Control-U** removes the whole line, since a line that is not committed has no newline. -/
theorem killLoop_eq {k : ℕ} (h : s.Ordered) (hk : k = (s.e - s.w).toNat)
    (hline : newline ∉ s.pending) : killLoop k s = { s with e := s.w } := by
  induction k generalizing s with
  | zero =>
    have he : s.w = s.e := by bv_omega
    obtain ⟨buf, r, w, e⟩ := s
    obtain rfl : w = e := he
    rfl
  | succ k ih =>
    have hne : s.e ≠ s.w := by
      intro he
      rw [he, BitVec.sub_self] at hk
      exact absurd hk (Nat.succ_ne_zero k)
    obtain ⟨hord, hpending⟩ := back_spec h hne
    rw [hpending] at hline
    rw [killLoop, if_pos ⟨hne, fun hlast => hline (by simp [hlast])⟩]
    refine ih hord ?_ fun hmem => hline (List.mem_append_left _ hmem)
    show k = (s.e - 1#32 - s.w).toNat
    bv_omega

/-- A byte is stored behind the line. -/
theorem store_spec (h : s.Ordered) (hroom : (s.e - s.r).toNat < INPUT_BUF) :
    (s.store c).Ordered ∧ (s.store c).committed = s.committed ∧
      (s.store c).pending = s.pending ++ [c] := by
  have hcounts := h.counts
  have he : s.e = s.r + BitVec.ofNat 32 (s.e - s.r).toNat := by
    bv_omega
  have hle := h.le
  have hnext : (s.e + 1#32 - s.r).toNat = (s.e - s.r).toNat + 1 := by
    have hlt : (s.e - s.r).toNat < 128 := hroom
    bv_omega
  refine ⟨⟨?_, ?_⟩, ?_, ?_⟩
  · show (s.w - s.r).toNat ≤ (s.e + 1#32 - s.r).toNat
    omega
  · show (s.e + 1#32 - s.r).toNat ≤ INPUT_BUF
    omega
  · show segment (update s.buf (slot INPUT_BUF s.e) c) s.r (s.w - s.r).toNat = _
    rw [he]
    exact segment_update dvd_buf hle hroom
  · have hcount : (s.e + 1#32 - s.w).toNat = (s.e - s.w).toNat + 1 := by bv_omega
    show segment (update s.buf (slot INPUT_BUF s.e) c) s.w (s.e + 1#32 - s.w).toNat = _
    rw [hcount, segment_succ, ← e_eq, update_self]
    congr 1
    nth_rewrite 1 [e_eq]
    exact segment_update dvd_buf le_rfl (by omega)

/-- The line is committed. -/
theorem commit_spec (h : s.Ordered) :
    Ordered { s with w := s.e } ∧ committed { s with w := s.e } = s.committed ++ s.pending ∧
      pending { s with w := s.e } = [] := by
  refine ⟨⟨le_rfl, h.bound⟩, ?_, pending_eq_nil rfl⟩
  show segment s.buf s.r (s.e - s.r).toNat = _
  rw [h.counts, segment_add, ← w_eq]
  rfl

/-- The next byte is taken. -/
theorem take_spec (h : s.Ordered) (hne : s.r ≠ s.w) :
    Ordered { s with r := s.r + 1#32 } ∧
      s.committed = s.buf (slot INPUT_BUF s.r) :: committed { s with r := s.r + 1#32 } := by
  have hle := h.le
  have hbound := h.bound
  have hcount : (s.w - s.r).toNat = (s.w - (s.r + 1#32)).toNat + 1 := by bv_omega
  refine ⟨⟨?_, ?_⟩, ?_⟩
  · bv_omega
  · show (s.e - (s.r + 1#32)).toNat ≤ INPUT_BUF
    have : (s.e - (s.r + 1#32)).toNat ≤ (s.e - s.r).toNat := by bv_omega
    omega
  · rw [committed, hcount, segment_cons]
    rfl

theorem committed_eq_nil (h : s.r = s.w) : s.committed = [] := by
  rw [committed, h, BitVec.sub_self]
  rfl

end Input

/-! ### The buffer holds what was typed -/

/-- The buffer holds what has not been taken, and the line. -/
structure Holds (s : Input) (t : Typed) : Prop where
  ordered : s.Ordered
  committed : s.committed = t.unread
  pending : s.pending = t.line
  line : newline ∉ t.line
  taken : t.taken ≤ t.text.length

section Holds

variable {s : Input} {t : Typed} {c : UInt8}

variable {bytes : List UInt8} {e : End} {target : ℕ}

theorem Typed.unread_append (h : t.taken ≤ t.text.length) :
    (t.text ++ bytes).drop t.taken = t.unread ++ bytes := List.drop_append_of_le_length h

/-- There is as much room in the buffer as the text says. -/
theorem Holds.count (h : Holds s t) : t.unread.length + t.line.length = (s.e - s.r).toNat := by
  rw [h.ordered.counts, ← h.committed, ← h.pending, Input.length_committed, Input.length_pending]

theorem Holds.killLine (h : Holds s t) :
    Holds (Input.killLoop (s.e - s.w).toNat s) { t with line := [] } := by
  have hline : newline ∉ s.pending := by
    rw [h.pending]
    exact h.line
  rw [Input.killLoop_eq h.ordered rfl hline]
  refine ⟨⟨le_rfl, ?_⟩, h.committed, Input.pending_eq_nil rfl, by simp, h.taken⟩
  exact h.ordered.le.trans h.ordered.bound

theorem Holds.backspace (h : Holds s t) :
    Holds (if s.e ≠ s.w then { s with e := s.e - 1#32 } else s)
      { t with line := t.line.dropLast } := by
  have hline : newline ∉ t.line.dropLast := fun hmem => h.line (List.mem_of_mem_dropLast hmem)
  by_cases hne : s.e = s.w
  · have hnil : t.line = [] := by
      rw [← h.pending, Input.pending_eq_nil hne]
    rw [if_neg (not_not.mpr hne)]
    refine ⟨h.ordered, h.committed, ?_, hline, h.taken⟩
    show s.pending = t.line.dropLast
    rw [h.pending, hnil]
    rfl
  · obtain ⟨hord, hpending⟩ := Input.back_spec h.ordered hne
    rw [h.pending] at hpending
    rw [if_pos hne]
    refine ⟨hord, h.committed, ?_, hline, h.taken⟩
    show Input.pending { s with e := s.e - 1#32 } = t.line.dropLast
    rw [hpending, List.dropLast_concat]

theorem Holds.accept (h : Holds s t) (hroom : (s.e - s.r).toNat < INPUT_BUF) (c : UInt8) :
    Holds (s.accept c) (t.accept c) := by
  obtain ⟨hord, hcommitted, hpending⟩ := Input.store_spec (c := c) h.ordered hroom
  rw [h.committed] at hcommitted
  rw [h.pending] at hpending
  -- The buffer is full exactly when the text says so.
  have hfull : (s.store c).e = (s.store c).r + 128#32 ↔
      t.unread.length + t.line.length + 1 = INPUT_BUF := by
    rw [h.count]
    show s.e + 1#32 = s.r + 128#32 ↔ (s.e - s.r).toNat + 1 = 128
    constructor
    · bv_omega
    · bv_omega
  unfold Input.accept Typed.accept
  simp only [hfull]
  split_ifs with hcommit
  · obtain ⟨hord', hcommitted', hpending'⟩ := Input.commit_spec hord
    refine ⟨hord', ?_, hpending', by simp, ?_⟩
    · rw [hcommitted', hcommitted, hpending]
      exact (Typed.unread_append h.taken).symm
    · have := h.taken
      show t.taken ≤ (t.text ++ (t.line ++ [c])).length
      rw [List.length_append]
      omega
  · refine ⟨hord, hcommitted, hpending, ?_, h.taken⟩
    rw [not_or] at hcommit
    show newline ∉ t.line ++ [c]
    rw [List.mem_append, List.mem_singleton, not_or]
    exact ⟨h.line, fun heq => hcommit.1 heq.symm⟩

/-- **A key** does to the buffer what it does to the text. -/
theorem key_spec (h : Holds s t) (c : UInt8) : Holds (s.key c) (t.key c) := by
  unfold Input.key Typed.key
  rw [h.count]
  by_cases hP : c = C 'P'
  · simp only [if_pos hP]
    exact h
  simp only [if_neg hP]
  by_cases hU : c = C 'U'
  · simp only [if_pos hU]
    exact h.killLine
  simp only [if_neg hU]
  by_cases hH : c = C 'H' ∨ c = 0x7f
  · simp only [if_pos hH]
    exact h.backspace
  simp only [if_neg hH]
  by_cases hroom : c ≠ 0 ∧ (s.e - s.r).toNat < INPUT_BUF
  · simp only [if_pos hroom]
    exact h.accept hroom.2 _
  · simp only [if_neg hroom]
    exact h

theorem consoleintr_spec (h : Holds s t) (cs : List UInt8) :
    Holds (s.consoleintr cs) (cs.foldl Typed.key t) := by
  induction cs generalizing s t with
  | nil => exact h
  | cons c cs ih => exact ih (key_spec h c)

/-! ### Reading -/

/-- The text after a reader has taken `k` more. -/
def Typed.take (t : Typed) (k : ℕ) : Typed := { t with taken := t.taken + k }

theorem Holds.next (h : Holds s t) (hne : s.r ≠ s.w) :
    Holds { s with r := s.r + 1#32 } (t.take 1) ∧
      t.unread = s.buf (slot INPUT_BUF s.r) :: (t.take 1).unread := by
  obtain ⟨hord, hcommitted⟩ := Input.take_spec h.ordered hne
  rw [h.committed] at hcommitted
  have hlt : t.taken < t.text.length := by
    have := congrArg List.length hcommitted
    rw [Typed.unread, List.length_drop, List.length_cons] at this
    omega
  have htail : (t.take 1).unread = Input.committed { s with r := s.r + 1#32 } := by
    have := congrArg List.tail hcommitted
    rwa [Typed.unread, List.tail_drop, List.tail_cons] at this
  refine ⟨⟨hord, htail.symm, h.pending, h.line, hlt⟩, ?_⟩
  rw [hcommitted, htail]

/-- Why the loop stops, after `k` of the bytes that were not taken, with `m` left of `n`. -/
def LoopStop (unread : List UInt8) (target k m : ℕ) (bytes : List UInt8) : End → Prop
  | .sleep => k = unread.length
  | .killed => k = unread.length
  | .full => m = 0
  | .newline => bytes.getLast? = some newline
  | .eof taken => unread[k]? = some (C 'D') ∧ (taken = true ↔ target ≤ m)

/-- What the loop of `consoleread` does. -/
structure LoopOk (t : Typed) (target n m : ℕ) (bytes : List UInt8) (e : End) : Prop where
  left : n = m + bytes.length
  begins : bytes <+: t.unread
  noEof : C 'D' ∉ bytes
  noNewline : newline ∉ bytes.dropLast
  stop : LoopStop t.unread target bytes.length m bytes e

theorem LoopOk.nil {n : ℕ} (h : LoopStop t.unread target 0 n [] e) :
    LoopOk t target n n [] e :=
  ⟨rfl, List.nil_prefix, by simp, by simp, h⟩

theorem LoopStop.cons {unread : List UInt8} {m : ℕ}
    (h : LoopStop unread target bytes.length m bytes e) :
    LoopStop (c :: unread) target (c :: bytes).length m (c :: bytes) e := by
  cases e with
  | sleep => exact congrArg (· + 1) h
  | killed => exact congrArg (· + 1) h
  | full => exact h
  | newline =>
    have hlast : bytes.getLast? = some newline := h
    show (c :: bytes).getLast? = some newline
    rw [List.getLast?_cons, hlast]
    rfl
  | eof taken => exact h

/-- **The loop of `consoleread`** takes a part of the text. -/
theorem readLoop_spec {killed : Bool} {n m : ℕ} {s' : Input}
    (h : Holds s t) (hread : readLoop killed target n s = (bytes, e, m, s')) :
    Holds s' (t.take (bytes.length + if e = .eof true then 1 else 0)) ∧
      LoopOk t target n m bytes e := by
  induction n generalizing s t bytes with
  | zero =>
    cases hread
    exact ⟨h, .nil rfl⟩
  | succ n ih =>
    rw [readLoop] at hread
    by_cases hempty : s.r = s.w
    · -- Everything has been taken.
      have hnil : t.unread = [] := by
        rw [← h.committed, Input.committed_eq_nil hempty]
      rw [if_pos hempty] at hread
      cases hread
      cases killed with
      | true => exact ⟨h, .nil (by rw [hnil]; rfl)⟩
      | false => exact ⟨h, .nil (by rw [hnil]; rfl)⟩
    · rw [if_neg hempty] at hread
      obtain ⟨hnext, hunread⟩ := h.next hempty
      generalize s.buf (slot INPUT_BUF s.r) = c at *
      by_cases heof : c = C 'D'
      · rw [if_pos heof] at hread
        have hfirst : t.unread[0]? = some (C 'D') := by
          rw [hunread, heof]
          rfl
        by_cases hmore : n + 1 < target
        · -- The control-D stays for the next reader.
          rw [if_pos hmore, BitVec.add_sub_cancel] at hread
          cases hread
          exact ⟨h, .nil ⟨hfirst, by simp; omega⟩⟩
        · rw [if_neg hmore] at hread
          cases hread
          exact ⟨hnext, .nil ⟨hfirst, by simp; omega⟩⟩
      · rw [if_neg heof] at hread
        by_cases hline : c = newline
        · rw [if_pos hline] at hread
          cases hread
          refine ⟨hnext, rfl, ?_, by simp [Ne.symm heof], by simp, by simp [LoopStop, hline]⟩
          rw [hunread]
          exact ⟨_, rfl⟩
        · rw [if_neg hline] at hread
          obtain ⟨⟨bytes', e', m', s''⟩, hrec⟩ : ∃ x, readLoop killed target n
            { s with r := s.r + 1#32 } = x := ⟨_, rfl⟩
          rw [hrec] at hread
          simp only [Prod.mk.injEq] at hread
          obtain ⟨rfl, rfl, rfl, rfl⟩ := hread
          obtain ⟨hholds, hok⟩ := ih hnext hrec
          refine ⟨?_, ?_, ?_, ?_, ?_, ?_⟩
          · have hsum : (c :: bytes').length + (if e' = .eof true then 1 else 0) =
                1 + (bytes'.length + if e' = .eof true then 1 else 0) := by
              rw [List.length_cons]
              omega
            rw [hsum, Typed.take, ← Nat.add_assoc]
            exact hholds
          · have := hok.left
            rw [List.length_cons]
            omega
          · rw [hunread]
            exact List.prefix_cons_inj c |>.mpr hok.begins
          · simp [Ne.symm heof, hok.noEof]
          · cases bytes' with
            | nil => simp
            | cons d bytes' =>
              rw [List.dropLast_cons_cons, List.mem_cons, not_or]
              exact ⟨Ne.symm hline, hok.noNewline⟩
          · rw [hunread]
            exact hok.stop.cons

end Holds

/-! ### Runs -/

section Runs

variable {t : Typed} {s : System P} {es es₁ es₂ : List (Event P)}

omit [DecidableEq P] in
theorem typed_append : typed (es₁ ++ es₂) = es₂.foldl Typed.event (typed es₁) := List.foldl_append

variable {e : Event P} {p : P} {bytes : List UInt8}

omit [DecidableEq P] in
theorem typed_snoc : typed (es ++ [e]) = (typed es).event e := typed_append

omit [DecidableEq P] in
theorem delivered_append : delivered (es₁ ++ es₂) = delivered es₁ ++ delivered es₂ := by
  simp [delivered]

theorem reading_intr {cs : List UInt8} : reading p (es ++ [.intr cs]) = reading p es := by
  simp [reading]

theorem reading_call {q : P} {n : ℤ} :
    reading p (es ++ [.call q n]) = if q = p then some (n.toNat, []) else reading p es := by
  simp [reading]

theorem reading_read {q : P} {e : End} {r : Option ℤ} :
    reading p (es ++ [.read q bytes e r]) =
      if q = p then
        if e = .sleep then (reading p es).map fun y => (y.1, y.2 ++ bytes) else none
      else reading p es := by
  simp [reading]

/-- A key adds to the committed text, and takes nothing from it. -/
theorem key_text (t : Typed) (c : UInt8) :
    t.text <+: (t.key c).text ∧ (t.key c).taken = t.taken := by
  unfold Typed.key Typed.accept
  split_ifs
  all_goals exact ⟨by simp, rfl⟩

theorem keys_text (t : Typed) (cs : List UInt8) :
    t.text <+: (cs.foldl Typed.key t).text ∧ (cs.foldl Typed.key t).taken = t.taken := by
  induction cs generalizing t with
  | nil => exact ⟨List.prefix_refl _, rfl⟩
  | cons c cs ih =>
    obtain ⟨htext, htaken⟩ := key_text t c
    obtain ⟨htext', htaken'⟩ := ih (t.key c)
    exact ⟨htext.trans htext', htaken'.trans htaken⟩

omit [DecidableEq P] in
theorem event_text (t : Typed) (e : Event P) : t.text <+: (t.event e).text := by
  cases e with
  | intr cs => exact (keys_text t cs).1
  | call p n => exact List.prefix_refl _
  | read p bytes e r => exact List.prefix_refl _

omit [DecidableEq P] in
/-- Committed text is never altered. -/
theorem typed_text (es₁ es₂ : List (Event P)) : (typed es₁).text <+: (typed (es₁ ++ es₂)).text := by
  rw [typed_append]
  induction es₂ generalizing es₁ with
  | nil => exact List.prefix_refl _
  | cons e es₂ ih =>
    have hrest := ih (es₁ ++ [e])
    rw [typed_snoc] at hrest
    exact (event_text _ e).trans hrest

/-- The call of a reader is the one that the events say. -/
def Tracks : Option Reader → Option (ℕ × List UInt8) → Prop
  | none, none => True
  | some x, some y => x.target = y.1 ∧ x.n + y.2.length = x.target
  | _, _ => False

/-- **The invariant**, over what happened and the state. -/
structure Inv (es : List (Event P)) (s : System P) : Prop where
  holds : Holds s.input (typed es)
  reader : ∀ p, Tracks (s.reader p) (reading p es)
  delivered : delivered es = ((typed es).text.take (typed es).taken).filter fun b => b ≠ C 'D'
  reads : ∀ es₁ p bytes e r es₂, es = es₁ ++ .read p bytes e r :: es₂ →
    ∃ target got, reading p es₁ = some (target, got) ∧ ReadOk (typed es₁) target got bytes e r

theorem inv_boot : Inv [] (boot : System P) where
  holds := ⟨⟨le_rfl, by simp [boot]⟩, Input.committed_eq_nil rfl, Input.pending_eq_nil rfl,
    by simp [typed], le_rfl⟩
  reader _ := trivial
  delivered := rfl
  reads es₁ p bytes e r es₂ h := by simp at h

/-- What is taken and not a control-D is delivered. -/
theorem take_filter {d : ℕ} (hbytes : bytes <+: t.unread)
    (heof : C 'D' ∉ bytes) (hd : d = 0 ∨ d = 1 ∧ t.unread[bytes.length]? = some (C 'D')) :
    (t.text.take (t.taken + (bytes.length + d))).filter (fun b => b ≠ C 'D') =
      (t.text.take t.taken).filter (fun b => b ≠ C 'D') ++ bytes := by
  have hkeep : bytes.filter (fun b => b ≠ C 'D') = bytes := by
    rw [List.filter_eq_self]
    intro b hb
    have hne : b ≠ C 'D' := fun heq => heof (heq ▸ hb)
    simpa using hne
  have htake : t.unread.take bytes.length = bytes := List.prefix_iff_eq_take.mp hbytes |>.symm
  rw [List.take_add, List.filter_append]
  congr 1
  show (t.unread.take (bytes.length + d)).filter (fun b => b ≠ C 'D') = bytes
  rcases hd with rfl | ⟨rfl, hnext⟩
  · rw [Nat.add_zero, htake, hkeep]
  · rw [List.take_add_one, hnext, htake, List.filter_append, hkeep]
    simp

/-- What the loop does is what a reader may get. -/
theorem LoopOk.readOk {target n m : ℕ} {got : List UInt8} {e : End}
    (h : LoopOk t target n m bytes e) (hn : n + got.length = target) :
    ReadOk t target got bytes e (e.value target m) := by
  have hleft := h.left
  have hlen : (got ++ bytes).length = got.length + bytes.length := List.length_append
  have hvalue : (target : ℤ) - m = (got ++ bytes).length := by omega
  refine ⟨h.begins, h.noEof, h.noNewline, by omega, ?_⟩
  have hstop := h.stop
  cases e with
  | sleep => exact ⟨hstop, rfl⟩
  | killed => exact ⟨hstop, rfl⟩
  | full =>
    have hm : m = 0 := hstop
    exact ⟨by omega, by rw [hm]; simp [End.value]⟩
  | newline =>
    have hlast : bytes.getLast? = some newline := hstop
    refine ⟨?_, congrArg some hvalue⟩
    rw [List.getLast?_append, hlast]
    rfl
  | eof taken =>
    obtain ⟨hnext, htaken⟩ := hstop
    refine ⟨hnext, ?_, congrArg some hvalue⟩
    rw [htaken, ← List.length_eq_zero_iff]
    omega

/-- The reads so far, with one more event. -/
theorem reads_snoc (h : ∀ es₁ p bytes e r es₂, es = es₁ ++ .read p bytes e r :: es₂ →
      ∃ target got, reading p es₁ = some (target, got) ∧ ReadOk (typed es₁) target got bytes e r)
    (hlast : ∀ p bytes x r, e = .read p bytes x r →
      ∃ target got, reading p es = some (target, got) ∧ ReadOk (typed es) target got bytes x r)
    (es₁ : List (Event P)) (p : P) (bytes : List UInt8) (x : End) (r : Option ℤ)
    (es₂ : List (Event P)) (heq : es ++ [e] = es₁ ++ .read p bytes x r :: es₂) :
    ∃ target got, reading p es₁ = some (target, got) ∧ ReadOk (typed es₁) target got bytes x r := by
  rcases List.eq_nil_or_concat es₂ with rfl | ⟨es₃, y, rfl⟩
  · obtain ⟨rfl, he⟩ := List.append_inj' heq rfl
    exact hlast p bytes x r (List.cons.inj he).1
  · rw [List.concat_eq_append, ← List.cons_append, ← List.append_assoc] at heq
    obtain ⟨rfl, -⟩ := List.append_inj' heq rfl
    exact h es₁ p bytes x r es₃ rfl

/-- **Every step** keeps the invariant. -/
theorem Inv.step {s' : System P} (h : Inv es s) (hstep : Step s e s') :
    Inv (es ++ [e]) s' := by
  cases hstep with
  | @intr cs =>
    obtain ⟨⟨more, hmore⟩, htaken⟩ := keys_text (typed es) cs
    refine ⟨?_, fun p => ?_, ?_, reads_snoc h.reads nofun⟩
    · rw [typed_snoc]
      exact consoleintr_spec h.holds cs
    · rw [reading_intr]
      exact h.reader p
    · rw [delivered_append, h.delivered, typed_snoc]
      show _ ++ [] = ((cs.foldl Typed.key (typed es)).text.take
        (cs.foldl Typed.key (typed es)).taken).filter _
      rw [htaken, ← hmore, List.take_append_of_le_length h.holds.taken, List.append_nil]
  | @call p n hp =>
    refine ⟨?_, fun q => ?_, ?_, reads_snoc h.reads nofun⟩
    · rw [typed_snoc]
      exact h.holds
    · rw [reading_call]
      by_cases hq : p = q
      · subst hq
        rw [if_pos rfl]
        show Tracks (update s.reader p _ p) _
        rw [update_self]
        exact ⟨rfl, Nat.add_zero _⟩
      · rw [if_neg hq]
        show Tracks (update s.reader p _ q) _
        rw [update_of_ne (Ne.symm hq)]
        exact h.reader q
    · rw [delivered_append, h.delivered, typed_snoc]
      exact List.append_nil _
  | @read p x killed bytes e n input hp hread =>
    obtain ⟨hholds, hok⟩ := readLoop_spec h.holds hread
    obtain ⟨⟨target, got⟩, hgot⟩ : ∃ y, reading p es = some y := by
      have := h.reader p
      rw [hp] at this
      cases hy : reading p es with
      | none =>
        rw [hy] at this
        cases this
      | some y => exact ⟨y, rfl⟩
    have htracks := h.reader p
    rw [hp, hgot] at htracks
    obtain ⟨htarget, hn⟩ := htracks
    obtain rfl : x.target = target := htarget
    have hread' := hok.readOk hn
    refine ⟨?_, fun q => ?_, ?_, reads_snoc h.reads ?_⟩
    · rw [typed_snoc]
      show Holds input { typed es with
        taken := (typed es).taken + bytes.length + if e = .eof true then 1 else 0 }
      rw [Nat.add_assoc]
      exact hholds
    · rw [reading_read]
      by_cases hq : p = q
      · subst hq
        rw [if_pos rfl]
        show Tracks (update s.reader p _ p) _
        rw [update_self]
        split_ifs with hsleep
        · rw [hgot]
          refine ⟨rfl, ?_⟩
          have := hok.left
          show n + (got ++ bytes).length = x.target
          rw [List.length_append]
          have hn' : x.n + got.length = x.target := hn
          omega
        · trivial
      · rw [if_neg hq]
        show Tracks (update s.reader p _ q) _
        rw [update_of_ne (Ne.symm hq)]
        exact h.reader q
    · rw [delivered_append, h.delivered, typed_snoc]
      have hd : (if e = .eof true then 1 else 0) = 0 ∨ (if e = .eof true then 1 else 0) = 1 ∧
          (typed es).unread[bytes.length]? = some (C 'D') := by
        split_ifs with heof
        · right
          have hstop := hok.stop
          rw [heof] at hstop
          exact ⟨rfl, hstop.1⟩
        · exact .inl rfl
      have hfilter := take_filter hok.begins hok.noEof hd
      rw [← Nat.add_assoc] at hfilter
      show _ ++ (bytes ++ []) = _
      rw [List.append_nil]
      exact hfilter.symm
    · rintro p' bytes' e' r' heq
      cases heq
      exact ⟨_, got, hgot, hread'⟩

/-- **Console line editing is exact**, after every sequence of keys and reads: the indices are in
order, and the buffer holds the committed text that was not taken and the line; committed text is
never altered; what was delivered is the text that was taken, without the control-Ds; and every
reader gets what it may get. -/
theorem console_exact {s : System P} {es : List (Event P)} (hrun : Run Step boot es s) :
    s.input.Ordered ∧
      (s.input.committed = (typed es).unread ∧ s.input.pending = (typed es).line) ∧
      (∀ es₁ es₂, es = es₁ ++ es₂ → (typed es₁).text <+: (typed es).text) ∧
      delivered es = ((typed es).text.take (typed es).taken).filter (fun b => b ≠ C 'D') ∧
      ∀ es₁ p bytes e r es₂, es = es₁ ++ .read p bytes e r :: es₂ →
        ∃ target got, reading p es₁ = some (target, got) ∧
          ReadOk (typed es₁) target got bytes e r := by
  have h : Inv es s := hrun.invariant_history (fun _ _ _ _ h hstep => h.step hstep) inv_boot
  refine ⟨h.holds.ordered, ⟨h.holds.committed, h.holds.pending⟩, ?_, h.delivered, h.reads⟩
  rintro es₁ es₂ rfl
  exact typed_text es₁ es₂

/-- The buffer after the keys `a`, backspace, `b` and return. -/
def afterKeys : Input := (boot : System Unit).input.consoleintr [97, 8, 98, 13]

/-- The reader of these keys gets a line. -/
theorem console_exact_keys :
    ∃ s, Run Step (boot : System Unit)
        [.intr [97, 8, 98, 13], .call () 5, .read () [98, 10] .newline (some 2)] s ∧
      s.input.committed = [] := by
  have hread : readLoop false 5 5 afterKeys =
      ([98, 10], .newline, 3, (readLoop false 5 5 afterKeys).2.2.2) := rfl
  have hlast := Step.read (s := ⟨afterKeys, Function.update boot.reader () (some ⟨5, 5⟩)⟩) (p := ())
    (x := ⟨5, 5⟩) rfl hread
  have hkeys : Step (boot : System Unit) (.intr [97, 8, 98, 13]) ⟨afterKeys, boot.reader⟩ := .intr
  have hcall : Step ⟨afterKeys, (boot : System Unit).reader⟩ (.call () 5) _ := .call rfl
  have hrun := (Run.single hkeys).trans ((Run.single hcall).trans (Run.single hlast))
  exact ⟨_, hrun, (console_exact hrun).2.1.1⟩

end Runs

end Xv6.Console
