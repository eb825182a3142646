import CS450.Lib.Ring
import CS450.Proc.Sleep

/-!
# Pipes

`pipewrite`, `piperead` and `pipeclose` as code for the lock of a pipe, run by any number of
processes on any number of CPUs. The counters are 32 bits wide and wrap around; the buffer is
indexed by their remainders. The memory of a pipe whose ends are both closed is not used any more
and stays as it is here.

## Main results

* `pipes_are_fifos`: pipes are lossless
* `pipe_sleepers_wait`: who sleeps in a pipe function has a reason to, unless a writer gives up
  while readers sleep
* `reader_left_asleep`: a killed writer leaves a reader asleep that has bytes to read
-/

namespace Xv6

namespace Pipe

open Transition Sleep

abbrev PIPESIZE : ℕ := 512

instance : NeZero PIPESIZE := ⟨by decide⟩

end Pipe

open Pipe in
/-- `struct pipe`, apart from its lock. -/
structure Pipe where
  data : Fin PIPESIZE → UInt8
  nread : BitVec 32
  nwrite : BitVec 32
  readopen : Bool
  writeopen : Bool

namespace Pipe

open Ring (slot segment segment_cons segment_succ segment_update)

variable (p : Pipe)

/-- The fields that `pipealloc` sets; the data are what is in the page. -/
def alloc (data : Fin PIPESIZE → UInt8) : Pipe := ⟨data, 0, 0, true, true⟩

/-- `nwrite == nread + PIPESIZE` -/
def full : Bool := p.nwrite = p.nread + 512#32

/-- `nread == nwrite` -/
def empty : Bool := p.nread = p.nwrite

/-- `data[nwrite++ % PIPESIZE] = b` -/
def put (b : UInt8) : Pipe :=
  { p with data := Function.update p.data (slot PIPESIZE p.nwrite) b, nwrite := p.nwrite + 1#32 }

/-- `data[nread++ % PIPESIZE]` -/
def get : UInt8 × Pipe := (p.data (slot PIPESIZE p.nread), { p with nread := p.nread + 1#32 })

def close (writable : Bool) : Pipe :=
  if writable then { p with writeopen := false } else { p with readopen := false }

/-- The number of bytes in the buffer. -/
def count : ℕ := (p.nwrite - p.nread).toNat

/-- The bytes in the buffer, in the order in which they will be read. -/
def buffered : List UInt8 := segment p.data p.nread p.count

/-! ### The buffer -/

variable {p}

theorem nwrite_eq : p.nwrite = p.nread + BitVec.ofNat 32 p.count := by
  rw [count, BitVec.ofNat_toNat, BitVec.setWidth_eq]
  bv_omega

theorem empty_iff : p.empty = true ↔ p.count = 0 := by
  simp only [empty, decide_eq_true_eq, count]
  constructor
  · intro h
    simp [h]
  · intro h
    have : p.nwrite - p.nread = 0#32 := BitVec.eq_of_toNat_eq h
    bv_omega

theorem full_iff : p.full = true ↔ p.count = 512 := by
  simp only [full, decide_eq_true_eq, count]
  constructor
  · intro h
    simp [h]
  · intro h
    have : p.nwrite - p.nread = 512#32 := BitVec.eq_of_toNat_eq h
    bv_omega

/-- **Storing a byte** into a buffer that is not full. -/
theorem put_spec {b : UInt8} (hp : p.count ≤ 512) (hfull : p.full = false) :
    (p.put b).count = p.count + 1 ∧ (p.put b).buffered = p.buffered ++ [b] := by
  have hlt : p.count < 512 := by
    have : ¬ p.count = 512 := fun h => by rw [full_iff.mpr h] at hfull; cases hfull
    omega
  have hcount : (p.put b).count = p.count + 1 := by
    unfold count at hlt ⊢
    simp only [put]
    bv_omega
  refine ⟨hcount, ?_⟩
  -- The new byte is behind those in the buffer.
  show segment (Function.update p.data (slot PIPESIZE p.nwrite) b) p.nread (p.put b).count = _
  rw [hcount, segment_succ, nwrite_eq, segment_update (by decide) (le_refl _) hlt,
    Function.update_self]
  rfl

/-- **Taking a byte** out of a buffer that is not empty. -/
theorem get_spec (hp : p.count ≤ 512) (hempty : p.empty = false) :
    p.get.2.count + 1 = p.count ∧ p.buffered = p.get.1 :: p.get.2.buffered := by
  have hpos : 0 < p.count := by
    have : ¬ p.count = 0 := fun h => by rw [empty_iff.mpr h] at hempty; cases hempty
    omega
  have hcount : p.get.2.count + 1 = p.count := by
    unfold count at hpos hp ⊢
    simp only [get]
    bv_omega
  refine ⟨hcount, ?_⟩
  rw [buffered, ← hcount, segment_cons]
  rfl

theorem buffered_eq_nil (h : p.empty = true) : p.buffered = [] := by
  unfold buffered
  rw [empty_iff.mp h]
  rfl

end Pipe

namespace Pipe

open Transition Sleep

/-! ### The code -/

/-- What processes sleep on: `&p->nread` and `&p->nwrite`. -/
inductive PipeChan
  | nread
  | nwrite
  deriving DecidableEq

inductive PipeCall
  | write (src : List UInt8)
  | read (n : ℕ)
  | close (writable : Bool)
  deriving DecidableEq

/-- Where a process is in a pipe function, with the lock of the pipe. -/
inductive Point
  /-- the loop of `pipewrite`, with the bytes that are left -/
  | fill (src rest : List UInt8)
  /-- `pipewrite` is about to sleep -/
  | fillSleep (src rest : List UInt8)
  /-- the first loop of `piperead` -/
  | wait (n : ℕ)
  /-- `piperead` is about to sleep -/
  | waitSleep (n : ℕ)
  /-- the second loop of `piperead`, with the bytes that were copied -/
  | drain (n : ℕ) (got : List UInt8)
  | close (writable : Bool)
  /-- `pipeclose` is about to call `wakeup` -/
  | closed (writable : Bool)
  /-- the function returns `r` -/
  | done (call : PipeCall) (r : ℤ)
  deriving DecidableEq

/-- Where a call begins. -/
def PipeCall.entry : PipeCall → Point
  | .write src => .fill src src
  | .read n => .wait n
  | .close writable => .close writable

def code : Point → Bool → Pipe → Next Point Pipe PipeChan ℤ
  | .fill src [], _, _ => .wakeup .nread (.done (.write src) src.length)
  | .fill src (b :: rest), killed, p =>
    if p.full then
      if p.readopen = false ∨ killed then .go p (.done (.write src) (-1))
      else .wakeup .nread (.fillSleep src (b :: rest))
    else .go (p.put b) (.fill src rest)
  | .fillSleep src rest, _, _ => .sleep .nwrite (.fill src rest)
  | .wait n, killed, p =>
    if p.empty ∧ p.writeopen then
      if killed then .go p (.done (.read n) (-1)) else .go p (.waitSleep n)
    else .go p (.drain n [])
  | .waitSleep n, _, _ => .sleep .nread (.wait n)
  | .drain n got, _, p =>
    if got.length < n ∧ p.empty = false then .go p.get.2 (.drain n (got ++ [p.get.1]))
    else .wakeup .nwrite (.done (.read n) got.length)
  | .close writable, _, p => .go (p.close writable) (.closed writable)
  | .closed writable, _, _ =>
    .wakeup (if writable then .nread else .nwrite) (.done (.close writable) 0)
  | .done _ r, _, _ => .leave r

/-- `pipe.c`. -/
def pipe : Client Point Pipe PipeChan ℤ where
  entry k := ∃ c : PipeCall, k = c.entry
  code := code
  outside _ _ := False

/-! ### What a process knows with the lock -/

/-- What the process at a point has found out since it took the lock. -/
def Knows : Point → Pipe → Prop
  | .fillSleep _ _, p => p.full = true ∧ p.readopen = true
  | .waitSleep _, p => p.empty = true ∧ p.writeopen = true
  | .drain _ got, p => got = [] → ¬ (p.empty = true ∧ p.writeopen = true)
  | .done (.read n) r, p => 0 < n → r = 0 → p.empty = true ∧ p.writeopen = false
  | _, _ => True

theorem knows_entry (c : PipeCall) (p : Pipe) : Knows c.entry p := by
  cases c <;> trivial

/-- What is known after a step. -/
def KnowsNext (p : Pipe) : Next Point Pipe PipeChan ℤ → Prop
  | .go p' k' => Knows k' p'
  | .wakeup _ k' => Knows k' p
  | .sleep _ k' => ∀ p', Knows k' p'
  | .leave _ => True

variable {k : Point} {killed : Bool} {p d : Pipe} {dozing : Prop}

theorem knows_next (h : Knows k p) :
    KnowsNext p (code k killed p) := by
  cases k with
  | fill src rest =>
    cases rest with
    | nil => trivial
    | cons b rest =>
      rw [code]
      split_ifs with hfull hgive
      · trivial
      · exact ⟨hfull, by simpa using fun hopen => hgive (.inl hopen)⟩
      · trivial
  | fillSleep src rest => exact fun _ => trivial
  | wait n =>
    rw [code]
    split_ifs with hempty hkilled
    · exact fun _ hr => absurd hr (by decide)
    · exact hempty
    · exact fun _ => hempty
  | waitSleep n => exact fun _ => trivial
  | drain n got =>
    rw [code]
    split_ifs with hmore
    · exact fun hnil => absurd hnil (by simp)
    · -- Nothing was copied: the buffer is empty, and so the write end was closed.
      intro hn hzero
      have hgot : got = [] := List.length_eq_zero_iff.mp (by exact_mod_cast hzero)
      have hempty : p.empty = true := by
        by_contra hne
        exact hmore ⟨by rw [hgot]; exact hn, by simpa using hne⟩
      exact ⟨hempty, by simpa [hempty] using h hgot⟩
  | close writable => trivial
  | closed writable => trivial
  | done call r => trivial

/-! ### What is stored and copied -/

section Fifo

variable {P C : Type}

/-- The byte that a step of `pipewrite` stores. -/
def put? : Event P Point Pipe PipeChan ℤ → Option UInt8
  | .run _ (.fill _ (b :: _)) (.go _ (.fill _ _)) => some b
  | _ => none

/-- The byte that a step of `piperead` copies out. -/
def get? : Event P Point Pipe PipeChan ℤ → Option UInt8
  | .run _ (.drain _ _) (.go _ (.drain _ got)) => got.getLast?
  | _ => none

/-- The bytes that were stored, by all writers. -/
def stored (es : List (C × Event P Point Pipe PipeChan ℤ)) : List UInt8 :=
  es.filterMap fun e => put? e.2

/-- The bytes that were copied out, by all readers. -/
def copied (es : List (C × Event P Point Pipe PipeChan ℤ)) : List UInt8 :=
  es.filterMap fun e => get? e.2

/-- The bytes that the process `p` has stored in its last call. -/
def callBytes [DecidableEq P] (p : P) (es : List (C × Event P Point Pipe PipeChan ℤ)) :
    List UInt8 :=
  es.foldl (fun bytes e =>
    if e.2.proc? = some p then
      match e.2 with
      | .call _ _ => []
      | e => bytes ++ (put? e).toList
    else bytes) []

variable {s s' : State P C Point Pipe PipeChan}
  {es : List (C × Event P Point Pipe PipeChan ℤ)} {e : C × Event P Point Pipe PipeChan ℤ}

theorem stored_snoc : stored (es ++ [e]) = stored es ++ (put? e.2).toList := by
  rw [stored, List.filterMap_append]
  cases h : put? e.2 <;> simp [stored, h]

theorem copied_snoc : copied (es ++ [e]) = copied es ++ (get? e.2).toList := by
  rw [copied, List.filterMap_append]
  cases h : get? e.2 <;> simp [copied, h]

/-- **The buffer and the history**, kept by every step. -/
def Fifo (es : List (C × Event P Point Pipe PipeChan ℤ)) (p : Pipe) : Prop :=
  p.count ≤ 512 ∧ stored es = copied es ++ p.buffered

theorem buffered_congr {p' : Pipe} (hdata : p'.data = p.data) (hread : p'.nread = p.nread)
    (hwrite : p'.nwrite = p.nwrite) : p'.count = p.count ∧ p'.buffered = p.buffered := by
  have hcount : p'.count = p.count := by rw [count, count, hread, hwrite]
  refine ⟨hcount, ?_⟩
  rw [buffered, buffered, hcount, hdata, hread]

/-- Only an access to the data stores or copies a byte. -/
theorem put?_get?_eq_none {p : P} {n : Next Point Pipe PipeChan ℤ}
    (hn : ∀ d k', n ≠ .go d k') : put? (.run p k n) = none ∧ get? (.run p k n) = none := by
  cases n with
  | go d k' => exact absurd rfl (hn d k')
  | _ =>
    constructor
    · unfold put?
      split
      next heq => cases heq
      next => rfl
    · unfold get?
      split
      next heq => cases heq
      next => rfl

theorem fifo_same (h : Fifo es s.data) (hput : put? e.2 = none) (hget : get? e.2 = none)
    (hdata : d.data = s.data.data) (hread : d.nread = s.data.nread)
    (hwrite : d.nwrite = s.data.nwrite) : Fifo (es ++ [e]) d := by
  obtain ⟨hcount, hbuffered⟩ := buffered_congr hdata hread hwrite
  refine ⟨hcount ▸ h.1, ?_⟩
  rw [stored_snoc, copied_snoc, hput, hget, Option.toList_none, List.append_nil, List.append_nil,
    hbuffered]
  exact h.2

theorem fifo_go {c : C} {p : P} {k' : Point} (h : Fifo es s.data)
    (hcode : code k killed s.data = .go d k') : Fifo (es ++ [(c, .run p k (.go d k'))]) d := by
  cases k with
  | fill src rest =>
    cases rest with
    | nil => cases hcode
    | cons b rest =>
      rw [code] at hcode
      split_ifs at hcode with hfull hgive
      · cases hcode
        exact fifo_same h rfl rfl rfl rfl rfl
      · cases hcode
        obtain ⟨hcount, hbuffered⟩ := put_spec (b := b) h.1 (by simpa using hfull)
        have hne : ¬ s.data.count = 512 := fun heq => hfull (full_iff.mpr heq)
        refine ⟨by have := h.1; omega, ?_⟩
        rw [stored_snoc, copied_snoc, hbuffered, h.2]
        simp [put?, get?]
  | wait n =>
    rw [code] at hcode
    split_ifs at hcode with hempty hkilled
    all_goals
      cases hcode
      exact fifo_same h rfl rfl rfl rfl rfl
  | drain n got =>
    rw [code] at hcode
    split_ifs at hcode with hmore
    cases hcode
    obtain ⟨hcount, hbuffered⟩ := get_spec h.1 hmore.2
    refine ⟨by have := h.1; omega, ?_⟩
    rw [stored_snoc, copied_snoc, h.2, hbuffered]
    simp [put?, get?]
  | close writable =>
    cases hcode
    refine fifo_same h rfl rfl ?_ ?_ ?_ <;> cases writable <;> rfl
  | fillSleep src rest => cases hcode
  | waitSleep n => cases hcode
  | closed writable => cases hcode
  | done call r => cases hcode

variable [DecidableEq P] [DecidableEq C]

/-- **One step** keeps the order of the bytes. -/
theorem fifo_step (h : Fifo es s.data) (hstep : Step pipe s e s') : Fifo (es ++ [e]) s'.data := by
  cases hstep with
  | go hc hcode => exact fifo_go h hcode
  | callWakeup hc hcode =>
    exact fifo_same h (put?_get?_eq_none (by nofun)).1 (put?_get?_eq_none (by nofun)).2 rfl rfl rfl
  | callSleep hc hcode =>
    exact fifo_same h (put?_get?_eq_none (by nofun)).1 (put?_get?_eq_none (by nofun)).2 rfl rfl rfl
  | leave hc hcode =>
    exact fifo_same h (put?_get?_eq_none (by nofun)).1 (put?_get?_eq_none (by nofun)).2 rfl rfl rfl
  | outside hd => cases hd
  | _ => exact fifo_same h rfl rfl rfl rfl rfl

/-! ### What a call has stored -/

/-- What the bytes that a process has stored in its call have to do with where it is. -/
def Tracked (bytes : List UInt8) : Point → Prop
  | .fill src rest => src = bytes ++ rest
  | .fillSleep src rest => src = bytes ++ rest
  | .done (.write src) r => r ≠ -1 → bytes = src
  | _ => True

omit [DecidableEq C] in
theorem callBytes_snoc {p : P} : callBytes p (es ++ [e]) =
    if e.2.proc? = some p then
      match e.2 with
      | .call _ _ => []
      | e => callBytes p es ++ (put? e).toList
    else callBytes p es := by
  simp only [callBytes, List.foldl_append, List.foldl_cons, List.foldl_nil]

omit [DecidableEq P] [DecidableEq C] in
theorem tracked_code {p : P} {k' : Point} {bytes : List UInt8}
    (h : Tracked bytes k) (hk : (code k killed d).point = some k') :
    Tracked (bytes ++ (put? (.run p k (code k killed d))).toList) k' := by
  cases k with
  | fill src rest =>
    cases rest with
    | nil =>
      cases hk
      intro _
      simpa [put?, code] using h.symm
    | cons b rest =>
      rw [code] at hk ⊢
      split_ifs at hk ⊢ with hfull hgive
      · cases hk
        exact fun hr => absurd rfl hr
      · cases hk
        simpa [put?, Tracked] using h
      · cases hk
        simpa [put?, Tracked] using h
  | fillSleep src rest =>
    cases hk
    simpa [put?, code, Tracked] using h
  | wait n =>
    rw [code] at hk
    split_ifs at hk with hempty hkilled
    all_goals
      cases hk
      trivial
  | waitSleep n =>
    cases hk
    trivial
  | drain n got =>
    rw [code] at hk
    split_ifs at hk with hmore
    all_goals
      cases hk
      trivial
  | close writable =>
    cases hk
    trivial
  | closed writable =>
    cases hk
    trivial
  | done call r => cases hk

/-- Knowledge alone, without a condition that anybody waits for. -/
def quiet : Rules Point Pipe PipeChan := ⟨.nread, fun _ => False, fun _ => False, Knows⟩

omit [DecidableEq P] [DecidableEq C] in
theorem proper_quiet (h : Knows k p) :
    Proper quiet dozing k p (code k killed p) := by
  have hnext : KnowsNext p (code k killed p) := knows_next h
  cases hcode : code k killed p with
  | go p' k' =>
    rw [hcode] at hnext
    exact ⟨hnext, fun _ howes => howes.elim id And.left⟩
  | wakeup x k' =>
    rw [hcode] at hnext
    exact ⟨hnext, fun _ => False.elim⟩
  | sleep x k' =>
    rw [hcode] at hnext
    exact ⟨hnext, fun _ => id, fun _ => id⟩
  | leave r => exact fun _ => id

/-- What holds of a new pipe and after every step. -/
structure Track (es : List (C × Event P Point Pipe PipeChan ℤ))
    (s : State P C Point Pipe PipeChan) : Prop where
  inv : Inv quiet s
  fifo : Fifo es s.data
  tracked : ∀ p k, s.PointOf p k → Tracked (callBytes p es) k

theorem fair_pipe {W : Rules Point Pipe PipeChan} (h : W.knows = Knows) : Fair W pipe where
  entry := by
    rintro k ⟨c, rfl⟩ p
    rw [h]
    exact knows_entry c p
  outside _ _ hd := hd.elim
  knows _ _ _ hd := hd.elim

theorem Track.step (h : Track es s) (hstep : Step pipe s e s') : Track (es ++ [e]) s' where
  inv := by
    refine h.inv.step (fair_pipe rfl) hstep fun p k n he hknows => ?_
    rw [← hstep.code he]
    exact proper_quiet hknows
  fifo := fifo_step h.fifo hstep
  tracked p k hk := by
    rw [callBytes_snoc]
    rcases h.inv.pointOf_step hstep hk with ⟨he, c, rfl⟩ | ⟨k₀, n, he, hn, hk₀⟩ | ⟨hk, hne⟩
    · have hproc : e.2.proc? = some p := congrArg Event.proc? he
      rw [if_pos hproc, he]
      cases c <;> trivial
    · have hproc : e.2.proc? = some p := congrArg Event.proc? he
      have hcode := hstep.code he
      rw [if_pos hproc, he]
      subst hcode
      exact tracked_code (h.tracked p k₀ hk₀) hn
    · rw [if_neg hne]
      exact h.tracked p k hk

/-- **Pipes are lossless FIFOs**, in every run from a new pipe. -/
theorem pipes_are_fifos {data : Fin PIPESIZE → UInt8} (h₀ : Initial s) (hnew : s.data = alloc data)
    (hrun : Run (Step pipe) s es s') :
    (s'.data.nwrite - s'.data.nread).toNat ≤ PIPESIZE ∧
      stored es = copied es ++ s'.data.buffered ∧
      (∀ c p src, s'.cpu c = .proc p (.at (.done (.write src) src.length)) →
        callBytes p es = src) ∧
      ∀ c p n, 0 < n → s'.cpu c = .proc p (.at (.done (.read n) 0)) →
        s'.data.empty = true ∧ s'.data.writeopen = false := by
  have hstart : Track [] s := by
    refine ⟨h₀.inv, ?_, ?_⟩
    · rw [hnew]
      have hempty : (alloc data).empty = true := rfl
      refine ⟨?_, ?_⟩
      · rw [empty_iff.mp hempty]
        exact Nat.zero_le _
      · rw [buffered_eq_nil hempty]
        rfl
    · rintro p k (⟨c, pos, hc, -⟩ | ⟨x, hx⟩)
      · rw [h₀.cpu] at hc
        cases hc
      · cases h₀.parked p _ hx
  have h : Track es s' := hrun.invariant_history (fun _ _ _ _ h hstep => h.step hstep) hstart
  refine ⟨h.fifo.1, h.fifo.2, fun c p src hc => ?_, fun c p n hn hc => ?_⟩
  · exact h.tracked p _ (.inl ⟨c, _, hc, rfl⟩) (by omega)
  · have hknows := h.inv.knows c
    rw [hc] at hknows
    exact hknows hn rfl

end Fifo

/-! ### Schedules -/

instance : DecidablePred pipe.entry := fun k =>
  match k with
  | .fill src rest =>
    if h : rest = src then .isTrue ⟨.write src, by rw [h]; rfl⟩
    else .isFalse (by
      rintro ⟨c, hc⟩
      cases c <;> cases hc
      exact h rfl)
  | .wait n => .isTrue ⟨.read n, rfl⟩
  | .close writable => .isTrue ⟨.close writable, rfl⟩
  | .fillSleep _ _ => .isFalse (by rintro ⟨c, hc⟩; cases c <;> cases hc)
  | .waitSleep _ => .isFalse (by rintro ⟨c, hc⟩; cases c <;> cases hc)
  | .drain _ _ => .isFalse (by rintro ⟨c, hc⟩; cases c <;> cases hc)
  | .closed _ => .isFalse (by rintro ⟨c, hc⟩; cases c <;> cases hc)
  | .done _ _ => .isFalse (by rintro ⟨c, hc⟩; cases c <;> cases hc)

/-- A new pipe, three processes and two CPUs. -/
def boot : State (Fin 3) (Fin 2) Point Pipe PipeChan where
  data := alloc fun _ => 0
  lk := none
  ptable := none
  cpu _ := .scheduler false
  parked _ := some .yield
  state _ := .runnable
  chan _ := none
  killed _ := false

theorem initial_boot : Initial boot :=
  ⟨rfl, rfl, fun _ => rfl, fun _ _ h => (Option.some.inj h).symm⟩

/-- The CPU `c` runs the process `p`, which calls a pipe function. -/
def enter (c : Fin 2) (p : Fin 3) (call : PipeCall) :
    List (Fin 2 × Choice (Fin 3) Point PipeChan) :=
  [(c, .next), (c, .pick p), (c, .next), (c, .call call.entry), (c, .next)]

/-- The CPU `c` makes `n` steps. -/
def steps (c : Fin 2) (n : ℕ) : List (Fin 2 × Choice (Fin 3) Point PipeChan) :=
  List.replicate n (c, .next)

/-- The process `p` writes two bytes and reads one of them; it is about to return from the read. -/
def writeRead (c : Fin 2) (p : Fin 3) : List (Fin 2 × Choice (Fin 3) Point PipeChan) :=
  enter c p (.write [7, 8]) ++ steps c 7 ++ [(c, .call (.wait 1))] ++ steps c 7

/-- The process on a CPU, and where in the code of the lock it is. -/
def onCpu (s : State (Fin 3) (Fin 2) Point Pipe PipeChan) (c : Fin 2) : Option (Fin 3 × Point) :=
  match s.cpu c with
  | .proc p (.at k) => some (p, k)
  | _ => none

theorem cpu_of_onCpu {s : State (Fin 3) (Fin 2) Point Pipe PipeChan} {c : Fin 2} {p : Fin 3}
    (h : onCpu s c = some (p, k)) : s.cpu c = .proc p (.at k) := by
  unfold onCpu at h
  split at h
  next hc =>
    cases h
    exact hc
  next => cases h

theorem pipes_are_fifos_write_read : ∃ es s', Run (Step pipe) boot es s' ∧
    s'.cpu 0 = .proc 0 (.at (.done (.read 1) 1)) ∧ stored es = [7, 8] ∧ copied es = [7] ∧
    stored es = copied es ++ s'.data.buffered := by
  obtain ⟨es, s', hrun, hend⟩ := @exists_run_of_any _ _ _ _ _ _ _ _ _ pipe _ boot (writeRead 0 0)
    (fun r => decide (onCpu r.2 0 = some (0, .done (.read 1) 1) ∧ stored r.1 = [7, 8] ∧
      copied r.1 = [7])) (by decide +kernel)
  obtain ⟨hcpu, hstored, hcopied⟩ := of_decide_eq_true hend
  exact ⟨es, s', hrun, cpu_of_onCpu hcpu, hstored, hcopied,
    (pipes_are_fifos initial_boot rfl hrun).2.1⟩

/-! ### Who sleeps -/

section Sleepers

/-- What readers wait for, and where a `wakeup(&p->nread)` is to come. -/
def readers : Rules Point Pipe PipeChan where
  chan := .nread
  cond p := ¬ (p.empty = true ∧ p.writeopen = true)
  owes
    | .fill _ _ => True
    | .closed writable => writable = true
    | _ => False
  knows := Knows

/-- What writers wait for, and where a `wakeup(&p->nwrite)` is to come. -/
def writers : Rules Point Pipe PipeChan where
  chan := .nwrite
  cond p := ¬ (p.full = true ∧ p.readopen = true)
  owes
    | .drain _ _ => True
    | .closed writable => writable = false
    | _ => False
  knows := Knows

/-- The step in which a writer gives up on a full pipe. -/
def GivesUp (k : Point) : Next Point Pipe PipeChan ℤ → Prop
  | .go _ (.done _ _) => ∃ src rest, k = .fill src rest
  | _ => False

theorem proper_readers (h : Knows k p) (hgive : GivesUp k (code k killed p) → ¬ dozing) :
    Proper readers dozing k p (code k killed p) := by
  have hnext : KnowsNext p (code k killed p) := knows_next h
  revert hnext hgive
  cases k with
  | fill src rest =>
    cases rest with
    | nil => exact fun _ hnext => ⟨hnext, fun _ _ => .inl rfl⟩
    | cons b rest =>
      rw [code]
      split_ifs with hfull hhopeless
      · exact fun hgive hnext => ⟨hnext, fun hdoze => absurd hdoze (hgive ⟨_, _, rfl⟩)⟩
      · exact fun _ hnext => ⟨hnext, fun _ _ => .inl rfl⟩
      · exact fun _ hnext => ⟨hnext, fun _ _ => trivial⟩
  | fillSleep src rest => exact fun _ hnext => ⟨hnext, nofun, fun _ => id⟩
  | wait n =>
    rw [code]
    split_ifs with hempty hkilled
    all_goals exact fun _ hnext => ⟨hnext, fun _ howes => howes.elim id fun hc => hc.2 hc.1⟩
  | waitSleep n => exact fun _ hnext => ⟨hnext, fun _ hc => hc h, fun _ => id⟩
  | drain n got =>
    rw [code]
    split_ifs with hmore
    · refine fun _ hnext => ⟨hnext, fun _ howes => howes.elim id fun hc => hc.2 fun hempty => ?_⟩
      exact absurd (hempty.1.symm.trans hmore.2) nofun
    · exact fun _ hnext => ⟨hnext, fun _ => False.elim⟩
  | close writable =>
    refine fun _ hnext => ⟨hnext, fun _ howes => howes.elim False.elim fun hc => ?_⟩
    cases writable with
    | true => rfl
    | false => exact absurd hc.1 hc.2
  | closed writable =>
    refine fun _ hnext => ⟨hnext, fun _ howes => .inl ?_⟩
    have hw : writable = true := howes
    rw [hw]
    rfl
  | done call r => exact fun _ _ _ => id

theorem proper_writers (h : Knows k p) :
    Proper writers dozing k p (code k killed p) := by
  have hnext : KnowsNext p (code k killed p) := knows_next h
  revert hnext
  cases k with
  | fill src rest =>
    cases rest with
    | nil => exact fun hnext => ⟨hnext, fun _ => False.elim⟩
    | cons b rest =>
      rw [code]
      split_ifs with hfull hhopeless
      · exact fun hnext => ⟨hnext, fun _ howes => howes.elim id fun hc => hc.2 hc.1⟩
      · exact fun hnext => ⟨hnext, fun _ => False.elim⟩
      · exact fun hnext => ⟨hnext, fun _ howes => howes.elim id fun hc => hc.2 fun h => hfull h.1⟩
  | fillSleep src rest => exact fun hnext => ⟨hnext, fun _ hc => hc h, fun _ => id⟩
  | wait n =>
    rw [code]
    split_ifs with hempty hkilled
    · exact fun hnext => ⟨hnext, fun _ howes => howes.elim id fun hc => hc.2 hc.1⟩
    · exact fun hnext => ⟨hnext, fun _ howes => howes.elim id fun hc => hc.2 hc.1⟩
    · exact fun hnext => ⟨hnext, fun _ _ => trivial⟩
  | waitSleep n => exact fun hnext => ⟨hnext, nofun, fun _ => id⟩
  | drain n got =>
    rw [code]
    split_ifs with hmore
    · exact fun hnext => ⟨hnext, fun _ _ => trivial⟩
    · exact fun hnext => ⟨hnext, fun _ _ => .inl rfl⟩
  | close writable =>
    refine fun hnext => ⟨hnext, fun _ howes => howes.elim False.elim fun hc => ?_⟩
    cases writable with
    | true => exact absurd hc.1 hc.2
    | false => rfl
  | closed writable =>
    refine fun hnext => ⟨hnext, fun _ howes => .inl ?_⟩
    have hw : writable = false := howes
    rw [hw]
    rfl
  | done call r => exact fun _ _ => id

variable {P C : Type} [DecidableEq P] [DecidableEq C] {s s' : State P C Point Pipe PipeChan}
  {es : List (C × Event P Point Pipe PipeChan ℤ)}

/-- When a writer gives up, no reader is asleep. -/
def NoneAsleep (s : State P C Point Pipe PipeChan) (e : C × Event P Point Pipe PipeChan ℤ) : Prop :=
  ∀ p k n, e.2 = .run p k n → GivesUp k n → ∀ q, ¬ Dozing PipeChan.nread s q

/-- **Who sleeps in a pipe function waits**, in runs in which no writer gives up while a reader is
asleep. -/
theorem pipe_sleepers_wait (h₀ : Initial s) (hrun : Run (Guarded (Step pipe) NoneAsleep) s es s') :
    s'.lk = none → s'.ptable = none → ∀ p k, s'.state p = .sleeping →
      (s'.parked p = some (.sleep .nread k) →
        s'.data.nread = s'.data.nwrite ∧ s'.data.writeopen = true) ∧
      (s'.parked p = some (.sleep .nwrite k) →
        s'.data.nwrite = s'.data.nread + 512#32 ∧ s'.data.readopen = true) := by
  intro hlk _ p k hsleep
  have hread : Inv readers s' := by
    refine Inv.run (fair_pipe rfl) (fun t e p k n hguard he hcode hknows => ?_) hrun h₀.inv
    subst hcode
    refine proper_readers hknows fun hgive => ?_
    rintro ⟨q, hq⟩
    exact hguard p k _ he hgive q hq
  have hwrite : Inv writers s' := by
    refine Inv.run (fair_pipe rfl) (fun t e p k n hguard he hcode hknows => ?_) hrun h₀.inv
    subst hcode
    exact proper_writers hknows
  constructor
  · intro hp
    have := hread.not_cond hlk ⟨p, .inl ⟨k, hp, hsleep⟩⟩
    simpa [readers, empty] using this
  · intro hp
    have := hwrite.not_cond hlk ⟨p, .inl ⟨k, hp, hsleep⟩⟩
    simpa [writers, full] using this

end Sleepers

/-- The event is not that of a writer that gives up. -/
def goesOn : Event (Fin 3) Point Pipe PipeChan ℤ → Bool
  | .run _ (.fill _ _) (.go _ (.done _ _)) => false
  | _ => true

theorem noneAsleep_of_goesOn {e : Fin 2 × Event (Fin 3) Point Pipe PipeChan ℤ}
    (h : goesOn e.2 = true) (s : State (Fin 3) (Fin 2) Point Pipe PipeChan) : NoneAsleep s e := by
  rintro p k n he hgive
  rw [he] at h
  cases n with
  | go d k' =>
    cases k' with
    | done call r =>
      obtain ⟨src, rest, rfl⟩ := hgive
      cases h
    | _ => cases hgive
  | _ => cases hgive

/-- The process `p` reads from the empty pipe. -/
def readEmpty (c : Fin 2) (p : Fin 3) : List (Fin 2 × Choice (Fin 3) Point PipeChan) :=
  enter c p (.read 1) ++ steps c 6

theorem pipe_sleepers_wait_read_empty : ∃ es s', Run (Guarded (Step pipe) NoneAsleep) boot es s' ∧
    s'.lk = none ∧ s'.ptable = none ∧ s'.state 0 = .sleeping ∧
    s'.parked 0 = some (.sleep .nread (.wait 1)) ∧ s'.data.nread = s'.data.nwrite := by
  obtain ⟨es, s', hrun, hend⟩ := @exists_run_of_any _ _ _ _ _ _ _ _ _ pipe _ boot (readEmpty 0 0)
    (fun r => decide (r.2.lk = none ∧ r.2.ptable = none ∧ r.2.state 0 = .sleeping ∧
        r.2.parked 0 = some (.sleep .nread (.wait 1)) ∧
        (r.1.all fun e => goesOn e.2) = true)) (by decide +kernel)
  obtain ⟨hlk, hptable, hstate, hparked, hgoes⟩ := of_decide_eq_true hend
  have hrun : Run (Guarded (Step pipe) NoneAsleep) boot es s' :=
    hrun.guarded fun e he => noneAsleep_of_goesOn (List.all_eq_true.mp hgoes e he)
  exact ⟨es, s', hrun, hlk, hptable, hstate, hparked,
    ((pipe_sleepers_wait initial_boot hrun hlk hptable 0 _ hstate).1 hparked).1⟩

/-- The process `p` calls `pipewrite` with more bytes than fit. -/
def writeMore (c : Fin 2) (p : Fin 3) : List (Fin 2 × Choice (Fin 3) Point PipeChan) :=
  [(c, .pick p), (c, .next), (c, .call (PipeCall.write (List.replicate 513 0)).entry)]

/-- The process `q` kills the process `p`. -/
def killOne (c : Fin 2) (q p : Fin 3) : List (Fin 2 × Choice (Fin 3) Point PipeChan) :=
  [(c, .next), (c, .pick q), (c, .next), (c, .other (.kill p)), (c, .next), (c, .next), (c, .next)]

/-- The process `r` sleeps in a read; the process `w` writes, and is killed by `q` on its way. -/
def killedWriter (c c' : Fin 2) (r w q : Fin 3) : List (Fin 2 × Choice (Fin 3) Point PipeChan) :=
  enter c r (.read 1) ++ steps c 5 ++ writeMore c w ++ killOne c' q w ++ steps c 515

/-- **A reader is left asleep.** The killed writer has filled the buffer, and returns without
`wakeup(&p->nread)`. -/
theorem reader_left_asleep : ∃ es s', Run (Step pipe) boot es s' ∧ s'.lk = none ∧
    s'.ptable = none ∧ s'.state 0 = .sleeping ∧ s'.parked 0 = some (.sleep .nread (.wait 1)) ∧
    s'.data.nread ≠ s'.data.nwrite ∧ s'.data.readopen = true := by
  obtain ⟨es, s', hrun, hend⟩ := @exists_run_of_any _ _ _ _ _ _ _ _ _ pipe _ boot
    (killedWriter 0 1 0 1 2)
    (fun r => decide (r.2.lk = none ∧ r.2.ptable = none ∧ r.2.state 0 = .sleeping ∧
        r.2.parked 0 = some (.sleep .nread (.wait 1)) ∧ r.2.data.nread ≠ r.2.data.nwrite ∧
        r.2.data.readopen = true)) (by decide +kernel)
  exact ⟨es, s', hrun, of_decide_eq_true hend⟩

end Pipe

end Xv6
