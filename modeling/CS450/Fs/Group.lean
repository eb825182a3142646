import CS450.Lib.Run
import CS450.Fs.Log

/-!
# Group commit

`begin_op`, `log_write`, `end_op` and `commit` of any number of processes under all interleavings.
What the code does with `log.lock` held is one step. `log_write` makes its checks before it takes
the lock, so they are a step of their own, and `commit` runs without the lock, so every block it
copies, every header it writes and the store that empties the header in memory are steps of their
own.

A process that `begin_op` puts to sleep looks again once it was woken; it goes on when it finds
`committing` clear and enough room, and that is the step modelled. The caller of `log_write` holds
the buffer locked from before its update until after the call, so the update is counted with the
critical section that records it.

A history tells which updates belong to which operation, which were logged since the log was last
emptied, and which of them each written header committed.

## Main results

* `Handshake.step`: the invariant of the handshake between `outstanding` and `committing`
* `Ledger.step`: how the log agrees with the history of the run
* `group_commit_atomic`: a commit never meets an open operation, and splits none
-/

namespace Xv6.Log

open Function (update update_eq_self update_of_ne update_self)
open Transition

/-- Where a process is in `commit`, and after it in `end_op`. -/
inductive CommitPc
  /-- at the test `log.lh.n > 0` -/
  | start
  /-- in the loop of `write_log` -/
  | writeLog (tail : ℕ)
  /-- at the `write_head` that commits -/
  | writeHead
  /-- in the loop of `install_trans` -/
  | install (tail : ℕ)
  /-- at `log.lh.n = 0` -/
  | clear
  /-- at the `write_head` that erases the transaction -/
  | clearHead
  /-- back in `end_op`, before the critical section that ends the commit -/
  | leave
  deriving DecidableEq, Repr

/-- Where a process is. -/
inductive Pc
  /-- outside of an operation, or waiting in `begin_op` -/
  | idle
  /-- between `begin_op` and `end_op`; the blocks it has logged in this operation -/
  | inOp (logged : List ℕ)
  /-- in `log_write` of the block `b`, past the checks -/
  | logging (logged : List ℕ) (b : ℕ)
  /-- in `end_op`, as the process that commits -/
  | commit (c : CommitPc)
  deriving DecidableEq, Repr

/-- The process is between its `begin_op` and its `end_op`. -/
def Pc.InOp : Pc → Prop
  | .inOp _ => True
  | .logging _ _ => True
  | _ => False

instance : DecidablePred Pc.InOp := fun pc =>
  match pc with
  | .idle => isFalse id
  | .inOp _ => isTrue trivial
  | .logging _ _ => isTrue trivial
  | .commit _ => isFalse id

/-- The panics of `end_op` and `log_write`. -/
inductive GroupPanic
  /-- `panic("log.committing")` -/
  | committing
  /-- a panic of `log_write` -/
  | logWrite (p : Panic)
  deriving DecidableEq, Repr

structure Sys (P : Type) where
  outstanding : ℤ
  committing : Bool
  /-- `log.lh.block[0..n)` -/
  lh : List ℕ
  /-- what `bread` finds in the buffer cache -/
  cache : Disk
  /-- the home blocks on the disk -/
  home : Disk
  /-- the log blocks on the disk: the block `log.start + tail + 1` is `slot tail` -/
  slot : ℕ → Block
  /-- the log header on the disk -/
  head : List ℕ
  /-- the transactions that a written header has committed: the blocks and their contents -/
  commits : List (List (ℕ × Block))
  pc : P → Pc

/-- The log after `initlog`, with every process outside of an operation. -/
def Sys.init {P : Type} (d : Disk) (slot : ℕ → Block) : Sys P :=
  ⟨0, false, [], d, d, slot, [], [], fun _ => .idle⟩

/-- What a process does. -/
inductive Event (P : Type)
  /-- `begin_op` lets the process in -/
  | beginOp (p : P)
  /-- the checks of `log_write` -/
  | check (p : P) (b : ℕ)
  /-- the critical section of `log_write`, for a buffer whose contents the caller made `v` -/
  | record (p : P) (b : ℕ) (v : Block)
  /-- the first critical section of `end_op` -/
  | endOp (p : P)
  /-- a step of `commit`, or the last critical section of `end_op` -/
  | commit (p : P) (c : CommitPc)

section Model

variable {P : Type} [DecidableEq P]

namespace Sys

variable (s : Sys P)

def setPc (p : P) (pc : Pc) : Sys P := { s with pc := Function.update s.pc p pc }

/-- The condition on which `begin_op` lets a process in. -/
def CanBegin : Prop :=
  s.committing = false ∧ s.lh.length + (s.outstanding + 1) * MAXOPBLOCKS ≤ LOGSIZE

instance : Decidable s.CanBegin := inferInstanceAs (Decidable (_ ∧ _))

/-- The critical section of `log_write`, with the caller's update of the buffer. -/
def record (b : ℕ) (v : Block) : Sys P :=
  { s with
    lh := if b ∈ s.lh then s.lh else s.lh ++ [b]
    cache := Function.update s.cache b v }

/-- One round of `write_log`. -/
def copyToLog (tail : ℕ) : Sys P :=
  { s with slot := Function.update s.slot tail (s.cache (s.lh.getD tail 0)) }

/-- One round of `install_trans`. -/
def installBlock (tail : ℕ) : Sys P :=
  { s with
    cache := Function.update s.cache (s.lh.getD tail 0) (s.slot tail)
    home := Function.update s.home (s.lh.getD tail 0) (s.slot tail) }

/-- The `write_head` that commits. -/
def commitHead : Sys P :=
  { s with
    head := s.lh
    commits := s.commits ++ [s.lh.zipIdx.map fun bt => (bt.1, s.slot bt.2)] }

/-- One step of `commit` by the process `p`. -/
def commitStep (p : P) : CommitPc → Sys P
  | .start => s.setPc p (.commit (if 0 < s.lh.length then .writeLog 0 else .leave))
  | .writeLog tail =>
    if tail < s.lh.length then (s.copyToLog tail).setPc p (.commit (.writeLog (tail + 1)))
    else s.setPc p (.commit .writeHead)
  | .writeHead => s.commitHead.setPc p (.commit (.install 0))
  | .install tail =>
    if tail < s.lh.length then (s.installBlock tail).setPc p (.commit (.install (tail + 1)))
    else s.setPc p (.commit .clear)
  | .clear => { s.setPc p (.commit .clearHead) with lh := [] }
  | .clearHead => { s.setPc p (.commit .leave) with head := s.lh }
  | .leave => { s.setPc p .idle with committing := false }

end Sys

/-- What an event does in a log of `size` blocks; `none` where the process is elsewhere or has to
wait. -/
def next (size : ℕ) (s : Sys P) : Event P → Option (Except GroupPanic (Sys P))
  | .beginOp p =>
    match s.pc p with
    | .idle =>
      if s.CanBegin then some (.ok { s.setPc p (.inOp []) with outstanding := s.outstanding + 1 })
      else none
    | _ => none
  | .check p b =>
    match s.pc p with
    | .inOp bs =>
      if LOGSIZE ≤ s.lh.length ∨ (size : ℤ) - 1 ≤ s.lh.length then some (.error (.logWrite .tooBig))
      else if s.outstanding < 1 then some (.error (.logWrite .outsideOfTrans))
      else some (.ok (s.setPc p (.logging bs b)))
    | _ => none
  | .record p b v =>
    match s.pc p with
    | .logging bs b' =>
      if b = b' then some (.ok ((s.record b v).setPc p (.inOp (bs ++ [b])))) else none
    | _ => none
  | .endOp p =>
    match s.pc p with
    | .inOp _ =>
      if s.committing then some (.error .committing)
      else if s.outstanding - 1 = 0 then
        some (.ok { s.setPc p (.commit .start) with outstanding := 0, committing := true })
      else some (.ok { s.setPc p .idle with outstanding := s.outstanding - 1 })
    | _ => none
  | .commit p c =>
    match s.pc p with
    | .commit c' => if c = c' then some (.ok (s.commitStep p c)) else none
    | _ => none

/-- A step that does not panic. -/
def Step (size : ℕ) (s : Sys P) (e : Event P) (s' : Sys P) : Prop := next size s e = some (.ok s')

/-- What a step does, case by case, with what it has found. -/
inductive Does (s : Sys P) : Event P → Sys P → Prop
  | beginOp {p : P} (hpc : s.pc p = .idle) (h : s.CanBegin) :
      Does s (.beginOp p) { s.setPc p (.inOp []) with outstanding := s.outstanding + 1 }
  | check {p : P} {bs : List ℕ} {b : ℕ} (hpc : s.pc p = .inOp bs) :
      Does s (.check p b) (s.setPc p (.logging bs b))
  | record {p : P} {bs : List ℕ} {b : ℕ} {v : Block} (hpc : s.pc p = .logging bs b) :
      Does s (.record p b v) ((s.record b v).setPc p (.inOp (bs ++ [b])))
  | endOp {p : P} {bs : List ℕ} (hpc : s.pc p = .inOp bs) (hc : s.committing = false)
      (ho : s.outstanding - 1 ≠ 0) :
      Does s (.endOp p) { s.setPc p .idle with outstanding := s.outstanding - 1 }
  | endLast {p : P} {bs : List ℕ} (hpc : s.pc p = .inOp bs) (hc : s.committing = false)
      (ho : s.outstanding - 1 = 0) :
      Does s (.endOp p) { s.setPc p (.commit .start) with outstanding := 0, committing := true }
  | commit {p : P} {c : CommitPc} (hpc : s.pc p = .commit c) :
      Does s (.commit p c) (s.commitStep p c)

variable {e : Event P} {size : ℕ} {c : CommitPc}

theorem Step.does {s s' : Sys P} (h : Step size s e s') : Does s e s' := by
  unfold Step at h
  cases e with
  | beginOp p =>
    cases hpc : s.pc p <;> simp only [next, hpc, reduceCtorEq] at h
    split_ifs at h with hb
    cases h
    exact .beginOp hpc hb
  | check p b =>
    cases hpc : s.pc p <;> simp only [next, hpc, reduceCtorEq] at h
    split_ifs at h with hbig hout
    · cases h
    · cases h
    · cases h
      exact .check hpc
  | record p b v =>
    cases hpc : s.pc p <;> simp only [next, hpc, reduceCtorEq] at h
    split_ifs at h with hb
    cases h
    subst hb
    exact .record hpc
  | endOp p =>
    cases hpc : s.pc p <;> simp only [next, hpc, reduceCtorEq] at h
    split_ifs at h with hc ho
    · cases h
    · cases h
      exact .endLast hpc (by simpa using hc) ho
    · cases h
      exact .endOp hpc (by simpa using hc) ho
  | commit p c =>
    cases hpc : s.pc p <;> simp only [next, hpc, reduceCtorEq] at h
    split_ifs at h with hc
    cases h
    subst hc
    exact .commit hpc

/-! ### The handshake between `outstanding` and `committing` -/

/-- `S` are the processes between their `begin_op` and their `end_op`. -/
def Sys.Open (s : Sys P) (S : Finset P) : Prop := ∀ p, p ∈ S ↔ (s.pc p).InOp

/-- `outstanding` counts the open operations, there are none while a process commits, and at most
one process commits. -/
structure Handshake (s : Sys P) (S : Finset P) : Prop where
  mem : s.Open S
  outstanding_eq : s.outstanding = S.card
  closed : s.committing = true → S = ∅
  committing : ∀ p c, s.pc p = .commit c → s.committing = true
  unique : ∀ p q c c', s.pc p = .commit c → s.pc q = .commit c' → p = q

section Handshake

variable {s : Sys P} {S : Finset P} {p : P}

@[simp] theorem pc_setPc_self (s : Sys P) (p : P) (pc : Pc) : (s.setPc p pc).pc p = pc := by
  simp [Sys.setPc]

theorem pc_setPc_of_ne (s : Sys P) {p q : P} (pc : Pc) (h : q ≠ p) :
    (s.setPc p pc).pc q = s.pc q := by
  simp [Sys.setPc, h]

/-- A step of one process that neither opens nor closes an operation and neither starts nor ends a
commit. -/
theorem Handshake.setPc (h : Handshake s S) {pc : Pc} {s' : Sys P}
    (hpc' : s'.pc = update s.pc p pc) (hin : pc.InOp ↔ (s.pc p).InOp)
    (hcom : (∃ c, pc = .commit c) → ∃ c, s.pc p = .commit c)
    (ho : s'.outstanding = s.outstanding) (hc : s'.committing = s.committing) :
    Handshake s' S := by
  -- Every process that commits after the step commits before it.
  have hback : ∀ q c, s'.pc q = .commit c → ∃ c', s.pc q = .commit c' := by
    intro q c hq
    rw [hpc'] at hq
    by_cases hqp : q = p
    · subst hqp
      rw [update_self] at hq
      exact hcom ⟨c, hq⟩
    · rw [update_of_ne hqp] at hq
      exact ⟨c, hq⟩
  refine ⟨?_, by rw [ho, h.outstanding_eq], by rw [hc]; exact h.closed, ?_, ?_⟩
  · intro q
    rw [h.mem q, hpc']
    by_cases hqp : q = p
    · subst hqp
      rw [update_self]
      exact hin.symm
    · rw [update_of_ne hqp]
  · intro q c hq
    obtain ⟨c', hq'⟩ := hback q c hq
    rw [hc]
    exact h.committing q c' hq'
  · intro q r c c' hq hr
    obtain ⟨d, hq'⟩ := hback q c hq
    obtain ⟨d', hr'⟩ := hback r c' hr
    exact h.unique q r d d' hq' hr'

omit [DecidableEq P] in
theorem Handshake.not_mem_of_committing (h : Handshake s S) (hc : s.committing = true) (q : P) :
    ¬ (s.pc q).InOp := by
  rw [← h.mem q, h.closed hc]
  simp

omit [DecidableEq P] in
theorem Handshake.no_commit (h : Handshake s S) (hc : s.committing = false) (q : P) (c : CommitPc) :
    s.pc q ≠ .commit c := by
  intro hq
  rw [h.committing q c hq] at hc
  cases hc

/-- The steps inside `commit` leave the handshake alone. -/
theorem commitStep_frame (s : Sys P) (p : P) (hc : c ≠ .leave) :
    (∃ c', (s.commitStep p c).pc = update s.pc p (.commit c')) ∧
      (s.commitStep p c).outstanding = s.outstanding ∧
      (s.commitStep p c).committing = s.committing := by
  cases c with
  | start => exact ⟨⟨_, rfl⟩, rfl, rfl⟩
  | writeLog tail =>
    rw [Sys.commitStep]
    split_ifs
    · exact ⟨⟨_, rfl⟩, rfl, rfl⟩
    · exact ⟨⟨_, rfl⟩, rfl, rfl⟩
  | writeHead => exact ⟨⟨_, rfl⟩, rfl, rfl⟩
  | install tail =>
    rw [Sys.commitStep]
    split_ifs
    · exact ⟨⟨_, rfl⟩, rfl, rfl⟩
    · exact ⟨⟨_, rfl⟩, rfl, rfl⟩
  | clear => exact ⟨⟨_, rfl⟩, rfl, rfl⟩
  | clearHead => exact ⟨⟨_, rfl⟩, rfl, rfl⟩
  | leave => exact absurd rfl hc

theorem Handshake.step {s' : Sys P} (h : Handshake s S) (hs : Does s e s') :
    ∃ S', Handshake s' S' := by
  cases hs with
  | @beginOp p hpc hb =>
    -- The operation of `p` is opened; nobody commits.
    have hnot : p ∉ S := by
      rw [h.mem, hpc]
      exact id
    have hne : ∀ q c, q ≠ p → s.pc q ≠ .commit c := fun q c _ => h.no_commit hb.1 q c
    refine ⟨insert p S, ?_, ?_, ?_, ?_, ?_⟩
    · intro q
      by_cases hqp : q = p
      · subst hqp
        simp [Sys.setPc, Pc.InOp]
      · simp [Sys.setPc, hqp, h.mem q]
    · simp [h.outstanding_eq, Finset.card_insert_of_notMem hnot]
    · intro hc
      exact absurd (hb.1.symm.trans hc) (by simp)
    · intro q c hq
      by_cases hqp : q = p
      · subst hqp
        simp [Sys.setPc] at hq
      · exact absurd hq (by simpa [Sys.setPc, hqp] using hne q c hqp)
    · intro q r c c' hq
      by_cases hqp : q = p
      · subst hqp
        simp [Sys.setPc] at hq
      · exact absurd hq (by simpa [Sys.setPc, hqp] using hne q c hqp)
  | check hpc =>
    exact ⟨S, h.setPc rfl (by rw [hpc]; exact Iff.rfl) (by rintro ⟨c, ⟨⟩⟩) rfl rfl⟩
  | record hpc =>
    exact ⟨S, h.setPc rfl (by rw [hpc]; exact Iff.rfl) (by rintro ⟨c, ⟨⟩⟩) rfl rfl⟩
  | @endOp p bs hpc hc ho =>
    have hmem : p ∈ S := by
      rw [h.mem, hpc]
      exact trivial
    refine ⟨S.erase p, ?_, ?_, ?_, ?_, ?_⟩
    · intro q
      by_cases hqp : q = p
      · subst hqp
        simp [Sys.setPc, Pc.InOp]
      · simp [Sys.setPc, hqp, h.mem q]
    · have := Finset.card_erase_add_one hmem
      simp only [h.outstanding_eq]
      omega
    · intro hc'
      exact absurd (hc.symm.trans hc') (by simp)
    · intro q c hq
      by_cases hqp : q = p
      · subst hqp
        simp [Sys.setPc] at hq
      · exact absurd hq (by simpa [Sys.setPc, hqp] using h.no_commit hc q c)
    · intro q r c c' hq
      by_cases hqp : q = p
      · subst hqp
        simp [Sys.setPc] at hq
      · exact absurd hq (by simpa [Sys.setPc, hqp] using h.no_commit hc q c)
  | @endLast p bs hpc hc ho =>
    -- The only open operation ends, and its process becomes the one that commits.
    have hmem : p ∈ S := by
      rw [h.mem, hpc]
      exact trivial
    have hS : S = {p} := by
      have hcard : S.card = 1 := by
        have := h.outstanding_eq
        omega
      obtain ⟨q, rfl⟩ := Finset.card_eq_one.mp hcard
      rw [Finset.mem_singleton] at hmem
      rw [hmem]
    have hpc' : ∀ q c, q ≠ p → s.pc q ≠ .commit c := fun q c _ => h.no_commit hc q c
    refine ⟨∅, ?_, by simp, fun _ => rfl, fun _ _ _ => rfl, ?_⟩
    · intro q
      by_cases hqp : q = p
      · subst hqp
        simp [Sys.setPc, Pc.InOp]
      · have := h.mem q
        rw [hS, Finset.mem_singleton] at this
        simp [Sys.setPc, hqp, ← this]
    · intro q r c c' hq hr
      have hback : ∀ q c, (s.setPc p (.commit .start)).pc q = .commit c → q = p := by
        intro q c hq
        by_contra hqp
        exact hpc' q c hqp (by simpa [Sys.setPc, hqp] using hq)
      rw [hback q c hq, hback r c' hr]
  | @commit p c hpc =>
    by_cases hc : c = .leave
    · subst hc
      have hcom := h.committing p _ hpc
      have hnone : ∀ q c, (s.setPc p .idle).pc q ≠ .commit c := by
        intro q c hq
        by_cases hqp : q = p
        · subst hqp
          simp [Sys.setPc] at hq
        · rw [pc_setPc_of_ne _ _ hqp] at hq
          exact hqp (h.unique q p c _ hq hpc)
      refine ⟨∅, ?_, ?_, fun _ => rfl, ?_, ?_⟩
      · intro q
        by_cases hqp : q = p
        · subst hqp
          simp [Sys.commitStep, Sys.setPc, Pc.InOp]
        · simpa [Sys.commitStep, Sys.setPc, hqp] using h.not_mem_of_committing hcom q
      · rw [← h.closed hcom]
        exact h.outstanding_eq
      · intro q c hq
        exact absurd hq (hnone q c)
      · intro q r c c' hq
        exact absurd hq (hnone q c)
    · obtain ⟨⟨c', hpc'⟩, ho, hco⟩ := commitStep_frame s p hc
      refine ⟨S, h.setPc hpc' ?_ (fun _ => ⟨c, hpc⟩) ho hco⟩
      rw [hpc]
      exact Iff.rfl

omit [DecidableEq P] in
theorem handshake_init (d : Disk) (slot : ℕ → Block) : Handshake (Sys.init d slot : Sys P) ∅ := by
  refine ⟨?_, rfl, fun _ => rfl, ?_, ?_⟩
  · intro p
    simp [Sys.init, Pc.InOp]
  · intro p c hp
    simp [Sys.init] at hp
  · intro p q c c' hp
    simp [Sys.init] at hp

end Handshake

/-! ### Operations and transactions -/

/-- One `log_write`: its place among all of them, the operation it belongs to, the block and the
contents. An operation is a process and the number of its `begin_op`. -/
structure Update (P : Type) where
  seq : ℕ
  op : P × ℕ
  block : ℕ
  value : Block

/-- What a run has logged. -/
structure History (P : Type) where
  /-- how often each process has begun an operation -/
  ops : P → ℕ
  /-- all updates, in order -/
  all : List (Update P)
  /-- the updates since the header in memory was last emptied -/
  logged : List (Update P)
  /-- the updates that each written header has committed -/
  committed : List (List (Update P))

namespace History

def init : History P := ⟨fun _ => 0, [], [], []⟩

def after (h : History P) : Event P → History P
  | .beginOp p => { h with ops := Function.update h.ops p (h.ops p + 1) }
  | .check _ _ => h
  | .record p b v =>
    { h with
      all := h.all ++ [⟨h.all.length, (p, h.ops p), b, v⟩]
      logged := h.logged ++ [⟨h.all.length, (p, h.ops p), b, v⟩] }
  | .endOp _ => h
  | .commit _ c =>
    match c with
    | .writeHead => { h with committed := h.committed ++ [h.logged] }
    | .clear => { h with logged := [] }
    | _ => h

end History

/-- The history of a run. -/
def history (es : List (Event P)) : History P := es.foldl History.after .init

theorem history_snoc (es : List (Event P)) (e : Event P) :
    history (es ++ [e]) = (history es).after e := by
  simp [history]

section Transactions

variable {P : Type}

/-- The blocks of some updates, each where it first occurs. -/
def blocks (T : List (Update P)) : List ℕ :=
  T.foldl (fun bs u => if u.block ∈ bs then bs else bs ++ [u.block]) []

/-- The contents that the last of some updates gives the block `b`. -/
def lastValue (T : List (Update P)) (b : ℕ) : Block :=
  T.foldl (fun v u => if u.block = b then u.value else v) .zero

/-- What the updates of a transaction amount to. -/
def effect (T : List (Update P)) : List (ℕ × Block) := (blocks T).map fun b => (b, lastValue T b)

theorem blocks_snoc (T : List (Update P)) (u : Update P) :
    blocks (T ++ [u]) = if u.block ∈ blocks T then blocks T else blocks T ++ [u.block] := by
  rw [blocks, List.foldl_append]
  rfl

theorem lastValue_snoc (T : List (Update P)) (u : Update P) (b : ℕ) :
    lastValue (T ++ [u]) b = if u.block = b then u.value else lastValue T b := by
  rw [lastValue, List.foldl_append]
  rfl

theorem nodup_blocks (T : List (Update P)) : (blocks T).Nodup := by
  induction T using List.reverseRecOn with
  | nil => exact List.nodup_nil
  | append_singleton T u ih =>
    rw [blocks_snoc]
    split_ifs with hu
    · exact ih
    · exact List.nodup_append.mpr ⟨ih, List.nodup_singleton _, by
        rintro a ha b hb rfl
        exact hu (List.mem_singleton.mp hb ▸ ha)⟩

theorem mem_blocks (T : List (Update P)) (b : ℕ) : b ∈ blocks T ↔ ∃ u ∈ T, u.block = b := by
  induction T using List.reverseRecOn with
  | nil => simp [blocks]
  | append_singleton T u ih =>
    have hsnoc : b ∈ blocks (T ++ [u]) ↔ b ∈ blocks T ∨ u.block = b := by
      rw [blocks_snoc]
      split_ifs with hu
      · -- The block is there already.
        constructor
        · exact .inl
        · rintro (h | rfl)
          · exact h
          · exact hu
      · simp [eq_comm]
    rw [hsnoc, ih]
    constructor
    · rintro (⟨u', hu', he⟩ | he)
      · exact ⟨u', by simp [hu'], he⟩
      · exact ⟨u, by simp, he⟩
    · rintro ⟨u', hu', he⟩
      rcases List.mem_append.mp hu' with hu' | hu'
      · exact .inl ⟨u', hu', he⟩
      · exact .inr (List.mem_singleton.mp hu' ▸ he)

end Transactions

/-- The process has written the header of its transaction to the disk, and not yet emptied the one
in memory. -/
def Pc.Seals : Pc → Prop
  | .commit (.install _) => True
  | .commit .clear => True
  | _ => False

def Sys.Sealed (s : Sys P) : Prop := ∃ p, (s.pc p).Seals

/-- How far `commit` has come in copying the cache to the log. -/
def Copied (s : Sys P) : CommitPc → Prop
  | .start => True
  | .writeLog tail => ∀ i < tail, i < s.lh.length → s.slot i = s.cache (s.lh.getD i 0)
  | .writeHead => ∀ i < s.lh.length, s.slot i = s.cache (s.lh.getD i 0)
  | .install _ => ∀ i < s.lh.length, s.slot i = s.cache (s.lh.getD i 0)
  | .clear => True
  | .clearHead => s.lh = []
  | .leave => s.lh = []

/-- **The ledger.** How the log in memory and on disk agrees with the history of the run. -/
structure Ledger (h : History P) (s : Sys P) : Prop where
  lh_eq : s.lh = blocks h.logged
  cache_eq : ∀ b ∈ s.lh, s.cache b = lastValue h.logged b
  copied : ∀ p c, s.pc p = .commit c → Copied s c
  /-- every update is committed or logged -/
  all_of_sealed : s.Sealed → h.all = h.committed.flatten
  all_of_not_sealed : ¬ s.Sealed → h.all = h.committed.flatten ++ h.logged
  seq_eq : ∀ (i : ℕ) (u : Update P), h.all[i]? = some u → u.seq = i
  /-- the operations of the updates have begun, and those of committed ones have ended -/
  begun : ∀ u ∈ h.all, u.op.2 ≤ h.ops u.op.1
  ended : ∀ T ∈ h.committed, ∀ u ∈ T, (s.pc u.op.1).InOp → u.op.2 < h.ops u.op.1
  /-- a transaction has all updates of the operations it has any of -/
  whole : ∀ T ∈ h.committed, ∀ u ∈ T, ∀ u' ∈ h.all, u'.op = u.op → u' ∈ T
  commits_eq : s.commits = h.committed.map effect

section Ledger

variable {s s' : Sys P} {h : History P} {S : Finset P} {p : P} {pc : Pc}

theorem sealed_iff (hpc' : s'.pc = update s.pc p pc) (hs : pc.Seals ↔ (s.pc p).Seals) :
    s'.Sealed ↔ s.Sealed := by
  apply exists_congr
  intro q
  rw [hpc']
  by_cases hqp : q = p
  · subst hqp
    rw [update_self]
    exact hs
  · rw [update_of_ne hqp]

omit [DecidableEq P] in
/-- Only the process that commits can have sealed a transaction. -/
theorem Handshake.sealed_iff (hs : Handshake s S) (hpc : s.pc p = .commit c) :
    s.Sealed ↔ (Pc.commit c).Seals := by
  constructor
  · rintro ⟨q, hq⟩
    cases hqc : s.pc q with
    | idle => simp [hqc, Pc.Seals] at hq
    | inOp bs => simp [hqc, Pc.Seals] at hq
    | logging bs b => simp [hqc, Pc.Seals] at hq
    | commit c' =>
      obtain rfl := hs.unique q p c' c hqc hpc
      rwa [hpc] at hq
  · intro h
    exact ⟨p, by rwa [hpc]⟩

omit [DecidableEq P] in
theorem Handshake.not_sealed (hs : Handshake s S) (hc : s.committing = false) : ¬ s.Sealed := by
  rintro ⟨q, hq⟩
  cases hqc : s.pc q with
  | idle => simp [hqc, Pc.Seals] at hq
  | inOp bs => simp [hqc, Pc.Seals] at hq
  | logging bs b => simp [hqc, Pc.Seals] at hq
  | commit c => exact hs.no_commit hc q c hqc

omit [DecidableEq P] in
theorem Ledger.mem_all (hl : Ledger h s) {T : List (Update P)} (hT : T ∈ h.committed) {u : Update P}
    (hu : u ∈ T) : u ∈ h.all := by
  have hflat : u ∈ h.committed.flatten := List.mem_flatten.mpr ⟨T, hT, hu⟩
  by_cases hs : s.Sealed
  · rw [hl.all_of_sealed hs]
    exact hflat
  · rw [hl.all_of_not_sealed hs]
    exact List.mem_append_left _ hflat

omit [DecidableEq P] in
theorem Ledger.nodup_all (hl : Ledger h s) : h.all.Nodup := by
  rw [List.nodup_iff_injective_getElem]
  intro i j hij
  have hi := hl.seq_eq i _ (List.getElem?_eq_getElem i.isLt)
  have hj := hl.seq_eq j _ (List.getElem?_eq_getElem j.isLt)
  apply Fin.ext
  calc i.val = (h.all[i.val]).seq := hi.symm
    _ = (h.all[j.val]).seq := congrArg Update.seq hij
    _ = j.val := hj

/-- A step that leaves the log and the history alone, and opens no operation. -/
theorem Ledger.quiet (hl : Ledger h s) (p : P) (pc : Pc) (hpc' : s'.pc = update s.pc p pc)
    (hseal : pc.Seals ↔ (s.pc p).Seals) (hin : pc.InOp → (s.pc p).InOp)
    (hlh : s'.lh = s.lh) (hcache : s'.cache = s.cache) (hslot : s'.slot = s.slot)
    (hcommits : s'.commits = s.commits) (hcop : ∀ c, pc = .commit c → Copied s' c) :
    Ledger h s' := by
  have hiff := Log.sealed_iff hpc' hseal
  refine ⟨hlh.trans hl.lh_eq, ?_, ?_, fun hs => hl.all_of_sealed (hiff.mp hs),
    fun hs => hl.all_of_not_sealed fun h => hs (hiff.mpr h), hl.seq_eq, hl.begun, ?_, hl.whole,
    hcommits.trans hl.commits_eq⟩
  · rw [hlh, hcache]
    exact hl.cache_eq
  · intro q c hq
    rw [hpc'] at hq
    by_cases hqp : q = p
    · subst hqp
      rw [update_self] at hq
      exact hcop c hq
    · rw [update_of_ne hqp] at hq
      have := hl.copied q c hq
      cases c <;> simp only [Copied, hlh, hcache, hslot] at this ⊢ <;> exact this
  · intro T hT u hu hop
    apply hl.ended T hT u hu
    rw [hpc'] at hop
    by_cases hup : u.op.1 = p
    · rw [hup, update_self] at hop
      rw [hup]
      exact hin hop
    · rwa [update_of_ne hup] at hop

theorem Ledger.beginOp (hl : Ledger h s) (hpc : s.pc p = .idle) :
    Ledger (h.after (.beginOp p))
      { s.setPc p (.inOp []) with outstanding := s.outstanding + 1 } := by
  -- What is known of the operations of updates so far concerns older operations of `p`.
  have hle : ∀ q, h.ops q ≤ (h.after (.beginOp p)).ops q := by
    intro q
    by_cases hqp : q = p
    · subst hqp
      simp [History.after]
    · simp [History.after, hqp]
  have hiff : Sys.Sealed { s.setPc p (.inOp []) with outstanding := s.outstanding + 1 } ↔
      s.Sealed :=
    Log.sealed_iff rfl (by rw [hpc]; exact Iff.rfl)
  refine ⟨hl.lh_eq, hl.cache_eq, ?_, fun hs => hl.all_of_sealed (hiff.mp hs),
    fun hs => hl.all_of_not_sealed fun h => hs (hiff.mpr h), hl.seq_eq, ?_, ?_, hl.whole,
    hl.commits_eq⟩
  · intro q c hq
    have hqp : q ≠ p := by
      rintro rfl
      simp [Sys.setPc] at hq
    have hq' : s.pc q = .commit c := by simpa [Sys.setPc, hqp] using hq
    have := hl.copied q c hq'
    cases c <;> exact this
  · intro u hu
    exact (hl.begun u hu).trans (hle _)
  · intro T hT u hu hop
    by_cases hup : u.op.1 = p
    · have hbegun := hl.begun u (hl.mem_all hT hu)
      rw [hup] at hbegun ⊢
      simp only [History.after, update_self]
      omega
    · have hop' : (s.pc u.op.1).InOp := by simpa [Sys.setPc, hup] using hop
      exact (hl.ended T hT u hu hop').trans_le (hle _)

theorem Ledger.record (hl : Ledger h s) (hs : Handshake s S) {bs : List ℕ} {b : ℕ} {v : Block}
    (hpc : s.pc p = .logging bs b) :
    Ledger (h.after (.record p b v)) ((s.record b v).setPc p (.inOp (bs ++ [b]))) := by
  -- The operation is open, so no process is committing.
  have hopen : (s.pc p).InOp := by
    rw [hpc]
    exact trivial
  have hc : s.committing = false := by
    by_contra hc
    exact hs.not_mem_of_committing (by simpa using hc) p hopen
  have hnot := hs.not_sealed hc
  have hnot' : ¬ ((s.record b v).setPc p (.inOp (bs ++ [b]))).Sealed := by
    rw [Log.sealed_iff (s := s) (p := p) rfl (by rw [hpc]; exact Iff.rfl)]
    exact hnot
  have hall := hl.all_of_not_sealed hnot
  refine ⟨?_, ?_, ?_, fun h => absurd h hnot', ?_, ?_, ?_, ?_, ?_, hl.commits_eq⟩
  · show (if b ∈ s.lh then s.lh else s.lh ++ [b]) = _
    rw [History.after, blocks_snoc, ← hl.lh_eq]
  · intro b' hb'
    show update s.cache b v b' = lastValue (h.logged ++ [_]) b'
    rw [lastValue_snoc]
    by_cases he : b' = b
    · subst he
      simp
    · rw [update_of_ne he, if_neg (fun h => he h.symm)]
      apply hl.cache_eq
      have hb'' : b' ∈ (if b ∈ s.lh then s.lh else s.lh ++ [b]) := hb'
      split_ifs at hb'' with hmem
      · exact hb''
      · simpa [he] using hb''
  · intro q c hq
    by_cases hqp : q = p
    · subst hqp
      simp [Sys.setPc] at hq
    · exact absurd (by simpa [Sys.setPc, Sys.record, hqp] using hq) (hs.no_commit hc q c)
  · simp [History.after, hall, List.append_assoc]
  · intro i u hu
    simp only [History.after, List.getElem?_append] at hu
    split_ifs at hu with hi
    · exact hl.seq_eq i u hu
    · have hi' : i - h.all.length = 0 := by
        by_contra hne
        rw [List.getElem?_eq_none (by simp; omega)] at hu
        cases hu
      rw [hi'] at hu
      simp only [List.getElem?_cons_zero, Option.some.injEq] at hu
      subst hu
      show h.all.length = i
      omega
  · intro u hu
    simp only [History.after, List.mem_append, List.mem_singleton] at hu
    rcases hu with hu | rfl
    · exact hl.begun u hu
    · exact le_rfl
  · intro T hT u hu hop
    apply hl.ended T hT u hu
    by_cases hup : u.op.1 = p
    · rw [hup]
      exact hopen
    · simpa [Sys.setPc, Sys.record, hup] using hop
  · intro T hT u hu u' hu' hop
    simp only [History.after, List.mem_append, List.mem_singleton] at hu'
    rcases hu' with hu' | rfl
    · exact hl.whole T hT u hu u' hu' hop
    · -- The operations of committed updates have ended; that of `p` is open.
      have hu1 : u.op.1 = p := by rw [← hop]
      have hu2 : u.op.2 = h.ops p := by rw [← hop]
      have := hl.ended T hT u hu (by rw [hu1]; exact hopen)
      rw [hu1, hu2] at this
      omega

/-- The `write_head` that commits puts the updates since the last commit on the disk, each block
with its last contents. -/
theorem Ledger.writeHead (hl : Ledger h s) (hs : Handshake s S)
    (hpc : s.pc p = .commit .writeHead) :
    Ledger (h.after (.commit p .writeHead)) (s.commitHead.setPc p (.commit (.install 0))) := by
  have hcom := hs.committing p _ hpc
  have hnot : ¬ s.Sealed := by
    rw [hs.sealed_iff hpc]
    exact id
  have hseal : (s.commitHead.setPc p (.commit (.install 0))).Sealed :=
    ⟨p, by simp [Sys.setPc, Pc.Seals]⟩
  have hall := hl.all_of_not_sealed hnot
  have hnone : ∀ q, ¬ ((s.commitHead.setPc p (.commit (.install 0))).pc q).InOp := by
    intro q hq
    by_cases hqp : q = p
    · subst hqp
      simp [Sys.setPc, Pc.InOp] at hq
    · exact hs.not_mem_of_committing hcom q (by simpa [Sys.setPc, Sys.commitHead, hqp] using hq)
  have hslot := hl.copied p _ hpc
  refine ⟨hl.lh_eq, hl.cache_eq, ?_, ?_, fun h => absurd hseal h, hl.seq_eq, hl.begun, ?_, ?_, ?_⟩
  · intro q c hq
    by_cases hqp : q = p
    · subst hqp
      have hc : c = .install 0 := by simpa [Sys.setPc] using hq.symm
      subst hc
      exact hslot
    · have hq' : s.pc q = .commit c := by simpa [Sys.setPc, Sys.commitHead, hqp] using hq
      exact absurd (hs.unique q p c _ hq' hpc) hqp
  · simp [History.after, hall]
  · intro T _ u _ hop
    exact absurd hop (hnone _)
  · intro T hT u hu u' hu' hop
    have hu' : u' ∈ h.all := hu'
    rcases List.mem_append.mp hT with hT | hT
    · exact hl.whole T hT u hu u' hu' hop
    · obtain rfl := List.mem_singleton.mp hT
      rw [hall, List.mem_append, List.mem_flatten] at hu'
      rcases hu' with ⟨T', hT', hu'⟩ | hu'
      · -- An older transaction with an update of the operation would have had this one as well.
        have hin : u ∈ h.all := by
          rw [hall]
          exact List.mem_append_right _ hu
        have hu'' := hl.whole T' hT' u' hu' u hin hop.symm
        have hnd := hl.nodup_all
        rw [hall] at hnd
        have hdis := (List.nodup_append.mp hnd).2.2
        exact absurd rfl (hdis u (List.mem_flatten.mpr ⟨T', hT', hu''⟩) u hu)
      · exact hu'
  · show s.commits ++ [_] = (h.committed ++ [h.logged]).map effect
    rw [List.map_append, hl.commits_eq]
    congr 1
    rw [List.map_singleton, effect, ← hl.lh_eq]
    congr 1
    apply List.ext_getElem
    · simp
    · intro i hi hi'
      have hi : i < s.lh.length := by simpa using hi'
      have hmem : s.lh[i] ∈ s.lh := List.getElem_mem hi
      have hval := hslot i hi
      rw [List.getD_eq_getElem _ _ hi] at hval
      simp [hval, hl.cache_eq _ hmem]

theorem Ledger.install (hl : Ledger h s) {tail : ℕ}
    (hpc : s.pc p = .commit (.install tail)) (ht : tail < s.lh.length) :
    Ledger h ((s.installBlock tail).setPc p (.commit (.install (tail + 1)))) := by
  have hslot := hl.copied p _ hpc
  -- The buffer gets what it holds already.
  have hcache : update s.cache (s.lh.getD tail 0) (s.slot tail) = s.cache := by
    rw [hslot tail ht, update_eq_self]
  refine hl.quiet p (.commit (.install (tail + 1))) rfl (by rw [hpc]; exact Iff.rfl) False.elim rfl
    hcache rfl rfl ?_
  intro c hc
  cases hc
  intro i hi
  show s.slot i = update s.cache (s.lh.getD tail 0) (s.slot tail) (s.lh.getD i 0)
  rw [hcache]
  exact hslot i hi

theorem Ledger.clear (hl : Ledger h s) (hs : Handshake s S) (hpc : s.pc p = .commit .clear) :
    Ledger (h.after (.commit p .clear)) { s.setPc p (.commit .clearHead) with lh := [] } := by
  have hnot : ¬ Sys.Sealed { s.setPc p (.commit .clearHead) with lh := [] } := by
    rintro ⟨q, hq⟩
    by_cases hqp : q = p
    · subst hqp
      simp [Sys.setPc, Pc.Seals] at hq
    · cases hqc : s.pc q with
      | idle => simp [Sys.setPc, hqp, hqc, Pc.Seals] at hq
      | inOp bs => simp [Sys.setPc, hqp, hqc, Pc.Seals] at hq
      | logging bs b => simp [Sys.setPc, hqp, hqc, Pc.Seals] at hq
      | commit c => exact hqp (hs.unique q p c _ hqc hpc)
  refine ⟨rfl, by simp, ?_, fun h => absurd h hnot, ?_, hl.seq_eq, hl.begun, ?_, hl.whole,
    hl.commits_eq⟩
  · intro q c hq
    by_cases hqp : q = p
    · subst hqp
      have hc : c = .clearHead := by simpa [Sys.setPc] using hq.symm
      subst hc
      rfl
    · have hq' : s.pc q = .commit c := by simpa [Sys.setPc, hqp] using hq
      exact absurd (hs.unique q p c _ hq' hpc) hqp
  · intro _
    have hall := hl.all_of_sealed ⟨p, by rw [hpc]; exact trivial⟩
    simpa [History.after] using hall
  · intro T hT u hu hop
    apply hl.ended T hT u hu
    by_cases hup : u.op.1 = p
    · rw [hup] at hop
      simp [Sys.setPc, Pc.InOp] at hop
    · simpa [Sys.setPc, hup] using hop

theorem Ledger.commitStep (hl : Ledger h s) (hs : Handshake s S)
    (hpc : s.pc p = .commit c) : Ledger (h.after (.commit p c)) (s.commitStep p c) := by
  have hcop := hl.copied p c hpc
  cases c with
  | start =>
    refine hl.quiet p (.commit (if 0 < s.lh.length then .writeLog 0 else .leave)) rfl
      (by rw [hpc]; split_ifs <;> exact Iff.rfl) (fun h => absurd h id) rfl rfl rfl rfl ?_
    intro c hc
    by_cases hn : 0 < s.lh.length
    · rw [if_pos hn] at hc
      cases hc
      intro i hi
      exact absurd hi (Nat.not_lt_zero i)
    · rw [if_neg hn] at hc
      cases hc
      exact List.length_eq_zero_iff.mp (Nat.eq_zero_of_not_pos hn)
  | writeLog tail =>
    rw [Sys.commitStep]
    split_ifs with ht
    · -- The log block `tail` is written; the ones before it stay.
      have hcop' : Copied ((s.copyToLog tail).setPc p (.commit (.writeLog (tail + 1))))
          (.writeLog (tail + 1)) := by
        intro i hi hlen
        show update s.slot tail (s.cache (s.lh.getD tail 0)) i = s.cache (s.lh.getD i 0)
        by_cases hit : i = tail
        · rw [hit, update_self]
        · rw [update_of_ne hit]
          exact hcop i (by omega) hlen
      have hiff : ((s.copyToLog tail).setPc p (.commit (.writeLog (tail + 1)))).Sealed ↔ s.Sealed :=
        Log.sealed_iff rfl (by rw [hpc]; exact Iff.rfl)
      refine ⟨hl.lh_eq, hl.cache_eq, ?_, fun h => hl.all_of_sealed (hiff.mp h),
        fun h => hl.all_of_not_sealed fun h' => h (hiff.mpr h'), hl.seq_eq, hl.begun, ?_, hl.whole,
        hl.commits_eq⟩
      · intro q c hq
        by_cases hqp : q = p
        · subst hqp
          have hc : c = .writeLog (tail + 1) := by simpa [Sys.setPc] using hq.symm
          subst hc
          exact hcop'
        · have hq' : s.pc q = .commit c := by simpa [Sys.setPc, Sys.copyToLog, hqp] using hq
          exact absurd (hs.unique q p c _ hq' hpc) hqp
      · intro T hT u hu hop
        apply hl.ended T hT u hu
        by_cases hup : u.op.1 = p
        · rw [hup] at hop
          simp [Sys.setPc, Pc.InOp] at hop
        · simpa [Sys.setPc, Sys.copyToLog, hup] using hop
    · refine hl.quiet p (.commit .writeHead) rfl (by rw [hpc]; exact Iff.rfl) False.elim rfl rfl rfl
        rfl ?_
      intro c hc
      cases hc
      intro i hi
      have hi : i < s.lh.length := hi
      exact hcop i (by omega) hi
  | writeHead => exact hl.writeHead hs hpc
  | install tail =>
    rw [Sys.commitStep]
    split_ifs with ht
    · exact hl.install hpc ht
    · refine hl.quiet p (.commit .clear) rfl (by rw [hpc]; exact Iff.rfl) False.elim rfl rfl rfl
        rfl ?_
      intro c hc
      cases hc
      exact trivial
  | clear => exact hl.clear hs hpc
  | clearHead =>
    refine hl.quiet p (.commit .leave) rfl (by rw [hpc]; exact Iff.rfl) False.elim
      rfl rfl rfl rfl ?_
    intro c hc
    cases hc
    exact hcop
  | leave =>
    refine hl.quiet p .idle rfl (by rw [hpc]; exact Iff.rfl) False.elim rfl rfl rfl rfl ?_
    intro c hc
    cases hc

theorem Ledger.step (hl : Ledger h s) (hs : Handshake s S) (hd : Does s e s') :
    Ledger (h.after e) s' := by
  cases hd with
  | beginOp hpc hb => exact hl.beginOp hpc
  | @check p bs b hpc =>
    exact hl.quiet p (.logging bs b) rfl (by rw [hpc]; exact Iff.rfl)
      (fun _ => by rw [hpc]; exact trivial) rfl rfl rfl rfl (by rintro c ⟨⟩)
  | record hpc => exact hl.record hs hpc
  | @endOp p bs hpc hc ho =>
    exact hl.quiet p .idle rfl (by rw [hpc]; exact Iff.rfl) False.elim rfl rfl rfl rfl
      (by rintro c ⟨⟩)
  | @endLast p bs hpc hc ho =>
    refine hl.quiet p (.commit .start) rfl (by rw [hpc]; exact Iff.rfl) False.elim
      rfl rfl rfl rfl ?_
    intro c hc
    cases hc
    exact trivial
  | commit hpc => exact hl.commitStep hs hpc

omit [DecidableEq P] in
theorem ledger_init (d : Disk) (slot : ℕ → Block) :
    Ledger (History.init : History P) (Sys.init d slot) := by
  refine ⟨rfl, by simp [Sys.init], ?_, ?_, fun _ => rfl, by simp [History.init],
    by simp [History.init], by simp [History.init], by simp [History.init], rfl⟩
  · intro p c hp
    simp [Sys.init] at hp
  · intro _
    rfl

end Ledger

/-! ### Commits split no operation -/

/-- The panic that an event runs into. -/
def panicOf (size : ℕ) (s : Sys P) (e : Event P) : Option GroupPanic :=
  match next size s e with
  | some (.error p) => some p
  | _ => none

/-- When an event runs into which panic. -/
inductive Panics (size : ℕ) (s : Sys P) : Event P → GroupPanic → Prop
  | tooBig {p : P} {bs : List ℕ} {b : ℕ} (hpc : s.pc p = .inOp bs)
      (h : LOGSIZE ≤ s.lh.length ∨ (size : ℤ) - 1 ≤ s.lh.length) :
      Panics size s (.check p b) (.logWrite .tooBig)
  | outsideOfTrans {p : P} {bs : List ℕ} {b : ℕ} (hpc : s.pc p = .inOp bs)
      (h : s.outstanding < 1) : Panics size s (.check p b) (.logWrite .outsideOfTrans)
  | committing {p : P} {bs : List ℕ} (hpc : s.pc p = .inOp bs) (h : s.committing = true) :
      Panics size s (.endOp p) .committing

theorem panics_of_panicOf {s : Sys P} {a : GroupPanic}
    (h : panicOf size s e = some a) : Panics size s e a := by
  have hnext : next size s e = some (.error a) := by
    unfold panicOf at h
    split at h
    · cases h
      assumption
    · cases h
  cases e with
  | beginOp p =>
    cases hpc : s.pc p <;> simp only [next, hpc, reduceCtorEq] at hnext
    split_ifs at hnext
    cases hnext
  | check p b =>
    cases hpc : s.pc p <;> simp only [next, hpc, reduceCtorEq] at hnext
    split_ifs at hnext with hbig hout
    · cases hnext
      exact .tooBig hpc hbig
    · cases hnext
      exact .outsideOfTrans hpc hout
    · cases hnext
  | record p b v =>
    cases hpc : s.pc p <;> simp only [next, hpc, reduceCtorEq] at hnext
    split_ifs at hnext
    cases hnext
  | endOp p =>
    cases hpc : s.pc p <;> simp only [next, hpc, reduceCtorEq] at hnext
    split_ifs at hnext with hc ho
    · cases hnext
      exact .committing hpc hc
    · cases hnext
    · cases hnext
  | commit p c =>
    cases hpc : s.pc p <;> simp only [next, hpc, reduceCtorEq] at hnext
    split_ifs at hnext
    cases hnext

/-- The panics that the handshake excludes: a process that is in `log_write` or calls `end_op` has
an open operation. -/
theorem Handshake.panicOf_ne {s : Sys P} {S : Finset P} (hs : Handshake s S)
    (e : Event P) : panicOf size s e ≠ some .committing ∧
      panicOf size s e ≠ some (.logWrite .outsideOfTrans) := by
  constructor
  · intro h
    cases panics_of_panicOf h with
    | @committing p bs hpc hc =>
      apply hs.not_mem_of_committing hc p
      rw [hpc]
      exact trivial
  · intro h
    cases panics_of_panicOf h with
    | @outsideOfTrans p bs b hpc ho =>
      have hmem : p ∈ S := by
        rw [hs.mem, hpc]
        exact trivial
      have hpos := Finset.card_pos.mpr ⟨p, hmem⟩
      rw [hs.outstanding_eq] at ho
      omega

/-- The two invariants hold in every state of every run. -/
theorem handshake_ledger_of_run {d : Disk} {slot : ℕ → Block} {es : List (Event P)}
    {s : Sys P} (hrun : Run (Step size) (Sys.init d slot) es s) :
    (∃ S, Handshake s S) ∧ Ledger (history es) s := by
  refine hrun.invariant_history (J := fun es s => (∃ S, Handshake s S) ∧ Ledger (history es) s)
    ?_ ⟨⟨∅, handshake_init d slot⟩, ledger_init d slot⟩
  rintro es s e s' ⟨⟨S, hs⟩, hl⟩ hstep
  rw [history_snoc]
  exact ⟨hs.step hstep.does, hl.step hs hstep.does⟩

/-- **Group commit never splits an operation.** In every state of every run of any number of
processes: nothing is outstanding while a process commits, and no process is then between its
`begin_op` and its `end_op`, let alone in `log_write`; the panics about `committing` and
`outstanding` are out of reach; the header in memory has no duplicates and lists the blocks logged
since it was last emptied; and what each written header has put on the disk is the effect of a list
of updates that has, of each operation, all updates the run ever makes or none. -/
theorem group_commit_atomic (size : ℕ) (d : Disk) (slot : ℕ → Block) {es : List (Event P)}
    {s : Sys P} (hrun : Run (Step size) (Sys.init d slot) es s) :
    (s.committing = true → s.outstanding = 0) ∧
      (∀ p c, s.pc p = .commit c → ∀ q, ¬ (s.pc q).InOp) ∧
      (∀ e, panicOf size s e ≠ some .committing ∧
        panicOf size s e ≠ some (.logWrite .outsideOfTrans)) ∧
      s.lh.Nodup ∧ (∀ b, b ∈ s.lh ↔ ∃ u ∈ (history es).logged, u.block = b) ∧
      s.commits = (history es).committed.map effect ∧
      ∀ T ∈ (history es).committed, ∀ o,
        (∀ u ∈ (history es).all, u.op = o → u ∈ T) ∨ ∀ u ∈ T, u.op ≠ o := by
  obtain ⟨⟨S, hs⟩, hl⟩ := handshake_ledger_of_run hrun
  refine ⟨?_, ?_, hs.panicOf_ne, ?_, ?_, hl.commits_eq, ?_⟩
  · intro hc
    simp [hs.outstanding_eq, hs.closed hc]
  · intro p c hp
    exact hs.not_mem_of_committing (hs.committing p c hp)
  · rw [hl.lh_eq]
    exact nodup_blocks _
  · intro b
    rw [hl.lh_eq]
    exact mem_blocks _ b
  · intro T hT o
    by_cases ho : ∃ u ∈ T, u.op = o
    · obtain ⟨u, hu, rfl⟩ := ho
      exact .inl fun u' hu' hop => hl.whole T hT u hu u' hu' hop
    · exact .inr fun u hu hop => ho ⟨u, hu, hop⟩

/-- The state after some events, where each of them can happen without a panic and is allowed. -/
def replay (size : ℕ) (allowed : Sys P → Event P → Bool) : Sys P → List (Event P) → Option (Sys P)
  | s, [] => some s
  | s, e :: es =>
    match next size s e with
    | some (.ok s') => if allowed s e then replay size allowed s' es else none
    | _ => none

theorem run_of_replay {allowed : Sys P → Event P → Bool} {es : List (Event P)}
    {s s' : Sys P} (h : replay size allowed s es = some s') :
    Run (Guarded (Step size) fun s e => allowed s e = true) s es s' := by
  induction es generalizing s with
  | nil =>
    cases h
    exact .nil
  | cons e es ih =>
    rw [replay] at h
    split at h
    · next t ht =>
      split_ifs at h with ha
      exact (Run.single ⟨ht, ha⟩).trans (ih h)
    · cases h

end Model

/-- Two processes with overlapping operations that update a common block; the last one to end
commits both. -/
def twoOps : List (Event Bool) :=
  [.beginOp false, .check false 60, .record false 60 (fun _ => 1), .beginOp true, .check true 60,
    .check false 61, .record true 60 (fun _ => 2), .record false 61 (fun _ => 3), .endOp false,
    .endOp true, .commit true .start, .commit true (.writeLog 0), .commit true (.writeLog 1),
    .commit true (.writeLog 2), .commit true .writeHead]

theorem group_commit_atomic_two_ops :
    ∃ s, Run (Step LOGSIZE) (Sys.init (fun _ => .zero) (fun _ => .zero)) twoOps s ∧
      ∀ T ∈ (history twoOps).committed, ∀ o,
        (∀ u ∈ (history twoOps).all, u.op = o → u ∈ T) ∨ ∀ u ∈ T, u.op ≠ o := by
  have hsome : (replay LOGSIZE (fun _ _ => true) (Sys.init (fun _ => .zero) fun _ => .zero)
      twoOps).isSome = true := by decide +kernel
  obtain ⟨s, hs⟩ := Option.isSome_iff_exists.mp hsome
  have hrun : Run (Step LOGSIZE) (Sys.init (fun _ => .zero) fun _ => .zero) twoOps s :=
    (run_of_replay hs).mono fun _ _ _ h => h.1
  exact ⟨s, hrun, (group_commit_atomic LOGSIZE _ _ hrun).2.2.2.2.2.2⟩

end Xv6.Log
