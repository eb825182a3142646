import CS450.Fs.Group

/-!
# The reservation of log space

`begin_op` lets an operation in when the blocks logged so far and `MAXOPBLOCKS` blocks for each
operation fit into `LOGSIZE`. `log_write` refuses a block when `log.size - 1` are logged, since one
block of the log is the header, and it does so before it looks whether the block is logged already.
On the file system that `mkfs` builds `log.size` is `LOGSIZE`, so the two do not fit together: three
operations of ten blocks are let in at once and the thirtieth block makes the kernel panic.

With two blocks less to reserve from, one for the header and one for a block that is logged again,
the panic is out of reach. The argument charges every block of the header to the operation that
added it.

## Main results

* `Room.step`: no step takes room that was not reserved
* `reservation_suffices`: a run with enough room reserved never finds the transaction too big
* `too_big_reached`: the run that does, with the reservation as it is
-/

namespace Xv6.Log

open Transition

section Model

variable {P : Type} [DecidableEq P]

/-- The number of log blocks that `mkfs` writes into the superblock. -/
abbrev nlog : ℕ := LOGSIZE

/-- The blocks that the process has logged in its operation. -/
def Pc.logged : Pc → List ℕ
  | .inOp bs => bs
  | .logging bs _ => bs
  | _ => []

/-- The operation logs at most `MAXOPBLOCKS` distinct blocks, with this event included. -/
def WithinOp (s : Sys P) : Event P → Prop
  | .check p b => (b :: (s.pc p).logged).toFinset.card ≤ MAXOPBLOCKS
  | _ => True

instance (s : Sys P) : DecidablePred (WithinOp s) := fun e =>
  match e with
  | .check _ _ => inferInstanceAs (Decidable (_ ≤ _))
  | .beginOp _ => isTrue trivial
  | .record _ _ _ => isTrue trivial
  | .endOp _ => isTrue trivial
  | .commit _ _ => isTrue trivial

/-- `begin_op` lets an operation in only where two blocks less than the size of the log can take
what is logged and what all outstanding operations may still log. -/
def ReservesRoom (size : ℕ) (s : Sys P) : Event P → Prop
  | .beginOp _ => s.lh.length + (s.outstanding + 1) * MAXOPBLOCKS ≤ (size : ℤ) - 2
  | _ => True

instance (size : ℕ) (s : Sys P) : DecidablePred (ReservesRoom size s) := fun e =>
  match e with
  | .beginOp _ => inferInstanceAs (Decidable (_ ≤ _))
  | .check _ _ => isTrue trivial
  | .record _ _ _ => isTrue trivial
  | .endOp _ => isTrue trivial
  | .commit _ _ => isTrue trivial

/-- How many blocks the operation of the process may still add to the log. -/
def Pc.room (pc : Pc) : ℕ := MAXOPBLOCKS - pc.logged.toFinset.card

/-- There is room for all that the open operations may still log, what they have logged is in the
header, and none is about to log more than it may. -/
structure Room (size : ℕ) (s : Sys P) (S : Finset P) : Prop where
  le : s.lh.length + ∑ p ∈ S, (s.pc p).room + 2 ≤ size
  mem_lh : ∀ p, ∀ b ∈ (s.pc p).logged, b ∈ s.lh
  within : ∀ p bs b, s.pc p = .logging bs b → (b :: bs).toFinset.card ≤ MAXOPBLOCKS

section Room

variable {s s' : Sys P} {S S' : Finset P} {p : P} {size : ℕ}

omit [DecidableEq P] in
theorem Sys.Open.unique (h : s.Open S) (h' : s.Open S') : S = S' := by
  ext p
  rw [h p, h' p]

/-- A step of one process that opens or closes no operation and adds nothing to the log. -/
theorem Room.quiet (hr : Room size s S) {pc : Pc} (hpc' : s'.pc = Function.update s.pc p pc)
    (hlh : s'.lh = s.lh) (hlog : pc.logged = (s.pc p).logged)
    (hwithin : ∀ bs b, pc = .logging bs b → (b :: bs).toFinset.card ≤ MAXOPBLOCKS) :
    Room size s' S := by
  have hsame : ∀ q, (s'.pc q).logged = (s.pc q).logged := by
    intro q
    rw [hpc']
    by_cases hqp : q = p
    · subst hqp
      rw [Function.update_self, hlog]
    · rw [Function.update_of_ne hqp]
  refine ⟨?_, ?_, ?_⟩
  · simpa only [Pc.room, hsame, hlh] using hr.le
  · intro q b hb
    rw [hsame] at hb
    rw [hlh]
    exact hr.mem_lh q b hb
  · intro q bs b hq
    rw [hpc'] at hq
    by_cases hqp : q = p
    · subst hqp
      rw [Function.update_self] at hq
      exact hwithin bs b hq
    · rw [Function.update_of_ne hqp] at hq
      exact hr.within q bs b hq

/-- What is recorded is charged to the operation that records it. -/
theorem Room.record (hr : Room size s S) (hmem : p ∈ S) {bs : List ℕ} {b : ℕ} {v : Block}
    (hpc : s.pc p = .logging bs b) :
    Room size ((s.record b v).setPc p (.inOp (bs ++ [b]))) S := by
  have hof : ∀ q, q ≠ p → ((s.record b v).setPc p (.inOp (bs ++ [b]))).pc q = s.pc q :=
    fun q hq => pc_setPc_of_ne _ _ hq
  have hsub : ∀ b' ∈ s.lh, b' ∈ (s.record b v).lh := by
    intro b' hb'
    simp only [Sys.record]
    split_ifs
    · exact hb'
    · exact List.mem_append_left _ hb'
  have hbs : ∀ b' ∈ bs, b' ∈ s.lh := fun b' hb' => hr.mem_lh p b' (by rw [hpc]; exact hb')
  have hwithin := hr.within p bs b hpc
  have hset : (bs ++ [b]).toFinset = insert b bs.toFinset := by
    ext x
    simp
  have hcard := Finset.card_insert_le b bs.toFinset
  refine ⟨?_, ?_, ?_⟩
  · have hsum := Finset.add_sum_erase S (fun q => (s.pc q).room) hmem
    have hsum' := Finset.add_sum_erase S
      (fun q => (((s.record b v).setPc p (.inOp (bs ++ [b]))).pc q).room) hmem
    have hrest : ∑ q ∈ S.erase p, (((s.record b v).setPc p (.inOp (bs ++ [b]))).pc q).room =
        ∑ q ∈ S.erase p, (s.pc q).room :=
      Finset.sum_congr rfl fun q hq => by rw [hof q (Finset.ne_of_mem_erase hq)]
    have hroom : (s.pc p).room = MAXOPBLOCKS - bs.toFinset.card := by rw [hpc]; rfl
    have hroom' : (((s.record b v).setPc p (.inOp (bs ++ [b]))).pc p).room =
        MAXOPBLOCKS - (insert b bs.toFinset).card := by
      rw [pc_setPc_self, ← hset]
      rfl
    have hle := hr.le
    have hins : (insert b bs.toFinset).card ≤ MAXOPBLOCKS := by
      rw [List.toFinset_cons] at hwithin
      exact hwithin
    have hlen : (s.record b v).lh.length + (MAXOPBLOCKS - (insert b bs.toFinset).card) ≤
        s.lh.length + (MAXOPBLOCKS - bs.toFinset.card) := by
      by_cases hb : b ∈ s.lh
      · simp only [Sys.record, if_pos hb]
        have := Finset.card_le_card (Finset.subset_insert b bs.toFinset)
        omega
      · -- A block that is new in the log is new in the operation.
        have hnew : b ∉ bs.toFinset := fun h => hb (hbs b (List.mem_toFinset.mp h))
        rw [Finset.card_insert_of_notMem hnew] at hins ⊢
        simp only [Sys.record, if_neg hb, List.length_append, List.length_singleton]
        omega
    show (s.record b v).lh.length + _ + 2 ≤ size
    omega
  · intro q b' hb'
    by_cases hqp : q = p
    · subst hqp
      rw [pc_setPc_self] at hb'
      rcases List.mem_append.mp hb' with hb' | hb'
      · exact hsub b' (hbs b' hb')
      · obtain rfl := List.mem_singleton.mp hb'
        simp only [Sys.setPc, Sys.record]
        split_ifs with h
        · exact h
        · simp
    · rw [hof q hqp] at hb'
      exact hsub b' (hr.mem_lh q b' hb')
  · intro q bs' b' hq
    by_cases hqp : q = p
    · subst hqp
      rw [pc_setPc_self] at hq
      cases hq
    · rw [hof q hqp] at hq
      exact hr.within q bs' b' hq

theorem Room.beginOp (hr : Room size s S) (hs : Handshake s S) (hpc : s.pc p = .idle)
    (hres : s.lh.length + (s.outstanding + 1) * MAXOPBLOCKS ≤ (size : ℤ) - 2) :
    Room size { s.setPc p (.inOp []) with outstanding := s.outstanding + 1 } (insert p S) := by
  have hnot : p ∉ S := by
    rw [hs.mem, hpc]
    exact id
  have hof : ∀ q, q ≠ p → (s.setPc p (.inOp [])).pc q = s.pc q := fun q hq => pc_setPc_of_ne _ _ hq
  refine ⟨?_, ?_, ?_⟩
  · have hrest : ∑ q ∈ S, ((s.setPc p (.inOp [])).pc q).room = ∑ q ∈ S, (s.pc q).room :=
      Finset.sum_congr rfl fun q hq => by rw [hof q (fun h => hnot (h ▸ hq))]
    have hbound : ∑ q ∈ S, (s.pc q).room ≤ S.card * MAXOPBLOCKS :=
      Finset.sum_le_card_nsmul S _ MAXOPBLOCKS fun q _ => Nat.sub_le _ _
    rw [hs.outstanding_eq] at hres
    show s.lh.length + ∑ q ∈ insert p S, ((s.setPc p (.inOp [])).pc q).room + 2 ≤ size
    rw [Finset.sum_insert hnot, hrest, pc_setPc_self]
    have hroom : (Pc.inOp []).room = 10 := rfl
    have hmax : ((MAXOPBLOCKS : ℕ) : ℤ) = 10 := rfl
    have hbound : ∑ q ∈ S, (s.pc q).room ≤ S.card * 10 := hbound
    rw [hmax] at hres
    omega
  · intro q b hb
    by_cases hqp : q = p
    · subst hqp
      exact absurd hb (by simp [Sys.setPc, Pc.logged])
    · exact hr.mem_lh q b (by rwa [← hof q hqp])
  · intro q bs b hq
    by_cases hqp : q = p
    · subst hqp
      exact absurd hq (by simp [Sys.setPc])
    · exact hr.within q bs b (by rwa [← hof q hqp])

/-- An operation that ends gives its room back. -/
theorem Room.endOp (hr : Room size s S) {pc : Pc} (hpc' : s'.pc = Function.update s.pc p pc)
    (hlog : ∀ bs b, pc ≠ .logging bs b) (hnil : pc.logged = []) (hlh : s'.lh = s.lh)
    (hS' : ∀ q ∈ S', q ∈ S ∧ q ≠ p) : Room size s' S' := by
  have hof : ∀ q, q ≠ p → s'.pc q = s.pc q := by
    intro q hq
    rw [hpc', Function.update_of_ne hq]
  refine ⟨?_, ?_, ?_⟩
  · have hsum : ∑ q ∈ S', (s'.pc q).room = ∑ q ∈ S', (s.pc q).room :=
      Finset.sum_congr rfl fun q hq => by rw [hof q (hS' q hq).2]
    have hsub := Finset.sum_le_sum_of_subset (f := fun q => (s.pc q).room) fun q hq => (hS' q hq).1
    have hle := hr.le
    rw [hlh, hsum]
    omega
  · intro q b hb
    rw [hlh]
    by_cases hqp : q = p
    · rw [hqp, hpc', Function.update_self, hnil] at hb
      simp at hb
    · exact hr.mem_lh q b (by rwa [← hof q hqp])
  · intro q bs b hq
    by_cases hqp : q = p
    · rw [hqp, hpc', Function.update_self] at hq
      exact absurd hq (hlog bs b)
    · exact hr.within q bs b (by rwa [← hof q hqp])

omit [DecidableEq P] in
/-- While no operation is open, only the length of the header counts. -/
theorem Room.closed (hr : Room size s S) (hs : Handshake s' ∅) (hlen : s'.lh.length ≤ s.lh.length) :
    Room size s' ∅ := by
  have hno : ∀ q, ¬ (s'.pc q).InOp := by
    intro q hq
    exact absurd ((hs.mem q).mpr hq) (Finset.notMem_empty q)
  refine ⟨?_, ?_, ?_⟩
  · have hle := hr.le
    rw [Finset.sum_empty]
    omega
  · intro q b hb
    cases hq : s'.pc q with
    | idle => simp [hq, Pc.logged] at hb
    | inOp bs => exact absurd (by rw [hq]; exact trivial) (hno q)
    | logging bs b' => exact absurd (by rw [hq]; exact trivial) (hno q)
    | commit c => simp [hq, Pc.logged] at hb
  · intro q bs b hq
    exact absurd (by rw [hq]; exact trivial) (hno q)

theorem commitStep_le (s : Sys P) (p : P) (c : CommitPc) :
    (s.commitStep p c).outstanding = s.outstanding ∧
      (s.commitStep p c).lh.length ≤ s.lh.length := by
  cases c with
  | start => exact ⟨rfl, le_rfl⟩
  | writeLog tail =>
    rw [Sys.commitStep]
    split_ifs
    · exact ⟨rfl, le_rfl⟩
    · exact ⟨rfl, le_rfl⟩
  | writeHead => exact ⟨rfl, le_rfl⟩
  | install tail =>
    rw [Sys.commitStep]
    split_ifs
    · exact ⟨rfl, le_rfl⟩
    · exact ⟨rfl, le_rfl⟩
  | clear => exact ⟨rfl, Nat.zero_le _⟩
  | clearHead => exact ⟨rfl, le_rfl⟩
  | leave => exact ⟨rfl, le_rfl⟩

theorem Room.step {e : Event P} (hr : Room size s S) (hs : Handshake s S) (hs' : Handshake s' S')
    (hd : Does s e s') (hw : WithinOp s e) (hres : ReservesRoom size s e) : Room size s' S' := by
  -- The set of open operations after the step is the one its case describes.
  cases hd with
  | @beginOp p hpc hb =>
    have hroom := hr.beginOp hs hpc hres
    have hopen : Sys.Open { s.setPc p (.inOp []) with outstanding := s.outstanding + 1 }
        (insert p S) := by
      intro q
      by_cases hqp : q = p
      · subst hqp
        simp [Sys.setPc, Pc.InOp]
      · simp [Sys.setPc, hqp, hs.mem q]
    rwa [hopen.unique hs'.mem] at hroom
  | @check p bs b hpc =>
    have hopen : (s.setPc p (.logging bs b)).Open S := by
      intro q
      by_cases hqp : q = p
      · subst hqp
        rw [pc_setPc_self, hs.mem, hpc]
        exact Iff.rfl
      · rw [pc_setPc_of_ne _ _ hqp, hs.mem]
    rw [← hopen.unique hs'.mem]
    refine hr.quiet rfl rfl (by rw [hpc]; rfl) ?_
    rintro bs' b' ⟨⟩
    have hw : (b :: (s.pc p).logged).toFinset.card ≤ MAXOPBLOCKS := hw
    rwa [hpc] at hw
  | @record p bs b v hpc =>
    have hmem : p ∈ S := by
      rw [hs.mem, hpc]
      exact trivial
    have hopen : ((s.record b v).setPc p (.inOp (bs ++ [b]))).Open S := by
      intro q
      by_cases hqp : q = p
      · subst hqp
        rw [pc_setPc_self, hs.mem, hpc]
        exact Iff.rfl
      · rw [pc_setPc_of_ne _ _ hqp, hs.mem]
        exact Iff.rfl
    rw [← hopen.unique hs'.mem]
    exact hr.record hmem hpc
  | @endOp p bs hpc hc ho =>
    refine hr.endOp (p := p) rfl (by simp) rfl rfl ?_
    intro q hq
    have hin := (hs'.mem q).mp hq
    by_cases hqp : q = p
    · subst hqp
      simp [Sys.setPc, Pc.InOp] at hin
    · exact ⟨(hs.mem q).mpr (by simpa [Sys.setPc, hqp] using hin), hqp⟩
  | @endLast p bs hpc hc ho =>
    obtain rfl := hs'.closed rfl
    exact hr.closed hs' le_rfl
  | @commit p c hpc =>
    obtain ⟨ho, hlen⟩ := commitStep_le s p c
    obtain rfl : S' = ∅ := by
      apply Finset.card_eq_zero.mp
      rw [hs'.outstanding_eq, hs.outstanding_eq, hs.closed (hs.committing p c hpc)] at ho
      simpa using ho
    exact hr.closed hs' hlen

omit [DecidableEq P] in
theorem room_init (d : Disk) (slot : ℕ → Block) (hsize : 2 ≤ size) :
    Room size (Sys.init d slot : Sys P) ∅ :=
  ⟨by simpa [Sys.init] using hsize, by simp [Sys.init, Pc.logged], by simp [Sys.init]⟩

end Room

/-- **When the reservation suffices.** In a run of operations that log at most `MAXOPBLOCKS`
distinct blocks each, where every `begin_op` leaves two blocks of the log to spare, `log_write`
never finds the transaction too big. One of the two blocks is the header; the other one is for a
block that is logged again, since `log_write` looks at the room before it looks for the block in the
header. -/
theorem reservation_suffices (d : Disk) (slot : ℕ → Block) {es : List (Event P)} {s : Sys P}
    (hrun : Run (Guarded (Guarded (Step nlog) WithinOp) (ReservesRoom nlog)) (Sys.init d slot) es s)
    (e : Event P) : panicOf nlog s e ≠ some (.logWrite .tooBig) := by
  have hinv : ∃ S, Handshake s S ∧ Room nlog s S := by
    refine hrun.invariant (I := fun s => ∃ S, Handshake s S ∧ Room nlog s S) ?_
      ⟨∅, handshake_init d slot, room_init d slot (by decide)⟩
    rintro s e s' ⟨S, hs, hr⟩ ⟨⟨hstep, hw⟩, hres⟩
    obtain ⟨S', hs'⟩ := hs.step hstep.does
    exact ⟨S', hs', hr.step hs hs' hstep.does hw hres⟩
  obtain ⟨S, -, hr⟩ := hinv
  intro h
  have hle := hr.le
  have hn : nlog = 30 := rfl
  have hl : LOGSIZE = 30 := rfl
  cases panics_of_panicOf h with
  | tooBig hpc hbig => omega

end Model

/-- One operation that logs a block twice. -/
theorem reservation_suffices_one_op :
    ∃ s : Sys Bool, Run (Guarded (Guarded (Step nlog) WithinOp) (ReservesRoom nlog))
        (Sys.init (fun _ => .zero) fun _ => .zero)
        [.beginOp true, .check true 60, .record true 60 .zero] s ∧
      panicOf nlog s (.check true 60) ≠ some (.logWrite .tooBig) := by
  have hsome : (replay nlog (fun s e => decide (WithinOp s e ∧ ReservesRoom nlog s e))
      (Sys.init (fun _ => .zero) fun _ => .zero)
      [.beginOp true, .check true 60, .record true 60 .zero]).isSome = true := by decide +kernel
  obtain ⟨s, hs⟩ := Option.isSome_iff_exists.mp hsome
  have hrun : Run (Guarded (Guarded (Step nlog) WithinOp) (ReservesRoom nlog))
      (Sys.init (fun _ => .zero) fun _ => .zero)
      [.beginOp true, .check true 60, .record true 60 .zero] s := by
    apply (run_of_replay hs).mono
    intro s e s' h
    have hguard := of_decide_eq_true h.2
    exact ⟨⟨h.1, hguard.1⟩, hguard.2⟩
  exact ⟨s, hrun, reservation_suffices _ _ hrun (.check true 60)⟩

/-- Three operations are let in, and log 29 different blocks between them. -/
def threeOps : List (Event (Fin 3)) :=
  [.beginOp 0, .beginOp 1, .beginOp 2] ++ (List.range 29).flatMap fun k =>
    [.check (Fin.ofNat 3 (k / 10)) (100 + k), .record (Fin.ofNat 3 (k / 10)) (100 + k) .zero]

/-- **The reservation is too small.** Three operations of ten blocks each are let in together; the
tenth block of the third one is too much for the log. -/
theorem too_big_reached :
    ∃ s, Run (Guarded (Step nlog) WithinOp) (Sys.init (fun _ => .zero) fun _ => .zero) threeOps s ∧
      WithinOp s (.check 2 129) ∧ panicOf nlog s (.check 2 129) = some (.logWrite .tooBig) := by
  have hreplay : ((replay nlog (fun s e => decide (WithinOp s e))
      (Sys.init (fun _ => .zero) fun _ => .zero) threeOps).any fun s =>
        decide (WithinOp s (.check 2 129) ∧
          panicOf nlog s (.check 2 129) = some (.logWrite .tooBig))) = true := by
    decide +kernel
  cases hs : replay nlog (fun s e => decide (WithinOp s e))
      (Sys.init (fun _ => .zero) fun _ => .zero) threeOps with
  | none =>
    rw [hs] at hreplay
    cases hreplay
  | some s =>
    rw [hs] at hreplay
    refine ⟨s, ?_, of_decide_eq_true hreplay⟩
    exact (run_of_replay hs).mono fun s e _ h => ⟨h.1, of_decide_eq_true h.2⟩

end Xv6.Log
