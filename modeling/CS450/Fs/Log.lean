import CS450.Lib.Crash
import CS450.Lib.Loop
import CS450.Lib.Outcome
import CS450.Fs.Block

/-!
# The log and crashes

The redo log of `log.c`: `log_write` pins the updated blocks in the buffer cache and records their
numbers; `commit` copies them to the log, writes the header, installs them in their places and
clears the header; `recover_from_log` installs what a header on the disk announces.

A single block write is atomic, and a crash can fall between any two. What it leaves is the disk;
the buffer cache and the log structure in memory are gone. The buffer cache is modelled by what
`bread` finds in it: a block that `log_write` pinned has its own contents in its buffer, and every
other buffer agrees with the disk.

The argument is that the disk is at every moment in one of three conditions, `Clean`, `Committed` or
`Done`, that the write of the header is the only passage from the first to the second, and that
recovery leads from each of them to the first or the last.

## Main results

* `phase_commit`: every crash point of `commit` is in one of the three conditions
* `phase_recoverFromLog`: so is every crash point of a recovery that starts in one of them
* `commit_crash_atomic`: a transaction is on the disk after the recovery as a whole or not at all
-/

namespace Xv6.Log

open Function (update update_of_ne update_self)
open Crash Loop

abbrev MAXOPBLOCKS : ℕ := 10

abbrev LOGSIZE : ℕ := MAXOPBLOCKS * 3

abbrev Disk := ℕ → Block

/-- Where the log lies on the disk: `log.start` and `log.size`, the header block included. -/
structure Area where
  start : ℕ
  size : ℕ
  size_pos : 0 < size

/-- The block is outside the log area. -/
def Area.Home (L : Area) (b : ℕ) : Prop := b < L.start ∨ L.start + L.size ≤ b

/-- The panics of `log_write`. -/
inductive Panic
  /-- `panic("too big a transaction")` -/
  | tooBig
  /-- `panic("log_write outside of trans")` -/
  | outsideOfTrans
  deriving DecidableEq, Repr

structure State where
  disk : Disk
  /-- the contents of the buffers that `B_DIRTY` pins -/
  dirty : ℕ → Option Block
  /-- `log.lh.block[0..n)` -/
  lh : List ℕ
  /-- `log.outstanding` -/
  outstanding : ℤ
  /-- the disk writes since the start, oldest first -/
  written : List (ℕ × Block)

/-- The kernel right after it was started on the disk `d`. -/
def boot (d : Disk) : State := ⟨d, fun _ => none, [], 0, []⟩

namespace State

/-- What `bread` returns: the pinned buffer, or what the disk holds. -/
def bread (s : State) (b : ℕ) : Block := (s.dirty b).getD (s.disk b)

@[simp] theorem bread_boot (d : Disk) (b : ℕ) : (boot d).bread b = d b := rfl

/-- `bwrite` of a buffer with the contents `v`; the driver clears `B_DIRTY`. -/
def bwrite (s : State) (b : ℕ) (v : Block) : State :=
  { s with
    disk := Function.update s.disk b v
    dirty := Function.update s.dirty b none
    written := s.written ++ [(b, v)] }

/-- The critical section of `log_write`: the block is recorded unless it already is, and its buffer,
with the contents `v`, is pinned. -/
def pin (s : State) (b : ℕ) (v : Block) : State :=
  { s with
    lh := if b ∈ s.lh then s.lh else s.lh ++ [b]
    dirty := Function.update s.dirty b (some v) }

@[simp] theorem disk_bwrite (s : State) (b : ℕ) (v : Block) :
    (s.bwrite b v).disk = update s.disk b v := rfl

end State

/-! ### The functions of `log.c` -/

/-- The block with the log header `lh` stored over it. -/
def setHead (b : Block) (lh : List ℕ) : Block := b.setWords 0 (lh.length :: lh)

/-- The log header that a block holds: `lh->block[0..lh->n)`. -/
def head (b : Block) : List ℕ := (List.range (b.int 0).toNat).map fun i => b.word (i + 1)

/-- `install_trans`: committed blocks go from the log to their places. -/
def installTrans (L : Area) (s : State) : State :=
  upTo (fun tail t => t.bwrite (s.lh.getD tail 0) (t.bread (L.start + tail + 1))) s.lh.length s

def readHead (L : Area) (s : State) : State := { s with lh := head (s.bread L.start) }

@[simp] theorem lh_readHead (L : Area) (s : State) :
    (readHead L s).lh = head (s.bread L.start) := rfl

def writeHead (L : Area) (s : State) : State :=
  s.bwrite L.start (setHead (s.bread L.start) s.lh)

def recoverFromLog (L : Area) (s : State) : State :=
  let s := readHead L s
  let s := installTrans L s
  writeHead L { s with lh := [] }

/-- `write_log`: modified blocks go from the cache to the log. -/
def writeLog (L : Area) (s : State) : State :=
  upTo (fun tail t => t.bwrite (L.start + tail + 1) (t.bread (s.lh.getD tail 0))) s.lh.length s

def commit (L : Area) (s : State) : State :=
  if 0 < s.lh.length then
    let s := writeLog L s
    let s := writeHead L s
    let s := installTrans L s
    writeHead L { s with lh := [] }
  else s

/-- `log_write` of a buffer of the block `b` whose contents the caller made `v`. -/
def logWrite (L : Area) (s : State) (b : ℕ) (v : Block) : Except Panic State :=
  if LOGSIZE ≤ s.lh.length ∨ (L.size : ℤ) - 1 ≤ s.lh.length then .error .tooBig
  else if s.outstanding < 1 then .error .outsideOfTrans
  else .ok (s.pin b v)

/-- The updates of a transaction, in the order of their `log_write`s. -/
def logWrites (L : Area) : State → List (ℕ × Block) → Except Panic State
  | s, [] => .ok s
  | s, w :: ws => do
    let s ← logWrite L s w.1 w.2
    logWrites L s ws

/-- The disk after a crash that lets only the first `k` writes of `s` pass. -/
def crashed (d : Disk) (s : State) (k : ℕ) : Disk := apply (s.written.take k) d

/-- The disk after recoveries that crash after `ks` writes, one after another, and one that
completes. -/
def recovered (L : Area) : Disk → List ℕ → Disk
  | d, [] => (recoverFromLog L (boot d)).disk
  | d, k :: ks => recovered L (crashed d (recoverFromLog L (boot d)) k) ks

/-! ### Log headers -/

theorem head_setHead {b : Block} {lh : List ℕ} (hlen : lh.length ≤ LOGSIZE)
    (hlh : ∀ x ∈ lh, x < 2 ^ 32) : head (setHead b lh) = lh := by
  have hsize : LOGSIZE = 30 := rfl
  have hlen' : lh.length < 2 ^ 32 := by omega
  have hws : ∀ w ∈ lh.length :: lh, w < 2 ^ 32 := by
    intro w hw
    rcases List.mem_cons.mp hw with rfl | hw
    · exact hlen'
    · exact hlh w hw
  have hn : (setHead b lh).word 0 = lh.length :=
    Block.word_setWords (b := b) (j := 0) (i := 0) hws (Nat.zero_lt_succ _)
  have hint : ((setHead b lh).int 0).toNat = lh.length := by
    rw [Block.int_eq_word (by omega), hn]
    simp
  apply List.ext_getElem
  · simp [head, hint]
  · intro i hi hi'
    simp only [head, List.getElem_map, List.getElem_range]
    have := Block.word_setWords (b := b) (j := 0) (i := i + 1) hws (by simpa using hi')
    simpa [setHead] using this

theorem int_setHead_nil (b : Block) : (setHead b []).int 0 = 0 := by
  have h : (setHead b []).word 0 = 0 :=
    Block.word_setWords (b := b) (j := 0) (i := 0) (by simp : ∀ x ∈ [0], x < 2 ^ 32) Nat.zero_lt_one
  rw [Block.int_eq_word (by omega), h]
  rfl

theorem head_of_int_eq_zero {b : Block} (h : b.int 0 = 0) : head b = [] := by
  simp [head, h]

/-! ### Crash points -/

/-- The writes of `s` lead from `d` to its disk, and wherever they are cut off `P` holds. -/
structure Phase (P : Disk → Prop) (d : Disk) (s : State) : Prop where
  disk_eq : s.disk = apply s.written d
  always : Always P d s.written

section Phase

variable {P : Disk → Prop} {d : Disk} {s : State}

theorem Phase.boot (h : P d) : Phase P d (boot d) := ⟨rfl, always_nil h⟩

theorem Phase.bwrite (h : Phase P d s) {b : ℕ} {v : Block} (hP : P (update s.disk b v)) :
    Phase P d (s.bwrite b v) := by
  constructor
  · rw [State.bwrite, apply_snoc, ← h.disk_eq]
  · apply always_snoc h.always
    rwa [← h.disk_eq]

/-- What is not a disk write does not add a crash point. -/
theorem Phase.of_eq (h : Phase P d s) {t : State} (hd : t.disk = s.disk)
    (hw : t.written = s.written) : Phase P d t :=
  ⟨by rw [hd, hw, h.disk_eq], by rw [hw]; exact h.always⟩

end Phase

/-! ### The three conditions of the disk -/

section Conditions

variable (L : Area) (old new w : Disk) (bs : List ℕ)

/-- The header announces nothing, and the home blocks are as in `w`. -/
structure Empty (d : Disk) : Prop where
  head_eq : (d L.start).int 0 = 0
  home_eq : ∀ b, L.Home b → d b = w b

/-- The header announces the blocks `bs`, the log holds their new contents, and all other home
blocks have theirs. -/
structure Committed (d : Disk) : Prop where
  head_eq : head (d L.start) = bs
  log_eq : ∀ i < bs.length, d (L.start + i + 1) = new (bs.getD i 0)
  home_eq : ∀ b, L.Home b → b ∉ bs → d b = new b

/-- Not committed, committed, or installed. -/
def Consistent (d : Disk) : Prop :=
  Empty L old d ∨ Committed L new bs d ∨ Empty L new d

/-- The blocks that `log_write` has recorded fit into the log and lie outside of it. -/
structure Fits : Prop where
  le_logsize : bs.length ≤ LOGSIZE
  lt_size : bs.length < L.size
  home : ∀ b ∈ bs, L.Home b
  lt_word : ∀ b ∈ bs, b < 2 ^ 32

end Conditions

section Steps

variable {L : Area} {old new w d : Disk} {bs : List ℕ} {s : State}

theorem Area.Home.ne_start {b : ℕ} (h : L.Home b) : b ≠ L.start := by
  have := L.size_pos
  rcases h with h | h <;> omega

theorem Area.Home.ne_log {b i : ℕ} (h : L.Home b) (hi : i + 1 < L.size) : b ≠ L.start + i + 1 := by
  rcases h with h | h <;> omega

theorem not_home_log {i : ℕ} (hi : i + 1 < L.size) : ¬ L.Home (L.start + i + 1) :=
  fun h => h.ne_log hi rfl

theorem bread_of_dirty_eq_none {b : ℕ} (h : s.dirty b = none) : s.bread b = s.disk b := by
  simp [State.bread, h]

theorem dirty_bwrite {b b' : ℕ} {v : Block} (h : s.dirty b' = none) :
    (s.bwrite b v).dirty b' = none := by
  by_cases hb : b' = b
  · simp [State.bwrite, hb]
  · simpa [State.bwrite, hb] using h

theorem getD_mem {i : ℕ} (hi : i < bs.length) : bs.getD i 0 ∈ bs := by
  rw [List.getD_eq_getElem _ _ hi]
  exact List.getElem_mem hi

/-- Writing a block of the log does not touch an uncommitted disk. -/
theorem Empty.update_log (h : Empty L w d) {i : ℕ} (hi : i + 1 < L.size) (v : Block) :
    Empty L w (update d (L.start + i + 1) v) := by
  constructor
  · rw [update_of_ne (by omega)]
    exact h.head_eq
  · intro b hb
    rw [update_of_ne (hb.ne_log hi)]
    exact h.home_eq b hb

/-- Once all home blocks are as in `w`, clearing the header is all there is left to do. -/
theorem empty_update_start (h : ∀ b, L.Home b → d b = w b) (v : Block) :
    Empty L w (update d L.start (setHead v [])) := by
  constructor
  · rw [update_self]
    exact int_setHead_nil v
  · intro b hb
    rw [update_of_ne hb.ne_start]
    exact h b hb

/-- Installing one of the blocks keeps the transaction committed: the log still has it. -/
theorem Committed.update_home (h : Committed L new bs d) (hf : Fits L bs) {b : ℕ} (hb : b ∈ bs)
    (v : Block) : Committed L new bs (update d b v) := by
  have hhome := hf.home b hb
  have hlt := hf.lt_size
  constructor
  · rw [update_of_ne hhome.ne_start.symm]
    exact h.head_eq
  · intro i hi
    rw [update_of_ne (hhome.ne_log (by omega)).symm]
    exact h.log_eq i hi
  · intro b' hb' hmem
    rw [update_of_ne (by rintro rfl; exact hmem hb)]
    exact h.home_eq b' hb' hmem

/-- The write of the header commits: everything it announces is in the log by then. -/
theorem committed_update_start (hf : Fits L bs)
    (hlog : ∀ i < bs.length, d (L.start + i + 1) = new (bs.getD i 0))
    (hhome : ∀ b, L.Home b → b ∉ bs → d b = new b) (v : Block) :
    Committed L new bs (update d L.start (setHead v bs)) := by
  constructor
  · rw [update_self]
    exact head_setHead hf.le_logsize hf.lt_word
  · intro i hi
    rw [update_of_ne (by omega)]
    exact hlog i hi
  · intro b hb hmem
    rw [update_of_ne hb.ne_start]
    exact hhome b hb hmem

end Steps

/-! ### Installing, recovering and committing -/

section Runs

variable {L : Area} {old new d : Disk} {bs : List ℕ} {s : State}

/-- Nothing of the log area is pinned. -/
def LogClean (L : Area) (s : State) : Prop := ∀ b, ¬ L.Home b → s.dirty b = none

theorem LogClean.bwrite (h : LogClean L s) (b : ℕ) (v : Block) : LogClean L (s.bwrite b v) :=
  fun b' hb' => dirty_bwrite (h b' hb')

/-- The last part of `commit` and of `recover_from_log`, from a committed disk on: every crash point
is committed or done, and in the end all blocks are in their places and the header is clear. -/
theorem install_clear (hf : Fits L bs) (hlh : s.lh = bs) (hclean : LogClean L s)
    (hcom : Committed L new bs s.disk) (hph : Phase (Consistent L old new bs) d s) :
    Phase (Consistent L old new bs) d (writeHead L { installTrans L s with lh := [] }) ∧
      Empty L new (writeHead L { installTrans L s with lh := [] }).disk := by
  have hlt := hf.lt_size
  -- After `tail` rounds the first `tail` blocks are in their places.
  have hinv : Phase (Consistent L old new bs) d (installTrans L s) ∧
      Committed L new bs (installTrans L s).disk ∧ LogClean L (installTrans L s) ∧
      ∀ i < bs.length, (installTrans L s).disk (bs.getD i 0) = new (bs.getD i 0) := by
    subst hlh
    apply upTo_rule (fun tail t => Phase (Consistent L old new s.lh) d t ∧
      Committed L new s.lh t.disk ∧ LogClean L t ∧
      ∀ i < tail, t.disk (s.lh.getD i 0) = new (s.lh.getD i 0))
    · exact ⟨hph, hcom, hclean, fun i hi => absurd hi (Nat.not_lt_zero i)⟩
    · rintro tail htail t ⟨hph, hcom, hclean, hdone⟩
      have hmem := getD_mem htail
      have hread : t.bread (L.start + tail + 1) = new (s.lh.getD tail 0) := by
        rw [bread_of_dirty_eq_none (hclean _ (not_home_log (by omega)))]
        exact hcom.log_eq tail htail
      have hcom' := hcom.update_home hf hmem (t.bread (L.start + tail + 1))
      refine ⟨hph.bwrite (.inr (.inl hcom')), hcom', hclean.bwrite _ _, ?_⟩
      intro i hi
      by_cases hb : s.lh.getD i 0 = s.lh.getD tail 0
      · -- Also where a block were announced twice, both log blocks hold the same.
        rw [State.disk_bwrite, hb, update_self, hread]
      · rw [State.disk_bwrite, update_of_ne hb]
        apply hdone
        have : i ≠ tail := fun h => hb (by rw [h])
        omega
  obtain ⟨hph, hcom, -, hdone⟩ := hinv
  have hhome : ∀ b, L.Home b → (installTrans L s).disk b = new b := by
    intro b hb
    by_cases hmem : b ∈ bs
    · obtain ⟨i, hi, rfl⟩ := List.mem_iff_getElem.mp hmem
      rw [← List.getD_eq_getElem bs 0 hi]
      exact hdone i hi
    · exact hcom.home_eq b hb hmem
  have hempty := empty_update_start hhome ((installTrans L s).bread L.start)
  refine ⟨?_, hempty⟩
  exact (hph.of_eq (t := { installTrans L s with lh := [] }) rfl rfl).bwrite (.inr (.inr hempty))

/-- **Recovery.** From each of the three conditions, every crash point of a recovery is in one of
them, and a complete recovery leads to the first or to the last. -/
theorem phase_recoverFromLog (hf : Fits L bs) (hd : Consistent L old new bs d) :
    Phase (Consistent L old new bs) d (recoverFromLog L (boot d)) ∧
      (Empty L old (recoverFromLog L (boot d)).disk ∨
        Empty L new (recoverFromLog L (boot d)).disk) := by
  -- Where the header announces nothing there is nothing to install.
  have hnothing : ∀ w, Empty L w d → (∀ d', Empty L w d' → Consistent L old new bs d') →
      Phase (Consistent L old new bs) d (recoverFromLog L (boot d)) ∧
        Empty L w (recoverFromLog L (boot d)).disk := by
    intro w hw hcons
    have hlh : head ((boot d).bread L.start) = [] := head_of_int_eq_zero hw.head_eq
    have heq : recoverFromLog L (boot d) = writeHead L (boot d) := by
      have hread : readHead L (boot d) = boot d := by
        rw [readHead, hlh]
        rfl
      rw [recoverFromLog, hread]
      rfl
    have hempty : Empty L w (writeHead L (boot d)).disk :=
      empty_update_start hw.home_eq ((boot d).bread L.start)
    rw [heq]
    exact ⟨(Phase.boot hd).bwrite (hcons _ hempty), hempty⟩
  rcases hd with hd | hd | hd
  · obtain ⟨h₁, h₂⟩ := hnothing old hd fun _ => .inl
    exact ⟨h₁, .inl h₂⟩
  · have hph : Phase (Consistent L old new bs) d (readHead L (boot d)) :=
      (Phase.boot (.inr (.inl hd))).of_eq rfl rfl
    have hlh : (readHead L (boot d)).lh = bs := by
      exact hd.head_eq
    obtain ⟨h₁, h₂⟩ := install_clear hf hlh (fun _ _ => rfl) hd hph
    exact ⟨h₁, .inr h₂⟩
  · obtain ⟨h₁, h₂⟩ := hnothing new hd fun _ h => .inr (.inr h)
    exact ⟨h₁, .inr h₂⟩

/-- Recoveries that crash and one that does not. -/
theorem recovered_empty (hf : Fits L bs) (ks : List ℕ) (hd : Consistent L old new bs d) :
    Empty L old (recovered L d ks) ∨ Empty L new (recovered L d ks) := by
  induction ks generalizing d with
  | nil => exact (phase_recoverFromLog hf hd).2
  | cons k ks ih => exact ih ((phase_recoverFromLog hf hd).1.always k)

/-- What a transaction leaves in memory before `commit`: the blocks it recorded are pinned, all
others are as on the disk, and nothing was written. -/
structure Recorded (L : Area) (d : Disk) (s : State) : Prop where
  disk_eq : s.disk = d
  written_eq : s.written = []
  fits : Fits L s.lh
  clean : ∀ b, b ∉ s.lh → s.dirty b = none

theorem Recorded.bread_eq (h : Recorded L d s) {b : ℕ} (hb : b ∉ s.lh) : s.bread b = d b := by
  rw [bread_of_dirty_eq_none (h.clean b hb), h.disk_eq]

theorem Recorded.logClean (h : Recorded L d s) : LogClean L s :=
  fun b hb => h.clean b fun hmem => hb (h.fits.home b hmem)

theorem recorded_boot (L : Area) (d : Disk) (o : ℤ) :
    Recorded L d { boot d with outstanding := o } :=
  ⟨rfl, rfl, ⟨by simp [boot], by simpa [boot] using L.size_pos, by simp [boot], by simp [boot]⟩,
    fun _ _ => rfl⟩

theorem Recorded.pin (h : Recorded L d s) {b : ℕ} (v : Block) (hb : L.Home b) (hlt : b < 2 ^ 32)
    (hn : s.lh.length < LOGSIZE) (hsz : s.lh.length + 1 < L.size) : Recorded L d (s.pin b v) := by
  have hmem : ∀ b', b' ∈ (s.pin b v).lh ↔ b' = b ∨ b' ∈ s.lh := by
    intro b'
    by_cases hb : b ∈ s.lh
    · simp only [State.pin, hb, if_true]
      grind
    · simp [State.pin, hb, or_comm]
  have hlen : (s.pin b v).lh.length ≤ s.lh.length + 1 := by
    by_cases hb : b ∈ s.lh <;> simp [State.pin, hb]
  refine ⟨h.disk_eq, h.written_eq, ⟨by omega, by omega, ?_, ?_⟩, ?_⟩
  · intro b' hb'
    rcases (hmem b').mp hb' with rfl | hb'
    · exact hb
    · exact h.fits.home b' hb'
  · intro b' hb'
    rcases (hmem b').mp hb' with rfl | hb'
    · exact hlt
    · exact h.fits.lt_word b' hb'
  · intro b' hb'
    rw [hmem, not_or] at hb'
    simpa [State.pin, hb'.1] using h.clean b' hb'.2

theorem Recorded.logWrite (h : Recorded L d s) {b : ℕ} {v : Block} {s' : State} (hb : L.Home b)
    (hlt : b < 2 ^ 32) (hs : Log.logWrite L s b v = .ok s') : Recorded L d s' := by
  unfold Log.logWrite at hs
  split_ifs at hs with hbig hout
  cases hs
  exact h.pin v hb hlt (by omega) (by omega)

theorem Recorded.logWrites {ws : List (ℕ × Block)} {s' : State} (h : Recorded L d s)
    (hws : ∀ w ∈ ws, L.Home w.1 ∧ w.1 < 2 ^ 32) (hs : Log.logWrites L s ws = .ok s') :
    Recorded L d s' := by
  induction ws generalizing s with
  | nil =>
    cases hs
    exact h
  | cons w ws ih =>
    obtain ⟨t, ht, hs⟩ := Except.bind_eq_ok.mp hs
    have hw := hws w (by simp)
    exact ih (h.logWrite hw.1 hw.2 ht) (fun w' hw' => hws w' (List.mem_cons_of_mem _ hw')) hs

/-- `write_log`: the log blocks get what the cache holds, and nothing else on the disk changes. -/
theorem writeLog_spec (h : Recorded L d s) (hd : (d L.start).int 0 = 0) :
    Phase (Consistent L d s.bread s.lh) d (writeLog L s) ∧ Empty L d (writeLog L s).disk ∧
      (writeLog L s).lh = s.lh ∧ LogClean L (writeLog L s) ∧
      ∀ i < s.lh.length, (writeLog L s).disk (L.start + i + 1) = s.bread (s.lh.getD i 0) := by
  have hlt := h.fits.lt_size
  have hstart : Empty L d s.disk := ⟨by rw [h.disk_eq]; exact hd, fun b _ => by rw [h.disk_eq]⟩
  have hph : Phase (Consistent L d s.bread s.lh) d s := by
    constructor
    · rw [h.written_eq, h.disk_eq, apply_nil]
    · rw [h.written_eq]
      exact always_nil (.inl (h.disk_eq ▸ hstart))
  -- After `tail` rounds the first `tail` log blocks are written and the cache is as before.
  have hinv : Phase (Consistent L d s.bread s.lh) d (writeLog L s) ∧
      Empty L d (writeLog L s).disk ∧ (writeLog L s).lh = s.lh ∧ LogClean L (writeLog L s) ∧
      (∀ b ∈ s.lh, (writeLog L s).bread b = s.bread b) ∧
      ∀ i < s.lh.length, (writeLog L s).disk (L.start + i + 1) = s.bread (s.lh.getD i 0) := by
    apply upTo_rule (fun tail t => Phase (Consistent L d s.bread s.lh) d t ∧ Empty L d t.disk ∧
      t.lh = s.lh ∧ LogClean L t ∧ (∀ b ∈ s.lh, t.bread b = s.bread b) ∧
      ∀ i < tail, t.disk (L.start + i + 1) = s.bread (s.lh.getD i 0))
    · exact ⟨hph, hstart, rfl, h.logClean, fun _ _ => rfl,
        fun i hi => absurd hi (Nat.not_lt_zero i)⟩
    · rintro tail htail t ⟨hph, hempty, hlh, hclean, hread, hdone⟩
      have hempty' := hempty.update_log (i := tail) (by omega) (t.bread (s.lh.getD tail 0))
      refine ⟨hph.bwrite (.inl hempty'), hempty', hlh, hclean.bwrite _ _, ?_, ?_⟩
      · intro b hb
        have hne := (h.fits.home b hb).ne_log (i := tail) (by omega)
        rw [← hread b hb]
        simp [State.bread, State.bwrite, hne]
      · intro i hi
        by_cases hb : i = tail
        · rw [State.disk_bwrite, hb, update_self, hread _ (getD_mem htail)]
        · rw [State.disk_bwrite, update_of_ne (by omega)]
          exact hdone i (by omega)
  obtain ⟨h₁, h₂, h₃, h₄, -, h₆⟩ := hinv
  exact ⟨h₁, h₂, h₃, h₄, h₆⟩

/-- **Commit.** Every crash point of `commit` is in one of the three conditions. -/
theorem phase_commit (h : Recorded L d s) (hd : (d L.start).int 0 = 0) :
    Phase (Consistent L d s.bread s.lh) d (commit L s) := by
  unfold commit
  split_ifs with hn
  · obtain ⟨hph, hempty, hlh, hclean, hlog⟩ := writeLog_spec h hd
    have hcom : Committed L s.bread s.lh (writeHead L (writeLog L s)).disk := by
      rw [writeHead, hlh]
      apply committed_update_start h.fits hlog
      intro b hb hmem
      rw [hempty.home_eq b hb, h.bread_eq hmem]
    have hph' : Phase (Consistent L d s.bread s.lh) d (writeHead L (writeLog L s)) :=
      hph.bwrite (.inr (.inl hcom))
    exact (install_clear (s := writeHead L (writeLog L s)) h.fits hlh
      (hclean.bwrite _ _) hcom hph').1
  · constructor
    · rw [h.written_eq, h.disk_eq, apply_nil]
    · rw [h.written_eq]
      exact always_nil (.inl ⟨hd, fun _ _ => rfl⟩)

end Runs

/-- **Crash atomicity.** A transaction records updates `ws` of blocks outside the log area on a disk
`d` whose log header is empty. The kernel crashes after any number `k` of the disk writes of
`commit`, and then in any number of recoveries, each after any number of its writes, until one
completes. The home blocks are then all as before, or all as the transaction left them in the cache,
and the log header is empty. -/
theorem commit_crash_atomic (L : Area) (d : Disk) (o : ℤ) (ws : List (ℕ × Block)) (s : State)
    (hd : (d L.start).int 0 = 0) (hws : ∀ w ∈ ws, L.Home w.1 ∧ w.1 < 2 ^ 32)
    (hs : logWrites L { boot d with outstanding := o } ws = .ok s) (k : ℕ) (ks : List ℕ) :
    (recovered L (crashed d (commit L s) k) ks L.start).int 0 = 0 ∧
      ((∀ b, L.Home b → recovered L (crashed d (commit L s) k) ks b = d b) ∨
        ∀ b, L.Home b → recovered L (crashed d (commit L s) k) ks b = s.bread b) := by
  have hrec : Recorded L d s := (recorded_boot L d o).logWrites hws hs
  have hcons : Consistent L d s.bread s.lh (crashed d (commit L s) k) :=
    (phase_commit hrec hd).always k
  rcases recovered_empty hrec.fits ks hcons with h | h
  · exact ⟨h.head_eq, .inl h.home_eq⟩
  · exact ⟨h.head_eq, .inr h.home_eq⟩

/-- One block of a blank disk is updated, the crash falls between the write of the header and the
installation, and the first recovery crashes as well. -/
theorem commit_crash_atomic_one_block :
    ∃ s, logWrites ⟨2, 30, by decide⟩ { boot (fun _ => .zero) with outstanding := 1 }
        [(59, fun _ => 1)] = .ok s ∧
      ((∀ b, Area.Home ⟨2, 30, by decide⟩ b →
          recovered ⟨2, 30, by decide⟩ (crashed (fun _ => .zero)
            (commit ⟨2, 30, by decide⟩ s) 2) [1] b = Block.zero) ∨
        ∀ b, Area.Home ⟨2, 30, by decide⟩ b →
          recovered ⟨2, 30, by decide⟩ (crashed (fun _ => .zero)
            (commit ⟨2, 30, by decide⟩ s) 2) [1] b = s.bread b) :=
  ⟨_, rfl, (commit_crash_atomic ⟨2, 30, by decide⟩ (fun _ => .zero) 1 [(59, fun _ => 1)] _
    (Block.int_zero 0) (by simp [Area.Home]) rfl 2 [1]).2⟩

end Xv6.Log
