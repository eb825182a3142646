import CS450.Vm.Kalloc

/-!
# The multiprocessor table

`mpinit` looks for the configuration table of the machine and goes through its entries. It wants to
stop with a panic at an entry of unknown type, but the `break` there leaves the `switch` only: the
pointer stays at the entry, and the loop runs for ever. So the loop ends exactly when it meets no
such entry and the pointer gets to the end of the table, and the panic behind it is never reached.

Memory is a function of the address, and the pointer wraps around at the end of the address space.
Only a table less than one entry below that end can be missed by the pointer.
-/

namespace Xv6.Mp

/-- The bytes of the address space. -/
abbrev Memory := ℕ → UInt8

def NCPU : ℕ := 8

def P2V (a : ℕ) : ℕ := add32 a KERNBASE

section Code

variable (mem : Memory)

/-- The `n` bytes from `addr` on. -/
def bytes (addr n : ℕ) : List UInt8 := (List.range n).map fun i => mem (add32 addr i)

/-- The little-endian number in the `n` bytes from `addr` on. -/
def number (addr n : ℕ) : ℕ := Nat.ofDigits 256 ((bytes mem addr n).map UInt8.toNat)

/-- `sum`, which returns an `uchar` -/
def sum (addr len : ℕ) : UInt8 := (bytes mem addr len).sum

/-- The loop of `mpsearch1`; the first argument bounds its iterations. -/
def mpsearch1Loop (e : ℕ) : ℕ → ℕ → Option ℕ
  | 0, _ => none
  | n + 1, p =>
    if p < e then
      -- "_MP_"
      if bytes mem p 4 = [0x5F, 0x4D, 0x50, 0x5F] ∧ sum mem p 16 = 0 then some p
      else mpsearch1Loop e n (add32 p 16)
    else none

def mpsearch1 (a len : ℕ) : Option ℕ := mpsearch1Loop mem (add32 (P2V a) len) (len / 16 + 1) (P2V a)

def mpsearch : Option ℕ :=
  let p := number mem (P2V 0x40E) 2 * 16
  if p ≠ 0 then mpsearch1 mem p 1024 <|> mpsearch1 mem 0xF0000 0x10000
  else mpsearch1 mem (sub32 (number mem (P2V 0x413) 2 * 1024) 1024) 1024 <|>
    mpsearch1 mem 0xF0000 0x10000

/-- `conf->length` -/
def length (conf : ℕ) : ℕ := number mem (add32 conf 4) 2

/-- `mpconfig`: the floating pointer and the table. -/
def mpconfig : Option (ℕ × ℕ) := do
  let mp ← mpsearch mem
  let physaddr := number mem (add32 mp 4) 4
  if physaddr = 0 then none
  else
    let conf := P2V physaddr
    -- "PCMP"
    if bytes mem conf 4 ≠ [0x50, 0x43, 0x4D, 0x50] then none
    else if mem (add32 conf 6) ≠ 1 ∧ mem (add32 conf 6) ≠ 4 then none
    else if sum mem conf (length mem conf) ≠ 0 then none
    else some (mp, conf)

end Code

/-- What `mpinit` sets. The first `ncpu` of `cpus` are listed by their `apicid`. -/
structure Machine where
  lapic : ℕ
  cpus : List UInt8
  ioapicid : UInt8
  ismp : Bool
  /-- the interrupt mode register has been set -/
  imcr : Bool

/-- One round of the loop over the entries: the pointer behind it. -/
def entry (mem : Memory) (p : ℕ) (s : Machine) : ℕ × Machine :=
  match (mem p).toNat with
  | 0 =>
    (add32 p 20,
      if s.cpus.length < NCPU then { s with cpus := s.cpus ++ [mem (add32 p 1)] } else s)
  | 2 => (add32 p 8, { s with ioapicid := mem (add32 p 1) })
  | 1 => (add32 p 8, s)
  | 3 => (add32 p 8, s)
  | 4 => (add32 p 8, s)
  -- `break` leaves the `switch`
  | _ => (p, { s with ismp := false })

/-- A number of rounds of the loop: whether it has ended by then. -/
def entries (mem : Memory) (e : ℕ) : ℕ → ℕ → Machine → Bool × Machine
  | 0, _, s => (false, s)
  | n + 1, p, s => if p < e then entries mem e n (entry mem p s).1 (entry mem p s).2 else (true, s)

/-- How `mpinit` can stop, or still be in its loop. -/
inductive Stop
  | running
  | expectSmp
  | notSuitable
  deriving DecidableEq, Repr

/-- The loop of `mpinit` over the entries of the table. -/
def table (mem : Memory) (conf rounds : ℕ) : Bool × Machine :=
  entries mem (add32 conf (length mem conf)) rounds (add32 conf 44)
    ⟨number mem (add32 conf 36) 4, [], 0, true, false⟩

/-- `mpinit`, with a bound on the rounds of its loop. -/
def mpinit (mem : Memory) (rounds : ℕ) : Except Stop Machine :=
  match mpconfig mem with
  | none => .error .expectSmp
  | some (mp, conf) =>
    let (ended, s) := table mem conf rounds
    if ended = false then .error .running
    else if s.ismp = false then .error .notSuitable
    else .ok { s with imcr := decide (mem (add32 mp 12) ≠ 0) }

/-! ### The loop -/

/-- The type of an entry is known. -/
def Known (mem : Memory) (p : ℕ) : Prop := (mem p).toNat ≤ 4

/-- The address behind the entry at `p`. -/
def next (mem : Memory) (p : ℕ) : ℕ := add32 p (if mem p = 0 then 20 else 8)

/-- **Every entry is of known type** that the pointer meets on its way from `p` to the address
`e`. -/
def AllKnown (mem : Memory) (p e : ℕ) : Prop :=
  ∀ k, (∀ j ≤ k, (next mem)^[j] p < e) → Known mem ((next mem)^[k] p)

/-- The pointer gets from `p` to the address `e` or behind it. -/
def ReachesEnd (mem : Memory) (p e : ℕ) : Prop := ∃ k, e ≤ (next mem)^[k] p

variable {mem : Memory} {p e n : ℕ} {s : Machine}

theorem entry_of_known (hk : Known mem p) :
    (entry mem p s).1 = next mem p ∧ (entry mem p s).2.ismp = s.ismp := by
  have hzero : mem p = 0 ↔ (mem p).toNat = 0 := UInt8.toNat_inj.symm
  unfold Known at hk
  unfold entry next
  simp only [hzero]
  rcases (by omega : (mem p).toNat = 0 ∨ (mem p).toNat = 1 ∨ (mem p).toNat = 2 ∨ (mem p).toNat = 3 ∨
    (mem p).toNat = 4) with h | h | h | h | h
  · rw [h]
    refine ⟨rfl, ?_⟩
    split_ifs <;> rfl
  all_goals
    rw [h]
    exact ⟨rfl, rfl⟩

theorem entry_of_unknown (hk : ¬ Known mem p) : entry mem p s = (p, { s with ismp := false }) := by
  unfold Known at hk
  unfold entry
  split <;> first | omega | rfl

theorem length_cpus_entry (h : s.cpus.length ≤ NCPU) : (entry mem p s).2.cpus.length ≤ NCPU := by
  unfold entry
  split
  · dsimp only
    split_ifs with hlt
    · rw [List.length_append]
      exact hlt
    · exact h
  all_goals exact h

/-- **No more than `NCPU` processors** are recorded, after any number of rounds. -/
theorem length_cpus_entries (h : s.cpus.length ≤ NCPU) :
    (entries mem e n p s).2.cpus.length ≤ NCPU := by
  induction n generalizing p s with
  | zero => exact h
  | succ n ih =>
    rw [entries]
    split_ifs
    · exact ih (length_cpus_entry h)
    · exact h

/-- **The loop stays at an entry of unknown type.** -/
theorem entries_of_unknown (hp : p < e) (hk : ¬ Known mem p) : (entries mem e n p s).1 = false := by
  induction n generalizing s with
  | zero => rfl
  | succ n ih =>
    rw [entries, if_pos hp, entry_of_unknown hk]
    exact ih

/-- **The loop has ended after `n` rounds** exactly when fewer steps over entries of known type take
the pointer to the end. The induction is on the rounds. -/
theorem entries_ended_iff : (entries mem e n p s).1 = true ↔
    ∃ k < n, e ≤ (next mem)^[k] p ∧ ∀ j < k, Known mem ((next mem)^[j] p) := by
  induction n generalizing p s with
  | zero => simp [entries]
  | succ n ih =>
    by_cases hp : p < e
    · by_cases hk : Known mem p
      · rw [entries, if_pos hp, (entry_of_known hk).1, ih]
        constructor
        · rintro ⟨k, hkn, hend, hknown⟩
          refine ⟨k + 1, by omega, hend, ?_⟩
          rintro (_ | j) hj
          · exact hk
          · exact hknown j (by omega)
        · rintro ⟨_ | k, hkn, hend, hknown⟩
          · exact absurd hp (not_lt.mpr hend)
          · exact ⟨k, by omega, hend, fun j hj => hknown (j + 1) (by omega)⟩
      · -- the loop stays here, and no walk over entries of known type leaves `p`
        rw [entries_of_unknown hp hk]
        constructor
        · intro h
          cases h
        · rintro ⟨_ | k, -, hend, hknown⟩
          · exact absurd hp (not_lt.mpr hend)
          · exact absurd (hknown 0 (Nat.succ_pos k)) hk
    · rw [entries, if_neg hp]
      exact ⟨fun _ => ⟨0, Nat.succ_pos n, not_lt.mp hp, fun j hj => absurd hj (Nat.not_lt_zero j)⟩,
        fun _ => rfl⟩

/-- **The loop ends** exactly when the pointer meets no entry of unknown type and gets to the
end. -/
theorem entries_ends_iff : (∃ n, (entries mem e n p s).1 = true) ↔
    AllKnown mem p e ∧ ReachesEnd mem p e := by
  simp only [entries_ended_iff]
  constructor
  · rintro ⟨n, k, -, hend, hknown⟩
    refine ⟨fun i hi => hknown i ?_, k, hend⟩
    by_contra hik
    exact absurd (hi k (not_lt.mp hik)) (not_lt.mpr hend)
  · rintro ⟨hknown, hend⟩
    -- the first time the pointer is at the end: all entries before it are met by the loop
    refine ⟨_, Nat.find hend, Nat.lt_succ_self _, Nat.find_spec hend, fun j hj => hknown j ?_⟩
    intro i hi
    exact not_le.mp (Nat.find_min hend (lt_of_le_of_lt hi hj))

/-- **One entry below the end of the address space** no table is missed: up to there the pointer
does not wrap around, and each step takes it nearer to the end. -/
theorem reachesEnd (he : e + 20 ≤ WORD) : ReachesEnd mem p e := by
  induction hd : e - p using Nat.strong_induction_on generalizing p with
  | _ d ih =>
    by_cases hp : p < e
    · have hlt : p < next mem p := by
        unfold next add32
        split_ifs <;> rw [Nat.mod_eq_of_lt (by omega)] <;> omega
      obtain ⟨k, hk⟩ := ih (e - next mem p) (by omega) rfl
      exact ⟨k + 1, hk⟩
    · exact ⟨0, not_lt.mp hp⟩

/-- When the loop has ended, `ismp` is still set. -/
theorem ismp_entries (h : (entries mem e n p s).1 = true) :
    (entries mem e n p s).2.ismp = s.ismp := by
  induction n generalizing p s with
  | zero => rfl
  | succ n ih =>
    rw [entries] at h ⊢
    split_ifs at h ⊢ with hp
    · by_cases hk : Known mem p
      · rw [ih h, (entry_of_known hk).2]
      · rw [entry_of_unknown hk, entries_of_unknown hp hk] at h
        cases h
    · rfl

/-! ### The function -/

theorem mpinit_of_table {mp conf : ℕ} (hconf : mpconfig mem = some (mp, conf)) :
    mpinit mem n =
      if (table mem conf n).1 = false then .error .running
      else if (table mem conf n).2.ismp = false then .error .notSuitable
      else .ok { (table mem conf n).2 with imcr := decide (mem (add32 mp 12) ≠ 0) } := by
  unfold mpinit
  rw [hconf]

/-- **`mpinit`** on a table that `mpconfig` accepts: the loop over the entries ends exactly when it
meets no entry of unknown type and the pointer gets to the end of the table, as it does in every
table that ends one entry below the end of the address space. The loop never records more than
`NCPU` processors, and the panic behind it is not reached. -/
theorem mpinit_ends_iff (mem : Memory) (mp conf : ℕ) (hconf : mpconfig mem = some (mp, conf)) :
    ((∃ rounds, mpinit mem rounds ≠ .error .running) ↔
      AllKnown mem (add32 conf 44) (add32 conf (length mem conf)) ∧
      ReachesEnd mem (add32 conf 44) (add32 conf (length mem conf))) ∧
    (add32 conf (length mem conf) + 20 ≤ WORD →
      ReachesEnd mem (add32 conf 44) (add32 conf (length mem conf))) ∧
    (∀ rounds, (table mem conf rounds).2.cpus.length ≤ NCPU) ∧
    ∀ rounds, mpinit mem rounds ≠ .error .notSuitable := by
  have hrunning : ∀ rounds, mpinit mem rounds ≠ .error .running ↔
      (table mem conf rounds).1 = true := by
    intro rounds
    rw [mpinit_of_table hconf]
    split_ifs with h <;> simp [h]
  refine ⟨?_, reachesEnd, fun rounds => length_cpus_entries (Nat.zero_le _), fun rounds h => ?_⟩
  · simp only [hrunning]
    exact entries_ends_iff
  · rw [mpinit_of_table hconf] at h
    by_cases hrun : (table mem conf rounds).1 = true
    · -- the loop has ended, so `ismp` has its first value
      have hismp : (table mem conf rounds).2.ismp = true := ismp_entries hrun
      rw [if_neg (by rw [hrun]; decide), if_neg (by rw [hismp]; decide)] at h
      cases h
    · rw [if_pos (by simpa using hrun)] at h
      cases h

/-! ### Two tables -/

/-- A memory with a floating pointer at `0x90000`, and behind it a table: its length, its checksum
and its entries. -/
def sample (length checksum : UInt8) (entries : List UInt8) : Memory := fun a =>
  if a = 0x8000040F then 0x90
  else if a < 0x80090000 then 0
  else ([0x5F, 0x4D, 0x50, 0x5F, 0x10, 0, 9, 0, 1, 4, 0x87, 0, 0, 0, 0, 0] ++
    [0x50, 0x43, 0x4D, 0x50, length, 0, 4, checksum] ++ List.replicate 36 0 ++ entries).getD
      (a - 0x80090000) 0

/-- One processor. -/
theorem mpinit_ends_one_cpu :
    ∃ rounds, mpinit (sample 64 133 [0, 7]) rounds ≠ .error .running := by
  obtain ⟨hends, hreach, -⟩ := mpinit_ends_iff (sample 64 133 [0, 7]) 0x80090000 0x80090010
    (by decide +kernel)
  rw [show add32 0x80090010 (length (sample 64 133 [0, 7]) 0x80090010) = 0x80090050 by
    decide +kernel] at hends hreach
  refine hends.mpr ⟨?_, hreach (by decide)⟩
  rintro (_ | k) hlt
  · unfold Known
    decide +kernel
  · -- the second entry would be behind the table
    have hnext : next (sample 64 133 [0, 7]) (add32 0x80090010 44) = 0x80090050 := by decide +kernel
    have hone := hlt 1 (Nat.succ_pos k)
    rw [Function.iterate_one, hnext] at hone
    exact absurd hone (lt_irrefl _)

/-- **An entry of type `5`**: the table is accepted, and the loop never ends. -/
theorem mpinit_hangs : mpconfig (sample 45 154 [5]) = some (0x80090000, 0x80090010) ∧
    ∀ rounds, mpinit (sample 45 154 [5]) rounds = .error .running := by
  have hconf : mpconfig (sample 45 154 [5]) = some (0x80090000, 0x80090010) := by decide +kernel
  have hend : add32 0x80090010 (length (sample 45 154 [5]) 0x80090010) = 0x8009003D := by
    decide +kernel
  refine ⟨hconf, fun rounds => ?_⟩
  have htable : (table (sample 45 154 [5]) 0x80090010 rounds).1 = false := by
    unfold table
    rw [hend]
    exact entries_of_unknown (by decide) (by unfold Known; decide +kernel)
  rw [mpinit_of_table hconf, if_pos htable]

end Xv6.Mp
