import Mathlib

/-!
# Disk blocks

A disk block is `BSIZE` bytes. The kernel reads and writes ranges of bytes in it, and in the log
header and in indirect blocks the little-endian 32-bit words it is made of.
-/

namespace Xv6

/-- The bytes of a disk block; only the indices below `BSIZE` are ever used. -/
abbrev Block := ℕ → UInt8

abbrev BSIZE : ℕ := 512

namespace Block

/-- The `j`-th 32-bit word of a block, read as `uint`. -/
def word (b : Block) (j : ℕ) : ℕ :=
  (b (4 * j)).toNat + 2 ^ 8 * (b (4 * j + 1)).toNat + 2 ^ 16 * (b (4 * j + 2)).toNat +
    2 ^ 24 * (b (4 * j + 3)).toNat

/-- The `j`-th 32-bit word of a block, read as `int`. -/
@[irreducible] def int (b : Block) (j : ℕ) : ℤ := (b.word j : ℤ).bmod (2 ^ 32)

def setWord (b : Block) (j w : ℕ) : Block :=
  fun i => if i / 4 = j then UInt8.ofNat (w / 2 ^ (8 * (i % 4))) else b i

/-- The words `ws` in the places from `j` on. -/
def setWords (b : Block) (j : ℕ) : List ℕ → Block
  | [] => b
  | w :: ws => (b.setWord j w).setWords (j + 1) ws

/-- `memmove(b + off, src, n)`, for the bytes `src`. -/
def write (b : Block) (off : ℕ) (src : List UInt8) : Block :=
  fun i => if off ≤ i ∧ i < off + src.length then src.getD (i - off) 0 else b i

/-- The block after `memset(b, 0, BSIZE)`. -/
def zero : Block := fun _ => 0

variable {b : Block} {j i : ℕ} {ws : List ℕ}

/-- A word that is small enough is the same as `int`. -/
theorem int_eq_word (h : b.word j < 2 ^ 31) : b.int j = b.word j := by
  unfold int
  exact Int.bmod_eq_of_le (by omega) (by omega)

@[simp] theorem word_zero (j : ℕ) : zero.word j = 0 := by
  simp [word, zero]

@[simp] theorem int_zero (j : ℕ) : zero.int j = 0 := by
  rw [int_eq_word (by simp), word_zero]
  rfl

theorem word_setWord_self {w : ℕ} (hw : w < 2 ^ 32) : (b.setWord j w).word j = w := by
  have e0 : 4 * j / 4 = j := by omega
  have e1 : (4 * j + 1) / 4 = j := by omega
  have e2 : (4 * j + 2) / 4 = j := by omega
  have e3 : (4 * j + 3) / 4 = j := by omega
  have m0 : 4 * j % 4 = 0 := by omega
  have m1 : (4 * j + 1) % 4 = 1 := by omega
  have m2 : (4 * j + 2) % 4 = 2 := by omega
  have m3 : (4 * j + 3) % 4 = 3 := by omega
  simp only [word, setWord, e0, e1, e2, e3, m0, m1, m2, m3, if_true, UInt8.toNat_ofNat']
  omega

theorem word_setWord_of_ne {j' w : ℕ} (h : j' ≠ j) :
    (b.setWord j w).word j' = b.word j' := by
  have e0 : 4 * j' / 4 ≠ j := by omega
  have e1 : (4 * j' + 1) / 4 ≠ j := by omega
  have e2 : (4 * j' + 2) / 4 ≠ j := by omega
  have e3 : (4 * j' + 3) / 4 ≠ j := by omega
  simp only [word, setWord, e0, e1, e2, e3, if_false]

theorem word_setWords_of_lt (hi : i < j) :
    (b.setWords j ws).word i = b.word i := by
  induction ws generalizing b j with
  | nil => rfl
  | cons w ws ih =>
    rw [setWords, ih (by omega), word_setWord_of_ne (by omega)]

theorem word_setWords_of_ge (hi : j + ws.length ≤ i) :
    (b.setWords j ws).word i = b.word i := by
  induction ws generalizing b j with
  | nil => rfl
  | cons w ws ih =>
    rw [List.length_cons] at hi
    rw [setWords, ih (by omega), word_setWord_of_ne (by omega)]

theorem word_setWords (hws : ∀ w ∈ ws, w < 2 ^ 32)
    (hi : i < ws.length) : (b.setWords j ws).word (j + i) = ws[i] := by
  induction ws generalizing b j i with
  | nil => simp at hi
  | cons w ws ih =>
    cases i with
    | zero =>
      -- The words after the first one lie behind it.
      rw [setWords, word_setWords_of_lt (by omega)]
      exact word_setWord_self (hws w (by simp))
    | succ i =>
      rw [setWords, show j + (i + 1) = j + 1 + i by omega]
      exact ih (fun w hw => hws w (List.mem_cons_of_mem _ hw)) (by simpa using hi)

end Block

end Xv6
