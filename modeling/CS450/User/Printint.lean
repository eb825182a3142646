import Mathlib

/-!
# `printint` in the kernel and in the user library, and `atoi`

The functions write the digits of a number into a buffer of sixteen bytes, the last digit first, and
put them out backwards. The two versions differ in how they find the sign and in their digits above
nine.

## Main results

* `digitLoop_eq`: the loop writes the digits, the last one first
* `putDigits_eq`: the buffer is large enough
* `printint_numeral`: what is put out, and that `atoi` reads it back
-/

namespace Xv6

/-- `sizeof(buf)` -/
def PRINTBUF : ℕ := 16

/-- The loop over the digits of `x`, with the characters in `buf` so far and the room that is left
there. The result is `none` when a character is written outside of `buf`. -/
def digitLoop (digits : List Char) (base : ℕ) : ℕ → ℕ → List Char → Option (List Char)
  | 0, _, _ => none
  | room + 1, x, buf => do
    let c ← digits[x % base]?
    if x / base ≠ 0 then digitLoop digits base room (x / base) (buf ++ [c]) else some (buf ++ [c])

/-- `printint` from `i = 0` on: the characters in the order in which they are put out. -/
def putDigits (digits : List Char) (x : BitVec 32) (base : ℕ) (neg : Bool) :
    Option (List Char) := do
  let buf ← digitLoop digits base PRINTBUF x.toNat []
  if neg then
    if buf.length < PRINTBUF then some (buf ++ ['-']).reverse else none
  else some buf.reverse

/-- `printint` of `console.c` -/
def Kern.printint (xx : BitVec 32) (base : ℕ) (sign : Bool) : Option (List Char) :=
  -- `sign` is assigned in the condition, but only when it was set
  let sign := sign && xx.slt 0
  putDigits "0123456789abcdef".toList (if sign then -xx else xx) base sign

/-- `printint` of `printf.c` -/
def Ulib.printint (xx : BitVec 32) (base : ℕ) (sgn : Bool) : Option (List Char) :=
  if sgn && xx.slt 0 then putDigits "0123456789ABCDEF".toList (-xx) base true
  else putDigits "0123456789ABCDEF".toList xx base false

/-- The loop of `atoi`. The string ends with a NUL, which is not a digit. -/
def Ulib.atoiLoop : BitVec 32 → List Char → BitVec 32
  | n, [] => n
  | n, c :: s =>
    if '0' ≤ c ∧ c ≤ '9' then Ulib.atoiLoop (n * 10 + BitVec.ofNat 32 c.toNat - 48) s else n

def Ulib.atoi (s : List Char) : BitVec 32 := atoiLoop 0 s

/-! ### Numerals -/

/-- The digits of a number, the last one first; zero has one digit. -/
def digitsOf (base n : ℕ) : List ℕ := if n = 0 then [0] else Nat.digits base n

/-- **The shortest numeral** of an integer. -/
def numeral (base : ℕ) (v : ℤ) : List Char :=
  (if v < 0 then ['-'] else []) ++ ((digitsOf base v.natAbs).map Nat.digitChar).reverse

/-- The integer that `printint` is to print. -/
def printed (xx : BitVec 32) (sign : Bool) : ℤ := if sign then xx.toInt else xx.toNat

variable {base n : ℕ}

theorem digitsOf_of_div_eq_zero (hbase : 1 < base) (h : n / base = 0) :
    digitsOf base n = [n % base] := by
  have hlt : n < base := (Nat.div_eq_zero_iff.mp h).resolve_left (by omega)
  unfold digitsOf
  split_ifs with hn
  · rw [hn, Nat.zero_mod]
  · rw [Nat.digits_of_lt base n hn hlt, Nat.mod_eq_of_lt hlt]

theorem digitsOf_of_div_ne_zero (hbase : 1 < base) (h : n / base ≠ 0) :
    digitsOf base n = n % base :: digitsOf base (n / base) := by
  have hn : n ≠ 0 := by
    rintro rfl
    exact h (Nat.zero_div base)
  rw [digitsOf, if_neg hn, Nat.digits_def' hbase (Nat.pos_of_ne_zero hn), digitsOf, if_neg h]

theorem lt_of_mem_digitsOf (hbase : 1 < base) {d : ℕ} (hd : d ∈ digitsOf base n) : d < base := by
  unfold digitsOf at hd
  split_ifs at hd
  · rw [List.mem_singleton.mp hd]
    omega
  · exact Nat.digits_lt_base hbase hd

/-- A word has at most ten digits. -/
theorem length_digitsOf (hbase : 10 ≤ base) (hn : n < 2 ^ 32) : (digitsOf base n).length ≤ 10 := by
  unfold digitsOf
  split_ifs
  · decide
  · rw [Nat.digits_length_le_iff (by omega)]
    exact hn.trans_le ((by decide : 2 ^ 32 ≤ 10 ^ 10).trans (Nat.pow_le_pow_left hbase 10))

theorem ofDigits_digitsOf : Nat.ofDigits base (digitsOf base n) = n := by
  unfold digitsOf
  split_ifs with hn
  · rw [hn, Nat.ofDigits_singleton]
  · exact Nat.ofDigits_digits base n

/-! ### `printint` -/

variable {digits : List Char} {f : ℕ → Char}

/-- **The loop writes the digits**, by induction on the room that is left. -/
theorem digitLoop_eq (hbase : 1 < base) (hdigits : ∀ d, d < base → digits[d]? = some (f d)) :
    ∀ (room n : ℕ) (buf : List Char), (digitsOf base n).length ≤ room →
      digitLoop digits base room n buf = some (buf ++ (digitsOf base n).map f) := by
  intro room
  induction room with
  | zero =>
    intro n buf hroom
    by_cases h : n / base = 0
    · simp [digitsOf_of_div_eq_zero hbase h] at hroom
    · simp [digitsOf_of_div_ne_zero hbase h] at hroom
  | succ room ih =>
    intro n buf hroom
    rw [digitLoop, hdigits _ (Nat.mod_lt n (by omega)), Option.bind_eq_bind, Option.bind_some]
    by_cases h : n / base = 0
    · rw [if_neg (not_not.mpr h), digitsOf_of_div_eq_zero hbase h, List.map_singleton]
    · rw [digitsOf_of_div_ne_zero hbase h, List.length_cons] at hroom
      rw [if_pos h, ih _ _ (by omega), digitsOf_of_div_ne_zero hbase h, List.map_cons,
        List.append_assoc, List.singleton_append]

theorem putDigits_eq (hbase : 10 ≤ base) (hdigits : ∀ d, d < base → digits[d]? = some (f d))
    (x : BitVec 32) (neg : Bool) :
    putDigits digits x base neg =
      some ((if neg then ['-'] else []) ++ ((digitsOf base x.toNat).map f).reverse) := by
  have hlen := length_digitsOf hbase x.isLt
  rw [putDigits, digitLoop_eq (by omega) hdigits PRINTBUF _ [] (hlen.trans (by decide)),
    Option.bind_eq_bind, Option.bind_some, List.nil_append]
  cases neg with
  | false => rfl
  | true =>
    have hroom : ((digitsOf base x.toNat).map f).length < PRINTBUF := by
      rw [List.length_map]
      exact hlen.trans_lt (by decide)
    rw [if_pos rfl, if_pos hroom, List.reverse_append]
    rfl

theorem lower_eq : ∀ d, d < 16 → "0123456789abcdef".toList[d]? = some (Nat.digitChar d) := by decide

theorem upper_eq : ∀ d, d < 16 →
    "0123456789ABCDEF".toList[d]? = some (Nat.digitChar d).toUpper := by
  decide

/-- The sign and the absolute value, the smallest integer included. -/
theorem printed_eq (xx : BitVec 32) (sign : Bool) :
    (printed xx sign < 0 ↔ (sign && xx.slt 0) = true) ∧
      (printed xx sign).natAbs = (if (sign && xx.slt 0) = true then -xx else xx).toNat := by
  have hlt := xx.isLt
  have hint := BitVec.toInt_eq_toNat_cond xx
  have hslt : xx.slt 0 = decide (xx.toInt < 0) := by simp [BitVec.slt]
  cases sign with
  | false =>
    refine ⟨?_, ?_⟩
    · simp [printed]
    · simp [printed]
  | true =>
    simp only [Bool.true_and, hslt, decide_eq_true_iff, printed, if_true]
    refine ⟨trivial, ?_⟩
    split_ifs with hneg
    · rw [BitVec.toNat_neg]
      split_ifs at hint <;> omega
    · split_ifs at hint <;> omega

/-! ### `atoi` -/

theorem atoiLoop_map : ∀ (ds : List ℕ) (n : ℕ), (∀ d ∈ ds, d < 10) →
    Ulib.atoiLoop (BitVec.ofNat 32 n) (ds.map Nat.digitChar) =
      BitVec.ofNat 32 (ds.foldl (fun n d => 10 * n + d) n) := by
  have hchar : ∀ d, d < 10 → ('0' ≤ Nat.digitChar d ∧ Nat.digitChar d ≤ '9') ∧
      (Nat.digitChar d).toNat = d + 48 := by decide
  intro ds
  induction ds with
  | nil => exact fun n _ => rfl
  | cons d ds ih =>
    intro n hds
    obtain ⟨hdigit, hval⟩ := hchar d (hds d List.mem_cons_self)
    have hround : BitVec.ofNat 32 n * 10 + BitVec.ofNat 32 (d + 48) - 48 =
        BitVec.ofNat 32 (10 * n + d) := by
      apply BitVec.eq_of_toNat_eq
      simp only [BitVec.toNat_sub, BitVec.toNat_add, BitVec.toNat_mul, BitVec.toNat_ofNat,
        show (10 : BitVec 32).toNat = 10 from rfl, show (48 : BitVec 32).toNat = 48 from rfl]
      omega
    rw [List.map_cons, Ulib.atoiLoop, if_pos hdigit, hval, hround,
      ih _ fun d' hd' => hds d' (List.mem_cons_of_mem d hd'), List.foldl_cons]

theorem atoi_numeral {v : ℤ} (hv : 0 ≤ v) :
    Ulib.atoi (numeral 10 v) = BitVec.ofNat 32 v.natAbs := by
  rw [numeral, if_neg (by omega), List.nil_append, ← List.map_reverse, Ulib.atoi]
  refine (atoiLoop_map _ 0 fun d hd => ?_).trans ?_
  · exact lt_of_mem_digitsOf (by decide) (List.mem_reverse.mp hd)
  · rw [List.foldl_reverse]
    congr 1
    conv_rhs => rw [← @ofDigits_digitsOf 10 v.natAbs, Nat.ofDigits_eq_foldr]
    congr 1
    funext d n
    rw [Nat.cast_id, Nat.add_comm]

/-- In base ten there are no letters. -/
theorem numeral_toUpper (v : ℤ) : (numeral 10 v).map Char.toUpper = numeral 10 v := by
  have hdigit : ∀ d, d < 10 → (Nat.digitChar d).toUpper = Nat.digitChar d := by decide
  rw [numeral, List.map_append, List.map_reverse, List.map_map]
  congr 1
  · split_ifs
    · decide
    · rfl
  · refine congrArg List.reverse (List.map_congr_left fun d hd => ?_)
    exact hdigit d (lt_of_mem_digitsOf (by decide) hd)

/-- **`printint`** of the kernel puts out the shortest numeral of the integer, and that of the user
library the same with capital letters; neither writes outside of its buffer. `atoi` reads the
decimal output for a non-negative `int` back. -/
theorem printint_numeral (xx : BitVec 32) (base : ℕ) (sign : Bool) (hbase : base = 10 ∨ base = 16) :
    ∃ k u, Kern.printint xx base sign = some k ∧ Ulib.printint xx base sign = some u ∧
      k = numeral base (printed xx sign) ∧ u = k.map Char.toUpper ∧
      (base = 10 → 0 ≤ xx.toInt → Ulib.atoi k = xx ∧ Ulib.atoi u = xx) := by
  have hle : 10 ≤ base ∧ base ≤ 16 := by omega
  obtain ⟨hneg, habs⟩ := printed_eq xx sign
  have hk : Kern.printint xx base sign = some (numeral base (printed xx sign)) := by
    rw [Kern.printint, putDigits_eq hle.1 fun d hd => lower_eq d (hd.trans_le hle.2)]
    simp only [numeral, hneg, habs]
  have hu : Ulib.printint xx base sign =
      some ((numeral base (printed xx sign)).map Char.toUpper) := by
    have hput := fun x =>
      @putDigits_eq base _ _ hle.1 (fun d hd => upper_eq d (hd.trans_le hle.2)) x
    rw [Ulib.printint, numeral, List.map_append, List.map_reverse, List.map_map]
    simp only [hneg, habs]
    split_ifs with h <;> exact hput _ _
  refine ⟨_, _, hk, hu, rfl, rfl, ?_⟩
  rintro rfl hnonneg
  have hpos : 0 ≤ printed xx sign := by
    unfold printed
    split_ifs <;> omega
  have hback : Ulib.atoi (numeral 10 (printed xx sign)) = xx := by
    have hslt : (sign && xx.slt 0) ≠ true := fun h => by
      have := hneg.mpr h
      omega
    rw [atoi_numeral hpos, habs, if_neg hslt, BitVec.ofNat_toNat, BitVec.setWidth_eq]
  rw [numeral_toUpper]
  exact ⟨hback, hback⟩

/-- The smallest integer. -/
theorem printint_numeral_smallest : ∃ k u, Kern.printint (BitVec.intMin 32) 10 true = some k ∧
    Ulib.printint (BitVec.intMin 32) 10 true = some u ∧ k = numeral 10 (-2147483648) ∧
    u = k.map Char.toUpper := by
  obtain ⟨k, u, hk, hu, hnum, hup, -⟩ := printint_numeral (BitVec.intMin 32) 10 true (.inl rfl)
  exact ⟨k, u, hk, hu, hnum, hup⟩

example : Kern.printint (BitVec.intMin 32) 10 true = some "-2147483648".toList := by decide

end Xv6
