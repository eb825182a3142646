import CS450.Vm.Kalloc

/-!
# `memmove` in the kernel and in the user library

Both copy `n` bytes from `src` to `dst`. The one of `string.c` copies downwards when the destination
begins inside the source, and so never reads a byte that it has written. The one of `ulib.c` always
copies upwards: when the destination begins inside the source, it reads its own output, and the
first bytes are repeated.

## Main results

* `copyUp_moved`, `copyDown_moved`: the two loops, each where it is right
* `copyUp_repeats`: the loop upwards onto its own source
* `memmove_moves`: the kernel copies always, the library exactly when `dst` is not inside the source
-/

namespace Xv6

open Function (update update_of_ne update_self)

/-- The bytes of an address space. -/
abbrev Bytes := ℕ → UInt8

/-- `while(n-- > 0) *d++ = *s++;` -/
def copyUp : ℕ → ℕ → ℕ → Bytes → Bytes
  | 0, _, _, mem => mem
  | n + 1, d, s, mem => copyUp n (add32 d 1) (add32 s 1) (Function.update mem d (mem s))

/-- `while(n-- > 0) *--d = *--s;` -/
def copyDown : ℕ → ℕ → ℕ → Bytes → Bytes
  | 0, _, _, mem => mem
  | n + 1, d, s, mem =>
    copyDown n (sub32 d 1) (sub32 s 1) (Function.update mem (sub32 d 1) (mem (sub32 s 1)))

/-- `memmove` of `string.c` -/
def Kern.memmove (dst src n : ℕ) (mem : Bytes) : Bytes :=
  if src < dst ∧ add32 src n > dst then copyDown n (add32 dst n) (add32 src n) mem
  else copyUp n dst src mem

/-- `memmove` of `ulib.c`, where `n` is an `int` -/
def Ulib.memmove (dst src : ℕ) (n : ℤ) (mem : Bytes) : Bytes := copyUp n.toNat dst src mem

/-- **The bytes are moved**: the destination has what the source had, and nothing else has changed.
-/
def Moved (dst src n : ℕ) (mem mem' : Bytes) : Prop :=
  ∀ a, mem' a = if dst ≤ a ∧ a < dst + n then mem (src + (a - dst)) else mem a

variable {n d s : ℕ} {mem : Bytes}

/-! ### Copying upwards -/

/-- One round, where only the pointers behind the last byte can wrap around. -/
theorem copyUp_succ (hd : d + n < WORD) (hs : s + n < WORD) :
    copyUp (n + 1) d s mem = copyUp n (d + 1) (s + 1) (update mem d (mem s)) := by
  rw [copyUp]
  cases n with
  | zero => rfl
  | succ n =>
    rw [show add32 d 1 = d + 1 from Nat.mod_eq_of_lt (by omega),
      show add32 s 1 = s + 1 from Nat.mod_eq_of_lt (by omega)]

theorem copyUp_of_lt (hd : d + n ≤ WORD) (hs : s + n ≤ WORD) {a : ℕ} (ha : a < d) :
    copyUp n d s mem a = mem a := by
  induction n generalizing d s mem with
  | zero => rfl
  | succ n ih =>
    rw [copyUp_succ (by omega) (by omega), ih (by omega) (by omega) (by omega),
      update_of_ne (by omega)]

/-- The loop upwards is right when the destination does not begin inside the source. -/
theorem copyUp_moved (hd : d + n ≤ WORD) (hs : s + n ≤ WORD) (h : ¬ (s < d ∧ d < s + n)) :
    Moved d s n mem (copyUp n d s mem) := by
  induction n generalizing d s mem with
  | zero =>
    intro a
    rw [if_neg (by omega), copyUp]
  | succ n ih =>
    intro a
    rw [copyUp_succ (by omega) (by omega), ih (by omega) (by omega) (by omega) a]
    by_cases ha : d + 1 ≤ a ∧ a < d + 1 + n
    · -- what is read now has not been written before
      rw [if_pos ha, if_pos (by omega), update_of_ne (by omega)]
      congr 1
      omega
    · rw [if_neg ha]
      rcases eq_or_ne a d with rfl | hne
      · rw [update_self, if_pos (by omega), Nat.sub_self, Nat.add_zero]
      · rw [update_of_ne hne, if_neg (by omega)]

/-- **A loop upwards onto its own source repeats itself**: in the end each byte of the destination
is the byte of the source it was read from, as it is then. -/
theorem copyUp_repeats (hd : d + n ≤ WORD) (hsd : s < d) {i : ℕ} (hi : i < n) :
    copyUp n d s mem (d + i) = copyUp n d s mem (s + i) := by
  induction n generalizing d s mem i with
  | zero => omega
  | succ n ih =>
    rw [copyUp_succ (by omega) (by omega)]
    cases i with
    | zero =>
      show copyUp n _ _ _ d = copyUp n _ _ _ s
      rw [copyUp_of_lt (by omega) (by omega) (by omega),
        copyUp_of_lt (by omega) (by omega) (by omega), update_self,
        update_of_ne hsd.ne]
    | succ i =>
      rw [show d + (i + 1) = d + 1 + i by omega, show s + (i + 1) = s + 1 + i by omega]
      exact ih (by omega) (by omega) (by omega)

/-! ### Copying downwards -/

theorem copyDown_succ (hd : d + n < WORD) (hs : s + n < WORD) :
    copyDown (n + 1) (add32 d (n + 1)) (add32 s (n + 1)) mem =
      copyDown n (add32 d n) (add32 s n) (update mem (d + n) (mem (s + n))) := by
  have hback : ∀ {p : ℕ}, p + n < WORD → sub32 (add32 p (n + 1)) 1 = p + n := by
    intro p hp
    simp only [sub32, add32, WORD] at *
    omega
  rw [copyDown, hback hd, hback hs, show add32 d n = d + n from Nat.mod_eq_of_lt hd,
    show add32 s n = s + n from Nat.mod_eq_of_lt hs]

/-- The loop downwards is right when the destination begins behind the source. -/
theorem copyDown_moved (hd : d + n ≤ WORD) (hsd : s < d) :
    Moved d s n mem (copyDown n (add32 d n) (add32 s n) mem) := by
  induction n generalizing mem with
  | zero =>
    intro a
    rw [if_neg (by omega), copyDown]
  | succ n ih =>
    intro a
    rw [copyDown_succ (by omega) (by omega), ih (by omega) a]
    by_cases ha : d ≤ a ∧ a < d + n
    · rw [if_pos ha, if_pos (by omega), update_of_ne (by omega)]
    · rw [if_neg ha]
      rcases eq_or_ne a (d + n) with rfl | hne
      · rw [update_self, if_pos (by omega), Nat.add_sub_cancel_left]
      · rw [update_of_ne hne, if_neg (by omega)]

/-! ### The two functions -/

theorem memmove_moved (hdst : d + n ≤ WORD) (hsrc : s + n ≤ WORD) :
    Moved d s n mem (Kern.memmove d s n mem) := by
  unfold Kern.memmove
  have hend : s < d → add32 s n = s + n := fun h => Nat.mod_eq_of_lt (by omega)
  split_ifs with h
  · exact copyDown_moved hdst h.1
  · refine copyUp_moved hdst hsrc fun hin => h ⟨hin.1, ?_⟩
    rw [hend hin.1]
    exact hin.2

/-- When the destination begins inside the source, the byte there is lost. -/
theorem not_moved_of_inside (hdst : d + n ≤ WORD) (hin : s < d ∧ d < s + n) (hne : mem s ≠ mem d) :
    ¬ Moved d s n mem (copyUp n d s mem) := by
  intro h
  obtain ⟨k, rfl⟩ := Nat.exists_eq_add_of_lt hin.1
  have hfirst : copyUp n (s + k + 1) s mem (s + k + 1) = copyUp n (s + k + 1) s mem s :=
    copyUp_repeats hdst hin.1 (show 0 < n by omega)
  have hagain : copyUp n (s + k + 1) s mem (s + k + 1 + (k + 1)) =
      copyUp n (s + k + 1) s mem (s + k + 1) := copyUp_repeats hdst hin.1 (show k + 1 < n by omega)
  rw [hfirst, copyUp_of_lt hdst (by omega) hin.1, h, if_pos (by omega)] at hagain
  rw [← hagain] at hne
  exact hne (congrArg mem (by omega))

/-- **`memmove`**: for ranges that do not wrap around, the kernel moves the bytes whatever the
overlap; the user library does so for every memory exactly when the destination does not begin
inside the source. -/
theorem memmove_moves (dst src n : ℕ) (hdst : dst + n ≤ WORD) (hsrc : src + n ≤ WORD) :
    (∀ mem, Moved dst src n mem (Kern.memmove dst src n mem)) ∧
      ((∀ mem, Moved dst src n mem (Ulib.memmove dst src n mem)) ↔
        ¬ (src < dst ∧ dst < src + n)) := by
  refine ⟨fun mem => memmove_moved hdst hsrc, fun h hin => ?_,
    fun h mem => copyUp_moved hdst hsrc h⟩
  refine not_moved_of_inside hdst hin ?_ (h fun a => if a = src then 1 else 0)
  rw [if_pos rfl, if_neg hin.1.ne']
  decide

/-- Three bytes moved down by one. -/
theorem memmove_moves_down :
    Moved 4096 4097 3 (fun a => UInt8.ofNat a) (Ulib.memmove 4096 4097 3 fun a => UInt8.ofNat a) :=
  (memmove_moves 4096 4097 3 (by decide) (by decide)).2.mpr (by decide) _

/-- **Two bytes moved up by one** are lost in the user library: `1, 2` becomes `1, 1, 1`. -/
theorem memmove_up_by_one :
    Kern.memmove 4097 4096 2 (fun a => UInt8.ofNat (a - 4095)) 4098 = 2 ∧
      Ulib.memmove 4097 4096 2 (fun a => UInt8.ofNat (a - 4095)) 4098 = 1 := by
  decide

end Xv6
