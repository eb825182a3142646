import Mathlib

/-!
# Ring buffers with counters that wrap

A buffer of `N` elements is indexed by the remainders of 32-bit counters, where `N` divides `2 ^
32`. The counters are never reset: they wrap around, and the remainders go on.

## Main definitions

* `slot N n`: the place in the buffer for the counter `n`
* `segment buf n k`: the `k` elements from the counter `n` on

## Main results

* `segment_succ`, `segment_cons`, `segment_add`: segments in parts
* `segment_update`: an element behind the segment does not change it
-/

namespace Ring

variable {α : Type} {N : ℕ} [NeZero N]

/-- The place in the buffer for the counter `n`: `n % N`. -/
def slot (N : ℕ) [NeZero N] (n : BitVec 32) : Fin N := Fin.ofNat N n.toNat

/-- The `k` elements from the counter `n` on. -/
def segment (buf : Fin N → α) (n : BitVec 32) (k : ℕ) : List α :=
  (List.range k).map fun i => buf (slot N (n + BitVec.ofNat 32 i))

variable {buf : Fin N → α} {n : BitVec 32} {i j k : ℕ}

@[simp] theorem segment_zero : segment buf n 0 = [] := rfl

@[simp] theorem length_segment : (segment buf n k).length = k := by simp [segment]

theorem segment_succ :
    segment buf n (k + 1) = segment buf n k ++ [buf (slot N (n + BitVec.ofNat 32 k))] := by
  rw [segment, List.range_succ, List.map_append]
  rfl

theorem segment_add :
    segment buf n (j + k) = segment buf n j ++ segment buf (n + BitVec.ofNat 32 j) k := by
  induction k with
  | zero => simp
  | succ k ih =>
    rw [← Nat.add_assoc, segment_succ, segment_succ, ih, List.append_assoc, BitVec.add_assoc,
      BitVec.ofNat_add]

theorem segment_cons : segment buf n (k + 1) = buf (slot N n) :: segment buf (n + 1#32) k := by
  rw [Nat.add_comm, segment_add]
  simp [segment]

section Slots

variable (hN : N ∣ 2 ^ 32)

include hN

theorem slot_val_add : (slot N (n + BitVec.ofNat 32 i)).val = (n.toNat + i) % N := by
  show (n + BitVec.ofNat 32 i).toNat % N = _
  rw [BitVec.toNat_add, BitVec.toNat_ofNat, Nat.mod_mod_of_dvd _ hN]
  exact (Nat.ModEq.add_left _ ((Nat.mod_modEq i (2 ^ 32)).of_dvd hN))

/-- Places less than `N` apart are different. -/
theorem slot_ne (hij : i < j) (hj : j < i + N) :
    slot N (n + BitVec.ofNat 32 i) ≠ slot N (n + BitVec.ofNat 32 j) := by
  intro h
  have hval := congrArg Fin.val h
  rw [slot_val_add hN, slot_val_add hN] at hval
  have hmod : i % N = j % N := Nat.ModEq.add_left_cancel' n.toNat hval
  have hdvd : N ∣ j - i := (Nat.modEq_iff_dvd' hij.le).mp hmod
  have := Nat.le_of_dvd (by omega) hdvd
  omega

/-- **An element behind the segment** does not change it, as long as there is room for it. -/
theorem segment_update {x : α} (hk : k ≤ j) (hj : j < N) :
    segment (Function.update buf (slot N (n + BitVec.ofNat 32 j)) x) n k = segment buf n k := by
  refine List.map_congr_left fun i hi => ?_
  have hi : i < k := List.mem_range.mp hi
  exact Function.update_of_ne (slot_ne hN (by omega) (by omega)) ..

end Slots

end Ring
