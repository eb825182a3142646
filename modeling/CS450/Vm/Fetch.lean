import CS450.Vm.Exec

/-!
# Arguments of system calls

The functions of `syscall.c` that fetch the arguments of a system call from user memory. Everything
they look at is under the control of the user: the stack pointer, the words above it, the pointers
among these words and the bytes behind the pointers. The kernel reads user memory directly, through
the page table of the current process, so an address that is not mapped makes it trap and panic.

The addresses are `uint`s and the sizes are `int`s, added and compared as C does it. An `int` that
was fetched is the word in memory; the conversions between `int` and `uint` do not change it.
-/

namespace Xv6

/-- What the argument functions use of the current process: its page directory, its size, and the
user stack pointer in its trap frame. -/
structure Caller where
  pgdir : PageDir
  sz : ℕ
  esp : ℕ

/-- The byte at a virtual address, for an address that is mapped. -/
def Kmem.byte (m : Kmem) (pgdir : PageDir) (va : ℕ) : UInt8 :=
  m.mem (pgdir.entry (va / PGSIZE)).addr (va % PGSIZE)

/-- A read of one byte by the kernel; without a mapping it traps. -/
def load (pgdir : PageDir) (m : Kmem) (va : ℕ) : Except Fault UInt8 :=
  if (pgdir.entry (va / PGSIZE)).p then .ok (m.byte pgdir va) else .error (.panic "trap")

/-- A read of `n` bytes. -/
def loadBytes (pgdir : PageDir) (m : Kmem) : ℕ → ℕ → Except Fault (List UInt8)
  | 0, _ => .ok []
  | n + 1, va => do
    let b ← load pgdir m va
    let bs ← loadBytes pgdir m n (add32 va 1)
    return b :: bs

/-- `*(int*)addr`. -/
def loadInt (pgdir : PageDir) (m : Kmem) (addr : ℕ) : Except Fault ℕ := do
  let bytes ← loadBytes pgdir m 4 addr
  return field bytes 0 4

/-- `fetchint`: the word at `addr`; `none` is `-1`. -/
def fetchint (c : Caller) (m : Kmem) (addr : ℕ) : Except Fault (Option ℕ) :=
  if c.sz ≤ addr ∨ c.sz < add32 addr 4 then .ok none
  else do
    let w ← loadInt c.pgdir m addr
    return some w

/-- The loop of `fetchstr` from `s` up to `ep`: the address of the `NUL`. The first argument bounds
its iterations. -/
def fetchstrLoop (c : Caller) (m : Kmem) (ep : ℕ) : ℕ → ℕ → Except Fault (Option ℕ)
  | 0, s => if s < ep then .error .diverges else .ok none
  | n + 1, s =>
    if s < ep then do
      let b ← load c.pgdir m s
      if b = 0 then return some s else fetchstrLoop c m ep n (add32 s 1)
    else .ok none

/-- `fetchstr`: the length of the string at `addr`, which `*pp` points to; `none` is `-1`. -/
def fetchstr (c : Caller) (m : Kmem) (addr : ℕ) : Except Fault (Option ℕ) :=
  if c.sz ≤ addr then .ok none
  else do
    let nul ← fetchstrLoop c m c.sz (c.sz - addr) addr
    return nul.map fun s => s - addr

/-- The address of the `n`th argument word, above the return address. -/
def Caller.argAddr (c : Caller) (n : ℤ) : ℕ := addInt32 (add32 c.esp 4) (4 * n)

/-- `argint`. -/
def argint (c : Caller) (m : Kmem) (n : ℤ) : Except Fault (Option ℕ) :=
  fetchint c m (c.argAddr n)

/-- `argptr`: the pointer, checked to point to `size` bytes. -/
def argptr (c : Caller) (m : Kmem) (n size : ℤ) : Except Fault (Option ℕ) := do
  match ← argint c m n with
  | none => return none
  | some i =>
    if size < 0 ∨ c.sz ≤ i ∨ c.sz < addInt32 i size then return none else return some i

/-- `argstr`: the pointer and the length of the string. -/
def argstr (c : Caller) (m : Kmem) (n : ℤ) : Except Fault (Option (ℕ × ℕ)) := do
  match ← argint c m n with
  | none => return none
  | some addr =>
    let len ← fetchstr c m addr
    return len.map fun k => (addr, k)

/-! ### Reading mapped memory -/

/-- Every page of the memory of the process is present, and the memory ends below the kernel. -/
structure Caller.Mapped (c : Caller) : Prop where
  sz : c.sz ≤ KERNBASE
  present : ∀ v, v < pages c.sz → (c.pgdir.entry v).p = true

section Spec

variable {c : Caller} {m : Kmem}

theorem Caller.Mapped.present_of_lt (h : c.Mapped) {va : ℕ} (hva : va < c.sz) :
    (c.pgdir.entry (va / PGSIZE)).p = true := by
  refine h.present _ ?_
  simp only [pages, PGSIZE]
  omega

theorem load_of_lt (h : c.Mapped) {va : ℕ} (hva : va < c.sz) :
    load c.pgdir m va = .ok (m.byte c.pgdir va) := by
  rw [load, if_pos (h.present_of_lt hva)]

theorem add32_of_lt {a b : ℕ} (h : a + b < WORD) : add32 a b = a + b := Nat.mod_eq_of_lt h

/-- Bytes inside the memory are read without a trap. -/
theorem loadBytes_of_le (h : c.Mapped) :
    ∀ (n va : ℕ), va + n ≤ c.sz →
      loadBytes c.pgdir m n va = .ok ((List.range n).map fun j => m.byte c.pgdir (va + j)) := by
  have hsz := h.sz
  intro n
  induction n with
  | zero => exact fun _ _ => rfl
  | succ n ih =>
    intro va hva
    have hnext : add32 va 1 = va + 1 := add32_of_lt (by simp only [KERNBASE, WORD] at *; omega)
    rw [loadBytes, load_of_lt h (by omega), hnext]
    simp only [Except.ok_bind, ih (va + 1) (by omega), List.range_succ_eq_map, List.map_cons,
      List.map_map]
    refine congrArg (fun l => Except.ok (_ :: l)) (List.map_congr_left fun j _ => ?_)
    rw [Function.comp_apply, Nat.succ_eq_add_one, Nat.add_assoc, Nat.add_comm 1]

/-- The word in the four bytes at a mapped address. -/
def Kmem.word (m : Kmem) (pgdir : PageDir) (va : ℕ) : ℕ :=
  field ((List.range 4).map fun j => m.byte pgdir (va + j)) 0 4

/-- **`fetchint`** returns. It succeeds exactly when the four bytes are inside the memory; the sum
that it computes can wrap around only when the address is outside already. -/
theorem fetchint_spec (h : c.Mapped) {addr : ℕ} (haddr : addr < WORD) :
    fetchint c m addr = .ok (if addr + 4 ≤ c.sz then some (m.word c.pgdir addr) else none) := by
  have hsz := h.sz
  unfold fetchint
  by_cases hin : addr + 4 ≤ c.sz
  · rw [if_pos hin, if_neg]
    · simp only [loadInt, loadBytes_of_le h 4 addr hin, Except.ok_bind]
      rfl
    · rw [add32_of_lt (by simp only [KERNBASE, WORD] at *; omega)]
      omega
  · rw [if_neg hin, if_pos]
    by_cases hge : c.sz ≤ addr
    · exact .inl hge
    · rw [add32_of_lt (by simp only [KERNBASE, WORD] at *; omega)]
      omega

/-- The loop of `fetchstr`, by induction on the number of bytes that are left: it stops at the first
`NUL`, or at the end of the memory. -/
theorem fetchstrLoop_spec (h : c.Mapped) :
    ∀ (n s : ℕ), s + n = c.sz →
      ∃ r, fetchstrLoop c m c.sz n s = .ok r ∧
        ∀ e, r = some e ↔ s ≤ e ∧ e < c.sz ∧ m.byte c.pgdir e = 0 ∧
          ∀ j, s ≤ j → j < e → m.byte c.pgdir j ≠ 0 := by
  have hsz := h.sz
  intro n
  induction n with
  | zero =>
    intro s hs
    refine ⟨none, by rw [fetchstrLoop, if_neg (by omega)], fun e => ⟨by simp, ?_⟩⟩
    omega
  | succ n ih =>
    intro s hs
    rw [fetchstrLoop, if_pos (by omega), load_of_lt h (by omega)]
    simp only [Except.ok_bind]
    split
    · next hnul =>
      refine ⟨some s, rfl, fun e => ⟨?_, ?_⟩⟩
      · rintro ⟨⟩
        exact ⟨le_refl s, by omega, hnul, fun j h₁ h₂ => absurd h₁ (by omega)⟩
      · rintro ⟨h₁, -, -, hfirst⟩
        -- a later byte is not the first `NUL`
        by_contra hne
        exact hfirst s (le_refl s) (lt_of_le_of_ne h₁ fun he => hne (by rw [he])) hnul
    · next hbyte =>
      rw [add32_of_lt (by simp only [KERNBASE, WORD] at *; omega)]
      obtain ⟨r, hr, hspec⟩ := ih (s + 1) (by omega)
      refine ⟨r, hr, fun e => (hspec e).trans ⟨?_, ?_⟩⟩
      · rintro ⟨h₁, h₂, h₃, h₄⟩
        refine ⟨by omega, h₂, h₃, fun j hj hje => ?_⟩
        rcases eq_or_ne j s with rfl | hne
        · exact hbyte
        · exact h₄ j (by omega) hje
      · rintro ⟨h₁, h₂, h₃, h₄⟩
        have hne : e ≠ s := by
          rintro rfl
          exact hbyte h₃
        exact ⟨by omega, h₂, h₃, fun j hj => h₄ j (by omega)⟩

/-- **`fetchstr`** returns. It succeeds exactly when there is a `NUL` between the address and the
end of the memory, with the distance to the first one. -/
theorem fetchstr_spec (h : c.Mapped) (addr : ℕ) :
    ∃ r, fetchstr c m addr = .ok r ∧ ∀ k, r = some k ↔ addr + k < c.sz ∧
      m.byte c.pgdir (addr + k) = 0 ∧ ∀ j, j < k → m.byte c.pgdir (addr + j) ≠ 0 := by
  unfold fetchstr
  by_cases hge : c.sz ≤ addr
  · refine ⟨none, by rw [if_pos hge], fun k => ⟨by simp, ?_⟩⟩
    omega
  · obtain ⟨r, hr, hspec⟩ := fetchstrLoop_spec (m := m) h (c.sz - addr) addr (by omega)
    refine ⟨r.map fun s => s - addr, by rw [if_neg hge, hr]; rfl, fun k => ?_⟩
    rw [Option.map_eq_some_iff]
    constructor
    · rintro ⟨e, he, rfl⟩
      obtain ⟨h₁, h₂, h₃, h₄⟩ := (hspec e).mp he
      rw [Nat.add_sub_cancel' h₁]
      exact ⟨h₂, h₃, fun j hj => h₄ _ (by omega) (by omega)⟩
    · rintro ⟨h₁, h₂, h₃⟩
      refine ⟨addr + k, (hspec _).mpr ⟨by omega, h₁, h₂, fun j hj hjk => ?_⟩, by omega⟩
      have hnext := h₃ (j - addr) (by omega)
      rwa [Nat.add_sub_cancel' hj] at hnext

theorem Caller.argAddr_lt (c : Caller) (n : ℤ) : c.argAddr n < WORD := by
  simp only [Caller.argAddr, addInt32, WORD]
  omega

theorem argint_spec (h : c.Mapped) (n : ℤ) :
    argint c m n =
      .ok (if c.argAddr n + 4 ≤ c.sz then some (m.word c.pgdir (c.argAddr n)) else none) :=
  fetchint_spec h (c.argAddr_lt n)

/-- **`argptr`** returns, and succeeds exactly for a size that is not negative and a block that
starts and ends inside the memory. -/
theorem argptr_spec (h : c.Mapped) (n size : ℤ) (hsize : size < KERNBASE) :
    ∃ r, argptr c m n size = .ok r ∧ ∀ i, r = some i ↔
      argint c m n = .ok (some i) ∧ 0 ≤ size ∧ i < c.sz ∧ (i : ℤ) + size ≤ c.sz := by
  have hsz := h.sz
  unfold argptr
  rw [argint_spec h n]
  split
  · simp only [Except.ok_bind]
    generalize m.word c.pgdir (c.argAddr n) = w
    -- a pointer below the size and an `int` do not wrap around
    have hadd : 0 ≤ size → w < c.sz → (addInt32 w size : ℤ) = w + size := by
      simp only [addInt32, KERNBASE, WORD] at *
      omega
    by_cases hok : 0 ≤ size ∧ w < c.sz ∧ (w : ℤ) + size ≤ c.sz
    · obtain ⟨h₀, hw, hend⟩ := hok
      refine ⟨some w, by rw [if_neg (by omega)]; rfl, fun i => ⟨?_, ?_⟩⟩
      · rintro ⟨⟩
        exact ⟨rfl, h₀, hw, hend⟩
      · rintro ⟨he, -⟩
        exact Except.ok.inj he
    · refine ⟨none, ?_, fun i => ⟨by simp, ?_⟩⟩
      · rw [if_pos]
        · rfl
        · by_contra hno
          push Not at hno
          exact hok ⟨hno.1, hno.2.1, by omega⟩
      · rintro ⟨he, hrest⟩
        cases he
        exact absurd hrest hok
  · exact ⟨none, rfl, fun i => by simp⟩

/-- **`argstr`** returns, and succeeds exactly for strings that end inside the memory. -/
theorem argstr_spec (h : c.Mapped) (n : ℤ) :
    ∃ r, argstr c m n = .ok r ∧ ∀ addr k, r = some (addr, k) ↔
      argint c m n = .ok (some addr) ∧ addr + k < c.sz ∧ m.byte c.pgdir (addr + k) = 0 ∧
        ∀ j, j < k → m.byte c.pgdir (addr + j) ≠ 0 := by
  unfold argstr
  rw [argint_spec h n]
  split
  · simp only [Except.ok_bind]
    generalize m.word c.pgdir (c.argAddr n) = w
    obtain ⟨r, hr, hspec⟩ := fetchstr_spec (m := m) h w
    rw [hr]
    refine ⟨r.map fun k => (w, k), rfl, fun addr k => ?_⟩
    rw [Option.map_eq_some_iff]
    constructor
    · rintro ⟨k', hk, he⟩
      cases he
      exact ⟨rfl, (hspec k).mp hk⟩
    · rintro ⟨he, hrest⟩
      cases he
      exact ⟨k, (hspec k).mpr hrest, rfl⟩
  · exact ⟨none, rfl, fun addr k => by simp⟩

end Spec

end Xv6
