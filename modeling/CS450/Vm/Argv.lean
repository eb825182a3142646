import CS450.Vm.Fetch
import CS450.Vm.Stack

/-!
# What `main` finds on its stack

The strings are pushed downwards, each aligned to a word, and their addresses are collected. Then
the fake return address, `argc`, the address of the vector and the vector itself are copied below
them in one piece. When all of it fits into the stack page, the stack is what the calling convention
of `main(argc, argv)` asks for.
-/

namespace Xv6

/-! ### Sizes and addresses -/

/-- The bytes that a string takes on the stack. -/
def argSize (arg : List UInt8) : ℕ := (arg.length + 4) / 4 * 4

/-- The bytes that the strings take. -/
def stringsSize (argv : List (List UInt8)) : ℕ := (argv.map argSize).sum

/-- The bytes of the strings, of the vector and of the three words below it. -/
def argvSize (argv : List (List UInt8)) : ℕ := stringsSize argv + (3 + argv.length + 1) * 4

/-- The addresses of the strings below `sp`. -/
def argPtrs : List (List UInt8) → ℕ → List ℕ
  | [], _ => []
  | arg :: argv, sp => (sp - argSize arg) :: argPtrs argv (sp - argSize arg)

section Sizes

variable {argv : List (List UInt8)} {arg : List UInt8} {sp i j : ℕ}

@[simp] theorem stringsSize_nil : stringsSize [] = 0 := rfl

@[simp] theorem stringsSize_cons (arg : List UInt8) (argv : List (List UInt8)) :
    stringsSize (arg :: argv) = argSize arg + stringsSize argv := by
  simp [stringsSize]

theorem length_lt_argSize (arg : List UInt8) : arg.length + 1 ≤ argSize arg := by
  unfold argSize
  omega

theorem stringsSize_mod (argv : List (List UInt8)) : stringsSize argv % 4 = 0 := by
  induction argv with
  | nil => rfl
  | cons arg argv ih =>
    rw [stringsSize_cons, argSize]
    omega

theorem argSp_eq (hsp : sp % 4 = 0) (hle : argSize arg ≤ sp) (hlt : sp < WORD) :
    argSp sp arg = sp - argSize arg := by
  have hlen := length_lt_argSize arg
  rw [argSp_of_le (by omega) hlt]
  unfold argSize at *
  omega

theorem argPtrs_length : ∀ (argv : List (List UInt8)) (sp : ℕ),
    (argPtrs argv sp).length = argv.length
  | [], _ => rfl
  | _ :: argv, _ => congrArg (· + 1) (argPtrs_length argv _)

/-- The address of a string, from the sizes of those up to it. -/
theorem argPtrs_getElem :
    ∀ (argv : List (List UInt8)) (sp i : ℕ), i < argv.length →
      (argPtrs argv sp)[i]? = some (sp - stringsSize (argv.take (i + 1))) := by
  intro argv
  induction argv with
  | nil => exact fun sp i hi => absurd hi (Nat.not_lt_zero i)
  | cons arg argv ih =>
    intro sp i hi
    cases i with
    | zero => simp [argPtrs]
    | succ i =>
      rw [argPtrs, List.getElem?_cons_succ, ih _ i (by simpa using hi), List.take_succ_cons,
        stringsSize_cons, Nat.sub_sub]

/-- The strings before one and that one take their place. -/
theorem stringsSize_take (h : argv[j]? = some arg) :
    stringsSize (argv.take (j + 1)) = stringsSize (argv.take j) + argSize arg := by
  rw [List.take_add_one, h]
  simp [stringsSize]

theorem stringsSize_take_le (hij : i ≤ j) (argv : List (List UInt8)) :
    stringsSize (argv.take i) ≤ stringsSize (argv.take j) := by
  have hsplit := List.take_append_drop i (argv.take j)
  rw [List.take_take, min_eq_left hij] at hsplit
  rw [← hsplit, stringsSize, stringsSize, List.map_append, List.sum_append]
  exact Nat.le_add_right _ _

theorem stringsSize_take_le_self (i : ℕ) (argv : List (List UInt8)) :
    stringsSize (argv.take i) ≤ stringsSize argv := by
  rw [stringsSize, stringsSize, ← List.sum_take_add_sum_drop (argv.map argSize) i, List.map_take]
  exact Nat.le_add_right _ _

end Sizes

/-! ### Bytes in memory -/

/-- The bytes `buf` are at the address `va`. -/
def Kmem.Has (m : Kmem) (d : PageDir) (va : ℕ) (buf : List UInt8) : Prop :=
  ∀ j b, buf[j]? = some b → m.byte d (va + j) = b

section Bytes

variable {g va : ℕ} {buf : List UInt8} {d : PageDir} {m m' : Kmem}

theorem Kmem.Has.of_byte (h : m.Has d va buf)
    (hbyte : ∀ x, va ≤ x → x < va + buf.length → m'.byte d x = m.byte d x) : m'.Has d va buf := by
  intro j b hj
  obtain ⟨hlt, -⟩ := List.getElem?_eq_some_iff.mp hj
  rw [hbyte _ (Nat.le_add_right va j) (by omega)]
  exact h j b hj

theorem Kmem.Has.append {rest : List UInt8} (h : m.Has d va (buf ++ rest)) :
    m.Has d va buf ∧ m.Has d (va + buf.length) rest := by
  refine ⟨fun j b hj => ?_, fun j b hj => ?_⟩
  · obtain ⟨hlt, -⟩ := List.getElem?_eq_some_iff.mp hj
    exact h j b (by rw [List.getElem?_append_left hlt, hj])
  · rw [Nat.add_assoc]
    refine h _ b ?_
    rw [List.getElem?_append_right (Nat.le_add_right _ _), Nat.add_sub_cancel_left, hj]

/-- The bytes of the stack page after a copy that lies in it. -/
theorem byte_write (hlo : (g + 1) * PGSIZE ≤ va) (hhi : va + buf.length ≤ (g + 2) * PGSIZE)
    (hne : buf ≠ []) {x : ℕ} (hx : (g + 1) * PGSIZE ≤ x) (hx' : x < (g + 2) * PGSIZE) :
    (m.write (d.entry (g + 1)).addr (va % PGSIZE) buf).byte d x =
      if va ≤ x then (buf[x - va]?).getD (m.byte d x) else m.byte d x := by
  have hlen := List.length_pos_iff.mpr hne
  have hdiv : x / PGSIZE = g + 1 := by
    simp only [PGSIZE] at *
    omega
  have hiff : va % PGSIZE ≤ x % PGSIZE ↔ va ≤ x := by
    simp only [PGSIZE] at *
    omega
  have hsub : x % PGSIZE - va % PGSIZE = x - va := by
    simp only [PGSIZE] at *
    omega
  simp only [Kmem.byte, Kmem.write, hdiv, Function.update_self, hsub, hiff]

theorem has_write (hlo : (g + 1) * PGSIZE ≤ va) (hhi : va + buf.length ≤ (g + 2) * PGSIZE)
    (hne : buf ≠ []) : (m.write (d.entry (g + 1)).addr (va % PGSIZE) buf).Has d va buf := by
  intro j b hj
  obtain ⟨hlt, -⟩ := List.getElem?_eq_some_iff.mp hj
  rw [byte_write hlo hhi hne (by omega) (by omega), if_pos (Nat.le_add_right va j),
    Nat.add_sub_cancel_left, hj]
  rfl

/-- A copy does not change what is above it. -/
theorem byte_write_above (hlo : (g + 1) * PGSIZE ≤ va) (hhi : va + buf.length ≤ (g + 2) * PGSIZE)
    (hne : buf ≠ []) {x : ℕ} (hx : va + buf.length ≤ x) (hx' : x < (g + 2) * PGSIZE) :
    (m.write (d.entry (g + 1)).addr (va % PGSIZE) buf).byte d x = m.byte d x := by
  rw [byte_write hlo hhi hne (by omega) hx', if_pos (by omega), List.getElem?_eq_none (by omega)]
  rfl

/-! ### Words in memory -/

/-- A word is read back. -/
theorem word_of_has {w : ℕ} (hw : w < WORD) (h : m.Has d va (wordBytes w)) : m.word d va = w := by
  have h₀ := h 0 _ rfl
  have h₁ := h 1 _ rfl
  have h₂ := h 2 _ rfl
  have h₃ := h 3 _ rfl
  have hrange : List.range 4 = [0, 1, 2, 3] := rfl
  unfold Kmem.word field
  simp only [hrange, List.map_cons, List.map_nil, h₀, h₁, h₂, h₃, List.drop_zero,
    List.take_succ_cons,
    List.take_nil, Nat.ofDigits_cons, Nat.ofDigits_nil, UInt8.toNat_ofNat']
  simp only [WORD] at hw
  omega

/-- The words of an array are read back, by induction on the array. -/
theorem word_of_has_array :
    ∀ (ws : List ℕ) {va i w : ℕ}, m.Has d va (ws.flatMap wordBytes) → ws[i]? = some w → w < WORD →
      m.word d (va + 4 * i) = w := by
  intro ws
  induction ws with
  | nil => exact fun {va i w} _ hi _ => by cases hi
  | cons w₀ ws ih =>
    intro va i w h hi hw
    obtain ⟨hfirst, hrest⟩ := h.append
    cases i with
    | zero =>
      cases hi
      exact word_of_has hw hfirst
    | succ i =>
      have hword := ih hrest hi hw
      rwa [show va + (wordBytes w₀).length + 4 * i = va + 4 * (i + 1) by
        simp only [wordBytes, List.length_map, List.length_cons, List.length_nil]; omega] at hword

end Bytes

/-! ### The stack -/

/-- **The arguments on the stack page**: the strings, and below them the vector with its three
words. -/
structure Laid (g : ℕ) (argv : List (List UInt8)) (d : PageDir) (m : Kmem) : Prop where
  vector : m.Has d ((g + 2) * PGSIZE - argvSize argv)
    ((ustack ((g + 2) * PGSIZE - stringsSize argv) (argPtrs argv ((g + 2) * PGSIZE))).flatMap
      wordBytes)
  string : ∀ i arg, argv[i]? = some arg →
    m.Has d ((g + 2) * PGSIZE - stringsSize (argv.take (i + 1))) (arg ++ [0])

section Push

variable {g : ℕ} {d : PageDir}

/-- **The loop over the arguments** when they fit, by induction on them: the strings are at their
addresses, and what was above `sp` has not changed. -/
theorem pushArgs_stores (hg : g + 2 ≤ KERNPAGE) (hs : StackOk g d) :
    ∀ (argv : List (List UInt8)) (sp : ℕ) (ptrs : List ℕ) (m : Kmem),
      ptrs.length + argv.length ≤ MAXARG → sp % 4 = 0 → sp ≤ (g + 2) * PGSIZE →
      (g + 1) * PGSIZE + stringsSize argv ≤ sp →
      ∃ m', pushArgs d argv sp ptrs m =
          .ok (some (sp - stringsSize argv, ptrs ++ argPtrs argv sp), m') ∧
        (∀ x, sp ≤ x → x < (g + 2) * PGSIZE → m'.byte d x = m.byte d x) ∧
        ∀ i arg, argv[i]? = some arg →
          m'.Has d (sp - stringsSize (argv.take (i + 1))) (arg ++ [0]) := by
  intro argv
  induction argv with
  | nil =>
    intro sp ptrs m _ _ _ _
    refine ⟨m, ?_, fun _ _ _ => rfl, by simp⟩
    rw [pushArgs, argPtrs, List.append_nil, stringsSize_nil, Nat.sub_zero]
  | cons arg argv ih =>
    intro sp ptrs m hmax halign htop hfit
    rw [stringsSize_cons] at hfit
    rw [List.length_cons] at hmax
    have hlen := length_lt_argSize arg
    have hsp : argSp sp arg = sp - argSize arg :=
      argSp_eq halign (by omega) (htop.trans_lt (stack_lt_word hg))
    have hbuf : (arg ++ [0]).length = arg.length + 1 := by simp
    have hcopy := @copyout_top g d m (sp - argSize arg) (arg ++ [0]) hg hs (by simp) (by omega)
      (by omega)
    obtain ⟨m', hpush, hkeep, hstr⟩ := ih (sp - argSize arg) (ptrs ++ [sp - argSize arg])
      (m.write (d.entry (g + 1)).addr ((sp - argSize arg) % PGSIZE) (arg ++ [0]))
      (by rw [List.length_append, List.length_singleton]; omega)
        (by unfold argSize; omega) (by omega)
      (by omega)
    refine ⟨m', ?_, fun x hx hx' => ?_, fun i a hi => ?_⟩
    · rw [pushArgs_cons (by omega), hsp, hcopy]
      simp only [Except.ok_bind, ↓reduceIte]
      rw [hpush, List.append_assoc, stringsSize_cons, Nat.sub_sub]
      rfl
    · rw [hkeep x (by omega) hx', byte_write_above (by omega) (by omega) (by simp) (by omega) hx']
    · cases i with
      | zero =>
        obtain rfl : arg = a := by simpa using hi
        have hhas := @has_write g (sp - argSize arg) (arg ++ [0]) d m (by omega)
          (by omega) (by simp)
        exact hhas.of_byte fun x hx hx' => hkeep x hx (by omega)
      | succ i =>
        rw [List.take_succ_cons, stringsSize_cons, ← Nat.sub_sub]
        exact hstr i a (by simpa using hi)

/-- **Arguments that fit are laid out on the stack.** -/
theorem pushStack_lays (hg : g + 2 ≤ KERNPAGE) (hs : StackOk g d) {argv : List (List UInt8)}
    (hargc : argv.length ≤ MAXARG) (hfit : argvSize argv ≤ PGSIZE) (m : Kmem) :
    ∃ m', pushStack argv ((g + 2) * PGSIZE) d m =
      .ok (some ((g + 2) * PGSIZE - argvSize argv), m') ∧
      Laid g argv d m' := by
  have htop : (g + 2) * PGSIZE = (g + 1) * PGSIZE + PGSIZE := Nat.succ_mul (g + 1) PGSIZE
  have hword : (g + 2) * PGSIZE % 4 = 0 := by
    simp only [PGSIZE]
    omega
  unfold argvSize at hfit
  obtain ⟨m₁, hpush, -, hstr⟩ := pushArgs_stores hg hs argv ((g + 2) * PGSIZE) [] m
    (by simpa using hargc) hword (le_refl _) (by omega)
  rw [List.nil_append] at hpush
  have hlen : (argPtrs argv ((g + 2) * PGSIZE)).length = argv.length := argPtrs_length _ _
  have hsp : sub32 ((g + 2) * PGSIZE - stringsSize argv) ((3 + argv.length + 1) * 4) =
      (g + 2) * PGSIZE - argvSize argv := by
    have hlt := stack_lt_word hg
    rw [sub32_of_le (by omega) (by omega), Nat.sub_sub]
    rfl
  have hsize : argvSize argv = stringsSize argv + (3 + argv.length + 1) * 4 := rfl
  have hbuf := ustack_length ((g + 2) * PGSIZE - stringsSize argv) (argPtrs argv ((g + 2) * PGSIZE))
  have hne := ustack_ne_nil ((g + 2) * PGSIZE - stringsSize argv) (argPtrs argv ((g + 2) * PGSIZE))
  have hlo : (g + 1) * PGSIZE ≤ (g + 2) * PGSIZE - argvSize argv := by omega
  have hcopy := copyout_top (m := m₁) hg hs hne hlo (by omega)
  refine ⟨m₁.write _ _ _, ?_, has_write hlo (by omega) hne,
    fun i arg hi => (hstr i arg hi).of_byte fun x hx hx' => ?_⟩
  · unfold pushStack
    rw [hpush]
    simp only [Except.ok_bind, hlen, hsp, hcopy, ↓reduceIte]
    rfl
  · -- the vector is below all strings
    have hle := stringsSize_take_le_self (i + 1) argv
    have htake := stringsSize_take hi
    have hsize' := length_lt_argSize arg
    have hbuf' : (arg ++ [0]).length = arg.length + 1 := by simp
    exact byte_write_above hlo (by omega) hne (by omega) (by omega)

/-- With arguments that fit, a program that has an image gets it. -/
theorem HasImage.load {limit sz : ℕ} {ip : File} (hi : HasImage limit ip m sz)
    (hlim : limit ≤ KERNBASE) (hlink : m.LinkOk) (hm : m.FreeOk) {argv : List (List UInt8)}
    (hargc : argv.length ≤ MAXARG) (hfit : argvSize argv ≤ PGSIZE) :
    ∃ image m', loadImage limit ip argv m = .ok (some image, m') := by
  obtain ⟨eip, l, d, m₁, hstart, hs, -⟩ := hi.start hlim hlink hm
  obtain ⟨m₂, hpush, -⟩ := pushStack_lays (stackTop_lt hlim hi.room) hs hargc hfit m₁
  rw [loadImage_eq, hstart, Except.ok_bind, finishImage]
  simp only [stackTop, hpush]
  exact ⟨_, _, rfl⟩

end Push

/-! ### The view of the program -/

/-- `argv[i]`, from the stack pointer that `main` is entered with. -/
def Kmem.argAt (m : Kmem) (d : PageDir) (sp i : ℕ) : ℕ := m.word d (m.word d (sp + 8) + 4 * i)

/-- **The arguments as `main(argc, argv)` finds them.** The stack is mapped for the user. Above a
return address that no call has are `argc` and `argv`. The vector has an aligned pointer for each
string and ends with a null pointer. Each pointer leads to the string and its `NUL`. The three
words, the vector and the strings, from the last one to the first, are one above the other. -/
structure Delivered (argv : List (List UInt8)) (top sp : ℕ) (d : PageDir) (m : Kmem) : Prop where
  aligned : sp % 4 = 0
  mapped : ∀ va, sp ≤ va → va < top →
    (d.entry (va / PGSIZE)).p = true ∧ (d.entry (va / PGSIZE)).u = true
  ret : m.word d sp = 0xffffffff
  argc : m.word d (sp + 4) = argv.length
  vector : m.word d (sp + 8) = sp + 12
  null : m.argAt d sp argv.length = 0
  pointer : ∀ i, i < argv.length → m.argAt d sp i % 4 = 0
  string : ∀ i arg, argv[i]? = some arg → m.Has d (m.argAt d sp i) (arg ++ [0])
  above : ∀ i, i < argv.length → m.word d (sp + 8) + 4 * (argv.length + 1) ≤ m.argAt d sp i
  inside : ∀ i arg, argv[i]? = some arg → m.argAt d sp i + (arg.length + 1) ≤ top
  apart : ∀ i j arg, i < j → argv[j]? = some arg →
    m.argAt d sp j + (arg.length + 1) ≤ m.argAt d sp i

namespace Laid

variable {g : ℕ} {argv : List (List UInt8)} {d : PageDir} {m m' : Kmem}

/-- Only the stack page matters. -/
theorem of_mem (h : Laid g argv d m) (hfit : argvSize argv ≤ PGSIZE)
    (hmem : m'.mem (d.entry (g + 1)).addr = m.mem (d.entry (g + 1)).addr) : Laid g argv d m' := by
  have htop : (g + 2) * PGSIZE = (g + 1) * PGSIZE + PGSIZE := Nat.succ_mul (g + 1) PGSIZE
  have hsize : argvSize argv = stringsSize argv + (3 + argv.length + 1) * 4 := rfl
  have hbyte : ∀ x, (g + 1) * PGSIZE ≤ x → x < (g + 2) * PGSIZE → m'.byte d x = m.byte d x := by
    intro x hx hx'
    have hdiv : x / PGSIZE = g + 1 := by
      simp only [PGSIZE] at *
      omega
    unfold Kmem.byte
    rw [hdiv, hmem]
  refine ⟨h.vector.of_byte fun x hx hx' => hbyte x (by omega) ?_,
    fun i arg hi => (h.string i arg hi).of_byte fun x hx hx' => hbyte x ?_ ?_⟩
  · rw [ustack_length, argPtrs_length] at hx'
    omega
  · have := stringsSize_take_le_self (i + 1) argv
    omega
  · have := stringsSize_take_le_self (i + 1) argv
    have := stringsSize_take hi
    have := length_lt_argSize arg
    rw [List.length_append, List.length_singleton] at hx'
    omega

/-- The word `i` of the vector and its header. -/
theorem word (h : Laid g argv d m) {i w : ℕ}
    (hi : (ustack ((g + 2) * PGSIZE - stringsSize argv)
      (argPtrs argv ((g + 2) * PGSIZE)))[i]? = some w)
    (hw : w < WORD) : m.word d ((g + 2) * PGSIZE - argvSize argv + 4 * i) = w :=
  word_of_has_array _ h.vector hi hw

/-- **What is laid out is delivered.** -/
theorem delivered (h : Laid g argv d m) (hg : g + 2 ≤ KERNPAGE) (hs : StackOk g d)
    (hargc : argv.length ≤ MAXARG) (hfit : argvSize argv ≤ PGSIZE) :
    Delivered argv ((g + 2) * PGSIZE) ((g + 2) * PGSIZE - argvSize argv) d m := by
  have htop : (g + 2) * PGSIZE = (g + 1) * PGSIZE + PGSIZE := Nat.succ_mul (g + 1) PGSIZE
  have hlt := stack_lt_word hg
  have hsize : argvSize argv = stringsSize argv + (3 + argv.length + 1) * 4 := rfl
  have hword : (g + 2) * PGSIZE % 4 = 0 := by
    simp only [PGSIZE]
    omega
  have hmod := stringsSize_mod argv
  have hlen := argPtrs_length argv ((g + 2) * PGSIZE)
  have hmax : MAXARG < WORD := by decide
  have hvector : m.word d ((g + 2) * PGSIZE - argvSize argv + 8) =
      (g + 2) * PGSIZE - argvSize argv + 12 := by
    have hsub : sub32 ((g + 2) * PGSIZE - stringsSize argv)
        (((argPtrs argv ((g + 2) * PGSIZE)).length + 1) * 4) =
        (g + 2) * PGSIZE - argvSize argv + 12 := by
      rw [hlen, sub32_of_le (by omega) (by omega)]
      omega
    rw [← hsub]
    exact h.word (i := 2) rfl (sub32_lt _ _)
  have hptr : ∀ i, i < argv.length → m.argAt d ((g + 2) * PGSIZE - argvSize argv) i =
      (g + 2) * PGSIZE - stringsSize (argv.take (i + 1)) := by
    intro i hi
    have hget : (ustack ((g + 2) * PGSIZE - stringsSize argv)
        (argPtrs argv ((g + 2) * PGSIZE)))[3 + i]? =
        some ((g + 2) * PGSIZE - stringsSize (argv.take (i + 1))) := by
      rw [ustack, List.append_assoc, List.getElem?_append_right (by simp)]
      simp only [List.length_cons, List.length_nil]
      rw [Nat.add_sub_cancel_left, List.getElem?_append_left (by rw [hlen]; exact hi)]
      exact argPtrs_getElem argv _ i hi
    unfold Kmem.argAt
    rw [hvector, ← h.word hget (by omega)]
    congr 1
    omega
  have hnull : m.argAt d ((g + 2) * PGSIZE - argvSize argv) argv.length = 0 := by
    have hget : (ustack ((g + 2) * PGSIZE - stringsSize argv)
        (argPtrs argv ((g + 2) * PGSIZE)))[3 + argv.length]? = some 0 := by
      have hhead : ([0xffffffff, (argPtrs argv ((g + 2) * PGSIZE)).length,
          sub32 ((g + 2) * PGSIZE - stringsSize argv)
            (((argPtrs argv ((g + 2) * PGSIZE)).length + 1) * 4)] ++
          argPtrs argv ((g + 2) * PGSIZE)).length = 3 + argv.length := by
        rw [List.length_append, hlen]
        rfl
      rw [ustack, List.getElem?_append_right hhead.le, hhead, Nat.sub_self]
      rfl
    unfold Kmem.argAt
    rw [hvector, ← h.word hget (by decide)]
    congr 1
    omega
  refine ⟨by omega, fun va h₁ h₂ => ?_, ?_, ?_, hvector, hnull, fun i hi => ?_, fun i arg hi => ?_,
    fun i hi => ?_, fun i arg hi => ?_, fun i j arg hij hj => ?_⟩
  · have hdiv : va / PGSIZE = g + 1 := by
      simp only [PGSIZE] at *
      omega
    rw [hdiv]
    exact ⟨hs.present _ (by omega), hs.top_u⟩
  · exact h.word (i := 0) rfl (by decide)
  · rw [← hlen]
    exact h.word (i := 1) rfl (by omega)
  · have := stringsSize_mod (argv.take (i + 1))
    rw [hptr i hi]
    omega
  · rw [hptr i (List.getElem?_eq_some_iff.mp hi).1]
    exact h.string i arg hi
  · have := stringsSize_take_le_self (i + 1) argv
    rw [hptr i hi, hvector]
    omega
  · have := stringsSize_take_le_self (i + 1) argv
    have := stringsSize_take hi
    have := length_lt_argSize arg
    rw [hptr i (List.getElem?_eq_some_iff.mp hi).1]
    omega
  · -- a string is below all those before it
    have hjlt := (List.getElem?_eq_some_iff.mp hj).1
    have := stringsSize_take_le_self (j + 1) argv
    have := stringsSize_take hj
    have := stringsSize_take_le (show i + 1 ≤ j by omega) argv
    have := length_lt_argSize arg
    rw [hptr i (by omega), hptr j hjlt]
    omega

end Laid

end Xv6
