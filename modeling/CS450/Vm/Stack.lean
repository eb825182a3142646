import CS450.Vm.Exec

/-!
# The stack of a new image

`exec` puts two pages on top of the segments, a guard that is not for the user and the stack, and
copies the arguments downwards onto the stack. The lengths of the strings are the caller's choice,
so `sp` can end up in the guard, below it, or, when a string is longer than the whole image, far
above: `sp` is a `uint`. A string that begins below the stack page still reaches up into the guard,
where `copyout` refuses it. Only a string that wraps around is not stopped by the guard.
-/

namespace Xv6

open Except (Meets)

/-! ### The parts of `exec` around the stack -/

/-- The part of `buildStack` before the arguments: the top of the stack, or `none` for `goto
bad`. -/
def stackPages (limit sz : ℕ) (pgdir : PageDir) (m : Kmem) :
    Except Fault (Option ℕ × PageDir × Kmem) := do
  let sz := PGROUNDUP sz
  let (sz, pgdir, m) ← allocuvm limit pgdir sz (add32 sz (2 * PGSIZE)) m
  if sz = 0 then return (none, pgdir, m)
  else
    let pgdir ← clearpteu pgdir (sub32 sz (2 * PGSIZE)) m
    return (some sz, pgdir, m)

/-- The part of `buildStack` that pushes the arguments: the stack pointer. -/
def pushStack (argv : List (List UInt8)) (top : ℕ) (pgdir : PageDir) (m : Kmem) :
    Except Fault (Option ℕ × Kmem) := do
  let (pushed, m) ← pushArgs pgdir argv top [] m
  match pushed with
  | none => return (none, m)
  | some (sp, ptrs) =>
    let buf := (ustack sp ptrs).flatMap wordBytes
    let sp := sub32 sp ((3 + ptrs.length + 1) * 4)
    let (ok, m) ← copyout pgdir sp buf m
    return (if ok then some sp else none, m)

/-- An image to which the arguments are still to be added: where it starts, the top of its stack and
its page directory. -/
structure Start where
  eip : ℕ
  top : ℕ
  pgdir : PageDir

/-- `exec` up to the arguments; `none` when it goes to `bad`. -/
def startImage (limit : ℕ) (ip : File) (m : Kmem) : Except Fault (Option Start × Kmem) :=
  match readi ip 0 sizeofElfhdr with
  | none => .ok (none, m)
  | some bytes =>
    let elf := Elfhdr.ofBytes bytes
    if bytes.length ≠ sizeofElfhdr ∨ elf.magic ≠ ELF_MAGIC then .ok (none, m)
    else do
      let (pgdir, m) ← setupkvm m
      match pgdir with
      | none => return (none, m)
      | some pgdir =>
        let (sz, pgdir, m) ← loadSegments limit ip elf.phnum elf.phoff 0 pgdir m
        let (top, pgdir, m) ←
          match sz with
          | none => pure (none, pgdir, m)
          | some sz => stackPages limit sz pgdir m
        match top with
        | none =>
          let m ← freevm (some pgdir) m
          return (none, m)
        | some top => return (some ⟨elf.entry, top, pgdir⟩, m)

/-- `exec` from there up to the commit. -/
def finishImage (argv : List (List UInt8)) :
    Option Start × Kmem → Except Fault (Option Image × Kmem)
  | (none, m) => .ok (none, m)
  | (some s, m) => do
    let (sp, m) ← pushStack argv s.top s.pgdir m
    match sp with
    | none =>
      let m ← freevm (some s.pgdir) m
      return (none, m)
    | some sp => return (some ⟨s.pgdir, s.top, s.eip, sp⟩, m)

theorem buildStack_eq (limit : ℕ) (argv : List (List UInt8)) (sz : ℕ) (pgdir : PageDir) (m : Kmem) :
    buildStack limit argv sz pgdir m = stackPages limit sz pgdir m >>= fun r => r.1.elim
      (.ok (none, r.2.1, r.2.2)) fun top =>
        (pushStack argv top r.2.1 r.2.2).map fun q =>
          (q.1.map fun sp => (top, sp), r.2.1, q.2) := by
  unfold buildStack stackPages pushStack
  dsimp only
  cases allocuvm limit pgdir (PGROUNDUP sz) (add32 (PGROUNDUP sz) (2 * PGSIZE)) m with
  | error f => rfl
  | ok r =>
    obtain ⟨sz, d, m⟩ := r
    simp only [Except.ok_bind]
    split
    · rfl
    cases clearpteu d (sub32 sz (2 * PGSIZE)) m with
    | error f => rfl
    | ok d =>
      simp only [Except.ok_bind, pure_bind, Option.elim_some]
      cases pushArgs d argv sz [] m with
      | error f => rfl
      | ok pushed =>
        obtain ⟨_ | ⟨sp, ptrs⟩, m⟩ := pushed
        · rfl
        simp only [Except.ok_bind]
        cases copyout d (sub32 sp ((3 + ptrs.length + 1) * 4))
          ((ustack sp ptrs).flatMap wordBytes) m with
        | error f => rfl
        | ok r =>
          obtain ⟨_ | _, m⟩ := r <;> rfl

/-- **The two parts of `loadImage`**: only the second one depends on the arguments. -/
theorem loadImage_eq (limit : ℕ) (ip : File) (argv : List (List UInt8)) (m : Kmem) :
    loadImage limit ip argv m = startImage limit ip m >>= finishImage argv := by
  unfold loadImage startImage
  cases readi ip 0 sizeofElfhdr with
  | none => rfl
  | some bytes =>
    simp only
    split
    · rfl
    cases setupkvm m with
    | error f => rfl
    | ok r =>
      obtain ⟨_ | d, m⟩ := r
      · rfl
      simp only [Except.ok_bind, buildImage]
      cases loadSegments limit ip (Elfhdr.ofBytes bytes).phnum
        (Elfhdr.ofBytes bytes).phoff 0 d m with
      | error f => rfl
      | ok r =>
        obtain ⟨_ | sz, d, m⟩ := r
        · simp only [Except.ok_bind, pure_bind]
          cases freevm (some d) m <;> rfl
        simp only [Except.ok_bind, buildStack_eq]
        cases stackPages limit sz d m with
        | error f => rfl
        | ok r =>
          obtain ⟨_ | top, d, m⟩ := r
          · simp only [Except.ok_bind, Option.elim_none]
            cases freevm (some d) m <;> rfl
          simp only [Except.ok_bind, Option.elim_some, pure_bind, finishImage]
          cases pushStack argv top d m with
          | error f => rfl
          | ok r =>
            obtain ⟨_ | sp, m⟩ := r <;> rfl

/-! ### Copies onto the stack -/

section Stack

variable {g : ℕ} {d : PageDir} {m : Kmem}

theorem sub32_of_le {a b : ℕ} (hb : b ≤ a) (ha : a < WORD) : sub32 a b = a - b := by
  simp only [sub32, WORD] at *
  omega

theorem pages_mul (v : ℕ) : pages (v * PGSIZE) = v := by
  simp only [pages, PGSIZE]
  omega

variable {v sp : ℕ} {arg : List UInt8}

theorem stack_lt_word (hv : v ≤ KERNPAGE) : v * PGSIZE < WORD := by
  simp only [KERNPAGE, PGSIZE, WORD] at *
  omega

/-- The pages up to the stack are there. The last two are a guard that is not for the user, and the
stack. -/
structure StackOk (g : ℕ) (d : PageDir) : Prop where
  present : ∀ v, v < g + 2 → (d.entry v).p = true
  guard_u : (d.entry g).u = false
  top_u : (d.entry (g + 1)).u = true

/-- `uva2ka` of a page that is present. -/
theorem uva2ka_present (hv : v < KERNPAGE) (hp : (d.entry v).p = true) :
    uva2ka d (v * PGSIZE) m = .ok (if (d.entry v).u then some (d.entry v).addr else none) := by
  have hdiv : v * PGSIZE / PGSIZE = v := Nat.mul_div_cancel v (by decide)
  obtain ⟨t, ht⟩ := PageDir.exists_table_of_present hp
  unfold uva2ka
  rw [walkpgdir_find_addr d (by simp only [WORD, KERNPAGE, PGSIZE] at *; omega), hdiv, ht]
  change (if !(d.entry v).p then _ else if !(d.entry v).u then _ else
    Except.ok (some (d.entry v).addr)) = _
  rw [hp]
  cases (d.entry v).u <;> rfl

/-- Bytes that go into the stack page. -/
theorem copyout_top {va : ℕ} {buf : List UInt8} (hg : g + 2 ≤ KERNPAGE) (hs : StackOk g d)
    (hne : buf ≠ []) (hlo : (g + 1) * PGSIZE ≤ va) (hhi : va + buf.length ≤ (g + 2) * PGSIZE) :
    copyout d va buf m = .ok (true, m.write (d.entry (g + 1)).addr (va % PGSIZE) buf) := by
  have hlen : 0 < buf.length := List.length_pos_iff.mpr hne
  have hdiv : va / PGSIZE = g + 1 := by
    simp only [PGSIZE] at *
    omega
  refine copyout_page hne (by simp only [PGSIZE] at *; omega) ?_
  unfold PGROUNDDOWN
  rw [hdiv, uva2ka_present (by omega) (hs.present _ (by omega)), hs.top_u]
  rfl

/-- **The guard stops a copy** that begins below the stack page and reaches it, by induction on the
bound of the iterations. The pages on the way are present, so no entry is missing. -/
theorem copyoutLoop_guard (hg : g + 2 ≤ KERNPAGE) (hs : StackOk g d) :
    ∀ (fuel va : ℕ) (buf : List UInt8) (m : Kmem), va < (g + 1) * PGSIZE →
      g * PGSIZE < va + buf.length → buf ≠ [] → va % PGSIZE + buf.length ≤ fuel * PGSIZE →
      ∃ m', copyoutLoop d fuel va buf m = .ok (false, m') := by
  intro fuel
  induction fuel with
  | zero =>
    intro va buf m _ _ hne hfuel
    have := List.length_pos_iff.mpr hne
    omega
  | succ fuel ih =>
    intro va buf m hlt hreach hne hfuel
    have hv : va / PGSIZE ≤ g := by
      simp only [PGSIZE] at *
      omega
    have hva := Nat.div_add_mod va PGSIZE
    have hoff : va - va / PGSIZE * PGSIZE = va % PGSIZE := by rw [Nat.mul_comm] at hva; omega
    rw [copyoutLoop, if_neg (by simpa using hne)]
    simp only [PGROUNDDOWN, uva2ka_present (by omega : va / PGSIZE < KERNPAGE)
      (hs.present (va / PGSIZE) (by omega)), Except.ok_bind]
    cases hu : (d.entry (va / PGSIZE)).u with
    | false => exact ⟨m, rfl⟩
    | true =>
      -- a page for the user is below the guard, and the copy goes on
      have hne' : va / PGSIZE ≠ g := by
        intro he
        rw [he, hs.guard_u] at hu
        cases hu
      have hpage : add32 (va / PGSIZE * PGSIZE) PGSIZE = (va / PGSIZE + 1) * PGSIZE := by
        simp only [add32, PGSIZE, WORD, KERNPAGE] at *
        omega
      have hmin : min (PGSIZE - va % PGSIZE) buf.length = PGSIZE - va % PGSIZE := by
        simp only [PGSIZE] at *
        omega
      have hrest : buf.length - (PGSIZE - va % PGSIZE) + (va / PGSIZE + 1) * PGSIZE =
          va + buf.length := by
        simp only [PGSIZE] at *
        omega
      simp only [↓reduceIte, hoff, hmin, hpage]
      have hmul := Nat.mul_le_mul_right PGSIZE (show va / PGSIZE + 1 ≤ g by omega)
      have hsucc : (g + 1) * PGSIZE = g * PGSIZE + PGSIZE := Nat.succ_mul g PGSIZE
      refine ih _ _ _ (by omega) ?_ ?_ ?_
      · rw [List.length_drop]
        omega
      · rw [← List.length_pos_iff, List.length_drop]
        omega
      · rw [List.length_drop, Nat.mul_mod_left]
        rw [Nat.succ_mul] at hfuel
        omega

/-- **A copy onto the stack** succeeds when it begins in the stack page, and fails otherwise. -/
theorem copyout_stack {va : ℕ} {buf : List UInt8} (hg : g + 2 ≤ KERNPAGE) (hs : StackOk g d)
    (hne : buf ≠ []) (hlo : va < (g + 1) * PGSIZE → g * PGSIZE < va + buf.length)
    (hhi : va + buf.length ≤ (g + 2) * PGSIZE) (m : Kmem) :
    ∃ m', copyout d va buf m = .ok (decide ((g + 1) * PGSIZE ≤ va), m') := by
  by_cases hlt : va < (g + 1) * PGSIZE
  · rw [decide_eq_false (by omega)]
    refine copyoutLoop_guard hg hs _ va buf m hlt (hlo hlt) hne ?_
    simp only [PGSIZE] at *
    omega
  · rw [decide_eq_true (by omega), copyout_top hg hs hne (by omega) hhi]
    exact ⟨_, rfl⟩

/-! ### Pushing -/

/-- `sp` after a string has been pushed. -/
def argSp (sp : ℕ) (arg : List UInt8) : ℕ := sub32 sp (arg.length + 1) / 4 * 4

/-- **No string wraps around.** As long as `sp` is in the stack page, that is not below `base`, the
next string is not longer than what is below `sp`. -/
def NoWrap (base : ℕ) : List (List UInt8) → ℕ → Prop
  | [], _ => True
  | arg :: argv, sp =>
    arg.length + 1 ≤ sp ∧ (base ≤ argSp sp arg → NoWrap base argv (argSp sp arg))

/-- Strings of at most a page never wrap around. -/
theorem noWrap_of_le {base : ℕ} :
    ∀ (argv : List (List UInt8)) (sp : ℕ), base ≤ sp → (∀ arg ∈ argv, arg.length + 1 ≤ base) →
      NoWrap base argv sp := by
  intro argv
  induction argv with
  | nil => exact fun _ _ _ => trivial
  | cons arg argv ih =>
    intro sp hsp hle
    refine ⟨(hle arg List.mem_cons_self).trans hsp, fun hbase => ?_⟩
    exact ih _ hbase fun a ha => hle a (List.mem_cons_of_mem arg ha)

theorem argSp_of_le (hle : arg.length + 1 ≤ sp) (hsp : sp < WORD) :
    argSp sp arg = (sp - (arg.length + 1)) / 4 * 4 := by
  rw [argSp, sub32_of_le hle hsp]

theorem pushArgs_cons {argv : List (List UInt8)} {ptrs : List ℕ} (hlt : ptrs.length < MAXARG) :
    pushArgs d (arg :: argv) sp ptrs m = copyout d (argSp sp arg) (arg ++ [0]) m >>= fun r =>
      if r.1 then pushArgs d argv (argSp sp arg) (ptrs ++ [argSp sp arg]) r.2
      else pure (none, r.2) := by
  rw [pushArgs, if_neg (by omega)]
  rfl

/-- One push, from a stack pointer in the stack page. -/
theorem copyout_arg (hg : g + 2 ≤ KERNPAGE) (hs : StackOk g d)
    (hbase : (g + 1) * PGSIZE ≤ sp) (htop : sp ≤ (g + 2) * PGSIZE) (hle : arg.length + 1 ≤ sp)
    (m : Kmem) :
    argSp sp arg + (arg.length + 1) ≤ sp ∧
      ∃ m', copyout d (argSp sp arg) (arg ++ [0]) m =
          .ok (decide ((g + 1) * PGSIZE ≤ argSp sp arg), m') := by
  have hsp := argSp_of_le hle (htop.trans_lt (stack_lt_word hg))
  have hend : argSp sp arg + (arg.length + 1) ≤ sp := by
    omega
  have hlen : (arg ++ [0]).length = arg.length + 1 := by simp
  refine ⟨hend, copyout_stack hg hs (by simp) (fun _ => ?_) (by omega) m⟩
  simp only [PGSIZE] at *
  omega

/-- **The arguments**, by induction on them: `sp` stays in the stack page, or the loop ends. -/
theorem pushArgs_total (hg : g + 2 ≤ KERNPAGE) (hs : StackOk g d) :
    ∀ (argv : List (List UInt8)) (sp : ℕ) (ptrs : List ℕ) (m : Kmem), ptrs.length ≤ MAXARG →
      (g + 1) * PGSIZE ≤ sp → sp ≤ (g + 2) * PGSIZE → NoWrap ((g + 1) * PGSIZE) argv sp →
      ∃ r m', pushArgs d argv sp ptrs m = .ok (r, m') ∧
        ∀ sp' ptrs', r = some (sp', ptrs') → ptrs'.length ≤ MAXARG ∧ (g + 1) * PGSIZE ≤ sp' ∧
          sp' ≤ (g + 2) * PGSIZE := by
  intro argv
  induction argv with
  | nil =>
    intro sp ptrs m hptrs hbase htop _
    refine ⟨_, _, rfl, fun sp' ptrs' he => ?_⟩
    cases he
    exact ⟨hptrs, hbase, htop⟩
  | cons arg argv ih =>
    intro sp ptrs m hptrs hbase htop hwrap
    by_cases hmax : MAXARG ≤ ptrs.length
    · rw [pushArgs, if_pos hmax]
      exact ⟨_, _, rfl, by simp⟩
    · obtain ⟨hend, m', hc⟩ := copyout_arg hg hs hbase htop hwrap.1 m
      rw [pushArgs_cons (by omega), hc]
      simp only [Except.ok_bind, decide_eq_true_eq]
      split
      · next hin =>
        refine ih _ _ _ ?_ hin (by omega) (hwrap.2 hin)
        rw [List.length_append, List.length_singleton]
        omega
      · exact ⟨_, _, rfl, by simp⟩

theorem ustack_length (sp : ℕ) (ptrs : List ℕ) :
    ((ustack sp ptrs).flatMap wordBytes).length = (3 + ptrs.length + 1) * 4 := by
  have hword : ∀ w, (wordBytes w).length = 4 := fun w => rfl
  simp only [List.length_flatMap, hword, List.map_const', List.sum_replicate, smul_eq_mul]
  simp [ustack]
  omega

theorem ustack_ne_nil (sp : ℕ) (ptrs : List ℕ) : (ustack sp ptrs).flatMap wordBytes ≠ [] := by
  rw [← List.length_pos_iff, ustack_length]
  omega

/-- The vector of the pointers is small: `sp` does not wrap around. -/
theorem vector_sp (hg : g + 2 ≤ KERNPAGE) {n : ℕ} (hbase : (g + 1) * PGSIZE ≤ sp)
    (htop : sp ≤ (g + 2) * PGSIZE) (hn : n ≤ MAXARG) :
    (3 + n + 1) * 4 ≤ sp ∧ sub32 sp ((3 + n + 1) * 4) = sp - (3 + n + 1) * 4 := by
  have hle : (3 + n + 1) * 4 ≤ sp := by
    simp only [PGSIZE, MAXARG] at *
    omega
  exact ⟨hle, sub32_of_le hle (htop.trans_lt (stack_lt_word hg))⟩

/-- The copy of the vector, from a stack pointer in the stack page. -/
theorem copyout_vector (hg : g + 2 ≤ KERNPAGE) (hs : StackOk g d) {ptrs : List ℕ}
    (hbase : (g + 1) * PGSIZE ≤ sp) (htop : sp ≤ (g + 2) * PGSIZE) (hptrs : ptrs.length ≤ MAXARG)
    (m : Kmem) :
    ∃ m', copyout d (sub32 sp ((3 + ptrs.length + 1) * 4)) ((ustack sp ptrs).flatMap wordBytes) m =
        .ok (decide ((g + 1) * PGSIZE ≤ sub32 sp ((3 + ptrs.length + 1) * 4)), m') := by
  obtain ⟨hle, hsub⟩ := vector_sp hg hbase htop hptrs
  refine copyout_stack hg hs (ustack_ne_nil sp ptrs) (fun _ => ?_) (by rw [ustack_length]; omega) m
  rw [ustack_length]
  simp only [PGSIZE] at *
  omega

/-- **Pushing the arguments** writes pages of the image only, and returns when none of them wraps
around. -/
theorem pushStack_spec (hg : g + 2 ≤ KERNPAGE) (hs : StackOk g d) (argv : List (List UInt8))
    {K : ℕ → Prop} {hi : ℕ} {l : List ℕ} {m₀ : Kmem} (h : Draft K hi l d m₀ m) :
    Meets (NoWrap ((g + 1) * PGSIZE) argv ((g + 2) * PGSIZE)) (fun r => Draft K hi l d m₀ r.2)
      (pushStack argv ((g + 2) * PGSIZE) d m) := by
  unfold pushStack
  refine ⟨fun hwrap => ?_, fun r hok => ?_⟩
  · obtain ⟨pushed, m₁, hpush, hpushed⟩ := pushArgs_total hg hs argv ((g + 2) * PGSIZE) [] m
      (Nat.zero_le _) (Nat.mul_le_mul_right _ (by omega)) (le_refl _) hwrap
    rw [hpush]
    cases pushed with
    | none => exact ⟨_, rfl⟩
    | some q =>
      obtain ⟨sp, ptrs⟩ := q
      obtain ⟨hptrs, hbase, htop⟩ := hpushed sp ptrs rfl
      obtain ⟨m₂, hcopy⟩ := copyout_vector hg hs hbase htop hptrs m₁
      simp only [hcopy, Except.ok_bind]
      exact ⟨_, rfl⟩
  · obtain ⟨⟨pushed, m₁⟩, hpush, hok⟩ := Except.bind_eq_ok.mp hok
    have h₁ := pushArgs_spec _ _ _ h hpush
    cases pushed with
    | none =>
      cases hok
      exact h₁
    | some q =>
      obtain ⟨⟨ok, m₂⟩, hcopy, hok⟩ := Except.bind_eq_ok.mp hok
      cases hok
      exact copyout_spec (sub32_lt _ _) h₁ hcopy

end Stack

/-! ### The two pages -/

/-- The top of the stack of an image with segments up to `sz`. -/
def stackTop (sz : ℕ) : ℕ := (pages sz + 2) * PGSIZE

section Pages

variable {limit sz : ℕ} {l : List ℕ} {d : PageDir} {m₀ m : Kmem}

theorem stackTop_lt (hlim : limit ≤ KERNBASE) (h : stackTop sz < limit) :
    pages sz + 2 ≤ KERNPAGE := by
  simp only [stackTop, PGSIZE, KERNPAGE, KERNBASE] at *
  omega

/-- **The two pages** on top of the segments: the stack, or a directory to be freed. -/
theorem stackPages_spec (hlim : limit ≤ KERNBASE) (hsz : sz ≤ KERNBASE)
    (h : Draft KernelTable (pages sz) l d m₀ m) :
    Meets m₀.FreeOk
      (fun r => (r.1 = none ∧ Accounted (pages sz) r.2.1 m₀ r.2.2 ∧
          (stackTop sz < limit → m₀.freelist.length < pagesFor (pages sz + 2))) ∨
        r.1 = some (stackTop sz) ∧ stackTop sz < limit ∧ StackOk (pages sz) r.2.1 ∧
          ∃ l', Draft KernelTable (pages sz + 2) l' r.2.1 m₀ r.2.2)
      (stackPages limit sz d m) := by
  have hpages := pages_le hsz
  -- two more pages do not wrap around
  have hadd : add32 (PGROUNDUP sz) (2 * PGSIZE) = stackTop sz := by
    rw [PGROUNDUP_eq hsz, add32,
      Nat.mod_eq_of_lt (by simp only [KERNPAGE, PGSIZE, WORD] at *; omega),
      ← Nat.add_mul]
    rfl
  have hmax : max (PGROUNDUP sz) (stackTop sz) = stackTop sz := by
    rw [PGROUNDUP_eq hsz]
    exact max_eq_right (Nat.mul_le_mul_right _ (by omega))
  have htop : pages (stackTop sz) = pages sz + 2 := pages_mul _
  have hpos : stackTop sz ≠ 0 := by
    simp only [stackTop, PGSIZE]
    omega
  have h' : Draft KernelTable (pages (PGROUNDUP sz)) l d m₀ m := by rwa [pages_PGROUNDUP hsz]
  unfold stackPages
  simp only [hadd]
  refine (h'.allocuvm hlim).bind ?_
  rw [hmax, htop, pages_PGROUNDUP hsz]
  rintro ⟨r, d₁, m₁⟩ (⟨rfl, hacc, hshort⟩ | ⟨hlt, rfl, ⟨l', h₁⟩, huser⟩)
  · exact .ok (.inl ⟨rfl, hacc, fun hlt => hshort hlt hpos⟩)
  · rw [htop] at h₁ huser
    have hg := stackTop_lt hlim hlt
    have hsub : sub32 (stackTop sz) (2 * PGSIZE) = pages sz * PGSIZE := by
      unfold stackTop
      rw [sub32_of_le (Nat.mul_le_mul_right _ (by omega)) (stack_lt_word hg), Nat.add_mul]
      omega
    obtain ⟨d₂, hclear, h₂, hent⟩ := clearpteu_spec (by omega) (h₁.present (pages sz) (by omega)) h₁
    simp only [if_neg hpos, hsub, hclear, Except.ok_bind]
    refine .ok (.inr ⟨rfl, hlt, ⟨h₂.present, ?_, ?_⟩, l', h₂⟩)
    · rw [hent, Function.update_self]
    · rw [hent, Function.update_of_ne (by omega)]
      exact huser (pages sz + 1) (by omega) (by omega)

end Pages

/-! ### The whole image -/

/-- The size of the segments of a program; `none` when its headers are not in order. -/
def imageSize (limit : ℕ) (ip : File) : Option ℕ :=
  match readi ip 0 sizeofElfhdr with
  | none => none
  | some bytes =>
    let elf := Elfhdr.ofBytes bytes
    if bytes.length ≠ sizeofElfhdr ∨ elf.magic ≠ ELF_MAGIC then none
    else imageSegments limit ip elf.phnum elf.phoff 0

/-- The program has an image below the limit, and there are the pages for it. -/
structure HasImage (limit : ℕ) (ip : File) (m : Kmem) (sz : ℕ) : Prop where
  size : imageSize limit ip = some sz
  room : stackTop sz < limit
  free : pagesFor (pages sz + 2) ≤ m.freelist.length

/-- The outcomes of `exec` up to the arguments: an image with a stack, or everything is free
again. -/
inductive StartResult (limit : ℕ) (ip : File) (m : Kmem) : Option Start × Kmem → Prop
  | started {sz eip l d m'} (hi : HasImage limit ip m sz) (hs : StackOk (pages sz) d)
      (h : Draft KernelTable (pages sz + 2) l d m m') :
      StartResult limit ip m (some ⟨eip, stackTop sz, d⟩, m')
  | failed {m'} (hno : ∀ sz, ¬ HasImage limit ip m sz) (h : Released m m') :
      StartResult limit ip m (none, m')

section Image

variable {limit : ℕ} {ip : File} {m : Kmem}

/-- **The image up to the stack**, whatever is in the file. -/
theorem startImage_spec (hlim : limit ≤ KERNBASE) (hlink : m.LinkOk) (ip : File) :
    Meets m.FreeOk (StartResult limit ip m) (startImage limit ip m) := by
  have hbad : imageSize limit ip = none → StartResult limit ip m (none, m) := fun hno =>
    .failed (fun sz hi => by rw [hi.size] at hno; cases hno) (.refl m)
  unfold startImage
  cases hread : readi ip 0 sizeofElfhdr with
  | none => exact .ok (hbad (by unfold imageSize; rw [hread]))
  | some bytes =>
    have hsize : imageSize limit ip =
        if bytes.length ≠ sizeofElfhdr ∨ (Elfhdr.ofBytes bytes).magic ≠ ELF_MAGIC then none
        else imageSegments limit ip (Elfhdr.ofBytes bytes).phnum
          (Elfhdr.ofBytes bytes).phoff 0 := by
      unfold imageSize
      rw [hread]
    simp only
    split
    · next hmagic => exact .ok (hbad (by rw [hsize, if_pos hmagic]))
    next hmagic =>
    rw [if_neg hmagic] at hsize
    refine ((setupkvm_spec hlink).mono .inl fun _ => id).bind ?_
    rintro _ (@⟨l, d, m₁, h₁⟩ | @⟨m₁, hrel, -, hshort⟩)
    swap
    · refine .ok (.failed (fun sz hi => ?_) hrel)
      have := hi.free
      have := pagesFor_mono (Nat.zero_le (pages sz + 2))
      omega
    -- from here on the directory is freed when something goes wrong
    have hfree : ∀ {hi : ℕ} {d : PageDir} {m' : Kmem}, hi ≤ KERNPAGE → Accounted hi d m m' →
        (∀ sz, ¬ HasImage limit ip m sz) → Meets m.FreeOk (StartResult limit ip m)
          (freevm (some d) m' >>= fun m'' => pure (none, m'')) := fun hhi hacc hno =>
      (hacc.freevm id hhi).bind fun _ hrel => .ok (.failed hno hrel.1)
    have h₁' : Draft KernelTable (pages 0) l d m m₁ := h₁
    refine (loadSegments_spec hlim _ _ h₁' (.inl rfl)).bind ?_
    rw [← hsize]
    rintro _ (@⟨sz, l₂, d₂, m₂, hsz, hlt, h₂⟩ | @⟨hi, d₂, m₂, hhi, hacc, hshort⟩)
    swap
    · refine hfree hhi hacc fun sz hi => ?_
      have := hshort sz hi.size
      have := hi.free
      have := pagesFor_mono (Nat.le_add_right (pages sz) 2)
      omega
    have hsz' : sz ≤ KERNBASE := by omega
    refine (stackPages_spec hlim hsz' h₂).bind ?_
    rintro ⟨r, d₃, m₃⟩ (⟨rfl, hacc, hshort⟩ | ⟨rfl, hroom, hs, l₃, h₃⟩)
    · refine hfree (pages_le hsz') hacc fun sz' hi => ?_
      obtain rfl : sz' = sz := Option.some.inj (hi.size.symm.trans hsz)
      exact absurd hi.free (Nat.not_le.mpr (hshort hi.room))
    · refine .ok (.started ⟨hsz, hroom, ?_⟩ hs h₃)
      rw [h₃.length_add (stackTop_lt hlim hroom)]
      exact Nat.le_add_right _ _

/-- The pages are enough for an image with a stack. -/
theorem HasImage.start {sz : ℕ} (hi : HasImage limit ip m sz) (hlim : limit ≤ KERNBASE)
    (hlink : m.LinkOk) (hm : m.FreeOk) :
    ∃ eip l d m', startImage limit ip m = .ok (some ⟨eip, stackTop sz, d⟩, m') ∧
      StackOk (pages sz) d ∧ Draft KernelTable (pages sz + 2) l d m m' := by
  obtain ⟨r, hok, hr⟩ := (startImage_spec hlim hlink ip).exists hm
  cases hr with
  | started hi' hs h =>
    obtain rfl := Option.some.inj (hi.size.symm.trans hi'.size)
    exact ⟨_, _, _, _, hok, hs, h⟩
  | failed hno => exact absurd hi (hno sz)

/-- No argument wraps around in the image of the program, if it gets one. -/
def FitsImage (limit : ℕ) (ip : File) (argv : List (List UInt8)) (m : Kmem) : Prop :=
  ∀ sz, HasImage limit ip m sz → NoWrap ((pages sz + 1) * PGSIZE) argv (stackTop sz)

/-- The outcomes of `exec` up to the commit: a finished image, which maps exactly its own memory, or
everything is free again. -/
inductive ImageResult (limit : ℕ) (m : Kmem) : Option Image × Kmem → Prop
  | made {image l m'} (hlt : image.sz < limit)
      (h : Draft KernelTable (pages image.sz) l image.pgdir m m') :
      ImageResult limit m (some image, m')
  | failed {m'} (h : Released m m') : ImageResult limit m (none, m')

/-- **The image**: everything up to the commit, whatever is in the file. It returns when no argument
wraps around. -/
theorem loadImage_spec (hlim : limit ≤ KERNBASE) (hlink : m.LinkOk) (ip : File)
    (argv : List (List UInt8)) :
    Meets (m.FreeOk ∧ FitsImage limit ip argv m) (ImageResult limit m)
      (loadImage limit ip argv m) := by
  rw [loadImage_eq]
  refine ((startImage_spec hlim hlink ip).mono (fun h => h.1) fun _ => id).bind ?_
  rintro _ (@⟨sz, eip, l, d, m₁, hi, hs, h⟩ | @⟨m₁, -, hrel⟩)
  · have hg := stackTop_lt hlim hi.room
    refine ((pushStack_spec hg hs argv h).mono (fun hC => hC.2 sz hi) fun _ => id).bind ?_
    rintro ⟨_ | sp, m₂⟩ h₂
    · refine (h₂.accounted.freevm (fun hC => hC.1) hg).bind fun m₃ hrel => ?_
      exact .ok (.failed hrel.1)
    · have h' : Draft KernelTable (pages (stackTop sz)) l d m m₂ := by
        rwa [stackTop, pages_mul]
      exact .ok (.made hi.room h')
  · exact .ok (.failed hrel)

end Image

end Xv6
