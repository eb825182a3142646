import CS450.User.FreeList
import CS450.Vm.Grow

/-!
# Large requests

`malloc` on a process of the kernel, where `sbrk` is the system call. Three conversions can wrap
around: the number of bytes is rounded up to units, the units are multiplied by the size of a
header, and the product is passed as an `int`. From `2 ^ 31 - 15` bytes on the argument of `sbrk` is
negative or zero. Then the call succeeds without more memory, or makes the process smaller, and the
header of the new block is behind the end of the process. The last seven sizes are rounded up to
zero.

## Main results

* `sbrk_spec`: `sbrk` of a positive `int` fails or gives memory behind the old end
* `malloc_correct_iff`: for which sizes `malloc` is correct in every state
-/

namespace Xv6.Umalloc

open Extent

/-! ### The kernel -/

/-- What a process has of memory, and the pages of the kernel. -/
structure Proc where
  sz : ℕ
  pgdir : PageDir
  kmem : Kmem

/-- What `growproc` does with the size that `allocuvm` or `deallocuvm` returns. -/
def Proc.resized (p : Proc) (sz : ℕ) (pgdir : PageDir) (m : Kmem) : ℤ × Proc :=
  if sz = 0 then (-1, ⟨p.sz, pgdir, m⟩) else (0, ⟨sz, pgdir, m⟩)

/-- `growproc`. A process that runs has a page directory and a kernel stack, for which `switchuvm`
asks. -/
def growproc (p : Proc) (n : ℤ) : Except Fault (ℤ × Proc) :=
  if 0 < n then do
    let (sz, pgdir, m) ← allocuvm KERNBASE p.pgdir p.sz (addInt32 p.sz n) p.kmem
    return p.resized sz pgdir m
  else if n < 0 then do
    let (sz, pgdir, m) ← deallocuvm p.pgdir p.sz (addInt32 p.sz n) p.kmem
    return p.resized sz pgdir m
  else return (0, p)

/-- `sys_sbrk` -/
def sysSbrk (p : Proc) (n : ℤ) : Except Fault (ℤ × Proc) := do
  let addr := p.sz
  let (r, p) ← growproc p n
  if r < 0 then return (-1, p) else return ((addr : ℤ), p)

/-- A word as `int`. -/
def toInt (n : ℕ) : ℤ := if n < 2 ^ 31 then n else n - 2 ^ 32

/-- The page of an address can be read and written by the process. -/
def userPage (d : PageDir) (a : ℕ) : Bool :=
  (d.entry (a / PGSIZE)).p && (d.entry (a / PGSIZE)).u && (d.entry (a / PGSIZE)).w

/-- **A process of the kernel.** -/
def kernel (base : ℕ) : Platform Proc where
  base := base
  mapped p a := userPage p.pgdir a && userPage p.pgdir (a + 7)
  sbrk n p :=
    match sysSbrk p (toInt n) with
    | .error f => .error (.kernel f)
    | .ok (r, p) => .ok (addInt32 0 r, p)

/-- **The states of a heap**: the free blocks lie below the size of the process. The present pages
are those of its size, and they belong to it; from `low` on they are the heap, which it can read and
write. -/
structure HeapState (base low : ℕ) (m : Machine Proc) (l : List Extent) : Prop where
  ready : Ready (kernel base) m l
  base_ne : base ≠ 0
  base_lt : base + 8 ≤ low
  inside : ∀ b ∈ l, b.stop ≤ m.env.sz
  low_dvd : PGSIZE ∣ low
  low_le : low ≤ m.env.sz
  sz_lt : m.env.sz < KERNBASE
  free : m.env.kmem.FreeOk
  present : ∀ v, v * PGSIZE < KERNBASE → ((m.env.pgdir.entry v).p = true ↔ v < pages m.env.sz)
  own : ∀ v, v < pages m.env.sz → m.env.kmem.Freeable (m.env.pgdir.entry v).addr
  user : ∀ v, low ≤ v * PGSIZE → v < pages m.env.sz →
    (m.env.pgdir.entry v).u = true ∧ (m.env.pgdir.entry v).w = true

/-- **`malloc` is correct**: it returns `0`, or a block with the bytes asked for behind its header
and inside the process, and the process does not shrink. -/
def Correct (base nbytes : ℕ) (m : Machine Proc) : Prop :=
  ∃ r m', Returns (fun rounds => malloc (kernel base) rounds nbytes) m r m' ∧ m.env.sz ≤ m'.env.sz ∧
    (r = 0 ∨ 8 ≤ r ∧ nbytes + 8 ≤ (blockAt m' r).len ∧ (blockAt m' r).stop ≤ m'.env.sz)

/-! ### `sbrk` of a positive number -/

section Sbrk

variable {base low n nbytes : ℕ} {m : Machine Proc} {l : List Extent} {p : Proc}

theorem kernel_mapped_iff {a : ℕ} : (kernel base).mapped p a ↔
    ∀ x, x = a ∨ x = a + 7 → (p.pgdir.entry (x / PGSIZE)).p = true ∧
      (p.pgdir.entry (x / PGSIZE)).u = true ∧ (p.pgdir.entry (x / PGSIZE)).w = true := by
  simp [kernel, userPage, and_assoc]

theorem addInt32_of_nonneg {a : ℕ} {n : ℤ} (h₀ : 0 ≤ (a : ℤ) + n) (h₁ : (a : ℤ) + n < WORD) :
    (addInt32 a n : ℤ) = a + n := by
  unfold addInt32
  rw [Int.emod_eq_of_lt h₀ h₁, Int.toNat_of_nonneg h₀]

/-- What `sbrk` returns for the size that `growproc` got. -/
theorem sbrk_of_resized {sz : ℕ} {d : PageDir} {k : Kmem} (hsz : p.sz < WORD)
    (h : growproc p (toInt n) = .ok (p.resized sz d k)) :
    (kernel base).sbrk n p =
      .ok (if sz = 0 then (WORD - 1, ⟨p.sz, d, k⟩) else (p.sz, ⟨sz, d, k⟩)) := by
  have hsys : sysSbrk p (toInt n) =
      .ok (if sz = 0 then (-1, ⟨p.sz, d, k⟩) else ((p.sz : ℤ), ⟨sz, d, k⟩)) := by
    unfold sysSbrk
    rw [h, Proc.resized]
    by_cases h0 : sz = 0
    · rw [if_pos h0, if_pos h0]
      rfl
    · rw [if_neg h0, if_neg h0]
      rfl
  have haddr : addInt32 0 (p.sz : ℤ) = p.sz := by
    have := @addInt32_of_nonneg 0 (p.sz : ℤ) (by omega) (by omega)
    omega
  simp only [kernel, hsys]
  by_cases h0 : sz = 0
  · rw [if_pos h0, if_pos h0]
    rfl
  · rw [if_neg h0, if_neg h0]
    simp only [haddr]

/-- **`sbrk` of a positive `int`** fails and changes no mapping, or gives memory behind the old
end. -/
theorem sbrk_spec (h : HeapState base low m l) (hn : 0 < n) (hint : n < 2 ^ 31) :
    ∃ p', ((kernel base).sbrk n m.env = .ok (WORD - 1, p') ∧ p'.sz = m.env.sz ∧
        SameMappings m.env.pgdir p'.pgdir) ∨
      ((kernel base).sbrk n m.env = .ok (m.env.sz, p') ∧ p'.sz = m.env.sz + n ∧ p'.sz < KERNBASE ∧
        (∀ v, (m.env.pgdir.entry v).p = true → p'.pgdir.entry v = m.env.pgdir.entry v) ∧
        ∀ v, pages m.env.sz ≤ v → v < pages p'.sz →
          ∃ a, p'.pgdir.entry v = .ofPerm a ⟨true, true⟩) := by
  have hsz := h.sz_lt
  have hK : KERNBASE = 2 ^ 31 := rfl
  have hW : WORD = 2 ^ 32 := rfl
  have hnew : addInt32 m.env.sz n = m.env.sz + n := by
    have := @addInt32_of_nonneg m.env.sz n (by omega) (by omega)
    omega
  have habs : ∀ v, pages m.env.sz ≤ v → v * PGSIZE < KERNBASE →
      (m.env.pgdir.entry v).p = false := by
    intro v hv hlt
    rw [← Bool.not_eq_true, h.present v hlt]
    omega
  have hpage : m.env.sz + n < KERNBASE → ∀ v, pages m.env.sz ≤ v → v < pages (m.env.sz + n) →
      (m.env.pgdir.entry v).p = false := fun hlt v h₁ h₂ => habs v h₁ (by
    simp only [pages, PGSIZE] at *
    omega)
  obtain ⟨⟨r, d, k⟩, hok, hr⟩ := (allocuvm_spec (le_refl KERNBASE) m.env.sz (m.env.sz + n)
    hpage).exists (.inl h.free)
  have hgrow : growproc m.env (toInt n) = .ok (m.env.resized r d k) := by
    rw [show toInt n = n from if_pos hint, growproc, if_pos (by omega), hnew, hok]
    rfl
  have hsbrk := @sbrk_of_resized base _ _ _ _ _ (by omega) hgrow
  cases hr with
  | refused => exact ⟨_, .inl ⟨hsbrk, rfl, .refl _⟩⟩
  | smaller _ hlt => omega
  | grown hlim _ hg =>
    rw [if_neg (by omega)] at hsbrk
    refine ⟨_, .inr ⟨hsbrk, rfl, hlim, fun v hv => hg.outside v ?_, hg.inside⟩⟩
    by_contra hin
    rw [hpage hlim v (by omega) (by omega)] at hv
    cases hv
  | undone hlim _ hu => exact ⟨_, .inl ⟨hsbrk, rfl, hu.sameMappings (hpage hlim)⟩⟩

/-- What `malloc` may get from `sbrk`. -/
theorem answers_kernel (h : HeapState base low m l) (hn : 0 < n) (hint : n < 2 ^ 31) :
    Answers (kernel base) m.env m.env.sz n ((kernel base).sbrk n m.env) := by
  have hK : KERNBASE = 2 ^ 31 := rfl
  have hW : WORD = 2 ^ 32 := rfl
  obtain ⟨p', ⟨hsbrk, -, hsame⟩ | ⟨hsbrk, hsz', hlt, hold, hnew⟩⟩ := sbrk_spec h hn hint
  · rw [hsbrk]
    refine .fails fun a ha => kernel_mapped_iff.mpr fun x hx => ?_
    have hpage := kernel_mapped_iff.mp ha x hx
    rw [hsame.entry _ hpage.1]
    exact hpage
  · rw [hsbrk]
    refine .gives le_rfl (by omega) (fun a ha => kernel_mapped_iff.mpr fun x hx => ?_)
      fun a ha ha' => kernel_mapped_iff.mpr fun x hx => ?_
    · have hpage := kernel_mapped_iff.mp ha x hx
      rw [hold _ hpage.1]
      exact hpage
    · -- The last page of the old memory is part of the heap, and the others are new.
      obtain ⟨c, hc⟩ := h.low_dvd
      have hlow := h.low_le
      by_cases hpage : x / PGSIZE < pages m.env.sz
      · have hge : low ≤ x / PGSIZE * PGSIZE := by
          simp only [PGSIZE] at *
          omega
        have hlt' : x / PGSIZE * PGSIZE < KERNBASE := by
          have := Nat.div_mul_le_self x PGSIZE
          omega
        have hpresent := (h.present _ hlt').mpr hpage
        rw [hold _ hpresent]
        exact ⟨hpresent, h.user _ hge hpage⟩
      · have hin : x / PGSIZE < pages p'.sz := by
          simp only [pages, PGSIZE] at *
          omega
        obtain ⟨b, hb⟩ := hnew _ (not_lt.mp hpage) hin
        rw [hb]
        exact ⟨rfl, rfl, rfl⟩

/-- Requests for which nothing wraps around. -/
theorem units_of_le (h : nbytes ≤ 2 ^ 31 - 16) :
    nbytes + 8 ≤ 8 * unitsFor nbytes ∧ coreUnits (unitsFor nbytes) * 8 < 2 ^ 31 := by
  have hadd : add32 nbytes 7 = nbytes + 7 := add32_eq (by unfold WORD; omega)
  unfold coreUnits unitsFor
  split_ifs <;> omega

/-- What `malloc` does in a state of the heap, for a request that does not wrap around. -/
theorem HeapState.malloc (h : HeapState base low m l)
    (hcore : coreUnits (unitsFor nbytes) * 8 < 2 ^ 31) :
    ∃ r m' l', Returns (fun rounds => malloc (kernel base) rounds nbytes) m r m' ∧
      FreeList (kernel base) m' l' ∧ Mallocs (kernel base) m l (unitsFor nbytes) r m' l' := by
  have hpos := Nat.mul_pos (coreUnits_pos (unitsFor nbytes)).1 (by omega : 0 < 8)
  obtain ⟨r, m', l', hrun, hlist, hmallocs⟩ := malloc_spec h.ready
    (hcore.trans (by decide)) (h.base_lt.trans h.low_le) h.inside h.base_ne
    (answers_kernel h hpos hcore)
  exact ⟨r, m', l', ⟨2 * l.length + 4, fun rounds hrounds => hrun rounds (by omega)⟩, hlist,
    hmallocs⟩

theorem stop_le_of_takes {c : Extent} {l l' : List Extent} {k top : ℕ} (h : Takes k l c l')
    (hl : ∀ b ∈ l, b.stop ≤ top) : c.stop ≤ top := by
  obtain ⟨front, b, back, rfl, hle, rfl, -⟩ := h
  have hb := hl b (List.mem_append_right _ List.mem_cons_self)
  simp only [stop] at hb ⊢
  omega

/-- **`malloc` of at most `2 ^ 31 - 16` bytes is correct** in every state. -/
theorem HeapState.correct (h : HeapState base low m l) (hn : nbytes ≤ 2 ^ 31 - 16) :
    Correct base nbytes m := by
  obtain ⟨hunits, hcore⟩ := units_of_le hn
  obtain ⟨r, m', l', hreturns, -, hmallocs⟩ := h.malloc hcore
  refine ⟨r, m', hreturns, ?_⟩
  have hpos := Nat.mul_pos (coreUnits_pos (unitsFor nbytes)).1 (by omega : 0 < 8)
  have hsbrk := sbrk_spec h hpos hcore
  cases hmallocs with
  | @fits c _ _ hfit htakes henv hsize hframe =>
    rw [henv, blockAt_eq htakes.len_eq hsize, htakes.len_eq]
    exact ⟨le_rfl, .inr ⟨Nat.le_add_left _ _, hunits, stop_le_of_takes htakes h.inside⟩⟩
  | fails hsmall hfails hframe =>
    refine ⟨?_, .inl rfl⟩
    obtain ⟨p', ⟨hsbrk, hsame, -⟩ | ⟨hsbrk, hgrown, -⟩⟩ := hsbrk
    · rw [hfails] at hsbrk
      rw [(Prod.mk.inj (Except.ok.inj hsbrk)).2, hsame]
    · rw [hfails] at hsbrk
      rw [(Prod.mk.inj (Except.ok.inj hsbrk)).2, hgrown]
      exact Nat.le_add_right _ _
  | @grows p c _ _ hsmall hgives hp htakes hsize hframe =>
    obtain ⟨hstart, hgrown⟩ : p = m.env.sz ∧
        m'.env.sz = m.env.sz + coreUnits (unitsFor nbytes) * 8 := by
      obtain ⟨p', ⟨hsbrk, -⟩ | ⟨hsbrk, hgrown, -⟩⟩ := hsbrk
      · rw [hgives] at hsbrk
        have := (Prod.mk.inj (Except.ok.inj hsbrk)).1
        omega
      · rw [hgives] at hsbrk
        obtain ⟨hp, henv⟩ := Prod.mk.inj (Except.ok.inj hsbrk)
        exact ⟨hp, henv ▸ hgrown⟩
    rw [blockAt_eq htakes.len_eq hsize, htakes.len_eq]
    refine ⟨by omega, .inr ⟨Nat.le_add_left _ _, hunits, stop_le_of_takes htakes fun b hb => ?_⟩⟩
    rcases (mem_place hb).2 with heq | ⟨d, hd, heq⟩
    · rw [heq, hgrown, hstart]
      exact le_rfl
    · have := h.inside d hd
      omega

/-! ### Requests that wrap around -/

/-- From `2 ^ 31 - 15` bytes on `sbrk` gets a number that is not positive, a multiple of eight. -/
theorem toInt_of_large (hlt : nbytes < 2 ^ 32 - 7) (hge : 2 ^ 31 - 15 ≤ nbytes) :
    coreUnits (unitsFor nbytes) = unitsFor nbytes ∧ ∃ k : ℕ, k ≤ 2 ^ 28 ∧
      toInt (unitsFor nbytes * 8 % WORD) = -(8 * k : ℤ) := by
  have hadd : add32 nbytes 7 = nbytes + 7 := add32_eq (by unfold WORD; omega)
  have hunits : unitsFor nbytes = (nbytes + 7) / 8 + 1 := by rw [unitsFor, hadd]
  have hW : WORD = 2 ^ 32 := rfl
  refine ⟨if_neg (by omega), ?_⟩
  by_cases hzero : unitsFor nbytes = 2 ^ 29
  · refine ⟨0, by omega, ?_⟩
    rw [hzero]
    decide
  · refine ⟨2 ^ 29 - unitsFor nbytes, by omega, ?_⟩
    have hmod : unitsFor nbytes * 8 % WORD = unitsFor nbytes * 8 := Nat.mod_eq_of_lt (by omega)
    rw [hmod, toInt, if_neg (by omega)]
    omega

/-- A process of `k` pages that has not called `malloc` yet, with free pages in the kernel. -/
def fresh (k : ℕ) : Machine Proc where
  mem _ := ⟨0, 0⟩
  freep := 0
  env :=
    { sz := k * PGSIZE
      pgdir := ⟨0x3FF000, fun i => if i = 0 then some ⟨0x3FE000, fun v =>
        if v < k then .ofPerm (0x200000 + v * PGSIZE) ⟨true, true⟩ else .zero⟩ else none⟩
      kmem := ⟨0x120000, 0x109000, (List.range 20).map fun i => 0x400000 + i * PGSIZE,
        fun _ _ => 0, []⟩ }

section Fresh

variable {k : ℕ}

theorem fresh_entry (hk : k ≤ 1024) (v : ℕ) : (fresh k).env.pgdir.entry v =
    if v < k then .ofPerm (0x200000 + v * PGSIZE) ⟨true, true⟩ else .zero := by
  unfold PageDir.entry PageDir.deref fresh
  by_cases hv : v / 1024 = 0
  · have hmod : v % 1024 = v := Nat.mod_eq_of_lt (by omega)
    simp only [hv, if_true, hmod]
  · simp only [hv, if_false]
    rw [if_neg (by omega)]

theorem pages_fresh (k : ℕ) : pages (fresh k).env.sz = k := by
  show (k * 4096 + 4095) / 4096 = k
  omega

theorem fresh_state (hk : 1 ≤ k) (hk' : k ≤ 8) : HeapState 16 PGSIZE (fresh k) [] := by
  have hentry := fresh_entry (k := k) (by omega)
  refine ⟨.inl ⟨rfl, rfl, kernel_mapped_iff.mpr fun x hx => ?_⟩, by decide, by decide, nofun,
    dvd_rfl, Nat.le_mul_of_pos_left _ hk, ?_, ⟨Nat.succ_pos _, fun a ha => ?_⟩, fun v _ => ?_,
    fun v hv => ?_, fun v _ hv => ?_⟩
  · have hpage : x / PGSIZE < k := by
      change x = 16 ∨ x = 16 + 7 at hx
      unfold PGSIZE
      omega
    rw [hentry, if_pos hpage]
    exact ⟨rfl, rfl, rfl⟩
  · show k * 4096 < 2 ^ 31
    omega
  · obtain ⟨i, hi, rfl⟩ := List.mem_map.mp ha
    have hi := List.mem_range.mp hi
    simp only [Kmem.Freeable, PGSIZE, PHYSTOP, fresh]
    omega
  · rw [hentry, pages_fresh]
    by_cases hv : v < k
    · rw [if_pos hv]
      exact iff_of_true rfl hv
    · rw [if_neg hv]
      exact iff_of_false (by decide) hv
  · rw [pages_fresh] at hv
    rw [hentry, if_pos hv]
    simp only [Kmem.Freeable, PGSIZE, PHYSTOP, fresh, PTE.ofPerm]
    omega
  · rw [pages_fresh] at hv
    rw [hentry, if_pos hv]
    exact ⟨rfl, rfl⟩

end Fresh

/-- **`sbrk` of a number that is not positive** succeeds without more memory, unless the process is
to shrink to nothing. -/
theorem sbrk_nonpos (h : HeapState base low m l) {k : ℕ} (hn : toInt n = -(8 * k : ℤ))
    (hk : k ≤ 2 ^ 28)
    (hne : m.env.sz ≠ 8 * k) :
    ∃ p', (kernel base).sbrk n m.env = .ok (m.env.sz, p') ∧
      ∀ v, pages m.env.sz ≤ v → p'.pgdir.entry v = m.env.pgdir.entry v := by
  have hsz := h.sz_lt
  have hK : KERNBASE = 2 ^ 31 := rfl
  have hW : WORD = 2 ^ 32 := rfl
  have hpos : m.env.sz ≠ 0 := by
    have := h.base_lt
    have := h.low_le
    omega
  by_cases h0 : k = 0
  · have hgrow : growproc m.env (toInt n) =
        .ok (m.env.resized m.env.sz m.env.pgdir m.env.kmem) := by
      rw [hn, growproc, if_neg (by omega), if_neg (by omega), Proc.resized, if_neg hpos]
      rfl
    have hsbrk := @sbrk_of_resized base _ _ _ _ _ (by omega) hgrow
    rw [if_neg hpos] at hsbrk
    exact ⟨_, hsbrk, fun _ _ => rfl⟩
  · obtain ⟨⟨r, d, km⟩, hok⟩ :=
      @deallocuvm_ok _ (addInt32 m.env.sz (toInt n)) m.env.pgdir m.env.kmem
      hsz.le fun w _ hw _ => ⟨fun hz => by
        have := (h.own w hw).2.1
        have := h.free.kend
        omega, h.own w hw⟩
    obtain ⟨hr, _, hun⟩ := deallocuvm_spec hsz.le hok
    have hgrow : growproc m.env (toInt n) = .ok (m.env.resized r d km) := by
      rw [growproc, if_neg (by omega), if_pos (by omega), hok]
      rfl
    have hne' : r ≠ 0 := by
      have hmod : (addInt32 m.env.sz (toInt n) : ℤ) = ((m.env.sz : ℤ) - 8 * k) % 2 ^ 32 := by
        rw [hn, addInt32, Int.toNat_of_nonneg (Int.emod_nonneg _ (by decide))]
        rfl
      omega
    have hsbrk := @sbrk_of_resized base _ _ _ _ _ (by omega) hgrow
    rw [if_neg hne'] at hsbrk
    refine ⟨_, hsbrk, fun v hv => ?_⟩
    show d.entry v = _
    rw [hun.entry, clearedEntries_outside _ (.inr hv)]

/-- A header behind the end of the memory is not mapped. -/
theorem morecore_faults {σ : Type} {pf : Platform σ} {m : Machine σ} {env' : σ} {p rounds : ℕ}
    (hsbrk : pf.sbrk (coreUnits n * 8 % WORD) m.env = .ok (p, env')) (hp : p ≠ WORD - 1)
    (hmapped : ¬ pf.mapped env' p) : morecore pf rounds n m = .error .pageFault := by
  unfold morecore
  rw [StateT.bind_of_ok (callSbrk_eq hsbrk), if_neg hp]
  refine StateT.bind_of_error ?_
  exact congrFun (if_neg hmapped) _

/-- The first call of `malloc` in a process, when the header of the new block is not mapped. -/
theorem malloc_faults {σ : Type} {pf : Platform σ} {m : Machine σ} {env' : σ} {p rounds : ℕ}
    (hfreep : m.freep = 0) (hbase : pf.mapped m.env pf.base)
    (hsbrk : pf.sbrk (coreUnits (unitsFor nbytes) * 8 % WORD) m.env = .ok (p, env'))
    (hp : p ≠ WORD - 1) (hmapped : ¬ pf.mapped env' p) :
    ∃ e, malloc pf rounds nbytes m = .error e := by
  have hstore : store pf pf.base (fun _ => ⟨pf.base, 0⟩) ⟨m.mem, pf.base, m.env⟩ = .ok ((),
      ⟨Function.update m.mem pf.base ⟨pf.base, 0⟩, pf.base, m.env⟩) := store_of_mapped hbase
  set m₀ : Machine σ := ⟨Function.update m.mem pf.base ⟨pf.base, 0⟩, pf.base, m.env⟩ with hm₀
  have hself : m₀.mem pf.base = ⟨pf.base, 0⟩ := Function.update_self ..
  have hload : load pf pf.base m₀ = .ok (⟨pf.base, 0⟩, m₀) := by
    rw [← hself]
    exact load_of_mapped hbase
  unfold malloc
  rw [StateT.get_bind, if_pos hfreep,
    StateT.bind_of_ok (t := ⟨m.mem, pf.base, m.env⟩) (a := ()) rfl, StateT.bind_of_ok hstore]
  beta_reduce
  rw [StateT.get_bind, StateT.bind_of_ok hload]
  cases rounds with
  | zero => exact ⟨_, rfl⟩
  | succ rounds =>
    have hsmall : ¬ (0 : ℕ) ≥ unitsFor nbytes := Nat.not_succ_le_zero _
    refine ⟨.pageFault, ?_⟩
    show mallocLoop pf (unitsFor nbytes) (rounds + 1) pf.base pf.base m₀ = _
    rw [mallocLoop, StateT.bind_of_ok hload, if_neg hsmall, StateT.get_bind, if_pos rfl]
    exact StateT.bind_of_error (morecore_faults hsbrk hp hmapped)

/-- **A request from `2 ^ 31 - 15` to `2 ^ 32 - 8` bytes** kills a process that has not called
`malloc` before. -/
theorem not_correct_of_large (hlt : nbytes < 2 ^ 32 - 7) (hge : 2 ^ 31 - 15 ≤ nbytes) :
    ∃ k, 1 ≤ k ∧ k ≤ 8 ∧ ¬ Correct 16 nbytes (fresh k) := by
  obtain ⟨hcore, j, hj, hint⟩ := toInt_of_large hlt hge
  -- The process must not be of the size by which it is to shrink.
  obtain ⟨k, hk, hk', hne⟩ : ∃ k, 1 ≤ k ∧ k ≤ 8 ∧ (fresh k).env.sz ≠ 8 * j := by
    by_cases h4 : 4 * PGSIZE = 8 * j
    · refine ⟨5, by decide, by decide, ?_⟩
      show 5 * PGSIZE ≠ 8 * j
      unfold PGSIZE at h4 ⊢
      omega
    · exact ⟨4, by decide, by decide, h4⟩
  refine ⟨k, hk, hk', ?_⟩
  rintro ⟨r, m', ⟨enough, hreturns⟩, -⟩
  have hstate := fresh_state hk hk'
  obtain ⟨p', hsbrk, hentry⟩ := sbrk_nonpos hstate hint hj hne
  have hmapped : ¬ (kernel 16).mapped p' (fresh k).env.sz := by
    rw [kernel_mapped_iff]
    intro hall
    have hpage : (fresh k).env.sz / PGSIZE = k := Nat.mul_div_cancel k (by decide)
    have hp := (hall _ (.inl rfl)).1
    rw [hpage, hentry k (pages_fresh k).le, fresh_entry (by omega), if_neg (lt_irrefl k)] at hp
    cases hp
  have hbase : (kernel 16).mapped (fresh k).env 16 := by
    rcases hstate.ready with ⟨-, -, h⟩ | h
    · exact h
    · exact h.baseMapped
  have hsz : (fresh k).env.sz ≠ WORD - 1 := by
    show k * 4096 ≠ 2 ^ 32 - 1
    omega
  obtain ⟨e, he⟩ : ∃ e, malloc (kernel 16) enough nbytes (fresh k) = .error e :=
    malloc_faults rfl hbase (by rw [hcore]; exact hsbrk) hsz hmapped
  exact absurd (he.symm.trans (hreturns enough le_rfl)) nofun

/-- **The largest sizes are rounded up to zero**, and `malloc` returns a block of one unit. -/
theorem malloc_too_small (hge : 2 ^ 32 - 7 ≤ nbytes) (hlt : nbytes < 2 ^ 32) :
    ∃ r m', Returns (fun rounds => malloc (kernel 16) rounds nbytes) (fresh 4) r m' ∧ r ≠ 0 ∧
      (blockAt m' r).len = 8 := by
  have hstate := fresh_state (k := 4) (by decide) (by decide)
  have hadd : add32 nbytes 7 = nbytes + 7 - 2 ^ 32 := by
    unfold add32 WORD
    omega
  have hunits : unitsFor nbytes = 1 := by
    rw [unitsFor, hadd]
    omega
  obtain ⟨r, m', l', hreturns, -, hmallocs⟩ := hstate.malloc
    (by rw [hunits]; decide : coreUnits (unitsFor nbytes) * 8 < 2 ^ 31)
  refine ⟨r, m', hreturns, ?_⟩
  rw [hunits] at hmallocs
  cases hmallocs with
  | fits hfit _ _ _ _ =>
    obtain ⟨d, hd, -⟩ := hfit
    exact absurd hd List.not_mem_nil
  | fails hsmall hfails hframe =>
    -- The kernel has pages for 4096 units.
    obtain ⟨_, d, km, hok, -⟩ := @allocuvm_ok (fresh 4).env.sz ((fresh 4).env.sz + 32768)
      (fresh 4).env.pgdir (fresh 4).env.kmem KERNBASE le_rfl (by decide) (Nat.le_add_right _ _)
      (fun w hw hw' => by
        rw [pages_fresh] at hw
        rw [fresh_entry (by decide), if_neg (by omega)]
        rfl) (by decide)
    have hgrow : growproc (fresh 4).env (toInt 32768) =
        .ok ((fresh 4).env.resized ((fresh 4).env.sz + 32768) d km) := by
      rw [show toInt 32768 = 32768 from rfl, growproc, if_pos (by decide),
        show addInt32 (fresh 4).env.sz 32768 = (fresh 4).env.sz + 32768 from rfl, hok]
      rfl
    have hsbrk := @sbrk_of_resized 16 _ _ _ _ _ (by decide) hgrow
    rw [if_neg (by decide)] at hsbrk
    have heq := hfails.symm.trans hsbrk
    exact absurd (Prod.mk.inj (Except.ok.inj heq)).1 (by decide)
  | @grows p c _ _ hsmall hsbrk hp htakes hsize hframe =>
    rw [blockAt_eq htakes.len_eq hsize, htakes.len_eq]
    exact ⟨Nat.succ_ne_zero _, rfl⟩

end Sbrk

/-- **For which sizes `malloc` is correct**, in every state of the heap. -/
theorem malloc_correct_iff (nbytes : ℕ) (hn : nbytes < 2 ^ 32) :
    (∀ base low m l, HeapState base low m l → Correct base nbytes m) ↔ nbytes ≤ 2 ^ 31 - 16 := by
  refine ⟨fun h => ?_, fun hle base low m l hstate => hstate.correct hle⟩
  by_contra hgt
  by_cases hlarge : nbytes < 2 ^ 32 - 7
  · obtain ⟨k, hk, hk', hno⟩ := not_correct_of_large hlarge (by omega)
    exact hno (h 16 PGSIZE (fresh k) [] (fresh_state hk hk'))
  · obtain ⟨r, m', hreturns, hr, hlen⟩ := malloc_too_small (not_lt.mp hlarge) hn
    obtain ⟨r', m'', hreturns', -, hcorrect⟩ :=
      h 16 PGSIZE (fresh 4) [] (fresh_state (by decide) (by decide))
    obtain ⟨rfl, rfl⟩ := hreturns.unique hreturns'
    rcases hcorrect with h0 | ⟨-, hle, -⟩
    · exact hr h0
    · omega

/-- A first request of a thousand bytes. -/
theorem malloc_correct_thousand : HeapState 16 PGSIZE (fresh 4) [] ∧ Correct 16 1000 (fresh 4) := by
  have hstate := fresh_state (k := 4) (by decide) (by decide)
  exact ⟨hstate, (malloc_correct_iff 1000 (by decide)).mpr (by decide) _ _ _ _ hstate⟩

/-- **The largest size**: for `malloc(0xffffffff)` a process gets a block without a usable byte. -/
theorem malloc_largest : HeapState 16 PGSIZE (fresh 4) [] ∧ ∃ r m',
    Returns (fun rounds => malloc (kernel 16) rounds 0xffffffff) (fresh 4) r m' ∧ r ≠ 0 ∧
      (blockAt m' r).len = 8 :=
  ⟨fresh_state (by decide) (by decide), malloc_too_small (by decide) (by decide)⟩

end Xv6.Umalloc
