import CS450.Shared.Args

/-!
# Resizing a process

`growproc` adds an `int` to the size of a process. The sum is a `uint`, and the functions that it
calls return `0` for an error. Growing cannot wrap around, since both summands are below `2 ^ 31`,
and it is exact or undone. Shrinking can go wrong in two ways. When the process is to shrink by its
whole size, `deallocuvm` frees everything and returns the new size `0`, which `growproc` takes for
an error. When it is to shrink by more, the sum wraps around to a size that is not smaller than the
old one, `deallocuvm` does nothing and returns the old size, and `growproc` reports success.
-/

namespace Xv6.Shared

open Transition

/-- A process whose present pages below `shaddr` are those of its size. Its frames are its own: they
are different, not free, and can be freed. -/
structure Resizable (k : Kernel) (p : Slot) (pgdir : PageDir) : Prop where
  dir : (k.vm p).pgdir = some pgdir
  kstack : (k.vm p).kstack ≠ none
  heap : pages (k.vm p).sz * PGSIZE ≤ (k.vm p).shaddr
  shaddr : (k.vm p).shaddr ≤ KERNBASE
  present : ∀ v, v * PGSIZE < (k.vm p).shaddr → ((pgdir.entry v).p = true ↔ v < pages (k.vm p).sz)
  free : k.kmem.FreeOk
  own : ∀ v, v < pages (k.vm p).sz → (pgdir.entry v).addr ∉ k.kmem.freelist ∧
    k.kmem.Freeable (pgdir.entry v).addr
  distinct : ∀ v w, v < pages (k.vm p).sz → w < pages (k.vm p).sz →
    (pgdir.entry v).addr = (pgdir.entry w).addr → v = w

/-- **What a result of `growproc` promises.** After `0` the size is the old size plus `n`, as
integers, the present pages below `shaddr` are those of the new size, and what is below both sizes
has not changed. After `-1` the size and the present user pages are as before. -/
structure Promised (k : Kernel) (p : Slot) (pgdir : PageDir) (n r : ℤ) (k' : Kernel)
    (pgdir' : PageDir) : Prop where
  size : r = 0 → ((k'.vm p).sz : ℤ) = (k.vm p).sz + n
  present : r = 0 → ∀ v, v * PGSIZE < (k.vm p).shaddr →
    ((pgdir'.entry v).p = true ↔ v < pages (k'.vm p).sz)
  contents : r = 0 → ∀ va, va < min (k.vm p).sz (k'.vm p).sz →
    k'.kmem.byte pgdir' va = k.kmem.byte pgdir va
  undone : r = -1 → (k'.vm p).sz = (k.vm p).sz ∧
    ∀ v, v < KERNPAGE → (pgdir'.entry v).p = (pgdir.entry v).p

/-- `growproc` returns, and keeps its promise. -/
def GrowExact (k : Kernel) (p : Slot) (pgdir : PageDir) (n : ℤ) : Prop :=
  ∃ r k' pgdir', growproc k p n = .ok (r, k') ∧ (k'.vm p).pgdir = some pgdir' ∧ (r = 0 ∨ r = -1) ∧
    Promised k p pgdir n r k' pgdir'

section Resize

variable {k : Kernel} {p : Slot} {pgdir : PageDir} {n : ℤ}

/-- What `growproc` does with the size that `allocuvm` or `deallocuvm` returns. -/
def Kernel.resized (k : Kernel) (p : Slot) (sz : ℕ) (pgdir : PageDir) (m : Kmem) : ℤ × Kernel :=
  if sz = 0 then (-1, k.resize p (k.vm p).sz pgdir m) else (0, k.resize p sz pgdir m)

theorem resized_eq (hks : (k.vm p).kstack ≠ none) (sz : ℕ) (pgdir' : PageDir) (m : Kmem) :
    (let k₁ := (k.setVm p { k.vm p with pgdir := some pgdir' }).setKmem m
      if sz = 0 then (pure (-1, k₁) : Except Fault (ℤ × Kernel))
      else do
        switchuvm (k₁.vm p)
        pure (0, k₁.setVm p { k₁.vm p with sz := sz })) = .ok (k.resized p sz pgdir' m) := by
  unfold Kernel.resized
  split
  · rfl
  · simp [switchuvm, hks, Kernel.resize, ProcVm.resize, Kernel.setVm, Kernel.setKmem]

variable {m : Kmem} {pgdir' : PageDir} {sz : ℕ}

theorem growproc_of_allocuvm (h : Resizable k p pgdir) (hn : 0 < n)
    (hok : allocuvm (k.vm p).shaddr pgdir (k.vm p).sz (addInt32 (k.vm p).sz n) k.kmem =
      .ok (sz, pgdir', m)) : growproc k p n = .ok (k.resized p sz pgdir' m) := by
  unfold growproc
  simp only [h.dir, if_pos hn, hok, Except.ok_bind]
  exact resized_eq h.kstack sz pgdir' m

theorem growproc_of_deallocuvm (h : Resizable k p pgdir) (hn : n < 0)
    (hok : deallocuvm pgdir (k.vm p).sz (addInt32 (k.vm p).sz n) k.kmem =
      .ok (sz, pgdir', m)) : growproc k p n = .ok (k.resized p sz pgdir' m) := by
  unfold growproc
  simp only [h.dir, if_neg (show ¬ 0 < n by omega), if_pos hn, hok, Except.ok_bind]
  exact resized_eq h.kstack sz pgdir' m

theorem Resizable.sz_le (h : Resizable k p pgdir) : (k.vm p).sz ≤ KERNBASE := by
  have h₁ := h.heap
  have h₂ := h.shaddr
  simp only [pages, PGSIZE] at h₁
  omega

theorem Resizable.page_lt (h : Resizable k p pgdir) {v : ℕ} (hv : v < pages (k.vm p).sz) :
    v * PGSIZE < (k.vm p).shaddr := by
  have h₁ := h.heap
  simp only [pages, PGSIZE] at *
  omega

theorem addInt32_eq {a : ℕ} (h₀ : 0 ≤ (a : ℤ) + n) (h₁ : (a : ℤ) + n < WORD) :
    (addInt32 a n : ℤ) = a + n := by
  unfold addInt32
  rw [Int.emod_eq_of_lt h₀ h₁]
  exact Int.toNat_of_nonneg h₀

/-- A result of `-1` that left the mappings alone. -/
theorem growExact_of_undone (hok : growproc k p n = .ok (k.resized p 0 pgdir' m))
    (hsame : ∀ v, v < KERNPAGE → (pgdir'.entry v).p = (pgdir.entry v).p) : GrowExact k p pgdir n :=
  ⟨-1, _, pgdir', hok, by rw [resize_vm_self]; rfl, .inr rfl, by simp, by simp, by simp,
    fun _ => ⟨by rw [resize_vm_self]; rfl, hsame⟩⟩

/-- A result of `0` with the pages of the new size. -/
theorem growExact_of_resized (hok : growproc k p n = .ok (k.resized p sz pgdir' m)) (hpos : 0 < sz)
    (hsz : (sz : ℤ) = (k.vm p).sz + n)
    (hpresent : ∀ v, v * PGSIZE < (k.vm p).shaddr → ((pgdir'.entry v).p = true ↔ v < pages sz))
    (hcontents : ∀ v, v < pages (min (k.vm p).sz sz) → pgdir'.entry v = pgdir.entry v ∧
      m.mem (pgdir.entry v).addr = k.kmem.mem (pgdir.entry v).addr) : GrowExact k p pgdir n := by
  have hsize : ((k.resize p sz pgdir' m).vm p).sz = sz := by
    rw [resize_vm_self]
    rfl
  rw [Kernel.resized, if_neg (by omega)] at hok
  refine ⟨0, _, pgdir', hok, by rw [resize_vm_self]; rfl, .inl rfl, fun _ => ?_, fun _ => ?_,
    fun _ va hva => ?_, by simp⟩
  · rw [hsize]
    exact hsz
  · rw [hsize]
    exact hpresent
  · obtain ⟨hentry, hmem⟩ := hcontents (va / PGSIZE) (by simp only [pages, PGSIZE]; omega)
    unfold Kmem.byte
    rw [hentry]
    exact congrFun hmem _

/-- **Growing is exact or undone**, wherever `kalloc` fails. -/
theorem growproc_grow (h : Resizable k p pgdir) (hn : 0 < n) (hint : n < 2 ^ 31) :
    GrowExact k p pgdir n := by
  have hsz := h.sz_le
  have hnew : (addInt32 (k.vm p).sz n : ℤ) = (k.vm p).sz + n :=
    addInt32_eq (by omega) (by simp only [WORD, KERNBASE] at *; omega)
  -- what is above the old size is absent, as far as the limit
  have habs : ∀ v, pages (k.vm p).sz ≤ v → v * PGSIZE < (k.vm p).shaddr →
      (pgdir.entry v).p = false :=
    fun v hv hlt => by
      rw [← Bool.not_eq_true, h.present v hlt]
      omega
  have habs' : addInt32 (k.vm p).sz n < (k.vm p).shaddr → ∀ v, pages (k.vm p).sz ≤ v →
      v < pages (addInt32 (k.vm p).sz n) → (pgdir.entry v).p = false := fun hlim v hv hlt =>
    habs v hv (by simp only [pages, PGSIZE] at *; omega)
  obtain ⟨r, hok, hr⟩ := (allocuvm_spec h.shaddr _ _ habs').exists (.inl h.free)
  have hgrow := growproc_of_allocuvm h hn hok
  cases hr with
  | refused => exact growExact_of_undone hgrow fun _ _ => rfl
  | smaller _ hlt => omega
  | grown hlim hle hg =>
    refine growExact_of_resized hgrow (by omega) hnew (fun v hv => ?_) fun v hv => ?_
    · rcases Nat.lt_or_ge v (pages (k.vm p).sz) with hold | hge
      · have hlt : v < pages (addInt32 (k.vm p).sz n) :=
          hold.trans_le (Nat.div_le_div_right (by omega))
        rw [hg.outside v (.inl hold)]
        simp only [(h.present v hv).mpr hold, hlt]
      · rcases Nat.lt_or_ge v (pages (addInt32 (k.vm p).sz n)) with hin | hout
        · obtain ⟨a, ha⟩ := hg.inside v hge hin
          rw [ha]
          exact ⟨fun _ => hin, fun _ => rfl⟩
        · rw [hg.outside v (.inr hout), habs v hge hv]
          exact ⟨fun hp => absurd hp (by simp), fun hlt => absurd hlt (Nat.not_lt.mpr hout)⟩
    · rw [min_eq_left hle] at hv
      refine ⟨hg.outside v (.inl hv), hg.mem.mem _ fun hl => (h.own v hv).1 ?_⟩
      rw [hg.mem.freelist]
      exact List.mem_append_left _ hl
  | undone hlim _ hu =>
    exact growExact_of_undone hgrow fun v _ => (hu.sameMappings (habs' hlim)).present v

/-- What `deallocuvm` does for a process that shrinks. -/
theorem Resizable.deallocuvm (h : Resizable k p pgdir) (newsz : ℕ) :
    ∃ pgdir' m l, Xv6.deallocuvm pgdir (k.vm p).sz newsz k.kmem =
        .ok (min (k.vm p).sz newsz, pgdir', m) ∧
      Unmapped (pages newsz) (pages (k.vm p).sz) l pgdir pgdir' k.kmem m := by
  have hkend := h.free.kend
  obtain ⟨⟨r, pgdir', m⟩, hok⟩ := @deallocuvm_ok _ newsz pgdir k.kmem h.sz_le fun w _ hw _ =>
    ⟨fun hz => by have := (h.own w hw).2.2.1; omega, (h.own w hw).2⟩
  obtain ⟨rfl, l, hun⟩ := deallocuvm_spec h.sz_le hok
  exact ⟨pgdir', m, l, hok, hun⟩

/-- **Shrinking to a positive size is exact.** -/
theorem growproc_shrink (h : Resizable k p pgdir) (hn : n < 0) (hpos : 0 < (k.vm p).sz + n) :
    GrowExact k p pgdir n := by
  have hsz := h.sz_le
  have hnew : (addInt32 (k.vm p).sz n : ℤ) = (k.vm p).sz + n :=
    addInt32_eq hpos.le (by simp only [WORD, KERNBASE] at *; omega)
  obtain ⟨pgdir', m, l, hok, hun⟩ := h.deallocuvm (addInt32 (k.vm p).sz n)
  have hgrow := growproc_of_deallocuvm h hn hok
  have hmin : min (k.vm p).sz (addInt32 (k.vm p).sz n) = addInt32 (k.vm p).sz n :=
    min_eq_right (by omega)
  rw [hmin] at hgrow
  refine growExact_of_resized hgrow (by omega) hnew (fun v hv => ?_) fun v hv => ?_
  · rw [hun.entry]
    rcases Nat.lt_or_ge v (pages (addInt32 (k.vm p).sz n)) with hin | hge
    · have hold : v < pages (k.vm p).sz := hin.trans_le (Nat.div_le_div_right (by omega))
      rw [clearedEntries_outside _ (.inl hin)]
      simp only [(h.present v hv).mpr hold, hin]
    · rcases Nat.lt_or_ge v (pages (k.vm p).sz) with hold | hout
      · rw [clearedEntries_absent _ hge hold]
        exact ⟨fun hp => absurd hp (by simp), fun hlt => absurd hlt (by omega)⟩
      · rw [clearedEntries_outside _ (.inr hout), h.present v hv]
        omega
  · rw [hmin] at hv
    have hold : v < pages (k.vm p).sz := hv.trans_le (Nat.div_le_div_right (by omega))
    refine ⟨by rw [hun.entry, clearedEntries_outside _ (.inl hv)], hun.mem.mem _ fun hl => ?_⟩
    -- the freed pages are those of the other addresses
    have hmem : (pgdir.entry v).addr ∈ pgdir.frames (pages (addInt32 (k.vm p).sz n))
        (pages (k.vm p).sz) := by
      rw [← hun.frames]
      exact hl
    obtain ⟨w, hlo, hhi, -, he⟩ := PageDir.mem_frames.mp hmem
    have := h.distinct w v hhi hold he
    omega

/-- **Shrinking by the whole size** frees the memory and reports an error. -/
theorem growproc_empties (h : Resizable k p pgdir) (hpos : 0 < (k.vm p).sz) :
    ∃ k' pgdir', growproc k p (-(k.vm p).sz) = .ok (-1, k') ∧ (k'.vm p).pgdir = some pgdir' ∧
      (k'.vm p).sz = (k.vm p).sz ∧ ∀ v, v < pages (k.vm p).sz → (pgdir'.entry v).p = false := by
  have hzero : addInt32 (k.vm p).sz (-(k.vm p).sz) = 0 := by
    simp [addInt32]
  obtain ⟨pgdir', m, l, hok, hun⟩ := h.deallocuvm (addInt32 (k.vm p).sz (-(k.vm p).sz))
  have hgrow := growproc_of_deallocuvm h (by omega) hok
  rw [hzero, Nat.min_zero] at hgrow
  refine ⟨_, pgdir', hgrow, by rw [resize_vm_self]; rfl, by rw [resize_vm_self]; rfl,
    fun v hv => ?_⟩
  rw [hun.entry, hzero]
  exact clearedEntries_absent _ (Nat.zero_le v) hv

/-- **Shrinking by more than the size** wraps around: nothing happens. The result is that of the old
size. -/
theorem growproc_wraps (h : Resizable k p pgdir) (hn : (k.vm p).sz + n < 0) (hint : -2 ^ 31 ≤ n) :
    growproc k p n = .ok (k.resized p (k.vm p).sz pgdir k.kmem) := by
  have hsz := h.sz_le
  have hle : (k.vm p).sz ≤ addInt32 (k.vm p).sz n := by
    simp only [addInt32, WORD, KERNBASE] at *
    omega
  refine growproc_of_deallocuvm h (by omega) ?_
  rw [Xv6.deallocuvm, if_pos hle]

end Resize

/-- **`growproc` is exact and atomic** except when a process with memory is to shrink by its whole
size or by more. -/
theorem growproc_exact_iff {k : Kernel} {p : Slot} {pgdir : PageDir}
    (h : Resizable k p pgdir) {n : ℤ}
    (hint : -2 ^ 31 ≤ n ∧ n < 2 ^ 31) :
    GrowExact k p pgdir n ↔ 0 ≤ n ∨ (k.vm p).sz = 0 ∨ 0 < (k.vm p).sz + n := by
  constructor
  · rintro ⟨r, k', pgdir', hok, hd, -, hp⟩
    by_contra hcon
    push Not at hcon
    obtain ⟨hneg, hpos, hle⟩ := hcon
    rcases hle.lt_or_eq with hlt | heq
    · rw [growproc_wraps h hlt hint.1, Kernel.resized, if_neg hpos] at hok
      cases hok
      have hsize := hp.size rfl
      omega
    · obtain rfl : n = -(k.vm p).sz := by omega
      obtain ⟨k'', d'', hok', hd'', -, hgone⟩ := growproc_empties h (by omega)
      rw [hok'] at hok
      cases hok
      obtain rfl : d'' = pgdir' := Option.some.inj (hd''.symm.trans hd)
      -- the first page was there
      have hzero : 0 < pages (k.vm p).sz := by
        simp only [pages]
        omega
      have hsame := (hp.undone rfl).2 0 (by decide)
      rw [hgone 0 hzero, (h.present 0 (h.page_lt hzero)).mpr hzero] at hsame
      cases hsame
  · intro hcases
    rcases lt_trichotomy n 0 with hn | rfl | hn
    · rcases Nat.eq_zero_or_pos (k.vm p).sz with hz | hpos
      · -- a process without memory: the old size is the error code
        have hok := growproc_wraps h (by omega) hint.1
        rw [hz] at hok
        exact growExact_of_undone hok fun _ _ => rfl
      · exact growproc_shrink h hn (by omega)
    · refine ⟨0, k, pgdir, ?_, h.dir,
        .inl rfl, by simp, fun _ => h.present, fun _ _ _ => rfl, by simp⟩
      simp [growproc, h.dir, switchuvm, h.kstack]
    · exact growproc_grow h hn hint.2

/-- In a kernel that keeps the invariant, every process is resizable. -/
theorem Inv.resizable {k : Kernel} {p : Slot} {pgdir : PageDir} (h : Inv k) (hp : k.Live p)
    (hd : (k.vm p).pgdir = some pgdir) (hkend : 0 < k.kmem.kend)
    (hfree : ∀ a ∈ k.census, k.kmem.Freeable a) : Resizable k p pgdir := by
  obtain ⟨d, kstack, hd', hks, hs⟩ := h.space p hp
  obtain rfl : d = pgdir := Option.some.inj (hd'.symm.trans hd)
  have hbound : ∀ v, v < pages (k.vm p).sz → v < KERNPAGE := fun v hv =>
    hv.trans_le (hs.heap.trans hs.top)
  have hframes : (d.frames 0 (pages (k.vm p).sz)).Nodup := by
    refine Multiset.nodup_of_le ?_ h.nodup
    have hle : d.frames 0 (pages (k.vm p).sz) ≤ k.procPages p := by
      rw [procPages_of_live hp, ProcVm.owned, hd, Option.elim_some]
      exact (Multiset.le_add_left _ _).trans (Multiset.le_add_left _ _)
    exact hle.trans (procPages_le_census k p)
  refine ⟨hd, by rw [hks]; simp, ?_, ?_, fun v hv => ?_, freeOk_of_census hkend hfree,
    fun v hv => ⟨present_not_free h.toInvCore hp hd (hbound v hv) (hs.own v hv),
      hfree _ (Multiset.mem_of_le (procPages_le_census k p)
        (own_frame_mem hp hd hv (hs.own v hv)))⟩, fun v w hv hw he => ?_⟩
  · rw [hs.shaddr]
    exact Nat.mul_le_mul_right _ hs.heap
  · rw [hs.shaddr, KERNBASE_eq]
    exact Nat.mul_le_mul_right _ hs.top
  · rw [hs.shaddr] at hv
    have htop : v < (k.vm p).top := Nat.lt_of_mul_lt_mul_right hv
    refine ⟨fun hpr => ?_, hs.own v⟩
    by_contra hge
    rw [hs.gap v (by omega) htop] at hpr
    cases hpr
  · exact PageDir.frames_injective hframes (by simpa using hv) (by simpa using hw) (hs.own v hv)
      (hs.own w hw) he

theorem exists_resizable : ∃ k p pgdir, Booted k ∧ Resizable k p pgdir ∧ (k.vm p).sz = 4096 := by
  obtain ⟨k, np, hboot, -, hb, hkend⟩ := exists_booted
  obtain ⟨d, -, hd, -, -⟩ := hb.inv.space np hb.first.live
  refine ⟨k, np, d, hboot, hb.inv.resizable hb.first.live hd hkend hb.freeable, ?_⟩
  obtain ⟨_, _, hvm⟩ := hb.first.vm
  rw [hvm, Function.update_self]
  rfl

/-- The first process after boot has one page. Asked to shrink by `4096` bytes it loses the page and
gets an error; asked to shrink by one byte more it keeps its size and is told that it shrank. -/
theorem growproc_not_exact : ∃ k p pgdir, Booted k ∧ Resizable k p pgdir ∧ (k.vm p).sz = 4096 ∧
    (∃ k' pgdir', growproc k p (-4096) = .ok (-1, k') ∧ (k'.vm p).pgdir = some pgdir' ∧
      (pgdir.entry 0).p = true ∧ (pgdir'.entry 0).p = false) ∧
    ∃ k', growproc k p (-4097) = .ok (0, k') ∧ (k'.vm p).sz = 4096 := by
  obtain ⟨k, p, pgdir, hboot, h, hsz⟩ := exists_resizable
  have hpage : 0 < pages (k.vm p).sz := by
    rw [hsz]
    decide
  refine ⟨k, p, pgdir, hboot, h, hsz, ?_, ?_⟩
  · obtain ⟨k', pgdir', hok, hd, -, hgone⟩ := growproc_empties h (by omega)
    rw [hsz] at hok
    exact ⟨k', pgdir', hok, hd, (h.present 0 (h.page_lt hpage)).mpr hpage, hgone 0 hpage⟩
  · have hok := growproc_wraps h (n := -4097) (by omega) (by omega)
    rw [Kernel.resized, if_neg (by omega)] at hok
    refine ⟨_, hok, ?_⟩
    rw [resize_vm_self]
    exact hsz

/-- The first process after boot can grow by a page, exactly. -/
theorem growproc_exact_iff_one_page : ∃ k p pgdir, Booted k ∧ Resizable k p pgdir ∧
    GrowExact k p pgdir 4096 := by
  obtain ⟨k, p, pgdir, hboot, h, -⟩ := exists_resizable
  exact ⟨k, p, pgdir, hboot, h, (growproc_exact_iff h (by omega)).mpr (.inl (by omega))⟩

/-- The first process after boot can grow to some eighty megabytes at once. -/
theorem exists_grown {n : ℕ} (hn : 0 < n) (hle : n ≤ 20000 * PGSIZE) :
    ∃ k₀ k np pgdir, Booted k₀ ∧ Run SafeStep k₀ [(np, .sbrk n)] k ∧ Inv k ∧ k.Live np ∧
      Resizable k np pgdir ∧ (k.vm np).sz = PGSIZE + n ∧ 0 < k.kmem.kend ∧
      (∀ a ∈ k.census, k.kmem.Freeable a) ∧ 520 ≤ k.kmem.freelist.length := by
  obtain ⟨k₀, np, hboot, hno, hb, hkend⟩ := exists_booted
  obtain ⟨d, kstack, hd, -, hs⟩ := hb.inv.space np hb.first.live
  have hres := hb.inv.resizable hb.first.live hd hkend hb.freeable
  obtain ⟨_, _, hvm⟩ := hb.first.vm
  have hsz : (k₀.vm np).sz = PGSIZE := by rw [hvm, Function.update_self]
  have hsh : (k₀.vm np).shaddr = KERNBASE := by rw [hvm, Function.update_self]
  have hnew : addInt32 (k₀.vm np).sz n = PGSIZE + n := by
    simp only [addInt32, WORD, PGSIZE] at *
    omega
  have hlen := freelist_length_ge hb.inv hb.first.live (fun q => hb.first.only) hb.first.sz
  have hcard := hb.card
  have hpages : pages (PGSIZE + n) ≤ 20001 := by
    simp only [pages, PGSIZE] at *
    omega
  obtain ⟨l, d', m, hal, hg⟩ := @allocuvm_ok PGSIZE (PGSIZE + n) d k₀.kmem KERNBASE (le_refl _)
    (by simp only [PGSIZE, KERNBASE] at *; omega) (Nat.le_add_right _ _)
    (fun w hlo hhi => by
      have hw : w * PGSIZE < (k₀.vm np).shaddr := by
        simp only [PGSIZE, KERNBASE] at *
        omega
      rw [← hsz] at hlo
      by_contra hp
      have := (hres.present w hw).mp (by simpa using hp)
      omega)
    (by omega)
  have hgrow : growproc k₀ np n = .ok (0, k₀.resize np (PGSIZE + n) d' m) := by
    rw [growproc_of_allocuvm hres (by omega) (by rw [hnew, hsz, hsh]; exact hal), Kernel.resized,
      if_neg (by omega)]
  have hguard : NotEmptied k₀ (np, .sbrk n) := by
    rintro n' he ⟨hneg, -⟩
    cases he
    omega
  have hno' : (k₀.resize np (PGSIZE + n) d' m).kmem.NoFail := hg.mem.noFail hno
  have hstep : SafeStep k₀ (np, .sbrk n) (k₀.resize np (PGSIZE + n) d' m) := by
    refine ⟨⟨hb.first.canCall _, .int (k₀.vm np).sz, ?_⟩, hguard, hno'⟩
    simp only [syscall, sbrk, hgrow, Except.ok_bind]
    rfl
  obtain ⟨hinv, heff⟩ := hstep.inv hb.inv
  have hlive := (resize_live k₀ np (PGSIZE + n) d' m np).mpr hb.first.live
  have hkend' : (k₀.resize np (PGSIZE + n) d' m).kmem.kend = k₀.kmem.kend := hg.mem.kend
  have hcensus := heff.census
  have hfree : ∀ a ∈ (k₀.resize np (PGSIZE + n) d' m).census,
      (k₀.resize np (PGSIZE + n) d' m).kmem.Freeable a := by
    intro a ha
    rw [hcensus] at ha
    obtain ⟨h₁, h₂, h₃⟩ := hb.freeable a ha
    exact ⟨h₁, by rw [hkend']; exact h₂, h₃⟩
  have hvm' : ((k₀.resize np (PGSIZE + n) d' m).vm np).sz = PGSIZE + n := by
    rw [resize_vm_self]
    rfl
  have hlen' := freelist_length_ge (n := pages (PGSIZE + n)) hinv hlive
    (fun q hq hl => hb.first.only hq ((resize_live ..).mp hl)) (by rw [hvm'])
  rw [hcensus] at hlen'
  refine ⟨k₀, _, np, d', hboot, .single hstep, hinv, hlive,
    hinv.resizable hlive (by rw [resize_vm_self]; rfl) (by rw [hkend']; exact hkend) hfree, hvm',
    by rw [hkend']; exact hkend, hfree, by omega⟩

end Xv6.Shared
