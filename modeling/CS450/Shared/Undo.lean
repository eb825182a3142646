import CS450.Shared.Ownership

/-!
# Calls that change nothing, and calls that undo each other

A `GetSharedPage` that is refused changes nothing. One that runs out of memory does: the pages it
has taken are lost, and it returns between `pushcli` and `popcli`. Without such failures a process
that holds a region gets the same address again and again, and one `FreeSharedPage` takes back what
`GetSharedPage` has done, except for `shaddr` and the page tables.

## Main results

* `failed_get_unchanged_iff`: a failing `GetSharedPage` changes nothing exactly if it is refused
* `get_free_undo`: `GetSharedPage` and `FreeSharedPage` of one process in every state of every run
-/

namespace Xv6

/-- The entry of a present page. -/
def PageDir.present (d : PageDir) (u : ℕ) : Option PTE :=
  if (d.entry u).p then some (d.entry u) else none

namespace Shared

open Transition

/-! ### What can be compared -/

/-- The entry of a present page of a process. -/
def ProcVm.present (v : ProcVm) (u : ℕ) : Option PTE := v.pgdir.bind (PageDir.present · u)

/-- The pages of the page tables. -/
def ProcVm.tables (v : ProcVm) : Multiset ℕ := v.pgdir.elim 0 PageDir.tables

/-- The kernel is as before, except for the `shaddr` of `p`, its page tables, which are not on the
free list any more, and the order of the free list. -/
structure Restored (p : Slot) (k k' : Kernel) : Prop where
  regions : k'.regions = k.regions
  shared : ∀ q, (k'.vm q).shared = (k.vm q).shared
  present : ∀ u, u < KERNPAGE → (k'.vm p).present u = (k.vm p).present u
  free : (k'.kmem.freelist : Multiset ℕ) + (k'.vm p).tables =
    (k.kmem.freelist : Multiset ℕ) + (k.vm p).tables
  ncli : k'.ncli = k.ncli
  proc : k'.proc = k.proc
  other : ∀ q, q ≠ p → k'.vm q = k.vm q
  sz : (k'.vm p).sz = (k.vm p).sz

/-- Nothing has changed but page tables. -/
structure Unchanged (p : Slot) (k k' : Kernel) : Prop extends Restored p k k' where
  shaddr : (k'.vm p).shaddr = (k.vm p).shaddr

theorem Restored.refl (p : Slot) (k : Kernel) : Restored p k k :=
  ⟨rfl, fun _ => rfl, fun _ _ => rfl, rfl, rfl, rfl, fun _ _ => rfl, rfl⟩

/-! ### Requests that fail -/

/-- The request is turned down: the key or the number of pages is out of range, or the region exists
and is smaller. -/
def Refused (k : Kernel) (i count : ℤ) : Prop :=
  match keyOf i with
  | none => True
  | some key => count ≤ 0 ∨ (MAX_SH_PAGES : ℤ) < count ∨
      ((k.regions key).valid = true ∧ ((k.regions key).pageCount : ℤ) < count)

variable {k k' : Kernel} {p : Slot} {key : Key}

/-- A mapping that fails leaves interrupts disabled once more. -/
theorem mapSharedRegion_failed (h : mapSharedRegion k p key = .ok (none, k')) :
    k'.ncli = k.ncli + 1 := by
  unfold mapSharedRegion at h
  simp only at h
  split at h
  · cases h
  · split at h
    · cases h
    · obtain ⟨⟨ok, shaddr, pgdir', m⟩, -, hrest⟩ := Except.bind_eq_ok.mp h
      cases ok with
      | true => cases hrest
      | false =>
        cases hrest
        rfl

variable {count i : ℤ} {r : Option ℕ}

/-- A request fails because it is refused, or leaves interrupts disabled once more. -/
theorem allocSharedVM_failed (h : allocSharedVM k p i count = .ok (none, k')) :
    (Refused k i count ∧ k' = k) ∨ (¬ Refused k i count ∧ k'.ncli = k.ncli + 1) := by
  unfold allocSharedVM at h
  unfold Refused
  cases hkey : keyOf i with
  | none =>
    rw [hkey] at h
    cases h
    exact .inl ⟨trivial, rfl⟩
  | some key =>
    rw [hkey] at h
    simp only at h ⊢
    split at h
    · cases h
      exact .inl ⟨by omega, rfl⟩
    · split at h
      · next hvalid =>
        split at h
        · next hsmall =>
          cases h
          exact .inl ⟨.inr (.inr ⟨hvalid, hsmall⟩), rfl⟩
        · refine .inr ⟨?_, mapSharedRegion_failed h⟩
          rintro (h | h | ⟨-, h⟩) <;> omega
      · next hvalid =>
        refine .inr ⟨?_, ?_⟩
        · rintro (h | h | ⟨h, -⟩)
          · omega
          · omega
          · exact hvalid h
        · split at h
          · cases h
            rfl
          · exact (mapSharedRegion_failed h).trans rfl

/-- **A failing `GetSharedPage` changes nothing exactly if it is refused.** -/
theorem failed_get_unchanged_iff {i count : ℤ} (h : allocSharedVM k p i count = .ok (none, k')) :
    Unchanged p k k' ↔ Refused k i count := by
  rcases allocSharedVM_failed h with ⟨hrefused, rfl⟩ | ⟨hnot, hncli⟩
  · exact ⟨fun _ => hrefused, fun _ => ⟨.refl p k', rfl⟩⟩
  · refine ⟨fun hsame => ?_, fun hrefused => absurd hrefused hnot⟩
    have := hsame.ncli
    omega

/-- A key out of range. -/
theorem failed_get_unchanged_iff_bad_key : ∃ k np, Booted k ∧ CanCall k np (.getSharedPage 64 1) ∧
    allocSharedVM k np 64 1 = .ok (none, k) ∧ (Unchanged np k k ↔ Refused k 64 1) ∧
    Refused k 64 1 := by
  obtain ⟨k, np, hboot, -, hb, -⟩ := exists_booted
  have hok : allocSharedVM k np 64 1 = .ok (none, k) := rfl
  exact ⟨k, np, hboot, hb.first.canCall _, hok, failed_get_unchanged_iff hok, trivial⟩

/-! ### A run out of memory -/

/-- The request for more pages than there are. -/
theorem allocSharedLoop_short : ∀ (n i : ℕ) (pages : ℕ → ℕ) (m : Kmem), m.freelist.length < n →
    ∃ pages' m', allocSharedLoop n i pages m = (false, pages', m') ∧ m'.freelist = [] := by
  intro n
  induction n with
  | zero => exact fun i pages m h => absurd h (Nat.not_lt_zero _)
  | succ n ih =>
    intro i pages m hlen
    cases hl : m.freelist with
    | nil => exact ⟨pages, _, by simp only [allocSharedLoop, kalloc, hl]; exact ⟨rfl, rfl⟩⟩
    | cons a l =>
      obtain ⟨m₁, hk, hf, -⟩ := kalloc_some hl
      rw [hl, List.length_cons] at hlen
      simp only [allocSharedLoop, hk]
      refine ih (i + 1) _ _ ?_
      rw [memset_freelist, hf]
      omega

/-- A request for more pages than there are takes them all and fails. -/
theorem allocSharedVM_short (hkey : keyOf i = some key)
    (hvalid : (k.regions key).valid = false) (hpos : 0 < count)
    (hmax : count ≤ (MAX_SH_PAGES : ℤ)) (hfree : k.kmem.freelist.length < count.toNat) :
    ∃ k', allocSharedVM k p i count = .ok (none, k') ∧ k'.kmem.freelist = [] ∧ k'.vm = k.vm ∧
      ∀ key, (k'.regions key).valid = (k.regions key).valid := by
  obtain ⟨pages', m, hloop, hm⟩ :=
    allocSharedLoop_short count.toNat 0 (k.regions key).pages k.kmem hfree
  refine ⟨{ (k.setRegion key { k.regions key with pages := pages' }).setKmem m with
    ncli := k.ncli + 1 }, ?_, hm, rfl, fun key' => ?_⟩
  · unfold allocSharedVM
    simp only [hkey, hvalid, Bool.false_eq_true, ↓reduceIte, hloop]
    rw [if_neg (by omega)]
  · rcases eq_or_ne key' key with rfl | hne
    · simp
    · rw [setKmem_regions, setRegion_regions_of_ne _ _ hne]

/-- Physical memory has 57344 pages. -/
theorem BootState.card_le {k₀ : Kernel} {np : Slot} (hb : BootState k₀ np) :
    Multiset.card k₀.census ≤ 57344 := by
  have hnd : (k₀.census.map (· / PGSIZE)).Nodup := by
    refine hb.inv.nodup.map_on fun a ha b hb' hab => ?_
    obtain ⟨h₁, -, -⟩ := hb.freeable a ha
    obtain ⟨h₂, -, -⟩ := hb.freeable b hb'
    simp only [PGSIZE] at h₁ h₂ hab
    omega
  have hsub : (k₀.census.map (· / PGSIZE)) ⊆ (Finset.range 57344).val := by
    intro v hv
    obtain ⟨a, ha, rfl⟩ := Multiset.mem_map.mp hv
    obtain ⟨-, -, h⟩ := hb.freeable a ha
    simp only [PHYSTOP, PGSIZE, Finset.range_val, Multiset.mem_range] at h ⊢
    omega
  have hle := Multiset.card_le_card ((Multiset.le_iff_subset hnd).mpr hsub)
  rw [Multiset.card_map] at hle
  exact hle.trans (Finset.card_range 57344).le

/-- The state after the first process has grown by `n` pages. -/
structure Filled (k₀ k : Kernel) (np : Slot) (n : ℕ) : Prop where
  inv : Inv k
  noFail : k.kmem.NoFail
  proc : k.proc = k₀.proc
  regions : k.regions = k₀.regions
  sz : (k.vm np).sz = (n + 1) * PGSIZE
  shaddr : (k.vm np).shaddr = KERNBASE
  census : k.census = k₀.census

namespace Filled

variable {k₀ k : Kernel} {np : Slot} {n : ℕ}

theorem pages_sz (h : Filled k₀ k np n) : pages (k.vm np).sz = n + 1 := by
  rw [h.sz]
  simp only [pages, PGSIZE]
  omega

theorem live (h : Filled k₀ k np n) (hb : BootState k₀ np) : k.Live np := by
  unfold Kernel.Live
  rw [h.proc]
  exact hb.first.live

theorem canCall (h : Filled k₀ k np n) (hb : BootState k₀ np) (c : Call) : CanCall k np c := by
  have hcan := hb.first.canCall c
  unfold CanCall at hcan ⊢
  rw [h.proc]
  exact hcan

/-- Pages of the process are not free. -/
theorem freelist_le (h : Filled k₀ k np n) (hb : BootState k₀ np) :
    k.kmem.freelist.length + (n + 1) ≤ 57344 := by
  have hp := h.live hb
  obtain ⟨d, kstack, hd, -, hs⟩ := h.inv.space np hp
  have hframes : Multiset.card (d.frames 0 (pages (k.vm np).sz)) = n + 1 := by
    rw [PageDir.card_frames fun v hv => hs.own v hv, h.pages_sz]
  have howned : n + 1 ≤ Multiset.card (k.procPages np) := by
    rw [procPages_of_live hp, ← hframes]
    simp only [ProcVm.owned, hd, Option.elim_some, Multiset.card_add]
    omega
  have hsum : Multiset.card (k.procPages np) ≤ Multiset.card (∑ q, k.procPages q) :=
    Multiset.card_le_card (Finset.single_le_sum (fun q _ => Multiset.zero_le _)
      (Finset.mem_univ np))
  have hcard := hb.card_le
  rw [← h.census] at hcard
  simp only [Kernel.census, Multiset.card_add, Multiset.coe_card] at hcard
  omega

/-- One more page, as long as two are free. -/
theorem grow (h : Filled k₀ k np n) (hb : BootState k₀ np) (hfree : 2 ≤ k.kmem.freelist.length) :
    ∃ k', SafeStep k (np, .sbrk PGSIZE) k' ∧ Filled k₀ k' np (n + 1) := by
  have hp := h.live hb
  have hle := h.freelist_le hb
  obtain ⟨d, kstack, hd, hks, hs⟩ := h.inv.space np hp
  have hnew : addInt32 (k.vm np).sz (PGSIZE : ℕ) = (n + 2) * PGSIZE := by
    rw [h.sz]
    simp only [addInt32, WORD, PGSIZE]
    omega
  have hpages : pages ((n + 2) * PGSIZE) = n + 2 := by
    simp only [pages, PGSIZE]
    omega
  have hlt : (n + 2) * PGSIZE < KERNBASE := by
    simp only [PGSIZE, KERNBASE]
    omega
  obtain ⟨l, d', m, hal, hg⟩ := @allocuvm_ok (k.vm np).sz ((n + 2) * PGSIZE) d k.kmem KERNBASE
    (le_refl _) hlt (by rw [h.sz]; exact Nat.mul_le_mul_right _ (by omega))
    (fun w hlo hhi => hs.gap w hlo (by
      have htop : (k.vm np).top = KERNPAGE := by
        unfold ProcVm.top
        rw [h.shaddr]
        decide
      rw [htop]
      simp only [KERNPAGE]
      omega))
    (by rw [hpages, h.pages_sz]; omega)
  have hgrow : growproc k np (PGSIZE : ℕ) = .ok (0, k.resize np ((n + 2) * PGSIZE) d' m) := by
    unfold growproc
    simp only [hd, hnew, h.shaddr, hal, Except.ok_bind]
    rw [if_pos (by decide), if_neg (by simp [PGSIZE])]
    simp [switchuvm, hks, h.shaddr, Kernel.resize, ProcVm.resize, Kernel.setVm, Kernel.setKmem]
  have hno : (k.resize np ((n + 2) * PGSIZE) d' m).kmem.NoFail := hg.mem.noFail h.noFail
  have hguard : NotEmptied k (np, .sbrk PGSIZE) := by
    rintro n he ⟨hneg, -⟩
    cases he
    exact absurd hneg (by decide)
  obtain ⟨hinv, heff⟩ := growproc_spec h.inv hp (hguard _ rfl) hgrow hno
  refine ⟨_, ⟨⟨h.canCall hb _, .int (k.vm np).sz, ?_⟩, hguard, hno⟩, hinv, hno, h.proc,
    h.regions, ?_, ?_, ?_⟩
  · simp only [syscall, sbrk, hgrow, Except.ok_bind]
    rfl
  · rw [resize_vm_self]
    rfl
  · rw [resize_vm_self]
    exact h.shaddr
  · rcases heff with ht | ⟨hf, -⟩
    · exact ht.census.trans h.census
    · exact hf.census.trans h.census

/-- Growing page by page the process takes all memory but a few pages. -/
theorem exhaust (hb : BootState k₀ np) (h : Filled k₀ k np n) :
    ∃ es k' n', Run SafeStep k es k' ∧ Filled k₀ k' np n' ∧ k'.kmem.freelist.length < 2 := by
  -- induction on the pages that are left for other purposes
  induction hr : 57344 - n generalizing k n with
  | zero =>
    have := h.freelist_le hb
    omega
  | succ r ih =>
    by_cases hfree : 2 ≤ k.kmem.freelist.length
    · obtain ⟨k₁, hstep, h₁⟩ := h.grow hb hfree
      obtain ⟨es, k', n', hrun, h', hshort⟩ := ih h₁ (by omega)
      exact ⟨_, k', n', (Run.single hstep).trans hrun, h', hshort⟩
    · exact ⟨[], k, n, .nil, h, by omega⟩

end Filled

theorem BootState.filled {k₀ : Kernel} {np : Slot} (hb : BootState k₀ np)
    (hno : k₀.kmem.NoFail) : Filled k₀ k₀ np 0 := by
  obtain ⟨d, kstack, hv⟩ := hb.first.vm
  refine ⟨hb.inv, hno, rfl, rfl, ?_, ?_, rfl⟩
  · rw [hv, Function.update_self, zero_add, one_mul]
  · rw [hv, Function.update_self]

/-- **Running out of memory.** After boot the first process grows until fewer than two pages are
free and asks for two. What was free is taken, although no region is created and no memory
changes, and interrupts are disabled once more. -/
theorem failed_get_leaks : ∃ k₀ np es k k', Booted k₀ ∧ Run SafeStep k₀ es k ∧
    CanCall k np (.getSharedPage 0 2) ∧ allocSharedVM k np 0 2 = .ok (none, k') ∧
    k'.kmem.freelist = [] ∧ k'.vm = k.vm ∧ (∀ key, (k'.regions key).valid = false) ∧
    k'.ncli = k.ncli + 1 ∧ ¬ Unchanged np k k' := by
  obtain ⟨k₀, np, hboot, hno, hb, -⟩ := exists_booted
  obtain ⟨es, k, n, hrun, h, hshort⟩ := (hb.filled hno).exhaust hb
  have hinvalid : ∀ key, (k.regions key).valid = false := by
    rw [h.regions]
    exact hb.first.invalid
  obtain ⟨k', hok, hempty, hvm, hregions⟩ := allocSharedVM_short (p := np)
    (show keyOf 0 = some 0 from rfl) (hinvalid 0) (show (0 : ℤ) < 2 by decide) (by decide) hshort
  have hncli : k'.ncli = k.ncli + 1 := by
    rcases allocSharedVM_failed hok with ⟨hrefused, -⟩ | ⟨-, hncli⟩
    · rcases hrefused with h | h | ⟨h, -⟩
      · exact absurd h (by decide)
      · exact absurd h (by decide)
      · rw [hinvalid] at h
        cases h
    · exact hncli
  refine ⟨k₀, np, es, k, k', hboot, hrun, h.canCall hb _, hok, hempty, hvm,
    fun key => (hregions key).trans (hinvalid key), hncli, fun hsame => ?_⟩
  have := hsame.ncli
  omega

/-! ### Page numbers beyond the count -/

/-- A region has no page numbers beyond its count. -/
def Clear (k : Kernel) : Prop :=
  ∀ key j, (k.regions key).pageCount ≤ j → (k.regions key).pages j = 0

/-- A region that is not valid is as it was after boot. -/
theorem Clear.eq_zero (hc : Clear k) (h : InvCore k) (hv : (k.regions key).valid = false) :
    k.regions key = SharedRegion.zero := by
  obtain ⟨href, hcount⟩ := h.invalid key hv
  have hpages : (k.regions key).pages = fun _ => 0 := funext fun j => hc key j (by omega)
  calc k.regions key = ⟨(k.regions key).valid, (k.regions key).refCount,
        (k.regions key).pageCount, (k.regions key).pages⟩ := rfl
    _ = SharedRegion.zero := by rw [hv, href, hcount, hpages]; rfl

/-- Only the changed region has to be checked. -/
theorem Clear.setRegion (hc : Clear k) {r : SharedRegion}
    (hr : ∀ j, r.pageCount ≤ j → r.pages j = 0) : Clear (k.setRegion key r) := by
  intro key' j hj
  rcases eq_or_ne key' key with rfl | hne
  · rw [setRegion_regions_self] at hj ⊢
    exact hr j hj
  · rw [setRegion_regions_of_ne _ _ hne] at hj ⊢
    exact hc key' j hj

theorem allocSharedLoop_tail : ∀ (n i : ℕ) {pages pages' : ℕ → ℕ} {m m' : Kmem} {ok : Bool},
    allocSharedLoop n i pages m = (ok, pages', m') → ∀ j, i + n ≤ j → pages' j = pages j := by
  intro n
  induction n with
  | zero =>
    intro i pages pages' m m' ok h j _
    cases h
    rfl
  | succ n ih =>
    intro i pages pages' m m' ok h j hj
    rw [allocSharedLoop] at h
    split at h
    · cases h
      rfl
    · rw [ih (i + 1) h j (by omega), Function.update_of_ne (by omega)]

theorem freeSharedLoop_pages : ∀ (n i : ℕ) {pages pages' : ℕ → ℕ} {m m' : Kmem},
    freeSharedLoop n i pages m = .ok (pages', m') →
    ∀ j, pages' j = if i ≤ j ∧ j < i + n then 0 else pages j := by
  intro n
  induction n with
  | zero =>
    intro i pages pages' m m' h j
    cases h
    rw [if_neg (by omega)]
  | succ n ih =>
    intro i pages pages' m m' h j
    obtain ⟨m₁, -, hrest⟩ := Except.bind_eq_ok.mp h
    rw [ih (i + 1) hrest j]
    rcases eq_or_ne j i with rfl | hne
    · rw [Function.update_self, if_neg (by omega), if_pos (by omega)]
    · rw [Function.update_of_ne hne]
      exact if_congr (by omega) rfl rfl

/-- Mapping a region changes no page numbers. -/
theorem mapSharedRegion_clear (hc : Clear k)
    (h : mapSharedRegion k p key = .ok (r, k')) : Clear k' := by
  unfold mapSharedRegion at h
  simp only at h
  split at h
  · cases h
    exact hc
  · split at h
    · cases h
    · obtain ⟨⟨ok, shaddr, pgdir', m⟩, -, hrest⟩ := Except.bind_eq_ok.mp h
      cases ok with
      | true =>
        cases hrest
        exact hc.setRegion (hc key)
      | false =>
        cases hrest
        exact hc

theorem allocSharedVM_clear (hc : Clear k) (h : InvCore k)
    (hok : allocSharedVM k p i count = .ok (r, k')) (hno : k'.kmem.NoFail) : Clear k' := by
  unfold allocSharedVM at hok
  split at hok
  · cases hok
    exact hc
  · next key _ =>
    split at hok
    · cases hok
      exact hc
    · simp only at hok
      split at hok
      · split at hok
        · cases hok
          exact hc
        · exact mapSharedRegion_clear hc hok
      · next hv =>
        have hcount := (h.invalid key (by simpa using hv)).2
        split at hok
        · next pages m hloop =>
          cases hok
          obtain ⟨-, ⟨hf, -⟩ | ⟨-, -, hfail, -⟩⟩ := allocSharedLoop_spec _ _ hloop
          · cases hf
          · exact absurd hno hfail
        · next pages m hloop =>
          have hnew : Clear ((k.setRegion key ⟨true, 0, count.toNat, pages⟩).setKmem m) := by
            refine hc.setRegion (r := ⟨true, 0, count.toNat, pages⟩) fun j hj => ?_
            change pages j = 0
            rw [allocSharedLoop_tail _ _ hloop j (by simpa using hj)]
            exact hc key j (by omega)
          exact mapSharedRegion_clear hnew hok

theorem dropRegion_clear {r : ℤ} (hc : Clear k) (hok : dropRegion k key = .ok (r, k')) :
    Clear k' := by
  unfold dropRegion at hok
  simp only at hok
  split at hok
  · split at hok
    · obtain ⟨⟨pages', m⟩, hloop, hrest⟩ := Except.bind_eq_ok.mp hok
      cases hrest
      refine hc.setRegion fun j _ => ?_
      change pages' j = 0
      rw [freeSharedLoop_pages _ _ hloop j]
      split
      · rfl
      · exact hc key j (by omega)
    · cases hok
      exact hc.setRegion (hc key)
  · cases hok
    exact hc

theorem deallocProcSharedVM_clear {r : ℤ} (hc : Clear k)
    (hok : deallocProcSharedVM k p i = .ok (r, k')) : Clear k' := by
  unfold deallocProcSharedVM at hok
  split at hok
  · cases hok
    exact hc
  · simp only at hok
    split at hok
    · cases hok
      exact hc
    · split at hok
      · cases hok
      · split at hok
        · cases hok
          exact hc
        · exact dropRegion_clear (k := k.setVm p _) hc hok

theorem deallocAllLoop_clear : ∀ (keys : List Key) {k k' : Kernel}, Clear k →
    deallocAllLoop p keys k = .ok k' → Clear k' := by
  intro keys
  induction keys with
  | nil =>
    intro k k' hc hok
    cases hok
    exact hc
  | cons key keys ih =>
    intro k k' hc hok
    rw [deallocAllLoop] at hok
    split at hok
    · obtain ⟨⟨r, k₁⟩, hdrop, hrest⟩ := Except.bind_eq_ok.mp hok
      exact ih (deallocProcSharedVM_clear hc hdrop) hrest
    · exact ih hc hok

theorem reap_clear {c : Slot} (hc : Clear k) (hok : reap k c = .ok k') : Clear k' := by
  obtain ⟨k₁, hall, hrest⟩ := Except.bind_eq_ok.mp hok
  obtain ⟨m₁, -, hrest⟩ := Except.bind_eq_ok.mp hrest
  obtain ⟨m₂, -, hrest⟩ := Except.bind_eq_ok.mp hrest
  have hc₁ : Clear k₁ := deallocAllLoop_clear _ hc hall
  cases hrest
  exact hc₁

theorem wait_clear {r : Option ℤ} (hc : Clear k) (hok : wait k p = .ok (r, k')) : Clear k' := by
  unfold wait at hok
  simp only at hok
  split at hok
  · obtain ⟨k₁, hreap, hrest⟩ := Except.bind_eq_ok.mp hok
    cases hrest
    exact reap_clear (k := k.setProc p _) hc hreap
  · split at hok
    · cases hok
      exact hc
    · cases hok
      exact hc

theorem SafeStep.clear {e : Slot × Call} (h : Inv k) (hc : Clear k) (hs : SafeStep k e k') :
    Clear k' := by
  obtain ⟨p, c⟩ := e
  obtain ⟨⟨hcan, r, hok⟩, -, hno⟩ := hs
  have hp : k.Live p := hcan.live
  obtain ⟨pgdir, kstack, hd, -, hspace⟩ := h.space p hp
  have hrun : Runs k p r k' c := syscall_runs hok
  -- `fork`, `sbrk` and `exit` do not touch the table of regions
  have hsame : k'.regions = k.regions → Clear k' := fun hr => by
    unfold Clear
    rw [hr]
    exact hc
  cases c with
  | getSharedPage i count =>
    obtain ⟨va, hrun, -⟩ := hrun
    exact allocSharedVM_clear hc h.toInvCore hrun hno
  | freeSharedPage i =>
    obtain ⟨n, hrun, -⟩ := hrun
    exact deallocProcSharedVM_clear hc hrun
  | fork =>
    obtain ⟨n, hrun, -⟩ := hrun
    rcases fork_cases hd hp hspace.sz_le h.link hrun with ⟨-, rfl⟩ |
      ⟨-, np, c, v, -, -, -, hset, -⟩ | ⟨-, np, kstack, d, l, m, -, -, -, hset⟩
    · exact hc
    · exact hsame hset.regions
    · exact hsame hset.regions
  | sbrk n =>
    obtain ⟨n', hrun⟩ := hrun
    cases growproc_result hd hspace.toGapOk hrun with
    | same => exact hc
    | grown | undone | shrunk => exact hsame rfl
  | exit =>
    have hrun : exit k p = .ok k' := hrun
    unfold exit at hrun
    split at hrun
    · cases hrun
    · cases hrun
      exact hsame rfl
  | wait =>
    obtain ⟨n, hrun, -⟩ := hrun
    exact wait_clear hc hrun

theorem Effect.kend {c : Call} (h : Effect k p k' c) : k'.kmem.kend = k.kmem.kend := by
  cases h with
  | takes h => exact h.mem.elim fun _ ha => ha.kend
  | shrink h _ => exact h.mem.elim fun _ hf => hf.kend
  | drop h _ _ => exact h.mem.elim fun _ hf => hf.kend
  | reap h _ _ _ => exact h.mem.elim fun _ hf => hf.kend

/-- What the two calls rely on in every state of a run: the invariant, no page numbers beyond the
counts, and that every page can be freed. -/
structure Settled (k : Kernel) : Prop where
  inv : Inv k
  clear : Clear k
  freeable : ∀ pa ∈ k.census, k.kmem.Freeable pa

theorem SafeStep.settled {e : Slot × Call} (h : Settled k) (hs : SafeStep k e k') : Settled k' := by
  obtain ⟨hinv, heff⟩ := hs.inv h.inv
  refine ⟨hinv, hs.clear h.inv h.clear, fun pa hpa => ?_⟩
  rw [heff.census] at hpa
  obtain ⟨h₁, h₂, h₃⟩ := h.freeable pa hpa
  exact ⟨h₁, by rw [heff.kend]; exact h₂, h₃⟩

theorem run_settled {k₀ : Kernel} {es : List (Slot × Call)} (hboot : Booted k₀)
    (hrun : Run SafeStep k₀ es k) : Settled k := by
  obtain ⟨kend, kdata, others, init, hlink, hok, hno⟩ := hboot
  obtain ⟨np, hb, -⟩ := boot_inv hlink hok hno
  refine hrun.invariant (I := Settled) (fun s e s' h hs => hs.settled h) ⟨hb.inv, ?_, hb.freeable⟩
  intro key j _
  rw [hb.first.regions]
  rfl

/-! ### `GetSharedPage`, then `FreeSharedPage` -/

/-- The entries of a region are cleared and its reference is dropped. -/
theorem deallocProcSharedVM_held {r : ℤ} (h : Inv k) (hkey : keyOf i = some key)
    (hk : (k.vm p).Holds key) (hok : deallocProcSharedVM k p i = .ok (r, k')) :
    ∃ pgdir pgdir', (k.vm p).pgdir = some pgdir ∧ PageDir.SameTables pgdir pgdir' ∧
      (∀ j, j < (k.regions key).pageCount → pgdir'.entry ((k.vm p).base key + j) = .zero) ∧
      (∀ u, u < (k.vm p).base key ∨ (k.vm p).base key + (k.regions key).pageCount ≤ u →
        pgdir'.entry u = pgdir.entry u) ∧
      dropRegion (k.setVm p ((k.vm p).withoutRegion key pgdir')) key = .ok (r, k') := by
  obtain ⟨pgdir, kstack, hd, -, hs⟩ := h.space p (h.live_of_holds hk)
  have hhigh := hs.high key hk
  obtain ⟨pgdir', hloop, hsame, hin, hout⟩ := clearSharedLoop_spec ((k.vm p).base key)
    k.kmem (k.regions key).pageCount 0 pgdir (by simp only [KERNPAGE] at hhigh; omega)
    fun j _ hj => by rw [hs.held key hk j (by omega)]; rfl
  refine ⟨pgdir, pgdir', hd, hsame, fun j hj => hin j (by omega) (by omega),
    fun u hu => hout u (by omega), ?_⟩
  unfold deallocProcSharedVM at hok
  have hva : ((k.vm p).shared key).va ≠ 0 := by
    rcases h.ref p key with hr | ⟨-, hva⟩
    · simp [ProcVm.Holds, hr] at hk
    · exact hva
  rw [← hs.va key hk] at hloop
  simp only [hkey, hd, hloop] at hok
  rwa [if_neg (by rintro (hn | hn); exacts [hk hn, hva hn])] at hok

/-- `GetSharedPage` has mapped the region `R` into `p`, which did not refer to it: the region of the
key, or a new one of pages from the free list. -/
structure Attached (k : Kernel) (p : Slot) (key : Key) (R : SharedRegion) (l : List ℕ)
    (pgdir pgdir' : PageDir) (m₀ m : Kmem) : Prop where
  pgdir_eq : (k.vm p).pgdir = some pgdir
  mapped : MappedDown R.pages R.pageCount 0 (k.vm p).top l pgdir pgdir' m₀ m
  room : R.pageCount ≤ (k.vm p).top
  valid : R.valid = true
  origin : (R = k.regions key ∧ m₀ = k.kmem) ∨
    ((k.regions key).valid = false ∧ R.refCount = 0 ∧
      Allocated (pageRange R.pages 0 R.pageCount) k.kmem m₀)

/-- The kernel with one more reference to the region `R` in `p`. -/
def Kernel.attach (k : Kernel) (p : Slot) (key : Key) (R : SharedRegion) (pgdir : PageDir)
    (m : Kmem) : Kernel :=
  ((k.setRegion key { R with refCount := R.refCount + 1 }).setVm p
    ((k.vm p).withRegion key R.pageCount pgdir)).setKmem m

/-- `GetSharedPage` of a process that does not refer to the region. -/
theorem allocSharedVM_attach (h : Inv k) (hp : k.Live p)
    (hnot : ∀ key, keyOf i = some key → ¬ (k.vm p).Holds key)
    (hok : allocSharedVM k p i count = .ok (r, k')) (hno : k'.kmem.NoFail) :
    k' = k ∨ ∃ key R l pgdir pgdir' m₀ m, keyOf i = some key ∧
      Attached k p key R l pgdir pgdir' m₀ m ∧ k' = k.attach p key R pgdir' m := by
  unfold allocSharedVM at hok
  split at hok
  · cases hok
    exact .inl rfl
  · next key hkey =>
    have hnew := hnot key hkey
    split at hok
    · cases hok
      exact .inl rfl
    · simp only at hok
      split at hok
      · next hv =>
        split at hok
        · cases hok
          exact .inl rfl
        · obtain ⟨pgdir, pgdir', l, m, hd, hroom, hm, rfl⟩ :=
            mapSharedRegion_noFail h.toInvCore hp hnew hok hno
          exact .inr ⟨key, k.regions key, l, pgdir, pgdir', k.kmem, m, hkey,
            ⟨hd, hm, by omega, hv, .inl ⟨rfl, rfl⟩⟩, rfl⟩
      · next hv =>
        have hv : (k.regions key).valid = false := by simpa using hv
        split at hok
        · next pages m hloop =>
          cases hok
          obtain ⟨-, ⟨hf, -⟩ | ⟨-, -, hfail, -⟩⟩ := allocSharedLoop_spec _ _ hloop
          · cases hf
          · exact absurd hno hfail
        · next pages m₀ hloop =>
          obtain ⟨-, ⟨-, ha⟩ | ⟨hf, -⟩⟩ := allocSharedLoop_spec _ _ hloop
          · have hcore := (newRegion_change h.toInvCore p hv (by omega) (by omega) ha).inv
              h.toInvCore
            obtain ⟨pgdir, pgdir', l, m, hd, hroom, hm, rfl⟩ :=
              mapSharedRegion_noFail hcore hp hnew hok hno
            simp only [setKmem_regions, setRegion_regions_self, setKmem_vm, setRegion_vm,
              setKmem_kmem] at hroom hm hd
            refine .inr ⟨key, ⟨true, 0, count.toNat, pages⟩, l, pgdir, pgdir', m₀, m, hkey,
              ⟨hd, hm, by simp only; omega, rfl, .inr ⟨hv, rfl, ha⟩⟩, ?_⟩
            simp [Kernel.attach, Kernel.setRegion, Kernel.setKmem, Kernel.setVm]
          · cases hf

theorem shared_withoutRegion_withRegion {v : ProcVm} (hv : v.shared key = ⟨none, 0⟩) (n : ℕ)
    (d d' : PageDir) : ((v.withRegion key n d).withoutRegion key d').shared = v.shared := by
  simp only [ProcVm.withoutRegion, ProcVm.withRegion, Function.update_idem]
  rw [← hv, Function.update_eq_self]

/-- Clearing the entries of pages that were absent before they were mapped. -/
theorem MappedDown.present_eq {pages : ℕ → ℕ} {n i top : ℕ} {l : List ℕ} {d d' d'' : PageDir}
    {m m' : Kmem} (hm : MappedDown pages n i top l d d' m m') (hn : n ≤ top)
    (hin : ∀ j, j < n → d''.entry (top - n + j) = .zero)
    (hout : ∀ u, u < top - n ∨ top - n + n ≤ u → d''.entry u = d'.entry u) (u : ℕ) :
    d''.present u = d.present u := by
  unfold PageDir.present
  by_cases hu : top - n ≤ u ∧ u < top
  · have habs := hm.absent (top - 1 - u) (by omega)
    have hzero := hin (u - (top - n)) (by omega)
    rw [show top - 1 - (top - 1 - u) = u by omega] at habs
    rw [show top - n + (u - (top - n)) = u by omega] at hzero
    rw [hzero, habs]
    rfl
  · rw [hout u (by omega), hm.outside u (by omega)]

/-- **`FreeSharedPage` takes back** what `GetSharedPage` has done. -/
theorem Attached.restored {R : SharedRegion} {l : List ℕ} {pgdir pgdir' : PageDir} {m₀ m : Kmem}
    {r : ℤ} (ha : Attached k p key R l pgdir pgdir' m₀ m) (h : Inv k) (hc : Clear k)
    (hp : k.Live p) (hkey : keyOf i = some key) (hnot : ¬ (k.vm p).Holds key)
    (h₁ : Inv (k.attach p key R pgdir' m)) (hc₁ : Clear (k.attach p key R pgdir' m))
    (hok : deallocProcSharedVM (k.attach p key R pgdir' m) p i = .ok (r, k')) :
    Restored p k k' := by
  set k₁ := k.attach p key R pgdir' m with hk₁
  have hvm₁ : k₁.vm p = (k.vm p).withRegion key R.pageCount pgdir' := by
    simp [hk₁, Kernel.attach]
  have hreg₁ : k₁.regions key = { R with refCount := R.refCount + 1 } := by
    simp [hk₁, Kernel.attach]
  have hheld : (k₁.vm p).Holds key := by
    rw [hvm₁]
    simp [ProcVm.Holds, ProcVm.withRegion]
  have hbase : (k₁.vm p).base key = (k.vm p).top - R.pageCount := by
    rw [hvm₁]
    simp only [ProcVm.base, ProcVm.withRegion, Function.update_self]
    exact Nat.mul_div_cancel _ (by decide)
  have hp₁ : k₁.Live p := hp
  obtain ⟨h₂, -, -⟩ := deallocProcSharedVM_spec h₁ hp₁ hok
  have hc₂ := deallocProcSharedVM_clear hc₁ hok
  obtain ⟨d, pgdir₂, hd, hsame, hin, hout, hdrop⟩ := deallocProcSharedVM_held h₁ hkey hheld hok
  obtain rfl : pgdir' = d := by
    rw [hvm₁] at hd
    exact Option.some.inj hd
  rw [hbase, hreg₁] at hin hout
  obtain ⟨-, hcases⟩ := dropRegion_spec (k := k₁.setVm p _) (by
    rw [setVm_regions, hreg₁]
    exact ha.valid) hdrop
  rw [setVm_regions, hreg₁] at hcases
  simp only at hcases
  have hnone : (k.vm p).shared key = ⟨none, 0⟩ := by
    rcases h.ref p key with hr | ⟨hr, -⟩
    · exact hr
    · exact absurd (by simp [ProcVm.Holds, hr]) hnot
  -- what both ends of `dropRegion` have in common
  have hvm₂ : k'.vm = (k₁.setVm p ((k₁.vm p).withoutRegion key pgdir₂)).vm := by
    rcases hcases with ⟨-, l, pages', m, -, -, rfl⟩ | ⟨-, rfl⟩ <;> rfl
  have hself : k'.vm p = ((k.vm p).withRegion key R.pageCount pgdir').withoutRegion key pgdir₂ := by
    rw [hvm₂, setVm_vm_self, hvm₁]
  have hother : ∀ q, q ≠ p → k'.vm q = k.vm q := by
    intro q hq
    rw [hvm₂, setVm_vm_of_ne _ _ hq]
    exact setVm_vm_of_ne _ _ hq
  have hregs : ∀ key', key' ≠ key → k'.regions key' = k.regions key' := by
    intro key' hne
    rcases hcases with ⟨-, l, pages', m, -, -, rfl⟩ | ⟨-, rfl⟩ <;>
      simp [setRegion_regions_of_ne _ _ hne, hk₁, Kernel.attach]
  -- an existing region has its count back, a new one is gone and its pages are free
  have hend : (m₀ = k.kmem ∧ k'.kmem = m ∧ k'.regions key = k.regions key) ∨
      (∃ l' : List ℕ, (l' : Multiset ℕ) = pageRange R.pages 0 R.pageCount ∧
        Freed l' m k'.kmem ∧ Allocated (pageRange R.pages 0 R.pageCount) k.kmem m₀ ∧
        k'.regions key = k.regions key) := by
    rcases ha.origin with ⟨rfl, rfl⟩ | ⟨hv, href, hnew⟩
    · have hpos := h.pos key ha.valid
      rcases hcases with ⟨hone, -⟩ | ⟨-, rfl⟩
      · omega
      · refine .inl ⟨rfl, rfl, ?_⟩
        rw [setRegion_regions_self, add_sub_cancel_right]
    · rcases hcases with ⟨-, l', pages', m', hl', hf, rfl⟩ | ⟨hmore, -⟩
      · refine .inr ⟨l', hl'.trans (owned_of_valid ha.valid), hf, hnew, ?_⟩
        have hgone := @Clear.eq_zero _ key hc₂ h₂.toInvCore (by simp)
        rw [hgone, hc.eq_zero h.toInvCore hv]
      · omega
  refine ⟨funext fun key' => ?_, fun q => ?_, fun u hu => ?_, ?_, ?_, ?_, hother, ?_⟩
  · rcases eq_or_ne key' key with rfl | hne
    · rcases hend with ⟨-, -, hr⟩ | ⟨-, -, -, -, hr⟩ <;> exact hr
    · exact hregs key' hne
  · rcases eq_or_ne q p with rfl | hq
    · rw [hself, shared_withoutRegion_withRegion hnone]
    · rw [hother q hq]
  · have hleft : (k'.vm p).present u = pgdir₂.present u := by
      rw [hself]
      rfl
    have hright : (k.vm p).present u = pgdir.present u := by
      unfold ProcVm.present
      rw [ha.pgdir_eq]
      rfl
    rw [hleft, hright]
    exact ha.mapped.present_eq ha.room hin hout u
  · have htables : (k'.vm p).tables = pgdir.tables + (l : Multiset ℕ) := by
      rw [hself, ← ha.mapped.tables]
      exact hsame.tables_eq
    have htables₀ : (k.vm p).tables = pgdir.tables := by
      unfold ProcVm.tables
      rw [ha.pgdir_eq]
      rfl
    rw [htables, htables₀]
    have hfree := ha.mapped.mem.freelist
    rcases hend with ⟨rfl, hm, -⟩ | ⟨l', hl', hf, hnew, -⟩
    · rw [hm, hfree, ← Multiset.coe_add]
      abel
    · rw [hf.freelist, hnew.freelist, hfree, ← Multiset.coe_add, ← Multiset.coe_add,
        ← Multiset.coe_add, hl']
      abel
  · rcases hcases with ⟨-, l, pages', m, -, -, rfl⟩ | ⟨-, rfl⟩ <;> rfl
  · rcases hcases with ⟨-, l, pages', m, -, -, rfl⟩ | ⟨-, rfl⟩ <;> rfl
  · rw [hself]
    rfl

/-- `FreeSharedPage` of a held region: the reference and the entries are gone. -/
theorem Settled.free_held (h : Settled k) (hkey : keyOf i = some key)
    (hk : (k.vm p).Holds key) : ∃ r k', deallocProcSharedVM k p i = .ok (r, k') ∧
      ¬ (k'.vm p).Holds key ∧ ∀ j, j < (k.regions key).pageCount →
        (k'.vm p).present ((k.vm p).base key + j) = none := by
  obtain ⟨r, k', hok⟩ := deallocProcSharedVM_ok h.inv hkey hk fun pa hpa =>
    h.freeable pa (Multiset.mem_of_le (regions_le_census k)
      (Multiset.mem_sum.mpr ⟨key, Finset.mem_univ _, hpa⟩))
  obtain ⟨pgdir, pgdir', hd, -, hin, -, hdrop⟩ := deallocProcSharedVM_held h.inv hkey hk hok
  have hself : k'.vm p = (k.vm p).withoutRegion key pgdir' := by
    obtain ⟨-, ⟨-, l, pages', m, -, -, rfl⟩ | ⟨-, rfl⟩⟩ :=
      dropRegion_spec (k := k.setVm p _) (h.inv.valid_of_holds hk) hdrop
    · exact setVm_vm_self ..
    · exact setVm_vm_self ..
  refine ⟨r, k', hok, ?_, fun j hj => ?_⟩
  · rw [hself]
    exact not_holds_withoutRegion _ _ _
  · rw [hself]
    change pgdir'.present _ = none
    unfold PageDir.present
    rw [hin j hj]
    rfl

/-- `FreeSharedPage` of a region that is not held. -/
theorem deallocProcSharedVM_not_held (hnot : ∀ key, keyOf i = some key → ¬ (k.vm p).Holds key) :
    deallocProcSharedVM k p i = .ok (-1, k) := by
  unfold deallocProcSharedVM
  cases hkey : keyOf i with
  | none => rfl
  | some key =>
    simp only
    rw [if_pos (.inl (not_not.mp (hnot key hkey)))]

/-- `GetSharedPage` of a held region. -/
theorem allocSharedVM_held (h : InvCore k) (hkey : keyOf i = some key)
    (hk : (k.vm p).Holds key) (hpos : 1 ≤ count) (hle : count ≤ (k.regions key).pageCount) :
    allocSharedVM k p i count = .ok (some ((k.vm p).shared key).va, k) := by
  have hv := h.valid_of_holds hk
  have hmax := (h.valid key hv).2
  unfold allocSharedVM
  simp only [hkey, hv, ↓reduceIte]
  rw [if_neg (by omega), if_neg (by omega), mapSharedRegion_held h hk]

theorem Settled.get_free {c : ℤ} (h : Settled k) (hp : k.Live p)
    (hnot : ∀ key, keyOf i = some key → ¬ (k.vm p).Holds key)
    (hok : allocSharedVM k p i c = .ok (r, k')) (hno : k'.kmem.NoFail) :
    ∃ r' k'', deallocProcSharedVM k' p i = .ok (r', k'') ∧ Restored p k k'' := by
  obtain ⟨h₁, htakes⟩ := allocSharedVM_spec h.inv hp hok hno
  have hc₁ := allocSharedVM_clear h.clear h.inv.toInvCore hok hno
  rcases allocSharedVM_attach h.inv hp hnot hok hno with rfl |
    ⟨key, R, l, pgdir, pgdir', m₀, m, hkey, ha, rfl⟩
  · exact ⟨-1, k', deallocProcSharedVM_not_held hnot, .refl p k'⟩
  · have hheld : ((k.attach p key R pgdir' m).vm p).Holds key := by
      simp [Kernel.attach, ProcVm.Holds, ProcVm.withRegion]
    have h' : Settled (k.attach p key R pgdir' m) := by
      refine ⟨h₁, hc₁, fun pa hpa => ?_⟩
      rw [htakes.census] at hpa
      obtain ⟨hf₁, hf₂, hf₃⟩ := h.freeable pa hpa
      obtain ⟨l', hl'⟩ := htakes.mem
      exact ⟨hf₁, by rw [hl'.kend]; exact hf₂, hf₃⟩
    obtain ⟨r', k'', hfree, -⟩ := h'.free_held hkey hheld
    exact ⟨r', k'', hfree, ha.restored h.inv h.clear hp hkey (hnot key hkey) h₁ hc₁ hfree⟩

theorem syscall_getSharedPage {c : ℤ} :
    syscall k p (.getSharedPage i c) = .ok (.addr r, k') ↔ allocSharedVM k p i c = .ok (r, k') := by
  constructor
  · intro h
    obtain ⟨va, hrun, hr⟩ := syscall_runs h
    cases hr
    exact hrun
  · intro h
    simp only [syscall, h, Except.ok_bind]
    rfl

theorem syscall_freeSharedPage {r : ℤ} :
    syscall k p (.freeSharedPage i) = .ok (.int r, k') ↔
      deallocProcSharedVM k p i = .ok (r, k') := by
  constructor
  · intro h
    obtain ⟨n, hrun, hr⟩ := syscall_runs h
    cases hr
    exact hrun
  · intro h
    simp only [syscall, h, Except.ok_bind]
    rfl

/-- **`GetSharedPage` is idempotent and one `FreeSharedPage` undoes it**, in every state of every
run from boot. A process that holds a region gets its address again without any change; one
`FreeSharedPage` removes the reference and the entries, and the next ones fail without any change.
For a process that does not hold the region, `GetSharedPage` and then `FreeSharedPage` restore the
regions, the references and the mappings. -/
theorem get_free_undo {k₀ k : Kernel} {es : List (Slot × Call)} (hboot : Booted k₀)
    (hrun : Run SafeStep k₀ es k) (p : Slot) (hp : k.Live p) (i : ℤ) :
    (∀ key, keyOf i = some key → (k.vm p).Holds key →
      (∀ c, 1 ≤ c → c ≤ ((k.regions key).pageCount : ℤ) →
        syscall k p (.getSharedPage i c) = .ok (.addr (some ((k.vm p).shared key).va), k)) ∧
      ∃ r k', syscall k p (.freeSharedPage i) = .ok (.int r, k') ∧ ¬ (k'.vm p).Holds key ∧
        (∀ j, j < (k.regions key).pageCount →
          (k'.vm p).present ((k.vm p).base key + j) = none) ∧
        syscall k' p (.freeSharedPage i) = .ok (.int (-1), k')) ∧
    ((∀ key, keyOf i = some key → ¬ (k.vm p).Holds key) →
      ∀ c r k₁, syscall k p (.getSharedPage i c) = .ok (.addr r, k₁) → k₁.kmem.NoFail →
        ∃ r' k₂, syscall k₁ p (.freeSharedPage i) = .ok (.int r', k₂) ∧ Restored p k k₂) := by
  have h := run_settled hboot hrun
  refine ⟨fun key hkey hk => ⟨fun c hpos hle => ?_, ?_⟩, fun hnot c r k₁ hget hno => ?_⟩
  · exact syscall_getSharedPage.mpr (allocSharedVM_held h.inv.toInvCore hkey hk hpos hle)
  · obtain ⟨r, k', hok, hnot, hpresent⟩ := h.free_held hkey hk
    refine ⟨r, k', syscall_freeSharedPage.mpr hok, hnot, hpresent, syscall_freeSharedPage.mpr ?_⟩
    refine deallocProcSharedVM_not_held fun key' hkey' => ?_
    obtain rfl : key = key' := Option.some.inj (hkey.symm.trans hkey')
    exact hnot
  · obtain ⟨r', k₂, hfree, hrestored⟩ := h.get_free hp hnot (syscall_getSharedPage.mp hget) hno
    exact ⟨r', k₂, syscall_freeSharedPage.mpr hfree, hrestored⟩

/-- The first process after its first `GetSharedPage`, with the key it holds and with another. -/
theorem get_free_undo_first_get : ∃ k₀ np k, Booted k₀ ∧
    Run SafeStep k₀ [(np, .getSharedPage 0 2)] k ∧ (k.vm np).Holds 0 ∧
    ∃ r k', syscall k np (.freeSharedPage 0) = .ok (.int r, k') ∧ ¬ (k'.vm np).Holds 0 ∧
      syscall k' np (.freeSharedPage 0) = .ok (.int (-1), k') := by
  obtain ⟨k₀, np, k, hboot, hrun, hholds⟩ := exists_first_get
  have hlive := (run_inv hboot hrun).1.live_of_holds hholds
  obtain ⟨-, r, k', hok, hnot, -, hagain⟩ :=
    (get_free_undo hboot hrun np hlive 0).1 0 rfl hholds
  exact ⟨k₀, np, k, hboot, hrun, hholds, r, k', hok, hnot, hagain⟩

end Shared

end Xv6
