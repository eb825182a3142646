import CS450.Shared.Boot

/-!
# When the shared-memory calls succeed

With room below `shaddr` and enough free pages `GetSharedPage` succeeds, and `FreeSharedPage` of a
held region always does. When the lowest page of the new mapping is already present,
`GetSharedPage` panics.
-/

namespace Xv6.Shared

/-! ### The loops -/

theorem allocSharedLoop_ok :
    ∀ (n i : ℕ) (pages : ℕ → ℕ) (m : Kmem), n ≤ m.freelist.length →
      ∃ pages' m', allocSharedLoop n i pages m = (true, pages', m') := by
  intro n
  induction n with
  | zero => exact fun i pages m _ => ⟨pages, m, rfl⟩
  | succ n ih =>
    intro i pages m hlen
    obtain ⟨a, l, hl⟩ := List.exists_cons_of_length_pos (show 0 < m.freelist.length by omega)
    obtain ⟨m₁, hk, hf, -⟩ := kalloc_some hl
    rw [hl, List.length_cons] at hlen
    simp only [allocSharedLoop, hk]
    refine ih (i + 1) _ _ ?_
    rw [memset_freelist, hf]
    omega

/-! ### Creating a region -/

section Create

variable {k : Kernel} {p : Slot} {key : Key} {i count : ℤ}

theorem length_pageRange (pages : ℕ → ℕ) (i n : ℕ) : (pageRange pages i n).length = n := by
  simp [pageRange]

/-- `GetSharedPage` for a region that does not exist: the pages are taken, then mapped. -/
theorem allocSharedVM_create (hkey : keyOf i = some key) (hv : (k.regions key).valid = false)
    (hpos : 0 < count) (hmax : count ≤ (MAX_SH_PAGES : ℤ))
    (hfree : count.toNat ≤ k.kmem.freelist.length) :
    ∃ pages m, Allocated (pageRange pages 0 count.toNat) k.kmem m ∧
      k.kmem.freelist.length = count.toNat + m.freelist.length ∧
      allocSharedVM k p i count =
        mapSharedRegion ((k.setRegion key ⟨true, 0, count.toNat, pages⟩).setKmem m) p key := by
  obtain ⟨pages, m, hloop⟩ := allocSharedLoop_ok count.toNat 0 (k.regions key).pages k.kmem hfree
  obtain ⟨-, ⟨-, ha⟩ | ⟨hf, -⟩⟩ := allocSharedLoop_spec _ _ hloop
  · refine ⟨pages, m, ha, by rw [ha.freelist, List.length_append, length_pageRange], ?_⟩
    unfold allocSharedVM
    simp only [hkey, hv, Bool.false_eq_true, ↓reduceIte, hloop]
    rw [if_neg (by omega)]
  · cases hf

/-- With room below `shaddr` and free pages, mapping a region succeeds. -/
theorem mapSharedRegion_ok {pgdir : PageDir} (hd : (k.vm p).pgdir = some pgdir)
    (hg : GapOk (k.vm p) pgdir) (hnew : k.mapped ((k.vm p).shared key) = false)
    (hroom : pages (k.vm p).sz + (k.regions key).pageCount ≤ (k.vm p).top)
    (hfree : (k.regions key).pageCount ≤ k.kmem.freelist.length) (hno : k.kmem.NoFail) :
    ∃ k', mapSharedRegion k p key =
        .ok (some (((k.vm p).top - (k.regions key).pageCount) * PGSIZE), k') ∧ k'.kmem.NoFail ∧
      k'.proc = k.proc ∧ (∀ q, q ≠ p → k'.vm q = k.vm q) ∧
      ∃ pgdir, k'.vm p = (k.vm p).withRegion key (k.regions key).pageCount pgdir := by
  obtain ⟨r, k', hok, -, -, ⟨rfl, pgdir', l, m, hm, rfl⟩ | ⟨-, hshort⟩⟩ :=
    mapSharedRegion_new hd hg hnew hroom
  · exact ⟨_, hok, hm.mem.noFail hno, rfl, fun q hq => setVm_vm_of_ne _ _ hq, pgdir',
      setVm_vm_self ..⟩
  · omega

/-- With room below `shaddr` and free pages, creating a region succeeds. -/
theorem allocSharedVM_new_ok (h : Inv k) (hp : k.Live p) (hno : k.kmem.NoFail)
    (hkey : keyOf i = some key) (hv : (k.regions key).valid = false) (hpos : 0 < count)
    (hmax : count ≤ (MAX_SH_PAGES : ℤ)) (hroom : pages (k.vm p).sz + count.toNat ≤ (k.vm p).top)
    (hfree : 2 * count.toNat ≤ k.kmem.freelist.length) :
    ∃ k', allocSharedVM k p i count =
        .ok (some (((k.vm p).top - count.toNat) * PGSIZE), k') ∧ k'.kmem.NoFail ∧
      k'.proc = k.proc ∧ (∀ q, q ≠ p → k'.vm q = k.vm q) ∧
      ∃ pgdir, k'.vm p = (k.vm p).withRegion key count.toNat pgdir := by
  obtain ⟨pgs, m, ha, hlen, heq⟩ := allocSharedVM_create (p := p) hkey hv hpos hmax (by omega)
  obtain ⟨pgdir, kstack, hd, -, hs⟩ := h.space p hp
  have hnone := not_not.mp (h.not_holds hv p)
  set k₁ := (k.setRegion key ⟨true, 0, count.toNat, pgs⟩).setKmem m with hk₁
  have hcount : (k₁.regions key).pageCount = count.toNat := by simp [hk₁]
  have hmap := @mapSharedRegion_ok k₁ p key pgdir hd hs.toGapOk
    (by simp [Kernel.mapped, hk₁, hnone])
    (by rw [hcount]; exact hroom) (by rw [hcount]; show _ ≤ m.freelist.length; omega)
    (ha.noFail hno)
  rw [hcount, ← heq] at hmap
  exact hmap

/-- A process that does not have a region can get it, with room below `shaddr` and free pages. -/
theorem allocSharedVM_map_ok (h : Inv k) (hp : k.Live p) (hno : k.kmem.NoFail)
    (hkey : keyOf i = some key) (hv : (k.regions key).valid = true) (hnew : ¬ (k.vm p).Holds key)
    (hpos : 0 < count) (hle : count ≤ ((k.regions key).pageCount : ℤ))
    (hroom : pages (k.vm p).sz + (k.regions key).pageCount ≤ (k.vm p).top)
    (hfree : (k.regions key).pageCount ≤ k.kmem.freelist.length) :
    ∃ k', allocSharedVM k p i count =
        .ok (some (((k.vm p).top - (k.regions key).pageCount) * PGSIZE), k') ∧ k'.kmem.NoFail ∧
      k'.proc = k.proc ∧ (∀ q, q ≠ p → k'.vm q = k.vm q) ∧
      ∃ pgdir, k'.vm p = (k.vm p).withRegion key (k.regions key).pageCount pgdir := by
  obtain ⟨pgdir, kstack, hd, -, hs⟩ := h.space p hp
  have hmap : k.mapped ((k.vm p).shared key) = false := by
    rw [Bool.eq_false_iff]
    exact fun hm => hnew ((h.mapped_iff p key).mp hm)
  have hmax := (h.valid key hv).2
  obtain ⟨k', hok, hrest⟩ := mapSharedRegion_ok hd hs.toGapOk hmap hroom hfree hno
  refine ⟨k', ?_, hrest⟩
  unfold allocSharedVM
  simp only [hkey, hv, ↓reduceIte]
  rw [if_neg (by simp only [MAX_SH_PAGES, NPROC] at *; omega), if_neg (by omega), hok]

/-- When the lowest page of the mapping is present, creating a region panics. -/
theorem allocSharedVM_remap (h : Inv k) (hp : k.Live p) (hkey : keyOf i = some key)
    (hv : (k.regions key).valid = false) (hpos : 0 < count) (hmax : count ≤ (MAX_SH_PAGES : ℤ))
    (hroom : pages (k.vm p).sz + count.toNat = (k.vm p).top + 1)
    (hfree : 2 * count.toNat ≤ k.kmem.freelist.length) :
    allocSharedVM k p i count = .error (.panic "remap") := by
  obtain ⟨pgs, m, ha, hlen, heq⟩ := allocSharedVM_create (p := p) hkey hv hpos hmax (by omega)
  obtain ⟨pgdir, kstack, hd, -, hs⟩ := h.space p hp
  obtain ⟨n, hn⟩ : ∃ n, count.toNat = n + 1 := ⟨count.toNat - 1, by omega⟩
  have hsz := hs.pages_pos
  have hloop := @mapSharedLoop_remap pgs n 0 (k.vm p).top pgdir m (by omega) hs.top
    (by omega) (hs.own _ (by omega))
  have hnone := not_not.mp (h.not_holds hv p)
  rw [heq]
  unfold mapSharedRegion
  simp only [Kernel.mapped, setKmem_vm, setRegion_vm, hnone, Bool.false_eq_true, ↓reduceIte, hd,
    setKmem_regions, setRegion_regions_self, setKmem_kmem, hs.shaddr, hn, hloop]
  rfl

end Create

/-! ### Dropping a reference -/

/-- `FreeSharedPage` of a held region succeeds when the pages can be freed. -/
theorem deallocProcSharedVM_ok {k : Kernel} {p : Slot} {key : Key} {i : ℤ} (h : Inv k)
    (hkey : keyOf i = some key) (hk : (k.vm p).Holds key)
    (hfree : ∀ pa ∈ (k.regions key).owned, k.kmem.Freeable pa) :
    ∃ r k', deallocProcSharedVM k p i = .ok (r, k') := by
  have hp := h.live_of_holds hk
  have hv := h.valid_of_holds hk
  obtain ⟨pgdir, kstack, hd, -, hs⟩ := h.space p hp
  obtain ⟨pgdir', hloop, -⟩ := clearShared_of_held h.toInvCore hs hk
  have hva : ((k.vm p).shared key).va ≠ 0 := by
    rcases h.ref p key with hr | ⟨-, hva⟩
    · simp [ProcVm.Holds, hr] at hk
    · exact hva
  unfold deallocProcSharedVM
  simp only [hkey, hd, hloop]
  rw [if_neg (by rintro (hn | hn); exacts [hk hn, hva hn])]
  unfold dropRegion
  simp only [setVm_regions, hv, ↓reduceIte, setVm_kmem]
  split
  · obtain ⟨⟨pgs, m⟩, hl⟩ := freeSharedLoop_ok (k.regions key).pageCount 0 (k.regions key).pages
      k.kmem fun j _ hj => hfree _ (mem_owned.mpr ⟨hv, j, by omega, rfl⟩)
    rw [hl]
    exact ⟨_, _, rfl⟩
  · exact ⟨_, _, rfl⟩

/-! ### A child -/

/-- With a free slot and enough pages `fork` succeeds. -/
theorem fork_ok {k : Kernel} {p : Slot} (h : Inv k) (hp : k.Live p) (hno : k.kmem.NoFail)
    (hm : k.kmem.FreeOk) (hslot : findUnused k.proc ≠ none)
    (hfree : pagesFor (pages (k.vm p).sz) < k.kmem.freelist.length) :
    ∃ r np kstack d k', fork k p = .ok (r, k') ∧ k'.kmem.NoFail ∧ (k.proc np).state = .unused ∧
      k.kmem.freelist.length = pagesFor (pages (k.vm p).sz) + 1 + k'.kmem.freelist.length ∧
      SlotSet k np { k.proc np with pid := k.nextpid, parent := some p, state := .runnable }
        ⟨(k.vm p).sz, some d, some kstack, KERNBASE, (k.vm np).shared⟩ k' := by
  obtain ⟨pgdir, kstack₀, hd, -, hs⟩ := h.space p hp
  rcases hal : allocproc k with ⟨o, k₁⟩
  rcases allocproc_cases hal with ⟨hn, -⟩ | ⟨np, -, -, hf, -⟩ | ⟨np, kstack, hun, rfl, ha, hset⟩
  · exact absurd hn hslot
  · rw [hf.1] at hfree
    exact absurd hfree (Nat.not_lt_zero _)
  have hne : p ≠ np := by
    rintro rfl
    exact hp hun
  have hvp : k₁.vm p = k.vm p := by rw [hset.vm, Function.update_of_ne hne]
  have hlen : k.kmem.freelist.length = 1 + k₁.kmem.freelist.length := by
    rw [ha.freelist]
    exact Nat.add_comm _ _
  have hlink : k₁.kmem.LinkOk := by
    obtain ⟨c, hc⟩ := h.link
    exact ⟨c, by rw [ha.kdata]; exact hc⟩
  obtain ⟨r, hcopy, hr⟩ := (copyuvm_spec hs.sz_le hlink).exists ⟨hm.allocated ha, hs.own⟩
  cases hr with
  | failed _ _ hshort => omega
  | @made l d m hc =>
    obtain ⟨r, k', hok⟩ : ∃ r k', fork k p = .ok (r, k') := by
      unfold fork
      simp only [hal, hvp, hd, hcopy, Except.ok_bind]
      exact ⟨_, _, rfl⟩
    refine ⟨r, np, kstack, d, k', hok, ?_⟩
    unfold fork at hok
    simp only [hal, hvp, hd, hcopy, Except.ok_bind] at hok
    cases hok
    refine ⟨hc.draft.mem.noFail (ha.noFail hno), hun, ?_, ?_, ?_, hset.regions, hset.initproc⟩
    · have := hc.draft.length_add (pages_le hs.sz_le)
      show _ = _ + 1 + m.freelist.length
      omega
    · simp [Kernel.setProc, Kernel.setVm, Kernel.setKmem, hset.proc]
    · simp [Kernel.setProc, Kernel.setVm, Kernel.setKmem, hset.vm, Function.update_of_ne hne]

/-! ### Free pages -/

/-- The regions together have at most `MAX_SH_KEY * MAX_SH_PAGES` pages. -/
theorem InvCore.card_regions_le {k : Kernel} (h : InvCore k) :
    Multiset.card (∑ key, (k.regions key).owned) ≤ 4096 := by
  have hone : ∀ key, Multiset.card (k.regions key).owned ≤ 64 := by
    intro key
    cases hv : (k.regions key).valid with
    | false => simp [owned_of_not_valid hv]
    | true =>
      rw [owned_of_valid hv, Multiset.coe_card, length_pageRange]
      exact (h.valid key hv).2
  rw [Multiset.card_sum]
  exact (Finset.sum_le_card_nsmul _ _ 64 fun key _ => hone key).trans (by decide)

/-- A kernel whose only process is `p`, with `n` pages of memory, has all but a few other pages
free. -/
theorem freelist_length_ge {k : Kernel} {p : Slot} {n : ℕ} (h : Inv k) (hp : k.Live p)
    (honly : ∀ q, q ≠ p → ¬ k.Live q) (hsz : pages (k.vm p).sz = n) :
    Multiset.card k.census ≤ k.kmem.freelist.length + 5122 + n := by
  obtain ⟨pgdir, kstack, hd, hks, hs⟩ := h.space p hp
  have hsum : ∑ q, k.procPages q = (k.vm p).owned := by
    rw [Finset.sum_eq_single p (fun q _ hq => procPages_of_not_live (honly q hq)) (by simp),
      procPages_of_live hp]
  have hregions := h.card_regions_le
  have hframe : Multiset.card (pgdir.frames 0 n) = n :=
    PageDir.card_frames fun v hv => hs.own v (hsz ▸ hv)
  have htab : Multiset.card pgdir.tables ≤ NPDENTRIES := by
    rw [pgdir.card_tables]
    exact (Finset.card_filter_le _ _).trans (Finset.card_range NPDENTRIES).le
  simp only [NPDENTRIES] at htab
  simp only [Kernel.census, hsum, Multiset.card_add, Multiset.coe_card, ProcVm.owned, hd, hks, hsz,
    Option.elim_some, Multiset.card_singleton]
  omega

end Xv6.Shared
