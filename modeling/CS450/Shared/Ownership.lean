import CS450.Shared.Progress

/-!
# Who owns a shared page

Every system call of a run from boot keeps the invariant. From it: a page of a region is in one
place of one region and nowhere else, a process has exactly the regions it holds above its
`shaddr`, reference counts are exact, and a page leaves its region once, when the last process that
refers to it drops the reference or is reaped.

## Main results

* `SafeStep.inv`: every step keeps the invariant
* `shared_page_ownership`, `refcounts_exact`, `holders_share_pages`
-/

namespace Xv6.Shared

open Transition

/-! ### Runs -/

/-- `sbrk` does not shrink the caller to exactly zero bytes. -/
def NotEmptied (k : Kernel) (e : Slot × Call) : Prop :=
  ∀ n, e.2 = .sbrk n → ¬ (n < 0 ∧ addInt32 (k.vm e.1).sz n = 0)

/-- A system call in which the kernel does not panic, no `kalloc` fails and `sbrk` does not shrink
the caller to nothing. -/
def SafeStep (k : Kernel) (e : Slot × Call) (k' : Kernel) : Prop :=
  Step k e k' ∧ NotEmptied k e ∧ k'.kmem.NoFail

/-- The kernel after a boot in which no `kalloc` failed. -/
def Booted (k : Kernel) : Prop :=
  ∃ kend kdata others init, (Kmem.initial kend kdata).LinkOk ∧
    boot kend kdata others init = .ok k ∧ k.kmem.NoFail

variable {c : Call} {p q : Slot} {k' : Kernel} {pa : ℕ} {key : Key}

theorem NotEmptied.of_ne {k : Kernel} (h : ∀ n, c ≠ .sbrk n) : NotEmptied k (p, c) :=
  fun n hc => absurd hc (h n)

theorem CanCall.live {k : Kernel} (h : CanCall k p c) : k.Live p := by
  rcases h.1 with h | h <;> simp [Kernel.Live, h]

/-- What a call of `p` does to pages, regions and references. -/
inductive Effect (k : Kernel) (p : Slot) (k' : Kernel) : Call → Prop
  | takes {c : Call} (h : Takes k k') : Effect k p k' c
  | shrink {n : ℤ} (h : Frees p k k') (hreg : k'.regions = k.regions) : Effect k p k' (.sbrk n)
  | drop {i : ℤ} {key : Key} (h : Frees p k k') (hkey : keyOf i = some key)
      (hd : Dropped k p key k') : Effect k p k' (.freeSharedPage i)
  | reap {c : Slot} (h : Frees c k k') (hz : (k.proc c).state = .zombie)
      (hp : (k.proc c).parent = some p) (hu : (k'.proc c).state = .unused) : Effect k p k' .wait

/-- **Every step keeps the invariant.** -/
theorem SafeStep.inv {k : Kernel} {e : Slot × Call} (h : Inv k) (hs : SafeStep k e k') :
    Inv k' ∧ Effect k e.1 k' e.2 := by
  obtain ⟨p, c⟩ := e
  obtain ⟨⟨hcan, r, hok⟩, hguard, hno⟩ := hs
  have hp : k.Live p := hcan.live
  have hrun : Runs k p r k' c := syscall_runs hok
  cases c with
  | getSharedPage i count =>
    obtain ⟨va, hrun, -⟩ := hrun
    obtain ⟨hinv, ht⟩ := allocSharedVM_spec h hp hrun hno
    exact ⟨hinv, .takes ht⟩
  | freeSharedPage i =>
    obtain ⟨n, hrun, -⟩ := hrun
    obtain ⟨hinv, hf, ⟨-, rfl, -⟩ | ⟨key, hkey, -, hd, -⟩⟩ := deallocProcSharedVM_spec h hp hrun
    · exact ⟨hinv, .takes (.refl _)⟩
    · exact ⟨hinv, .drop hf hkey hd⟩
  | fork =>
    obtain ⟨n, hrun, -⟩ := hrun
    obtain ⟨hinv, ht⟩ := fork_spec h hp hrun hno
    exact ⟨hinv, .takes ht⟩
  | sbrk n =>
    obtain ⟨n', hrun⟩ := hrun
    obtain ⟨hinv, ht | ⟨hf, hreg⟩⟩ := growproc_spec h hp (hguard n rfl) hrun hno
    · exact ⟨hinv, .takes ht⟩
    · exact ⟨hinv, .shrink hf hreg⟩
  | exit =>
    obtain ⟨hinv, ht⟩ := exit_spec h hp hrun
    exact ⟨hinv, .takes ht⟩
  | wait =>
    obtain ⟨n, hrun, -⟩ := hrun
    obtain ⟨hinv, ht | ⟨c, hz, hpar, hu, hf⟩⟩ := wait_spec h hp hrun
    · exact ⟨hinv, .takes ht⟩
    · exact ⟨hinv, .reap hf hz hpar hu⟩

theorem Effect.census {k : Kernel} (h : Effect k p k' c) :
    k'.census = k.census := by
  cases h with
  | takes h => exact h.census
  | shrink h _ => exact h.census
  | drop h _ _ => exact h.census
  | reap h _ _ _ => exact h.census

/-- **The invariant holds in every state of every run from boot**, and no page is lost. -/
theorem run_inv {k₀ k : Kernel} {es : List (Slot × Call)} (hboot : Booted k₀)
    (hrun : Run SafeStep k₀ es k) : Inv k ∧ k.census = k₀.census := by
  obtain ⟨kend, kdata, others, init, hlink, hok, hno⟩ := hboot
  obtain ⟨np, hb, -⟩ := boot_inv hlink hok hno
  refine hrun.invariant (I := fun k => Inv k ∧ k.census = k₀.census) ?_ ⟨hb.inv, rfl⟩
  rintro s e s' ⟨hs, hc⟩ hstep
  obtain ⟨hinv, heff⟩ := hstep.inv hs
  exact ⟨hinv, heff.census.trans hc⟩

/-! ### Pages that are freed -/

theorem freelist_nodup {k : Kernel} (h : InvCore k) : k.kmem.freelist.Nodup := by
  have hnd := h.nodup
  exact (Multiset.nodup_add.mp (Multiset.nodup_add.mp hnd).1).1

/-- A page on the free list is not freed again. -/
theorem Frees.not_twice {k : Kernel} (hf : Frees q k k') (h' : InvCore k')
    (hpa : pa ∈ k.kmem.freelist) : k'.kmem.frees pa = k.kmem.frees pa := by
  obtain ⟨l, hl⟩ := hf.mem
  have hnd := freelist_nodup h'
  rw [hl.freelist, List.nodup_append] at hnd
  have hnot : pa ∉ l := fun hmem => hnd.2.2 pa hmem pa hpa rfl
  rw [hl.frees_eq, List.count_eq_zero.mpr hnot, zero_add]

/-- A page of a region stays there and is not freed, or its region is gone and it was freed
once. -/
theorem Frees.page_cases {k : Kernel} (hf : Frees q k k') (h : InvCore k)
    (h' : InvCore k') (hpa : pa ∈ (k.regions key).owned) :
    ((k'.regions key).valid = true ∧ k'.kmem.frees pa = k.kmem.frees pa) ∨
    ((k'.regions key).valid = false ∧ k'.kmem.frees pa = k.kmem.frees pa + 1 ∧
      pa ∈ k'.kmem.freelist) := by
  obtain ⟨l, hl⟩ := hf.mem
  obtain ⟨hfree, hprocs⟩ := h.page_apart hpa
  rw [hl.frees_eq]
  cases hv : (k'.regions key).valid with
  | true =>
    obtain ⟨-, hc, hp⟩ := hf.regions key hv
    have hpa' : pa ∈ (k'.regions key).owned := by
      obtain ⟨-, i, hi, he⟩ := mem_owned.mp hpa
      exact mem_owned.mpr ⟨hv, i, by rw [hc]; exact hi, by rw [hp]; exact he⟩
    have hnot : pa ∉ l := fun hmem => (h'.page_apart hpa').1 (by
      rw [hl.freelist]
      exact List.mem_append_left _ hmem)
    exact .inl ⟨rfl, by rw [List.count_eq_zero.mpr hnot, zero_add]⟩
  | false =>
    -- the page is still somewhere, and no process and no region gained it
    have hmem : pa ∈ k'.census := by
      rw [hf.census]
      exact Multiset.mem_of_le (regions_le_census k)
        (Multiset.mem_sum.mpr ⟨key, Finset.mem_univ _, hpa⟩)
    have hin : pa ∈ k'.kmem.freelist := by
      rcases Multiset.mem_add.mp hmem with hmem | hmem
      · rcases Multiset.mem_add.mp hmem with hmem | hmem
        · exact hmem
        · obtain ⟨p, -, hp⟩ := Multiset.mem_sum.mp hmem
          exact absurd (Multiset.mem_of_le (hf.procs p) hp) (hprocs p)
      · obtain ⟨key', -, hk⟩ := Multiset.mem_sum.mp hmem
        obtain ⟨hv', i, hi, he⟩ := mem_owned.mp hk
        obtain ⟨hv₀, hc, hp⟩ := hf.regions key' hv'
        rw [hc] at hi
        rw [hp] at he
        obtain ⟨hvk, j, hj, hej⟩ := mem_owned.mp hpa
        obtain rfl := (h.page_injective hvk hv₀ hj hi (he.trans hej.symm)).1
        rw [hv] at hv'
        cases hv'
    have hcount : l.count pa = 1 := by
      have hnd := freelist_nodup h'
      have hin' := hin
      rw [hl.freelist] at hnd hin'
      have hl' : pa ∈ l := (List.mem_append.mp hin').resolve_right hfree
      exact List.count_eq_one_of_mem (List.nodup_append.mp hnd).1 hl'
    exact .inr ⟨rfl, by rw [hcount, add_comm], hin⟩

/-- The processes that refer to a region when it loses its pages: only the one on whose behalf
they are freed. -/
theorem Frees.last_holder {k : Kernel} (hf : Frees q k k') (h : Inv k)
    (h' : InvCore k') (hv : (k.regions key).valid = true)
    (hv' : (k'.regions key).valid = false) (p : Slot) : (k.vm p).Holds key ↔ p = q := by
  have hsub : ∀ p, (k.vm p).Holds key → p = q := by
    intro p hp
    by_contra hne
    have hp' : (k'.vm p).Holds key := by
      unfold ProcVm.Holds
      rw [hf.refs p hne]
      exact hp
    rw [h'.valid_of_holds hp'] at hv'
    cases hv'
  refine ⟨hsub p, ?_⟩
  rintro rfl
  have hpos := h.pos key hv
  rw [h.count key] at hpos
  obtain ⟨p', hp'⟩ := (Table.tally_pos_iff (ProcVm.Holds key) k.vm).mp (by omega)
  rwa [← hsub p' hp']

/-! ### Page ownership -/

/-- Every page of a valid region is at one place of one region, not on the free list, and not
mapped below `sz` by any process. -/
def PagesOwned (k : Kernel) : Prop :=
  ∀ key i, (k.regions key).valid = true → i < (k.regions key).pageCount →
    (∀ key' i', (k.regions key').valid = true → i' < (k.regions key').pageCount →
      (k.regions key').pages i' = (k.regions key).pages i → key' = key ∧ i' = i) ∧
    (k.regions key).pages i ∉ k.kmem.freelist ∧
    ∀ p, k.Live p → ∀ pgdir, (k.vm p).pgdir = some pgdir → ∀ v, v * PGSIZE < (k.vm p).sz →
      (pgdir.entry v).p = true → (pgdir.entry v).addr ≠ (k.regions key).pages i

/-- The present user entries of a process from its `shaddr` on are exactly those of the regions it
holds, each mapping its page. -/
def SharedEntriesExact (k : Kernel) : Prop :=
  ∀ p, k.Live p → ∃ pgdir, (k.vm p).pgdir = some pgdir ∧
    (∀ v, (k.vm p).shaddr ≤ v * PGSIZE →
      ((pgdir.entry v).p = true ∧ (pgdir.entry v).u = true ↔
        ∃ key j, (k.vm p).Holds key ∧ j < (k.regions key).pageCount ∧
          v * PGSIZE = ((k.vm p).shared key).va + j * PGSIZE)) ∧
    ∀ key, (k.vm p).Holds key → ∀ v j, j < (k.regions key).pageCount →
      v * PGSIZE = ((k.vm p).shared key).va + j * PGSIZE →
      pgdir.entry v =
        .ofPerm ((k.regions key).pages ((k.regions key).pageCount - 1 - j)) ⟨true, true⟩

/-- The call `c` of `p` drops the last reference to a region: `FreeSharedPage` by its only holder,
or a `wait` that reaps its only holder. -/
def DropsLast (k : Kernel) (p : Slot) (c : Call) (k' : Kernel) (key : Key) : Prop :=
  (∃ i, c = .freeSharedPage i ∧ keyOf i = some key ∧ ∀ q, (k.vm q).Holds key ↔ q = p) ∨
  (c = .wait ∧ ∃ child, (k.proc child).state = .zombie ∧ (k.proc child).parent = some p ∧
    (k'.proc child).state = .unused ∧ ∀ q, (k.vm q).Holds key ↔ q = child)

/-- In the call `c` of `p` every shared page stays in its region and is not freed, or is freed
exactly once because the last reference is dropped; and no free page is freed. -/
def LeavesOnce (k : Kernel) (p : Slot) (c : Call) (k' : Kernel) : Prop :=
  (∀ key i, (k.regions key).valid = true → i < (k.regions key).pageCount →
    ((k'.regions key).valid = true ∧ (k'.regions key).pageCount = (k.regions key).pageCount ∧
      (k'.regions key).pages i = (k.regions key).pages i ∧
      k'.kmem.frees ((k.regions key).pages i) = k.kmem.frees ((k.regions key).pages i)) ∨
    ((k'.regions key).valid = false ∧ DropsLast k p c k' key ∧
      k'.kmem.frees ((k.regions key).pages i) = k.kmem.frees ((k.regions key).pages i) + 1 ∧
      (k.regions key).pages i ∈ k'.kmem.freelist)) ∧
  ∀ pa ∈ k.kmem.freelist, k'.kmem.frees pa = k.kmem.frees pa

theorem Inv.pagesOwned {k : Kernel} (h : Inv k) : PagesOwned k := by
  intro key i hv hi
  have hmem : (k.regions key).pages i ∈ (k.regions key).owned := mem_owned.mpr ⟨hv, i, hi, rfl⟩
  obtain ⟨hfree, hprocs⟩ := h.page_apart hmem
  refine ⟨fun key' i' hv' hi' he => h.page_injective hv hv' hi hi' he, hfree, ?_⟩
  intro p hp pgdir hd v hlt hpres haddr
  refine hprocs p ?_
  have hframe : (k.regions key).pages i ∈ pgdir.frames 0 (pages (k.vm p).sz) := by
    refine PageDir.mem_frames.mpr ⟨v, Nat.zero_le v, ?_, hpres, haddr⟩
    simp only [pages, PGSIZE] at hlt ⊢
    omega
  rw [procPages_of_live hp, ProcVm.owned, hd, Option.elim_some, Multiset.mem_add, Multiset.mem_add]
  exact .inr (.inr hframe)

theorem Inv.sharedEntriesExact {k : Kernel} (h : Inv k) : SharedEntriesExact k := by
  intro p hp
  obtain ⟨pgdir, kstack, hd, -, hs⟩ := h.space p hp
  have hpos : 0 < PGSIZE := by decide
  have hpage : ∀ key v j, (k.vm p).Holds key →
      (v * PGSIZE = ((k.vm p).shared key).va + j * PGSIZE ↔ v = (k.vm p).base key + j) := by
    intro key v j hk
    rw [hs.va key hk, ← Nat.add_mul]
    exact Nat.mul_left_inj hpos.ne'
  refine ⟨pgdir, hd, fun v hv => ⟨?_, ?_⟩, fun key hk v j hj hvj => ?_⟩
  · rintro ⟨hpres, huser⟩
    have hlo : (k.vm p).top ≤ v := by
      rw [hs.shaddr] at hv
      exact Nat.le_of_mul_le_mul_right hv hpos
    have hhi : v < KERNPAGE := by
      by_contra hge
      rw [hs.kernel v (by omega)] at huser
      cases huser
    obtain ⟨key, hk, h₁, h₂⟩ := hs.only v hlo hhi hpres
    exact ⟨key, v - (k.vm p).base key, hk, by omega, (hpage key v _ hk).mpr (by omega)⟩
  · rintro ⟨key, j, hk, hj, hvj⟩
    rw [(hpage key v j hk).mp hvj, hs.held key hk j hj]
    exact ⟨rfl, rfl⟩
  · rw [(hpage key v j hk).mp hvj]
    exact hs.held key hk j hj

/-- Only the key that is dropped can lose its region. -/
theorem Dropped.key_eq {k : Kernel} {key' : Key} (hd : Dropped k p key k')
    (h' : InvCore k') (hh : (k.vm p).Holds key') (hv' : (k'.regions key').valid = false) :
    key' = key := by
  by_contra hne
  obtain ⟨pgdir, hself⟩ := hd.self
  have hstill : (k'.vm p).Holds key' := by
    rw [hself, ProcVm.Holds, withoutRegion_shared_of_ne _ _ hne]
    exact hh
  rw [h'.valid_of_holds hstill] at hv'
  cases hv'

theorem Effect.leavesOnce {k : Kernel} (heff : Effect k p k' c)
    (h : Inv k) (h' : Inv k') : LeavesOnce k p c k' := by
  -- a call that frees pages on behalf of `q`, with the reason why a region may go
  have hfrees : ∀ q, Frees q k k' →
      (∀ key, (k.regions key).valid = true → (k'.regions key).valid = false →
        (∀ p, (k.vm p).Holds key ↔ p = q) → DropsLast k p c k' key) → LeavesOnce k p c k' := by
    intro q hf hlast
    refine ⟨fun key i hv hi => ?_, fun pa hpa => hf.not_twice h'.toInvCore hpa⟩
    have hmem : (k.regions key).pages i ∈ (k.regions key).owned := mem_owned.mpr ⟨hv, i, hi, rfl⟩
    rcases hf.page_cases h.toInvCore h'.toInvCore hmem with ⟨hv', hc⟩ | ⟨hv', hc, hin⟩
    · obtain ⟨-, hcount, hpages⟩ := hf.regions key hv'
      exact .inl ⟨hv', hcount, by rw [hpages], hc⟩
    · exact .inr ⟨hv', hlast key hv hv' (hf.last_holder h h'.toInvCore hv hv'), hc, hin⟩
  cases heff with
  | takes ht =>
    obtain ⟨l, hl⟩ := ht.mem
    refine ⟨fun key i hv hi => .inl ?_, fun pa _ => hl.frees_eq pa⟩
    obtain ⟨hv', hcount, hpages⟩ := ht.regions key hv
    exact ⟨hv', hcount, by rw [hpages], hl.frees_eq _⟩
  | shrink hf hreg =>
    refine hfrees p hf fun key hv hv' _ => ?_
    rw [hreg, hv] at hv'
    cases hv'
  | drop hf hkey hd =>
    refine hfrees p hf fun key hv hv' hall => .inl ⟨_, rfl, ?_, hall⟩
    rw [hkey, hd.key_eq h'.toInvCore ((hall p).mpr rfl) hv']
  | reap hf hz hpar hu =>
    exact hfrees _ hf fun key _ _ hall => .inr ⟨rfl, _, hz, hpar, hu, hall⟩

/-! ### A first run -/

/-- A boot of a kernel of 1152 KB on eight CPUs, and its first process. -/
theorem exists_booted : ∃ k₀ np, Booted k₀ ∧ k₀.kmem.NoFail ∧ BootState k₀ np ∧
    0 < k₀.kmem.kend := by
  have hlink : (Kmem.initial 0x120000 0x109000).LinkOk := ⟨0x109, rfl, by decide, by decide⟩
  obtain ⟨k₀, hok, hno⟩ := boot_ok (le_refl 0x120000) (show 7 ≤ 8 by decide) hlink fun _ => 0
  obtain ⟨np, hb, hkend⟩ := boot_inv hlink hok hno
  exact ⟨k₀, np, ⟨_, _, _, _, hlink, hok, hno⟩, hno, hb, by rw [hkend]; decide⟩

namespace FirstProcess

variable {k : Kernel} {np : Slot}

theorem live (h : FirstProcess k np) : k.Live np := by
  obtain ⟨c, hc, -, hp⟩ := h.proc
  simp [Kernel.Live, hp, hc]

theorem canCall (h : FirstProcess k np) (c : Call) : CanCall k np c := by
  obtain ⟨pr, hr, hch, hp⟩ := h.proc
  simp [CanCall, hp, hr, hch]

theorem only (h : FirstProcess k np) (hq : q ≠ np) : ¬ k.Live q := by
  obtain ⟨c, -, -, hp⟩ := h.proc
  simp [Kernel.Live, hp, Function.update_of_ne hq, Proc.zero]

theorem sz (h : FirstProcess k np) : pages (k.vm np).sz = 1 := by
  obtain ⟨d, kstack, hv⟩ := h.vm
  rw [hv, Function.update_self]
  simp [pages, PGSIZE]

theorem top (h : FirstProcess k np) : (k.vm np).top = KERNPAGE := by
  obtain ⟨d, kstack, hv⟩ := h.vm
  rw [hv, Function.update_self]
  change KERNBASE / PGSIZE = KERNPAGE
  rw [KERNBASE_eq, Nat.mul_div_cancel _ (by decide)]

theorem invalid (h : FirstProcess k np) (key : Key) : (k.regions key).valid = false := by
  rw [h.regions]
  rfl

end FirstProcess

/-- After boot the first process can create a region of two pages. -/
theorem BootState.first_get {k₀ : Kernel} {np : Slot} (hb : BootState k₀ np)
    (hno : k₀.kmem.NoFail) : ∃ k va, allocSharedVM k₀ np 0 2 = .ok (some va, k) ∧
      k.kmem.NoFail ∧ k.proc = k₀.proc ∧ (k.vm np).Holds 0 ∧ (k.vm np).sz = (k₀.vm np).sz ∧
      (k.vm np).top = KERNPAGE - 2 := by
  obtain ⟨hinv, hfirst, hcard, -⟩ := hb
  have hfree := freelist_length_ge hinv hfirst.live (fun q hq => hfirst.only hq) hfirst.sz
  obtain ⟨k, hok, hno', hproc, -, pgdir, hvm⟩ := allocSharedVM_new_ok hinv hfirst.live hno
    (show keyOf 0 = some 0 from rfl) (hfirst.invalid 0) (show (0 : ℤ) < 2 by decide) (by decide)
    (by rw [hfirst.sz, hfirst.top]; decide) (show 2 * Int.toNat 2 ≤ _ by simp; omega)
  refine ⟨k, _, hok, hno', hproc, ?_, by rw [hvm]; rfl, ?_⟩
  · rw [hvm]
    simp [ProcVm.Holds, ProcVm.withRegion]
  · rw [hvm]
    change ((k₀.vm np).top - Int.toNat 2) * PGSIZE / PGSIZE = _
    rw [Nat.mul_div_cancel _ (by decide), hfirst.top]
    rfl

theorem exists_first_get : ∃ k₀ np k, Booted k₀ ∧
    Run SafeStep k₀ [(np, .getSharedPage 0 2)] k ∧ (k.vm np).Holds 0 := by
  obtain ⟨k₀, np, hboot, hno, hb, -⟩ := exists_booted
  obtain ⟨k, va, hok, hno', -, hheld, -⟩ := hb.first_get hno
  exact ⟨k₀, np, k, hboot,
    .single ⟨step_getSharedPage (hb.first.canCall _) hok, .of_ne (by simp), hno'⟩, hheld⟩

theorem FirstProcess.findUnused_ne_none {k : Kernel} {np : Slot} (h : FirstProcess k np) :
    findUnused k.proc ≠ none := by
  obtain ⟨c, -, -, hp⟩ := h.proc
  obtain ⟨q, hq⟩ := exists_ne np
  intro hn
  have := Table.firstIdx_eq_none.mp hn q
  simp [hp, Function.update_of_ne hq, Proc.zero] at this

/-- The first process creates a region and forks, and its child gets the region, too. -/
theorem exists_two_holders : ∃ k₀ np q k, Booted k₀ ∧ q ≠ np ∧
    Run SafeStep k₀ [(np, .getSharedPage 0 2), (np, .fork), (q, .getSharedPage 0 1)] k ∧
    (k.vm np).Holds 0 ∧ (k.vm q).Holds 0 := by
  obtain ⟨k₀, np, hboot, hno, hb, hkend⟩ := exists_booted
  obtain ⟨k₁, va, hget, hno₁, hproc, hheld, hsz, htop⟩ := hb.first_get hno
  obtain ⟨hinv₁, htakes⟩ := allocSharedVM_spec hb.inv hb.first.live hget hno₁
  obtain ⟨l, ha⟩ := htakes.mem
  have hlive : ∀ q, k₁.Live q ↔ k₀.Live q := fun q => by
    unfold Kernel.Live
    rw [hproc]
  have hp := (hlive np).mpr hb.first.live
  have hpages : pages (k₁.vm np).sz = 1 := by rw [hsz, hb.first.sz]
  have hlen := freelist_length_ge hinv₁ hp
    (fun q hq hl => hb.first.only hq ((hlive q).mp hl)) hpages
  have hcard := hb.card
  rw [← htakes.census] at hcard
  have hfor : pagesFor (pages (k₁.vm np).sz) = 67 := by rw [hpages]; rfl
  obtain ⟨r, q, kstack, d, k₂, hfork, hno₂, hun, hlen₂, hset⟩ := fork_ok hinv₁ hp hno₁
    ((freeOk_of_census hkend hb.freeable).allocated ha)
    (by rw [hproc]; exact hb.first.findUnused_ne_none) (by omega)
  obtain ⟨hinv₂, -⟩ := fork_spec hinv₁ hp hfork hno₂
  have hne : q ≠ np := by
    rintro rfl
    exact hp hun
  -- the child has a slot that was unused, and no region
  have hchild : k₂.proc q = { k₁.proc q with
      pid := k₁.nextpid, parent := some np, state := .runnable } := by
    rw [hset.proc, Function.update_self]
  have hvm : k₂.vm q = ⟨(k₁.vm np).sz, some d, some kstack, KERNBASE, (k₁.vm q).shared⟩ := by
    rw [hset.vm, Function.update_self]
  have hchan : (k₂.proc q).chan = none := by
    obtain ⟨c, -, -, hp₀⟩ := hb.first.proc
    rw [hchild, hproc, hp₀, Function.update_of_ne hne]
    rfl
  have hrunnable : (k₂.proc q).state = .runnable := by rw [hchild]
  have hq : k₂.Live q := by simp [Kernel.Live, hrunnable]
  have hnew : ¬ (k₂.vm q).Holds 0 := by
    have hnone := hinv₁.unused q (fun hl => hl hun) 0
    unfold ProcVm.Holds at hnone ⊢
    rwa [hvm]
  have hv : (k₂.regions 0).valid = true := by
    rw [hset.regions]
    exact hinv₁.valid_of_holds hheld
  obtain ⟨hpos, hmax⟩ := hinv₂.valid 0 hv
  have htop₂ : (k₂.vm q).top = KERNPAGE := by
    rw [hvm]
    change KERNBASE / PGSIZE = KERNPAGE
    rw [KERNBASE_eq, Nat.mul_div_cancel _ (by decide)]
  obtain ⟨k, hok, hno₃, -, hother, pgdir, hself⟩ := allocSharedVM_map_ok hinv₂ hq hno₂
    (show keyOf 0 = some 0 from rfl) hv hnew (show (0 : ℤ) < 1 by decide) (by omega)
    (by rw [htop₂, hvm, hpages]; simp only [KERNPAGE, MAX_SH_PAGES, NPROC] at *; omega)
    (by simp only [MAX_SH_PAGES, NPROC] at *; omega)
  have hcan : CanCall k₁ np .fork := by
    have := hb.first.canCall .fork
    unfold CanCall at this ⊢
    rwa [hproc]
  refine ⟨k₀, np, q, k, hboot, hne, ((Run.single
    ⟨step_getSharedPage (hb.first.canCall _) hget, .of_ne (by simp), hno₁⟩).snoc
    ⟨step_fork hcan hfork, .of_ne (by simp), hno₂⟩).snoc
    ⟨step_getSharedPage ⟨.inl hrunnable, .inl hchan⟩ hok, .of_ne (by simp), hno₃⟩, ?_, ?_⟩
  · rw [hother np hne.symm, hset.vm, Function.update_of_ne hne.symm]
    exact hheld
  · rw [hself]
    simp [ProcVm.Holds, ProcVm.withRegion]

/-- **Page ownership of shared memory.** In every state of every run from boot, a page of a valid
region is at one place of one region, not free and not in the memory of a process; above `shaddr`
a process has exactly the regions it holds; no page is lost; and every next call keeps each shared
page in its region or frees it exactly once, on dropping the last reference. -/
theorem shared_page_ownership {k₀ k : Kernel} {es : List (Slot × Call)} (hboot : Booted k₀)
    (hrun : Run SafeStep k₀ es k) :
    PagesOwned k ∧ SharedEntriesExact k ∧ k.census = k₀.census ∧
      ∀ p c k', SafeStep k (p, c) k' → LeavesOnce k p c k' := by
  obtain ⟨h, hcensus⟩ := run_inv hboot hrun
  refine ⟨h.pagesOwned, h.sharedEntriesExact, hcensus, fun p c k' hstep => ?_⟩
  obtain ⟨h', heff⟩ := hstep.inv h
  exact heff.leavesOnce h h'

theorem shared_page_ownership_two_holders : ∃ k₀ np q k, Booted k₀ ∧ q ≠ np ∧
    Run SafeStep k₀ [(np, .getSharedPage 0 2), (np, .fork), (q, .getSharedPage 0 1)] k ∧
      (k.vm np).Holds 0 ∧ (k.vm q).Holds 0 ∧ PagesOwned k ∧ SharedEntriesExact k ∧
      k.census = k₀.census ∧ ∀ p c k', SafeStep k (p, c) k' → LeavesOnce k p c k' := by
  obtain ⟨k₀, np, q, k, hboot, hne, hrun, hp, hq⟩ := exists_two_holders
  exact ⟨k₀, np, q, k, hboot, hne, hrun, hp, hq, shared_page_ownership hboot hrun⟩

/-! ### Reference counts -/

/-- Reference counts are exact: a region is valid as long as some process refers to it, and counts
those; a reference points to the region of its key and has an address; an unused slot has none. -/
def RefsExact (k : Kernel) : Prop :=
  ∀ key, ((k.regions key).valid = true ↔ 0 < (k.regions key).refCount) ∧
    (0 < (k.regions key).refCount ↔ 0 < (k.regions key).pageCount) ∧
    (k.regions key).refCount = Table.tally (ProcVm.Holds key) k.vm ∧
    (∀ p r, ((k.vm p).shared key).region = some r → r = key ∧ ((k.vm p).shared key).va ≠ 0) ∧
    ∀ p, (k.proc p).state = .unused → (k.vm p).shared key = ⟨none, 0⟩

theorem Inv.refsExact {k : Kernel} (h : Inv k) : RefsExact k := by
  intro key
  have hiff : (k.regions key).valid = true ↔ 0 < (k.regions key).refCount := by
    refine ⟨h.pos key, fun hpos => ?_⟩
    by_contra hv
    rw [(h.invalid key (by simpa using hv)).1] at hpos
    omega
  refine ⟨hiff, ?_, h.count key, fun p r hr => ?_, fun p hu => ?_⟩
  · rw [← hiff]
    refine ⟨fun hv => (h.valid key hv).1, fun hpos => ?_⟩
    by_contra hv
    rw [(h.invalid key (by simpa using hv)).2] at hpos
    omega
  · rcases h.ref p key with hn | ⟨hs, hva⟩
    · rw [hn] at hr
      cases hr
    · rw [hs] at hr
      exact ⟨(Option.some.inj hr).symm, hva⟩
  · rcases h.ref p key with hn | ⟨hs, -⟩
    · exact hn
    · refine absurd ?_ (h.unused p (fun hl => hl hu) key)
      simp [ProcVm.Holds, hs]

/-- **Reference counts are exact** in every state of every run from boot, and a `FreeSharedPage`
that does not return `-1` returns the number of processes that still refer to the region. -/
theorem refcounts_exact {k₀ k : Kernel} {es : List (Slot × Call)} (hboot : Booted k₀)
    (hrun : Run SafeStep k₀ es k) :
    RefsExact k ∧ ∀ p i r k', CanCall k p (.freeSharedPage i) →
      syscall k p (.freeSharedPage i) = .ok (.int r, k') → r ≠ -1 →
      ∃ key, keyOf i = some key ∧ r = Table.tally (ProcVm.Holds key) k'.vm := by
  obtain ⟨h, -⟩ := run_inv hboot hrun
  refine ⟨h.refsExact, fun p i r k' hcan hok hr => ?_⟩
  obtain ⟨n, hrun, hn⟩ := syscall_runs hok
  obtain rfl : r = n := Ret.int.inj hn
  obtain ⟨-, -, ⟨hneg, -⟩ | ⟨key, hkey, -, -, hcount⟩⟩ :=
    deallocProcSharedVM_spec h hcan.live hrun
  · exact absurd hneg hr
  · exact ⟨key, hkey, hcount⟩

theorem refcounts_exact_two_holders : ∃ k₀ np q k, Booted k₀ ∧ q ≠ np ∧
    Run SafeStep k₀ [(np, .getSharedPage 0 2), (np, .fork), (q, .getSharedPage 0 1)] k ∧
      (k.vm np).Holds 0 ∧ (k.vm q).Holds 0 ∧ RefsExact k ∧
      ∀ p i r k', CanCall k p (.freeSharedPage i) →
        syscall k p (.freeSharedPage i) = .ok (.int r, k') → r ≠ -1 →
        ∃ key, keyOf i = some key ∧ r = Table.tally (ProcVm.Holds key) k'.vm := by
  obtain ⟨k₀, np, q, k, hboot, hne, hrun, hp, hq⟩ := exists_two_holders
  exact ⟨k₀, np, q, k, hboot, hne, hrun, hp, hq, refcounts_exact hboot hrun⟩

/-! ### Holders see the same memory -/

/-- Walking the page table of `p` at `va` gives a present, writable user entry for the page `pa`. -/
def MapsTo (k : Kernel) (p : Slot) (va pa : ℕ) : Prop :=
  ∃ pgdir pte, (k.vm p).pgdir = some pgdir ∧
    walkpgdir pgdir va false k.kmem = (some pte, pgdir, k.kmem) ∧
    pgdir.deref pte = .ofPerm pa ⟨true, true⟩

/-- At the offset `o` of a region its holders have the page counted from the end of the array. -/
theorem Inv.mapsTo {k : Kernel} (h : Inv k) (hk : (k.vm p).Holds key)
    {o : ℕ} (ho : o < (k.regions key).pageCount * PGSIZE) :
    MapsTo k p (((k.vm p).shared key).va + o) pa ↔
      pa = (k.regions key).pages ((k.regions key).pageCount - 1 - o / PGSIZE) := by
  obtain ⟨pgdir, kstack, hd, -, hs⟩ := h.space p (h.live_of_holds hk)
  have hj : o / PGSIZE < (k.regions key).pageCount := Nat.div_lt_of_lt_mul (by rwa [mul_comm])
  have hhigh := hs.high key hk
  have hpage : (((k.vm p).shared key).va + o) / PGSIZE = (k.vm p).base key + o / PGSIZE := by
    rw [hs.va key hk, Nat.add_comm, Nat.add_mul_div_right _ _ (by decide), Nat.add_comm]
  have hword : ((k.vm p).shared key).va + o < WORD := by
    simp only [KERNPAGE, PGSIZE, WORD] at *
    omega
  have hent := hs.held key hk _ hj
  obtain ⟨t, ht⟩ := PageDir.exists_table_of_present
    (show (pgdir.entry ((k.vm p).base key + o / PGSIZE)).p = true by rw [hent]; rfl)
  have hwalk : walkpgdir pgdir (((k.vm p).shared key).va + o) false k.kmem =
      (some (((k.vm p).base key + o / PGSIZE) / 1024, ((k.vm p).base key + o / PGSIZE) % 1024),
        pgdir, k.kmem) := by
    rw [walkpgdir_find_addr pgdir hword, hpage, ht]
    rfl
  constructor
  · rintro ⟨pgdir', pte, hd', hw, hpte⟩
    obtain rfl : pgdir = pgdir' := Option.some.inj (hd.symm.trans hd')
    rw [hwalk] at hw
    obtain rfl := Option.some.inj (Prod.mk.inj hw).1
    exact congrArg PTE.addr (hpte.symm.trans hent)
  · rintro rfl
    exact ⟨pgdir, _, hd, hwalk, hent⟩

/-- **Holders of the same key see the same memory.** In every state of every run from boot, at the
same offset any two holders of a region have the same page, present, writable and for the user;
different pages of a region, and different regions, have different pages. -/
theorem holders_share_pages {k₀ k : Kernel} {es : List (Slot × Call)} (hboot : Booted k₀)
    (hrun : Run SafeStep k₀ es k) :
    (∀ key p q, (k.vm p).Holds key → (k.vm q).Holds key →
      ∀ o, o < (k.regions key).pageCount * PGSIZE →
        ∃ pa, MapsTo k p (((k.vm p).shared key).va + o) pa ∧
          MapsTo k q (((k.vm q).shared key).va + o) pa) ∧
    ∀ key key' p q, (k.vm p).Holds key → (k.vm q).Holds key' →
      ∀ o o', o < (k.regions key).pageCount * PGSIZE → o' < (k.regions key').pageCount * PGSIZE →
        ∀ pa, MapsTo k p (((k.vm p).shared key).va + o) pa →
          MapsTo k q (((k.vm q).shared key').va + o') pa →
          key' = key ∧ o' / PGSIZE = o / PGSIZE := by
  obtain ⟨h, -⟩ := run_inv hboot hrun
  refine ⟨fun key p q hp hq o ho => ⟨_, (h.mapsTo hp ho).mpr rfl, (h.mapsTo hq ho).mpr rfl⟩, ?_⟩
  intro key key' p q hp hq o o' ho ho' pa hm hm'
  rw [h.mapsTo hp ho] at hm
  rw [h.mapsTo hq ho'] at hm'
  have hj : o / PGSIZE < (k.regions key).pageCount := Nat.div_lt_of_lt_mul (by rwa [mul_comm])
  have hj' : o' / PGSIZE < (k.regions key').pageCount := Nat.div_lt_of_lt_mul (by rwa [mul_comm])
  generalize o / PGSIZE = j at *
  generalize o' / PGSIZE = j' at *
  obtain ⟨rfl, he⟩ := h.page_injective (h.valid_of_holds hp) (h.valid_of_holds hq) (by omega)
    (by omega) (hm'.symm.trans hm)
  exact ⟨rfl, by omega⟩

theorem holders_share_pages_two_holders : ∃ k₀ np q k, Booted k₀ ∧ q ≠ np ∧
    Run SafeStep k₀ [(np, .getSharedPage 0 2), (np, .fork), (q, .getSharedPage 0 1)] k ∧
    (k.vm np).Holds 0 ∧ (k.vm q).Holds 0 ∧
    ∀ o, o < (k.regions 0).pageCount * PGSIZE →
      ∃ pa, MapsTo k np (((k.vm np).shared 0).va + o) pa ∧
        MapsTo k q (((k.vm q).shared 0).va + o) pa := by
  obtain ⟨k₀, np, q, k, hboot, hne, hrun, hp, hq⟩ := exists_two_holders
  exact ⟨k₀, np, q, k, hboot, hne, hrun, hp, hq, (holders_share_pages hboot hrun).1 0 np q hp hq⟩

end Xv6.Shared
