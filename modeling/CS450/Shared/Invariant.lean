import CS450.Shared.Region

/-!
# The invariant of shared memory

Every physical page is on the free list, belongs to one process or belongs to one shared region:
the census of these pages has no duplicates, and every system call keeps it. A shared page is
mapped by many processes but belongs to its region alone. The address space of a process is its
own memory below `sz`, nothing up to `shaddr`, and above it the regions it holds.
-/

namespace Xv6.Shared

/-! ### Projections of the stores -/

section Stores

variable (k : Kernel) (p q : Slot) (key : Key)

@[simp] theorem setVm_vm_self (v : ProcVm) : (k.setVm p v).vm p = v := Function.update_self ..

theorem setVm_vm_of_ne {p q : Slot} (v : ProcVm) (h : q ≠ p) : (k.setVm p v).vm q = k.vm q :=
  Function.update_of_ne h ..

@[simp] theorem setVm_proc (v : ProcVm) : (k.setVm p v).proc = k.proc := rfl

@[simp] theorem setVm_regions (v : ProcVm) : (k.setVm p v).regions = k.regions := rfl

@[simp] theorem setVm_kmem (v : ProcVm) : (k.setVm p v).kmem = k.kmem := rfl

@[simp] theorem setProc_proc_self (c : Proc) : (k.setProc p c).proc p = c :=
  Function.update_self ..

theorem setProc_proc_of_ne {p q : Slot} (c : Proc) (h : q ≠ p) :
    (k.setProc p c).proc q = k.proc q :=
  Function.update_of_ne h ..

@[simp] theorem setProc_vm (c : Proc) : (k.setProc p c).vm = k.vm := rfl

@[simp] theorem setProc_regions (c : Proc) : (k.setProc p c).regions = k.regions := rfl

@[simp] theorem setProc_kmem (c : Proc) : (k.setProc p c).kmem = k.kmem := rfl

@[simp] theorem setRegion_regions_self (r : SharedRegion) : (k.setRegion key r).regions key = r :=
  Function.update_self ..

theorem setRegion_regions_of_ne {key key' : Key} (r : SharedRegion) (h : key' ≠ key) :
    (k.setRegion key r).regions key' = k.regions key' :=
  Function.update_of_ne h ..

@[simp] theorem setRegion_vm (r : SharedRegion) : (k.setRegion key r).vm = k.vm := rfl

@[simp] theorem setRegion_proc (r : SharedRegion) : (k.setRegion key r).proc = k.proc := rfl

@[simp] theorem setRegion_kmem (r : SharedRegion) : (k.setRegion key r).kmem = k.kmem := rfl

@[simp] theorem setKmem_vm (m : Kmem) : (k.setKmem m).vm = k.vm := rfl

@[simp] theorem setKmem_proc (m : Kmem) : (k.setKmem m).proc = k.proc := rfl

@[simp] theorem setKmem_regions (m : Kmem) : (k.setKmem m).regions = k.regions := rfl

@[simp] theorem setKmem_kmem (m : Kmem) : (k.setKmem m).kmem = m := rfl

end Stores

/-! ### The census -/

/-- The pages a process owns: kernel stack, page directory, page tables and user memory. -/
def ProcVm.owned (v : ProcVm) : Multiset ℕ :=
  (v.kstack.elim 0 fun a => {a}) +
    v.pgdir.elim 0 fun d => {d.page} + d.tables + d.frames 0 (pages v.sz)

/-- The pages of the process in a slot; an unused slot has none. -/
def Kernel.procPages (k : Kernel) (p : Slot) : Multiset ℕ :=
  if (k.proc p).state = .unused then 0 else (k.vm p).owned

/-- The pages of a region. -/
def SharedRegion.owned (r : SharedRegion) : Multiset ℕ :=
  if r.valid then (pageRange r.pages 0 r.pageCount : Multiset ℕ) else 0

/-- Every page of the kernel's memory, under its owner. -/
def Kernel.census (k : Kernel) : Multiset ℕ :=
  (k.kmem.freelist : Multiset ℕ) + ∑ p, k.procPages p + ∑ key, (k.regions key).owned

/-- The slot is in use. -/
def Kernel.Live (k : Kernel) (p : Slot) : Prop := (k.proc p).state ≠ .unused

theorem procPages_of_live {k : Kernel} {p : Slot} (h : k.Live p) : k.procPages p = (k.vm p).owned :=
  if_neg h

theorem procPages_of_not_live {k : Kernel} {p : Slot} (h : ¬ k.Live p) : k.procPages p = 0 :=
  if_pos (not_not.mp h)

variable {r : SharedRegion} {pgdir : PageDir} {regions : Key → SharedRegion} {v : ProcVm}

theorem owned_of_valid (h : r.valid = true) :
    r.owned = (pageRange r.pages 0 r.pageCount : Multiset ℕ) := if_pos h

theorem owned_of_not_valid (h : r.valid = false) : r.owned = 0 := by
  simp [SharedRegion.owned, h]

theorem mem_owned {pa : ℕ} :
    pa ∈ r.owned ↔ r.valid = true ∧ ∃ i, i < r.pageCount ∧ r.pages i = pa := by
  cases hv : r.valid with
  | false => simp [owned_of_not_valid hv]
  | true => simp [owned_of_valid hv, pageRange]

/-- **Local accounts.** When only one process and one region changed, the census is kept if the
free list, that process and that region have the same pages as before. -/
theorem census_exchange {k k' : Kernel} (p : Slot) (key : Key)
    (hproc : ∀ q, q ≠ p → k'.procPages q = k.procPages q)
    (hreg : ∀ key', key' ≠ key → (k'.regions key').owned = (k.regions key').owned)
    (h : (k'.kmem.freelist : Multiset ℕ) + k'.procPages p + (k'.regions key).owned =
      (k.kmem.freelist : Multiset ℕ) + k.procPages p + (k.regions key).owned) :
    k'.census = k.census := by
  have hp := Table.sum_add_of_eq_off p hproc
  have hr := Table.sum_add_of_eq_off key hreg
  refine add_right_cancel (b := k.procPages p + (k.regions key).owned) ?_
  calc k'.census + (k.procPages p + (k.regions key).owned)
      = (k'.kmem.freelist : Multiset ℕ) + (∑ q, k'.procPages q + k.procPages p) +
          (∑ key', (k'.regions key').owned + (k.regions key).owned) := by
        unfold Kernel.census; abel
    _ = ((k'.kmem.freelist : Multiset ℕ) + k'.procPages p + (k'.regions key).owned) +
          (∑ q, k.procPages q + ∑ key', (k.regions key').owned) := by
        rw [hp, hr]; abel
    _ = k.census + (k.procPages p + (k.regions key).owned) := by
        rw [h]; unfold Kernel.census; abel

/-! ### Address spaces -/

/-- The process refers to the region of the key. -/
abbrev ProcVm.Holds (key : Key) (v : ProcVm) : Prop := (v.shared key).region ≠ none

/-- The virtual page number of `shaddr`. -/
def ProcVm.top (v : ProcVm) : ℕ := v.shaddr / PGSIZE

/-- The virtual page number at which the process has the region of the key. -/
def ProcVm.base (v : ProcVm) (key : Key) : ℕ := (v.shared key).va / PGSIZE

/-- Nothing is mapped between the memory of a process and its `shaddr`. -/
structure GapOk (v : ProcVm) (pgdir : PageDir) : Prop where
  shaddr : v.shaddr = v.top * PGSIZE
  heap : pages v.sz ≤ v.top
  top : v.top ≤ KERNPAGE
  gap : ∀ u, pages v.sz ≤ u → u < v.top → (pgdir.entry u).p = false

/-- The address space of a process: its own memory, a gap up to `shaddr`, and from there exactly
the regions it holds, the last page of a region at its lowest address. -/
structure SpaceOk (regions : Key → SharedRegion) (v : ProcVm) (pgdir : PageDir) : Prop extends
    GapOk v pgdir where
  size : 0 < v.sz
  own : ∀ u, u < pages v.sz → (pgdir.entry u).p = true
  va : ∀ key, v.Holds key → (v.shared key).va = v.base key * PGSIZE
  low : ∀ key, v.Holds key → v.top ≤ v.base key
  high : ∀ key, v.Holds key → v.base key + (regions key).pageCount ≤ KERNPAGE
  held : ∀ key, v.Holds key → ∀ j, j < (regions key).pageCount →
    pgdir.entry (v.base key + j) =
      .ofPerm ((regions key).pages ((regions key).pageCount - 1 - j)) ⟨true, true⟩
  only : ∀ u, v.top ≤ u → u < KERNPAGE → (pgdir.entry u).p = true →
    ∃ key, v.Holds key ∧ v.base key ≤ u ∧ u < v.base key + (regions key).pageCount
  kernel : ∀ u, KERNPAGE ≤ u → (pgdir.entry u).u = false

theorem gapOk_of_shaddr {low : ℕ} (hsh : v.shaddr = low * PGSIZE) (hheap : pages v.sz ≤ low)
    (hlow : low ≤ KERNPAGE) (hgap : ∀ u, pages v.sz ≤ u → u < low → (pgdir.entry u).p = false) :
    GapOk v pgdir := by
  obtain rfl : v.top = low := by rw [ProcVm.top, hsh, Nat.mul_div_cancel _ (by decide)]
  exact ⟨hsh, hheap, hlow, hgap⟩

theorem GapOk.sz_le (h : GapOk v pgdir) : v.sz ≤ KERNBASE := by
  have h₁ := h.heap
  have h₂ := h.top
  simp only [pages, KERNPAGE, KERNBASE] at *
  omega

theorem GapOk.shaddr_le (h : GapOk v pgdir) : v.shaddr ≤ KERNBASE := by
  rw [h.shaddr, KERNBASE_eq]
  exact Nat.mul_le_mul_right _ h.top

theorem GapOk.top_of_lt (h : GapOk v pgdir) {sz : ℕ} (hlt : sz < v.shaddr) : pages sz ≤ v.top := by
  rw [h.shaddr] at hlt
  simp only [pages, PGSIZE] at *
  omega

/-- The address space depends on the regions the process holds only. -/
theorem SpaceOk.congr {regions' : Key → SharedRegion} (h : SpaceOk regions v pgdir)
    (hr : ∀ key, v.Holds key → (regions' key).pageCount = (regions key).pageCount ∧
      (regions' key).pages = (regions key).pages) : SpaceOk regions' v pgdir where
  toGapOk := h.toGapOk
  size := h.size
  own := h.own
  va := h.va
  low := h.low
  high key hk := by rw [(hr key hk).1]; exact h.high key hk
  held key hk := by rw [(hr key hk).1, (hr key hk).2]; exact h.held key hk
  only u h₁ h₂ h₃ := by
    obtain ⟨key, hk, hlo, hhi⟩ := h.only u h₁ h₂ h₃
    exact ⟨key, hk, hlo, by rw [(hr key hk).1]; exact hhi⟩
  kernel := h.kernel

theorem SpaceOk.pages_pos (h : SpaceOk regions v pgdir) : 0 < pages v.sz := by
  have := h.size
  simp only [pages]
  omega

/-! ### The invariant -/

/-- The invariant, except that a region may be valid before anybody refers to it. -/
structure InvCore (k : Kernel) : Prop where
  space : ∀ p, k.Live p → ∃ pgdir kstack, (k.vm p).pgdir = some pgdir ∧
    (k.vm p).kstack = some kstack ∧ SpaceOk k.regions (k.vm p) pgdir
  ref : ∀ p key, (k.vm p).shared key = ⟨none, 0⟩ ∨
    ((k.vm p).shared key).region = some key ∧ ((k.vm p).shared key).va ≠ 0
  unused : ∀ p, ¬ k.Live p → ∀ key, ¬ (k.vm p).Holds key
  valid : ∀ key, (k.regions key).valid = true →
    0 < (k.regions key).pageCount ∧ (k.regions key).pageCount ≤ MAX_SH_PAGES
  invalid : ∀ key, (k.regions key).valid = false →
    (k.regions key).refCount = 0 ∧ (k.regions key).pageCount = 0
  count : ∀ key, (k.regions key).refCount = Table.tally (ProcVm.Holds key) k.vm
  nodup : k.census.Nodup
  link : k.kmem.LinkOk

/-- **The invariant of shared memory.** -/
structure Inv (k : Kernel) : Prop extends InvCore k where
  pos : ∀ key, (k.regions key).valid = true → 0 < (k.regions key).refCount

namespace InvCore

variable {k : Kernel}

/-- A region somebody refers to is valid. -/
theorem valid_of_holds (h : InvCore k) {p : Slot} {key : Key} (hp : (k.vm p).Holds key) :
    (k.regions key).valid = true := by
  by_contra hv
  have h₀ := (h.invalid key (by simpa using hv)).1
  have hpos := (Table.tally_pos_iff (ProcVm.Holds key) k.vm).mpr ⟨p, hp⟩
  rw [h.count key] at h₀
  omega

theorem not_holds (h : InvCore k) {key : Key} (hv : (k.regions key).valid = false) (p : Slot) :
    ¬ (k.vm p).Holds key := fun hp => by
  rw [h.valid_of_holds hp] at hv
  cases hv

theorem live_of_holds (h : InvCore k) {p : Slot} {key : Key} (hp : (k.vm p).Holds key) :
    k.Live p := by
  by_contra hl
  exact h.unused p hl key hp

/-- `ref->region && ref->region->valid` says that the process holds the region. -/
theorem mapped_iff (h : InvCore k) (p : Slot) (key : Key) :
    k.mapped ((k.vm p).shared key) = true ↔ (k.vm p).Holds key := by
  rcases h.ref p key with hr | ⟨hr, -⟩
  · simp [Kernel.mapped, ProcVm.Holds, hr]
  · have hp : (k.vm p).Holds key := by simp [ProcVm.Holds, hr]
    simp [Kernel.mapped, hr, h.valid_of_holds hp]

/-- Only what the invariant reads matters. -/
theorem congr {k' : Kernel} (h : InvCore k) (hlive : ∀ p, k'.Live p ↔ k.Live p)
    (hvm : k'.vm = k.vm) (hreg : k'.regions = k.regions) (hmem : k'.kmem = k.kmem) :
    InvCore k' ∧ k'.census = k.census := by
  have hpp : ∀ p, k'.procPages p = k.procPages p := by
    intro p
    by_cases hp : k.Live p
    · rw [procPages_of_live hp, procPages_of_live ((hlive p).mpr hp), hvm]
    · rw [procPages_of_not_live hp, procPages_of_not_live fun h' => hp ((hlive p).mp h')]
  have hc : k'.census = k.census := by
    simp only [Kernel.census, hpp, hreg, hmem]
  refine ⟨⟨fun p hp => ?_, ?_, fun p hp => ?_, ?_, ?_, ?_, ?_, ?_⟩, hc⟩
  · rw [hvm, hreg]
    exact h.space p ((hlive p).mp hp)
  · rw [hvm]
    exact h.ref
  · rw [hvm]
    exact h.unused p fun h' => hp ((hlive p).mpr h')
  · rw [hreg]
    exact h.valid
  · rw [hreg]
    exact h.invalid
  · rw [hreg, hvm]
    exact h.count
  · rw [hc]
    exact h.nodup
  · rw [hmem]
    exact h.link

end InvCore

/-! ### Consequences of the census -/

section Census

variable {k : Kernel}

theorem regions_le_census (k : Kernel) : ∑ key, (k.regions key).owned ≤ k.census := by
  exact Multiset.le_add_left _ _

theorem procPages_le_census (k : Kernel) (p : Slot) : k.procPages p ≤ k.census := by
  have hsum : k.procPages p ≤ ∑ q, k.procPages q :=
    Finset.single_le_sum (f := k.procPages) (fun _ _ => Multiset.zero_le _) (Finset.mem_univ p)
  exact hsum.trans ((Multiset.le_add_left _ _).trans (Multiset.le_add_right _ _))

theorem freeOk_of_census (hkend : 0 < k.kmem.kend) (hfree : ∀ a ∈ k.census, k.kmem.Freeable a) :
    k.kmem.FreeOk := by
  refine ⟨hkend, fun a ha => hfree a ?_⟩
  unfold Kernel.census
  simp [ha]

/-- Different summands of a sum without duplicates are disjoint. -/
theorem disjoint_of_sum_nodup {ι : Type*} [Fintype ι] [DecidableEq ι] {f : ι → Multiset ℕ}
    (h : (∑ i, f i).Nodup) {i j : ι} {a : ℕ} (hi : a ∈ f i) (hj : a ∈ f j) : i = j := by
  by_contra hne
  have hsum : f i + f j ≤ ∑ i, f i := by
    rw [← Finset.sum_pair hne]
    exact Finset.sum_le_sum_of_subset (Finset.subset_univ _)
  exact Multiset.disjoint_left.mp (Multiset.nodup_add.mp (Multiset.nodup_of_le hsum h)).2.2 hi hj

variable {key : Key}

/-- A page is at one place of one region. -/
theorem InvCore.page_injective (h : InvCore k) {key' : Key} {i i' : ℕ}
    (hv : (k.regions key).valid = true) (hv' : (k.regions key').valid = true)
    (hi : i < (k.regions key).pageCount) (hi' : i' < (k.regions key').pageCount)
    (he : (k.regions key').pages i' = (k.regions key).pages i) : key' = key ∧ i' = i := by
  have hnd := Multiset.nodup_of_le (regions_le_census k) h.nodup
  obtain rfl : key' = key := disjoint_of_sum_nodup hnd
    (mem_owned.mpr ⟨hv', i', hi', he⟩) (mem_owned.mpr ⟨hv, i, hi, rfl⟩)
  have hle : (k.regions key').owned ≤ ∑ key, (k.regions key).owned :=
    Finset.single_le_sum (fun _ _ => Multiset.zero_le _) (Finset.mem_univ key')
  have hnd' := Multiset.nodup_of_le hle hnd
  rw [owned_of_valid hv, Multiset.coe_nodup, pageRange] at hnd'
  refine ⟨rfl, List.inj_on_of_nodup_map hnd' ?_ ?_ he⟩
  · simpa using hi'
  · simpa using hi

/-- A page of a region is not free and belongs to no process. -/
theorem InvCore.page_apart (h : InvCore k) {pa : ℕ} (hpa : pa ∈ (k.regions key).owned) :
    pa ∉ k.kmem.freelist ∧ ∀ p, pa ∉ k.procPages p := by
  have hmem : pa ∈ ∑ key, (k.regions key).owned :=
    Multiset.mem_sum.mpr ⟨key, Finset.mem_univ _, hpa⟩
  have hnd := h.nodup
  have hdis := (Multiset.nodup_add.mp hnd).2.2
  refine ⟨fun hf => ?_, fun p hp => ?_⟩
  · exact Multiset.disjoint_left.mp hdis (Multiset.mem_add.mpr (.inl hf)) hmem
  · refine Multiset.disjoint_left.mp hdis (Multiset.mem_add.mpr (.inr ?_)) hmem
    exact Multiset.mem_sum.mpr ⟨p, Finset.mem_univ _, hp⟩

/-- Two regions a process holds lie apart in its address space. -/
theorem SpaceOk.apart (h : InvCore k) {p : Slot}
    (hs : SpaceOk k.regions (k.vm p) pgdir) {key' : Key} (hk : (k.vm p).Holds key)
    (hk' : (k.vm p).Holds key') {u : ℕ} (h₁ : (k.vm p).base key ≤ u)
    (h₂ : u < (k.vm p).base key + (k.regions key).pageCount) (h₁' : (k.vm p).base key' ≤ u)
    (h₂' : u < (k.vm p).base key' + (k.regions key').pageCount) : key' = key := by
  have he := hs.held key hk (u - (k.vm p).base key) (by omega)
  have he' := hs.held key' hk' (u - (k.vm p).base key') (by omega)
  rw [Nat.add_sub_cancel' h₁] at he
  rw [Nat.add_sub_cancel' h₁', he] at he'
  have hpage := congrArg PTE.addr he'
  exact (h.page_injective (h.valid_of_holds hk) (h.valid_of_holds hk') (by omega) (by omega)
    hpage.symm).1

end Census

/-! ### Calls that change one process -/

/-- What the calls on shared memory leave alone: the slots, the other processes and the place of
the kernel's data. -/
structure OnlyVm (p : Slot) (k k' : Kernel) : Prop where
  proc : k'.proc = k.proc
  vm : ∀ q, q ≠ p → k'.vm q = k.vm q
  kdata : k'.kmem.kdata = k.kmem.kdata

section OnlyVm

variable {p : Slot} {k k' k₁ k₂ k₃ : Kernel}

theorem OnlyVm.refl (p : Slot) (k : Kernel) : OnlyVm p k k := ⟨rfl, fun _ _ => rfl, rfl⟩

theorem OnlyVm.trans (h : OnlyVm p k₁ k₂) (h' : OnlyVm p k₂ k₃) : OnlyVm p k₁ k₃ :=
  ⟨h'.proc.trans h.proc, fun q hq => (h'.vm q hq).trans (h.vm q hq), h'.kdata.trans h.kdata⟩

theorem OnlyVm.live (h : OnlyVm p k k') (q : Slot) : k'.Live q ↔ k.Live q := by
  unfold Kernel.Live
  rw [h.proc]

end OnlyVm

/-! ### Calls that take or free pages -/

/-- A call that only takes pages: no region loses a page. -/
structure Takes (k k' : Kernel) : Prop where
  mem : ∃ l, Allocated l k.kmem k'.kmem
  census : k'.census = k.census
  regions : ∀ key, (k.regions key).valid = true → (k'.regions key).valid = true ∧
    (k'.regions key).pageCount = (k.regions key).pageCount ∧
    (k'.regions key).pages = (k.regions key).pages

/-- A call that only frees pages, on behalf of the process `q`: no owner gains a page, and only
`q` may lose references. -/
structure Frees (q : Slot) (k k' : Kernel) : Prop where
  mem : ∃ l, Freed l k.kmem k'.kmem
  census : k'.census = k.census
  procs : ∀ p, k'.procPages p ≤ k.procPages p
  regions : ∀ key, (k'.regions key).valid = true → (k.regions key).valid = true ∧
    (k'.regions key).pageCount = (k.regions key).pageCount ∧
    (k'.regions key).pages = (k.regions key).pages
  refs : ∀ p, p ≠ q → (k'.vm p).shared = (k.vm p).shared

theorem Takes.refl (k : Kernel) : Takes k k :=
  ⟨⟨[], .refl _⟩, rfl, fun _ h => ⟨h, rfl, rfl⟩⟩

theorem Frees.refl (q : Slot) (k : Kernel) : Frees q k k :=
  ⟨⟨[], .refl _⟩, rfl, fun _ => le_refl _, fun _ h => ⟨h, rfl, rfl⟩, fun _ _ => rfl⟩

theorem Frees.trans {q : Slot} {k₁ k₂ k₃ : Kernel} (h : Frees q k₁ k₂) (h' : Frees q k₂ k₃) :
    Frees q k₁ k₃ := by
  obtain ⟨l₁, hl₁⟩ := h.mem
  obtain ⟨l₂, hl₂⟩ := h'.mem
  refine ⟨⟨_, hl₁.trans hl₂⟩, h'.census.trans h.census, fun p => (h'.procs p).trans (h.procs p),
    fun key hk => ?_, fun p hp => (h'.refs p hp).trans (h.refs p hp)⟩
  obtain ⟨hv, hc, hp⟩ := h'.regions key hk
  obtain ⟨hv', hc', hp'⟩ := h.regions key hv
  exact ⟨hv', hc.trans hc', hp.trans hp'⟩

end Xv6.Shared
