import CS450.Shared.Process

/-!
# Boot

The kernel that `main` hands to its first process satisfies the invariant: every page above the
kernel is on the free list or belongs to that process, except those of the kernel's own page
directory and of the stacks of the other CPUs.
-/

namespace Xv6.Shared

open Function (update update_idem update_of_ne update_self)

/-! ### The free list -/

/-- The addresses of the pages `a`, `a + 1`, ..., `n` of them. -/
def pageAddrs (a n : ℕ) : List ℕ := (List.range' a n).map (· * PGSIZE)

theorem mem_pageAddrs {a n pa : ℕ} :
    pa ∈ pageAddrs a n ↔ ∃ i, a ≤ i ∧ i < a + n ∧ i * PGSIZE = pa := by
  simp only [pageAddrs, List.mem_map, List.mem_range'_1, and_assoc]

theorem pageAddrs_nodup (a n : ℕ) : (pageAddrs a n).Nodup := by
  refine (List.nodup_range' (s := a) (n := n)).map fun i j h => ?_
  simp only [PGSIZE] at h
  omega

theorem pageAddrs_succ (a n : ℕ) : pageAddrs a (n + 1) = a * PGSIZE :: pageAddrs (a + 1) n := by
  simp [pageAddrs, List.range'_succ]

/-- `freerange` puts each page of the range on the free list. -/
theorem freerange_spec :
    ∀ (n a : ℕ) {m m' : Kmem}, freerange n a m = .ok m' →
      ∃ l : List ℕ, (l : Multiset ℕ) = pageAddrs a n ∧ Freed l m m' := by
  intro n
  induction n with
  | zero =>
    intro a m m' h
    cases h
    exact ⟨[], rfl, .refl m⟩
  | succ n ih =>
    intro a m m' h
    obtain ⟨m₁, hk, h⟩ := Except.bind_eq_ok.mp h
    obtain ⟨l, hl, hf⟩ := ih (a + 1) h
    refine ⟨l ++ [a * PGSIZE], ?_, (kfree_spec hk).1.trans hf⟩
    rw [← Multiset.coe_add, hl, pageAddrs_succ, add_comm]
    rfl

/-- What `freerange` frees can be freed again. -/
theorem freerange_freeable :
    ∀ (n a : ℕ) {m m' : Kmem}, freerange n a m = .ok m' → ∀ pa ∈ pageAddrs a n, m.Freeable pa := by
  intro n
  induction n with
  | zero =>
    intro a m m' _ pa hpa
    simp [pageAddrs] at hpa
  | succ n ih =>
    intro a m m' h pa hpa
    obtain ⟨m₁, hk, h⟩ := Except.bind_eq_ok.mp h
    obtain ⟨hf, hfree⟩ := kfree_spec hk
    rw [pageAddrs_succ, List.mem_cons] at hpa
    rcases hpa with rfl | hpa
    · exact hfree
    · obtain ⟨h₁, h₂, h₃⟩ := ih (a + 1) h pa hpa
      exact ⟨h₁, by rw [← hf.kend]; exact h₂, h₃⟩

theorem freerange_ok :
    ∀ (n a : ℕ) (m : Kmem), m.kend ≤ a * PGSIZE → (a + n) * PGSIZE ≤ PHYSTOP →
      ∃ m', freerange n a m = .ok m' := by
  intro n
  induction n with
  | zero => exact fun a m _ _ => ⟨m, rfl⟩
  | succ n ih =>
    intro a m hlo hhi
    have hlt : a * PGSIZE < (a + (n + 1)) * PGSIZE :=
      Nat.mul_lt_mul_of_pos_right (by omega) (by decide)
    have hfree : m.Freeable (a * PGSIZE) := ⟨Nat.mul_mod_left _ _, hlo, hlt.trans_le hhi⟩
    obtain ⟨m₁, hk⟩ := kfree_ok hfree
    obtain ⟨hm₁, -⟩ := kfree_spec hk
    simp only [freerange, hk, Except.ok_bind]
    refine ih (a + 1) m₁ ?_ ?_
    · rw [hm₁.kend]
      exact hlo.trans (Nat.mul_le_mul_right _ (by omega))
    · have hsum : a + 1 + n = a + (n + 1) := by omega
      rw [hsum]
      exact hhi

/-- `startothers` takes a page for each CPU, or a `kalloc` failed. -/
theorem startothers_spec :
    ∀ (n : ℕ) (m : Kmem), (startothers n m).NoFail →
      ∃ l, l.length = n ∧ Allocated l m (startothers n m) := by
  intro n
  induction n with
  | zero => exact fun m _ => ⟨[], rfl, .refl m⟩
  | succ n ih =>
    intro m hno
    obtain ⟨l, hlen, hl⟩ := ih _ hno
    rcases kalloc_spec (show kalloc m = ((kalloc m).1, (kalloc m).2) from rfl) with
      ⟨a, -, ha⟩ | ⟨-, hf⟩
    · exact ⟨[a] ++ l, by simp [hlen], ha.trans hl⟩
    · have hfail : AllocFails m (kalloc m).2 := hf
      exact absurd (hno.of_suffix hl.trace_suffix) hfail.not_noFail

theorem startothers_kdata :
    ∀ (n : ℕ) (m : Kmem), (startothers n m).kdata = m.kdata := by
  intro n
  induction n with
  | zero => exact fun m => rfl
  | succ n ih =>
    intro m
    rw [startothers, ih]
    rcases kalloc_spec (show kalloc m = ((kalloc m).1, (kalloc m).2) from rfl) with
      ⟨a, -, ha⟩ | ⟨-, -, hf⟩
    · exact ha.kdata
    · rw [hf]

theorem startothers_noFail :
    ∀ (n : ℕ) (m : Kmem), m.NoFail → n ≤ m.freelist.length → (startothers n m).NoFail := by
  intro n
  induction n with
  | zero => exact fun m h _ => h
  | succ n ih =>
    intro m hno hlen
    obtain ⟨a, l, hl⟩ := List.exists_cons_of_length_pos (show 0 < m.freelist.length by omega)
    obtain ⟨m₁, hk, hf, ha⟩ := kalloc_some hl
    rw [startothers, hk]
    refine ih m₁ (ha.noFail hno) ?_
    rw [hl, List.length_cons] at hlen
    rw [hf]
    omega

/-! ### The first process -/

variable {m : Kmem} {init : Page} {k : Kernel} {kdata kend others : ℕ}

/-- The empty kernel satisfies the invariant. -/
theorem initial_inv (hnd : m.freelist.Nodup) (hlink : m.LinkOk) :
    Inv (Kernel.initial m) := by
  have hdead : ∀ p, ¬ (Kernel.initial m).Live p := fun p hl => hl rfl
  have hzero : ∀ p key, ¬ ((Kernel.initial m).vm p).Holds key := fun p key hh => hh rfl
  refine ⟨⟨fun p hl => absurd hl (hdead p), fun _ _ => .inl rfl, fun p _ => hzero p,
    fun key hv => (nomatch hv), fun key _ => ⟨rfl, rfl⟩, fun key => ?_, ?_, hlink⟩,
    fun key hv => (nomatch hv)⟩
  · have htally : Table.tally (ProcVm.Holds key) (Kernel.initial m).vm = 0 := by
      by_contra hne
      obtain ⟨p, hp⟩ := (Table.tally_pos_iff (ProcVm.Holds key) _).mp (Nat.pos_of_ne_zero hne)
      exact hzero p key hp
    rw [htally]
    rfl
  · have hprocs : ∀ p, (Kernel.initial m).procPages p = 0 := fun p =>
      procPages_of_not_live (hdead p)
    have hregs : ∀ key, ((Kernel.initial m).regions key).owned = 0 := fun key =>
      owned_of_not_valid rfl
    simp only [Kernel.census, hprocs, hregs, Finset.sum_const_zero, add_zero]
    exact hnd

/-- `inituvm` maps one page at address `0`. -/
theorem inituvm_spec {l : List ℕ} {d d' : PageDir} {m₀ m' : Kmem}
    (hd : Draft KernelTable 0 l d m₀ m) (h : inituvm d init m = .ok (d', m')) (hno : m'.NoFail) :
    ∃ l', Draft KernelTable 1 l' d' m₀ m' := by
  unfold inituvm at h
  cases hk : kalloc m with
  | mk o m₁ =>
  rw [hk] at h
  rcases kalloc_spec hk with ⟨a, rfl, ha⟩ | ⟨rfl, -⟩
  · obtain ⟨⟨ok, d₁, m₂⟩, hmap, hrest⟩ := Except.bind_eq_ok.mp h
    obtain ⟨rfl, rfl⟩ : d₁ = d' ∧ _ = m' := by simpa using hrest
    obtain ⟨-, -, l', hm⟩ | ⟨-, -, hf, -⟩ := mappages_page_spec (v := 0) (by omega)
      (by rw [Nat.zero_mul]; exact hmap)
    · have h₁ := hd.map (by decide) (ha.memset (List.mem_singleton_self a) 0) hm
      refine ⟨_, h₁.of_mem ⟨h₁.mem.freelist, h₁.mem.trace, h₁.mem.kend,
        h₁.mem.kdata, fun b hb => ?_⟩⟩
      have hne : b ≠ a := fun he => hb (by simp [he])
      exact (update_of_ne hne ..).trans (h₁.mem.mem b hb)
    · exact absurd hno hf.not_noFail
  · cases h

theorem inituvm_ok {d : PageDir} (h₀ : (d.entry 0).p = false)
    (hfree : 1 < m.freelist.length) (init : Page) :
    ∃ d' m', inituvm d init m = .ok (d', m') ∧ (m.NoFail → m'.NoFail) := by
  obtain ⟨a, l, hl⟩ := List.exists_cons_of_length_pos (show 0 < m.freelist.length by omega)
  obtain ⟨m₁, hk, hf, ha⟩ := kalloc_some hl
  have hne : (m₁.memset a 0).freelist ≠ [] := by
    rw [memset_freelist, hf]
    rintro rfl
    rw [hl] at hfree
    simp at hfree
  obtain ⟨d', m₂, hmap⟩ := mappages_page_ok (v := 0) (by omega) h₀ hne a ⟨true, true⟩
  have hspec := mappages_page_spec (v := 0) (by omega) hmap
  rw [Nat.zero_mul] at hmap
  refine ⟨d', { m₂ with mem := update m₂.mem a init }, ?_, fun hno => ?_⟩
  · simp only [inituvm, hk, hmap, Except.ok_bind]
    rfl
  · obtain ⟨-, -, l', hm⟩ | ⟨hf, -⟩ := hspec
    · exact hm.mem.noFail (ha.noFail hno)
    · cases hf

/-- The process table holds the first process in the slot `np` and nothing else, and there are no
shared regions. -/
structure FirstProcess (k : Kernel) (np : Slot) : Prop where
  proc : ∃ c : Proc, c.state = .runnable ∧ c.chan = none ∧
    k.proc = Function.update (fun _ => Proc.zero) np c
  vm : ∃ d kstack, k.vm = Function.update (fun _ => ProcVm.zero) np
    ⟨PGSIZE, some d, some kstack, KERNBASE, fun _ => ⟨none, 0⟩⟩
  regions : k.regions = fun _ => SharedRegion.zero
  initproc : k.initproc = np

/-- What `userinit` does when no `kalloc` fails: a kernel stack, and a directory with one user
page. -/
theorem userinit_cases (hlink : m.LinkOk)
    (hok : userinit init (Kernel.initial m) = .ok k) (hno : k.kmem.NoFail) :
    ∃ (np : Slot) (c : Proc) (kstack : ℕ) (d : PageDir) (l : List ℕ) (m₁ : Kmem),
      Allocated [kstack] m m₁ ∧ Draft KernelTable 1 l d m₁ k.kmem ∧
      c.state = .runnable ∧ c.chan = none ∧
      k.proc = update (Kernel.initial m).proc np c ∧
      k.vm = update (Kernel.initial m).vm np
        ⟨PGSIZE, some d, some kstack, KERNBASE, fun _ => ⟨none, 0⟩⟩ ∧
      k.regions = (Kernel.initial m).regions ∧ k.initproc = np := by
  unfold userinit at hok
  rcases hal : allocproc (Kernel.initial m) with ⟨o, k₁⟩
  rw [hal] at hok
  rcases allocproc_cases hal with ⟨-, rfl, rfl⟩ | ⟨np, -, rfl, -⟩ | ⟨np, kstack, hun, rfl, ha, hset⟩
  · cases hok
  · cases hok
  obtain ⟨⟨o, m₂⟩, hsetup, hrest⟩ := Except.bind_eq_ok.mp hok
  have hlink₁ : k₁.kmem.LinkOk := by
    obtain ⟨c, hc⟩ := hlink
    exact ⟨c, by rw [ha.kdata]; exact hc⟩
  cases (setupkvm_spec hlink₁).holds _ hsetup with
  | failed => cases hrest
  | made hd =>
    obtain ⟨⟨d', m₃⟩, hinit, hrest⟩ := Except.bind_eq_ok.mp hrest
    simp only [Except.pure_eq_ok_iff] at hrest
    have hmem : k.kmem = m₃ := by rw [← hrest]; rfl
    obtain ⟨l, hd'⟩ := inituvm_spec hd hinit (hmem ▸ hno)
    refine ⟨np, { k₁.proc np with state := .runnable }, kstack, d', l, k₁.kmem, ha, hmem ▸ hd', rfl,
      ?_, ?_, ?_, ?_, ?_⟩
    · rw [hset.proc, update_self]
      rfl
    · rw [← hrest]
      simp only [Kernel.setProc, Kernel.setVm, Kernel.setKmem, hset.proc, update_idem]
    · rw [← hrest]
      simp only [Kernel.setProc, Kernel.setVm, Kernel.setKmem, hset.vm, update_self,
        update_idem]
      rfl
    · rw [← hrest]
      exact hset.regions
    · rw [← hrest]

/-- **`userinit`** keeps the invariant and the census. -/
theorem userinit_inv (hnd : m.freelist.Nodup)
    (hlink : m.LinkOk) (hok : userinit init (Kernel.initial m) = .ok k) (hno : k.kmem.NoFail) :
    Inv k ∧ k.census = (m.freelist : Multiset ℕ) ∧ ∃ np, FirstProcess k np := by
  have h₀ := initial_inv hnd hlink
  obtain ⟨np, c, kstack, d, l, m₁, ha, hd, hrun, hchan, hproc, hvm, hregs, hinit⟩ :=
    userinit_cases hlink hok hno
  have hdead : ¬ (Kernel.initial m).Live np := fun hl => hl rfl
  have hlive : k.Live np := by simp [Kernel.Live, hproc, hrun]
  have hself : k.vm np = ⟨PGSIZE, some d, some kstack, KERNBASE, fun _ => ⟨none, 0⟩⟩ := by
    rw [hvm, update_self]
  have hone : pages PGSIZE = 1 := by simp [pages, PGSIZE]
  have hchange : LocalChange (Kernel.initial m) np 0 k := by
    refine ⟨fun q hq => ?_, fun q hq => ?_, fun _ _ => by rw [hregs],
      fun _ _ _ => by rw [hregs]; exact ⟨rfl, rfl⟩, fun _ => ?_, fun key => ?_,
      fun hl => absurd hlive hl, fun key _ => ?_, ?_, ?_, ?_, ?_, ?_⟩
    · simp [Kernel.Live, hproc, update_of_ne hq]
    · rw [hvm, update_of_ne hq]
    · refine ⟨d, kstack, by rw [hself], by rw [hself], ?_⟩
      rw [hself]
      exact spaceOk_of_draft (Nat.zero_lt_succ _) rfl (by rw [hone]; decide)
        (by rw [hone]; exact hd)
        fun _ hk => hk rfl
    · rw [hself]
      exact .inl rfl
    · rw [hself]
      exact Iff.rfl
    · rw [hregs]
      exact h₀.valid 0
    · rw [hregs]
      exact h₀.invalid 0
    · rw [hself, hregs]
      rfl
    · rw [procPages_of_live hlive, procPages_of_not_live hdead, hself, hregs]
      have hfree : (Kernel.initial m).kmem.freelist = [kstack] ++ (l ++ k.kmem.freelist) := by
        rw [← hd.mem.freelist]
        exact ha.freelist
      rw [hfree]
      simp only [ProcVm.owned, Option.elim_some, hone, ← Multiset.coe_add, hd.taken,
        Multiset.coe_singleton]
      abel
    · rw [hd.mem.kdata, ha.kdata]
      rfl
  refine ⟨hchange.inv_of_regions h₀ hregs, hchange.census_eq.trans ?_,
    np, ⟨c, hrun, hchan, hproc⟩, ⟨d, kstack, hvm⟩, hregs, hinit⟩
  have hprocs : ∀ p, (Kernel.initial m).procPages p = 0 := fun p =>
    procPages_of_not_live fun hl => hl rfl
  have howned : ∀ key, ((Kernel.initial m).regions key).owned = 0 := fun key =>
    owned_of_not_valid rfl
  simp only [Kernel.census, hprocs, howned, Finset.sum_const_zero, add_zero]
  rfl

theorem userinit_ok (hlink : m.LinkOk) (hno : m.NoFail)
    (hfree : 1000 < m.freelist.length) (init : Page) :
    ∃ k, userinit init (Kernel.initial m) = .ok k ∧ k.kmem.NoFail := by
  rcases hal : allocproc (Kernel.initial m) with ⟨o, k₁⟩
  have hsome : findUnused (Kernel.initial m).proc ≠ none := fun hn => by
    simpa [Kernel.initial, Proc.zero] using Table.firstIdx_eq_none.mp hn 0
  rcases allocproc_cases hal with ⟨hn, -⟩ | ⟨np, -, -, hf, -⟩ | ⟨np, kstack, -, rfl, ha, -⟩
  · exact absurd hn hsome
  · have hnil : m.freelist = [] := hf.1
    simp [hnil] at hfree
  have hlen : m.freelist.length = k₁.kmem.freelist.length + 1 := by
    rw [show m.freelist = [kstack] ++ k₁.kmem.freelist from ha.freelist]
    simp
  have hlink₁ : k₁.kmem.LinkOk := by
    obtain ⟨c, hc⟩ := hlink
    exact ⟨c, by rw [ha.kdata]; exact hc⟩
  obtain ⟨l, d, m₂, hset, hd⟩ := setupkvm_ok hlink₁ (by omega)
  have hlen₂ := hd.length_add (Nat.zero_le _)
  obtain ⟨d', m₃, hinit, hno₃⟩ := inituvm_ok (hd.absent 0 (Nat.zero_le 0) (by decide))
    (show 1 < m₂.freelist.length by unfold pagesFor at hlen₂; omega) init
  unfold userinit
  simp only [hal, hset, Except.ok_bind, hinit]
  exact ⟨_, rfl, hno₃ (hd.mem.noFail (ha.noFail hno))⟩

/-! ### `main` -/

theorem boot_eq (kend kdata others : ℕ) (init : Page) :
    boot kend kdata others init =
      (freerange (0x400 - (kend + (PGSIZE - 1)) / PGSIZE) ((kend + (PGSIZE - 1)) / PGSIZE)
        (Kmem.initial kend kdata) >>= fun m₁ => setupkvm m₁ >>= fun r =>
        freerange (PHYSTOP / PGSIZE - 0x400) 0x400 (startothers others r.2) >>= fun m₄ =>
        userinit init (Kernel.initial m₄)) := rfl

theorem kmem_initial_link (hlink : (Kmem.initial kend kdata).LinkOk)
    (hm : m.kdata = kdata) : m.LinkOk := by
  obtain ⟨c, hc, h⟩ := hlink
  exact ⟨c, hm.trans hc, h⟩

/-- What `main` has done before `userinit`, when no `kalloc` failed: the free list holds the pages
from 4 MB on, and a rest of those below. -/
structure Prepared (kend : ℕ) (m : Kmem) : Prop where
  nodup : m.freelist.Nodup
  link : m.LinkOk
  length : 0xE000 - 0x400 ≤ m.freelist.length
  freeable : ∀ pa ∈ m.freelist, m.Freeable pa
  kend_eq : m.kend = kend

theorem prepared_of_steps {m₁ m₂ m₄ : Kmem} {o : Option PageDir}
    (hlink : (Kmem.initial kend kdata).LinkOk)
    (h₁ : freerange (0x400 - (kend + (PGSIZE - 1)) / PGSIZE) ((kend + (PGSIZE - 1)) / PGSIZE)
      (Kmem.initial kend kdata) = .ok m₁)
    (h₂ : setupkvm m₁ = .ok (o, m₂))
    (h₄ : freerange (PHYSTOP / PGSIZE - 0x400) 0x400 (startothers others m₂) = .ok m₄)
    (hno : m₄.NoFail) : Prepared kend m₄ := by
  obtain ⟨l₁, hl₁, hf₁⟩ := freerange_spec _ _ h₁
  obtain ⟨l₂, hl₂, hf₂⟩ := freerange_spec _ _ h₄
  obtain ⟨lo, -, hlo⟩ := startothers_spec others m₂ (hno.of_suffix hf₂.trace_suffix)
  have hno₂ : m₂.NoFail := (hno.of_suffix hf₂.trace_suffix).of_suffix hlo.trace_suffix
  obtain ⟨lk, d, hk⟩ : ∃ l d, Draft KernelTable 0 l d m₁ m₂ := by
    cases (setupkvm_spec (kmem_initial_link hlink hf₁.kdata)).holds _ h₂ with
    | made h => exact ⟨_, _, h⟩
    | failed _ hfail => exact absurd hno₂ hfail
  have hmem : ∀ pa ∈ (startothers others m₂).freelist, pa ∈ l₁ := by
    intro pa hpa
    have h₃ : pa ∈ m₁.freelist := by
      rw [hk.mem.freelist, hlo.freelist]
      exact List.mem_append_right _ (List.mem_append_right _ hpa)
    rw [hf₁.freelist] at h₃
    simpa [Kmem.initial] using h₃
  have hnd₁ : l₁.Nodup := by
    rw [← Multiset.coe_nodup, hl₁]
    exact pageAddrs_nodup _ _
  have hnd₃ : (startothers others m₂).freelist.Nodup := by
    have hall : m₁.freelist.Nodup := by
      rw [hf₁.freelist]
      simpa [Kmem.initial] using hnd₁
    rw [hk.mem.freelist, hlo.freelist] at hall
    exact (List.nodup_append.mp (List.nodup_append.mp hall).2.1).2.1
  have hnd₂ : l₂.Nodup := by
    rw [← Multiset.coe_nodup, hl₂]
    exact pageAddrs_nodup _ _
  have hkend₃ : (startothers others m₂).kend = (Kmem.initial kend kdata).kend := by
    rw [hlo.kend, hk.mem.kend, hf₁.kend]
  refine ⟨?_, ?_, ?_, fun pa hpa => ?_, hf₂.kend.trans hkend₃⟩
  · rw [hf₂.freelist, List.nodup_append]
    refine ⟨hnd₂, hnd₃, fun a ha b hb hab => ?_⟩
    subst hab
    -- the two ranges are on different sides of 4 MB
    have ha₂ : a ∈ pageAddrs 0x400 (PHYSTOP / PGSIZE - 0x400) := by
      rw [← Multiset.mem_coe, ← hl₂]
      exact ha
    have ha₁ : a ∈ pageAddrs ((kend + (PGSIZE - 1)) / PGSIZE)
        (0x400 - (kend + (PGSIZE - 1)) / PGSIZE) := by
      rw [← Multiset.mem_coe, ← hl₁]
      exact hmem a hb
    obtain ⟨i, hi, -, hia⟩ := mem_pageAddrs.mp ha₂
    obtain ⟨j, hj₀, hj, hja⟩ := mem_pageAddrs.mp ha₁
    have hij : i = j := Nat.eq_of_mul_eq_mul_right (show 0 < PGSIZE by decide) (hia.trans hja.symm)
    omega
  · refine kmem_initial_link hlink ?_
    rw [hf₂.kdata, hlo.kdata, hk.mem.kdata, hf₁.kdata]
    rfl
  · have hlen : l₂.length = PHYSTOP / PGSIZE - 0x400 := by
      have := congrArg Multiset.card hl₂
      simpa [pageAddrs] using this
    rw [hf₂.freelist, List.length_append, hlen]
    have : PHYSTOP / PGSIZE = 0xE000 := by decide
    omega
  · rw [hf₂.freelist, List.mem_append] at hpa
    unfold Kmem.Freeable
    rw [hf₂.kend, hkend₃]
    rcases hpa with hpa | hpa
    · have hpa' : pa ∈ pageAddrs 0x400 (PHYSTOP / PGSIZE - 0x400) := by
        rw [← Multiset.mem_coe, ← hl₂]
        exact hpa
      have := freerange_freeable _ _ h₄ pa hpa'
      unfold Kmem.Freeable at this
      rwa [hkend₃] at this
    · refine freerange_freeable _ _ h₁ pa ?_
      rw [← Multiset.mem_coe, ← hl₁]
      exact hmem pa hpa

/-- The kernel after boot: the invariant, one process, no region, and more than 56000 pages, all of
which `kfree` accepts. -/
structure BootState (k : Kernel) (np : Slot) : Prop where
  inv : Inv k
  first : FirstProcess k np
  card : 0xE000 - 0x400 ≤ Multiset.card k.census
  freeable : ∀ pa ∈ k.census, k.kmem.Freeable pa

/-- **The invariant holds after boot.** -/
theorem boot_inv
    (hlink : (Kmem.initial kend kdata).LinkOk) (hok : boot kend kdata others init = .ok k)
    (hno : k.kmem.NoFail) : ∃ np, BootState k np ∧ k.kmem.kend = kend := by
  obtain ⟨m₁, h₁, hok⟩ := Except.bind_eq_ok.mp hok
  obtain ⟨⟨o, m₂⟩, h₂, hok⟩ := Except.bind_eq_ok.mp hok
  obtain ⟨m₄, h₄, hok⟩ := Except.bind_eq_ok.mp hok
  have hkd₄ : m₄.kdata = m₂.kdata := by
    obtain ⟨l₂, -, hf₂⟩ := freerange_spec _ _ h₄
    rw [hf₂.kdata, startothers_kdata]
  have hlink₄ : m₄.LinkOk := by
    obtain ⟨l₁, -, hf₁⟩ := freerange_spec _ _ h₁
    have hlink₁ := kmem_initial_link hlink hf₁.kdata
    refine kmem_initial_link hlink (hkd₄.trans ?_)
    cases (setupkvm_spec hlink₁).holds _ h₂ with
    | made hd => exact hd.mem.kdata.trans hf₁.kdata
    | failed hrel => exact hrel.kdata.trans hf₁.kdata
  obtain ⟨_, _, _, _, _, _, ha, hd, -⟩ := userinit_cases hlink₄ hok hno
  have hno₄ : m₄.NoFail := hno.of_suffix (ha.trace_suffix.trans hd.mem.trace_suffix)
  have hprep := prepared_of_steps hlink h₁ h₂ h₄ hno₄
  obtain ⟨hinv, hcensus, np, hfirst⟩ := userinit_inv hprep.nodup hlink₄ hok hno
  have hkend : k.kmem.kend = m₄.kend := by rw [hd.mem.kend, ha.kend]
  refine ⟨np, ⟨hinv, hfirst, ?_, fun pa hpa => ?_⟩, hkend.trans hprep.kend_eq⟩
  · rw [hcensus, Multiset.coe_card]
    exact hprep.length
  · rw [hcensus, Multiset.mem_coe] at hpa
    unfold Kmem.Freeable
    rw [hkend]
    exact hprep.freeable pa hpa

/-- With a kernel that ends below 1152 KB and at most 9 CPUs, boot succeeds. -/
theorem boot_ok (hkend : kend ≤ 0x120000) (hothers : others ≤ 8)
    (hlink : (Kmem.initial kend kdata).LinkOk) (init : Page) :
    ∃ k, boot kend kdata others init = .ok k ∧ k.kmem.NoFail := by
  have hfirst : (kend + (PGSIZE - 1)) / PGSIZE ≤ 0x120 := by
    simp only [PGSIZE]
    omega
  have hlow : kend ≤ (kend + (PGSIZE - 1)) / PGSIZE * PGSIZE := by
    simp only [PGSIZE]
    omega
  have hphys : PHYSTOP = 0xE000 * PGSIZE := by decide
  have hphys' : PHYSTOP / PGSIZE = 0xE000 := by decide
  obtain ⟨m₁, h₁⟩ := freerange_ok (0x400 - (kend + (PGSIZE - 1)) / PGSIZE)
    ((kend + (PGSIZE - 1)) / PGSIZE) (Kmem.initial kend kdata) hlow
    (by rw [hphys]; exact Nat.mul_le_mul_right _ (by omega))
  obtain ⟨l₁, hl₁, hf₁⟩ := freerange_spec _ _ h₁
  have hlen₁ : m₁.freelist.length = 0x400 - (kend + (PGSIZE - 1)) / PGSIZE := by
    have hcard := congrArg Multiset.card hl₁
    rw [hf₁.freelist]
    simpa [pageAddrs, Kmem.initial] using hcard
  have hlink₁ : m₁.LinkOk := kmem_initial_link hlink hf₁.kdata
  have hno₁ : m₁.NoFail := hf₁.noFail (by simp [Kmem.NoFail, Kmem.initial])
  obtain ⟨l₂, d, m₂, h₂, hko⟩ := setupkvm_ok hlink₁ (by omega)
  have hlen₂ := hko.length_add (Nat.zero_le _)
  have hno₃ : (startothers others m₂).NoFail :=
    startothers_noFail others m₂ (hko.mem.noFail hno₁) (by unfold pagesFor at hlen₂; omega)
  have hkend₃ : (startothers others m₂).kend = kend := by
    obtain ⟨l, -, hl⟩ := startothers_spec others m₂ hno₃
    rw [hl.kend, hko.mem.kend, hf₁.kend]
    rfl
  obtain ⟨m₄, h₄⟩ := freerange_ok (PHYSTOP / PGSIZE - 0x400) 0x400 (startothers others m₂)
    (by rw [hkend₃]; simp only [PGSIZE]; omega) (by rw [hphys', hphys])
  obtain ⟨l₄, hl₄, hf₄⟩ := freerange_spec _ _ h₄
  have hno₄ : m₄.NoFail := hf₄.noFail hno₃
  have hprep := prepared_of_steps hlink h₁ h₂ h₄ hno₄
  obtain ⟨k, hk, hno⟩ := userinit_ok hprep.link hno₄
    (by have := hprep.length; omega) init
  refine ⟨k, ?_, hno⟩
  rw [boot_eq, h₁, Except.ok_bind, h₂, Except.ok_bind, h₄, Except.ok_bind, hk]

end Xv6.Shared
