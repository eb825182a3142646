import CS450.Vm.PageDir

/-!
# What the page-table functions do

Specifications of the functions of `vm.c` in terms of virtual page numbers: what happens to the
entries, to the pages that hold the tables, and to the free list.

## Main results

* `mappages_page_spec`: mapping one page
* `deallocuvmLoop_eq_sweep`: the jumps of `deallocuvm` leave out absent pages only
* `deallocuvm_spec`, `freevm_spec`: the frames freed, each once
-/

namespace Xv6

open Function (update update_of_ne)

/-- The number of pages of a memory of `sz` bytes. -/
def pages (sz : ℕ) : ℕ := (sz + 4095) / 4096

/-- The virtual page number of the first kernel page. -/
def KERNPAGE : ℕ := 0x80000

theorem KERNBASE_eq : KERNBASE = KERNPAGE * PGSIZE := rfl

theorem PGROUNDUP_eq {sz : ℕ} (h : sz ≤ KERNBASE) : PGROUNDUP sz = pages sz * PGSIZE := by
  simp only [PGROUNDUP, add32, pages, PGSIZE, WORD, KERNBASE] at *
  omega

variable {v i hi lo mid oldsz newsz : ℕ} {pgdir d pgdir' : PageDir} {m m' : Kmem}

theorem PDX_page (h : v < 0x100000) : PDX (v * PGSIZE) = v / 1024 := by
  simp only [PDX, PGSIZE]
  omega

theorem PTX_page (v : ℕ) : PTX (v * PGSIZE) = v % 1024 := by
  simp only [PTX, PGSIZE]
  omega

theorem add32_page (h : v + 1 < 0x100000) :
    add32 (v * PGSIZE) PGSIZE = (v + 1) * PGSIZE := by
  simp only [add32, PGSIZE, WORD]
  omega

/-- The jump of `deallocuvm` to the next page directory entry. -/
theorem nextTable_page (h : v < KERNPAGE) :
    add32 (sub32 (PGADDR (PDX (v * PGSIZE) + 1)) PGSIZE) PGSIZE =
      (v / 1024 + 1) * 1024 * PGSIZE := by
  simp only [KERNPAGE] at h
  rw [PDX_page (by omega)]
  simp only [add32, sub32, PGADDR, PGSIZE, WORD]
  omega

/-! ### Entries, tables and frames -/

namespace PageDir

/-- The entry of a virtual page number; an absent table reads as zero. -/
def entry (pgdir : PageDir) (v : ℕ) : PTE := pgdir.deref (v / 1024, v % 1024)

/-- There is a page table for the entry `i` of the directory. -/
def Has (pgdir : PageDir) (i : ℕ) : Prop := (pgdir.pde i).isSome = true

/-- The pages that hold the page tables. -/
def tables (pgdir : PageDir) : Multiset ℕ :=
  ∑ i ∈ Finset.range NPDENTRIES, (pgdir.pde i).elim 0 fun t => {t.page}

end PageDir

/-- The frame a present entry maps. -/
def PTE.frame (e : PTE) : Multiset ℕ := if e.p then {e.addr} else 0

/-- The frames mapped at the virtual pages `[lo, hi)`. -/
def PageDir.frames (pgdir : PageDir) (lo hi : ℕ) : Multiset ℕ :=
  ∑ v ∈ Finset.Ico lo hi, (pgdir.entry v).frame

@[simp] theorem PTE.frame_ofPerm (pa : ℕ) (perm : Perm) : (PTE.ofPerm pa perm).frame = {pa} := rfl

theorem PTE.frame_of_absent {e : PTE} (h : e.p = false) : e.frame = 0 := by simp [frame, h]

theorem PTE.frame_of_present {e : PTE} (h : e.p = true) : e.frame = {e.addr} := by
  simp [frame, h]

namespace PageDir

theorem has_of_eq {t : PageTable} (h : pgdir.pde i = some t) : pgdir.Has i := by
  rw [Has, h]
  rfl

theorem not_has_iff : ¬ pgdir.Has i ↔ pgdir.pde i = none := by
  rw [Has, Option.not_isSome_iff_eq_none]

theorem entry_of_no_table (h : pgdir.pde (v / 1024) = none) :
    pgdir.entry v = .zero := by
  simp [entry, deref, h]

/-- A present entry lies in an existing table. -/
theorem exists_table_of_present (h : (pgdir.entry v).p = true) :
    ∃ t, pgdir.pde (v / 1024) = some t := by
  cases ht : pgdir.pde (v / 1024) with
  | none => rw [entry_of_no_table ht] at h; cases h
  | some t => exact ⟨t, rfl⟩

theorem entry_store {t : PageTable} (ht : pgdir.pde (v / 1024) = some t)
    (e : PTE) : (pgdir.store (v / 1024, v % 1024) e).entry = update pgdir.entry v e := by
  funext w
  by_cases hw : w = v
  · subst hw
    simp [entry, deref, store, ht]
  · rw [update_of_ne hw]
    by_cases hi : w / 1024 = v / 1024
    · have hj : w % 1024 ≠ v % 1024 := by omega
      simp [entry, deref, store, hi, ht, update_of_ne hj]
    · simp [entry, deref, store, update_of_ne hi]

theorem entry_install (h : pgdir.pde i = none) (page : ℕ) :
    (pgdir.install i page).entry = pgdir.entry := by
  funext w
  by_cases hi : w / 1024 = i
  · simp [entry, deref, install, hi, h]
  · simp [entry, deref, install, update_of_ne hi]

/-- Two directories with the same pages holding the directory and its tables. -/
structure SameTables (pgdir pgdir' : PageDir) : Prop where
  page : pgdir'.page = pgdir.page
  pde : ∀ i, (pgdir'.pde i).map PageTable.page = (pgdir.pde i).map PageTable.page

theorem SameTables.refl (pgdir : PageDir) : SameTables pgdir pgdir := ⟨rfl, fun _ => rfl⟩

theorem SameTables.trans {d₁ d₂ d₃ : PageDir} (h : SameTables d₁ d₂) (h' : SameTables d₂ d₃) :
    SameTables d₁ d₃ :=
  ⟨h'.page.trans h.page, fun i => (h'.pde i).trans (h.pde i)⟩

theorem tables_summand (o : Option PageTable) :
    (o.elim 0 fun t => ({t.page} : Multiset ℕ)) = (o.map PageTable.page).elim 0 fun a => {a} := by
  cases o <;> rfl

theorem SameTables.has_iff {d' : PageDir} (h : SameTables d d') : d'.Has i ↔ d.Has i := by
  have hpde := congrArg Option.isSome (h.pde i)
  rw [Option.isSome_map, Option.isSome_map] at hpde
  rw [Has, Has, hpde]

theorem SameTables.tables_eq {d' : PageDir} (h : SameTables d d') : d'.tables = d.tables := by
  refine Finset.sum_congr rfl fun i _ => ?_
  rw [tables_summand, tables_summand, h.pde i]

theorem sameTables_store (pgdir : PageDir) (pte : ℕ × ℕ) (e : PTE) :
    SameTables pgdir (pgdir.store pte e) := by
  refine ⟨rfl, fun i => ?_⟩
  by_cases hi : i = pte.1
  · subst hi
    cases h : pgdir.pde pte.1 <;> simp [store, h]
  · simp [store, update_of_ne hi]

theorem mem_tables {t : PageTable} (hi : i < NPDENTRIES)
    (h : pgdir.pde i = some t) : t.page ∈ pgdir.tables := by
  rw [tables, Multiset.mem_sum]
  exact ⟨i, Finset.mem_range.mpr hi, by simp [h]⟩

theorem has_install (page j : ℕ) : (pgdir.install i page).Has j ↔ pgdir.Has j ∨ j = i := by
  unfold Has install
  rcases eq_or_ne j i with rfl | hne
  · simp
  · simp [hne]

theorem card_tables (pgdir : PageDir) : Multiset.card pgdir.tables =
    ((Finset.range NPDENTRIES).filter fun i => (pgdir.pde i).isSome).card := by
  rw [tables, Multiset.card_sum, Finset.card_filter]
  refine Finset.sum_congr rfl fun i _ => ?_
  cases pgdir.pde i <;> rfl

theorem tables_install (hi : i < NPDENTRIES) (h : pgdir.pde i = none)
    (page : ℕ) : (pgdir.install i page).tables = pgdir.tables + {page} := by
  unfold tables
  have hm : i ∈ Finset.range NPDENTRIES := Finset.mem_range.mpr hi
  rw [← Finset.add_sum_erase _ _ hm, ← Finset.add_sum_erase _ _ hm]
  have hrest : ∑ x ∈ (Finset.range NPDENTRIES).erase i,
      ((pgdir.install i page).pde x).elim 0 (fun t => ({t.page} : Multiset ℕ)) =
      ∑ x ∈ (Finset.range NPDENTRIES).erase i, (pgdir.pde x).elim 0 fun t => {t.page} := by
    refine Finset.sum_congr rfl fun x hx => ?_
    simp [install, update_of_ne (Finset.ne_of_mem_erase hx)]
  rw [hrest]
  simp [install, h, add_comm]

/-! ### Frames of an interval -/

@[simp] theorem frames_self (pgdir : PageDir) (v : ℕ) : pgdir.frames v v = 0 := by
  simp [frames]

theorem frames_of_le (pgdir : PageDir) (h : hi ≤ lo) : pgdir.frames lo hi = 0 := by
  simp [frames, Finset.Ico_eq_empty_of_le h]

theorem frames_eq_add (pgdir : PageDir) (h : lo < hi) :
    pgdir.frames lo hi = (pgdir.entry lo).frame + pgdir.frames (lo + 1) hi :=
  Finset.sum_eq_sum_Ico_succ_bot h _

theorem frames_succ (pgdir : PageDir) (h : lo ≤ hi) :
    pgdir.frames lo (hi + 1) = pgdir.frames lo hi + (pgdir.entry hi).frame :=
  Finset.sum_Ico_succ_top h _

theorem card_frames : ∀ {n : ℕ}, (∀ v, v < n → (d.entry v).p = true) →
    Multiset.card (d.frames 0 n) = n := by
  intro n
  induction n with
  | zero => exact fun _ => by rw [frames_self, Multiset.card_zero]
  | succ n ih =>
    intro h
    rw [frames_succ d (Nat.zero_le n), Multiset.card_add, ih fun v hv => h v (by omega)]
    simp [PTE.frame, h n (by omega)]

theorem frames_append (pgdir : PageDir) (h : lo ≤ mid) (h' : mid ≤ hi) :
    pgdir.frames lo mid + pgdir.frames mid hi = pgdir.frames lo hi :=
  Finset.sum_Ico_consecutive _ h h'

theorem frames_congr {d' : PageDir}
    (h : ∀ v, lo ≤ v → v < hi → d'.entry v = d.entry v) : d'.frames lo hi = d.frames lo hi :=
  Finset.sum_congr rfl fun v hv => by
    rw [h v (Finset.mem_Ico.mp hv).1 (Finset.mem_Ico.mp hv).2]

theorem frames_eq_zero
    (h : ∀ v, lo ≤ v → v < hi → (pgdir.entry v).p = false) : pgdir.frames lo hi = 0 :=
  Finset.sum_eq_zero fun v hv =>
    PTE.frame_of_absent (h v (Finset.mem_Ico.mp hv).1 (Finset.mem_Ico.mp hv).2)

theorem mem_frames {a : ℕ} :
    a ∈ pgdir.frames lo hi ↔
      ∃ v, lo ≤ v ∧ v < hi ∧ (pgdir.entry v).p = true ∧ (pgdir.entry v).addr = a := by
  simp only [frames, Multiset.mem_sum, Finset.mem_Ico, PTE.frame]
  constructor
  · rintro ⟨v, ⟨hlo, hhi⟩, hv⟩
    split at hv
    · next hp => exact ⟨v, hlo, hhi, hp, (Multiset.mem_singleton.mp hv).symm⟩
    · simp at hv
  · rintro ⟨v, hlo, hhi, hp, rfl⟩
    exact ⟨v, ⟨hlo, hhi⟩, by simp [hp]⟩

end PageDir

/-! ### Mapping pages -/

/-- The entry `e` was stored at the virtual page `v`, taking the pages `l` for a missing table. -/
structure Mapped (v : ℕ) (e : PTE) (l : List ℕ) (pgdir pgdir' : PageDir) (m m' : Kmem) : Prop where
  entry : pgdir'.entry = Function.update pgdir.entry v e
  has : ∀ i, pgdir'.Has i ↔ pgdir.Has i ∨ i = v / 1024
  tables : pgdir'.tables = pgdir.tables + (l : Multiset ℕ)
  page : pgdir'.page = pgdir.page
  length : l.length ≤ 1
  mem : Allocated l m m'

/-- `kalloc` failed on an empty free list, and nothing else happened. -/
def AllocFails (m m' : Kmem) : Prop :=
  m.freelist = [] ∧ m' = { m with trace := .alloc none :: m.trace }

theorem AllocFails.trace_suffix (h : AllocFails m m') : m.trace <:+ m'.trace :=
  ⟨[.alloc none], by rw [h.2]; rfl⟩

theorem AllocFails.not_noFail (h : AllocFails m m') : ¬ m'.NoFail := by
  rw [h.2]
  simp [Kmem.NoFail]

/-- `walkpgdir` with `alloc` finds or makes the table of `v`, or `kalloc` fails. -/
theorem walkpgdir_alloc_spec (hv : v < 0x100000)
    {r : Option (ℕ × ℕ)} (h : walkpgdir pgdir (v * PGSIZE) true m = (r, pgdir', m')) :
    (r = some (v / 1024, v % 1024) ∧ (∃ t, pgdir'.pde (v / 1024) = some t) ∧
      pgdir'.entry = pgdir.entry ∧ pgdir'.page = pgdir.page ∧
      (∀ i, pgdir'.Has i ↔ pgdir.Has i ∨ i = v / 1024) ∧
      ∃ l : List ℕ, pgdir'.tables = pgdir.tables + (l : Multiset ℕ) ∧ l.length ≤ 1 ∧
        Allocated l m m') ∨
    (r = none ∧ pgdir' = pgdir ∧ AllocFails m m' ∧ ¬ pgdir.Has (v / 1024)) := by
  unfold walkpgdir at h
  rw [PDX_page hv, PTX_page] at h
  split at h
  · next t ht =>
    cases h
    refine .inl ⟨rfl, ⟨t, ht⟩, rfl, rfl, fun i => ?_, [], by simp, by simp, .refl m⟩
    rw [iff_self_or]
    rintro rfl
    exact PageDir.has_of_eq ht
  · next ht =>
    cases hk : kalloc m with
    | mk r' m₁ =>
      rcases kalloc_spec hk with ⟨a, rfl, ha⟩ | ⟨rfl, hf⟩
      · rw [hk] at h
        cases h
        have hi : v / 1024 < NPDENTRIES := by simp only [NPDENTRIES]; omega
        refine .inl ⟨rfl, ⟨⟨a, fun _ => .zero⟩, by simp [PageDir.install]⟩,
          PageDir.entry_install ht a, rfl, PageDir.has_install a, [a],
          PageDir.tables_install hi ht a, by simp, ?_⟩
        exact ha.memset (by simp) 0
      · rw [hk] at h
        cases h
        exact .inr ⟨rfl, rfl, hf, PageDir.not_has_iff.mpr ht⟩

/-- The call of `mappages` for aligned pages is as many iterations of its loop. -/
theorem mappages_eq (pgdir : PageDir) {n : ℕ} (hn : 1 ≤ n) (hvn : v + n ≤ 0x100000) (pa : ℕ)
    (perm : Perm) (m : Kmem) :
    mappages pgdir (v * PGSIZE) (n * PGSIZE) pa perm m =
      mappagesLoop perm n (v * PGSIZE) pa pgdir m := by
  have hlast : PGROUNDDOWN (sub32 (add32 (v * PGSIZE) (n * PGSIZE)) 1) = (v + n - 1) * PGSIZE := by
    simp only [PGROUNDDOWN, sub32, add32, PGSIZE, WORD]
    omega
  have hfirst : PGROUNDDOWN (v * PGSIZE) = v * PGSIZE := by
    simp only [PGROUNDDOWN, PGSIZE]
    omega
  have hcount : sub32 ((v + n - 1) * PGSIZE) (v * PGSIZE) / PGSIZE + 1 = n := by
    simp only [sub32, PGSIZE, WORD]
    omega
  simp only [mappages, hlast, hfirst, hcount]

theorem mappages_page (pgdir : PageDir) (hv : v < 0x100000) (pa : ℕ) (perm : Perm) (m : Kmem) :
    mappages pgdir (v * PGSIZE) PGSIZE pa perm m =
      mappagesLoop perm 1 (v * PGSIZE) pa pgdir m := by
  have := mappages_eq pgdir le_rfl (show v + 1 ≤ 0x100000 from hv) pa perm m
  rwa [Nat.one_mul] at this

/-- **Mapping one page**: the entry was absent and is stored, or `kalloc` failed. -/
theorem mappages_page_spec {pa : ℕ} {perm : Perm} {ok : Bool} (hv : v < 0x100000)
    (h : mappages pgdir (v * PGSIZE) PGSIZE pa perm m = .ok (ok, pgdir', m')) :
    (ok = true ∧ (pgdir.entry v).p = false ∧
      ∃ l, Mapped v (.ofPerm pa perm) l pgdir pgdir' m m') ∨
    (ok = false ∧ pgdir' = pgdir ∧ AllocFails m m' ∧ ¬ pgdir.Has (v / 1024)) := by
  rw [mappages_page pgdir hv] at h
  unfold mappagesLoop at h
  split at h
  · next d m₁ hw =>
    obtain ⟨rfl, rfl, rfl⟩ : false = ok ∧ d = pgdir' ∧ m₁ = m' := by simpa using h
    obtain ⟨hr, -⟩ | ⟨-, rfl, hf⟩ := walkpgdir_alloc_spec hv hw
    · cases hr
    · exact .inr ⟨rfl, rfl, hf⟩
  · next pte d m₁ hw =>
    obtain ⟨hr, ⟨t, ht⟩, hent, hpage, hhas, l, htab, hlen, hall⟩ | ⟨hr, -⟩ :=
      walkpgdir_alloc_spec hv hw
    · obtain rfl := Option.some.inj hr
      split at h
      · cases h
      · next hp =>
        obtain ⟨rfl, rfl, rfl⟩ : true = ok ∧ _ = pgdir' ∧ m₁ = m' := by
          simpa [mappagesLoop] using h
        have habs : (pgdir.entry v).p = false := by
          rw [← hent]
          simpa [PageDir.entry] using hp
        refine .inl ⟨rfl, habs, l, ?_, fun i => ?_, ?_, ?_, hlen, hall⟩
        · rw [PageDir.entry_store ht, hent]
        · rw [(PageDir.sameTables_store d _ _).has_iff, hhas]
        · rw [(PageDir.sameTables_store d _ _).tables_eq, htab]
        · rw [(PageDir.sameTables_store d _ _).page, hpage]
    · cases hr

/-- Mapping one page panics exactly when the entry is present. -/
theorem mappages_page_error {pa : ℕ} {perm : Perm} {f : Fault} (hv : v < 0x100000) :
    mappages pgdir (v * PGSIZE) PGSIZE pa perm m = .error f ↔
      f = .panic "remap" ∧ (pgdir.entry v).p = true := by
  rw [mappages_page pgdir hv]
  unfold mappagesLoop
  constructor
  · intro h
    split at h
    · cases h
    · next pte d m₁ hw =>
      obtain ⟨hr, -, hent, -⟩ | ⟨hr, -⟩ := walkpgdir_alloc_spec hv hw
      · obtain rfl := Option.some.inj hr
        split at h
        · next hp =>
          cases h
          refine ⟨rfl, ?_⟩
          rw [← hent]
          exact hp
        · simp [mappagesLoop] at h
      · cases hr
  · rintro ⟨rfl, hp⟩
    obtain ⟨t, ht⟩ := PageDir.exists_table_of_present hp
    have hw : walkpgdir pgdir (v * PGSIZE) true m = (some (v / 1024, v % 1024), pgdir, m) := by
      simp [walkpgdir, PDX_page hv, PTX_page, ht]
    have hd : (pgdir.deref (v / 1024, v % 1024)).p = true := hp
    simp [hw, hd]

/-- Mapping an absent page succeeds while a page is free. -/
theorem mappages_page_ok (hv : v < 0x100000)
    (habs : (pgdir.entry v).p = false) (hfree : m.freelist ≠ []) (pa : ℕ) (perm : Perm) :
    ∃ pgdir' m', mappages pgdir (v * PGSIZE) PGSIZE pa perm m = .ok (true, pgdir', m') := by
  cases h : mappages pgdir (v * PGSIZE) PGSIZE pa perm m with
  | error f =>
    rw [mappages_page_error hv, habs] at h
    simp at h
  | ok r =>
    obtain ⟨ok, pgdir', m'⟩ := r
    obtain ⟨rfl, -⟩ | ⟨-, -, ⟨hf, -⟩, -⟩ := mappages_page_spec hv h
    · exact ⟨pgdir', m', rfl⟩
    · exact absurd hf hfree

/-! ### Freeing user memory -/

/-- The entries after the present ones at `[lo, hi)` were zeroed. -/
def clearedEntries (ent : ℕ → PTE) (lo hi : ℕ) : ℕ → PTE :=
  fun v => if lo ≤ v ∧ v < hi ∧ (ent v).p = true then .zero else ent v

theorem clearedEntries_of_le (ent : ℕ → PTE) (h : hi ≤ lo) :
    clearedEntries ent lo hi = ent := by
  funext v
  exact if_neg (by omega)

theorem clearedEntries_of_absent {ent : ℕ → PTE} (h : lo ≤ mid)
    (habs : ∀ v, lo ≤ v → v < mid → (ent v).p = false) :
    clearedEntries ent lo hi = clearedEntries ent mid hi := by
  funext v
  unfold clearedEntries
  by_cases hp : (ent v).p = true
  · have hv : lo ≤ v → mid ≤ v := by
      intro hlo
      by_contra hlt
      rw [habs v hlo (by omega)] at hp
      cases hp
    have hiff : lo ≤ v ↔ mid ≤ v := ⟨hv, fun h' => h.trans h'⟩
    simp [hp, hiff]
  · simp [hp]

theorem clearedEntries_step {ent : ℕ → PTE} (h : lo < hi) (hp : (ent lo).p = true) :
    clearedEntries (update ent lo .zero) (lo + 1) hi = clearedEntries ent lo hi := by
  funext v
  unfold clearedEntries
  by_cases hv : v = lo
  · subst hv
    simp [hp, h]
  · have hiff : lo + 1 ≤ v ↔ lo ≤ v := by omega
    simp [update_of_ne hv, hiff]

theorem clearedEntries_absent (ent : ℕ → PTE) (hlo : lo ≤ v) (hhi : v < hi) :
    (clearedEntries ent lo hi v).p = false := by
  unfold clearedEntries
  split
  · rfl
  · next hc => simpa [hlo, hhi] using hc

theorem clearedEntries_outside (ent : ℕ → PTE) (h : v < lo ∨ hi ≤ v) :
    clearedEntries ent lo hi v = ent v :=
  if_neg (by omega)

/-- The frames at `[lo, hi)` were freed, the entries zeroed, and the tables kept. -/
structure Unmapped (lo hi : ℕ) (l : List ℕ) (pgdir pgdir' : PageDir) (m m' : Kmem) : Prop where
  frames : (l : Multiset ℕ) = pgdir.frames lo hi
  entry : pgdir'.entry = clearedEntries pgdir.entry lo hi
  same : PageDir.SameTables pgdir pgdir'
  mem : Freed l m m'

theorem walkpgdir_find (hv : v < 0x100000) (m : Kmem) :
    walkpgdir pgdir (v * PGSIZE) false m =
      ((pgdir.pde (v / 1024)).map fun _ => (v / 1024, v % 1024), pgdir, m) := by
  unfold walkpgdir
  rw [PDX_page hv, PTX_page]
  cases pgdir.pde (v / 1024) <;> rfl

theorem walkpgdir_find_addr (pgdir : PageDir) {a : ℕ} (ha : a < WORD) (m : Kmem) :
    walkpgdir pgdir a false m = ((pgdir.pde (a / PGSIZE / 1024)).map fun _ =>
      (a / PGSIZE / 1024, a / PGSIZE % 1024), pgdir, m) := by
  have hpdx : PDX a = a / PGSIZE / 1024 := by
    simp only [PDX, PGSIZE, WORD] at *
    omega
  have hptx : PTX a = a / PGSIZE % 1024 := by
    simp only [PTX, PGSIZE]
  unfold walkpgdir
  rw [hpdx, hptx]
  cases pgdir.pde (a / PGSIZE / 1024) <;> rfl

/-- Every entry of a missing table is absent. -/
theorem absent_of_no_table {w : ℕ} (ht : pgdir.pde (v / 1024) = none)
    (hlo : v ≤ w) (hhi : w < (v / 1024 + 1) * 1024) : (pgdir.entry w).p = false := by
  have hw : w / 1024 = v / 1024 := by omega
  rw [PageDir.entry_of_no_table (hw ▸ ht)]
  rfl

/-- A plain sweep over the pages of a list: each present page is freed and unmapped. -/
def sweep : List ℕ → PageDir → Kmem → Except Fault (PageDir × Kmem)
  | [], pgdir, m => .ok (pgdir, m)
  | v :: vs, pgdir, m =>
    if (pgdir.entry v).p then
      if (pgdir.entry v).addr = 0 then .error (.panic "kfree")
      else do
        let m ← kfree (pgdir.entry v).addr m
        sweep vs (pgdir.store (v / 1024, v % 1024) .zero) m
    else sweep vs pgdir m

/-- Absent pages are passed over. -/
theorem sweep_append_of_absent {vs : List ℕ} (ws : List ℕ) (m : Kmem)
    (h : ∀ v ∈ vs, (pgdir.entry v).p = false) : sweep (vs ++ ws) pgdir m = sweep ws pgdir m := by
  induction vs with
  | nil => rfl
  | cons v vs ih =>
    rw [List.cons_append, sweep, h v List.mem_cons_self]
    exact ih fun w hw => h w (List.mem_cons_of_mem v hw)

theorem sweep_of_absent (m : Kmem) (hmid : lo ≤ mid)
    (h : ∀ w, lo ≤ w → w < mid → (pgdir.entry w).p = false) :
    sweep (List.Ico lo hi) pgdir m = sweep (List.Ico mid hi) pgdir m := by
  rcases Nat.le_total mid hi with hle | hle
  · rw [← List.Ico.append_consecutive hmid hle]
    refine sweep_append_of_absent _ m fun w hw => ?_
    obtain ⟨hlo, hhi⟩ := List.Ico.mem.mp hw
    exact h w hlo hhi
  · rw [List.Ico.eq_nil_of_le hle, ← List.append_nil (List.Ico lo hi)]
    refine sweep_append_of_absent _ m fun w hw => ?_
    obtain ⟨hlo, hhi⟩ := List.Ico.mem.mp hw
    exact h w hlo (hhi.trans_le hle)

theorem page_lt_iff (v sz : ℕ) : v * PGSIZE < sz ↔ v < pages sz := by
  simp only [PGSIZE, pages]
  omega

theorem pages_le {sz : ℕ} (h : sz ≤ KERNBASE) : pages sz ≤ KERNPAGE := by
  simp only [pages, KERNPAGE, KERNBASE] at *
  omega

/-- **The loop of `deallocuvm` is the plain sweep**, by induction on the bound of its iterations:
where it jumps over a missing table, the sweep meets absent pages only. -/
theorem deallocuvmLoop_eq_sweep (hold : oldsz ≤ KERNBASE) {n : ℕ} (hn : pages oldsz ≤ v + n) :
    deallocuvmLoop oldsz n (v * PGSIZE) pgdir m = sweep (List.Ico v (pages oldsz)) pgdir m := by
  have hbound := pages_le hold
  induction n generalizing v pgdir m with
  | zero =>
    rw [deallocuvmLoop, if_neg (by rw [page_lt_iff]; omega), List.Ico.eq_nil_of_le (by omega),
      sweep]
  | succ n ih =>
    rw [deallocuvmLoop]
    by_cases hv : v < pages oldsz
    · have hlt : v < KERNPAGE := by omega
      have hlt' : v + 1 < 0x100000 := by simp only [KERNPAGE] at hlt; omega
      rw [if_pos ((page_lt_iff v oldsz).mpr hv), walkpgdir_find (by omega)]
      cases ht : pgdir.pde (v / 1024) with
      | none =>
        rw [sweep_of_absent m (by omega) fun w => absent_of_no_table ht, ← ih (by omega),
          ← nextTable_page hlt]
        rfl
      | some t =>
        rw [List.Ico.eq_cons hv, sweep, add32_page hlt']
        simp only [← ih (show pages oldsz ≤ v + 1 + n by omega)]
        rfl
    · rw [if_neg (by rw [page_lt_iff]; exact hv), List.Ico.eq_nil_of_le (by omega), sweep]

theorem deallocuvm_eq_sweep (hold : oldsz ≤ KERNBASE) (hlt : newsz < oldsz)
    (pgdir : PageDir) (m : Kmem) : deallocuvm pgdir oldsz newsz m =
      (sweep (List.Ico (pages newsz) (pages oldsz)) pgdir m).map fun r => (newsz, r.1, r.2) := by
  rw [deallocuvm, if_neg (by omega), PGROUNDUP_eq (by omega),
    deallocuvmLoop_eq_sweep hold (by simp only [pages, PGSIZE]; omega)]
  cases sweep (List.Ico (pages newsz) (pages oldsz)) pgdir m <;> rfl

/-- What a sweep that ends has done, by induction on the number of pages. -/
theorem sweep_spec {k : ℕ} : ∀ {lo : ℕ} {pgdir pgdir' : PageDir} {m m' : Kmem}, hi - lo = k →
    sweep (List.Ico lo hi) pgdir m = .ok (pgdir', m') →
      ∃ l, Unmapped lo hi l pgdir pgdir' m m' := by
  induction k with
  | zero =>
    intro lo pgdir pgdir' m m' hk h
    have hle : hi ≤ lo := by omega
    rw [List.Ico.eq_nil_of_le hle] at h
    cases h
    refine ⟨[], ?_, (clearedEntries_of_le _ hle).symm, .refl _, .refl m⟩
    rw [PageDir.frames_of_le pgdir hle]
    rfl
  | succ k ih =>
    intro lo pgdir pgdir' m m' hk h
    have hlt : lo < hi := by omega
    rw [List.Ico.eq_cons hlt, sweep] at h
    split at h
    case isTrue hp =>
      split at h
      · cases h
      · obtain ⟨t, ht⟩ := PageDir.exists_table_of_present hp
        obtain ⟨m₁, hk, h⟩ := Except.bind_eq_ok.mp h
        obtain ⟨hfree, -⟩ := kfree_spec hk
        obtain ⟨l, hl⟩ := ih (by omega) h
        refine ⟨l ++ [(pgdir.entry lo).addr], ?_, ?_, ?_, hfree.trans hl.mem⟩
        · rw [← Multiset.coe_add, hl.frames, PageDir.frames_eq_add pgdir hlt,
            PTE.frame_of_present hp, add_comm]
          congr 1
          refine PageDir.frames_congr fun w hlo _ => ?_
          rw [PageDir.entry_store ht, update_of_ne (by omega)]
        · rw [hl.entry, PageDir.entry_store ht, clearedEntries_step hlt hp]
        · exact (PageDir.sameTables_store pgdir _ _).trans hl.same
    case isFalse hp =>
      obtain ⟨l, hl⟩ := ih (by omega) h
      have habs : (pgdir.entry lo).p = false := by simpa using hp
      refine ⟨l, ?_, ?_, hl.same, hl.mem⟩
      · rw [hl.frames, PageDir.frames_eq_add pgdir hlt, PTE.frame_of_absent habs, zero_add]
      · rw [hl.entry]
        refine (clearedEntries_of_absent (Nat.le_succ lo) fun w hlo hhi => ?_).symm
        obtain rfl : w = lo := by omega
        exact habs

/-- A sweep over freeable frames ends without a panic. -/
theorem sweep_ok : ∀ {vs : List ℕ} {pgdir : PageDir} {m : Kmem}, vs.Nodup →
    (∀ w ∈ vs, (pgdir.entry w).p = true →
      (pgdir.entry w).addr ≠ 0 ∧ m.Freeable (pgdir.entry w).addr) → ∃ r, sweep vs pgdir m = .ok r
  | [], _, _, _, _ => ⟨_, rfl⟩
  | v :: vs, pgdir, m, hnodup, hfree => by
    obtain ⟨hv, hvs⟩ := List.nodup_cons.mp hnodup
    rw [sweep]
    split
    case isTrue hp =>
      obtain ⟨t, ht⟩ := PageDir.exists_table_of_present hp
      obtain ⟨hne, hf⟩ := hfree v List.mem_cons_self hp
      obtain ⟨m₁, hk⟩ := kfree_ok hf
      rw [if_neg hne, hk]
      refine sweep_ok hvs fun w hw hp' => ?_
      rw [PageDir.entry_store ht, update_of_ne (by rintro rfl; exact hv hw)] at hp' ⊢
      obtain ⟨h₁, h₂, h₃⟩ := hfree w (List.mem_cons_of_mem v hw) hp'
      exact ⟨h₁, h₂, by rw [(kfree_spec hk).1.kend]; exact h₃⟩
    case isFalse hp => exact sweep_ok hvs fun w hw => hfree w (List.mem_cons_of_mem v hw)

/-- **Freeing user memory**: the frames at the pages from `newsz` to `oldsz` are freed, each
once, and unmapped. When `oldsz ≤ newsz` there are none. -/
theorem deallocuvm_spec {r : ℕ}
    (hold : oldsz ≤ KERNBASE) (h : deallocuvm pgdir oldsz newsz m = .ok (r, pgdir', m')) :
    r = min oldsz newsz ∧ ∃ l, Unmapped (pages newsz) (pages oldsz) l pgdir pgdir' m m' := by
  rcases Nat.lt_or_ge newsz oldsz with hlt | hle
  · rw [deallocuvm_eq_sweep hold hlt] at h
    rcases hsweep : sweep (List.Ico (pages newsz) (pages oldsz)) pgdir m with e | ⟨d, m₁⟩
    · rw [hsweep] at h
      cases h
    · rw [hsweep] at h
      cases h
      exact ⟨by omega, sweep_spec rfl hsweep⟩
  · rw [deallocuvm, if_pos hle] at h
    cases h
    have hp : pages oldsz ≤ pages newsz := Nat.div_le_div_right (by omega)
    exact ⟨by omega, sweep_spec rfl (by rw [List.Ico.eq_nil_of_le hp, sweep])⟩

/-- `deallocuvm` of freeable pages ends without a panic. -/
theorem deallocuvm_ok {oldsz newsz : ℕ} {pgdir : PageDir} {m : Kmem} (hold : oldsz ≤ KERNBASE)
    (hfree : ∀ w, pages newsz ≤ w → w < pages oldsz → (pgdir.entry w).p = true →
      (pgdir.entry w).addr ≠ 0 ∧ m.Freeable (pgdir.entry w).addr) :
    ∃ r, deallocuvm pgdir oldsz newsz m = .ok r := by
  rcases Nat.lt_or_ge newsz oldsz with hlt | hle
  · rw [deallocuvm_eq_sweep hold hlt]
    obtain ⟨r, hr⟩ := sweep_ok (List.Ico.nodup (pages newsz) (pages oldsz)) fun w hw =>
      hfree w (List.Ico.mem.mp hw).1 (List.Ico.mem.mp hw).2
    rw [hr]
    exact ⟨_, rfl⟩
  · rw [deallocuvm, if_pos hle]
    exact ⟨_, rfl⟩

/-- Frames mapped at one page each. -/
theorem PageDir.nodup_frames (hinj : ∀ v w, v < hi → w < hi →
    (pgdir.entry v).p = true → (pgdir.entry w).p = true →
    (pgdir.entry v).addr = (pgdir.entry w).addr → v = w) : (pgdir.frames lo hi).Nodup := by
  induction hk : hi - lo generalizing lo with
  | zero =>
    rw [frames_of_le pgdir (by omega)]
    exact Multiset.nodup_zero
  | succ k ih =>
    have hlt : lo < hi := by omega
    rw [frames_eq_add pgdir hlt]
    cases hp : (pgdir.entry lo).p with
    | false =>
      rw [PTE.frame_of_absent hp, zero_add]
      exact ih (by omega)
    | true =>
      rw [PTE.frame_of_present hp, Multiset.singleton_add, Multiset.nodup_cons]
      refine ⟨fun hmem => ?_, ih (by omega)⟩
      obtain ⟨w, hw, hw', hpw, heq⟩ := mem_frames.mp hmem
      have := hinj w lo hw' hlt hpw hp heq
      omega

/-- The arithmetic of `deallocuvm` on the addresses below `oldsz` does not wrap around: the start,
the next page, and the first page under the next directory entry. -/
def ExactAddrs (oldsz newsz : ℕ) : Prop :=
  PGROUNDUP newsz = (newsz + (PGSIZE - 1)) / PGSIZE * PGSIZE ∧
    ∀ a < oldsz, add32 a PGSIZE = a + PGSIZE ∧
      sub32 (PGADDR (PDX a + 1)) PGSIZE = (a / 0x400000 + 1) * 0x400000 - PGSIZE ∧
      add32 (sub32 (PGADDR (PDX a + 1)) PGSIZE) PGSIZE = (a / 0x400000 + 1) * 0x400000

theorem exactAddrs (hold : oldsz ≤ KERNBASE) (hlt : newsz < oldsz) :
    ExactAddrs oldsz newsz := by
  simp only [ExactAddrs, PGROUNDUP, add32, sub32, PGADDR, PDX, PGSIZE, WORD, KERNBASE] at *
  refine ⟨by omega, fun a ha => ⟨?_, ?_, ?_⟩⟩ <;> omega

/-- **`deallocuvm` is a plain sweep.** Where the present user pages are distinct and `kfree` takes
them, it returns the new size, with the same directory and memory as the sweep over all pages from
`newsz` to `oldsz`: it frees the present ones among them, each once, and clears no other entry. -/
theorem deallocuvm_sweeps (pgdir : PageDir) (m : Kmem) (oldsz newsz : ℕ) (hend : 0 < m.kend)
    (hlt : newsz < oldsz) (hold : oldsz ≤ KERNBASE)
    (hinj : ∀ v w, v < KERNPAGE → w < KERNPAGE → (pgdir.entry v).p = true →
      (pgdir.entry w).p = true → (pgdir.entry v).addr = (pgdir.entry w).addr → v = w)
    (hfree : ∀ v, v < KERNPAGE → (pgdir.entry v).p = true → m.Freeable (pgdir.entry v).addr) :
    ∃ pgdir' m' l, deallocuvm pgdir oldsz newsz m = .ok (newsz, pgdir', m') ∧
      sweep (List.Ico (pages newsz) (pages oldsz)) pgdir m = .ok (pgdir', m') ∧
      Freed l m m' ∧ l.Nodup ∧
      (∀ a, a ∈ l ↔ ∃ v, PGROUNDUP newsz ≤ v * PGSIZE ∧ v * PGSIZE < oldsz ∧
        (pgdir.entry v).p = true ∧ (pgdir.entry v).addr = a) ∧
      (∀ v, pgdir'.entry v = if PGROUNDUP newsz ≤ v * PGSIZE ∧ v * PGSIZE < oldsz ∧
        (pgdir.entry v).p = true then .zero else pgdir.entry v) ∧
      pgdir.SameTables pgdir' ∧ ExactAddrs oldsz newsz := by
  have hbound := pages_le hold
  have hstart : ∀ v, PGROUNDUP newsz ≤ v * PGSIZE ↔ pages newsz ≤ v := fun v => by
    rw [PGROUNDUP_eq (by omega), Nat.mul_le_mul_right_iff (by decide)]
  obtain ⟨⟨r, pgdir', m'⟩, hok⟩ := @deallocuvm_ok oldsz newsz pgdir m hold fun w _ hw hp => by
    obtain ⟨h₁, h₂, h₃⟩ := hfree w (by omega) hp
    exact ⟨by omega, h₁, h₂, h₃⟩
  obtain ⟨rfl, l, hun⟩ := deallocuvm_spec hold hok
  rw [Nat.min_eq_right hlt.le] at hok
  refine ⟨pgdir', m', l, hok, ?_, hun.mem, ?_, fun a => ?_, fun v => ?_, hun.same,
    exactAddrs hold hlt⟩
  · rw [deallocuvm_eq_sweep hold hlt] at hok
    rcases hsweep : sweep (List.Ico (pages newsz) (pages oldsz)) pgdir m with e | ⟨d, m₁⟩
    · rw [hsweep] at hok
      cases hok
    · rw [hsweep] at hok
      cases hok
      rfl
  · rw [← Multiset.coe_nodup, hun.frames]
    refine PageDir.nodup_frames fun v w hv hw => ?_
    exact hinj v w (hv.trans_le hbound) (hw.trans_le hbound)
  · rw [← Multiset.mem_coe, hun.frames, PageDir.mem_frames]
    simp only [hstart, page_lt_iff]
  · rw [hun.entry]
    simp only [clearedEntries, hstart, page_lt_iff]

/-- A directory with a page in its first table, another in its third, and no table in between. -/
def twoTables : PageDir :=
  ⟨0x1000, Function.update (Function.update (fun _ => none)
    0 (some ⟨0x2000, Function.update (fun _ => .zero) 1 (.ofPerm 0x3000 ⟨true, true⟩)⟩))
    2 (some ⟨0x4000, Function.update (fun _ => .zero) 5 (.ofPerm 0x5000 ⟨true, true⟩)⟩)⟩

theorem eq_of_twoTables (h : (twoTables.entry v).p = true) : v = 1 ∨ v = 2053 := by
  obtain ⟨t, ht⟩ := PageDir.exists_table_of_present h
  simp only [PageDir.entry, PageDir.deref, ht] at h
  rcases eq_or_ne (v / 1024) 2 with h₂ | h₂
  · have hpte : v % 1024 = 5 := by
      by_contra hne
      obtain rfl : _ = t := by simpa [twoTables, h₂] using ht
      simp [update_of_ne hne, PTE.zero] at h
    omega
  · rcases eq_or_ne (v / 1024) 0 with h₀ | h₀
    · have hpte : v % 1024 = 1 := by
        by_contra hne
        obtain rfl : _ = t := by simpa [twoTables, h₀] using ht
        simp [update_of_ne hne, PTE.zero] at h
      omega
    · simp [twoTables, update_of_ne h₂, update_of_ne h₀] at ht

/-- Both pages go when the size drops to an odd one in the first page. -/
theorem deallocuvm_sweeps_two_tables : ∃ pgdir' m' l,
    deallocuvm twoTables 0x806000 0x123 ⟨0x1000, 0x1000, [], fun _ _ => 0, []⟩ =
      .ok (0x123, pgdir', m') ∧ l.Nodup ∧ 0x3000 ∈ l ∧ 0x5000 ∈ l ∧ m'.freelist = l := by
  obtain ⟨pgdir', m', l, hok, -, hfreed, hnodup, hmem, -⟩ :=
    deallocuvm_sweeps twoTables ⟨0x1000, 0x1000, [], fun _ _ => 0, []⟩ 0x806000 0x123 (by decide)
      (by decide) (by decide)
      (fun v w _ _ hv hw he => by
        rcases eq_of_twoTables hv with rfl | rfl <;> rcases eq_of_twoTables hw with rfl | rfl <;>
          first | rfl | cases he)
      (fun v _ hv => by
        rcases eq_of_twoTables hv with rfl | rfl <;> rw [Kmem.Freeable] <;> decide)
  refine ⟨pgdir', m', l, hok, hnodup, (hmem _).mpr ⟨1, by decide, by decide, rfl, rfl⟩,
    (hmem _).mpr ⟨2053, by decide, by decide, rfl, rfl⟩, ?_⟩
  rw [hfreed.freelist, List.append_nil]

/-- The loop of `freevm` frees the page of each table. -/
theorem freeTables_spec :
    ∀ (is : List ℕ) {m m' : Kmem}, freeTables pgdir is m = .ok m' →
      ∃ l : List ℕ, (l : Multiset ℕ) =
          (is.map fun i => (pgdir.pde i).elim 0 fun t => ({t.page} : Multiset ℕ)).sum ∧
        Freed l m m' := by
  intro is
  induction is with
  | nil =>
    intro m m' h
    cases h
    exact ⟨[], rfl, .refl m⟩
  | cons i is ih =>
    intro m m' h
    unfold freeTables at h
    cases ht : pgdir.pde i with
    | none =>
      rw [ht] at h
      obtain ⟨l, hl, hf⟩ := ih h
      exact ⟨l, by simp [hl, ht], hf⟩
    | some t =>
      rw [ht] at h
      obtain ⟨m₁, hk, h⟩ := Except.bind_eq_ok.mp h
      obtain ⟨l, hl, hf⟩ := ih h
      refine ⟨l ++ [t.page], ?_, (kfree_spec hk).1.trans hf⟩
      rw [← Multiset.coe_add, hl]
      simp [ht, add_comm]

theorem PageDir.tables_eq_sum (pgdir : PageDir) :
    pgdir.tables = ((List.range NPDENTRIES).map fun i =>
      (pgdir.pde i).elim 0 fun t => ({t.page} : Multiset ℕ)).sum := by
  rfl

/-- **`freevm`** frees every user frame, every table and the directory, each once. -/
theorem freevm_spec (h : freevm (some pgdir) m = .ok m') :
    ∃ l : List ℕ, (l : Multiset ℕ) =
        pgdir.frames 0 KERNPAGE + pgdir.tables + {pgdir.page} ∧ Freed l m m' := by
  obtain ⟨⟨r, d, m₁⟩, hd, h⟩ := Except.bind_eq_ok.mp h
  obtain ⟨m₂, ht, h⟩ := Except.bind_eq_ok.mp h
  obtain ⟨-, l₁, hun⟩ := deallocuvm_spec (le_refl KERNBASE) hd
  obtain ⟨l₂, hl₂, hf₂⟩ := freeTables_spec _ ht
  obtain ⟨hf₃, -⟩ := kfree_spec h
  refine ⟨[d.page] ++ (l₂ ++ l₁), ?_, (hun.mem.trans hf₂).trans hf₃⟩
  rw [← Multiset.coe_add, ← Multiset.coe_add, hl₂, ← PageDir.tables_eq_sum, hun.same.tables_eq,
    hun.same.page, hun.frames]
  change {pgdir.page} + (pgdir.tables + pgdir.frames 0 KERNPAGE) = _
  abel

theorem freeTables_ok :
    ∀ (is : List ℕ) (m : Kmem), (∀ i ∈ is, ∀ t, pgdir.pde i = some t → m.Freeable t.page) →
      ∃ m', freeTables pgdir is m = .ok m' := by
  intro is
  induction is with
  | nil => exact fun m _ => ⟨m, rfl⟩
  | cons i is ih =>
    intro m hfree
    unfold freeTables
    cases ht : pgdir.pde i with
    | none => exact ih m fun j hj => hfree j (List.mem_cons_of_mem i hj)
    | some t =>
      obtain ⟨m₁, hk⟩ := kfree_ok (hfree i (by simp) t ht)
      obtain ⟨hm₁, -⟩ := kfree_spec hk
      simp only [hk, Except.ok_bind]
      refine ih m₁ fun j hj t' ht' => ?_
      obtain ⟨h₁, h₂, h₃⟩ := hfree j (List.mem_cons_of_mem i hj) t' ht'
      exact ⟨h₁, by rw [hm₁.kend]; exact h₂, h₃⟩

/-- `freevm` of freeable pages ends without a panic. -/
theorem freevm_ok {pgdir : PageDir} {m : Kmem}
    (hframes : ∀ v, v < KERNPAGE → (pgdir.entry v).p = true →
      (pgdir.entry v).addr ≠ 0 ∧ m.Freeable (pgdir.entry v).addr)
    (htables : ∀ i t, i < NPDENTRIES → pgdir.pde i = some t → m.Freeable t.page)
    (hpage : m.Freeable pgdir.page) :
    ∃ m', freevm (some pgdir) m = .ok m' := by
  have hloop : ∃ r, deallocuvm pgdir KERNBASE 0 m = .ok r :=
    deallocuvm_ok (le_refl KERNBASE) fun w _ hw => hframes w hw
  obtain ⟨⟨r, d, m₁⟩, hd⟩ := hloop
  obtain ⟨-, l, hun⟩ := deallocuvm_spec (le_refl KERNBASE) hd
  have hfree : ∀ a, m.Freeable a → m₁.Freeable a := fun a ⟨h₁, h₂, h₃⟩ =>
    ⟨h₁, by rw [hun.mem.kend]; exact h₂, h₃⟩
  have htab : ∀ i ∈ List.range NPDENTRIES, ∀ t, d.pde i = some t → m₁.Freeable t.page := by
    intro i hi t ht
    have hpde := hun.same.pde i
    rw [ht] at hpde
    obtain ⟨t', ht', hpg⟩ := Option.map_eq_some_iff.mp hpde.symm
    rw [← hpg]
    exact hfree _ (htables i t' (List.mem_range.mp hi) ht')
  obtain ⟨m₂, ht⟩ := freeTables_ok (List.range NPDENTRIES) m₁ htab
  obtain ⟨l₂, -, hf₂⟩ := freeTables_spec _ ht
  have hdpage : m₂.Freeable d.page := by
    obtain ⟨h₁, h₂, h₃⟩ := hfree _ hpage
    rw [hun.same.page]
    exact ⟨h₁, by rw [hf₂.kend]; exact h₂, h₃⟩
  obtain ⟨m₃, hk⟩ := kfree_ok hdpage
  refine ⟨m₃, ?_⟩
  simp only [freevm, hd, Except.ok_bind, ht, hk]

end Xv6
