import CS450.Vm.Grow

/-!
# Directories in the making

What is true of a page directory that `setupkvm`, `copyuvm` or `exec` is building: which pages are
mapped, which page tables there are, and that it consists of the pages that were taken for it. So
the functions never find an entry missing or present where they do not expect it. When a `kalloc`
has failed, the pages of the directory and those that are free are still the pages that were free at
the beginning, and `freevm` gives back everything.

## Main results

* `Draft.length`: how many pages a directory takes
* `Accounted.freevm`: `freevm` gives back everything
* `setupkvm_spec`, `copyuvm_spec`: a finished directory, or everything is free again
-/

namespace Xv6

open Except (Meets)
open Function (update_of_ne update_self)

/-- The page tables of the kernel: of the physical memory and of the devices. -/
def KernelTable (i : ℕ) : Prop := 512 ≤ i ∧ i < 568 ∨ 1016 ≤ i ∧ i < 1024

instance (i : ℕ) : Decidable (KernelTable i) := inferInstanceAs (Decidable (_ ∨ _))

/-- A directory that maps exactly the first `hi` pages for the user, with the page tables that they
need and those of `K`. It consists of the pages `l` that were taken from the free list for it. -/
structure Draft (K : ℕ → Prop) (hi : ℕ) (l : List ℕ) (d : PageDir) (m₀ m : Kmem) : Prop where
  present : ∀ v, v < hi → (d.entry v).p = true
  absent : ∀ v, hi ≤ v → v < KERNPAGE → (d.entry v).p = false
  kernel : ∀ v, KERNPAGE ≤ v → (d.entry v).u = false
  has : ∀ i, d.Has i ↔ K i ∨ i * 1024 < hi
  taken : (l : Multiset ℕ) = d.tables + {d.page} + d.frames 0 hi
  mem : Allocated l m₀ m

/-- The directory is to be given up: its user pages are among the first `hi` pages, and its pages
with those that are free are the pages that were free in `m₀`. No other page has been written. -/
structure Accounted (hi : ℕ) (d : PageDir) (m₀ m : Kmem) : Prop where
  absent : ∀ v, hi ≤ v → v < KERNPAGE → (d.entry v).p = false
  account : (m.freelist : Multiset ℕ) + (d.tables + {d.page} + d.frames 0 hi) = m₀.freelist
  kend : m.kend = m₀.kend
  kdata : m.kdata = m₀.kdata
  mem : ∀ a ∉ m₀.freelist, m.mem a = m₀.mem a

/-- All pages that were free are free again, and no other page has been written. -/
structure Released (m₀ m : Kmem) : Prop where
  freelist : (m.freelist : Multiset ℕ) = m₀.freelist
  kend : m.kend = m₀.kend
  kdata : m.kdata = m₀.kdata
  mem : ∀ a ∉ m₀.freelist, m.mem a = m₀.mem a

theorem Released.refl (m : Kmem) : Released m m := ⟨rfl, rfl, rfl, fun _ _ => rfl⟩

section Draft

variable {K K' : ℕ → Prop} {hi v a : ℕ} {l l₁ : List ℕ} {d d' : PageDir} {m₀ m m₁ m' : Kmem}

namespace Draft

theorem mem_freelist (h : Draft K hi l d m₀ m) (ha : a ∈ l) : a ∈ m₀.freelist := by
  rw [h.mem.freelist]
  exact List.mem_append_left _ ha

/-- A user page of the draft was taken for it. -/
theorem frame_mem (h : Draft K hi l d m₀ m) (hv : v < KERNPAGE) (hp : (d.entry v).p = true) :
    (d.entry v).addr ∈ l := by
  have hlt : v < hi := by
    by_contra hge
    rw [h.absent v (by omega) hv] at hp
    cases hp
  rw [← Multiset.mem_coe, h.taken, Multiset.mem_add]
  exact .inr (PageDir.mem_frames.mpr ⟨v, Nat.zero_le v, hlt, hp, rfl⟩)

/-- The pages of the draft may be written. -/
theorem of_mem (h : Draft K hi l d m₀ m) (hm : Allocated l m₀ m') : Draft K hi l d m₀ m' :=
  ⟨h.present, h.absent, h.kernel, h.has, h.taken, hm⟩

theorem congr (h : Draft K hi l d m₀ m) (hK : ∀ i, K i ↔ K' i) : Draft K' hi l d m₀ m :=
  ⟨h.present, h.absent, h.kernel, fun i => by rw [h.has, hK], h.taken, h.mem⟩

/-- A page is mapped at the end of the user part. -/
theorem map (h : Draft K hi l d m₀ m) (hhi : hi < KERNPAGE) (ha : Allocated [a] m m₁) {perm : Perm}
    (hm : Mapped hi (.ofPerm a perm) l₁ d d' m₁ m') :
    Draft K (hi + 1) (l ++ ([a] ++ l₁)) d' m₀ m' := by
  have hold : ∀ v, v ≠ hi → d'.entry v = d.entry v := fun v hne => by
    rw [hm.entry, update_of_ne hne]
  have hnew : d'.entry hi = .ofPerm a perm := by rw [hm.entry, update_self]
  refine ⟨fun v hv => ?_, fun v hlo hv => ?_, fun v hv => ?_, fun i => ?_, ?_,
    h.mem.trans (ha.trans hm.mem)⟩
  · rcases eq_or_ne v hi with rfl | hne
    · rw [hnew]
      rfl
    · rw [hold v hne]
      exact h.present v (by omega)
  · rw [hold v (by omega)]
    exact h.absent v (by omega) hv
  · rw [hold v (by omega)]
    exact h.kernel v hv
  · rw [hm.has, h.has, or_assoc]
    refine or_congr_right ?_
    omega
  · have hframes : d'.frames 0 (hi + 1) = d.frames 0 hi + {a} := by
      rw [PageDir.frames_succ d' (Nat.zero_le hi), hnew, PTE.frame_ofPerm]
      congr 1
      exact PageDir.frames_congr fun v _ hv => hold v (by omega)
    rw [hframes, hm.tables, hm.page, ← Multiset.coe_add, ← Multiset.coe_add, h.taken,
      Multiset.coe_singleton]
    abel

/-- A page of the kernel is mapped. -/
theorem mapKernel (h : Draft K 0 l d m₀ m) (hv : KERNPAGE ≤ v) {e : PTE} (hu : e.u = false)
    (hm : Mapped v e l₁ d d' m m') :
    Draft (fun i => K i ∨ i = v / 1024) 0 (l ++ l₁) d' m₀ m' := by
  refine ⟨fun w hw => absurd hw (Nat.not_lt_zero w), fun w hlo hw => ?_,
    fun w hw => ?_, fun i => ?_,
    ?_, h.mem.trans hm.mem⟩
  · rw [hm.entry, update_of_ne (by omega)]
    exact h.absent w hlo hw
  · rw [hm.entry]
    rcases eq_or_ne w v with rfl | hne
    · rw [update_self, hu]
    · rw [update_of_ne hne]
      exact h.kernel w hw
  · rw [hm.has, h.has]
    tauto
  · rw [← Multiset.coe_add, h.taken, hm.tables, hm.page, PageDir.frames_self, PageDir.frames_self]
    abel

/-- The draft grows. -/
theorem grown {new : ℕ} (h : Draft K hi l d m₀ m) (hle : hi ≤ new) (hnew : new ≤ KERNPAGE)
    (hg : Grown hi new l₁ d d' m m') : Draft K new (l ++ l₁) d' m₀ m' := by
  refine ⟨fun v hv => ?_, fun v h₁ h₂ => ?_, fun v hv => ?_, fun i => ?_, ?_, h.mem.trans hg.mem⟩
  · rcases Nat.lt_or_ge v hi with hlt | hge
    · rw [hg.outside v (.inl hlt)]
      exact h.present v hlt
    · exact hg.present hge hv
  · rw [hg.outside v (.inr h₁)]
    exact h.absent v (by omega) h₂
  · rw [hg.outside v (.inr (by omega))]
    exact h.kernel v hv
  · rw [hg.has, h.has, or_assoc]
    refine or_congr_right ⟨?_, fun hi' => ?_⟩
    · rintro (hi' | ⟨v, h₁, h₂, rfl⟩)
      · omega
      · omega
    · by_cases hlt : i * 1024 < hi
      exacts [.inl hlt, .inr ⟨i * 1024, by omega, hi', by omega⟩]
  · obtain ⟨T, ht, hl⟩ := hg.taken
    have hframes : d'.frames 0 new = d.frames 0 hi + d'.frames hi new := by
      rw [← d'.frames_append (Nat.zero_le hi) hle]
      congr 1
      exact PageDir.frames_congr fun v _ hv => hg.outside v (.inl hv)
    rw [← Multiset.coe_add, h.taken, hl, ht, hg.page, hframes]
    abel

end Draft

/-! ### How many pages -/

/-- The pages of a directory with the first `hi` pages: itself, the tables and the frames. -/
def pagesFor (hi : ℕ) : ℕ := 65 + (hi + 1023) / 1024 + hi

theorem pagesFor_mono {hi' : ℕ} (h : hi ≤ hi') : pagesFor hi ≤ pagesFor hi' := by
  unfold pagesFor
  omega

theorem Draft.card_tables (h : Draft K 0 l d m₀ m) : l.length = Multiset.card d.tables + 1 := by
  have hcard := congrArg Multiset.card h.taken
  rwa [PageDir.frames_self, add_zero, Multiset.card_add, Multiset.coe_card,
    Multiset.card_singleton] at hcard

theorem kernelTables_card (n : ℕ) (hn : n ≤ 512) :
    ((Finset.range NPDENTRIES).filter fun i => KernelTable i ∨ i < n).card = 64 + n := by
  have hset : ((Finset.range NPDENTRIES).filter fun i => KernelTable i ∨ i < n) =
      (Finset.range n ∪ Finset.Ico 512 568) ∪ Finset.Ico 1016 1024 := by
    ext i
    simp only [Finset.mem_filter, Finset.mem_range, NPDENTRIES, Finset.mem_union, Finset.mem_Ico,
      KernelTable]
    omega
  rw [hset, Finset.card_union_of_disjoint, Finset.card_union_of_disjoint, Finset.card_range,
    Nat.card_Ico, Nat.card_Ico]
  · omega
  · refine Finset.disjoint_left.mpr fun i h₁ h₂ => ?_
    simp only [Finset.mem_range, Finset.mem_Ico] at h₁ h₂
    omega
  · refine Finset.disjoint_left.mpr fun i h₁ h₂ => ?_
    simp only [Finset.mem_union, Finset.mem_range, Finset.mem_Ico] at h₁ h₂
    omega

/-- **The pages of a draft.** -/
theorem Draft.length (h : Draft KernelTable hi l d m₀ m) (hhi : hi ≤ KERNPAGE) :
    l.length = pagesFor hi := by
  have hcard := congrArg Multiset.card h.taken
  rw [Multiset.card_add, Multiset.card_add, Multiset.coe_card, Multiset.card_singleton,
    PageDir.card_frames h.present, d.card_tables] at hcard
  have htables : ((Finset.range NPDENTRIES).filter fun i => (d.pde i).isSome) =
      (Finset.range NPDENTRIES).filter fun i => KernelTable i ∨ i < (hi + 1023) / 1024 := by
    refine Finset.filter_congr fun i _ => ?_
    rw [← PageDir.Has, h.has]
    refine or_congr_right ?_
    omega
  rw [htables, kernelTables_card _ (by simp only [KERNPAGE] at hhi; omega)] at hcard
  rw [pagesFor]
  omega

theorem Draft.length_add (h : Draft KernelTable hi l d m₀ m) (hhi : hi ≤ KERNPAGE) :
    m₀.freelist.length = pagesFor hi + m.freelist.length := by
  rw [h.mem.freelist, List.length_append, h.length hhi]

/-- There is no page for the next page of the draft, or none for its table. -/
theorem Draft.short_at {new : ℕ} (h : Draft KernelTable v l d m₀ m) (hlt : v < new)
    (hnew : new ≤ KERNPAGE)
    (hshort : m.freelist = [] ∨ m.freelist.length = 1 ∧ ¬ d.Has (v / 1024)) :
    m₀.freelist.length < pagesFor new := by
  have hmono := pagesFor_mono hlt
  rw [h.length_add (by omega)]
  unfold pagesFor at *
  rcases hshort with hnil | ⟨hone, hno⟩
  · rw [hnil, List.length_nil]
    omega
  · -- the table is missing, so the page is the first one of its table
    rw [h.has, not_or] at hno
    omega

/-- A growth that was undone did not have the pages that the draft needs. -/
theorem Draft.short {new : ℕ} (h : Draft KernelTable hi l d m₀ m) (hnew : new ≤ KERNPAGE)
    (hu : Undone hi new d d' m m') : m₀.freelist.length < pagesFor new := by
  obtain ⟨v, l₁, d₁, m₁, hlo, hhi, hg, hshort⟩ := hu.short
  exact (h.grown hlo (by omega) hg).short_at hhi hnew hshort

/-! ### Giving up -/

namespace Accounted

/-- Only what is free, and what has been written, matters. -/
theorem of_mem (h : Accounted hi d m₀ m) (hfree : (m'.freelist : Multiset ℕ) = m.freelist)
    (hkend : m'.kend = m.kend) (hkdata : m'.kdata = m.kdata)
    (hmem : ∀ a ∉ m₀.freelist, m'.mem a = m.mem a) : Accounted hi d m₀ m' :=
  ⟨h.absent, by rw [hfree, h.account], hkend.trans h.kend, hkdata.trans h.kdata,
    fun a ha => (hmem a ha).trans (h.mem a ha)⟩

theorem fails (h : Accounted hi d m₀ m) (hf : AllocFails m m') : Accounted hi d m₀ m' := by
  obtain ⟨-, rfl⟩ := hf
  exact h.of_mem rfl rfl rfl fun _ _ => rfl

theorem mem_freelist (h : Accounted hi d m₀ m) (ha : a ∈ m.freelist) : a ∈ m₀.freelist := by
  rw [← Multiset.mem_coe, ← h.account, Multiset.mem_add]
  exact .inl ha

theorem undone {new : ℕ} (h : Accounted hi d m₀ m) (hu : Undone hi new d d' m m') :
    Accounted hi d' m₀ m' := by
  obtain ⟨T, ht, hfree⟩ := hu.account
  refine ⟨fun v h₁ h₂ => ?_, ?_, hu.kend.trans h.kend, hu.kdata.trans h.kdata, fun a ha => ?_⟩
  · rcases Nat.lt_or_ge v new with hlt | hge
    · exact hu.inside v h₁ hlt
    · rw [hu.outside v (.inr hge)]
      exact h.absent v h₁ h₂
  · rw [← h.account, ← hfree, ht, hu.page,
      PageDir.frames_congr fun v _ hv => hu.outside v (.inl hv)]
    abel
  · rw [hu.mem a fun hm => ha (h.mem_freelist hm), h.mem a ha]

/-- **`freevm` gives back everything.** -/
theorem freevm {C : Prop} (hC : C → m₀.FreeOk) (hhi : hi ≤ KERNPAGE) (h : Accounted hi d m₀ m) :
    Meets C (fun m' => Released m₀ m' ∧ m.trace <:+ m'.trace) (freevm (some d) m) := by
  have hframes : d.frames 0 KERNPAGE = d.frames 0 hi := by
    rw [← d.frames_append (Nat.zero_le hi) hhi, PageDir.frames_eq_zero h.absent, add_zero]
  have hmem : ∀ a ∈ d.frames 0 KERNPAGE + d.tables + {d.page}, a ∈ m₀.freelist := by
    intro a ha
    rw [← Multiset.mem_coe, ← h.account, ← hframes]
    simp only [Multiset.mem_add] at ha ⊢
    tauto
  refine ⟨fun hc => ?_, fun m' hok => ?_⟩
  · have hfree := fun a ha => (hC hc).of_mem h.kend (hmem a ha)
    refine freevm_ok (fun v hv hp => hfree _ ?_) (fun i t hi' ht => (hfree _ ?_).2) (hfree _ ?_).2
    · have := PageDir.mem_frames.mpr ⟨v, Nat.zero_le v, hv, hp, rfl⟩
      simp [this]
    · simp [PageDir.mem_tables hi' ht]
    · simp
  · obtain ⟨l, hl, hf⟩ := freevm_spec hok
    refine ⟨⟨?_, hf.kend.trans h.kend, hf.kdata.trans h.kdata, fun a ha => ?_⟩, hf.trace_suffix⟩
    · rw [hf.freelist, ← Multiset.coe_add, hl, ← h.account, hframes]
      abel
    · rw [hf.mem a fun hm => ha (hmem a (by rw [← hl]; exact hm)), h.mem a ha]

end Accounted

theorem Draft.accounted (h : Draft K hi l d m₀ m) : Accounted hi d m₀ m where
  absent := h.absent
  account := by
    rw [h.mem.freelist, ← Multiset.coe_add, h.taken, add_comm]
  kend := h.mem.kend
  kdata := h.mem.kdata
  mem a ha := h.mem.mem a fun hl => ha (h.mem_freelist hl)

/-- **`allocuvm` of a draft** leads to a larger draft, with new pages for the user. It fails only at
the limit or for want of pages. -/
theorem Draft.allocuvm {limit oldsz newsz : ℕ} (hlim : limit ≤ KERNBASE)
    (h : Draft KernelTable (pages oldsz) l d m₀ m) :
    Meets m₀.FreeOk
      (fun r => (r.1 = 0 ∧ Accounted (pages oldsz) r.2.1 m₀ r.2.2 ∧
          (newsz < limit → max oldsz newsz ≠ 0 → m₀.freelist.length < pagesFor (pages newsz))) ∨
        newsz < limit ∧ r.1 = max oldsz newsz ∧
          (∃ l', Draft KernelTable (pages r.1) l' r.2.1 m₀ r.2.2) ∧
          ∀ v, pages oldsz ≤ v → v < pages r.1 → (r.2.1.entry v).u = true)
      (Xv6.allocuvm limit d oldsz newsz m) := by
  refine (allocuvm_spec hlim oldsz newsz fun hlt v h₁ h₂ => h.absent v h₁ ?_).mono
    (fun hm => .inl (hm.allocated h.mem)) ?_
  · exact h₂.trans_le (pages_le (hlt.le.trans hlim))
  rintro r hr
  cases hr with
  | refused hle => exact .inl ⟨rfl, h.accounted, fun hlt => by omega⟩
  | smaller hlt hlt' =>
    refine .inr ⟨hlt, (max_eq_left hlt'.le).symm, ⟨l, h⟩, fun v h₁ h₂ => ?_⟩
    exact absurd h₂ (Nat.not_lt.mpr h₁)
  | grown hlt hle hg =>
    refine .inr ⟨hlt, (max_eq_right hle).symm, ⟨_, h.grown ?_ (pages_le (hlt.le.trans hlim)) hg⟩,
      fun v h₁ h₂ => ?_⟩
    · exact Nat.div_le_div_right (by omega)
    · obtain ⟨a, ha⟩ := hg.inside v h₁ h₂
      exact congrArg PTE.u ha
  | undone hlt hle hu =>
    exact .inl ⟨rfl, h.accounted.undone hu, fun _ _ => h.short (pages_le (hlt.le.trans hlim)) hu⟩

end Draft

/-! ### `mappages` over several pages -/

section Mappages

variable {v n : ℕ} {K : ℕ → Prop} {l : List ℕ} {d : PageDir} {m₀ m : Kmem}

/-- One iteration of the loop of `mappages`, then the rest. -/
theorem mappagesLoop_succ (perm : Perm) (n a pa : ℕ) (pgdir : PageDir) (m : Kmem) :
    mappagesLoop perm (n + 1) a pa pgdir m =
      (mappagesLoop perm 1 a pa pgdir m >>= fun r =>
        if r.1 then mappagesLoop perm n (add32 a PGSIZE) (add32 pa PGSIZE) r.2.1 r.2.2
          else .ok r) := by
  rw [mappagesLoop]
  conv_rhs => rw [mappagesLoop]
  split
  · simp
  · split
    · rfl
    · simp [mappagesLoop]

/-- A directory without user pages that lacks a table of the kernel has fewer pages than a finished
one. -/
theorem Draft.length_lt (h : Draft K 0 l d m₀ m) (hK : ∀ i, K i → KernelTable i) {i : ℕ}
    (hi : KernelTable i) (hno : ¬ d.Has i) : l.length < pagesFor 0 := by
  have hlt : Multiset.card d.tables < 64 := by
    rw [d.card_tables]
    refine (Finset.card_lt_card (Finset.ssubset_iff_subset_ne.mpr ⟨fun j hj => ?_,
      fun heq => ?_⟩)).trans_eq (kernelTables_card 0 (Nat.zero_le _))
    · obtain ⟨hj, hs⟩ := Finset.mem_filter.mp hj
      refine Finset.mem_filter.mpr ⟨hj, .inl ?_⟩
      rcases (h.has j).mp hs with hj | hj
      · exact hK j hj
      · exact absurd hj (Nat.not_lt_zero _)
    · have hmem : i ∈ (Finset.range NPDENTRIES).filter fun i => (d.pde i).isSome := by
        rw [heq]
        refine Finset.mem_filter.mpr ⟨?_, .inl hi⟩
        simp only [KernelTable, NPDENTRIES, Finset.mem_range] at *
        omega
      exact hno (Finset.mem_filter.mp hmem).2
  rw [h.card_tables]
  exact Nat.succ_lt_succ hlt

/-- What mapping pages of the kernel leads to: a draft with the tables `K` and with nothing from the
page `v` on, or a failing `kalloc` for a table. -/
def MapsKernel (K : ℕ → Prop) (v : ℕ) (m₀ : Kmem) (r : Bool × PageDir × Kmem) : Prop :=
  (r.1 = true ∧ (∀ w, v ≤ w → (r.2.1.entry w).p = false) ∧ ∃ l, Draft K 0 l r.2.1 m₀ r.2.2) ∨
    (r.1 = false ∧ Accounted 0 r.2.1 m₀ r.2.2 ∧ ¬ r.2.2.NoFail ∧ m₀.freelist.length < pagesFor 0)

theorem MapsKernel.congr {K' : ℕ → Prop} {r : Bool × PageDir × Kmem} (h : MapsKernel K v m₀ r)
    (hK : ∀ i, K i ↔ K' i) : MapsKernel K' v m₀ r :=
  h.imp_left fun ⟨hr, habs, l, hd⟩ => ⟨hr, habs, l, hd.congr hK⟩

/-- One page. -/
theorem mappages_kernel {C : Prop} {perm : Perm} (hu : perm.u = false) (pa : ℕ) (hv : KERNPAGE ≤ v)
    (hlt : v < 0x100000) (hK : ∀ i, K i → KernelTable i) (hi : KernelTable (v / 1024))
    (hd : Draft K 0 l d m₀ m) (habs : ∀ w, v ≤ w → (d.entry w).p = false) :
    Meets C (MapsKernel (fun i => K i ∨ i = v / 1024) (v + 1) m₀)
      (mappages d (v * PGSIZE) PGSIZE pa perm m) := by
  refine ⟨fun _ => ?_, ?_⟩
  · cases hmap : mappages d (v * PGSIZE) PGSIZE pa perm m with
    | ok r => exact ⟨r, rfl⟩
    | error f =>
      have hp := ((mappages_page_error hlt).mp hmap).2
      rw [habs v le_rfl] at hp
      cases hp
  · rintro ⟨ok, d', m'⟩ hmap
    obtain ⟨rfl, -, l₁, hm⟩ | ⟨rfl, rfl, hf, hno⟩ := mappages_page_spec hlt hmap
    · refine .inl ⟨rfl, fun w hw => ?_, _, hd.mapKernel hv hu hm⟩
      rw [hm.entry, update_of_ne (by omega)]
      exact habs w (by omega)
    · refine .inr ⟨rfl, hd.accounted.fails hf, hf.not_noFail, ?_⟩
      rw [hd.mem.freelist, hf.1, List.append_nil]
      exact hd.length_lt hK hi hno

/-- **The loop of `mappages`** over absent pages of the kernel, by induction on their number. -/
theorem mappagesLoop_kernel {C : Prop} {perm : Perm} (hu : perm.u = false) :
    ∀ (n v pa : ℕ) {K : ℕ → Prop} {l : List ℕ} {d : PageDir} {m : Kmem}, KERNPAGE ≤ v →
      v + (n + 1) ≤ 0x100000 → (∀ i, K i → KernelTable i) →
      (∀ w, v ≤ w → w < v + (n + 1) → KernelTable (w / 1024)) → Draft K 0 l d m₀ m →
      (∀ w, v ≤ w → (d.entry w).p = false) →
      Meets C (MapsKernel (fun i => K i ∨ v / 1024 ≤ i ∧ i * 1024 < v + (n + 1)) (v + (n + 1)) m₀)
        (mappagesLoop perm (n + 1) (v * PGSIZE) pa d m) := by
  intro n
  induction n with
  | zero =>
    intro v pa K l d m hv hvn hK hnew hd habs
    rw [← mappages_page d (by omega)]
    refine (mappages_kernel hu pa hv (by omega) hK (hnew v le_rfl (by omega)) hd habs).mono id
      fun r hr => hr.congr fun i => or_congr_right ?_
    omega
  | succ n ih =>
    intro v pa K l d m hv hvn hK hnew hd habs
    have hi := hnew v le_rfl (by omega)
    rw [mappagesLoop_succ, ← mappages_page d (by omega)]
    refine (mappages_kernel hu pa hv (by omega) hK hi hd habs).bind ?_
    rintro ⟨ok, d', m'⟩ (⟨rfl, habs', l', hd'⟩ | ⟨rfl, hfail⟩)
    · -- the rest of the pages
      rw [if_pos rfl, add32_page (by omega)]
      refine (ih (v + 1) _ (by omega) (by omega) (fun i hi' => ?_)
        (fun w h₁ h₂ => hnew w (by omega) (by omega)) hd' habs').mono id fun r hr => ?_
      · rcases hi' with hi' | rfl
        exacts [hK i hi', hi]
      · rw [Nat.add_right_comm] at hr
        refine hr.congr fun i => ?_
        rw [or_assoc]
        refine or_congr_right ?_
        omega
    · exact .ok (.inr ⟨rfl, hfail⟩)

end Mappages

/-! ### `setupkvm` -/

/-- The linker script puts the kernel's data on a page boundary above its text. -/
def Kmem.LinkOk (m : Kmem) : Prop := ∃ c, m.kdata = c * PGSIZE ∧ 0x100 < c ∧ c < 0xE000

/-- A mapping of `kmap` from the virtual page `v` on, `n` pages long, above the user part. -/
structure Kmap.At (k : Kmap) (v n : ℕ) : Prop where
  virt : k.virt = v * PGSIZE
  size : sub32 k.physEnd k.physStart = n * PGSIZE
  pos : 1 ≤ n
  low : KERNPAGE ≤ v
  high : v + n ≤ 0x100000
  user : k.perm.u = false

/-- The four mappings follow one another. -/
theorem kmap_at {c : ℕ} (h₁ : 0x100 < c) (h₂ : c < 0xE000) :
    ∃ k₁ k₂ k₃ k₄, kmap (c * PGSIZE) = [k₁, k₂, k₃, k₄] ∧ k₁.At 0x80000 0x100 ∧
      k₂.At 0x80100 (c - 0x100) ∧ k₃.At (0x80000 + c) (0xE000 - c) ∧ k₄.At 0xFE000 0x2000 := by
  refine ⟨_, _, _, _, rfl, ?_, ?_, ?_, ?_⟩
  all_goals
    constructor <;> (try simp only [KERNBASE, KERNLINK, EXTMEM, PHYSTOP, DEVSPACE, PGSIZE, KERNPAGE,
      sub32, WORD]) <;> omega

/-- The outcomes of `setupkvm`: a directory without user pages, or a failing `kalloc`. -/
inductive SetupResult (m : Kmem) : Option PageDir × Kmem → Prop
  | made {l d m'} (h : Draft KernelTable 0 l d m m') : SetupResult m (some d, m')
  | failed {m'} (hrel : Released m m') (hfail : ¬ m'.NoFail)
      (hshort : m.freelist.length < pagesFor 0) : SetupResult m (none, m')

section Setup

variable {l : List ℕ} {d : PageDir} {m₀ m : Kmem}

/-- One mapping of `kmap`, with the pages from its first one on absent, and the rest of the loop. -/
theorem setupkvmLoop_cons {K : ℕ → Prop} (K' : ℕ → Prop) {v n : ℕ} {k : Kmap} {ks : List Kmap}
    (hk : k.At v n)
    (hK : ∀ i, K i → KernelTable i) (hnew : ∀ w, v ≤ w → w < v + n → KernelTable (w / 1024))
    (hK' : ∀ i, K i ∨ v / 1024 ≤ i ∧ i * 1024 < v + n ↔ K' i) (h : Draft K 0 l d m₀ m)
    (habs : ∀ w, v ≤ w → (d.entry w).p = false)
    (hrest : ∀ l d m, Draft K' 0 l d m₀ m → (∀ w, v + n ≤ w → (d.entry w).p = false) →
      Meets (m₀.FreeOk ∨ pagesFor 0 ≤ m₀.freelist.length) (SetupResult m₀) (setupkvmLoop ks d m)) :
    Meets (m₀.FreeOk ∨ pagesFor 0 ≤ m₀.freelist.length) (SetupResult m₀)
      (setupkvmLoop (k :: ks) d m) := by
  obtain ⟨n, rfl⟩ := Nat.exists_eq_add_of_le' hk.pos
  rw [setupkvmLoop, hk.virt, hk.size, mappages_eq d hk.pos hk.high]
  refine (mappagesLoop_kernel hk.user n v _ hk.low hk.high hK hnew h habs).bind ?_
  rintro ⟨ok, d', m'⟩ (⟨rfl, habs', l', hd'⟩ | ⟨rfl, hacc, hfail, hshort⟩)
  · exact hrest l' d' m' (hd'.congr hK') habs'
  · refine (hacc.freevm (fun hC => hC.resolve_right (by omega)) (Nat.zero_le _)).bind ?_
    rintro m'' ⟨hrel, hsuffix⟩
    exact .ok (.failed hrel (fun hn => hfail (hn.of_suffix hsuffix)) hshort)

/-- The empty directory. -/
theorem draft_fresh {a : ℕ} (h : Allocated [a] m₀ m) :
    Draft (fun _ => False) 0 [a] ⟨a, fun _ => none⟩ m₀ m where
  present v hv := absurd hv (Nat.not_lt_zero v)
  absent _ _ _ := rfl
  kernel _ _ := rfl
  has i := by simp [PageDir.Has]
  taken := by
    have ht : (⟨a, fun _ => none⟩ : PageDir).tables = 0 := by simp [PageDir.tables]
    rw [ht, PageDir.frames_self]
    rfl
  mem := h

/-- **`setupkvm`** makes a directory without user pages, or everything is free again. -/
theorem setupkvm_spec (hlink : m.LinkOk) :
    Meets (m.FreeOk ∨ pagesFor 0 ≤ m.freelist.length) (SetupResult m) (setupkvm m) := by
  unfold setupkvm
  cases hk : kalloc m with
  | mk o m₁ =>
  rcases kalloc_spec hk with ⟨a, rfl, ha⟩ | ⟨rfl, hnil, rfl⟩
  · obtain ⟨c, hc, h₁, h₂⟩ := hlink
    obtain ⟨k₁, k₂, k₃, k₄, hks, hat₁, hat₂, hat₃, hat₄⟩ := kmap_at h₁ h₂
    have hkd : m₁.kdata = c * PGSIZE := by rw [ha.kdata, hc]
    simp only [hkd, hks]
    rw [if_neg (by decide)]
    have hfresh := draft_fresh (ha.memset (List.mem_singleton_self a) 0)
    -- the first three mappings follow one another
    refine setupkvmLoop_cons (fun i => 512 ≤ i ∧ i * 1024 < 0x80100) hat₁ (fun i hi => hi.elim)
      (fun w hlo hhi => ?_) (fun i => ?_) hfresh (fun _ _ => rfl) fun l₁ d₁ n₁ hd₁ hab₁ => ?_
    · unfold KernelTable
      omega
    · rw [false_or]
    refine setupkvmLoop_cons (fun i => 512 ≤ i ∧ i * 1024 < 0x80000 + c) hat₂ (fun i hi => ?_)
      (fun w hlo hhi => ?_) (fun i => ?_) hd₁ (fun w hw => hab₁ w (by omega)) fun l₂ d₂
        n₂ hd₂ hab₂ => ?_
    · exact .inl ⟨hi.1, by have := hi.2; omega⟩
    · unfold KernelTable
      omega
    · omega
    refine setupkvmLoop_cons (fun i => 512 ≤ i ∧ i < 568) hat₃ (fun i hi => ?_)
      (fun w hlo hhi => ?_) (fun i => ?_) hd₂ (fun w hw => hab₂ w (by omega)) fun l₃ d₃
        n₃ hd₃ hab₃ => ?_
    · exact .inl ⟨hi.1, by have := hi.2; omega⟩
    · unfold KernelTable
      omega
    · omega
    refine setupkvmLoop_cons KernelTable hat₄ (fun i hi => .inl hi) (fun w hlo hhi => ?_)
      (fun i => ?_) hd₃
      (fun w hw => hab₃ w (by omega)) fun l₄ d₄ n₄ hd₄ _ => .ok (.made hd₄)
    · unfold KernelTable
      omega
    · unfold KernelTable
      omega
  · exact .ok (.failed ⟨rfl, rfl, rfl, fun _ _ => rfl⟩ (by simp [Kmem.NoFail])
      (by rw [hnil]; decide))

/-- With the pages of a directory without user pages `setupkvm` succeeds. -/
theorem setupkvm_ok (hlink : m.LinkOk) (hfree : 65 ≤ m.freelist.length) :
    ∃ l d m', setupkvm m = .ok (some d, m') ∧ Draft KernelTable 0 l d m m' := by
  obtain ⟨r, hok, hr⟩ := (setupkvm_spec hlink).exists (.inr hfree)
  cases hr with
  | made h => exact ⟨_, _, _, hok, h⟩
  | failed _ _ hshort => exact absurd hshort (Nat.not_lt.mpr hfree)

end Setup

/-! ### `copyuvm` -/

/-- A draft whose pages are copies of those of `pgdir`, with their flags. When no page was free
twice, a page that was in use has been copied with its contents. -/
structure Copied (hi : ℕ) (l : List ℕ) (pgdir d : PageDir) (m₀ m : Kmem) : Prop where
  draft : Draft KernelTable hi l d m₀ m
  flags : ∀ v, v < hi →
    d.entry v = .ofPerm (d.entry v).addr ⟨(pgdir.entry v).w, (pgdir.entry v).u⟩
  contents : m₀.freelist.Nodup → ∀ v, v < hi → (pgdir.entry v).addr ∉ m₀.freelist →
    m.mem (d.entry v).addr = m₀.mem (pgdir.entry v).addr

/-- The outcomes of `copyuvm`: a copy, or a failing `kalloc` for want of pages. -/
inductive CopyResult (hi : ℕ) (pgdir : PageDir) (m : Kmem) : Option PageDir × Kmem → Prop
  | made {l d m'} (h : Copied hi l pgdir d m m') : CopyResult hi pgdir m (some d, m')
  | failed {m'} (hrel : Released m m') (hfail : ¬ m'.NoFail)
      (hshort : m.freelist.length < pagesFor hi) : CopyResult hi pgdir m (none, m')

section Copy

variable {v a sz : ℕ} {l l₁ : List ℕ} {pgdir d d' : PageDir} {m₀ m m₁ m' : Kmem}

/-- The next page: taken from the free list, filled, and mapped. -/
theorem Copied.snoc (hc : Copied v l pgdir d m₀ m) (hv : v < KERNPAGE) (ha : Allocated [a] m m₁)
    (hm : Mapped v (.ofPerm a ⟨(pgdir.entry v).w, (pgdir.entry v).u⟩) l₁ d d'
      (m₁.copyPage a (pgdir.entry v).addr) m') :
    Copied (v + 1) (l ++ ([a] ++ l₁)) pgdir d' m₀ m' := by
  have ha' := ha.copyPage (List.mem_singleton_self a) (pgdir.entry v).addr
  have hdraft := hc.draft.map hv ha' hm
  have hold : ∀ w, w < v → d'.entry w = d.entry w := fun w hw => by
    rw [hm.entry, update_of_ne hw.ne]
  have hnew : d'.entry v = .ofPerm a ⟨(pgdir.entry v).w, (pgdir.entry v).u⟩ := by
    rw [hm.entry, update_self]
  refine ⟨hdraft, fun w hw => ?_, fun hnd w hw hsrc => ?_⟩
  · rcases Nat.lt_succ_iff_lt_or_eq.mp hw with hw | rfl
    · rw [hold w hw]
      exact hc.flags w hw
    · rw [hnew]
      rfl
  · -- the pages taken are all different
    have hsplit := hnd
    rw [hdraft.mem.freelist, List.nodup_append, List.nodup_append] at hsplit
    obtain ⟨⟨-, hright, hdis⟩, -⟩ := hsplit
    rcases Nat.lt_succ_iff_lt_or_eq.mp hw with hw | rfl
    · have hmem := hc.draft.frame_mem (hw.trans hv) (hc.draft.present w hw)
      have hne : (d.entry w).addr ∉ [a] ++ l₁ := fun h => hdis _ hmem _ h rfl
      rw [List.mem_append, not_or] at hne
      rw [hold w hw, hm.mem.mem _ hne.2, ha'.mem _ hne.1]
      exact hc.contents hnd w hw hsrc
    · have hkeep : (pgdir.entry w).addr ∉ l ++ [a] := fun h => hsrc (hdraft.mem_freelist (by
        rw [← List.append_assoc]
        exact List.mem_append_left _ h))
      rw [hnew]
      calc m'.mem a = (m₁.copyPage a (pgdir.entry w).addr).mem a :=
            hm.mem.mem a (List.nodup_cons.mp hright).1
        _ = m₁.mem (pgdir.entry w).addr := update_self ..
        _ = m₀.mem (pgdir.entry w).addr := (hc.draft.mem.trans ha).mem _ hkeep

/-- **The loop of `copyuvm`** from the page `v`, by induction on the bound of its iterations. It
returns when the pages to copy are there. -/
theorem copyuvmLoop_spec (hsz : sz ≤ KERNBASE) :
    ∀ (n v : ℕ) {l : List ℕ} {d : PageDir} {m : Kmem}, pages sz ≤ v + n → v ≤ pages sz →
      Copied v l pgdir d m₀ m →
      Meets (m₀.FreeOk ∧ ∀ v, v < pages sz → (pgdir.entry v).p = true)
        (CopyResult (pages sz) pgdir m₀) (copyuvmLoop pgdir sz n (v * PGSIZE) d m) := by
  have hbound := pages_le hsz
  intro n
  induction n with
  | zero =>
    intro v l d m hn hv hc
    obtain rfl : v = pages sz := by omega
    rw [copyuvmLoop, if_neg (by rw [page_lt_iff]; omega)]
    exact .ok (.made hc)
  | succ n ih =>
    intro v l d m hn hv hc
    rw [copyuvmLoop]
    by_cases hlt : v < pages sz
    swap
    · obtain rfl : v = pages sz := by omega
      rw [if_neg (by rw [page_lt_iff]; exact hlt)]
      exact .ok (.made hc)
    have hlt' : v + 1 < 0x100000 := by simp only [KERNPAGE] at hbound; omega
    rw [if_pos ((page_lt_iff v sz).mpr hlt), walkpgdir_find (by omega)]
    by_cases hp : (pgdir.entry v).p = true
    swap
    · -- nothing to copy: the kernel panics
      have hno : ¬ (m₀.FreeOk ∧ ∀ v, v < pages sz → (pgdir.entry v).p = true) :=
        fun h => hp (h.2 v hlt)
      cases pgdir.pde (v / 1024) with
      | none => exact .error hno
      | some t =>
        simp only [Option.map_some]
        rw [if_neg (by exact hp)]
        exact .error hno
    obtain ⟨t, ht⟩ := PageDir.exists_table_of_present hp
    have hderef : pgdir.deref (v / 1024, v % 1024) = pgdir.entry v := rfl
    simp only [ht, Option.map_some]
    rw [hderef, if_pos hp]
    cases hk : kalloc m with
    | mk o m₁ =>
    rcases kalloc_spec hk with ⟨a, rfl, ha⟩ | ⟨rfl, hf⟩
    · simp only
      cases hmap : mappages d (v * PGSIZE) PGSIZE a ⟨(pgdir.entry v).w, (pgdir.entry v).u⟩
          (m₁.copyPage a (pgdir.entry v).addr) with
      | error f =>
        have hpd := ((mappages_page_error (by omega)).mp hmap).2
        rw [hc.draft.absent v le_rfl (by omega)] at hpd
        cases hpd
      | ok r =>
        obtain ⟨ok, d', m₂⟩ := r
        simp only [Except.ok_bind]
        obtain ⟨rfl, -, l₁, hmd⟩ | ⟨rfl, rfl, hf, hno⟩ := mappages_page_spec (by omega) hmap
        · rw [if_pos rfl, add32_page hlt']
          exact ih (v + 1) (by omega) (by omega) (hc.snoc (by omega) ha hmd)
        · -- the page in hand is given back, then the directory
          have ha' := ha.copyPage (List.mem_singleton_self a) (pgdir.entry v).addr
          have hone : m.freelist = [a] := by rw [ha'.freelist, hf.1, List.append_nil]
          have hmem : a ∈ m₀.freelist := hc.draft.accounted.mem_freelist (by rw [hone]; simp)
          have hkend : m₂.kend = m₀.kend := by
            rw [hf.2]
            exact ha'.kend.trans hc.draft.mem.kend
          refine (kfree_meets fun h => (h.1.of_mem hkend hmem).2).bind fun m₃ hfr => ?_
          have hacc : Accounted v d' m₀ m₃ := by
            refine hc.draft.accounted.of_mem ?_ ?_ ?_ fun b hb => ?_
            · rw [hfr.freelist, hone, hf.2]
              simp only [hf.1, List.append_nil]
            · rw [hfr.kend, hkend, hc.draft.mem.kend]
            · rw [hfr.kdata, hf.2]
              exact ha'.kdata
            · have hne : b ∉ [a] := fun h => hb (by rwa [List.mem_singleton.mp h])
              rw [hfr.mem b hne, hf.2]
              exact ha'.mem b hne
          refine (hacc.freevm (fun h => h.1) (by omega)).bind ?_
          rintro m₄ ⟨hrel, hsuf⟩
          have hshort := hc.draft.short_at hlt hbound (.inr ⟨by rw [hone]; rfl, hno⟩)
          exact .ok (.failed hrel (fun hno =>
            hf.not_noFail ((hno.of_suffix hsuf).of_suffix hfr.trace_suffix)) hshort)
    · have hfails : AllocFails m m₁ := hf
      refine ((hc.draft.accounted.fails hfails).freevm (fun h => h.1) (by omega)).bind ?_
      rintro m₂ ⟨hrel, hsuf⟩
      exact .ok (.failed hrel (fun hno => hfails.not_noFail (hno.of_suffix hsuf))
        (hc.draft.short_at hlt hbound (.inl hfails.1)))

/-- **`copyuvm`** makes a copy, or everything is free again. -/
theorem copyuvm_spec (hsz : sz ≤ KERNBASE) (hlink : m.LinkOk) :
    Meets (m.FreeOk ∧ ∀ v, v < pages sz → (pgdir.entry v).p = true) (CopyResult (pages sz) pgdir m)
      (copyuvm pgdir sz m) := by
  refine ((setupkvm_spec hlink).mono (fun h => .inl h.1) fun _ => id).bind ?_
  rintro _ (@⟨l, d, m₁, hd⟩ | @⟨m₁, hrel, hfail, hshort⟩)
  · have hnone : Copied 0 l pgdir d m m₁ :=
      ⟨hd, fun v hv => absurd hv (Nat.not_lt_zero v), fun _ v hv => absurd hv (Nat.not_lt_zero v)⟩
    have hloop := copyuvmLoop_spec hsz (sz / PGSIZE + 1) 0 (by simp only [pages, PGSIZE]; omega)
      (Nat.zero_le _) hnone
    rw [Nat.zero_mul] at hloop
    exact hloop
  · exact .ok (.failed hrel hfail (hshort.trans_le (pagesFor_mono (Nat.zero_le _))))

end Copy

end Xv6
