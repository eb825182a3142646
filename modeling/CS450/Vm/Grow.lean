import CS450.Vm.Paging

/-!
# Growing a page directory in place

What `allocuvm` does to a page directory that is in use. It maps fresh pages above the old size, one
by one, and at any of them `kalloc` can fail, for the page itself or for a page table. Then the
pages that it has mapped are freed again. The page tables stay: they are part of the directory now,
and nothing is lost.

## Main results

* `allocuvm_spec`: all outcomes of `allocuvm`, and when it returns
* `allocuvm_ok`: with pages to spare it succeeds
* `allocuvm_cleans_up`: a failed call leaves the mappings as they were
-/

namespace Xv6

open Except (Meets)
open Function (update_of_ne update_self)

/-- The free pages are such that `kfree` accepts them. -/
structure Kmem.FreeOk (m : Kmem) : Prop where
  kend : 0 < m.kend
  freeable : ∀ a ∈ m.freelist, m.Freeable a

/-- A page that was free can be freed again. -/
theorem Kmem.FreeOk.of_mem {m m' : Kmem} (h : m.FreeOk) (hk : m'.kend = m.kend) {a : ℕ}
    (ha : a ∈ m.freelist) : a ≠ 0 ∧ m'.Freeable a := by
  obtain ⟨h₁, h₂, h₃⟩ := h.freeable a ha
  have := h.kend
  exact ⟨by omega, h₁, by rw [hk]; exact h₂, h₃⟩

theorem Kmem.FreeOk.allocated {l : List ℕ} {m m' : Kmem} (h : m.FreeOk) (ha : Allocated l m m') :
    m'.FreeOk := by
  refine ⟨by rw [ha.kend]; exact h.kend, fun a hm => (h.of_mem ha.kend ?_).2⟩
  rw [ha.freelist]
  exact List.mem_append_right l hm

/-- The virtual pages `[lo, hi)` were mapped for the user, taking the pages `l` for the frames and
for missing tables. When no page was free twice, the new pages are zeroed. -/
structure Grown (lo hi : ℕ) (l : List ℕ) (d d' : PageDir) (m m' : Kmem) : Prop where
  inside : ∀ v, lo ≤ v → v < hi → ∃ a, d'.entry v = .ofPerm a ⟨true, true⟩
  outside : ∀ v, v < lo ∨ hi ≤ v → d'.entry v = d.entry v
  has : ∀ i, d'.Has i ↔ d.Has i ∨ ∃ v, lo ≤ v ∧ v < hi ∧ i = v / 1024
  taken : ∃ T, d'.tables = d.tables + T ∧ (l : Multiset ℕ) = T + d'.frames lo hi
  length : l.length ≤ 2 * (hi - lo)
  page : d'.page = d.page
  mem : Allocated l m m'
  zeroed : m.freelist.Nodup → ∀ v, lo ≤ v → v < hi → m'.mem (d'.entry v).addr = fun _ => 0

/-- The growth was undone: the pages `[lo, hi)` are absent, the others untouched, and only the pages
of new tables are not free again. The pages below some page were mapped, when there was no page for
that one or none for its table. -/
structure Undone (lo hi : ℕ) (d d' : PageDir) (m m' : Kmem) : Prop where
  inside : ∀ v, lo ≤ v → v < hi → (d'.entry v).p = false
  outside : ∀ v, v < lo ∨ hi ≤ v → d'.entry v = d.entry v
  page : d'.page = d.page
  account : ∃ T, d'.tables = d.tables + T ∧ (m'.freelist : Multiset ℕ) + T = m.freelist
  kend : m'.kend = m.kend
  kdata : m'.kdata = m.kdata
  mem : ∀ a ∉ m.freelist, m'.mem a = m.mem a
  failed : ¬ m'.NoFail
  short : ∃ v l d₁ m₁, lo ≤ v ∧ v < hi ∧ Grown lo v l d d₁ m m₁ ∧
    (m₁.freelist = [] ∨ m₁.freelist.length = 1 ∧ ¬ d₁.Has (v / 1024))

section Grown

variable {lo hi v a : ℕ} {l l₁ : List ℕ} {d d' d₁ d₂ : PageDir} {m m' m₁ m₂ m₃ m₄ : Kmem}

theorem Grown.refl (lo : ℕ) (d : PageDir) (m : Kmem) : Grown lo lo [] d d m m where
  inside v h₁ h₂ := by omega
  outside _ _ := rfl
  has i := by
    rw [iff_self_or]
    rintro ⟨v, h₁, h₂, -⟩
    omega
  taken := ⟨0, (add_zero _).symm, by rw [PageDir.frames_self]; rfl⟩
  length := Nat.zero_le _
  page := rfl
  mem := .refl m
  zeroed _ v h₁ h₂ := by omega

theorem Grown.present (h : Grown lo hi l d d' m m') (hlo : lo ≤ v) (hhi : v < hi) :
    (d'.entry v).p = true := by
  obtain ⟨a, ha⟩ := h.inside v hlo hhi
  rw [ha]
  rfl

/-- The frames were taken for the growth. -/
theorem Grown.frame_mem (h : Grown lo hi l d d' m m') (hlo : lo ≤ v) (hhi : v < hi) :
    (d'.entry v).addr ∈ l := by
  obtain ⟨T, -, hl⟩ := h.taken
  rw [← Multiset.mem_coe, hl, Multiset.mem_add]
  exact .inr (PageDir.mem_frames.mpr ⟨v, hlo, hhi, h.present hlo hhi, rfl⟩)

theorem Grown.mem_freelist (h : Grown lo hi l d d' m m') (ha : a ∈ l) : a ∈ m.freelist := by
  rw [h.mem.freelist]
  exact List.mem_append_left _ ha

/-- One more page: taken from the free list, cleared, and mapped. -/
theorem Grown.snoc (hlo : lo ≤ hi) (hg : Grown lo hi l d d₁ m m₁) (ha : Allocated [a] m₁ m₂)
    (hz : m₂.mem a = fun _ => 0) (hm : Mapped hi (.ofPerm a ⟨true, true⟩) l₁ d₁ d₂ m₂ m₃) :
    Grown lo (hi + 1) (l ++ ([a] ++ l₁)) d d₂ m m₃ := by
  have hold : ∀ v, v ≠ hi → d₂.entry v = d₁.entry v := fun v hne => by
    rw [hm.entry, update_of_ne hne]
  have hnew : d₂.entry hi = .ofPerm a ⟨true, true⟩ := by rw [hm.entry, update_self]
  have hall := hg.mem.trans (ha.trans hm.mem)
  refine ⟨fun v h₁ h₂ => ?_, fun v hv => ?_, fun i => ?_, ?_, ?_, hm.page.trans hg.page, hall,
    fun hnd v h₁ h₂ => ?_⟩
  · rcases eq_or_ne v hi with rfl | hne
    · exact ⟨a, hnew⟩
    · rw [hold v hne]
      exact hg.inside v h₁ (by omega)
  · rw [hold v (by omega), hg.outside v (by omega)]
  · rw [hm.has, hg.has]
    constructor
    · rintro ((h | ⟨v, h₁, h₂, rfl⟩) | rfl)
      exacts [.inl h, .inr ⟨v, h₁, by omega, rfl⟩, .inr ⟨hi, hlo, Nat.lt_succ_self hi, rfl⟩]
    · rintro (h | ⟨v, h₁, h₂, rfl⟩)
      · exact .inl (.inl h)
      · rcases Nat.lt_succ_iff_lt_or_eq.mp h₂ with h₂ | rfl
        exacts [.inl (.inr ⟨v, h₁, h₂, rfl⟩), .inr rfl]
  · obtain ⟨T, ht, hl⟩ := hg.taken
    have hframes : d₂.frames lo (hi + 1) = d₁.frames lo hi + {a} := by
      rw [PageDir.frames_succ d₂ hlo, hnew, PTE.frame_ofPerm]
      congr 1
      exact PageDir.frames_congr fun v _ hv => hold v (by omega)
    refine ⟨T + (l₁ : Multiset ℕ), by rw [hm.tables, ht, add_assoc], ?_⟩
    rw [← Multiset.coe_add, ← Multiset.coe_add, hl, hframes, Multiset.coe_singleton]
    abel
  · have h₁ := hg.length
    have h₂ := hm.length
    simp only [List.length_append, List.length_singleton]
    omega
  · -- the pages taken are all different
    have hsplit := hnd
    rw [hall.freelist, List.nodup_append, List.nodup_append] at hsplit
    obtain ⟨⟨-, hright, hdis⟩, -⟩ := hsplit
    rcases eq_or_ne v hi with rfl | hne
    · rw [hnew]
      exact (hm.mem.mem a (List.nodup_cons.mp hright).1).trans hz
    · have hv := hg.frame_mem h₁ (by omega)
      have hne' : (d₁.entry v).addr ∉ [a] ++ l₁ := fun h => hdis _ hv _ h rfl
      rw [List.mem_append, not_or] at hne'
      rw [hold v hne, hm.mem.mem _ hne'.2, ha.mem _ hne'.1]
      exact hg.zeroed hnd v h₁ (by omega)

/-- Most of the range was never mapped. -/
theorem Grown.frames_eq (hg : Grown lo v l d d₁ m m₁) (hlo : lo ≤ v) (hhi : v ≤ hi)
    (habs : ∀ w, lo ≤ w → w < hi → (d.entry w).p = false) : d₁.frames lo hi = d₁.frames lo v := by
  rw [← d₁.frames_append hlo hhi, add_eq_left]
  refine PageDir.frames_eq_zero fun w h₁ h₂ => ?_
  rw [hg.outside w (.inr h₁)]
  exact habs w (by omega) h₂

/-- **The rollback**, with the pages `x` in hand, which are freed last. -/
theorem Grown.undone (hg : Grown lo v l d d₁ m m₁) (hlo : lo ≤ v) (hhi : v < hi)
    (habs : ∀ w, lo ≤ w → w < hi → (d.entry w).p = false) {x l' : List ℕ} {m₅ : Kmem}
    (hx : Allocated x m₁ m₂) (hf : AllocFails m₂ m₃)
    (hshort : x = [] ∨ x.length = 1 ∧ ¬ d₁.Has (v / 1024))
    (hu : Unmapped lo hi l' d₁ d' m₃ m₄) (hfr : Freed x m₄ m₅) : Undone lo hi d d' m m₅ := by
  obtain ⟨hempty, rfl⟩ := hf
  obtain ⟨T, ht, hl⟩ := hg.taken
  have hx' : m₁.freelist = x := by rw [hx.freelist, hempty, List.append_nil]
  have hl' : (l' : Multiset ℕ) = d₁.frames lo v := by
    rw [hu.frames, hg.frames_eq hlo hhi.le habs]
  refine ⟨fun w h₁ h₂ => ?_, fun w hw => ?_, hu.same.page.trans hg.page,
    ⟨T, hu.same.tables_eq.trans ht, ?_⟩, ?_, ?_, fun b hb => ?_, fun hn => ?_,
    ⟨v, l, d₁, m₁, hlo, hhi, hg, by rwa [hx']⟩⟩
  · rw [hu.entry]
    exact clearedEntries_absent _ h₁ h₂
  · rw [hu.entry, clearedEntries_outside _ hw, hg.outside w (by omega)]
  · rw [hfr.freelist, hu.mem.freelist, hg.mem.freelist, hx', hempty, List.append_nil,
      ← Multiset.coe_add, ← Multiset.coe_add, hl', hl]
    abel
  · rw [hfr.kend, hu.mem.kend, ← hg.mem.kend, ← hx.kend]
  · rw [hfr.kdata, hu.mem.kdata, ← hg.mem.kdata, ← hx.kdata]
  · rw [hg.mem.freelist, hx', List.mem_append, not_or] at hb
    have hb' : b ∉ l' := fun h => hb.1 (by
      rw [← Multiset.mem_coe, hl, ← hl', Multiset.mem_add]
      exact .inr h)
    rw [hfr.mem b hb.2, hu.mem.mem b hb']
    exact (hx.mem b hb.2).trans (hg.mem.mem b hb.1)
  · have hno := (hn.of_suffix hfr.trace_suffix).of_suffix hu.mem.trace_suffix
    exact hno List.mem_cons_self

/-- What was undone left fewer pages free than two for each page. -/
theorem Undone.length_lt (h : Undone lo hi d d' m m') : m.freelist.length < 2 * (hi - lo) := by
  obtain ⟨v, l, d₁, m₁, hlo, hhi, hg, hshort⟩ := h.short
  have hlen := hg.length
  have hle : m₁.freelist.length ≤ 1 := by
    rcases hshort with h₀ | ⟨h₁, -⟩
    · rw [h₀]
      exact Nat.zero_le 1
    · exact h₁.le
  rw [hg.mem.freelist, List.length_append]
  omega

theorem kfree_meets {C : Prop} (h : C → m.Freeable a) : Meets C (Freed [a] m) (kfree a m) :=
  ⟨fun hC => kfree_ok (h hC), fun _ hok => (kfree_spec hok).1⟩

/-- The call of `deallocuvm` for the rollback goes over the whole range that was asked for. -/
theorem Grown.rollback {C : Prop} (hC : C → m.FreeOk) {oldsz newsz : ℕ} (hnew : newsz ≤ KERNBASE)
    (hg : Grown (pages oldsz) v l d d₁ m m₁)
    (habs : ∀ w, pages oldsz ≤ w → w < pages newsz → (d.entry w).p = false)
    (hkend : m₃.kend = m.kend) :
    Meets C (fun r => ∃ l', Unmapped (pages oldsz) (pages newsz) l' d₁ r.2.1 m₃ r.2.2)
      (deallocuvm d₁ newsz oldsz m₃) := by
  refine ⟨fun h => deallocuvm_ok hnew fun w h₁ h₂ hp => ?_,
    fun r hr => (deallocuvm_spec hnew hr).2⟩
  have hlt : w < v := by
    by_contra hge
    rw [hg.outside w (by omega), habs w h₁ h₂] at hp
    cases hp
  exact (hC h).of_mem hkend (hg.mem_freelist (hg.frame_mem h₁ hlt))

end Grown

/-! ### `allocuvm` -/

/-- The outcomes of `allocuvm`: it refuses, has nothing to do, grows the memory, or undoes its
work. -/
inductive AllocResult (limit : ℕ) (d : PageDir) (oldsz newsz : ℕ) (m : Kmem) :
    ℕ × PageDir × Kmem → Prop
  | refused (hle : limit ≤ newsz) : AllocResult limit d oldsz newsz m (0, d, m)
  | smaller (hlt : newsz < limit) (hlt' : newsz < oldsz) :
      AllocResult limit d oldsz newsz m (oldsz, d, m)
  | grown {l d' m'} (hlt : newsz < limit) (hle : oldsz ≤ newsz)
      (h : Grown (pages oldsz) (pages newsz) l d d' m m') :
      AllocResult limit d oldsz newsz m (newsz, d', m')
  | undone {d' m'} (hlt : newsz < limit) (hle : oldsz ≤ newsz)
      (h : Undone (pages oldsz) (pages newsz) d d' m m') :
      AllocResult limit d oldsz newsz m (0, d', m')

section Alloc

variable {oldsz newsz : ℕ} {d : PageDir} {m : Kmem}

/-- **The loop of `allocuvm`** from the page `v`, by induction on the bound of its iterations. -/
theorem allocuvmLoop_spec (hnew : newsz < KERNBASE)
    (habs : ∀ w, pages oldsz ≤ w → w < pages newsz → (d.entry w).p = false) :
    ∀ (n v : ℕ) {l : List ℕ} {d₁ : PageDir} {m₁ : Kmem}, pages newsz ≤ v + n → pages oldsz ≤ v →
      v ≤ pages newsz → Grown (pages oldsz) v l d d₁ m m₁ →
      Meets (m.FreeOk ∨ 2 * (pages newsz - pages oldsz) ≤ m.freelist.length)
        (fun r => (r.1 = newsz ∧ ∃ l, Grown (pages oldsz) (pages newsz) l d r.2.1 m r.2.2) ∨
          r.1 = 0 ∧ Undone (pages oldsz) (pages newsz) d r.2.1 m r.2.2)
        (allocuvmLoop oldsz newsz n (v * PGSIZE) d₁ m₁) := by
  have hbound := pages_le hnew.le
  intro n
  induction n with
  | zero =>
    intro v l d₁ m₁ hn hlo hhi hg
    obtain rfl : v = pages newsz := by omega
    rw [allocuvmLoop, if_neg (by rw [page_lt_iff]; omega)]
    exact .ok (.inl ⟨rfl, l, hg⟩)
  | succ n ih =>
    intro v l d₁ m₁ hn hlo hhi hg
    rw [allocuvmLoop]
    by_cases hv : v < pages newsz
    swap
    · obtain rfl : v = pages newsz := by omega
      rw [if_neg (by rw [page_lt_iff]; exact hv)]
      exact .ok (.inl ⟨rfl, l, hg⟩)
    rw [if_pos ((page_lt_iff v newsz).mpr hv)]
    have hlt : v + 1 < 0x100000 := by simp only [KERNPAGE] at hbound; omega
    -- a `kalloc` fails only when there are not two pages for each page
    have hC : m₁.freelist.length ≤ 1 →
        m.FreeOk ∨ 2 * (pages newsz - pages oldsz) ≤ m.freelist.length → m.FreeOk := by
      rintro hle (hm | hroom)
      · exact hm
      · have hlen := hg.length
        rw [hg.mem.freelist, List.length_append] at hroom
        omega
    cases hk : kalloc m₁ with
    | mk o m₂ =>
    rcases kalloc_spec hk with ⟨a, rfl, ha⟩ | ⟨rfl, hf⟩
    · have ha' := ha.memset (List.mem_singleton_self a) 0
      have hz : (m₂.memset a 0).mem a = fun _ => 0 := update_self ..
      cases hmap : mappages d₁ (v * PGSIZE) PGSIZE a ⟨true, true⟩ (m₂.memset a 0) with
      | error f =>
        have hp := ((mappages_page_error (by omega)).mp hmap).2
        rw [hg.outside v (.inr le_rfl), habs v hlo hv] at hp
        cases hp
      | ok r =>
        obtain ⟨ok, d₂, m₃⟩ := r
        simp only [hmap, Except.ok_bind]
        obtain ⟨rfl, -, l₁, hmd⟩ | ⟨rfl, rfl, hf, hno⟩ := mappages_page_spec (by omega) hmap
        · rw [if_pos rfl, add32_page hlt]
          exact ih (v + 1) (by omega) (by omega) (by omega) (hg.snoc hlo ha' hz hmd)
        · -- the page is given back after the others
          have hone : m₁.freelist = [a] := by rw [ha'.freelist, hf.1, List.append_nil]
          have hFree := hC (by rw [hone]; exact le_rfl)
          have hkend : m₃.kend = m.kend := by
            rw [hf.2]
            exact ha'.kend.trans hg.mem.kend
          refine (hg.rollback hFree hnew.le habs hkend).bind ?_
          rintro ⟨r, d', m₄⟩ ⟨l', hu⟩
          have hmem : a ∈ m.freelist := by
            rw [hg.mem.freelist, hone]
            simp
          refine (kfree_meets fun h => ((hFree h).of_mem
            (hu.mem.kend.trans hkend) hmem).2).bind fun m₅ hfr => ?_
          exact .ok (.inr ⟨rfl, hg.undone hlo hv habs ha' hf (.inr ⟨rfl, hno⟩) hu hfr⟩)
    · have hnone : m₁.freelist = [] := hf.1
      refine (hg.rollback (hC (by rw [hnone]; exact Nat.zero_le 1)) hnew.le habs ?_).bind ?_
      · rw [hf.2]
        exact hg.mem.kend
      · rintro ⟨r, d', m₃⟩ ⟨l', hu⟩
        exact .ok (.inr ⟨rfl, hg.undone hlo hv habs (.refl m₁) hf (.inl rfl) hu (.refl _)⟩)

/-- **Growing a user memory**: what `allocuvm` returns. It returns when the free pages can be freed,
or when there are two for each page that is asked for. -/
theorem allocuvm_spec {limit : ℕ} (hlim : limit ≤ KERNBASE) (oldsz newsz : ℕ)
    (habs : newsz < limit → ∀ w, pages oldsz ≤ w → w < pages newsz → (d.entry w).p = false) :
    Meets (m.FreeOk ∨ 2 * (pages newsz - pages oldsz) ≤ m.freelist.length)
      (AllocResult limit d oldsz newsz m) (allocuvm limit d oldsz newsz m) := by
  unfold allocuvm
  split
  · next hle => exact .ok (.refused hle)
  split
  · next hlt hlt' => exact .ok (.smaller (by omega) hlt')
  rw [PGROUNDUP_eq (by omega)]
  refine (allocuvmLoop_spec (by omega) (habs (by omega)) _ _ (by simp only [pages, PGSIZE]; omega)
    le_rfl (Nat.div_le_div_right (by omega)) (.refl _ d m)).mono id ?_
  rintro ⟨r, d', m'⟩ (⟨rfl, l, hg⟩ | ⟨rfl, hu⟩)
  · exact .grown (by omega) (by omega) hg
  · exact .undone (by omega) (by omega) hu

/-- With two free pages for each page `allocuvm` succeeds: one for the frame and one for a table. -/
theorem allocuvm_ok {limit : ℕ} (hlim : limit ≤ KERNBASE) (hlt : newsz < limit)
    (hle : oldsz ≤ newsz)
    (habs : ∀ w, pages oldsz ≤ w → w < pages newsz → (d.entry w).p = false)
    (hfree : 2 * (pages newsz - pages oldsz) ≤ m.freelist.length) :
    ∃ l d' m', allocuvm limit d oldsz newsz m = .ok (newsz, d', m') ∧
      Grown (pages oldsz) (pages newsz) l d d' m m' := by
  obtain ⟨r, hok, hr⟩ := (allocuvm_spec hlim oldsz newsz fun _ => habs).exists (.inr hfree)
  cases hr with
  | refused hle => omega
  | smaller _ hlt' => omega
  | grown _ _ hg => exact ⟨_, _, _, hok, hg⟩
  | undone _ _ hu => exact absurd hu.length_lt (by omega)

end Alloc

/-! ### The page directory and the free list -/

/-- Frames without duplicates are at different pages. -/
theorem PageDir.frames_injective {d : PageDir} {lo hi : ℕ} (hnd : (d.frames lo hi).Nodup) {v w : ℕ}
    (hv : v ∈ Finset.Ico lo hi) (hw : w ∈ Finset.Ico lo hi) (hpv : (d.entry v).p = true)
    (hpw : (d.entry w).p = true) (he : (d.entry v).addr = (d.entry w).addr) : v = w := by
  by_contra hne
  have hsum : (d.entry v).frame + (d.entry w).frame ≤ d.frames lo hi := by
    rw [← Finset.sum_pair (f := fun x => (d.entry x).frame) hne]
    refine Finset.sum_le_sum_of_subset fun x hx => ?_
    rcases Finset.mem_insert.mp hx with rfl | hx
    · exact hv
    · rwa [Finset.mem_singleton.mp hx]
  rw [PTE.frame_of_present hpv, PTE.frame_of_present hpw, he] at hsum
  have hdis := (Multiset.nodup_add.mp (Multiset.nodup_of_le hsum hnd)).2.2
  exact Multiset.disjoint_left.mp hdis (Multiset.mem_singleton_self _)
    (Multiset.mem_singleton_self _)

/-- The same entries are present, and they have not changed. -/
structure SameMappings (d d' : PageDir) : Prop where
  present : ∀ v, (d'.entry v).p = (d.entry v).p
  entry : ∀ v, (d.entry v).p = true → d'.entry v = d.entry v

/-- The absent pages `[lo, hi)` have been mapped to different zeroed pages that were free, and no
other entry has changed. -/
structure FreshPages (lo hi : ℕ) (d d' : PageDir) (m m' : Kmem) : Prop where
  absent : ∀ v, lo ≤ v → v < hi → (d.entry v).p = false
  fresh : ∀ v, lo ≤ v → v < hi → ∃ a, d'.entry v = .ofPerm a ⟨true, true⟩ ∧ a ∈ m.freelist ∧
    a ∉ m'.freelist ∧ m'.mem a = fun _ => 0
  distinct : ∀ v w, lo ≤ v → v < hi → lo ≤ w → w < hi →
    (d'.entry v).addr = (d'.entry w).addr → v = w
  outside : ∀ v, v < lo ∨ hi ≤ v → d'.entry v = d.entry v

section Result

variable {lo hi : ℕ} {l : List ℕ} {d d' : PageDir} {m m' : Kmem}

theorem SameMappings.refl (d : PageDir) : SameMappings d d := ⟨fun _ => rfl, fun _ _ => rfl⟩

/-- What was undone. -/
theorem Undone.sameMappings (h : Undone lo hi d d' m m')
    (habs : ∀ v, lo ≤ v → v < hi → (d.entry v).p = false) : SameMappings d d' := by
  have hcases : ∀ v, (lo ≤ v ∧ v < hi) ∨ (v < lo ∨ hi ≤ v) := fun v => by omega
  constructor
  · intro v
    rcases hcases v with ⟨h₁, h₂⟩ | hout
    · rw [h.inside v h₁ h₂, habs v h₁ h₂]
    · rw [h.outside v hout]
  · intro v hp
    rcases hcases v with ⟨h₁, h₂⟩ | hout
    · rw [habs v h₁ h₂] at hp
      cases hp
    · exact h.outside v hout

/-- What was added. -/
theorem Grown.freshPages (h : Grown lo hi l d d' m m') (hnd : m.freelist.Nodup)
    (habs : ∀ v, lo ≤ v → v < hi → (d.entry v).p = false) : FreshPages lo hi d d' m m' := by
  have hsplit := hnd
  rw [h.mem.freelist, List.nodup_append] at hsplit
  obtain ⟨hl, -, hdis⟩ := hsplit
  have hframes : (d'.frames lo hi).Nodup := by
    obtain ⟨T, -, htaken⟩ := h.taken
    refine Multiset.nodup_of_le ?_ (Multiset.coe_nodup.mpr hl)
    rw [htaken]
    exact Multiset.le_add_left _ _
  refine ⟨habs, fun v h₁ h₂ => ?_, fun v w h₁ h₂ h₃ h₄ he => ?_, h.outside⟩
  · obtain ⟨a, ha⟩ := h.inside v h₁ h₂
    have haddr : (d'.entry v).addr = a := by rw [ha]; rfl
    have hmem := h.frame_mem h₁ h₂
    refine ⟨(d'.entry v).addr, by rw [haddr, ha], h.mem_freelist hmem, fun hf => ?_,
      h.zeroed hnd v h₁ h₂⟩
    exact hdis _ hmem _ hf rfl
  · exact PageDir.frames_injective hframes (Finset.mem_Ico.mpr ⟨h₁, h₂⟩)
      (Finset.mem_Ico.mpr ⟨h₃, h₄⟩)
      (h.present h₁ h₂) (h.present h₃ h₄) he

end Result

/-- **`allocuvm` cleans up after itself.** On a page directory whose present pages below the limit
are those of the old size, it does not panic, wherever `kalloc` fails. When it returns `0`, the
mappings are as before, and only the pages of new page tables are no longer free. When it returns
the new size, the pages between the two sizes have been added, and nothing else has changed. -/
theorem allocuvm_cleans_up {limit oldsz newsz : ℕ} {d : PageDir} {m : Kmem}
    (hlim : limit ≤ KERNBASE)
    (hm : m.FreeOk) (hnd : m.freelist.Nodup)
    (hpr : ∀ v, v * PGSIZE < limit → ((d.entry v).p = true ↔ v < pages oldsz))
    (hle : oldsz ≤ newsz) :
    ∃ r d' m', allocuvm limit d oldsz newsz m = .ok (r, d', m') ∧ (r = 0 ∨ r = newsz) ∧
      (r = 0 → SameMappings d d' ∧
        ∃ T, d'.tables = d.tables + T ∧ (m'.freelist : Multiset ℕ) + T = m.freelist) ∧
      (r = newsz → FreshPages (pages oldsz) (pages newsz) d d' m m') := by
  have habs : newsz < limit → ∀ v, pages oldsz ≤ v → v < pages newsz → (d.entry v).p = false := by
    intro hlt v h₁ h₂
    rw [← Bool.not_eq_true, hpr v (by simp only [pages, PGSIZE] at *; omega)]
    omega
  -- with the size `0` there is nothing to add
  have hzero : newsz = 0 → pages newsz ≤ pages oldsz := by
    rintro rfl
    exact Nat.zero_le _
  have hnone : pages newsz ≤ pages oldsz → ∀ m', FreshPages (pages oldsz) (pages newsz) d d m m' :=
    fun h m' => ⟨fun v h₁ h₂ => by omega, fun v h₁ h₂ => by omega, fun v w h₁ h₂ => by omega,
      fun _ _ => rfl⟩
  obtain ⟨⟨r, d', m'⟩, hok, hr⟩ := (allocuvm_spec hlim oldsz newsz habs).exists (.inl hm)
  refine ⟨r, d', m', hok, ?_⟩
  cases hr with
  | refused =>
    exact ⟨.inl rfl, fun _ => ⟨.refl d, 0, (add_zero _).symm, add_zero _⟩,
      fun h => hnone (hzero h.symm) m⟩
  | smaller _ hlt => omega
  | grown hlt _ hg =>
    refine ⟨.inr rfl, fun h₀ => ?_, fun _ => hg.freshPages hnd (habs hlt)⟩
    have hempty := hzero h₀
    have hout : ∀ v, d'.entry v = d.entry v := fun v => hg.outside v (by omega)
    obtain ⟨T, ht, hl⟩ := hg.taken
    refine ⟨⟨fun v => by rw [hout], fun v _ => hout v⟩, T, ht, ?_⟩
    rw [PageDir.frames_of_le d' hempty, add_zero] at hl
    rw [hg.mem.freelist, ← hl, Multiset.coe_add, Multiset.coe_eq_coe]
    exact List.perm_append_comm
  | undone hlt _ hu =>
    refine ⟨.inl rfl, fun _ => ⟨hu.sameMappings (habs hlt), hu.account⟩, fun h => ?_⟩
    have hlt := hu.length_lt
    have := hzero h.symm
    omega

/-- An empty directory grows by one page, with two pages free: one for the page, one for its
table. -/
theorem allocuvm_cleans_up_two_pages : ∃ d m d' m', m.freelist = [0x400000, 0x401000] ∧
    allocuvm KERNBASE d 0 PGSIZE m = .ok (PGSIZE, d', m') ∧ FreshPages 0 1 d d' m m' := by
  let m : Kmem := ⟨0x120000, 0x109000, [0x400000, 0x401000], fun _ _ => 0, []⟩
  let d : PageDir := ⟨0x3FF000, fun _ => none⟩
  have hm : m.FreeOk := ⟨by decide, by simp [m, Kmem.Freeable, PGSIZE, PHYSTOP]⟩
  obtain ⟨r, d', m', hok, -, -, hgrown⟩ := @allocuvm_cleans_up KERNBASE 0 PGSIZE d m (le_refl _) hm
    (by decide) (fun v _ => iff_of_false (by simp [d, PageDir.entry, PageDir.deref, PTE.zero])
      (Nat.not_lt_zero v)) (Nat.zero_le _)
  obtain ⟨l, d₁, m₁, hok₁, -⟩ := @allocuvm_ok 0 PGSIZE d m KERNBASE (le_refl _) (by decide)
    (Nat.zero_le _) (fun _ _ _ => rfl) (by decide)
  obtain ⟨rfl, rfl, rfl⟩ : r = PGSIZE ∧ d' = d₁ ∧ m' = m₁ := by
    rw [hok] at hok₁
    simpa using hok₁
  exact ⟨d, m, d', m', rfl, hok, hgrown rfl⟩

end Xv6
