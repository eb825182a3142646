import CS450.Shared.Kernel
import CS450.Vm.Draft

/-!
# The loops over a shared region

Specifications of the four loops of `vm.c` that create, map, unmap and free the pages of a region,
in terms of virtual page numbers.
-/

namespace Xv6.Shared

open Function (update_of_ne update_self)

theorem sub32_page {v : ℕ} (h : v + 1 ≤ 0x100000) :
    sub32 ((v + 1) * PGSIZE) PGSIZE = v * PGSIZE := by
  simp only [sub32, PGSIZE, WORD]
  omega

/-! ### Mapping -/

/-- The `n` virtual pages below `top` were mapped for the user to the pages of a region from the
index `i` on, the first of them at the highest address; the pages `l` were taken for tables. -/
structure MappedDown (pages : ℕ → ℕ) (n i top : ℕ) (l : List ℕ) (pgdir pgdir' : PageDir)
    (m m' : Kmem) : Prop where
  absent : ∀ j, j < n → (pgdir.entry (top - 1 - j)).p = false
  inside : ∀ j, j < n → pgdir'.entry (top - 1 - j) = .ofPerm (pages (i + j)) ⟨true, true⟩
  outside : ∀ v, v < top - n ∨ top ≤ v → pgdir'.entry v = pgdir.entry v
  tables : pgdir'.tables = pgdir.tables + (l : Multiset ℕ)
  page : pgdir'.page = pgdir.page
  mem : Allocated l m m'

theorem MappedDown.refl (pages : ℕ → ℕ) (i top : ℕ) (pgdir : PageDir) (m : Kmem) :
    MappedDown pages 0 i top [] pgdir pgdir m m where
  absent _ hj := absurd hj (Nat.not_lt_zero _)
  inside _ hj := absurd hj (Nat.not_lt_zero _)
  outside _ _ := rfl
  tables := by simp
  page := rfl
  mem := .refl m

/-- One page below `top`, then `n` pages below that. -/
theorem MappedDown.cons {pages : ℕ → ℕ} {n i top : ℕ} (hn : n ≤ top) {l₁ l₂ : List ℕ}
    {d₁ d₂ d₃ : PageDir} {m₁ m₂ m₃ : Kmem} (habs : (d₁.entry top).p = false)
    (hm : Mapped top (.ofPerm (pages i) ⟨true, true⟩) l₁ d₁ d₂ m₁ m₂)
    (hd : MappedDown pages n (i + 1) top l₂ d₂ d₃ m₂ m₃) :
    MappedDown pages (n + 1) i (top + 1) (l₁ ++ l₂) d₁ d₃ m₁ m₃ := by
  have htop : ∀ j, top + 1 - 1 - (j + 1) = top - 1 - j := by omega
  refine ⟨fun j hj => ?_, fun j hj => ?_, fun v hv => ?_, ?_, hd.page.trans hm.page,
    hm.mem.trans hd.mem⟩
  · cases j with
    | zero => exact habs
    | succ j =>
      have h := hd.absent j (by omega)
      rw [hm.entry, update_of_ne (by omega)] at h
      rw [htop]
      exact h
  · cases j with
    | zero =>
      have h := hd.outside top (.inr (le_refl _))
      rw [hm.entry, update_self] at h
      exact h
    | succ j =>
      rw [htop, hd.inside j (by omega), Nat.add_right_comm, Nat.add_assoc]
  · rw [hd.outside v (by omega), hm.entry, update_of_ne (by omega)]
  · rw [hd.tables, hm.tables, ← Multiset.coe_add, add_assoc]

/-- A mapping loop that stopped at a failing `kalloc`: pages between `low` and `top` may be mapped,
the others are untouched. -/
structure MapFails (low top : ℕ) (pgdir pgdir' : PageDir) (m m' : Kmem) : Prop where
  outside : ∀ v, v < low ∨ top ≤ v → pgdir'.entry v = pgdir.entry v
  suffix : m.trace <:+ m'.trace
  failed : ¬ m'.NoFail
  kdata : m'.kdata = m.kdata

theorem Mapped.length_freelist {v : ℕ} {e : PTE} {l : List ℕ} {d d' : PageDir} {m m' : Kmem}
    (h : Mapped v e l d d' m m') : m.freelist.length ≤ m'.freelist.length + 1 := by
  have hlen := congrArg List.length h.mem.freelist
  have := h.length
  rw [List.length_append] at hlen
  omega

/-- How the loop of `mapSharedRegion` ends: with the pages mapped, at a failing `kalloc`, at a page
that is present, or below the address `0`. -/
inductive MapOutcome (pages : ℕ → ℕ) (n i top : ℕ) (pgdir : PageDir) (m : Kmem) :
    Except Fault (Bool × ℕ × PageDir × Kmem) → Prop
  | mapped {l : List ℕ} {shaddr : ℕ} {pgdir' : PageDir} {m' : Kmem} (hn : n ≤ top)
      (hs : shaddr = (top - n) * PGSIZE) (hd : MappedDown pages n i top l pgdir pgdir' m m') :
      MapOutcome pages n i top pgdir m (.ok (true, shaddr, pgdir', m'))
  | fails {low : ℕ} {pgdir' : PageDir} {m' : Kmem} (hlow : top - n ≤ low) (hlt : low < top)
      (habs : (pgdir.entry low).p = false) (hshort : m.freelist.length + low < top)
      (hf : MapFails low top pgdir pgdir' m m') :
      MapOutcome pages n i top pgdir m (.ok (false, low * PGSIZE, pgdir', m'))
  | remap {low : ℕ} (hlow : top - n ≤ low) (hlt : low < top) (hp : (pgdir.entry low).p = true) :
      MapOutcome pages n i top pgdir m (.error (.panic "remap"))
  | wraps {r : Except Fault (Bool × ℕ × PageDir × Kmem)} (hn : top < n)
      (habs : ∀ v, v < top → (pgdir.entry v).p = false) : MapOutcome pages n i top pgdir m r

/-- **The loop of `mapSharedRegion`**, by induction on the number of pages. -/
theorem mapSharedLoop_outcome (pages : ℕ → ℕ) (n i : ℕ) {top : ℕ} (htop : top ≤ KERNPAGE)
    (pgdir : PageDir) (m : Kmem) :
    MapOutcome pages n i top pgdir m (mapSharedLoop pages n i (top * PGSIZE) pgdir m) := by
  induction n generalizing i top pgdir m with
  | zero => exact .mapped (Nat.zero_le top) rfl (.refl pages i top _ _)
  | succ n ih =>
    cases top with
    | zero => exact .wraps (Nat.succ_pos n) fun v hv => absurd hv (Nat.not_lt_zero v)
    | succ v =>
      have hv : v < 0x100000 := by simp only [KERNPAGE] at htop; omega
      rw [mapSharedLoop, sub32_page (by omega)]
      cases hmap : mappages pgdir (v * PGSIZE) PGSIZE (pages i) ⟨true, true⟩ m with
      | error f =>
        obtain ⟨rfl, hp⟩ := (mappages_page_error hv).mp hmap
        exact .remap (by omega) (Nat.lt_succ_self v) hp
      | ok r =>
        obtain ⟨ok, d, m₁⟩ := r
        obtain ⟨rfl, habs, l₁, hm⟩ | ⟨rfl, rfl, hf, -⟩ := mappages_page_spec hv hmap
        · have hrest := ih (i + 1) (show v ≤ KERNPAGE by omega) d m₁
          have hlen := Mapped.length_freelist hm
          have hent : ∀ {w : ℕ}, w < v → d.entry w = pgdir.entry w := fun hw => by
            rw [hm.entry, update_of_ne (by omega)]
          simp only [Except.ok_bind, ↓reduceIte]
          generalize mapSharedLoop pages n (i + 1) (v * PGSIZE) d m₁ = r at hrest ⊢
          cases hrest with
          | mapped hn hs hd =>
            exact .mapped (by omega) (by rw [hs]; congr 1; omega) (hd.cons hn habs hm)
          | fails hlow hlt habs' hshort hf =>
            refine .fails (by omega) (by omega) (hent hlt ▸ habs') (by omega) ⟨fun w hw => ?_,
              hm.mem.trace_suffix.trans hf.suffix, hf.failed, hf.kdata.trans hm.mem.kdata⟩
            rw [hf.outside w (by omega), hm.entry, update_of_ne (by omega)]
          | remap hlow hlt hp => exact .remap (by omega) (by omega) (hent hlt ▸ hp)
          | wraps hn habs' =>
            refine .wraps (by omega) fun w hw => ?_
            rcases Nat.lt_succ_iff_lt_or_eq.mp hw with hw | rfl
            · exact hent hw ▸ habs' w hw
            · exact habs
        · have habs : (d.entry v).p = false := by
            rw [← Bool.not_eq_true]
            intro hp
            rw [(mappages_page_error hv).mpr ⟨rfl, hp⟩] at hmap
            cases hmap
          refine .fails (by omega) (Nat.lt_succ_self v) habs ?_ ⟨fun _ _ => rfl, hf.trace_suffix,
            hf.not_noFail, by rw [hf.2]⟩
          rw [hf.1, List.length_nil]
          omega

variable {pages : ℕ → ℕ} {n i top : ℕ} {pgdir pgdir' : PageDir} {m m' : Kmem}

/-- With room for its pages: they are mapped, or `kalloc` failed on the way. -/
theorem mapSharedLoop_spec {ok : Bool} {shaddr : ℕ} (hn : n ≤ top) (htop : top ≤ KERNPAGE)
    (h : mapSharedLoop pages n i (top * PGSIZE) pgdir m = .ok (ok, shaddr, pgdir', m')) :
    (ok = true ∧ shaddr = (top - n) * PGSIZE ∧
      ∃ l, MappedDown pages n i top l pgdir pgdir' m m') ∨
    (ok = false ∧ ∃ low, top - n ≤ low ∧ low ≤ top ∧ shaddr = low * PGSIZE ∧
      MapFails low top pgdir pgdir' m m') := by
  have hout := mapSharedLoop_outcome pages n i htop pgdir m
  rw [h] at hout
  cases hout with
  | mapped _ hs hd => exact .inl ⟨rfl, hs, _, hd⟩
  | fails hlow hlt _ _ hf => exact .inr ⟨rfl, _, hlow, hlt.le, rfl, hf⟩
  | wraps hlt _ => omega

/-- With the pages below `top` present up to `lo`, the loop ends above them: it either maps its
pages in between or meets a failing `kalloc`. -/
theorem mapSharedLoop_room {lo : ℕ} {ok : Bool} {shaddr : ℕ} (hlo : 0 < lo) (hle : lo ≤ top)
    (htop : top ≤ KERNPAGE) (hlow : ∀ v, v < lo → (pgdir.entry v).p = true)
    (h : mapSharedLoop pages n i (top * PGSIZE) pgdir m = .ok (ok, shaddr, pgdir', m'))
    (hno : m'.NoFail) : lo + n ≤ top := by
  have hout := mapSharedLoop_outcome pages n i htop pgdir m
  rw [h] at hout
  cases hout with
  | mapped hn _ hd =>
    by_contra hlt
    have habs := hd.absent (n - 1) (by omega)
    rw [hlow _ (by omega)] at habs
    cases habs
  | fails _ _ _ _ hf => exact absurd hno hf.failed
  | wraps _ habs =>
    have := habs 0 (by omega)
    rw [hlow 0 hlo] at this
    cases this

/-- The loop does not panic when the pages it maps are absent, and succeeds with enough free
pages. -/
theorem mapSharedLoop_ok (hn : n ≤ top) (htop : top ≤ KERNPAGE)
    (habs : ∀ v, top - n ≤ v → v < top → (pgdir.entry v).p = false) :
    ∃ ok r, mapSharedLoop pages n i (top * PGSIZE) pgdir m = .ok (ok, r) ∧
      (n ≤ m.freelist.length → ok = true) := by
  have hout := mapSharedLoop_outcome pages n i htop pgdir m
  generalize mapSharedLoop pages n i (top * PGSIZE) pgdir m = r at hout ⊢
  cases hout with
  | mapped => exact ⟨_, _, rfl, fun _ => rfl⟩
  | fails hlow _ _ hshort _ => exact ⟨_, _, rfl, fun hlen => by omega⟩
  | remap hlow hlt hp =>
    rw [habs _ hlow hlt] at hp
    cases hp
  | wraps hlt _ => omega

/-- The loop panics at a present page below absent ones. -/
theorem mapSharedLoop_remap (hn : n + 1 ≤ top) (htop : top ≤ KERNPAGE)
    (hlen : n ≤ m.freelist.length) (hp : (pgdir.entry (top - (n + 1))).p = true) :
    mapSharedLoop pages (n + 1) i (top * PGSIZE) pgdir m = .error (.panic "remap") := by
  have hout := mapSharedLoop_outcome pages (n + 1) i htop pgdir m
  generalize mapSharedLoop pages (n + 1) i (top * PGSIZE) pgdir m = r at hout ⊢
  cases hout with
  | mapped _ _ hd =>
    have habs := hd.absent n (Nat.lt_succ_self n)
    rw [Nat.sub_sub, Nat.add_comm 1 n, hp] at habs
    cases habs
  | @fails low _ _ hlow _ habs hshort _ =>
    have hne : low ≠ top - (n + 1) := fun heq => by
      rw [heq, hp] at habs
      cases habs
    omega
  | remap => rfl
  | wraps hlt _ => omega

/-! ### Unmapping -/

/-- Whatever the address, the loop only zeroes entries. -/
theorem clearSharedLoop_entry {va : ℕ} {m : Kmem} :
    ∀ (n i : ℕ) {pgdir pgdir' : PageDir} {ok : Bool},
      clearSharedLoop va n i pgdir m = (ok, pgdir') →
      ∀ v, pgdir'.entry v = pgdir.entry v ∨ pgdir'.entry v = .zero := by
  intro n
  induction n with
  | zero =>
    intro i pgdir pgdir' ok h v
    cases h
    exact .inl rfl
  | succ n ih =>
    intro i pgdir pgdir' ok h v
    have ha : add32 va (i * PGSIZE) < WORD := Nat.mod_lt _ (by decide)
    rw [clearSharedLoop, walkpgdir_find_addr pgdir ha] at h
    generalize add32 va (i * PGSIZE) / PGSIZE = w at h
    cases ht : pgdir.pde (w / 1024) with
    | none =>
      simp only [ht, Option.map_none] at h
      cases h
      exact .inl rfl
    | some t =>
      simp only [ht, Option.map_some] at h
      rcases ih (i + 1) h v with hv | hv
      · rw [hv, PageDir.entry_store ht]
        rcases eq_or_ne v w with rfl | hne
        · exact .inr (update_self ..)
        · exact .inl (update_of_ne hne ..)
      · exact .inr hv

/-- **The clearing loop** of `deallocProcSharedVM` over present pages zeroes exactly these. -/
theorem clearSharedLoop_spec (base : ℕ) (m : Kmem) :
    ∀ (n i : ℕ) (pgdir : PageDir), base + i + n ≤ 0x100000 →
      (∀ j, i ≤ j → j < i + n → (pgdir.entry (base + j)).p = true) →
      ∃ pgdir', clearSharedLoop (base * PGSIZE) n i pgdir m = (true, pgdir') ∧
        PageDir.SameTables pgdir pgdir' ∧
        (∀ j, i ≤ j → j < i + n → pgdir'.entry (base + j) = .zero) ∧
        ∀ v, v < base + i ∨ base + i + n ≤ v → pgdir'.entry v = pgdir.entry v := by
  intro n
  induction n with
  | zero =>
    intro i pgdir _ _
    exact ⟨pgdir, rfl, .refl _, fun j h₁ h₂ => by omega, fun _ _ => rfl⟩
  | succ n ih =>
    intro i pgdir hb hp
    have haddr : add32 (base * PGSIZE) (i * PGSIZE) = (base + i) * PGSIZE := by
      simp only [add32, PGSIZE, WORD]
      omega
    obtain ⟨t, ht⟩ := PageDir.exists_table_of_present (hp i (le_refl i) (by omega))
    obtain ⟨d, hd, hsame, hin, hout⟩ := ih (i + 1)
      (pgdir.store ((base + i) / 1024, (base + i) % 1024) .zero) (by omega) fun j h₁ h₂ => by
        rw [PageDir.entry_store ht, update_of_ne (by omega)]
        exact hp j (by omega) (by omega)
    refine ⟨d, ?_, (PageDir.sameTables_store _ _ _).trans hsame, fun j h₁ h₂ => ?_, fun v hv => ?_⟩
    · rw [clearSharedLoop, haddr, walkpgdir_find (by omega), ht]
      exact hd
    · rcases eq_or_ne j i with rfl | hne
      · rw [hout (base + j) (by omega), PageDir.entry_store ht, update_self]
      · exact hin j (by omega) (by omega)
    · rw [hout v (by omega), PageDir.entry_store ht, update_of_ne (by omega)]

/-! ### Creating and freeing the pages -/

/-- The pages with indices from `i` on, `n` of them. -/
def pageRange (pages : ℕ → ℕ) (i n : ℕ) : List ℕ := (List.range' i n).map pages

theorem pageRange_congr {f g : ℕ → ℕ} {i n : ℕ} (h : ∀ j, i ≤ j → j < i + n → g j = f j) :
    pageRange g i n = pageRange f i n :=
  List.map_congr_left fun j hj => h j (List.mem_range'_1.mp hj).1 (List.mem_range'_1.mp hj).2

theorem pageRange_succ (pages : ℕ → ℕ) (i n : ℕ) :
    pageRange pages i (n + 1) = pages i :: pageRange pages (i + 1) n := by
  simp [pageRange, List.range'_succ]

/-- **The loop of `allocSharedVM`** stores the pages it takes, in order, or `kalloc` failed. -/
theorem allocSharedLoop_spec :
    ∀ (n i : ℕ) {pages pages' : ℕ → ℕ} {m m' : Kmem} {ok : Bool},
      allocSharedLoop n i pages m = (ok, pages', m') →
      (∀ j, j < i → pages' j = pages j) ∧
      ((ok = true ∧ Allocated (pageRange pages' i n) m m') ∨
        (ok = false ∧ m.trace <:+ m'.trace ∧ ¬ m'.NoFail ∧ m'.kdata = m.kdata)) := by
  intro n
  induction n with
  | zero =>
    intro i pages pages' m m' ok h
    cases h
    exact ⟨fun _ _ => rfl, .inl ⟨rfl, .refl m⟩⟩
  | succ n ih =>
    intro i pages pages' m m' ok h
    rw [allocSharedLoop] at h
    cases hk : kalloc m with
    | mk o m₁ =>
    rw [hk] at h
    rcases kalloc_spec hk with ⟨a, rfl, ha⟩ | ⟨rfl, hf⟩
    · obtain ⟨hlow, hres⟩ := ih (i + 1) h
      have hi : pages' i = a := by rw [hlow i (by omega), update_self]
      have ha' := ha.memset (List.mem_singleton_self a) 0
      refine ⟨fun j hj => ?_, ?_⟩
      · rw [hlow j (by omega), update_of_ne (by omega)]
      · rcases hres with ⟨rfl, hall⟩ | ⟨rfl, hs, hfail, hkd⟩
        · refine .inl ⟨rfl, ?_⟩
          rw [pageRange_succ, hi]
          exact ha'.trans hall
        · exact .inr ⟨rfl, ha'.trace_suffix.trans hs, hfail, hkd.trans ha'.kdata⟩
    · cases h
      have hfails : AllocFails m m' := hf
      exact ⟨fun _ _ => rfl, .inr ⟨rfl, hfails.trace_suffix, hfails.not_noFail, by rw [hfails.2]⟩⟩

/-- **The freeing loop** of `deallocProcSharedVM` frees each page of the region once. -/
theorem freeSharedLoop_spec :
    ∀ (n i : ℕ) {pages pages' : ℕ → ℕ} {m m' : Kmem},
      freeSharedLoop n i pages m = .ok (pages', m') →
      ∃ l : List ℕ, (l : Multiset ℕ) = pageRange pages i n ∧ Freed l m m' := by
  intro n
  induction n with
  | zero =>
    intro i pages pages' m m' h
    cases h
    exact ⟨[], rfl, .refl m⟩
  | succ n ih =>
    intro i pages pages' m m' h
    obtain ⟨m₁, hk, h⟩ := Except.bind_eq_ok.mp h
    obtain ⟨l, hl, hf⟩ := ih (i + 1) h
    refine ⟨l ++ [pages i], ?_, (kfree_spec hk).1.trans hf⟩
    rw [← Multiset.coe_add, hl, pageRange_succ, pageRange_congr fun j h₁ _ =>
      update_of_ne (show j ≠ i by omega) _ _, add_comm]
    rfl

theorem freeSharedLoop_ok :
    ∀ (n i : ℕ) (pages : ℕ → ℕ) (m : Kmem), (∀ j, i ≤ j → j < i + n → m.Freeable (pages j)) →
      ∃ r, freeSharedLoop n i pages m = .ok r := by
  intro n
  induction n with
  | zero => exact fun i pages m _ => ⟨_, rfl⟩
  | succ n ih =>
    intro i pages m hfree
    obtain ⟨m₁, hk⟩ := kfree_ok (hfree i (le_refl i) (by omega))
    obtain ⟨hm₁, -⟩ := kfree_spec hk
    simp only [freeSharedLoop, hk, Except.ok_bind]
    refine ih (i + 1) _ m₁ fun j h₁ h₂ => ?_
    rw [update_of_ne (by omega)]
    obtain ⟨h₃, h₄, h₅⟩ := hfree j (by omega) (by omega)
    exact ⟨h₃, by rw [hm₁.kend]; exact h₄, h₅⟩

end Xv6.Shared
