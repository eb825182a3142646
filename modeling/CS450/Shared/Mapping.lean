import CS450.Shared.Invariant

/-!
# `GetSharedPage` and `FreeSharedPage` keep the invariant

Both calls change one process and one region. `LocalChange` lists what has to be checked about such
a change; the rest of the kernel follows.
-/

namespace Xv6.Shared

/-! ### Local changes -/

/-- A change of the process `p` and of the region `key` that respects the invariant. -/
structure LocalChange (k : Kernel) (p : Slot) (key : Key) (k' : Kernel) : Prop where
  live : ∀ q, q ≠ p → (k'.Live q ↔ k.Live q)
  vm : ∀ q, q ≠ p → k'.vm q = k.vm q
  regions : ∀ key', key' ≠ key → k'.regions key' = k.regions key'
  shared : ∀ q, q ≠ p → (k.vm q).Holds key →
    (k'.regions key).pageCount = (k.regions key).pageCount ∧
      (k'.regions key).pages = (k.regions key).pages
  space : k'.Live p → ∃ pgdir kstack, (k'.vm p).pgdir = some pgdir ∧
    (k'.vm p).kstack = some kstack ∧ SpaceOk k'.regions (k'.vm p) pgdir
  ref : ∀ key', (k'.vm p).shared key' = ⟨none, 0⟩ ∨
    ((k'.vm p).shared key').region = some key' ∧ ((k'.vm p).shared key').va ≠ 0
  unused : ¬ k'.Live p → ∀ key', ¬ (k'.vm p).Holds key'
  holds : ∀ key', key' ≠ key → ((k'.vm p).Holds key' ↔ (k.vm p).Holds key')
  valid : (k'.regions key).valid = true →
    0 < (k'.regions key).pageCount ∧ (k'.regions key).pageCount ≤ MAX_SH_PAGES
  invalid : (k'.regions key).valid = false →
    (k'.regions key).refCount = 0 ∧ (k'.regions key).pageCount = 0
  count : (k'.regions key).refCount + (if (k.vm p).Holds key then 1 else 0) =
    (k.regions key).refCount + (if (k'.vm p).Holds key then 1 else 0)
  account : (k'.kmem.freelist : Multiset ℕ) + k'.procPages p + (k'.regions key).owned =
    (k.kmem.freelist : Multiset ℕ) + k.procPages p + (k.regions key).owned
  kdata : k'.kmem.kdata = k.kmem.kdata

namespace LocalChange

variable {k k' : Kernel} {p : Slot} {key : Key}

theorem procPages_of_ne (hc : LocalChange k p key k') {q : Slot} (hq : q ≠ p) :
    k'.procPages q = k.procPages q := by
  by_cases hl : k.Live q
  · rw [procPages_of_live hl, procPages_of_live ((hc.live q hq).mpr hl), hc.vm q hq]
  · rw [procPages_of_not_live hl, procPages_of_not_live fun h => hl ((hc.live q hq).mp h)]

theorem census_eq (hc : LocalChange k p key k') : k'.census = k.census :=
  census_exchange p key (fun _ hq => hc.procPages_of_ne hq)
    (fun key' hk => by rw [hc.regions key' hk]) hc.account

theorem count_eq (hc : LocalChange k p key k') (h : InvCore k) (key' : Key) :
    (k'.regions key').refCount = Table.tally (ProcVm.Holds key') k'.vm := by
  have ht : Table.tally (ProcVm.Holds key') k'.vm + (if (k.vm p).Holds key' then 1 else 0) =
      Table.tally (ProcVm.Holds key') k.vm + (if (k'.vm p).Holds key' then 1 else 0) :=
    Table.tally_add_of_eq_off _ p fun q hq => by rw [hc.vm q hq]
  have hk := h.count key'
  rcases eq_or_ne key' key with rfl | hne
  · have hcount := hc.count
    split at hcount <;> split at hcount <;> simp_all
    all_goals omega
  · rw [hc.regions key' hne, hk]
    have := hc.holds key' hne
    simp only [this] at ht
    omega

/-- **A local change keeps the invariant.** -/
theorem inv (hc : LocalChange k p key k') (h : InvCore k) : InvCore k' where
  space q hq := by
    rcases eq_or_ne q p with rfl | hne
    · exact hc.space hq
    · obtain ⟨pgdir, kstack, hd, hks, hs⟩ := h.space q ((hc.live q hne).mp hq)
      rw [hc.vm q hne]
      refine ⟨pgdir, kstack, hd, hks, hs.congr fun key' hk => ?_⟩
      rcases eq_or_ne key' key with rfl | hne'
      · exact hc.shared q hne hk
      · rw [hc.regions key' hne']
        exact ⟨rfl, rfl⟩
  ref q key' := by
    rcases eq_or_ne q p with rfl | hne
    · exact hc.ref key'
    · rw [hc.vm q hne]
      exact h.ref q key'
  unused q hq := by
    rcases eq_or_ne q p with rfl | hne
    · exact hc.unused hq
    · rw [hc.vm q hne]
      exact h.unused q fun hl => hq ((hc.live q hne).mpr hl)
  valid key' := by
    rcases eq_or_ne key' key with rfl | hne
    · exact hc.valid
    · rw [hc.regions key' hne]
      exact h.valid key'
  invalid key' := by
    rcases eq_or_ne key' key with rfl | hne
    · exact hc.invalid
    · rw [hc.regions key' hne]
      exact h.invalid key'
  count := hc.count_eq h
  nodup := by
    rw [hc.census_eq]
    exact h.nodup
  link := by
    obtain ⟨c, hk, hlo, hhi⟩ := h.link
    exact ⟨c, hc.kdata.trans hk, hlo, hhi⟩

end LocalChange

/-! ### `mapSharedRegion` -/

section Map

variable {k k' : Kernel} {p : Slot} {key : Key}

/-- The memory of a process after a region of `n` pages was mapped below its `shaddr`. -/
def ProcVm.withRegion (v : ProcVm) (key : Key) (n : ℕ) (pgdir : PageDir) : ProcVm :=
  { v with
    pgdir := some pgdir, shaddr := (v.top - n) * PGSIZE
    shared := Function.update v.shared key ⟨some key, (v.top - n) * PGSIZE⟩ }

theorem withRegion_holds_of_ne (v : ProcVm) {key key' : Key} (n : ℕ) (pgdir : PageDir)
    (h : key' ≠ key) : (v.withRegion key n pgdir).shared key' = v.shared key' :=
  Function.update_of_ne h ..

/-- The address space after a region was mapped. -/
theorem SpaceOk.map {regions regions' : Key → SharedRegion} {v : ProcVm} {pgdir pgdir' : PageDir}
    {l : List ℕ} {m m' : Kmem} (h : SpaceOk regions v pgdir) (hnew : ¬ v.Holds key)
    (hroom : pages v.sz + (regions key).pageCount ≤ v.top)
    (hm : MappedDown (regions key).pages (regions key).pageCount 0 v.top l pgdir pgdir' m m')
    (hr : ∀ key', (regions' key').pageCount = (regions key').pageCount ∧
      (regions' key').pages = (regions key').pages) :
    SpaceOk regions' (v.withRegion key (regions key).pageCount pgdir') pgdir' := by
  set n := (regions key).pageCount with hn
  have htop : (v.withRegion key n pgdir').top = v.top - n := by
    simp only [ProcVm.top, ProcVm.withRegion, PGSIZE]
    omega
  have hbase : (v.withRegion key n pgdir').base key = v.top - n := by
    simp only [ProcVm.base, ProcVm.withRegion, Function.update_self, PGSIZE]
    omega
  have hbase' : ∀ key', key' ≠ key → (v.withRegion key n pgdir').base key' = v.base key' := by
    intro key' hne
    simp only [ProcVm.base, withRegion_holds_of_ne v n pgdir' hne]
  have hholds : ∀ key', key' ≠ key →
      ((v.withRegion key n pgdir').Holds key' ↔ v.Holds key') := by
    intro key' hne
    simp only [ProcVm.Holds, withRegion_holds_of_ne v n pgdir' hne]
  have hin : ∀ j, j < n → pgdir'.entry (v.top - n + j) =
      .ofPerm ((regions key).pages (n - 1 - j)) ⟨true, true⟩ := by
    intro j hj
    have hj' := hm.inside (n - 1 - j) (by omega)
    rw [Nat.zero_add] at hj'
    rw [← hj']
    congr 1
    omega
  have htop' := h.top
  have hgap : GapOk (v.withRegion key n pgdir') pgdir' :=
    gapOk_of_shaddr (show _ = (v.top - n) * PGSIZE from rfl) (Nat.le_sub_of_add_le hroom) (by omega)
      fun u hlo hhi => by
        rw [hm.outside u (by omega)]
        exact h.gap u hlo (by omega)
  refine ⟨hgap, h.size, ?_, ?_, ?_, ?_, ?_, ?_, ?_⟩
  · intro u hu
    change u < pages v.sz at hu
    rw [hm.outside u (by omega)]
    exact h.own u hu
  · intro key' hk
    rcases eq_or_ne key' key with rfl | hne
    · rw [hbase]
      simp [ProcVm.withRegion]
    · rw [hbase' key' hne, withRegion_holds_of_ne v n pgdir' hne]
      exact h.va key' ((hholds key' hne).mp hk)
  · intro key' hk
    rcases eq_or_ne key' key with rfl | hne
    · rw [hbase, htop]
    · have := h.low key' ((hholds key' hne).mp hk)
      rw [hbase' key' hne, htop]
      omega
  · intro key' hk
    rw [(hr key').1]
    rcases eq_or_ne key' key with rfl | hne
    · omega
    · rw [hbase' key' hne]
      exact h.high key' ((hholds key' hne).mp hk)
  · intro key' hk j hj
    rw [(hr key').1] at hj ⊢
    rw [(hr key').2]
    rcases eq_or_ne key' key with rfl | hne
    · rw [hbase]
      exact hin j hj
    · have hk' := (hholds key' hne).mp hk
      have := h.low key' hk'
      rw [hbase' key' hne, hm.outside _ (by omega)]
      exact h.held key' hk' j hj
  · intro u hlo hhi hp
    rw [htop] at hlo
    by_cases hu : u < v.top
    · refine ⟨key, by simp [ProcVm.Holds, ProcVm.withRegion], ?_, ?_⟩
      · rw [hbase]
        exact hlo
      · rw [hbase, (hr key).1]
        omega
    · rw [hm.outside u (by omega)] at hp
      obtain ⟨key', hk, h₁, h₂⟩ := h.only u (by omega) hhi hp
      have hne : key' ≠ key := by
        rintro rfl
        exact hnew hk
      refine ⟨key', (hholds key' hne).mpr hk, ?_, ?_⟩
      · rw [hbase' key' hne]
        exact h₁
      · rw [hbase' key' hne, (hr key').1]
        exact h₂
  · intro u hu
    rw [hm.outside u (by omega)]
    exact h.kernel u hu

/-- The process `p` has a page directory with a gap. -/
def GapAt (k : Kernel) (p : Slot) : Prop :=
  ∃ pgdir, (k.vm p).pgdir = some pgdir ∧ GapOk (k.vm p) pgdir

/-- **What `mapSharedRegion` does for a process that does not have the region**, with room for it:
the region is mapped, or a `kalloc` failed for want of pages. -/
theorem mapSharedRegion_new {pgdir : PageDir} (hd : (k.vm p).pgdir = some pgdir)
    (hg : GapOk (k.vm p) pgdir) (hnew : k.mapped ((k.vm p).shared key) = false)
    (hroom : pages (k.vm p).sz + (k.regions key).pageCount ≤ (k.vm p).top) :
    ∃ r k', mapSharedRegion k p key = .ok (r, k') ∧ OnlyVm p k k' ∧ GapAt k' p ∧
      ((r = some (((k.vm p).top - (k.regions key).pageCount) * PGSIZE) ∧ ∃ pgdir' l m,
        MappedDown (k.regions key).pages (k.regions key).pageCount 0 (k.vm p).top l
          pgdir pgdir' k.kmem m ∧
        k' = ((k.setRegion key { k.regions key with
          refCount := (k.regions key).refCount + 1 }).setVm p
            ((k.vm p).withRegion key (k.regions key).pageCount pgdir')).setKmem m) ∨
        ¬ k'.kmem.NoFail ∧ k.kmem.freelist.length < (k.regions key).pageCount) := by
  have htop := hg.top
  -- the pages of the mapping are in the gap, so none of them is present
  obtain ⟨ok, ⟨shaddr, pgdir', m⟩, hloop, henough⟩ := @mapSharedLoop_ok (k.regions key).pages
    (k.regions key).pageCount 0 (k.vm p).top pgdir k.kmem (by omega) htop
    fun v hlo hhi => hg.gap v (by omega) hhi
  have hgap : ∀ {low : ℕ} {v : ProcVm}, v.sz = (k.vm p).sz → v.shaddr = low * PGSIZE →
      pages (k.vm p).sz ≤ low → low ≤ (k.vm p).top →
      (∀ u, u < low → pgdir'.entry u = pgdir.entry u) → GapOk v pgdir' := by
    intro low v hsz hsh hlow hle hent
    refine gapOk_of_shaddr hsh (by rw [hsz]; exact hlow) (by omega) fun u h₁ h₂ => ?_
    rw [hent u h₂]
    exact hg.gap u (by rwa [hsz] at h₁) (by omega)
  unfold mapSharedRegion
  simp only [hnew, Bool.false_eq_true, ↓reduceIte, hd, hg.shaddr, hloop, Except.ok_bind]
  rcases mapSharedLoop_spec (by omega) htop hloop with
    ⟨rfl, rfl, l, hm⟩ | ⟨rfl, low, hlow, hle, rfl, hf⟩
  · refine ⟨_, _, rfl, ⟨rfl, fun q hq => setVm_vm_of_ne _ _ hq, hm.mem.kdata⟩,
      ⟨pgdir', by simp, ?_⟩, .inl ⟨rfl, pgdir', l, m, hm, rfl⟩⟩
    rw [setKmem_vm, setVm_vm_self]
    exact hgap rfl rfl (by omega) (Nat.sub_le _ _) fun u hu => hm.outside u (.inl hu)
  · have hshort : k.kmem.freelist.length < (k.regions key).pageCount := by
      by_contra hge
      exact Bool.false_ne_true (henough (Nat.not_lt.mp hge))
    refine ⟨_, _, rfl, ⟨rfl, fun q hq => setVm_vm_of_ne _ _ hq, hf.kdata⟩, ⟨pgdir', ?_, ?_⟩,
      .inr ⟨hf.failed, hshort⟩⟩
    · exact congrArg ProcVm.pgdir (setVm_vm_self ..)
    · show GapOk ((k.setVm p _).vm p) pgdir'
      rw [setVm_vm_self]
      exact hgap rfl rfl (by omega) hle fun u hu => hf.outside u (.inl hu)

/-- When no `kalloc` fails, there was room: the memory of the process is in the way otherwise. -/
theorem mapSharedRegion_noFail (h : InvCore k) (hp : k.Live p) (hnew : ¬ (k.vm p).Holds key)
    {r : Option ℕ} (hok : mapSharedRegion k p key = .ok (r, k')) (hno : k'.kmem.NoFail) :
    ∃ pgdir pgdir' l m, (k.vm p).pgdir = some pgdir ∧
      pages (k.vm p).sz + (k.regions key).pageCount ≤ (k.vm p).top ∧
      MappedDown (k.regions key).pages (k.regions key).pageCount 0 (k.vm p).top l pgdir pgdir'
        k.kmem m ∧
      k' = ((k.setRegion key { k.regions key with
          refCount := (k.regions key).refCount + 1 }).setVm p
            ((k.vm p).withRegion key (k.regions key).pageCount pgdir')).setKmem m := by
  obtain ⟨pgdir, kstack, hd, -, hs⟩ := h.space p hp
  have hmap : k.mapped ((k.vm p).shared key) = false := by
    rw [Bool.eq_false_iff]
    exact fun hm => hnew ((h.mapped_iff p key).mp hm)
  have hroom : pages (k.vm p).sz + (k.regions key).pageCount ≤ (k.vm p).top := by
    have hok := hok
    unfold mapSharedRegion at hok
    simp only [hmap, Bool.false_eq_true, ↓reduceIte, hd] at hok
    obtain ⟨⟨ok, shaddr, pgdir', m⟩, hloop, hrest⟩ := Except.bind_eq_ok.mp hok
    rw [hs.shaddr] at hloop
    have hmem : k'.kmem = m := by
      split at hrest <;> simp only [Except.pure_eq_ok_iff, Prod.mk.injEq] at hrest <;>
        exact hrest.2 ▸ rfl
    exact mapSharedLoop_room hs.pages_pos hs.heap hs.top hs.own hloop (hmem ▸ hno)
  obtain ⟨r', k₁, hok', -, -, hcases⟩ := mapSharedRegion_new hd hs.toGapOk hmap hroom
  rw [hok] at hok'
  cases hok'
  obtain ⟨-, pgdir', l, m, hm, hk'⟩ := hcases.resolve_right fun hf => hf.1 hno
  exact ⟨pgdir, pgdir', l, m, hd, hroom, hm, hk'⟩

/-- Mapping a valid region into a process that does not have it is a local change. -/
theorem mapSharedRegion_change (h : InvCore k) (hp : k.Live p) (hnew : ¬ (k.vm p).Holds key)
    (hv : (k.regions key).valid = true) {r : Option ℕ}
    (hok : mapSharedRegion k p key = .ok (r, k')) (hno : k'.kmem.NoFail) :
    LocalChange k p key k' ∧ (∃ l, Allocated l k.kmem k'.kmem) ∧
      (k'.regions key).valid = true ∧ (k'.regions key).refCount = (k.regions key).refCount + 1 ∧
      ∀ key', (k'.regions key').pageCount = (k.regions key').pageCount ∧
        (k'.regions key').pages = (k.regions key').pages := by
  obtain ⟨pgdir, pgdir', l, m, hd, hroom, hm, rfl⟩ := mapSharedRegion_noFail h hp hnew hok hno
  obtain ⟨pgdir₀, kstack, hd₀, hks, hs⟩ := h.space p hp
  obtain rfl : pgdir₀ = pgdir := Option.some.inj (hd₀.symm.trans hd)
  set n := (k.regions key).pageCount with hn
  set region' := { k.regions key with refCount := (k.regions key).refCount + 1 } with hregion'
  have hreg : ∀ key', (((k.setRegion key region')).regions key').pageCount =
      (k.regions key').pageCount ∧
      (((k.setRegion key region')).regions key').pages = (k.regions key').pages := by
    intro key'
    rcases eq_or_ne key' key with rfl | hne
    · simp [hregion']
    · rw [setRegion_regions_of_ne k _ hne]
      exact ⟨rfl, rfl⟩
  have hlow : 0 < (k.vm p).top - n := by
    have := hs.pages_pos
    omega
  have hframes : pgdir'.frames 0 (pages (k.vm p).sz) = pgdir₀.frames 0 (pages (k.vm p).sz) :=
    PageDir.frames_congr fun u _ hu => hm.outside u (by omega)
  refine ⟨⟨fun q hq => Iff.rfl, fun q hq => ?_, fun key' hk => ?_, fun q hq _ => ?_, fun _ => ?_,
    fun key' => ?_, fun hl => absurd hp hl, fun key' hk => ?_, fun _ => ?_, fun hf => ?_, ?_, ?_,
    hm.mem.kdata⟩, ⟨l, hm.mem⟩, ?_, ?_, ?_⟩
  · exact setVm_vm_of_ne _ _ hq
  · exact setRegion_regions_of_ne k _ hk
  · exact hreg key
  · refine ⟨pgdir', kstack, by simp [ProcVm.withRegion], by simpa [ProcVm.withRegion] using hks, ?_⟩
    simpa using hs.map hnew hroom hm hreg
  · rcases eq_or_ne key' key with rfl | hne
    · refine .inr ?_
      simp only [setKmem_vm, setVm_vm_self, ProcVm.withRegion, Function.update_self, PGSIZE]
      exact ⟨trivial, by omega⟩
    · simp only [setKmem_vm, setVm_vm_self, withRegion_holds_of_ne _ _ _ hne]
      exact h.ref p key'
  · simp only [setKmem_vm, setVm_vm_self, ProcVm.Holds, withRegion_holds_of_ne _ _ _ hk]
  · simpa [hregion'] using h.valid key hv
  · simp [hregion', hv] at hf
  · have hold : (k.vm p).Holds key ↔ False := iff_false_intro hnew
    simp [hold, hregion', ProcVm.withRegion]
  · have hp' : (((k.setRegion key region').setVm p ((k.vm p).withRegion key n pgdir')).setKmem
      m).Live p := hp
    rw [procPages_of_live hp', procPages_of_live hp]
    have howned : region'.owned = (k.regions key).owned := rfl
    simp only [setKmem_kmem, setKmem_vm, setKmem_regions, setVm_regions, setRegion_regions_self,
      howned, setVm_vm_self, ProcVm.owned,
      ProcVm.withRegion, hd, Option.elim_some, hframes, hm.tables, hm.page, hm.mem.freelist,
      ← Multiset.coe_add]
    abel
  · simp [hregion', hv]
  · simp [hregion']
  · exact hreg

/-- `mapSharedRegion` for a process that has the region returns its address. -/
theorem mapSharedRegion_held (h : InvCore k) (hp : (k.vm p).Holds key) :
    mapSharedRegion k p key = .ok (some ((k.vm p).shared key).va, k) := by
  unfold mapSharedRegion
  simp [(h.mapped_iff p key).mpr hp]

end Map

/-! ### `allocSharedVM` -/

section Alloc

variable {k k' : Kernel} {p : Slot} {key : Key}

/-- Creating a region nobody refers to yet is a local change. -/
theorem newRegion_change (h : InvCore k) (p : Slot) (hv : (k.regions key).valid = false) {n : ℕ}
    (hn : 0 < n) (hmax : n ≤ MAX_SH_PAGES) {pages : ℕ → ℕ} {m : Kmem}
    (ha : Allocated (pageRange pages 0 n) k.kmem m) :
    LocalChange k p key ((k.setRegion key ⟨true, 0, n, pages⟩).setKmem m) := by
  have hnone := h.not_holds hv
  refine ⟨fun q _ => Iff.rfl, fun q _ => rfl, fun key' hk => setRegion_regions_of_ne k _ hk,
    fun q _ hq => absurd hq (hnone q), fun hl => ?_, h.ref p, h.unused p, fun _ _ => Iff.rfl,
    fun _ => by simpa using ⟨hn, hmax⟩, fun hf => by simp at hf, ?_, ?_, ha.kdata⟩
  · obtain ⟨pgdir, kstack, hd, hks, hs⟩ := h.space p hl
    refine ⟨pgdir, kstack, hd, hks, hs.congr fun key' hk => ?_⟩
    have hne : key' ≠ key := by
      rintro rfl
      exact hnone p hk
    simp [setRegion_regions_of_ne k _ hne]
  · rw [setKmem_regions, setRegion_regions_self, (h.invalid key hv).1]
    rfl
  · have hpp : ((k.setRegion key ⟨true, 0, n, pages⟩).setKmem m).procPages p = k.procPages p := rfl
    rw [hpp, owned_of_not_valid hv, setKmem_regions, setRegion_regions_self, owned_of_valid rfl,
      setKmem_kmem, ha.freelist, ← Multiset.coe_add]
    abel

/-- **`GetSharedPage`**, when no `kalloc` fails, keeps the invariant and only takes pages. -/
theorem allocSharedVM_spec (h : Inv k) (hp : k.Live p) {i count : ℤ} {r : Option ℕ}
    (hok : allocSharedVM k p i count = .ok (r, k')) (hno : k'.kmem.NoFail) :
    Inv k' ∧ Takes k k' := by
  unfold allocSharedVM at hok
  split at hok
  · cases hok
    exact ⟨h, .refl k⟩
  · next key _ =>
    split at hok
    · cases hok
      exact ⟨h, .refl k⟩
    · simp only at hok
      split at hok
      · next hv =>
        split at hok
        · cases hok
          exact ⟨h, .refl k⟩
        · by_cases hh : (k.vm p).Holds key
          · rw [mapSharedRegion_held h.toInvCore hh] at hok
            cases hok
            exact ⟨h, .refl k⟩
          · obtain ⟨hc, hmem, hv', href, hreg⟩ :=
              mapSharedRegion_change h.toInvCore hp hh hv hok hno
            refine ⟨⟨hc.inv h.toInvCore, fun key' hk => ?_⟩, hmem, hc.census_eq, fun key' hk => ?_⟩
            · rcases eq_or_ne key' key with rfl | hne
              · have := h.pos key' hv
                omega
              · rw [hc.regions key' hne] at hk ⊢
                exact h.pos key' hk
            · rcases eq_or_ne key' key with rfl | hne
              · exact ⟨hv', hreg key'⟩
              · rw [hc.regions key' hne]
                exact ⟨hk, rfl, rfl⟩
      · next hv =>
        have hv : (k.regions key).valid = false := by simpa using hv
        split at hok
        · next pages m hloop =>
          cases hok
          obtain ⟨-, ⟨hf, -⟩ | ⟨-, -, hfail, -⟩⟩ := allocSharedLoop_spec _ _ hloop
          · cases hf
          · exact absurd hno hfail
        · next pages m hloop =>
          obtain ⟨-, ⟨-, ha⟩ | ⟨hf, -⟩⟩ := allocSharedLoop_spec _ _ hloop
          · have hc := newRegion_change h.toInvCore p hv (by omega) (by omega) ha
            have hcore := hc.inv h.toInvCore
            obtain ⟨hc', ⟨l, ha'⟩, hv', href, -⟩ :=
              mapSharedRegion_change hcore hp (h.not_holds hv p) (by simp) hok hno
            have hregs : ∀ key', key' ≠ key → k'.regions key' = k.regions key' := fun key' hne =>
              (hc'.regions key' hne).trans (hc.regions key' hne)
            refine ⟨⟨hc'.inv hcore, fun key' hk => ?_⟩, ⟨_, ha.trans ha'⟩,
              hc'.census_eq.trans hc.census_eq, fun key' hk => ?_⟩
            · rcases eq_or_ne key' key with rfl | hne
              · rw [href]
                simp
              · rw [hregs key' hne] at hk ⊢
                exact h.pos key' hk
            · have hne : key' ≠ key := by
                rintro rfl
                rw [hv] at hk
                cases hk
              rw [hregs key' hne]
              exact ⟨hk, rfl, rfl⟩
          · cases hf

end Alloc

/-! ### `deallocProcSharedVM` -/

section Dealloc

variable {k k' : Kernel} {p : Slot} {key : Key}

/-- The memory of a process after its reference to a region was dropped. -/
def ProcVm.withoutRegion (v : ProcVm) (key : Key) (pgdir : PageDir) : ProcVm :=
  { v with pgdir := some pgdir, shared := Function.update v.shared key ⟨none, 0⟩ }

theorem withoutRegion_shared_of_ne (v : ProcVm) {key key' : Key} (pgdir : PageDir)
    (h : key' ≠ key) : (v.withoutRegion key pgdir).shared key' = v.shared key' :=
  Function.update_of_ne h ..

theorem not_holds_withoutRegion (v : ProcVm) (key : Key) (pgdir : PageDir) :
    ¬ (v.withoutRegion key pgdir).Holds key := by
  simp [ProcVm.withoutRegion, ProcVm.Holds]

/-- Clearing entries keeps the gap. -/
theorem GapOk.clear {v v' : ProcVm} {pgdir pgdir' : PageDir} (h : GapOk v pgdir)
    (hsz : v'.sz = v.sz) (hsh : v'.shaddr = v.shaddr)
    (hent : ∀ u, (pgdir'.entry u).p = true → pgdir'.entry u = pgdir.entry u) : GapOk v' pgdir' := by
  refine gapOk_of_shaddr (hsh.trans h.shaddr) (by rw [hsz]; exact h.heap) h.top fun u hlo hhi => ?_
  rw [Bool.eq_false_iff]
  intro hp
  have habs := h.gap u (by rwa [hsz] at hlo) hhi
  rw [← hent u hp, hp] at habs
  cases habs

/-- The address space after a region was unmapped. -/
theorem SpaceOk.unmap {regions regions' : Key → SharedRegion} {v : ProcVm} {pgdir pgdir' : PageDir}
    (h : SpaceOk regions v pgdir) (hk : v.Holds key)
    (hapart : ∀ key', key' ≠ key → v.Holds key' → ∀ u, v.base key' ≤ u →
      u < v.base key' + (regions key').pageCount →
      u < v.base key ∨ v.base key + (regions key).pageCount ≤ u)
    (hin : ∀ j, j < (regions key).pageCount → pgdir'.entry (v.base key + j) = .zero)
    (hout : ∀ u, u < v.base key ∨ v.base key + (regions key).pageCount ≤ u →
      pgdir'.entry u = pgdir.entry u)
    (hr : ∀ key', key' ≠ key → regions' key' = regions key') :
    SpaceOk regions' (v.withoutRegion key pgdir') pgdir' := by
  have hlow := h.low key hk
  have hhigh := h.high key hk
  have htop : (v.withoutRegion key pgdir').top = v.top := rfl
  have hne_of : ∀ key', (v.withoutRegion key pgdir').Holds key' → key' ≠ key := by
    rintro key' hh rfl
    exact not_holds_withoutRegion v key' pgdir' hh
  have hbase : ∀ key', key' ≠ key → (v.withoutRegion key pgdir').base key' = v.base key' := by
    intro key' hne
    simp only [ProcVm.base, withoutRegion_shared_of_ne v pgdir' hne]
  have hholds : ∀ key', key' ≠ key →
      ((v.withoutRegion key pgdir').Holds key' ↔ v.Holds key') := by
    intro key' hne
    simp only [ProcVm.Holds, withoutRegion_shared_of_ne v pgdir' hne]
  have hgap : GapOk (v.withoutRegion key pgdir') pgdir' := h.toGapOk.clear rfl rfl fun u hu => by
    by_cases hin' : v.base key ≤ u ∧ u < v.base key + (regions key).pageCount
    · rw [show u = v.base key + (u - v.base key) by omega, hin _ (by omega)] at hu
      cases hu
    · exact hout u (by omega)
  refine ⟨hgap, h.size, fun u hu => ?_, fun key' hk' => ?_, fun key' hk' => ?_, fun key' hk' => ?_,
    fun key' hk' j hj => ?_, fun u hlo hhi hp => ?_, fun u hu => ?_⟩
  · change u < pages v.sz at hu
    have := h.heap
    rw [hout u (by omega)]
    exact h.own u hu
  · have hne := hne_of key' hk'
    rw [hbase key' hne, withoutRegion_shared_of_ne v pgdir' hne]
    exact h.va key' ((hholds key' hne).mp hk')
  · have hne := hne_of key' hk'
    rw [hbase key' hne]
    exact h.low key' ((hholds key' hne).mp hk')
  · have hne := hne_of key' hk'
    rw [hbase key' hne, hr key' hne]
    exact h.high key' ((hholds key' hne).mp hk')
  · have hne := hne_of key' hk'
    have hv := (hholds key' hne).mp hk'
    rw [hr key' hne] at hj ⊢
    rw [hbase key' hne, hout _ (hapart key' hne hv _ (by omega) (by omega))]
    exact h.held key' hv j hj
  · by_cases hu : v.base key ≤ u ∧ u < v.base key + (regions key).pageCount
    · rw [show u = v.base key + (u - v.base key) by omega, hin _ (by omega)] at hp
      cases hp
    · rw [hout u (by omega)] at hp
      obtain ⟨key', hk', h₁, h₂⟩ := h.only u hlo hhi hp
      have hne : key' ≠ key := by
        rintro rfl
        exact hu ⟨h₁, h₂⟩
      exact ⟨key', (hholds key' hne).mpr hk', by rw [hbase key' hne]; exact h₁,
        by rw [hbase key' hne, hr key' hne]; exact h₂⟩
  · rw [hout u (by omega)]
    exact h.kernel u hu

/-- The process `p` without its reference to the region: the page directory that
`deallocProcSharedVM` leaves. -/
theorem clearShared_of_held (h : InvCore k) {pgdir : PageDir}
    (hs : SpaceOk k.regions (k.vm p) pgdir) (hk : (k.vm p).Holds key) :
    ∃ pgdir', clearSharedLoop ((k.vm p).shared key).va (k.regions key).pageCount 0 pgdir k.kmem =
        (true, pgdir') ∧ PageDir.SameTables pgdir pgdir' ∧
      pgdir'.frames 0 (pages (k.vm p).sz) = pgdir.frames 0 (pages (k.vm p).sz) ∧
      ∀ regions', (∀ key', key' ≠ key → regions' key' = k.regions key') →
        SpaceOk regions' ((k.vm p).withoutRegion key pgdir') pgdir' := by
  have hlow := hs.low key hk
  have hhigh := hs.high key hk
  have hheap := hs.heap
  obtain ⟨pgdir', hloop, hsame, hin, hout⟩ := clearSharedLoop_spec ((k.vm p).base key)
    k.kmem (k.regions key).pageCount 0 pgdir (by simp only [KERNPAGE] at hhigh; omega)
    fun j _ hj => by rw [hs.held key hk j (by omega)]; rfl
  refine ⟨pgdir', by rw [hs.va key hk]; exact hloop, hsame, ?_, fun regions' hr => ?_⟩
  · exact PageDir.frames_congr fun u _ hu => hout u (by omega)
  · refine hs.unmap hk (fun key' hne hk' u h₁ h₂ => ?_) (fun j hj => hin j (by omega) (by omega))
      (fun u hu => hout u (by omega)) hr
    by_contra hc
    exact hne (hs.apart h hk hk' (by omega) (by omega) h₁ h₂)

/-- The end of `deallocProcSharedVM` on a valid region: the last reference frees the pages. -/
theorem dropRegion_spec (hv : (k.regions key).valid = true) {r : ℤ}
    (hok : dropRegion k key = .ok (r, k')) :
    (r = (k.regions key).refCount - 1) ∧
    ((k.regions key).refCount = 1 ∧ (∃ (l : List ℕ) (pages' : ℕ → ℕ) (m : Kmem),
        (l : Multiset ℕ) = (k.regions key).owned ∧ Freed l k.kmem m ∧
        k' = (k.setRegion key ⟨false, 0, 0, pages'⟩).setKmem m) ∨
      (k.regions key).refCount ≠ 1 ∧
        k' = k.setRegion key { k.regions key with refCount := (k.regions key).refCount - 1 }) := by
  unfold dropRegion at hok
  simp only [hv, ↓reduceIte] at hok
  split at hok
  · next hz =>
    obtain ⟨⟨pages', m⟩, hloop, hrest⟩ := Except.bind_eq_ok.mp hok
    obtain ⟨rfl, rfl⟩ : (k.regions key).refCount - 1 = r ∧ _ = k' := by simpa using hrest
    obtain ⟨l, hl, hf⟩ := freeSharedLoop_spec _ _ hloop
    refine ⟨rfl, .inl ⟨by omega, l, pages', m, ?_, hf, ?_⟩⟩
    · rw [hl, owned_of_valid hv]
    · rw [hz]
  · obtain ⟨rfl, rfl⟩ : (k.regions key).refCount - 1 = r ∧ _ = k' := by simpa using hok
    exact ⟨rfl, .inr ⟨by omega, by simp only [hv]⟩⟩

/-- The reference of `p` to a region was dropped; the rest of `p` and every other process are as
before. -/
structure Dropped (k : Kernel) (p : Slot) (key : Key) (k' : Kernel) : Prop extends
    OnlyVm p k k' where
  self : ∃ pgdir, k'.vm p = (k.vm p).withoutRegion key pgdir

/-- Dropping a region touches no process. -/
theorem dropRegion_frame {r : ℤ} (h : dropRegion k key = .ok (r, k')) :
    k'.proc = k.proc ∧ k'.vm = k.vm ∧ k'.kmem.kdata = k.kmem.kdata := by
  unfold dropRegion at h
  simp only at h
  split at h
  · split at h
    · obtain ⟨⟨pgs, m⟩, hloop, hrest⟩ := Except.bind_eq_ok.mp h
      obtain ⟨l, -, hf⟩ := freeSharedLoop_spec _ _ hloop
      simp only [Except.pure_eq_ok_iff, Prod.mk.injEq] at hrest
      rw [← hrest.2]
      exact ⟨rfl, rfl, hf.kdata⟩
    · cases h
      exact ⟨rfl, rfl, rfl⟩
  · cases h
    exact ⟨rfl, rfl, rfl⟩

/-- **`FreeSharedPage` changes the caller only**, and keeps its gap. -/
theorem deallocProcSharedVM_frame {i r : ℤ} (hok : deallocProcSharedVM k p i = .ok (r, k')) :
    OnlyVm p k k' ∧ (GapAt k p → GapAt k' p) := by
  unfold deallocProcSharedVM at hok
  split at hok
  · cases hok
    exact ⟨.refl p _, id⟩
  · simp only at hok
    split at hok
    · cases hok
      exact ⟨.refl p _, id⟩
    · split at hok
      · cases hok
      · next pgdir hd =>
        -- the entries that are still present have not changed
        have hgap : ∀ {va n ok pgdir' v}, clearSharedLoop va n 0 pgdir k.kmem = (ok, pgdir') →
            v.sz = (k.vm p).sz → v.shaddr = (k.vm p).shaddr → GapAt k p → GapOk v pgdir' := by
          rintro va n ok pgdir' v hloop hsz hsh ⟨d, hd', hg⟩
          obtain rfl : pgdir = d := Option.some.inj (hd.symm.trans hd')
          refine hg.clear hsz hsh fun u hu => ?_
          rcases clearSharedLoop_entry _ _ hloop u with he | he
          · exact he
          · rw [he] at hu
            cases hu
        split at hok
        · next pgdir' hloop =>
          cases hok
          refine ⟨⟨rfl, fun q hq => setVm_vm_of_ne _ _ hq, rfl⟩, fun hg => ⟨pgdir', by simp, ?_⟩⟩
          rw [setVm_vm_self]
          exact hgap hloop rfl rfl hg
        · next pgdir' hloop =>
          obtain ⟨hproc, hvm, hkd⟩ := dropRegion_frame hok
          refine ⟨⟨hproc, fun q hq => ?_, hkd⟩, fun hg => ⟨pgdir', by rw [hvm]; simp, ?_⟩⟩
          · rw [hvm]
            exact setVm_vm_of_ne _ _ hq
          · rw [hvm, setVm_vm_self]
            exact hgap hloop rfl rfl hg

/-- Dropping a reference is a local change that frees pages only. -/
theorem dropRegion_change (h : Inv k) (hp : k.Live p) (hk : (k.vm p).Holds key)
    {pgdir pgdir' : PageDir} {kstack : ℕ} (hd : (k.vm p).pgdir = some pgdir)
    (hks : (k.vm p).kstack = some kstack) (hsame : PageDir.SameTables pgdir pgdir')
    (hframes : pgdir'.frames 0 (pages (k.vm p).sz) = pgdir.frames 0 (pages (k.vm p).sz))
    (hspace : ∀ regions', (∀ key', key' ≠ key → regions' key' = k.regions key') →
      SpaceOk regions' ((k.vm p).withoutRegion key pgdir') pgdir') {r : ℤ}
    (hok : dropRegion (k.setVm p ((k.vm p).withoutRegion key pgdir')) key = .ok (r, k')) :
    Inv k' ∧ Frees p k k' ∧ Dropped k p key k' ∧ r = Table.tally (ProcVm.Holds key) k'.vm := by
  have hv := h.valid_of_holds hk
  have hpos := h.pos key hv
  have howned : ((k.vm p).withoutRegion key pgdir').owned = (k.vm p).owned := by
    simp only [ProcVm.owned, ProcVm.withoutRegion, hd, Option.elim_some, hsame.page,
      hsame.tables_eq, hframes]
  obtain ⟨hr, hcases⟩ := dropRegion_spec (k := k.setVm p _) hv hok
  simp only [setVm_regions] at hr hcases
  -- both cases change the reference of `p` and the region `key`, and nothing else of a process
  obtain ⟨hproc, hvm, hkdata⟩ := dropRegion_frame hok
  have hregs : ∀ key', key' ≠ key → k'.regions key' = k.regions key' := by
    intro key' hne
    rcases hcases with ⟨-, l, pages', m, -, -, rfl⟩ | ⟨-, rfl⟩ <;>
      exact setRegion_regions_of_ne _ _ hne
  have hself : k'.vm p = (k.vm p).withoutRegion key pgdir' := by rw [hvm, setVm_vm_self]
  have honly : OnlyVm p k k' :=
    ⟨hproc, fun q hq => by rw [hvm, setVm_vm_of_ne _ _ hq], hkdata⟩
  have hpp : k'.procPages p = k.procPages p := by
    rw [procPages_of_live ((honly.live p).mpr hp), procPages_of_live hp, hself, howned]
  have hnot : ¬ (k'.vm p).Holds key := by
    rw [hself]
    exact not_holds_withoutRegion _ _ _
  have hmem : ∃ l, Freed l k.kmem k'.kmem := by
    rcases hcases with ⟨-, l, pages', m, -, hf, rfl⟩ | ⟨-, rfl⟩
    · exact ⟨l, hf⟩
    · exact ⟨[], .refl _⟩
  have hc : LocalChange k p key k' := by
    refine ⟨fun q _ => honly.live q, honly.vm, hregs, fun q hq hq' => ?_,
      fun _ => ?_, fun key' => ?_,
      fun hl => absurd ((honly.live p).mpr hp) hl, fun key' hne => ?_,
        fun hval => ?_, fun hinv => ?_,
      ?_, ?_, ?_⟩
    · -- a second holder excludes the case that frees the region
      have htwo := Table.one_lt_tally (ProcVm.Holds key) hq' hk hq
      rcases hcases with ⟨hone, -⟩ | ⟨-, rfl⟩
      · rw [h.count key] at hone
        omega
      · simp
    · rw [hself]
      exact ⟨pgdir', kstack, rfl, hks, hspace _ hregs⟩
    · rw [hself]
      rcases eq_or_ne key' key with rfl | hne
      · exact .inl (Function.update_self ..)
      · rw [withoutRegion_shared_of_ne _ _ hne]
        exact h.ref p key'
    · rw [hself]
      simp only [ProcVm.Holds, withoutRegion_shared_of_ne _ _ hne]
    · rcases hcases with ⟨-, l, pages', m, -, -, rfl⟩ | ⟨-, rfl⟩
      · simp at hval
      · simpa using h.valid key hv
    · rcases hcases with ⟨-, l, pages', m, -, -, rfl⟩ | ⟨-, rfl⟩
      · simp
      · simp [hv] at hinv
    · rw [if_pos hk, if_neg hnot]
      rcases hcases with ⟨hone, l, pages', m, -, -, rfl⟩ | ⟨-, rfl⟩
      · simp [hone]
      · simp
    · rw [hpp]
      rcases hcases with ⟨-, l, pages', m, hl, hf, rfl⟩ | ⟨-, rfl⟩
      · rw [setKmem_kmem, hf.freelist, setVm_kmem, setKmem_regions, setRegion_regions_self,
          owned_of_not_valid rfl, ← Multiset.coe_add, hl]
        abel
      · rw [setRegion_regions_self]
        rfl
    · exact hkdata
  have hcore := hc.inv h.toInvCore
  refine ⟨⟨hcore, fun key' hval => ?_⟩, ⟨hmem, hc.census_eq, fun q => ?_, fun key' hval => ?_,
    fun q hq => by rw [honly.vm q hq]⟩, ⟨honly, pgdir', hself⟩, ?_⟩
  · rcases eq_or_ne key' key with rfl | hne
    · rcases hcases with ⟨-, l, pages', m, -, -, rfl⟩ | ⟨hmore, rfl⟩
      · simp at hval
      · rw [setRegion_regions_self]
        change 0 < (k.regions key').refCount - 1
        omega
    · rw [hregs key' hne] at hval ⊢
      exact h.pos key' hval
  · rcases eq_or_ne q p with rfl | hq
    · rw [hpp]
    · rw [hc.procPages_of_ne hq]
  · rcases eq_or_ne key' key with rfl | hne
    · rcases hcases with ⟨-, l, pages', m, -, -, rfl⟩ | ⟨-, rfl⟩
      · simp at hval
      · simp [hv]
    · rw [hregs key' hne] at hval ⊢
      exact ⟨hval, rfl, rfl⟩
  · rw [← hcore.count key, hr]
    rcases hcases with ⟨hone, l, pages', m, -, -, rfl⟩ | ⟨-, rfl⟩
    · simp [hone]
    · simp

/-- **`FreeSharedPage`** keeps the invariant and only frees pages. It returns `-1` and does nothing
when the caller does not refer to the region; otherwise it returns the number of processes that
still do. -/
theorem deallocProcSharedVM_spec (h : Inv k) (hp : k.Live p) {i r : ℤ}
    (hok : deallocProcSharedVM k p i = .ok (r, k')) :
    Inv k' ∧ Frees p k k' ∧
      ((r = -1 ∧ k' = k ∧ ∀ key, keyOf i = some key → ¬ (k.vm p).Holds key) ∨
        ∃ key, keyOf i = some key ∧ (k.vm p).Holds key ∧ Dropped k p key k' ∧
          r = Table.tally (ProcVm.Holds key) k'.vm) := by
  obtain ⟨pgdir, kstack, hd, hks, hs⟩ := h.space p hp
  unfold deallocProcSharedVM at hok
  split at hok
  · next hkey =>
    cases hok
    exact ⟨h, .refl p _, .inl ⟨rfl, rfl, fun key hk => by rw [hkey] at hk; cases hk⟩⟩
  · next key hkey =>
    simp only at hok
    split at hok
    · next hnone =>
      cases hok
      refine ⟨h, .refl p _, .inl ⟨rfl, rfl, fun key' hk' hh => ?_⟩⟩
      obtain rfl : key = key' := Option.some.inj (hkey.symm.trans hk')
      rcases h.ref p key with hr | ⟨hr, hva⟩
      · simp [ProcVm.Holds, hr] at hh
      · rcases hnone with hn | hn
        · exact hh hn
        · exact hva hn
    · next hsome =>
      have hk : (k.vm p).Holds key := fun hn => hsome (.inl hn)
      obtain ⟨pgdir', hloop, hsame, hframes, hspace⟩ := clearShared_of_held h.toInvCore hs hk
      simp only [hd, hloop] at hok
      obtain ⟨hinv, hfr, hdrop, hr⟩ := dropRegion_change h hp hk hd hks hsame hframes hspace hok
      exact ⟨hinv, hfr, .inr ⟨key, hkey, hk, hdrop, hr⟩⟩

end Dealloc

end Xv6.Shared
