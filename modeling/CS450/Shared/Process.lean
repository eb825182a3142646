import CS450.Shared.Mapping

/-!
# `sbrk`, `fork`, `exit` and `wait` keep the invariant

Growing and shrinking a process exchanges pages between the free list and that process; `fork`
fills an unused slot, and `wait` empties one after dropping its references. `exit` changes only the
scheduling state.
-/

namespace Xv6.Shared

open Function (update update_of_ne update_self)

variable {k k' : Kernel} {p : Slot}

/-! ### Resizing a process -/

/-- The memory of a process with another size and page directory. -/
def ProcVm.resize (v : ProcVm) (sz : ℕ) (pgdir : PageDir) : ProcVm :=
  { v with sz := sz, pgdir := some pgdir }

/-- The kernel after the memory of `p` was resized. -/
def Kernel.resize (k : Kernel) (p : Slot) (sz : ℕ) (pgdir : PageDir) (m : Kmem) : Kernel :=
  (k.setVm p ((k.vm p).resize sz pgdir)).setKmem m

section Resize

variable (k : Kernel) (p : Slot) (sz : ℕ) (pgdir : PageDir) (m : Kmem)

@[simp] theorem resize_vm_self : (k.resize p sz pgdir m).vm p = (k.vm p).resize sz pgdir :=
  setVm_vm_self ..

theorem resize_vm_of_ne {p q : Slot} (h : q ≠ p) : (k.resize p sz pgdir m).vm q = k.vm q :=
  setVm_vm_of_ne _ _ h

@[simp] theorem resize_regions : (k.resize p sz pgdir m).regions = k.regions := rfl

@[simp] theorem resize_kmem : (k.resize p sz pgdir m).kmem = m := rfl

theorem resize_live (q : Slot) : (k.resize p sz pgdir m).Live q ↔ k.Live q := Iff.rfl

theorem resize_self {pgdir : PageDir} (h : (k.vm p).pgdir = some pgdir) :
    k.resize p (k.vm p).sz pgdir k.kmem = k := by
  have hv : (k.vm p).resize (k.vm p).sz pgdir = k.vm p := by
    simp [ProcVm.resize, ← h]
  simp [Kernel.resize, hv, Kernel.setVm, Kernel.setKmem]

end Resize

variable {n r : ℤ} {newsz : ℕ} {regions : Key → SharedRegion} {v : ProcVm} {pgdir' : PageDir}
  {l : List ℕ} {key : Key}

/-- What `growproc` does with the result of `allocuvm` or `deallocuvm`: a result of `0` leaves the
size as it was. -/
theorem growproc_cases {pgdir : PageDir} (hd : (k.vm p).pgdir = some pgdir)
    (hok : growproc k p n = .ok (r, k')) :
    (0 < n ∧ ∃ sz pgdir' m,
      allocuvm (k.vm p).shaddr pgdir (k.vm p).sz (addInt32 (k.vm p).sz n) k.kmem =
        .ok (sz, pgdir', m) ∧ k' = k.resize p (if sz = 0 then (k.vm p).sz else sz) pgdir' m) ∨
    (n < 0 ∧ ∃ sz pgdir' m,
      deallocuvm pgdir (k.vm p).sz (addInt32 (k.vm p).sz n) k.kmem = .ok (sz, pgdir', m) ∧
        k' = k.resize p (if sz = 0 then (k.vm p).sz else sz) pgdir' m) ∨
    (n = 0 ∧ k' = k) := by
  have hres : ∀ {sz : ℕ} {pgdir' : PageDir} {m : Kmem},
      (let k₁ := (k.setVm p { k.vm p with pgdir := some pgdir' }).setKmem m
        if sz = 0 then (pure (-1, k₁) : Except Fault (ℤ × Kernel))
        else do
          switchuvm (k₁.vm p)
          pure (0, k₁.setVm p { k₁.vm p with sz := sz })) = .ok (r, k') →
      k' = k.resize p (if sz = 0 then (k.vm p).sz else sz) pgdir' m := by
    intro sz pgdir' m h
    simp only at h
    split at h
    · next hz =>
      simp only [Except.pure_eq_ok_iff, Prod.mk.injEq] at h
      rw [if_pos hz, ← h.2]
      rfl
    · next hz =>
      obtain ⟨-, -, h⟩ := Except.bind_eq_ok.mp h
      simp only [Except.pure_eq_ok_iff, Prod.mk.injEq] at h
      rw [if_neg hz, ← h.2]
      simp [Kernel.resize, ProcVm.resize, Kernel.setVm, Kernel.setKmem]
  unfold growproc at hok
  simp only [hd] at hok
  split at hok
  · next hpos =>
    obtain ⟨⟨sz, pgdir', m⟩, ha, hrest⟩ := Except.bind_eq_ok.mp hok
    exact .inl ⟨hpos, sz, pgdir', m, ha, hres hrest⟩
  · split at hok
    · next hneg =>
      obtain ⟨⟨sz, pgdir', m⟩, ha, hrest⟩ := Except.bind_eq_ok.mp hok
      exact .inr (.inl ⟨hneg, sz, pgdir', m, ha, hres hrest⟩)
    · obtain ⟨-, -, hrest⟩ := Except.bind_eq_ok.mp hok
      simp only [Except.pure_eq_ok_iff, Prod.mk.injEq] at hrest
      exact .inr (.inr ⟨by omega, hrest.2.symm⟩)

/-! ### `sbrk` -/

/-- Resizing a process is a local change when the pages add up. -/
theorem resize_change (h : InvCore k) (hp : k.Live p) {pgdir : PageDir} {sz : ℕ} {m : Kmem}
    (hs : SpaceOk k.regions ((k.vm p).resize sz pgdir) pgdir) (hkd : m.kdata = k.kmem.kdata)
    (hacc : (m.freelist : Multiset ℕ) + ((k.vm p).resize sz pgdir).owned =
      (k.kmem.freelist : Multiset ℕ) + (k.vm p).owned) :
    LocalChange k p 0 (k.resize p sz pgdir m) := by
  have hlive := (resize_live k p sz pgdir m p).mpr hp
  refine ⟨fun q _ => Iff.rfl, fun q hq => resize_vm_of_ne k sz pgdir m hq, fun _ _ => rfl,
    fun _ _ _ => ⟨rfl, rfl⟩, fun _ => ?_, fun key => ?_, fun hl => absurd hlive hl, fun key _ => ?_,
    h.valid 0, h.invalid 0, ?_, ?_, hkd⟩
  · obtain ⟨-, kstack, -, hks, -⟩ := h.space p hp
    rw [resize_vm_self]
    exact ⟨pgdir, kstack, rfl, hks, hs⟩
  · rw [resize_vm_self]
    exact h.ref p key
  · rw [resize_vm_self]
    exact Iff.rfl
  · rw [resize_vm_self]
    rfl
  · rw [procPages_of_live hlive, procPages_of_live hp, resize_vm_self, resize_kmem, hacc]
    rfl

section Gap

variable {pgdir : PageDir} {m m' : Kmem}

theorem GapOk.grown (h : GapOk v pgdir) (hle : v.sz ≤ newsz) (hlt : newsz < v.shaddr)
    (hg : Grown (pages v.sz) (pages newsz) l pgdir pgdir' m m') :
    GapOk (v.resize newsz pgdir') pgdir' := by
  have hpp : pages v.sz ≤ pages newsz := Nat.div_le_div_right (by omega)
  refine ⟨h.shaddr, h.top_of_lt hlt, h.top, fun u hlo hhi => ?_⟩
  rw [hg.outside u (.inr hlo)]
  exact h.gap u (hpp.trans hlo) hhi

theorem GapOk.undone (h : GapOk v pgdir)
    (hu : Undone (pages v.sz) (pages newsz) pgdir pgdir' m m') :
    GapOk (v.resize v.sz pgdir') pgdir' := by
  refine ⟨h.shaddr, h.heap, h.top, fun u hlo hhi => ?_⟩
  by_cases hin : u < pages newsz
  · exact hu.inside u hlo hin
  · rw [hu.outside u (.inr (by omega))]
    exact h.gap u hlo hhi

theorem GapOk.unmapped (h : GapOk v pgdir)
    (hu : Unmapped (pages newsz) (pages v.sz) l pgdir pgdir' m m') {sz : ℕ}
    (hsz : sz = v.sz ∨ sz = min v.sz newsz) : GapOk (v.resize sz pgdir') pgdir' := by
  have hpages : pages sz = pages v.sz ∨ pages sz = min (pages v.sz) (pages newsz) := by
    simp only [pages]
    omega
  have hheap := h.heap
  refine ⟨h.shaddr, ?_, h.top, fun u hlo hhi => ?_⟩
  · show pages sz ≤ v.top
    omega
  · change pages sz ≤ u at hlo
    rw [hu.entry]
    by_cases hlt : u < pages v.sz
    · exact clearedEntries_absent _ (by omega) hlt
    · rw [clearedEntries_outside _ (by omega)]
      exact h.gap u (by omega) hhi

/-- The address space after the own memory changed and the rest stayed as it was. -/
theorem SpaceOk.resize (h : SpaceOk regions v pgdir) {sz : ℕ} (hpos : 0 < sz)
    (hgap : GapOk (v.resize sz pgdir') pgdir')
    (hown : ∀ u, u < pages sz → (pgdir'.entry u).p = true)
    (hout : ∀ u, v.top ≤ u → pgdir'.entry u = pgdir.entry u) :
    SpaceOk regions (v.resize sz pgdir') pgdir' where
  toGapOk := hgap
  size := hpos
  own := hown
  va := h.va
  low := h.low
  high := h.high
  held key hk j hj := by
    have := h.low key hk
    have hbase : (v.resize sz pgdir').base key = v.base key := rfl
    rw [hbase, hout _ (by omega)]
    exact h.held key hk j hj
  only u hlo hhi hp := by
    rw [hout u hlo] at hp
    exact h.only u hlo hhi hp
  kernel u hu := by
    have := h.top
    rw [hout u (by omega)]
    exact h.kernel u hu

end Gap

/-- Growing: the new pages come from the free list. -/
theorem grow_change (h : InvCore k) (hp : k.Live p) {pgdir : PageDir} {m : Kmem}
    (hd : (k.vm p).pgdir = some pgdir)
    (hs : SpaceOk k.regions (k.vm p) pgdir) (hle : (k.vm p).sz ≤ newsz)
    (hlt : newsz < (k.vm p).shaddr)
    (hg : Grown (pages (k.vm p).sz) (pages newsz) l pgdir pgdir' k.kmem m) :
    LocalChange k p 0 (k.resize p newsz pgdir' m) := by
  have htop := hs.top_of_lt hlt
  have hpp : pages (k.vm p).sz ≤ pages newsz := Nat.div_le_div_right (by omega)
  have hsize := hs.size
  refine resize_change h hp (hs.resize (by omega) (hs.toGapOk.grown hle hlt hg) (fun u hu => ?_)
    fun u hu => hg.outside u (by omega)) hg.mem.kdata ?_
  · by_cases hu' : u < pages (k.vm p).sz
    · rw [hg.outside u (by omega)]
      exact hs.own u hu'
    · exact hg.present (by omega) hu
  · have hold : pgdir'.frames 0 (pages (k.vm p).sz) = pgdir.frames 0 (pages (k.vm p).sz) :=
      PageDir.frames_congr fun u _ hu => hg.outside u (by omega)
    obtain ⟨T, htables, htaken⟩ := hg.taken
    simp only [ProcVm.owned, ProcVm.resize, hd, Option.elim_some, hg.page, hg.mem.freelist, htables,
      htaken, ← Multiset.coe_add, ← pgdir'.frames_append (Nat.zero_le _) hpp, hold]
    abel

/-- Shrinking: the pages above the new size go to the free list. -/
theorem shrink_change (h : InvCore k) (hp : k.Live p) {pgdir : PageDir} {m : Kmem}
    (hd : (k.vm p).pgdir = some pgdir)
    (hs : SpaceOk k.regions (k.vm p) pgdir) (hpos : 0 < newsz)
    (hu : Unmapped (pages newsz) (pages (k.vm p).sz) l pgdir pgdir' k.kmem m) :
    LocalChange k p 0 (k.resize p (min (k.vm p).sz newsz) pgdir' m) ∧
      ((k.vm p).resize (min (k.vm p).sz newsz) pgdir').owned ≤ (k.vm p).owned := by
  have hheap := hs.heap
  have hsize := hs.size
  have hpages : pages (min (k.vm p).sz newsz) = min (pages (k.vm p).sz) (pages newsz) := by
    simp only [pages]
    omega
  have hacc : ((k.vm p).resize (min (k.vm p).sz newsz) pgdir').owned + (l : Multiset ℕ) =
      (k.vm p).owned := by
    have hframes : pgdir'.frames 0 (pages (min (k.vm p).sz newsz)) + (l : Multiset ℕ) =
        pgdir.frames 0 (pages (k.vm p).sz) := by
      rw [hu.frames, PageDir.frames_congr fun u _ hlt => ?_]
      · rcases Nat.le_total (pages newsz) (pages (k.vm p).sz) with hle | hle
        · rw [hpages, min_eq_right hle, PageDir.frames_append _ (Nat.zero_le _) hle]
        · rw [hpages, min_eq_left hle, pgdir.frames_of_le hle, add_zero]
      · rw [hu.entry, clearedEntries_outside _ (by omega)]
    simp only [ProcVm.owned, ProcVm.resize, hd, Option.elim_some, hu.same.page,
      hu.same.tables_eq, ← hframes]
    abel
  refine ⟨resize_change h hp (hs.resize (by omega) (hs.toGapOk.unmapped hu (.inr rfl))
    (fun u hlt => ?_) fun u hlo => ?_) hu.mem.kdata ?_, ?_⟩
  · rw [hu.entry, clearedEntries_outside _ (by omega)]
    exact hs.own u (by omega)
  · rw [hu.entry, clearedEntries_outside _ (by omega)]
  · rw [← hacc, hu.mem.freelist, ← Multiset.coe_add]
    abel
  · rw [← hacc]
    exact Multiset.le_add_right _ _

/-- A local change that touches no region keeps the counts positive. -/
theorem LocalChange.inv_of_regions (hc : LocalChange k p key k') (h : Inv k)
    (hreg : k'.regions = k.regions) : Inv k' where
  toInvCore := hc.inv h.toInvCore
  pos := by
    rw [hreg]
    exact h.pos

theorem takes_of_regions (hc : LocalChange k p key k')
    (ha : Allocated l k.kmem k'.kmem) (hreg : k'.regions = k.regions) : Takes k k' :=
  ⟨⟨l, ha⟩, hc.census_eq, fun key hv => by rw [hreg]; exact ⟨hv, rfl, rfl⟩⟩

/-- The outcomes of `growproc`: nothing changed, the memory was enlarged, that was undone, or the
memory was reduced. -/
inductive GrowResult (k : Kernel) (p : Slot) (n : ℤ) (pgdir : PageDir) : Kernel → Prop
  | same : GrowResult k p n pgdir k
  | grown {newsz l pgdir' m} (hle : (k.vm p).sz ≤ newsz) (hlt : newsz < (k.vm p).shaddr)
      (h : Grown (pages (k.vm p).sz) (pages newsz) l pgdir pgdir' k.kmem m) :
      GrowResult k p n pgdir (k.resize p newsz pgdir' m)
  | undone {newsz pgdir' m} (h : Undone (pages (k.vm p).sz) (pages newsz) pgdir pgdir' k.kmem m) :
      GrowResult k p n pgdir (k.resize p (k.vm p).sz pgdir' m)
  | shrunk {newsz sz l pgdir' m} (hneg : n < 0) (hnew : newsz = addInt32 (k.vm p).sz n)
      (hsz : sz = min (k.vm p).sz newsz ∨ sz = (k.vm p).sz ∧ newsz = 0)
      (h : Unmapped (pages newsz) (pages (k.vm p).sz) l pgdir pgdir' k.kmem m) :
      GrowResult k p n pgdir (k.resize p sz pgdir' m)

theorem growproc_result {pgdir : PageDir} (hd : (k.vm p).pgdir = some pgdir)
    (hg : GapOk (k.vm p) pgdir) (hok : growproc k p n = .ok (r, k')) :
    GrowResult k p n pgdir k' := by
  rcases growproc_cases hd hok with ⟨-, sz, pgdir', m, ha, rfl⟩ | ⟨hneg, sz, pgdir', m, ha, rfl⟩ |
    ⟨-, rfl⟩
  · cases (allocuvm_spec hg.shaddr_le _ _ fun hlt w h₁ h₂ =>
      hg.gap w h₁ (h₂.trans_le (hg.top_of_lt hlt))).holds _ ha with
    | refused =>
      rw [if_pos rfl, resize_self k p hd]
      exact .same
    | smaller =>
      rw [ite_id, resize_self k p hd]
      exact .same
    | grown hlt hle h =>
      rw [show (if addInt32 (k.vm p).sz n = 0 then _ else _) = addInt32 (k.vm p).sz n by
        split <;> omega]
      exact .grown hle hlt h
    | undone _ _ h =>
      rw [if_pos rfl]
      exact .undone h
  · obtain ⟨rfl, l, hu⟩ := deallocuvm_spec hg.sz_le ha
    refine .shrunk hneg rfl ?_ hu
    split <;> omega
  · exact .same

/-- **`sbrk`**, when no `kalloc` fails and the process is not shrunk to nothing, keeps the
invariant; it takes pages, or frees pages of the caller's own memory. -/
theorem growproc_spec (h : Inv k) (hp : k.Live p)
    (hguard : ¬ (n < 0 ∧ addInt32 (k.vm p).sz n = 0)) (hok : growproc k p n = .ok (r, k'))
    (hno : k'.kmem.NoFail) :
    Inv k' ∧ (Takes k k' ∨ Frees p k k' ∧ k'.regions = k.regions) := by
  obtain ⟨pgdir, kstack, hd, -, hs⟩ := h.space p hp
  cases growproc_result hd hs.toGapOk hok with
  | same => exact ⟨h, .inl (.refl _)⟩
  | grown hle hlt hg =>
    have hc := grow_change h.toInvCore hp hd hs hle hlt hg
    exact ⟨hc.inv_of_regions h rfl, .inl (takes_of_regions hc hg.mem rfl)⟩
  | undone hu => exact absurd hno hu.failed
  | @shrunk newsz sz l pgdir' m hneg hnew hsz hu =>
    have hpos : newsz ≠ 0 := fun hz => hguard ⟨hneg, hnew ▸ hz⟩
    obtain rfl := hsz.resolve_right fun hz => hpos hz.2
    obtain ⟨hc, howned⟩ := shrink_change h.toInvCore hp hd hs (Nat.pos_of_ne_zero hpos) hu
    refine ⟨hc.inv_of_regions h rfl, .inr ⟨⟨⟨l, hu.mem⟩, hc.census_eq, fun q => ?_,
      fun _ hv => ⟨hv, rfl, rfl⟩, fun q hq => ?_⟩, rfl⟩⟩
    · rcases eq_or_ne q p with rfl | hq
      · rw [procPages_of_live hp, procPages_of_live ((resize_live ..).mpr hp), resize_vm_self]
        exact howned
      · rw [hc.procPages_of_ne hq]
    · rw [resize_vm_of_ne _ _ _ _ hq]

/-! ### `fork` -/

/-- One slot was written; regions and the other slots are as before. -/
structure SlotSet (k : Kernel) (np : Slot) (c : Proc) (v : ProcVm) (k' : Kernel) : Prop where
  proc : k'.proc = Function.update k.proc np c
  vm : k'.vm = Function.update k.vm np v
  regions : k'.regions = k.regions
  initproc : k'.initproc = k.initproc

/-- `allocproc` finds no slot, or takes one and a kernel stack, or meets a failing `kalloc`. -/
theorem allocproc_cases {o : Option Slot} (h : allocproc k = (o, k')) :
    (findUnused k.proc = none ∧ o = none ∧ k' = k) ∨
    (∃ np, (k.proc np).state = .unused ∧ o = none ∧ AllocFails k.kmem k'.kmem ∧
      SlotSet k np { k.proc np with pid := k.nextpid, state := .unused }
        { k.vm np with shaddr := KERNBASE, kstack := none } k') ∨
    (∃ np kstack, (k.proc np).state = .unused ∧ o = some np ∧ Allocated [kstack] k.kmem k'.kmem ∧
      SlotSet k np { k.proc np with pid := k.nextpid, state := .embryo }
        { k.vm np with shaddr := KERNBASE, kstack := some kstack } k') := by
  unfold allocproc at h
  split at h
  · next hfind =>
    cases h
    exact .inl ⟨hfind, rfl, rfl⟩
  · next np hfind =>
    have hun := findUnused_spec hfind
    simp only at h
    cases hk : kalloc k.kmem with
    | mk a m =>
    rw [setProc_kmem, hk] at h
    rcases kalloc_spec hk with ⟨kstack, rfl, ha⟩ | ⟨rfl, hf⟩
    · cases h
      exact .inr (.inr ⟨np, kstack, hun, rfl, ha, rfl, rfl, rfl, rfl⟩)
    · cases h
      refine .inr (.inl ⟨np, hun, rfl, hf, ?_, rfl, rfl, rfl⟩)
      simp [Kernel.setProc, Kernel.setVm, Kernel.setKmem]

/-- What `fork` does: there is no slot, a `kalloc` failed and the slot is unused again, or the
child is complete. -/
theorem fork_cases {pgdir : PageDir} (hd : (k.vm p).pgdir = some pgdir) (hp : k.Live p)
    (hsz : (k.vm p).sz ≤ KERNBASE) (hlink : k.kmem.LinkOk) (hok : fork k p = .ok (r, k')) :
    (r = -1 ∧ k' = k) ∨
    (r = -1 ∧ ∃ np c v, (k.proc np).state = .unused ∧ c.state = .unused ∧
      v.shared = (k.vm np).shared ∧ SlotSet k np c v k' ∧ ¬ k'.kmem.NoFail ∧
      k'.kmem.kdata = k.kmem.kdata) ∨
    (r = k.nextpid ∧ ∃ np kstack d l m, (k.proc np).state = .unused ∧
      Allocated [kstack] k.kmem m ∧ Draft KernelTable (pages (k.vm p).sz) l d m k'.kmem ∧
      SlotSet k np { k.proc np with pid := k.nextpid, parent := some p, state := .runnable }
        ⟨(k.vm p).sz, some d, some kstack, KERNBASE, (k.vm np).shared⟩ k') := by
  unfold fork at hok
  rcases hal : allocproc k with ⟨o, k₁⟩
  rw [hal] at hok
  rcases allocproc_cases hal with ⟨-, rfl, rfl⟩ | ⟨np, hun, rfl, hf, hset⟩ |
    ⟨np, kstack, hun, rfl, ha, hset⟩
  · cases hok
    exact .inl ⟨rfl, rfl⟩
  · cases hok
    refine .inr (.inl ⟨rfl, np, _, _, hun, ?_, ?_, hset, hf.not_noFail, by rw [hf.2]⟩)
    · rfl
    · rfl
  · have hne : p ≠ np := by
      rintro rfl
      exact hp hun
    have hvp : k₁.vm p = k.vm p := by rw [hset.vm, update_of_ne hne]
    have hpn : k₁.proc np = { k.proc np with pid := k.nextpid, state := .embryo } := by
      rw [hset.proc, update_self]
    simp only [hvp, hd] at hok
    obtain ⟨⟨d, m⟩, hcopy, hrest⟩ := Except.bind_eq_ok.mp hok
    have hlink' : k₁.kmem.LinkOk := by
      obtain ⟨c, hc⟩ := hlink
      exact ⟨c, by rw [ha.kdata]; exact hc⟩
    cases (copyuvm_spec hsz hlink').holds _ hcopy with
    | @made l d _ hc =>
      obtain ⟨rfl, rfl⟩ := hrest
      refine .inr (.inr ⟨by simp [hpn], np, kstack, d, l, k₁.kmem, hun, ha, hc.draft, ?_, ?_,
        hset.regions, hset.initproc⟩)
      · simp [Kernel.setProc, Kernel.setVm, Kernel.setKmem, hset.proc]
      · simp [Kernel.setProc, Kernel.setVm, Kernel.setKmem, hset.vm, update_of_ne hne]
    | failed hrel hfail =>
      obtain ⟨m', hfree, hrest⟩ := Except.bind_eq_ok.mp hrest
      obtain ⟨rfl, rfl⟩ := hrest
      obtain ⟨hfr, -⟩ := kfree_spec hfree
      refine .inr (.inl ⟨rfl, np, { k.proc np with pid := k.nextpid, state := .unused },
        { k.vm np with shaddr := KERNBASE, kstack := none, pgdir := none }, hun, rfl, rfl,
        ⟨?_, ?_, hset.regions, hset.initproc⟩, ?_, ?_⟩)
      · simp [Kernel.setProc, Kernel.setVm, Kernel.setKmem, hset.proc]
      · simp [Kernel.setProc, Kernel.setVm, Kernel.setKmem, hset.vm]
      · exact fun hn => hfail (hn.of_suffix hfr.trace_suffix)
      · exact hfr.kdata.trans (hrel.kdata.trans ha.kdata)

theorem gapOk_of_draft {d : PageDir} {m m' : Kmem} (hsh : v.shaddr = KERNBASE)
    (hsz : pages v.sz ≤ KERNPAGE) (hc : Draft KernelTable (pages v.sz) l d m m') : GapOk v d :=
  gapOk_of_shaddr (hsh.trans KERNBASE_eq) hsz le_rfl hc.absent

/-- The address space of a process that was just made: its own memory and nothing else. -/
theorem spaceOk_of_draft {d : PageDir} {m m' : Kmem} (hpos : 0 < v.sz) (hsh : v.shaddr = KERNBASE)
    (hsz : pages v.sz ≤ KERNPAGE) (hc : Draft KernelTable (pages v.sz) l d m m')
    (hno : ∀ key, ¬ v.Holds key) : SpaceOk regions v d where
  toGapOk := gapOk_of_draft hsh hsz hc
  size := hpos
  own := hc.present
  va key hk := absurd hk (hno key)
  low key hk := absurd hk (hno key)
  high key hk := absurd hk (hno key)
  held key hk := absurd hk (hno key)
  only u hlo hhi := by
    rw [ProcVm.top, hsh, KERNBASE_eq, Nat.mul_div_cancel _ (by decide)] at hlo
    exact absurd hlo (Nat.not_le.mpr hhi)
  kernel := hc.kernel

/-- **`fork`**, when no `kalloc` fails, keeps the invariant and only takes pages. -/
theorem fork_spec (h : Inv k) (hp : k.Live p) (hok : fork k p = .ok (r, k'))
    (hno : k'.kmem.NoFail) : Inv k' ∧ Takes k k' := by
  obtain ⟨pgdir, kstack₀, hd, -, hs⟩ := h.space p hp
  rcases fork_cases hd hp hs.sz_le h.link hok with ⟨-, rfl⟩ | ⟨-, np, c, v, -, -, -, -, hf, -⟩ |
    ⟨-, np, kstack, d, l, m, hun, ha, hc, hset⟩
  · exact ⟨h, .refl _⟩
  · exact absurd hno hf
  · have hdead : ¬ k.Live np := fun hl => hl hun
    have hself : k'.vm np = ⟨(k.vm p).sz, some d, some kstack, KERNBASE, (k.vm np).shared⟩ := by
      rw [hset.vm, update_self]
    have hlive : k'.Live np := by
      simp [Kernel.Live, hset.proc]
    have hchange : LocalChange k np 0 k' := by
      refine ⟨fun q hq => ?_, fun q hq => ?_, fun _ _ => by rw [hset.regions],
        fun _ _ _ => by rw [hset.regions]; exact ⟨rfl, rfl⟩, fun _ => ?_, fun key => ?_,
        fun hl => absurd hlive hl, fun key _ => ?_, ?_, ?_, ?_, ?_, ?_⟩
      · simp [Kernel.Live, hset.proc, update_of_ne hq]
      · rw [hset.vm, update_of_ne hq]
      · refine ⟨d, kstack, by rw [hself], by rw [hself], ?_⟩
        rw [hself, hset.regions]
        exact spaceOk_of_draft hs.size rfl (hs.heap.trans hs.top) hc (h.unused np hdead)
      · rw [hself]
        exact h.ref np key
      · rw [hself]
      · rw [hset.regions]
        exact h.valid 0
      · rw [hset.regions]
        exact h.invalid 0
      · rw [hself, hset.regions]
      · rw [procPages_of_live hlive, procPages_of_not_live hdead, hself, hset.regions, ha.freelist,
          hc.mem.freelist]
        simp only [ProcVm.owned, Option.elim_some, ← Multiset.coe_add, hc.taken,
          Multiset.coe_singleton]
        abel
      · exact hc.mem.kdata.trans ha.kdata
    exact ⟨hchange.inv_of_regions h hset.regions,
      takes_of_regions hchange (ha.trans hc.mem) hset.regions⟩

/-! ### `exit` -/

/-- A change of the scheduling state alone keeps the invariant. -/
theorem Inv.congr (h : Inv k) (hlive : ∀ p, k'.Live p ↔ k.Live p) (hvm : k'.vm = k.vm)
    (hreg : k'.regions = k.regions) (hmem : k'.kmem = k.kmem) : Inv k' ∧ Takes k k' := by
  obtain ⟨hcore, hcensus⟩ := h.toInvCore.congr hlive hvm hreg hmem
  refine ⟨⟨hcore, by rw [hreg]; exact h.pos⟩, ⟨[], by rw [hmem]; exact .refl _⟩, hcensus, ?_⟩
  rw [hreg]
  exact fun _ hv => ⟨hv, rfl, rfl⟩

/-- **`exit`** keeps the invariant and every page. -/
theorem exit_spec (h : Inv k) (hp : k.Live p) (hok : exit k p = .ok k') : Inv k' ∧ Takes k k' := by
  unfold exit at hok
  split at hok
  · cases hok
  · cases hok
    exact h.congr (fun q => not_congr (exitTable_unused hp q)) rfl rfl rfl

/-! ### `wait` -/

theorem keyOf_coe (key : Key) : keyOf ((key : ℕ) : ℤ) = some key := by
  unfold keyOf
  rw [dif_pos ⟨by omega, by omega⟩]
  rfl

/-- What dropping references of `p` leaves alone in `p`. -/
structure Kept (p : Slot) (k k' : Kernel) : Prop where
  kstack : (k'.vm p).kstack = (k.vm p).kstack
  holds : ∀ key, (k'.vm p).Holds key → (k.vm p).Holds key

theorem Kept.refl (p : Slot) (k : Kernel) : Kept p k k := ⟨rfl, fun _ h => h⟩

theorem Dropped.kept (h : Dropped k p key k') : Kept p k k' := by
  obtain ⟨pgdir, hself⟩ := h.self
  refine ⟨by rw [hself]; rfl, fun key' hk => ?_⟩
  rw [hself] at hk
  have hne : key' ≠ key := by
    rintro rfl
    exact not_holds_withoutRegion _ _ _ hk
  rwa [ProcVm.Holds, withoutRegion_shared_of_ne _ _ hne] at hk

/-- Dropping all references of `p` changes no other process. -/
theorem deallocAllLoop_frame :
    ∀ (keys : List Key) {k k' : Kernel}, deallocAllLoop p keys k = .ok k' → OnlyVm p k k' := by
  intro keys
  induction keys with
  | nil =>
    intro k k' hok
    cases hok
    exact .refl p _
  | cons key keys ih =>
    intro k k' hok
    rw [deallocAllLoop] at hok
    split at hok
    · obtain ⟨⟨r, k₁⟩, hdrop, hrest⟩ := Except.bind_eq_ok.mp hok
      exact (deallocProcSharedVM_frame hdrop).1.trans (ih hrest)
    · exact ih hok

/-- The loop of `deallocProcAllSharedVM`, by induction on the keys still to visit: the keys it
visited are no longer held. -/
theorem deallocAllLoop_spec :
    ∀ (keys : List Key) {k k' : Kernel}, Inv k → k.Live p → deallocAllLoop p keys k = .ok k' →
      Inv k' ∧ Frees p k k' ∧ Kept p k k' ∧ ∀ key ∈ keys, ¬ (k'.vm p).Holds key := by
  intro keys
  induction keys with
  | nil =>
    intro k k' h _ hok
    cases hok
    exact ⟨h, .refl p _, .refl p _, by simp⟩
  | cons key keys ih =>
    intro k k' h hp hok
    rw [deallocAllLoop] at hok
    split at hok
    · obtain ⟨⟨r, k₁⟩, hdrop, hrest⟩ := Except.bind_eq_ok.mp hok
      obtain ⟨hinv, hfr, hres⟩ := deallocProcSharedVM_spec h hp hdrop
      have hkept : Kept p k k₁ ∧ ¬ (k₁.vm p).Holds key := by
        rcases hres with ⟨-, rfl, hnot⟩ | ⟨key', hkey, -, hd, -⟩
        · exact ⟨.refl p _, hnot key (keyOf_coe key)⟩
        · obtain rfl : key = key' := Option.some.inj ((keyOf_coe key).symm.trans hkey)
          refine ⟨hd.kept, ?_⟩
          obtain ⟨pgdir, hself⟩ := hd.self
          rw [hself]
          exact not_holds_withoutRegion _ _ _
      obtain ⟨hk₁, hnot⟩ := hkept
      have hp₁ := ((deallocProcSharedVM_frame hdrop).1.live p).mpr hp
      obtain ⟨hinv', hfr', hk', hall⟩ := ih hinv hp₁ hrest
      refine ⟨hinv', hfr.trans hfr', ⟨hk'.kstack.trans hk₁.kstack,
        fun key' hh => hk₁.holds key' (hk'.holds key' hh)⟩, fun key' hmem => ?_⟩
      rcases List.mem_cons.mp hmem with rfl | hmem
      · exact fun hh => hnot (hk'.holds key' hh)
      · exact hall key' hmem
    · next hno =>
      obtain ⟨hinv', hfr', hk', hall⟩ := ih h hp hok
      refine ⟨hinv', hfr', hk', fun key' hmem => ?_⟩
      rcases List.mem_cons.mp hmem with rfl | hmem
      · intro hh
        have hh' := hk'.holds key' hh
        refine hno ⟨(h.mapped_iff p key').mpr hh', ?_⟩
        rcases h.ref p key' with hr | ⟨-, hva⟩
        · simp [ProcVm.Holds, hr] at hh'
        · exact hva
      · exact hall key' hmem

/-- A process without references has no user page outside its own memory. -/
theorem SpaceOk.frames_eq {pgdir : PageDir}
    (h : SpaceOk regions v pgdir) (hno : ∀ key, ¬ v.Holds key) :
    pgdir.frames 0 KERNPAGE = pgdir.frames 0 (pages v.sz) := by
  have hzero : pgdir.frames (pages v.sz) KERNPAGE = 0 :=
    PageDir.frames_eq_zero fun u hlo hhi => ?_
  · rw [← pgdir.frames_append (Nat.zero_le _) (h.heap.trans h.top), hzero, add_zero]
  by_cases hu : u < v.top
  · exact h.gap u hlo hu
  · rw [Bool.eq_false_iff]
    intro hp
    obtain ⟨key, hk, -⟩ := h.only u (by omega) hhi hp
    exact hno key hk

/-- **Reaping** a process empties its slot and changes no other one. -/
theorem reap_frame {c : Slot} (hok : reap k c = .ok k') :
    k'.proc = update k.proc c (k.proc c).reaped ∧ (∀ q, q ≠ c → k'.vm q = k.vm q) ∧
      k'.kmem.kdata = k.kmem.kdata := by
  obtain ⟨k₁, hall, hrest⟩ := Except.bind_eq_ok.mp hok
  obtain ⟨m₁, hkf, hrest⟩ := Except.bind_eq_ok.mp hrest
  obtain ⟨m₂, hvm, hrest⟩ := Except.bind_eq_ok.mp hrest
  simp only [Except.pure_eq_ok_iff] at hrest
  have ho := deallocAllLoop_frame _ hall
  subst hrest
  refine ⟨?_, fun q hq => (setVm_vm_of_ne _ _ hq).trans (ho.vm q hq), ?_⟩
  · rw [← ho.proc]
    rfl
  · cases hd : (k₁.vm c).pgdir with
    | none =>
      rw [hd] at hvm
      cases hvm
    | some pgdir =>
      rw [hd] at hvm
      obtain ⟨l, -, hf⟩ := freevm_spec hvm
      exact hf.kdata.trans ((kfree_spec hkf).1.kdata.trans ho.kdata)

/-- Reaping keeps the invariant and only frees pages. -/
theorem reap_spec {c : Slot} (h : Inv k) (hc : k.Live c) (hok : reap k c = .ok k') :
    Inv k' ∧ Frees c k k' := by
  obtain ⟨k₁, hall, hrest⟩ := Except.bind_eq_ok.mp hok
  obtain ⟨m₁, hkf, hrest⟩ := Except.bind_eq_ok.mp hrest
  obtain ⟨m₂, hvm, hrest⟩ := Except.bind_eq_ok.mp hrest
  simp only [Except.pure_eq_ok_iff] at hrest
  obtain ⟨hinv, hfr, -, hnone⟩ := deallocAllLoop_spec _ h hc hall
  have hc₁ := ((deallocAllLoop_frame _ hall).live c).mpr hc
  have hno : ∀ key, ¬ (k₁.vm c).Holds key := fun key => hnone key (List.mem_finRange key)
  obtain ⟨pgdir, kstack, hd, hks, hs⟩ := hinv.space c hc₁
  rw [hks, Option.getD_some] at hkf
  rw [hd] at hvm
  obtain ⟨hf₁, -⟩ := kfree_spec hkf
  obtain ⟨l, hl, hf₂⟩ := freevm_spec hvm
  rw [hs.frames_eq hno] at hl
  have hself : k'.vm c = { k₁.vm c with kstack := none } := by
    rw [← hrest]
    simp
  have hproc : k'.proc = update k₁.proc c (k₁.proc c).reaped := by
    rw [← hrest]
    rfl
  have hregs : k'.regions = k₁.regions := by
    rw [← hrest]
    rfl
  have hmem : k'.kmem = m₂ := by
    rw [← hrest]
    rfl
  have hother : ∀ q, q ≠ c → k'.vm q = k₁.vm q := fun q hq => by
    rw [← hrest]
    exact setVm_vm_of_ne _ _ hq
  have hdead : ¬ k'.Live c := by
    simp [Kernel.Live, hproc, Proc.reaped]
  have hchange : LocalChange k₁ c 0 k' := by
    refine ⟨fun q hq => ?_, hother, fun _ _ => by rw [hregs],
      fun _ _ _ => by rw [hregs]; exact ⟨rfl, rfl⟩, fun hl => absurd hl hdead, fun key => ?_,
      fun _ key => ?_, fun key _ => ?_, ?_, ?_, ?_, ?_, ?_⟩
    · simp [Kernel.Live, hproc, update_of_ne hq]
    · rw [hself]
      exact hinv.ref c key
    · rw [hself]
      exact hno key
    · rw [hself]
    · rw [hregs]
      exact hinv.valid 0
    · rw [hregs]
      exact hinv.invalid 0
    · rw [hself, hregs]
    · rw [procPages_of_live hc₁, procPages_of_not_live hdead, hregs, hmem, hf₂.freelist,
        hf₁.freelist]
      simp only [ProcVm.owned, hd, hks, Option.elim_some, ← Multiset.coe_add, hl,
        Multiset.coe_singleton]
      abel
    · rw [hmem, hf₂.kdata, hf₁.kdata]
  refine ⟨hchange.inv_of_regions hinv hregs, hfr.trans ⟨⟨_, by rw [hmem]; exact hf₁.trans hf₂⟩,
    hchange.census_eq, fun q => ?_, fun key hv => ?_, fun q hq => by rw [hother q hq]⟩⟩
  · rcases eq_or_ne q c with rfl | hq
    · rw [procPages_of_not_live hdead]
      exact Multiset.zero_le _
    · rw [hchange.procPages_of_ne hq]
  · rw [hregs] at hv ⊢
    exact ⟨hv, rfl, rfl⟩

/-- The same slots are in use after the entry of one of them changed. -/
theorem setProc_live (hp : k.Live p) {c : Proc} (hc : c.state ≠ .unused) (q : Slot) :
    (k.setProc p c).Live q ↔ k.Live q := by
  rcases eq_or_ne q p with rfl | hq
  · refine iff_of_true ?_ hp
    rw [Kernel.Live, setProc_proc_self]
    exact hc
  · rw [Kernel.Live, Kernel.Live, setProc_proc_of_ne _ _ hq]

/-- What `wait` does: it reaps an exited child, or changes only the entry of the caller. -/
theorem wait_cases (hp : k.Live p) {r : Option ℤ} (hok : wait k p = .ok (r, k')) :
    (∃ c, (k.proc c).state = .zombie ∧ (k.proc c).parent = some p ∧
      reap (k.setProc p { k.proc p with chan := none }) c = .ok k') ∨
    ∃ c : Proc, c.state ≠ .unused ∧ k' = k.setProc p c := by
  have hstate : ∀ q, ((k.setProc p { k.proc p with chan := none }).proc q).state =
      (k.proc q).state ∧ ((k.setProc p { k.proc p with chan := none }).proc q).parent =
      (k.proc q).parent := by
    intro q
    rcases eq_or_ne q p with rfl | hq
    · simp
    · rw [setProc_proc_of_ne _ _ hq]
      exact ⟨rfl, rfl⟩
  unfold wait at hok
  simp only at hok
  split at hok
  · next c hz =>
    obtain ⟨k₁, hreap, hrest⟩ := Except.bind_eq_ok.mp hok
    simp only [Except.pure_eq_ok_iff, Prod.mk.injEq] at hrest
    obtain ⟨-, rfl⟩ := hrest
    obtain ⟨hpar, hzom⟩ := findZombie_spec hz
    rw [(hstate c).1] at hzom
    rw [(hstate c).2] at hpar
    exact .inl ⟨c, hzom, hpar, hreap⟩
  · split at hok
    · cases hok
      exact .inr ⟨{ k.proc p with chan := none }, hp, rfl⟩
    · cases hok
      refine .inr ⟨{ k.proc p with chan := some (.proc p), state := .sleeping }, ?_, ?_⟩
      · exact ProcState.noConfusion
      · simp [Kernel.setProc]

/-- **`wait`** keeps the invariant. It reaps an exited child, freeing pages on its behalf, or
changes only the scheduling state of the caller. -/
theorem wait_spec (h : Inv k) (hp : k.Live p) {r : Option ℤ} (hok : wait k p = .ok (r, k')) :
    Inv k' ∧ (Takes k k' ∨ ∃ c, (k.proc c).state = .zombie ∧ (k.proc c).parent = some p ∧
      (k'.proc c).state = .unused ∧ Frees c k k') := by
  have hset : ∀ c : Proc, c.state ≠ .unused → Inv (k.setProc p c) ∧ Takes k (k.setProc p c) :=
    fun c hc => h.congr (setProc_live hp hc) rfl rfl rfl
  rcases wait_cases hp hok with ⟨c, hzom, hpar, hreap⟩ | ⟨c, hc, rfl⟩
  · obtain ⟨h₀, ht₀⟩ := hset { k.proc p with chan := none } hp
    have hlive := setProc_live (k := k) hp (c := { k.proc p with chan := none }) hp
    obtain ⟨hinv, hfr⟩ := reap_spec h₀ ((hlive c).mpr (by simp [Kernel.Live, hzom])) hreap
    refine ⟨hinv, .inr ⟨c, hzom, hpar, ?_, ?_⟩⟩
    · rw [(reap_frame hreap).1, update_self]
      rfl
    · have hfr₀ : Frees c k (k.setProc p { k.proc p with chan := none }) :=
        ⟨⟨[], .refl _⟩, ht₀.census, fun q => ?_, fun _ hv => ⟨hv, rfl, rfl⟩, fun _ _ => rfl⟩
      · exact hfr₀.trans hfr
      · by_cases hq : k.Live q
        · rw [procPages_of_live hq, procPages_of_live ((hlive q).mpr hq)]
          rfl
        · rw [procPages_of_not_live hq, procPages_of_not_live fun h => hq ((hlive q).mp h)]
  · obtain ⟨h', ht'⟩ := hset c hc
    exact ⟨h', .inl ht'⟩

/-! ### System calls -/

/-- What a system call runs. -/
def Runs (k : Kernel) (p : Slot) (r : Ret) (k' : Kernel) : Call → Prop
  | .getSharedPage key count => ∃ va, allocSharedVM k p key count = .ok (va, k') ∧ r = .addr va
  | .freeSharedPage key => ∃ n, deallocProcSharedVM k p key = .ok (n, k') ∧ r = .int n
  | .fork => ∃ n, fork k p = .ok (n, k') ∧ r = .int n
  | .sbrk n => ∃ n', growproc k p n = .ok (n', k')
  | .exit => exit k p = .ok k'
  | .wait => ∃ n, wait k p = .ok (n, k') ∧ r = n.elim .none .int

theorem syscall_runs {c : Call} {r : Ret} (h : syscall k p c = .ok (r, k')) : Runs k p r k' c := by
  cases c with
  | sbrk n =>
    obtain ⟨⟨n', k₁⟩, hsbrk, hrest⟩ := Except.bind_eq_ok.mp h
    obtain ⟨⟨n'', k₂⟩, hgrow, hrest'⟩ := Except.bind_eq_ok.mp hsbrk
    obtain ⟨-, rfl⟩ : Ret.int n' = r ∧ k₁ = k' := by simpa using hrest
    refine ⟨n'', ?_⟩
    rw [hgrow]
    simp only at hrest'
    split at hrest' <;> cases hrest' <;> rfl
  | exit =>
    obtain ⟨k₁, hrun, hrest⟩ := Except.bind_eq_ok.mp h
    obtain ⟨-, rfl⟩ : Ret.none = r ∧ k₁ = k' := by simpa using hrest
    exact hrun
  | getSharedPage | freeSharedPage | fork | wait =>
    obtain ⟨⟨n, k₁⟩, hrun, hrest⟩ := Except.bind_eq_ok.mp h
    obtain ⟨rfl, rfl⟩ : _ = r ∧ k₁ = k' := by simpa using hrest
    exact ⟨n, hrun, rfl⟩

theorem step_getSharedPage {key count : ℤ} {va : Option ℕ}
    (hcan : CanCall k p (.getSharedPage key count))
    (h : allocSharedVM k p key count = .ok (va, k')) : Step k (p, .getSharedPage key count) k' :=
  ⟨hcan, .addr va, by simp only [syscall, h, Except.ok_bind]; rfl⟩

theorem step_fork (hcan : CanCall k p .fork) (h : fork k p = .ok (n, k')) : Step k (p, .fork) k' :=
  ⟨hcan, .int n, by simp only [syscall, h, Except.ok_bind]; rfl⟩

theorem step_freeSharedPage {key : ℤ} (hcan : CanCall k p (.freeSharedPage key))
    (h : deallocProcSharedVM k p key = .ok (n, k')) : Step k (p, .freeSharedPage key) k' :=
  ⟨hcan, .int n, by simp only [syscall, h, Except.ok_bind]; rfl⟩

end Xv6.Shared
