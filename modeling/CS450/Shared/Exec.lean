import CS450.Shared.Ownership
import CS450.Vm.Argv

/-!
# `exec` of a process that holds shared regions

`exec` replaces the page directory of the process and frees the old one with `freevm`, which gives
back every page mapped below `KERNBASE`, those of shared regions included. The references of the
process, its `shaddr` and the regions are not touched. So after every successful `exec` of a holder
the pages of its regions are free although the regions are still valid, the count of each region
includes a process that no longer has it mapped, and the next `GetSharedPage` of the process returns
the address it had in the old image.

## Main results

* `exec_breaks_sharing`: no successful `exec` of a holder is safe
* `exec_frees_shared_pages`: such an `exec` right after boot
-/

namespace Xv6.Shared

open Transition

/-- What `exec` stores in the trap frame and in `name`. -/
structure Started where
  eip : ℕ
  esp : ℕ
  name : List UInt8

/-- `safestrcpy` of the last component of the path into the 16 bytes of `name`. -/
def programName (path : List UInt8) : List UInt8 :=
  ((path.reverse.takeWhile (· ≠ 47)).reverse).take 15

/-- `exec`: the process runs a new program, or `none` for `-1`. -/
def exec (namei : List UInt8 → Option File) (k : Kernel) (p : Slot) (path : List UInt8)
    (argv : List (List UInt8)) : Except Fault (Option Started × Kernel) :=
  match namei path with
  | none => .ok (none, k)
  | some ip => do
    let (image, m) ← loadImage (k.vm p).shaddr ip argv k.kmem
    match image with
    | none => return (none, k.setKmem m)
    | some image =>
      let oldpgdir := (k.vm p).pgdir
      let k := (k.setVm p { k.vm p with pgdir := some image.pgdir, sz := image.sz }).setKmem m
      switchuvm (k.vm p)
      let m ← freevm oldpgdir k.kmem
      return (some ⟨image.eip, image.esp, programName path⟩, k.setKmem m)

/-- The page table of `q` maps all the pages of the region somewhere. -/
def HasMapped (k : Kernel) (key : Key) (q : Slot) : Prop :=
  k.Live q ∧ ∃ pgdir base, (k.vm q).pgdir = some pgdir ∧
    base + (k.regions key).pageCount ≤ KERNPAGE ∧
    ∀ j, j < (k.regions key).pageCount → pgdir.entry (base + j) =
      .ofPerm ((k.regions key).pages ((k.regions key).pageCount - 1 - j)) ⟨true, true⟩

/-- What an `exec` of `p` from `k` to `k'` has to keep: the pages of a valid region are not free,
the other holders have their mappings and what is in them, a region counts the processes that have
it mapped, and an address that `GetSharedPage` returns afterwards is mapped to the region. -/
structure ExecSafe (k : Kernel) (p : Slot) (k' : Kernel) : Prop where
  owned : ∀ key i, (k'.regions key).valid = true → i < (k'.regions key).pageCount →
    (k'.regions key).pages i ∉ k'.kmem.freelist
  others : ∀ q key, q ≠ p → (k.vm q).Holds key → k'.vm q = k.vm q ∧
    ∀ i, i < (k.regions key).pageCount → (k'.regions key).pages i = (k.regions key).pages i ∧
      k'.kmem.mem ((k.regions key).pages i) = k.kmem.mem ((k.regions key).pages i)
  count : ∀ key, (k'.regions key).valid = true →
    (k'.regions key).refCount = ({q | HasMapped k' key q}.ncard : ℤ)
  get : ∀ key count va k'', (k.vm p).Holds key →
    allocSharedVM k' p (key : ℕ) count = .ok (some va, k'') →
    ∀ j, j < (k''.regions key).pageCount → MapsTo k'' p (va + j * PGSIZE)
      ((k''.regions key).pages ((k''.regions key).pageCount - 1 - j))

/-! ### Holders -/

/-- Exactly the holders of a region have it mapped. -/
theorem Inv.hasMapped_iff {k : Kernel} (h : Inv k) {key : Key}
    (hv : (k.regions key).valid = true) (q : Slot) : HasMapped k key q ↔ (k.vm q).Holds key := by
  have hpos := (h.valid key hv).1
  constructor
  · rintro ⟨hq, pgdir, base, hd, hle, hmap⟩
    obtain ⟨pgdir', kstack, hd', -, hs⟩ := h.space q hq
    obtain rfl : pgdir' = pgdir := Option.some.inj (hd'.symm.trans hd)
    have hent := hmap 0 hpos
    rw [Nat.add_zero, Nat.sub_zero] at hent
    have hpres : (pgdir'.entry base).p = true := by rw [hent]; rfl
    have hmem : (k.regions key).pages ((k.regions key).pageCount - 1) ∈ (k.regions key).owned :=
      mem_owned.mpr ⟨hv, _, by omega, rfl⟩
    -- The page is not in the memory of the process, and the gap is empty.
    have htop : (k.vm q).top ≤ base := by
      by_contra hlt
      by_cases hown : base < pages (k.vm q).sz
      · refine (h.page_apart hmem).2 q ?_
        rw [procPages_of_live hq, ProcVm.owned, hd, Option.elim_some, Multiset.mem_add,
          Multiset.mem_add]
        refine .inr (.inr (PageDir.mem_frames.mpr ⟨base, Nat.zero_le _, hown, hpres, ?_⟩))
        rw [hent]
        rfl
      · rw [hs.gap base (by omega) (by omega)] at hpres
        cases hpres
    -- So it is in a region that the process holds, and pages are in one region only.
    obtain ⟨key', hk', hlo, hhi⟩ := hs.only base htop (by omega) hpres
    have hheld := hs.held key' hk' (base - (k.vm q).base key') (by omega)
    rw [Nat.add_sub_cancel' hlo, hent] at hheld
    have hpage := (congrArg PTE.addr hheld).symm
    have hkey := (h.page_injective hv (h.valid_of_holds hk') (by omega) (by omega) hpage).1
    rwa [← hkey]
  · intro hk
    obtain ⟨pgdir, kstack, hd, -, hs⟩ := h.space q (h.live_of_holds hk)
    exact ⟨h.live_of_holds hk, pgdir, (k.vm q).base key, hd, hs.high key hk, hs.held key hk⟩

/-! ### The commit -/

/-- A successful `exec` installs a finished image and frees the old directory. -/
theorem exec_commit {namei : List UInt8 → Option File} {k k' : Kernel} {p : Slot}
    {path : List UInt8} {argv : List (List UInt8)} {s : Started}
    (hok : exec namei k p path argv = .ok (some s, k')) :
    ∃ ip image m m', namei path = some ip ∧
      loadImage (k.vm p).shaddr ip argv k.kmem = .ok (some image, m) ∧
      freevm (k.vm p).pgdir m = .ok m' ∧
      k' = (k.setVm p { k.vm p with pgdir := some image.pgdir, sz := image.sz }).setKmem m' := by
  unfold exec at hok
  split at hok
  · cases hok
  · next ip hip =>
    obtain ⟨⟨image, m⟩, hload, hok⟩ := Except.bind_eq_ok.mp hok
    cases image with
    | none => cases hok
    | some image =>
      obtain ⟨_, -, hok⟩ := Except.bind_eq_ok.mp hok
      obtain ⟨m', hfree, hok⟩ := Except.bind_eq_ok.mp hok
      cases hok
      exact ⟨ip, image, m, m', hip, hload, hfree, rfl⟩

section Commit

variable {k k' : Kernel} {p : Slot} {image : Image} {l : List ℕ} {m m' : Kmem} {key : Key}

/-- The pages of the regions of `p` are free once its old directory is. -/
theorem freevm_frees_held (h : Inv k) (hk : (k.vm p).Holds key)
    (hfree : freevm (k.vm p).pgdir m = .ok m') {i : ℕ} (hi : i < (k.regions key).pageCount) :
    (k.regions key).pages i ∈ m'.freelist := by
  obtain ⟨pgdir, kstack, hd, -, hs⟩ := h.space p (h.live_of_holds hk)
  rw [hd] at hfree
  obtain ⟨l, hl, hf⟩ := freevm_spec hfree
  have hhigh := hs.high key hk
  have hent := hs.held key hk ((k.regions key).pageCount - 1 - i) (by omega)
  have hidx : (k.regions key).pageCount - 1 - ((k.regions key).pageCount - 1 - i) = i := by omega
  rw [hidx] at hent
  have hmem : (k.regions key).pages i ∈ (l : Multiset ℕ) := by
    rw [hl, Multiset.mem_add, Multiset.mem_add]
    refine .inl (.inl (PageDir.mem_frames.mpr ⟨_, Nat.zero_le _, ?_, ?_, congrArg PTE.addr hent⟩))
    · omega
    · rw [hent]
      rfl
  rw [hf.freelist, List.mem_append]
  exact .inl (Multiset.mem_coe.mp hmem)

/-- The new image has no page of a region: its pages were free. -/
theorem not_hasMapped_of_image (h : Inv k) (hv : (k.regions key).valid = true)
    (himage : Draft KernelTable (pages image.sz) l image.pgdir k.kmem m)
    (hvm : (k'.vm p).pgdir = some image.pgdir) (hreg : k'.regions = k.regions) :
    ¬ HasMapped k' key p := by
  rintro ⟨-, pgdir, base, hd, hle, hmap⟩
  obtain rfl : image.pgdir = pgdir := Option.some.inj (hvm.symm.trans hd)
  rw [hreg] at hle hmap
  have hpos := (h.valid key hv).1
  have hent := hmap 0 hpos
  rw [Nat.add_zero, Nat.sub_zero] at hent
  have hmem : (k.regions key).pages ((k.regions key).pageCount - 1) ∈ (k.regions key).owned :=
    mem_owned.mpr ⟨hv, _, by omega, rfl⟩
  have hl := himage.frame_mem (show base < KERNPAGE by omega) (by rw [hent]; rfl)
  rw [hent] at hl
  apply (h.page_apart hmem).1
  rw [himage.mem.freelist, List.mem_append]
  exact .inl hl

/-- One process fewer has the region mapped. -/
theorem ncard_hasMapped (h : Inv k) (hk : (k.vm p).Holds key) (hproc : k'.proc = k.proc)
    (hother : ∀ q, q ≠ p → k'.vm q = k.vm q) (hreg : k'.regions = k.regions)
    (hself : ¬ HasMapped k' key p) :
    (k.regions key).refCount = ({q | HasMapped k' key q}.ncard : ℤ) + 1 := by
  have hv := h.valid_of_holds hk
  have hset : {q | HasMapped k' key q} = {q | (k.vm q).Holds key} \ {p} := by
    ext q
    rw [Set.mem_sdiff, Set.mem_singleton_iff, Set.mem_ofPred_eq, Set.mem_ofPred_eq]
    rcases eq_or_ne q p with rfl | hne
    · simp [hself]
    · rw [← h.hasMapped_iff hv q]
      unfold HasMapped Kernel.Live
      rw [hproc, hother q hne, hreg]
      simp [hne]
  have hcard : {q | (k.vm q).Holds key}.ncard = Table.tally (ProcVm.Holds key) k.vm := by
    rw [Table.tally, ← Set.ncard_coe_finset]
    simp
  have hone := Set.ncard_sdiff_singleton_add_one (show p ∈ {q | (k.vm q).Holds key} from hk)
  rw [h.count key, ← hcard, ← hone, ← hset]
  rfl

/-- The address that `p` had for the region is mapped nowhere in the new image. -/
theorem not_mapsTo_of_image (h : Inv k) (hk : (k.vm p).Holds key)
    (himage : Draft KernelTable (pages image.sz) l image.pgdir k.kmem m)
    (hsz : image.sz < (k.vm p).shaddr)
    (hvm : (k'.vm p).pgdir = some image.pgdir) (pa : ℕ) :
    ¬ MapsTo k' p ((k.vm p).shared key).va pa := by
  obtain ⟨pgdir₀, kstack, hd₀, -, hs⟩ := h.space p (h.live_of_holds hk)
  rintro ⟨pgdir, pte, hd, hwalk, hpte⟩
  obtain rfl : image.pgdir = pgdir := Option.some.inj (hvm.symm.trans hd)
  have hlow := hs.low key hk
  have hhigh := hs.high key hk
  have hpos := (h.valid key (h.valid_of_holds hk)).1
  have hbase : (k.vm p).base key < 0x100000 := by
    simp only [KERNPAGE] at hhigh
    omega
  rw [hs.va key hk, walkpgdir_find hbase] at hwalk
  cases ht : image.pgdir.pde ((k.vm p).base key / 1024) with
  | none =>
    rw [ht] at hwalk
    cases (Prod.mk.inj hwalk).1
  | some t =>
    rw [ht, Option.map_some] at hwalk
    obtain rfl := Option.some.inj (Prod.mk.inj hwalk).1
    -- The address is above `shaddr`, and the image ends below.
    have habs : (image.pgdir.entry ((k.vm p).base key)).p = false := by
      apply himage.absent
      · exact (hs.top_of_lt hsz).trans hlow
      · omega
    change image.pgdir.entry ((k.vm p).base key) = _ at hpte
    rw [hpte] at habs
    cases habs

end Commit

/-- The regions of the caller stay valid, and their pages become free. -/
theorem exec_frees_held {namei : List UInt8 → Option File} {k k' : Kernel} {p : Slot}
    {path : List UInt8} {argv : List (List UInt8)} {s : Started} {key : Key} (h : Inv k)
    (hk : (k.vm p).Holds key) (hok : exec namei k p path argv = .ok (some s, k')) :
    (k'.regions key).valid = true ∧ 0 < (k'.regions key).pageCount ∧
      ∀ i, i < (k'.regions key).pageCount → (k'.regions key).pages i ∈ k'.kmem.freelist := by
  obtain ⟨ip, image, m, m', -, -, hfree, rfl⟩ := exec_commit hok
  have hv := h.valid_of_holds hk
  exact ⟨hv, (h.valid key hv).1, fun i hi => freevm_frees_held h hk hfree hi⟩

/-- **No successful `exec` of a holder is safe.** From every state of the invariant, the regions of
the caller stay valid while all their pages are free, they count one process too many, and the next
`GetSharedPage` returns an address that the new page table does not map. -/
theorem exec_breaks_sharing {namei : List UInt8 → Option File} {k k' : Kernel} {p : Slot}
    {path : List UInt8} {argv : List (List UInt8)} {s : Started} (h : Inv k)
    (hheld : ∃ key, (k.vm p).Holds key) (hok : exec namei k p path argv = .ok (some s, k')) :
    ¬ ExecSafe k p k' ∧ ∀ key, (k.vm p).Holds key →
      (k'.regions key).valid = true ∧
      (∀ i, i < (k'.regions key).pageCount → (k'.regions key).pages i ∈ k'.kmem.freelist) ∧
      (k'.regions key).refCount = ({q | HasMapped k' key q}.ncard : ℤ) + 1 ∧
      ∃ va, allocSharedVM k' p (key : ℕ) 1 = .ok (some va, k') ∧ ∀ pa, ¬ MapsTo k' p va pa := by
  have hfreed := fun key (hk : (k.vm p).Holds key) => exec_frees_held h hk hok
  obtain ⟨ip, image, m, m', -, hload, -, rfl⟩ := exec_commit hok
  set k' := (k.setVm p { k.vm p with pgdir := some image.pgdir, sz := image.sz }).setKmem m'
  have hself : k'.vm p = { k.vm p with pgdir := some image.pgdir, sz := image.sz } :=
    setVm_vm_self _ _ _
  have hvm : (k'.vm p).pgdir = some image.pgdir := by rw [hself]
  constructor
  · intro hsafe
    obtain ⟨key, hk⟩ := hheld
    obtain ⟨hv, hpos, hpages⟩ := hfreed key hk
    exact hsafe.owned key 0 hv hpos (hpages 0 hpos)
  · intro key hk
    obtain ⟨hv, hpos, hpages⟩ := hfreed key hk
    obtain ⟨pgdir, kstack, hd, -, hs⟩ := h.space p (h.live_of_holds hk)
    have hlim : (k.vm p).shaddr ≤ KERNBASE := by
      rw [hs.shaddr, KERNBASE_eq]
      exact Nat.mul_le_mul_right _ hs.top
    cases (loadImage_spec hlim h.link ip argv).holds _ hload with
    | made hsz himage =>
      refine ⟨hv, hpages, ?_, ((k.vm p).shared key).va, ?_,
        not_mapsTo_of_image h hk himage hsz hvm⟩
      · apply @ncard_hasMapped k k' p key h hk rfl (fun q hq => setVm_vm_of_ne _ _ hq) rfl
        exact not_hasMapped_of_image h (h.valid_of_holds hk) himage hvm rfl
      · -- The reference is still there, so its address is returned and nothing is mapped.
        have hmapped : k'.mapped ((k'.vm p).shared key) = true := by
          rw [hself]
          exact (h.mapped_iff p key).mpr hk
        unfold allocSharedVM
        simp only [keyOf_coe]
        rw [if_neg (by decide), if_pos hv, if_neg (by omega), mapSharedRegion,
          if_pos hmapped, hself]

/-! ### A run -/

/-- An ELF header without segments. -/
def emptyProgram : File := [0x7F, 0x45, 0x4C, 0x46] ++ List.replicate 48 0

theorem imageSize_emptyProgram (limit : ℕ) : imageSize limit emptyProgram = some 0 := by
  have hread : readi emptyProgram 0 sizeofElfhdr = some emptyProgram := by decide
  have hphnum : (Elfhdr.ofBytes emptyProgram).phnum = 0 := by decide
  unfold imageSize
  simp only [hread, hphnum]
  rw [if_neg (by decide)]
  rfl

/-- Every page that the directory of a process consists of or maps is in the census. -/
theorem Inv.pgdir_mem_census {k : Kernel} {p : Slot} {pgdir : PageDir} (h : Inv k)
    (hp : k.Live p) (hd : (k.vm p).pgdir = some pgdir) :
    (∀ v, v < KERNPAGE → (pgdir.entry v).p = true → (pgdir.entry v).addr ∈ k.census) ∧
      (∀ a ∈ pgdir.tables, a ∈ k.census) ∧ pgdir.page ∈ k.census := by
  obtain ⟨pgdir', kstack, hd', -, hs⟩ := h.space p hp
  obtain rfl : pgdir' = pgdir := Option.some.inj (hd'.symm.trans hd)
  have hown : ∀ pa ∈ (k.vm p).owned, pa ∈ k.census := by
    rw [← procPages_of_live hp]
    exact fun pa hpa => Multiset.mem_of_le (procPages_le_census k p) hpa
  refine ⟨fun v hv hpres => ?_, fun a ha => hown _ ?_, hown _ ?_⟩
  · -- a present page is in the memory of the process or in a region that it holds
    by_cases hlt : v < pages (k.vm p).sz
    · have hframe := PageDir.mem_frames.mpr ⟨v, Nat.zero_le v, hlt, hpres, rfl⟩
      apply hown
      simp [ProcVm.owned, hd, hframe]
    · have htop : (k.vm p).top ≤ v := by
        by_contra hlt'
        rw [hs.gap v (by omega) (by omega)] at hpres
        cases hpres
      obtain ⟨key, hk, hlo, hhi⟩ := hs.only v htop hv hpres
      have hheld := hs.held key hk (v - (k.vm p).base key) (by omega)
      rw [Nat.add_sub_cancel' hlo] at hheld
      apply Multiset.mem_of_le (regions_le_census k)
      refine Multiset.mem_sum.mpr ⟨key, Finset.mem_univ _, mem_owned.mpr
        ⟨h.valid_of_holds hk, _, ?_, (congrArg PTE.addr hheld).symm⟩⟩
      omega
  · simp [ProcVm.owned, hd, ha]
  · simp [ProcVm.owned, hd]

/-- The old page directory of a process can be freed. -/
theorem Inv.freevm_ok {k : Kernel} {p : Slot} {pgdir : PageDir} {m : Kmem} (h : Inv k)
    (hp : k.Live p) (hd : (k.vm p).pgdir = some pgdir)
    (hfree : ∀ pa ∈ k.census, pa ≠ 0 ∧ m.Freeable pa) : ∃ m', freevm (some pgdir) m = .ok m' := by
  obtain ⟨hframes, htables, hpage⟩ := h.pgdir_mem_census hp hd
  exact Xv6.freevm_ok (fun v hv hpres => hfree _ (hframes v hv hpres))
    (fun i t hi ht => (hfree _ (htables _ (PageDir.mem_tables hi ht))).2) (hfree _ hpage).2

/-- After boot the first process creates a region and runs the empty program. -/
theorem exists_first_exec : ∃ k₀ np k k' s, Booted k₀ ∧
    Run SafeStep k₀ [(np, .getSharedPage 0 2)] k ∧ Inv k ∧ (k.vm np).Holds 0 ∧
    exec (fun _ => some emptyProgram) k np [] [] = .ok (some s, k') := by
  obtain ⟨k₀, np, hboot, hno, hb, hkend⟩ := exists_booted
  obtain ⟨k, va, hget, hno', hproc, hheld, hsz, htop⟩ := hb.first_get hno
  obtain ⟨hinv, htakes⟩ := allocSharedVM_spec hb.inv hb.first.live hget hno'
  obtain ⟨l, ha⟩ := htakes.mem
  have hlive : ∀ q, k.Live q ↔ k₀.Live q := fun q => by
    unfold Kernel.Live
    rw [hproc]
  have hp := (hlive np).mpr hb.first.live
  have hcard := hb.card
  rw [← htakes.census] at hcard
  have hlen := freelist_length_ge (n := 1) hinv hp
    (fun q hq hl => hb.first.only hq ((hlive q).mp hl))
    (by rw [hsz]; exact hb.first.sz)
  obtain ⟨pgdir, kstack, hd, hks, hs⟩ := hinv.space np hp
  have hshaddr : (k.vm np).shaddr = (KERNPAGE - 2) * PGSIZE := by rw [hs.shaddr, htop]
  have hlim : (k.vm np).shaddr ≤ KERNBASE := by rw [hshaddr]; decide
  have himage : HasImage (k.vm np).shaddr emptyProgram k.kmem 0 := by
    refine ⟨imageSize_emptyProgram _, by rw [hshaddr]; decide, ?_⟩
    have hpages : pagesFor (pages 0 + 2) = 68 := by decide
    omega
  obtain ⟨image, m, hload⟩ := @HasImage.load _ _ _ _ himage hlim hinv.link
    ((freeOk_of_census hkend hb.freeable).allocated ha) [] (by decide) (by decide)
  obtain ⟨l', hmem⟩ : ∃ l, Allocated l k.kmem m := by
    cases (loadImage_spec hlim hinv.link emptyProgram []).holds _ hload with
    | made _ h => exact ⟨_, h.mem⟩
  -- every page of the kernel is above its end, so the old image can be freed
  obtain ⟨m', hfree⟩ := hinv.freevm_ok (m := m) hp hd (by
    intro pa hpa
    rw [htakes.census] at hpa
    obtain ⟨h₁, h₂, h₃⟩ := hb.freeable pa hpa
    refine ⟨by omega, h₁, ?_, h₃⟩
    rw [hmem.kend, ha.kend]
    exact h₂)
  refine ⟨k₀, np, k, (k.setVm np
    { k.vm np with pgdir := some image.pgdir, sz := image.sz }).setKmem m',
    ⟨image.eip, image.esp, []⟩, hboot,
    .single ⟨step_getSharedPage (hb.first.canCall _) hget, .of_ne (by simp), hno'⟩, hinv, hheld, ?_⟩
  simp only [exec, hload, Except.ok_bind, setKmem_vm, setVm_vm_self, switchuvm, hks,
    hd, setKmem_kmem,
    hfree]
  rfl

/-- The first process creates a region of two pages and runs another program: the region is valid,
and its pages are on the free list. -/
theorem exec_frees_shared_pages : ∃ k₀ np k k' s, Booted k₀ ∧
    Run SafeStep k₀ [(np, .getSharedPage 0 2)] k ∧ (k.vm np).Holds 0 ∧
    exec (fun _ => some emptyProgram) k np [] [] = .ok (some s, k') ∧
    (k'.regions 0).valid = true ∧ 0 < (k'.regions 0).pageCount ∧
    (k'.regions 0).pages 0 ∈ k'.kmem.freelist ∧ ¬ ExecSafe k np k' := by
  obtain ⟨k₀, np, k, k', s, hboot, hrun, hinv, hheld, hexec⟩ := exists_first_exec
  obtain ⟨hv, hpos, hpages⟩ := exec_frees_held hinv hheld hexec
  exact ⟨k₀, np, k, k', s, hboot, hrun, hheld, hexec, hv, hpos, hpages 0 hpos,
    fun hsafe => hsafe.owned 0 0 hv hpos (hpages 0 hpos)⟩

theorem exec_breaks_sharing_first_exec : ∃ k np k' s, Inv k ∧ (k.vm np).Holds 0 ∧
    exec (fun _ => some emptyProgram) k np [] [] = .ok (some s, k') ∧ ¬ ExecSafe k np k' := by
  obtain ⟨k₀, np, k, k', s, -, -, hinv, hheld, hexec⟩ := exists_first_exec
  exact ⟨k, np, k', s, hinv, hheld, hexec, (exec_breaks_sharing hinv ⟨0, hheld⟩ hexec).1⟩

end Xv6.Shared
