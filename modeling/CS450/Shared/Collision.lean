import CS450.Shared.Ownership

/-!
# Shared mappings and the heap

`allocuvm` refuses to grow a process up to its `shaddr`, but `mapSharedRegion` moves `shaddr` down
without looking at `sz`. A process that creates and frees a region over and over drives `shaddr`
into its own memory, where `mappages` panics. When every new mapping fits between the memory of its
process and `shaddr`, the two stay apart, whatever fails on the way.

## Main results

* `shared_mappings_apart`: with room for every mapping, `shaddr` stays above the memory of its
  process and no `GetSharedPage` panics
* `shared_mappings_collide`: without, a run of `GetSharedPage` and `FreeSharedPage` of the first
  process ends in a panic
-/

namespace Xv6.Shared

open Transition

/-- A `GetSharedPage` that has to create a mapping finds room for its pages between the memory of
the caller and its `shaddr`. -/
def HasRoom (k : Kernel) (e : Slot × Call) : Prop :=
  ∀ i count key, e.2 = .getSharedPage i count → keyOf i = some key → 0 < count →
    count ≤ (MAX_SH_PAGES : ℤ) → k.mapped ((k.vm e.1).shared key) = false →
    PGROUNDUP (k.vm e.1).sz +
      (if (k.regions key).valid then (k.regions key).pageCount else count.toNat) * PGSIZE ≤
        (k.vm e.1).shaddr

/-! ### The gap -/

/-- Every process has its gap; the kernel's data stays where the linker put it. -/
structure GapInv (k : Kernel) : Prop where
  link : k.kmem.LinkOk
  gap : ∀ p, k.Live p → GapAt k p

variable {r : ℤ}

theorem Inv.gapInv {k : Kernel} (h : Inv k) : GapInv k := by
  refine ⟨h.link, fun p hp => ?_⟩
  obtain ⟨pgdir, -, hd, -, hs⟩ := h.space p hp
  exact ⟨pgdir, hd, hs.toGapOk⟩

section Steps

variable {k k' : Kernel} {p : Slot}

/-- Only the slot `p` changed, and it has its gap if it is in use. -/
theorem GapInv.update (h : GapInv k) (p : Slot) (hlive : ∀ q, q ≠ p → k'.Live q → k.Live q)
    (hvm : ∀ q, q ≠ p → k'.vm q = k.vm q) (hkd : k'.kmem.kdata = k.kmem.kdata)
    (hp : k'.Live p → GapAt k' p) : GapInv k' := by
  refine ⟨?_, fun q hq => ?_⟩
  · obtain ⟨c, hc, hb⟩ := h.link
    exact ⟨c, hkd.trans hc, hb⟩
  · rcases eq_or_ne q p with rfl | hne
    · exact hp hq
    · obtain ⟨pgdir, hd, hg⟩ := h.gap q (hlive q hne hq)
      exact ⟨pgdir, by rw [hvm q hne]; exact hd, by rw [hvm q hne]; exact hg⟩

theorem GapInv.of_onlyVm (h : GapInv k) (ho : OnlyVm p k k') (hp : GapAt k' p) : GapInv k' :=
  h.update p (fun q _ => (ho.live q).mp) ho.vm ho.kdata fun _ => hp

/-- With room for its pages, `mapSharedRegion` returns and the gap stays. -/
theorem mapSharedRegion_gap {key : Key} (hg : GapAt k p)
    (hroom : k.mapped ((k.vm p).shared key) = false →
      pages (k.vm p).sz + (k.regions key).pageCount ≤ (k.vm p).top) :
    ∃ r k', mapSharedRegion k p key = .ok (r, k') ∧ OnlyVm p k k' ∧ GapAt k' p := by
  cases hm : k.mapped ((k.vm p).shared key) with
  | true =>
    refine ⟨some ((k.vm p).shared key).va, k, ?_, .refl p k, hg⟩
    simp [mapSharedRegion, hm]
  | false =>
    obtain ⟨pgdir, hd, hgap⟩ := hg
    obtain ⟨r, k', hok, ho, hg', -⟩ := mapSharedRegion_new hd hgap hm (hroom hm)
    exact ⟨r, k', hok, ho, hg'⟩

/-- A region made valid is mapped at least where it was. -/
theorem mapped_of_setRegion {key : Key} {n : ℕ} {pgs : ℕ → ℕ} {m : Kmem} {ref : SharedReference}
    (hm : ((k.setRegion key ⟨true, 0, n, pgs⟩).setKmem m).mapped ref = false) :
    k.mapped ref = false := by
  revert hm
  unfold Kernel.mapped
  cases ref.region with
  | none => simp
  | some key' =>
    rcases eq_or_ne key' key with rfl | hne
    · simp
    · simp [setRegion_regions_of_ne _ _ hne]

/-- **With room for its mapping `GetSharedPage` returns**, and the gap stays. -/
theorem allocSharedVM_gap {i count : ℤ} (hg : GapAt k p)
    (hroom : HasRoom k (p, .getSharedPage i count)) :
    ∃ r k', allocSharedVM k p i count = .ok (r, k') ∧ OnlyVm p k k' ∧ GapAt k' p := by
  have hroom' : ∀ key n, keyOf i = some key → 0 < count → count ≤ (MAX_SH_PAGES : ℤ) →
      k.mapped ((k.vm p).shared key) = false →
      (if (k.regions key).valid then (k.regions key).pageCount else count.toNat) = n →
      pages (k.vm p).sz + n ≤ (k.vm p).top := by
    rintro key n hkey hpos hmax hm rfl
    obtain ⟨pgdir, -, hg⟩ := hg
    have h := hroom i count key rfl hkey hpos hmax hm
    rw [PGROUNDUP_eq hg.sz_le, hg.shaddr, ← Nat.add_mul] at h
    exact Nat.le_of_mul_le_mul_right h (by decide)
  unfold allocSharedVM
  split
  · exact ⟨_, k, rfl, .refl p k, hg⟩
  · next key hkey =>
    split
    · exact ⟨_, k, rfl, .refl p k, hg⟩
    · simp only
      split
      · next hv =>
        split
        · exact ⟨_, k, rfl, .refl p k, hg⟩
        · refine mapSharedRegion_gap hg fun hm => ?_
          exact hroom' key _ hkey (by omega) (by omega) hm (by simp [hv])
      · next hv =>
        split
        · -- a failing `kalloc`: the region is still invalid
          next pgs m hloop =>
          obtain ⟨-, ⟨hf, -⟩ | ⟨-, -, -, hkd⟩⟩ := allocSharedLoop_spec _ _ hloop
          · cases hf
          · exact ⟨_, _, rfl, ⟨rfl, fun _ _ => rfl, hkd⟩, hg⟩
        · next pgs m hloop =>
          obtain ⟨-, ⟨-, ha⟩ | ⟨hf, -⟩⟩ := allocSharedLoop_spec _ _ hloop
          · obtain ⟨r, k', hok, ho, hg'⟩ := @mapSharedRegion_gap
              ((k.setRegion key ⟨true, 0, count.toNat, pgs⟩).setKmem m) p key hg (by
                exact fun hm => hroom' key _ hkey (by omega) (by omega)
                  (mapped_of_setRegion hm) (by simp [hv]))
            exact ⟨r, k', hok, ⟨ho.proc, ho.vm, ho.kdata.trans ha.kdata⟩, hg'⟩
          · cases hf

theorem growproc_gap {n : ℤ} (hg : GapAt k p) (hok : growproc k p n = .ok (r, k')) :
    OnlyVm p k k' ∧ GapAt k' p := by
  obtain ⟨pgdir, hd, hgap⟩ := hg
  have hresize : ∀ {sz pgdir' m}, m.kdata = k.kmem.kdata →
      GapOk ((k.vm p).resize sz pgdir') pgdir' →
      OnlyVm p k (k.resize p sz pgdir' m) ∧ GapAt (k.resize p sz pgdir' m) p := by
    intro sz pgdir' m hkd hg
    refine ⟨⟨rfl, fun q hq => resize_vm_of_ne k sz pgdir' m hq, hkd⟩, pgdir', ?_, ?_⟩
    · rw [resize_vm_self]
      rfl
    · rw [resize_vm_self]
      exact hg
  cases growproc_result hd hgap hok with
  | same => exact ⟨.refl p _, pgdir, hd, hgap⟩
  | grown hle hlt hgr => exact hresize hgr.mem.kdata (hgap.grown hle hlt hgr)
  | undone hu => exact hresize hu.kdata (hgap.undone hu)
  | shrunk _ _ hsz hun => exact hresize hun.mem.kdata (hgap.unmapped hun (by omega))

theorem fork_gap (h : GapInv k) (hp : k.Live p) (hok : fork k p = .ok (r, k')) :
    GapInv k' := by
  obtain ⟨pgdir, hd, hgap⟩ := h.gap p hp
  -- the slot of the child is the only one that changes
  have hset : ∀ {np c v}, SlotSet k np c v k' → ∀ q, q ≠ np →
      (k'.Live q → k.Live q) ∧ k'.vm q = k.vm q := by
    intro np c v hs q hq
    unfold Kernel.Live
    rw [hs.proc, hs.vm, Function.update_of_ne hq, Function.update_of_ne hq]
    exact ⟨id, rfl⟩
  rcases fork_cases hd hp hgap.sz_le h.link hok with ⟨-, rfl⟩ |
    ⟨-, np, c, v, -, hc, -, hs, -, hkd⟩ | ⟨-, np, kstack, d, l, m, -, ha, hcp, hs⟩
  · exact h
  · refine h.update np (fun q hq => (hset hs q hq).1) (fun q hq => (hset hs q hq).2) hkd ?_
    intro hl
    rw [Kernel.Live, hs.proc, Function.update_self] at hl
    exact absurd hc hl
  · refine h.update np (fun q hq => (hset hs q hq).1) (fun q hq => (hset hs q hq).2)
      (hcp.mem.kdata.trans ha.kdata) fun _ => ⟨d, by rw [hs.vm, Function.update_self], ?_⟩
    rw [hs.vm, Function.update_self]
    exact gapOk_of_draft rfl (hgap.heap.trans hgap.top) hcp

theorem reap_gap {c : Slot} (h : GapInv k) (hok : reap k c = .ok k') : GapInv k' := by
  obtain ⟨hproc, hvm, hkd⟩ := reap_frame hok
  refine h.update c (fun q hq hl => ?_) hvm hkd fun hl => ?_
  · rwa [Kernel.Live, hproc, Function.update_of_ne hq] at hl
  · rw [Kernel.Live, hproc, Function.update_self] at hl
    exact absurd rfl hl

theorem wait_gap {r : Option ℤ} (h : GapInv k) (hp : k.Live p) (hok : wait k p = .ok (r, k')) :
    GapInv k' := by
  have hset : ∀ c : Proc, c.state ≠ .unused → GapInv (k.setProc p c) := fun c hc =>
    ⟨h.link, fun q hq => h.gap q ((setProc_live hp hc q).mp hq)⟩
  rcases wait_cases hp hok with ⟨c, -, -, hreap⟩ | ⟨c, hc, rfl⟩
  · exact reap_gap (hset _ (by exact hp)) hreap
  · exact hset c hc

theorem exit_gap (h : GapInv k) (hp : k.Live p) (hok : exit k p = .ok k') : GapInv k' := by
  unfold exit at hok
  split at hok
  · cases hok
  · cases hok
    exact ⟨h.link, fun q hq => h.gap q fun hu => hq ((exitTable_unused hp q).mpr hu)⟩

/-- **The gap survives every call with room**, in whatever way it fails. -/
theorem GapInv.step {e : Slot × Call} (h : GapInv k) (hstep : Step k e k') (hroom : HasRoom k e) :
    GapInv k' := by
  obtain ⟨p, c⟩ := e
  obtain ⟨hcan, r, hok⟩ := hstep
  have hp : k.Live p := hcan.live
  have hg := h.gap p hp
  cases c with
  | getSharedPage i count =>
    obtain ⟨va, hrun, -⟩ := syscall_runs hok
    obtain ⟨r', k₁, hok', ho, hg'⟩ := allocSharedVM_gap hg hroom
    rw [hrun] at hok'
    cases hok'
    exact h.of_onlyVm ho hg'
  | freeSharedPage i =>
    obtain ⟨n, hrun, -⟩ := syscall_runs hok
    obtain ⟨ho, hg'⟩ := deallocProcSharedVM_frame hrun
    exact h.of_onlyVm ho (hg' hg)
  | fork =>
    obtain ⟨n, hrun, -⟩ := syscall_runs hok
    exact fork_gap h hp hrun
  | sbrk n =>
    obtain ⟨n', hrun⟩ := syscall_runs hok
    obtain ⟨ho, hg'⟩ := growproc_gap hg hrun
    exact h.of_onlyVm ho hg'
  | exit => exact exit_gap h hp (syscall_runs hok)
  | wait =>
    obtain ⟨n, hrun, -⟩ := syscall_runs hok
    exact wait_gap h hp hrun

end Steps

theorem Booted.gapInv {k : Kernel} (h : Booted k) : GapInv k := by
  obtain ⟨kend, kdata, others, init, hlink, hok, hno⟩ := h
  obtain ⟨np, hb, -⟩ := boot_inv hlink hok hno
  exact hb.inv.gapInv

/-- **Shared mappings stay apart from the memory of a process** as long as every new mapping fits
below `shaddr`: in every state of every such run `shaddr` is page-aligned, at most `KERNBASE` and
not below the memory of the process, and no next `GetSharedPage` with room panics. -/
theorem shared_mappings_apart {k₀ k : Kernel} {es : List (Slot × Call)} (hboot : Booted k₀)
    (hrun : Run (Guarded Step HasRoom) k₀ es k) (p : Slot) (hp : k.Live p) :
    (k.vm p).shaddr % PGSIZE = 0 ∧ PGROUNDUP (k.vm p).sz ≤ (k.vm p).shaddr ∧
      (k.vm p).shaddr ≤ KERNBASE ∧
      ∀ i count, HasRoom k (p, .getSharedPage i count) →
        ∃ r, syscall k p (.getSharedPage i count) = .ok r := by
  have h : GapInv k := Run.invariant (I := GapInv) (fun _ _ _ h hs => h.step hs.1 hs.2) hrun
    hboot.gapInv
  have hg := h.gap p hp
  obtain ⟨pgdir, -, hgap⟩ := h.gap p hp
  refine ⟨?_, ?_, hgap.shaddr_le, fun i count hroom => ?_⟩
  · rw [hgap.shaddr, Nat.mul_mod_left]
  · rw [PGROUNDUP_eq hgap.sz_le, hgap.shaddr]
    exact Nat.mul_le_mul_right _ hgap.heap
  · obtain ⟨r, k', hok, -⟩ := allocSharedVM_gap hg hroom
    exact ⟨(.addr r, k'), by simp only [syscall, hok, Except.ok_bind]; rfl⟩

theorem shared_mappings_apart_first_get : ∃ k₀ np k, Booted k₀ ∧
    Run (Guarded Step HasRoom) k₀ [(np, .getSharedPage 0 2)] k ∧ k.Live np ∧
      (k.vm np).shaddr % PGSIZE = 0 ∧ PGROUNDUP (k.vm np).sz ≤ (k.vm np).shaddr ∧
      (k.vm np).shaddr ≤ KERNBASE ∧
      ∀ i count, HasRoom k (np, .getSharedPage i count) →
        ∃ r, syscall k np (.getSharedPage i count) = .ok r := by
  obtain ⟨k₀, np, hboot, hno, hb, -⟩ := exists_booted
  have hfirst := hb.first
  obtain ⟨k, va, hok, -, hproc, -⟩ := hb.first_get hno
  have hroom : HasRoom k₀ (np, .getSharedPage 0 2) := by
    rintro i count key he - - - -
    cases he
    obtain ⟨pgdir, -, hgap⟩ := hboot.gapInv.gap np hfirst.live
    rw [hfirst.invalid key, PGROUNDUP_eq hgap.sz_le, hgap.shaddr, hfirst.sz, hfirst.top,
      if_neg (by decide)]
    decide
  have hrun : Run (Guarded Step HasRoom) k₀ [(np, .getSharedPage 0 2)] k :=
    .single ⟨step_getSharedPage (hfirst.canCall _) hok, hroom⟩
  have hlive : k.Live np := by
    unfold Kernel.Live
    rw [hproc]
    exact hfirst.live
  exact ⟨k₀, np, k, hboot, hrun, hlive, shared_mappings_apart hboot hrun np hlive⟩

/-! ### A run into the heap -/

/-- The state after the first process has created and freed a region of 64 pages `n`
times: only `shaddr` remembers it. -/
structure Churned (k₀ k : Kernel) (np : Slot) (n : ℕ) : Prop where
  inv : Inv k
  noFail : k.kmem.NoFail
  proc : k.proc = k₀.proc
  sz : pages (k.vm np).sz = 1
  top : (k.vm np).top = KERNPAGE - n * 64
  free : ∀ key, ¬ (k.vm np).Holds key
  census : k.census = k₀.census
  kend : k.kmem.kend = k₀.kmem.kend

namespace Churned

variable {k₀ k : Kernel} {np : Slot} {n : ℕ}

theorem live (h : Churned k₀ k np n) (q : Slot) : k.Live q ↔ k₀.Live q := by
  unfold Kernel.Live
  rw [h.proc]

theorem canCall (h : Churned k₀ k np n) (hb : BootState k₀ np) (c : Call) : CanCall k np c := by
  have hcan := hb.first.canCall c
  unfold CanCall at hcan ⊢
  rw [h.proc]
  exact hcan

/-- Nobody else is there to hold a region. -/
theorem invalid (h : Churned k₀ k np n) (hb : BootState k₀ np) (key : Key) :
    (k.regions key).valid = false := by
  by_contra hv
  have hpos := h.inv.pos key (by simpa using hv)
  rw [h.inv.count key] at hpos
  obtain ⟨q, hq⟩ := (Table.tally_pos_iff _ _).mp (by exact_mod_cast hpos)
  rcases eq_or_ne q np with rfl | hne
  · exact h.free key hq
  · exact h.inv.unused q (fun hl => hb.first.only hne ((h.live q).mp hl)) key hq

theorem freelist (h : Churned k₀ k np n) (hb : BootState k₀ np) :
    2 * 64 ≤ k.kmem.freelist.length := by
  have hge := freelist_length_ge h.inv ((h.live np).mpr hb.first.live)
    (fun q hq hl => hb.first.only hq ((h.live q).mp hl)) h.sz
  have hcard := hb.card
  rw [← h.census] at hcard
  omega

end Churned

/-- The calls of one round. -/
def churn (np : Slot) : List (Slot × Call) := [(np, .getSharedPage 0 64), (np, .freeSharedPage 0)]

/-- One round: the region is created, mapped and freed again, 64 pages further down. -/
theorem Churned.round {k₀ k : Kernel} {np : Slot} {n : ℕ} (h : Churned k₀ k np n)
    (hb : BootState k₀ np) (hn : 1 + 64 ≤ KERNPAGE - n * 64) :
    ∃ k', Run Step k (churn np) k' ∧ Churned k₀ k' np (n + 1) := by
  have hlive := (h.live np).mpr hb.first.live
  obtain ⟨k₁, hget, hno₁, hproc₁, hother₁, pgdir₁, hvm₁⟩ := allocSharedVM_new_ok h.inv hlive
    h.noFail (show keyOf 0 = some 0 from rfl) (h.invalid hb 0) (show (0 : ℤ) < 64 by decide)
    (by decide) (by rw [h.sz, h.top]; exact hn) (h.freelist hb)
  obtain ⟨hinv₁, htakes⟩ := allocSharedVM_spec h.inv hlive hget hno₁
  obtain ⟨l₁, ha⟩ := htakes.mem
  have hlive₁ : k₁.Live np := by
    unfold Kernel.Live
    rw [hproc₁]
    exact hlive
  have hheld : (k₁.vm np).Holds 0 := by
    rw [hvm₁]
    simp [ProcVm.Holds, ProcVm.withRegion]
  -- the pages of the region came from the free list, so they can go back
  have hfreeable : ∀ pa ∈ (k₁.regions 0).owned, k₁.kmem.Freeable pa := by
    intro pa hpa
    have hmem : pa ∈ k₁.census := Multiset.mem_of_le (regions_le_census k₁)
      (Multiset.mem_sum.mpr ⟨0, Finset.mem_univ _, hpa⟩)
    rw [htakes.census, h.census] at hmem
    obtain ⟨h₁, h₂, h₃⟩ := hb.freeable pa hmem
    exact ⟨h₁, by rw [ha.kend, h.kend]; exact h₂, h₃⟩
  obtain ⟨r, k₂, hfree⟩ := deallocProcSharedVM_ok hinv₁ (show keyOf 0 = some 0 from rfl) hheld
    hfreeable
  obtain ⟨hinv₂, hfrees, hcases⟩ := deallocProcSharedVM_spec hinv₁ hlive₁ hfree
  obtain ⟨l₂, hf⟩ := hfrees.mem
  have hdrop : Dropped k₁ np 0 k₂ := by
    rcases hcases with ⟨-, -, hno⟩ | ⟨key, hkey, -, hd, -⟩
    · exact absurd hheld (hno 0 rfl)
    · cases hkey
      exact hd
  obtain ⟨pgdir₂, hvm₂⟩ := hdrop.self
  have hcan₁ : CanCall k₁ np (.freeSharedPage 0) := by
    have hcan := h.canCall hb (.freeSharedPage 0)
    unfold CanCall at hcan ⊢
    rw [hproc₁]
    exact hcan
  refine ⟨k₂, .snoc (.single (step_getSharedPage (h.canCall hb _) hget))
    (step_freeSharedPage hcan₁ hfree), hinv₂, hf.noFail hno₁,
    hdrop.proc.trans (hproc₁.trans h.proc), ?_, ?_, fun key => ?_,
    hfrees.census.trans (htakes.census.trans h.census), hf.kend.trans (ha.kend.trans h.kend)⟩
  · rw [hvm₂, hvm₁]
    exact h.sz
  · rw [hvm₂, hvm₁]
    change ((k.vm np).top - Int.toNat 64) * PGSIZE / PGSIZE = _
    rw [Nat.mul_div_cancel _ (by decide), h.top, Nat.sub_sub, Nat.succ_mul]
    rfl
  · rcases eq_or_ne key 0 with rfl | hne
    · rw [hvm₂]
      exact not_holds_withoutRegion _ _ _
    · rw [hvm₂, ProcVm.Holds, withoutRegion_shared_of_ne _ _ hne, hvm₁,
        withRegion_holds_of_ne _ _ _ hne]
      exact h.free key

theorem Churned.rounds {k₀ k : Kernel} {np : Slot} (hb : BootState k₀ np)
    (h₀ : Churned k₀ k np 0) : ∀ n, 1 + n * 64 ≤ KERNPAGE →
      ∃ k', Run Step k (List.replicate n (churn np)).flatten k' ∧ Churned k₀ k' np n := by
  -- induction on the number of rounds, one more at the end
  intro n
  induction n with
  | zero => exact fun _ => ⟨k, .nil, h₀⟩
  | succ n ih =>
    intro hn
    obtain ⟨k₁, hrun₁, h₁⟩ := ih (by omega)
    obtain ⟨k₂, hrun₂, h₂⟩ := h₁.round hb (by omega)
    refine ⟨k₂, ?_, h₂⟩
    rw [List.replicate_succ', List.flatten_append, List.flatten_singleton]
    exact hrun₁.trans hrun₂

/-- **Shared mappings run into the memory of a process.** The first process creates and frees a
region of 64 pages 8191 times; the next `GetSharedPage` finds the page of the process itself and
the kernel panics. -/
theorem shared_mappings_collide : ∃ k₀ np k, Booted k₀ ∧
    Run Step k₀ (List.replicate 8191
      [(np, .getSharedPage 0 64), (np, .freeSharedPage 0)]).flatten k ∧
    CanCall k np (.getSharedPage 0 64) ∧
    syscall k np (.getSharedPage 0 64) = .error (.panic "remap") := by
  obtain ⟨k₀, np, hboot, hno, hb, -⟩ := exists_booted
  have h₀ : Churned k₀ k₀ np 0 := by
    refine ⟨hb.inv, hno, rfl, hb.first.sz, by rw [hb.first.top]; rfl, fun key hk => ?_, rfl, rfl⟩
    have hv := hb.inv.valid_of_holds hk
    rw [hb.first.invalid key] at hv
    cases hv
  obtain ⟨k, hrun, h⟩ := Churned.rounds hb h₀ 8191 (by decide)
  have hremap := allocSharedVM_remap h.inv ((h.live np).mpr hb.first.live)
    (show keyOf 0 = some 0 from rfl) (h.invalid hb 0) (show (0 : ℤ) < 64 by decide) (by decide)
    (by rw [h.sz, h.top]; decide) (h.freelist hb)
  refine ⟨k₀, np, k, hboot, hrun, h.canCall hb _, ?_⟩
  simp only [syscall, hremap]
  rfl

end Xv6.Shared
