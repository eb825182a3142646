import CS450.Shared.Args

/-!
# Copying an address space

`copyuvm` makes the memory of a child. Until it returns, all pages that it has taken are accounted
for in the directory that it builds or in its hand, so the failure path can free the directory at
whatever point it was given up: in the kernel's part, in the middle of the copy, or between a page
and its table.
-/

namespace Xv6

/-- The frames of the directory are in use. -/
def PageDir.InUse (pgdir : PageDir) (m : Kmem) : Prop :=
  ∀ v, v < KERNPAGE → (pgdir.entry v).p = true → (pgdir.entry v).addr ∉ m.freelist

/-- **A duplicate of the private memory** below `sz`: each page has the flags of the original, and
is mapped to a page that was free, with the same contents; different pages are mapped to different
pages, and nothing else is mapped below the kernel. -/
structure Duplicate (sz : ℕ) (pgdir d : PageDir) (m m' : Kmem) : Prop where
  flags : ∀ v, v < pages sz → (d.entry v).p = (pgdir.entry v).p ∧
    (d.entry v).w = (pgdir.entry v).w ∧
    (d.entry v).u = (pgdir.entry v).u
  contents : ∀ v, v < pages sz → m'.mem (d.entry v).addr = m.mem (pgdir.entry v).addr
  fresh : ∀ v, v < pages sz → (d.entry v).addr ∈ m.freelist ∧ (d.entry v).addr ∉ m'.freelist
  distinct : ∀ v w, v < pages sz → w < pages sz → (d.entry v).addr = (d.entry w).addr → v = w
  apart : ∀ v w, v < pages sz → w < KERNPAGE → (pgdir.entry w).p = true →
    (pgdir.entry w).addr ≠ (d.entry v).addr
  nothing : ∀ v, pages sz ≤ v → v < KERNPAGE → (d.entry v).p = false

section Copy

variable {hi : ℕ} {l : List ℕ} {d pgdir : PageDir} {m₀ m : Kmem}

/-- A page of a draft is not free any more. -/
theorem Draft.not_free {K : ℕ → Prop} (h : Draft K hi l d m₀ m) (hnd : m₀.freelist.Nodup) {a : ℕ}
    (ha : a ∈ l) : a ∉ m.freelist := by
  rw [h.mem.freelist] at hnd
  exact fun hf => List.disjoint_of_nodup_append hnd ha hf

theorem Draft.frames_nodup {K : ℕ → Prop} (h : Draft K hi l d m₀ m) (hnd : m₀.freelist.Nodup) :
    (d.frames 0 hi).Nodup := by
  rw [h.mem.freelist] at hnd
  refine Multiset.nodup_of_le ?_ (Multiset.coe_nodup.mpr hnd.of_append_left)
  rw [h.taken]
  exact Multiset.le_add_left _ _

/-- When no page was free twice, a copy is a duplicate. -/
theorem Copied.duplicate {sz : ℕ} (hc : Copied (pages sz) l pgdir d m₀ m) (hsz : sz ≤ KERNBASE)
    (hnd : m₀.freelist.Nodup) (hpr : ∀ v, v < pages sz → (pgdir.entry v).p = true)
    (huse : pgdir.InUse m₀) : Duplicate sz pgdir d m₀ m := by
  have hbound := pages_le hsz
  have hl : ∀ v, v < pages sz → (d.entry v).addr ∈ l := fun v hv =>
    hc.draft.frame_mem (by omega) (hc.draft.present v hv)
  refine ⟨fun v hv => ?_, fun v hv => hc.contents hnd v hv (huse v (by omega) (hpr v hv)),
    fun v hv => ⟨hc.draft.mem_freelist (hl v hv), hc.draft.not_free hnd (hl v hv)⟩,
    fun v w hv hw he => ?_, fun v w hv hw hp he => ?_, hc.draft.absent⟩
  · rw [hc.flags v hv, hpr v hv]
    exact ⟨rfl, rfl, rfl⟩
  · exact PageDir.frames_injective (hc.draft.frames_nodup hnd) (by simpa using hv)
      (by simpa using hw)
      (hc.draft.present v hv) (hc.draft.present w hw) he
  · exact huse w hw hp (he ▸ hc.draft.mem_freelist (hl v hv))

end Copy

/-- **`copyuvm` duplicates exactly the private memory.** It returns, wherever `kalloc` fails. The
result is a duplicate, or all pages that it took are free again, each once. No page that was in use
has been written. -/
theorem copyuvm_duplicates {pgdir : PageDir} {sz : ℕ} {m : Kmem} (hsz : sz ≤ KERNBASE)
    (hlink : m.LinkOk) (hm : m.FreeOk) (hnd : m.freelist.Nodup)
    (hpr : ∀ v, v < pages sz → (pgdir.entry v).p = true) (huse : pgdir.InUse m) :
    ∃ r m', copyuvm pgdir sz m = .ok (r, m') ∧ (∀ d, r = some d → Duplicate sz pgdir d m m') ∧
      (r = none → m'.freelist.Nodup ∧ ∀ a, a ∈ m'.freelist ↔ a ∈ m.freelist) ∧
      ∀ a ∉ m.freelist, m'.mem a = m.mem a := by
  obtain ⟨r, hok, hr⟩ := (copyuvm_spec hsz hlink).exists ⟨hm, hpr⟩
  cases hr with
  | @made l d m' hc =>
    refine ⟨some d, m', hok, fun d' he => ?_, by simp, hc.draft.accounted.mem⟩
    obtain rfl := Option.some.inj he
    exact hc.duplicate hsz hnd hpr huse
  | @failed m' hrel =>
    refine ⟨none, m', hok, by simp, fun _ => ⟨?_, fun a => ?_⟩, hrel.mem⟩
    · rw [← Multiset.coe_nodup, hrel.freelist]
      exact hnd
    · rw [← Multiset.mem_coe, hrel.freelist, Multiset.mem_coe]

/-- The memory of the first process after boot is copied, or everything is free again. -/
theorem copyuvm_duplicates_first_process :
    ∃ k p pgdir, Shared.Booted k ∧ (k.vm p).pgdir = some pgdir ∧
    ∃ r m', copyuvm pgdir (k.vm p).sz k.kmem = .ok (r, m') ∧
      (∀ d, r = some d → Duplicate (k.vm p).sz pgdir d k.kmem m') ∧
      (r = none → m'.freelist.Nodup ∧ ∀ a, a ∈ m'.freelist ↔ a ∈ k.kmem.freelist) := by
  obtain ⟨k, p, hboot, -, hb, hkend⟩ := Shared.exists_booted
  have hlive := hb.first.live
  obtain ⟨pgdir, kstack, hd, -, hs⟩ := hb.inv.space p hlive
  obtain ⟨r, m', hok, hdup, hnone, -⟩ := copyuvm_duplicates hs.sz_le hb.inv.link
    (Shared.freeOk_of_census hkend hb.freeable) (Shared.freelist_nodup hb.inv.toInvCore) hs.own
    fun v hv hp => Shared.present_not_free hb.inv.toInvCore hlive hd hv hp
  exact ⟨k, p, pgdir, hboot, hd, r, m', hok, hdup, hnone⟩

end Xv6
