import CS450.Shared.Ownership
import CS450.Vm.Fetch

/-!
# System call arguments are private

`argstr` checks a string and leaves it where it is. That is sound only if nobody else can write to
it before the kernel uses it, and the shared-memory kernel has writable shared memory. What makes it
sound is the layout: the argument functions accept addresses below `sz`, and shared regions begin at
`shaddr`, which is not below. So the frames behind an accepted range belong to the process alone.

## Main results

* `own_frame_apart`: a frame of a process's own memory is mapped for no other process
* `args_private`: the argument functions accept exactly the ranges inside the memory of the process,
  and these are private
* `memory_isolated`: processes share memory only through regions
-/

namespace Xv6.Shared

open Transition

/-- The process with its page directory and its user stack pointer. -/
def Kernel.caller (k : Kernel) (p : Slot) (pgdir : PageDir) (esp : ℕ) : Caller :=
  ⟨pgdir, (k.vm p).sz, esp⟩

/-- The pages of a frame are not mapped for the user by another process. -/
def Kernel.Alone (k : Kernel) (p : Slot) (a : ℕ) : Prop :=
  ∀ q d u, q ≠ p → k.Live q → (k.vm q).pgdir = some d → (d.entry u).p = true →
    (d.entry u).u = true → (d.entry u).addr ≠ a

/-- **A private range** of addresses of `p`: every byte is mapped and below `shaddr`. In a kernel
that keeps the invariant of shared memory, no byte is in a shared region, and no other process can
reach it. -/
structure Private (k : Kernel) (p : Slot) (pgdir : PageDir) (lo len : ℕ) : Prop where
  present : ∀ va, lo ≤ va → va < lo + len → (pgdir.entry (va / PGSIZE)).p = true
  below : ∀ va, lo ≤ va → va < lo + len → va < (k.vm p).shaddr
  outside : Inv k → k.Live p → ∀ va, lo ≤ va → va < lo + len → ∀ key, (k.vm p).Holds key →
    va < ((k.vm p).shared key).va
  alone : Inv k → k.Live p → ∀ va, lo ≤ va → va < lo + len →
    k.Alone p (pgdir.entry (va / PGSIZE)).addr

section Layout

variable {k : Kernel} {p : Slot} {pgdir : PageDir}

theorem own_frame_mem (hp : k.Live p) (hd : (k.vm p).pgdir = some pgdir) {v : ℕ}
    (hv : v < pages (k.vm p).sz) (hpr : (pgdir.entry v).p = true) :
    (pgdir.entry v).addr ∈ k.procPages p := by
  rw [procPages_of_live hp, ProcVm.owned, hd]
  simp only [Option.elim_some, Multiset.mem_add]
  exact .inr (.inr (PageDir.mem_frames.mpr ⟨v, Nat.zero_le v, hv, hpr, rfl⟩))

/-- **A frame of a process's own memory is its own.** Another process has its own memory, which has
other frames, the regions it holds, whose pages belong to no process, and the kernel's part, which
is not for the user. -/
theorem own_frame_apart (h : InvCore k) (hp : k.Live p) (hd : (k.vm p).pgdir = some pgdir) {v : ℕ}
    (hv : v < pages (k.vm p).sz) (hpr : (pgdir.entry v).p = true) :
    k.Alone p (pgdir.entry v).addr := by
  intro q d u hne hq hdq hup huu he
  have hmem := own_frame_mem hp hd hv hpr
  obtain ⟨d', kstack, hd', -, hs⟩ := h.space q hq
  obtain rfl : d' = d := Option.some.inj (hd'.symm.trans hdq)
  rcases Nat.lt_or_ge u (pages (k.vm q).sz) with hown | hge
  · -- in the memory of the other process
    have hmem' := own_frame_mem hq hdq hown hup
    rw [he] at hmem'
    have hnd : (∑ r, k.procPages r).Nodup := by
      refine Multiset.nodup_of_le ?_ h.nodup
      exact (Multiset.le_add_left _ _).trans (Multiset.le_add_right _ _)
    exact hne (disjoint_of_sum_nodup hnd hmem' hmem)
  · rcases Nat.lt_or_ge u (k.vm q).top with hgap | htop
    · rw [hs.gap u hge hgap] at hup
      cases hup
    · rcases Nat.lt_or_ge u KERNPAGE with hk | hk
      · -- in a shared region
        obtain ⟨key, hkey, hlo, hhi⟩ := hs.only u htop hk hup
        have hheld := hs.held key hkey (u - (k.vm q).base key) (by omega)
        rw [Nat.add_sub_cancel' hlo] at hheld
        have howned : (pgdir.entry v).addr ∈ (k.regions key).owned := by
          rw [← he, hheld]
          exact mem_owned.mpr ⟨h.valid_of_holds hkey, _, by omega, rfl⟩
        exact (h.page_apart howned).2 p hmem
      · rw [hs.kernel u hk] at huu
        cases huu

/-- The pages of a process are not free. -/
theorem procPages_not_free (h : InvCore k) {a : ℕ} (ha : a ∈ k.procPages p) :
    a ∉ k.kmem.freelist := by
  intro hfree
  have hnd := (Multiset.nodup_add.mp h.nodup).1
  have hsum : a ∈ ∑ q, k.procPages q := Multiset.mem_sum.mpr ⟨p, Finset.mem_univ _, ha⟩
  exact Multiset.disjoint_left.mp (Multiset.nodup_add.mp hnd).2.2 hfree hsum

/-- No page that a process has mapped below the kernel is free. -/
theorem present_not_free (h : InvCore k) (hp : k.Live p) (hd : (k.vm p).pgdir = some pgdir) {v : ℕ}
    (hv : v < KERNPAGE) (hpr : (pgdir.entry v).p = true) :
    (pgdir.entry v).addr ∉ k.kmem.freelist := by
  obtain ⟨d', kstack, hd', -, hs⟩ := h.space p hp
  obtain rfl : d' = pgdir := Option.some.inj (hd'.symm.trans hd)
  rcases Nat.lt_or_ge v (pages (k.vm p).sz) with hown | hge
  · exact procPages_not_free h (own_frame_mem hp hd hown hpr)
  · rcases Nat.lt_or_ge v (k.vm p).top with hgap | htop
    · rw [hs.gap v hge hgap] at hpr
      cases hpr
    · obtain ⟨key, hkey, hlo, hhi⟩ := hs.only v htop hv hpr
      have hheld := hs.held key hkey (v - (k.vm p).base key) (by omega)
      rw [Nat.add_sub_cancel' hlo] at hheld
      have howned : (d'.entry v).addr ∈ (k.regions key).owned := by
        rw [hheld]
        exact mem_owned.mpr ⟨h.valid_of_holds hkey, _, by omega, rfl⟩
      exact (h.page_apart howned).1

/-- A range inside the memory of the process is private. -/
theorem private_of_le (hd : (k.vm p).pgdir = some pgdir)
    (hlow : pages (k.vm p).sz * PGSIZE ≤ (k.vm p).shaddr)
    (hpr : ∀ v, v < pages (k.vm p).sz → (pgdir.entry v).p = true) {lo len : ℕ}
    (hin : lo + len ≤ (k.vm p).sz) : Private k p pgdir lo len := by
  have hpage : ∀ va, va < lo + len → va / PGSIZE < pages (k.vm p).sz := by
    simp only [pages, PGSIZE]
    omega
  have hbelow : ∀ va, va < lo + len → va < (k.vm p).shaddr := by
    simp only [pages, PGSIZE] at hlow
    omega
  refine ⟨fun va _ hva => hpr _ (hpage va hva), fun va _ hva => hbelow va hva, ?_, ?_⟩
  · intro hinv hlive va _ hva key hkey
    obtain ⟨d, kstack, -, -, hs⟩ := hinv.space p hlive
    have htop := Nat.mul_le_mul_right PGSIZE (hs.low key hkey)
    rw [← hs.shaddr, ← hs.va key hkey] at htop
    exact (hbelow va hva).trans_le htop
  · intro hinv hlive va _ hva
    exact own_frame_apart hinv.toInvCore hlive hd (hpage va hva) (hpr _ (hpage va hva))

end Layout

/-- **System call arguments are confined to private memory.** For a process whose memory is present
and ends at or below its `shaddr`, and whatever is in its memory and in its stack pointer, the
argument functions return. They succeed exactly when the bytes that they are about are inside `[0,
sz)`, with no sum taken modulo `2 ^ 32`, and these bytes are then private. -/
theorem args_private {k : Kernel} {p : Slot} {pgdir : PageDir} (hd : (k.vm p).pgdir = some pgdir)
    (hlow : pages (k.vm p).sz * PGSIZE ≤ (k.vm p).shaddr) (hhigh : (k.vm p).shaddr ≤ KERNBASE)
    (hpr : ∀ v, v < pages (k.vm p).sz → (pgdir.entry v).p = true) (esp : ℕ) :
    (∀ n, ∃ r, argint (k.caller p pgdir esp) k.kmem n = .ok r ∧
      (r ≠ none ↔ (k.caller p pgdir esp).argAddr n + 4 ≤ (k.vm p).sz) ∧
      (r ≠ none → Private k p pgdir ((k.caller p pgdir esp).argAddr n) 4)) ∧
    (∀ n size, size < 2 ^ 31 → ∃ r, argptr (k.caller p pgdir esp) k.kmem n size = .ok r ∧
      (∀ i, r = some i ↔ argint (k.caller p pgdir esp) k.kmem n = .ok (some i) ∧ 0 ≤ size ∧
        i < (k.vm p).sz ∧ (i : ℤ) + size ≤ (k.vm p).sz) ∧
      ∀ i, r = some i → Private k p pgdir i size.toNat) ∧
    (∀ addr, ∃ r, fetchstr (k.caller p pgdir esp) k.kmem addr = .ok r ∧
      (∀ n, r = some n ↔ addr + n < (k.vm p).sz ∧ k.kmem.byte pgdir (addr + n) = 0 ∧
        ∀ j, j < n → k.kmem.byte pgdir (addr + j) ≠ 0) ∧
      ∀ n, r = some n → Private k p pgdir addr (n + 1)) ∧
    ∀ n, ∃ r, argstr (k.caller p pgdir esp) k.kmem n = .ok r ∧
      (∀ addr len, r = some (addr, len) ↔
        argint (k.caller p pgdir esp) k.kmem n = .ok (some addr) ∧ addr + len < (k.vm p).sz ∧
        k.kmem.byte pgdir (addr + len) = 0 ∧
        ∀ j, j < len → k.kmem.byte pgdir (addr + j) ≠ 0) ∧
      ∀ addr len, r = some (addr, len) → Private k p pgdir addr (len + 1) := by
  have hmapped : (k.caller p pgdir esp).Mapped := by
    refine ⟨?_, hpr⟩
    show (k.vm p).sz ≤ KERNBASE
    simp only [pages, PGSIZE] at hlow
    omega
  have hprivate := @private_of_le k p pgdir hd hlow hpr
  refine ⟨fun n => ?_, fun n size hsize => ?_, fun addr => ?_, fun n => ?_⟩
  · have hspec := argint_spec (m := k.kmem) hmapped n
    by_cases hin : (k.caller p pgdir esp).argAddr n + 4 ≤ (k.caller p pgdir esp).sz
    · rw [if_pos hin] at hspec
      exact ⟨_, hspec, ⟨fun _ => hin, fun _ => Option.some_ne_none _⟩, fun _ => hprivate hin⟩
    · rw [if_neg hin] at hspec
      exact ⟨_, hspec, ⟨fun hne => absurd rfl hne, fun h => absurd h hin⟩,
        fun hne => absurd rfl hne⟩
  · obtain ⟨r, hr, hspec⟩ := argptr_spec (m := k.kmem) hmapped n size hsize
    refine ⟨r, hr, hspec, fun i hi => hprivate ?_⟩
    obtain ⟨-, h₀, -, hend⟩ := (hspec i).mp hi
    have hend' : (i : ℤ) + size ≤ (k.vm p).sz := hend
    omega
  · obtain ⟨r, hr, hspec⟩ := fetchstr_spec (m := k.kmem) hmapped addr
    exact ⟨r, hr, hspec, fun n hn => hprivate ((hspec n).mp hn).1⟩
  · obtain ⟨r, hr, hspec⟩ := argstr_spec (m := k.kmem) hmapped n
    exact ⟨r, hr, hspec, fun addr len hn => hprivate ((hspec addr len).mp hn).2.1⟩

/-- The first process makes a system call with its stack pointer at the bottom of its memory: the
first argument is fetched, and it is private. -/
theorem args_private_first_process : ∃ k p pgdir r, Booted k ∧ (k.vm p).pgdir = some pgdir ∧
    argint (k.caller p pgdir 0) k.kmem 0 = .ok r ∧ r ≠ none ∧ Private k p pgdir 4 4 := by
  obtain ⟨k, np, hboot, -, hb, -⟩ := exists_booted
  obtain ⟨d, kstack, hd, -, hs⟩ := hb.inv.space np hb.first.live
  have hlow : pages (k.vm np).sz * PGSIZE ≤ (k.vm np).shaddr := by
    rw [hs.shaddr]
    exact Nat.mul_le_mul_right _ hs.heap
  have hhigh : (k.vm np).shaddr ≤ KERNBASE := by
    rw [hs.shaddr, KERNBASE_eq]
    exact Nat.mul_le_mul_right _ hs.top
  obtain ⟨hint, -⟩ := args_private hd hlow hhigh hs.own 0
  obtain ⟨r, hr, hiff, hpriv⟩ := hint 0
  have hsz : 4 + 4 ≤ (k.vm np).sz := by
    obtain ⟨_, _, hvm⟩ := hb.first.vm
    rw [hvm, Function.update_self]
    show 4 + 4 ≤ PGSIZE
    decide
  exact ⟨k, np, d, r, hboot, hd, hr, hiff.mpr hsz, hpriv (hiff.mpr hsz)⟩

/-! ### Isolation -/

/-- The user part of the process has the frame `a` at the page `v`. -/
def Kernel.Reaches (k : Kernel) (p : Slot) (v a : ℕ) : Prop :=
  k.Live p ∧ ∃ d, (k.vm p).pgdir = some d ∧ (d.entry v).p = true ∧ (d.entry v).u = true ∧
    (d.entry v).addr = a

/-- **Isolation.** No frame that a process reaches is free, and two processes reach the same frame
only through a region that both hold, and at the same place of it. -/
def Kernel.Isolated (k : Kernel) : Prop :=
  (∀ p v a, k.Reaches p v a → a ∉ k.kmem.freelist) ∧
  ∀ p q u v a, q ≠ p → k.Reaches p u a → k.Reaches q v a →
    ∃ key j, (k.vm p).Holds key ∧ (k.vm q).Holds key ∧ j < (k.regions key).pageCount ∧
      u = (k.vm p).base key + j ∧ v = (k.vm q).base key + j

section Isolation

variable {k : Kernel} {p : Slot} {v a : ℕ}

theorem Kernel.Reaches.space (h : InvCore k) (hr : k.Reaches p v a) :
    ∃ d, (k.vm p).pgdir = some d ∧ SpaceOk k.regions (k.vm p) d ∧ v < KERNPAGE ∧
      (d.entry v).p = true ∧ (d.entry v).addr = a := by
  obtain ⟨hp, d, hd, hpr, hu, ha⟩ := hr
  obtain ⟨d', -, hd', -, hs⟩ := h.space p hp
  obtain rfl : d' = d := Option.some.inj (hd'.symm.trans hd)
  refine ⟨d', hd, hs, ?_, hpr, ha⟩
  by_contra hk
  rw [hs.kernel v (not_lt.mp hk)] at hu
  cases hu

/-- What a process reaches is its own, or of a region it holds. -/
theorem Kernel.Reaches.cases (h : InvCore k) (hr : k.Reaches p v a) :
    (∀ q u, q ≠ p → ¬ k.Reaches q u a) ∨ ∃ key j, (k.vm p).Holds key ∧
      j < (k.regions key).pageCount ∧ v = (k.vm p).base key + j ∧
      (k.regions key).pages ((k.regions key).pageCount - 1 - j) = a := by
  obtain ⟨d, hd, hs, hk, hpr, rfl⟩ := hr.space h
  rcases Nat.lt_or_ge v (pages (k.vm p).sz) with hown | hge
  · left
    rintro q u hne ⟨hq, d, hdq, hup, huu, he⟩
    exact own_frame_apart h hr.1 hd hown hpr q d u hne hq hdq hup huu he
  · right
    have htop : (k.vm p).top ≤ v := by
      by_contra hgap
      rw [hs.gap v hge (not_le.mp hgap)] at hpr
      cases hpr
    obtain ⟨key, hkey, hlo, hhi⟩ := hs.only v htop hk hpr
    have hheld := hs.held key hkey (v - (k.vm p).base key) (by omega)
    rw [Nat.add_sub_cancel' hlo] at hheld
    refine ⟨key, v - (k.vm p).base key, hkey, by omega, by omega, ?_⟩
    rw [hheld]
    rfl

/-- **Processes share memory only through regions**, in every state of every run from boot. -/
theorem memory_isolated {k₀ : Kernel} {es : List (Slot × Call)} (hboot : Booted k₀)
    (hrun : Run SafeStep k₀ es k) : k.Isolated := by
  have h := (run_inv hboot hrun).1
  refine ⟨fun p v a hp => ?_, fun p q u v a hne hp hq => ?_⟩
  · obtain ⟨d, hd, -, hk, hpr, rfl⟩ := hp.space h.toInvCore
    exact present_not_free h.toInvCore hp.1 hd hk hpr
  · rcases hp.cases h.toInvCore with hown | ⟨key, j, hkey, hj, hu, hpa⟩
    · exact absurd hq (hown q v hne)
    rcases hq.cases h.toInvCore with hown | ⟨key', j', hkey', hj', hv, hqa⟩
    · exact absurd hp (hown p u hne.symm)
    -- a page is at one place of one region
    obtain ⟨rfl, he⟩ := h.page_injective (h.valid_of_holds hkey) (h.valid_of_holds hkey') (by omega)
      (by omega) (hqa.trans hpa.symm)
    obtain rfl : j' = j := by omega
    exact ⟨key', j', hkey, hkey', hj, hu, hv⟩

theorem memory_isolated_two_holders : ∃ k₀ np q k, Booted k₀ ∧ q ≠ np ∧
    Run SafeStep k₀ [(np, .getSharedPage 0 2), (np, .fork), (q, .getSharedPage 0 1)] k ∧
      (k.vm np).Holds 0 ∧ (k.vm q).Holds 0 ∧ k.Isolated := by
  obtain ⟨k₀, np, q, k, hboot, hne, hrun, hp, hq⟩ := exists_two_holders
  exact ⟨k₀, np, q, k, hboot, hne, hrun, hp, hq, memory_isolated hboot hrun⟩

end Isolation

end Xv6.Shared
