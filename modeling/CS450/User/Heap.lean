import CS450.Lib.Run
import CS450.User.FreeList

/-!
# Runs of the allocator

A program that calls `malloc` and `free`, and writes into the blocks that it holds, while `sbrk`
gives fresh memory at increasing addresses or fails. Whatever the program does, the free list stays
sound, and the free and the live blocks share out the memory that `sbrk` gave.

## Main results

* `Sound.step`: every step keeps the heap sound
* `heap_sound`: in every run the heap is sound, and `malloc` and `free` return what they should
-/

namespace Xv6.Umalloc

open Cycle Extent Transition

/-! ### The process -/

/-- The header at `a` is in the memory that `sbrk` gave. -/
def obtained (given : List Extent) (a : ℕ) : Bool :=
  (List.range 8).all fun i => given.any fun r => decide (r.Has (a + i))

/-- A process whose memory is `base` and what `sbrk` gave so far, where the next call of `sbrk` has
the given answer. -/
def process (base : ℕ) (answer : Option ℕ) : Platform (List Extent) where
  base := base
  mapped given a := decide (a = base) || obtained given a
  sbrk n given :=
    match answer with
    | none => .ok (WORD - 1, given)
    | some p => .ok (p, ⟨p, n⟩ :: given)

/-- The first address behind the memory of the process. -/
def top (base : ℕ) : List Extent → ℕ
  | [] => base + 8
  | r :: _ => r.stop

/-- The allocator, and the blocks that the program holds. -/
structure Heap where
  machine : Machine (List Extent)
  live : List Extent

inductive Event
  /-- `malloc(n)`, with the answer of `sbrk` if it is called -/
  | malloc (n : ℕ) (answer : Option ℕ)
  /-- `free` of a block -/
  | free (b : Extent)
  /-- the program writes into its blocks -/
  | write (mem : ℕ → Header)

/-- **What can happen**: requests of at most `2 ^ 30` bytes, where the memory that `sbrk` gives is
fresh and at increasing addresses; live blocks are freed, and the program writes behind their
headers. -/
def Enabled (base : ℕ) (s : Heap) : Event → Prop
  | .malloc n answer => n ≤ 2 ^ 30 ∧ ∀ p, answer = some p →
      top base s.machine.env ≤ p ∧ p + coreUnits (unitsFor n) * 8 < WORD
  | .free b => b ∈ s.live
  | .write mem => ∀ a, mem a ≠ s.machine.mem a → ∃ b ∈ s.live, b.start < a ∧ a < b.stop

/-- **The steps.** -/
inductive Step (base : ℕ) : Heap → Event → Heap → Prop
  | malloc {s : Heap} {n r : ℕ} {answer : Option ℕ} {m' : Machine (List Extent)} :
      Enabled base s (.malloc n answer) →
      Returns (fun rounds => malloc (process base answer) rounds n) s.machine r m' →
      Step base s (.malloc n answer) ⟨m', if r = 0 then s.live else blockAt m' r :: s.live⟩
  | free {s : Heap} {b : Extent} {m' : Machine (List Extent)} : Enabled base s (.free b) →
      Returns (fun rounds => free (process base none) rounds (b.start + 8)) s.machine () m' →
      Step base s (.free b) ⟨m', s.live.erase b⟩
  | write {s : Heap} {mem : ℕ → Header} : Enabled base s (.write mem) →
      Step base s (.write mem) ⟨⟨mem, s.machine.freep, s.machine.env⟩, s.live⟩

/-- Before the first call. -/
def start (mem : ℕ → Header) : Heap := ⟨⟨mem, 0, []⟩, []⟩

/-! ### The invariant -/

/-- **The heap is sound**: there is a free list, or there is none yet and nothing was obtained; the
live blocks have their sizes in their headers; free and live blocks share out what was obtained. -/
structure Sound (base : ℕ) (s : Heap) (l : List Extent) : Prop where
  list : (s.machine.freep = 0 ∧ l = [] ∧ s.live = [] ∧ s.machine.env = []) ∨
    FreeList (process base none) s.machine l
  liveSize : ∀ v ∈ s.live, 0 < v.len ∧ 8 * (s.machine.mem v.start).size = v.len
  shares : Shares l s.live s.machine.env
  range : ∀ x, Covers s.machine.env x → base + 8 ≤ x ∧ x < top base s.machine.env
  top_ge : base + 8 ≤ top base s.machine.env
  top_lt : s.machine.env ≠ [] → top base s.machine.env < WORD

section Process

variable {base : ℕ} {answer answer' : Option ℕ} {given : List Extent} {m : Machine (List Extent)}
  {l : List Extent} {a : ℕ}

theorem mapped_iff : (process base answer).mapped given a ↔
    a = base ∨ ∀ i, i < 8 → Covers given (a + i) := by
  simp [process, obtained, Covers]

theorem mapped_mono {r : Extent} (h : (process base answer).mapped given a) :
    (process base answer).mapped (r :: given) a := by
  rw [mapped_iff] at h ⊢
  exact h.imp_right fun h i hi => covers_cons.mpr (.inr (h i hi))

theorem usable_of_covers {b : Extent} (hb : 8 ∣ b.len) (h : ∀ x, b.Has x → Covers given x) :
    Usable (process base answer) given b := by
  refine ⟨hb, fun k hk => mapped_iff.mpr (.inr fun i hi => h _ ?_)⟩
  simp only [Has, stop]
  omega

/-- The list does not depend on the next answer. -/
theorem FreeList.congr (h : FreeList (process base answer) m l) :
    FreeList (process base answer') m l :=
  ⟨h.listed, h.freep, h.baseMapped, h.usable, h.spaced, h.above, h.below⟩

/-- The memory that `sbrk` gives. -/
theorem answers_process {n : ℕ} (h : ∀ p, answer = some p → top base given ≤ p ∧ p + n < WORD) :
    Answers (process base answer) given (top base given) n
      ((process base answer).sbrk n given) := by
  cases answer with
  | none => exact .fails fun _ ha => ha
  | some p =>
    obtain ⟨hp, hlt⟩ := h p rfl
    refine .gives hp hlt (fun _ ha => mapped_mono ha) fun a ha ha' =>
      mapped_iff.mpr (.inr fun i hi => ?_)
    refine covers_cons.mpr (.inl ?_)
    simp only [Has, stop]
    omega

/-- Requests in bounds do not wrap. -/
theorem coreUnits_lt {n : ℕ} (h : n ≤ 2 ^ 30) :
    coreUnits (unitsFor n) * 8 < WORD ∧ n + 8 ≤ 8 * unitsFor n := by
  have hadd : add32 n 7 = n + 7 := add32_eq (by unfold WORD; omega)
  unfold coreUnits unitsFor
  unfold WORD
  split_ifs <;> omega

end Process

/-! ### Every step keeps the heap sound -/

section Sound

variable {base n : ℕ} {answer : Option ℕ} {s : Heap} {l : List Extent} {v : Extent}

theorem sound_start (base : ℕ) (mem : ℕ → Header) : Sound base (start mem) [] where
  list := .inl ⟨rfl, rfl, rfl, rfl⟩
  liveSize := nofun
  shares := shares_nil
  range := fun _ hx => absurd hx covers_nil
  top_ge := le_rfl
  top_lt := fun h => absurd rfl h

/-- A part of the memory lies between `base` and its end. -/
theorem Sound.bounds (h : Sound base s l) (hv : 0 < v.len)
    (hin : ∀ x, v.Has x → Covers s.machine.env x) :
    base + 8 ≤ v.start ∧ v.stop ≤ top base s.machine.env ∧ v.stop < WORD := by
  have hstart := h.range _ (hin _ (has_start hv))
  have hlast := h.range (v.stop - 1) (hin _ (by simp only [Has, stop]; omega))
  have hne : s.machine.env ≠ [] := by
    intro hnil
    have := hin _ (has_start hv)
    rw [hnil] at this
    exact covers_nil this
  have hlt := h.top_lt hne
  omega

theorem Sound.freeBounds (h : Sound base s l) (hl : Spaced l) (hv : v ∈ l) :
    base + 8 ≤ v.start ∧ v.stop ≤ top base s.machine.env ∧ v.stop < WORD :=
  h.bounds (hl.pos v hv) fun x hx => h.shares.inside x (.inl ⟨v, hv, hx⟩)

theorem Sound.liveBounds (h : Sound base s l) (hv : v ∈ s.live) :
    base + 8 ≤ v.start ∧ v.stop ≤ top base s.machine.env ∧ v.stop < WORD :=
  h.bounds (h.liveSize v hv).1 fun x hx => h.shares.inside x (.inr ⟨v, hv, hx⟩)

theorem Sound.ready (h : Sound base s l) : Ready (process base answer) s.machine l :=
  h.list.imp (fun ⟨h0, hl, _, _⟩ => ⟨h0, hl, mapped_iff.mpr (.inl rfl)⟩) FreeList.congr

theorem Sound.spaced (h : Sound base s l) : Spaced l := by
  rcases h.list with ⟨-, rfl, -⟩ | hlist
  · exact spaced_nil
  · exact hlist.spaced

/-- The headers of live blocks are not touched. -/
theorem Sound.live_frame (h : Sound base s l) {m' : Machine (List Extent)}
    (hframe : ∀ a, a ≠ base → Covers s.machine.env a → ¬ Covers l a → m'.mem a = s.machine.mem a) :
    ∀ v ∈ s.live, 0 < v.len ∧ 8 * (m'.mem v.start).size = v.len := by
  intro v hv
  obtain ⟨hpos, hsize⟩ := h.liveSize v hv
  have hbounds := h.liveBounds hv
  have hstart := has_start hpos
  rw [hframe v.start (by omega) (h.shares.inside _ (.inr ⟨v, hv, hstart⟩))
    (h.shares.freeApart v hv _ hstart)]
  exact ⟨hpos, hsize⟩

/-- **`malloc`** returns, and the heap stays sound. It returns `0` only when `sbrk` fails. -/
theorem Sound.malloc (hbase : 0 < base) (h : Sound base s l)
    (he : Enabled base s (.malloc n answer)) :
    ∃ r m' l', Returns (fun rounds => malloc (process base answer) rounds n) s.machine r m' ∧
      Sound base ⟨m', if r = 0 then s.live else blockAt m' r :: s.live⟩ l' ∧
      (r ≠ 0 → 8 ≤ r ∧ n + 8 ≤ (blockAt m' r).len) ∧ (r = 0 → answer = none) := by
  obtain ⟨hn, hanswer⟩ := he
  obtain ⟨hcore, hunits⟩ := coreUnits_lt hn
  obtain ⟨r, m', l', hrun, hlist, hmallocs⟩ := malloc_spec
    (h.ready : Ready (process base answer) _ _) hcore h.top_ge
    (fun b hb => (h.freeBounds h.spaced hb).2.1) hbase.ne'
    (answers_process hanswer)
  refine ⟨r, m', l', ⟨2 * l.length + 4, fun rounds hrounds => hrun rounds (by omega)⟩, ?_⟩
  have hlist' : FreeList (process base none) m' l' := hlist.congr
  cases hmallocs with
  | @fits c _ _ hfit htakes henv hsize hframe =>
    have hblock : blockAt m' (c.start + 8) = c := blockAt_eq htakes.len_eq hsize
    rw [if_neg (Nat.succ_ne_zero _), hblock]
    refine ⟨⟨.inr hlist', fun v hv => ?_, ?_, ?_, ?_, ?_⟩, fun _ =>
      ⟨Nat.le_add_left _ _, ?_⟩, nofun⟩
    · rcases List.mem_cons.mp hv with rfl | hv
      · exact ⟨by rw [htakes.len_eq]; omega, by rw [hsize, htakes.len_eq]⟩
      · exact h.live_frame (fun a ha _ hla => hframe a ha hla) v hv
    · rw [henv]
      exact h.shares.take h.spaced htakes
    · rw [henv]
      exact h.range
    · rw [henv]
      exact h.top_ge
    · rw [henv]
      exact h.top_lt
    · rw [htakes.len_eq]
      exact hunits
  | fails hsmall hsbrk hframe =>
    obtain rfl : answer = none := by
      cases answer with
      | none => rfl
      | some p =>
        have hp := (Prod.mk.inj (Except.ok.inj hsbrk)).1
        have := (hanswer p rfl).2
        have := (coreUnits_pos (unitsFor n)).1
        omega
    have henv : m'.env = s.machine.env := ((Prod.mk.inj (Except.ok.inj hsbrk)).2).symm
    refine ⟨⟨.inr hlist', ?_, ?_, ?_, ?_, ?_⟩, fun h0 => absurd rfl h0, fun _ => rfl⟩
    · exact h.live_frame fun a ha _ _ => hframe a ha
    · rw [henv]
      exact h.shares
    · rw [henv]
      exact h.range
    · rw [henv]
      exact h.top_ge
    · rw [henv]
      exact h.top_lt
  | @grows p c _ _ hsmall hsbrk hp htakes hsize hframe =>
    obtain ⟨hlow, henv⟩ : top base s.machine.env ≤ p ∧
        m'.env = ⟨p, coreUnits (unitsFor n) * 8⟩ :: s.machine.env := by
      cases answer with
      | none =>
        have := (Prod.mk.inj (Except.ok.inj hsbrk)).1
        have := (coreUnits_pos (unitsFor n)).1
        omega
      | some q =>
        obtain ⟨rfl, henv⟩ := Prod.mk.inj (Except.ok.inj hsbrk)
        exact ⟨(hanswer q rfl).1, henv.symm⟩
    have hnew : ∀ x, (⟨p, coreUnits (unitsFor n) * 8⟩ : Extent).Has x → ¬ Covers s.machine.env x :=
      fun x hx hcov => absurd (h.range x hcov).2 (not_lt.mpr (hlow.trans hx.1))
    have hpos : 0 < coreUnits (unitsFor n) * 8 := Nat.mul_pos (coreUnits_pos _).1 (by omega)
    have hspaced : Spaced (place ⟨p, coreUnits (unitsFor n) * 8⟩ l) :=
      h.spaced.place hpos (not_covers_iff.mp fun x hx hcov =>
        hnew x hx (h.shares.inside x (.inl hcov)))
    have hblock : blockAt m' (c.start + 8) = c := blockAt_eq htakes.len_eq hsize
    have htop := h.top_ge
    rw [if_neg (Nat.succ_ne_zero _), hblock]
    refine ⟨⟨.inr hlist', fun v hv => ?_, ?_, fun x hx => ?_, ?_, fun _ => ?_⟩,
      fun _ => ⟨Nat.le_add_left _ _, ?_⟩, nofun⟩
    · rcases List.mem_cons.mp hv with rfl | hv
      · exact ⟨by rw [htakes.len_eq]; omega, by rw [hsize, htakes.len_eq]⟩
      · exact h.live_frame (fun a ha hcov hla => hframe a ha (fun hx => hnew a hx hcov) hla) v hv
    · rw [henv]
      exact (h.shares.grow hnew).take hspaced htakes
    · rw [henv] at hx ⊢
      show base + 8 ≤ x ∧ x < p + coreUnits (unitsFor n) * 8
      rcases covers_cons.mp hx with ⟨hlo, hhi⟩ | hx
      · simp only [stop] at hlo hhi
        omega
      · have := h.range x hx
        omega
    · rw [henv]
      show base + 8 ≤ p + coreUnits (unitsFor n) * 8
      omega
    · rw [henv]
      exact hp
    · rw [htakes.len_eq]
      exact hunits

/-- **`free`** of a live block returns, and the heap stays sound. -/
theorem Sound.free (h : Sound base s l) {b : Extent} (hb : b ∈ s.live) :
    ∃ m' l', Returns (fun rounds => free (process base none) rounds (b.start + 8)) s.machine () m' ∧
      Sound base ⟨m', s.live.erase b⟩ l' := by
  obtain ⟨hpos, hsize⟩ := h.liveSize b hb
  obtain ⟨hlow, -, hhigh⟩ := h.liveBounds hb
  have hin : ∀ x, b.Has x → Covers s.machine.env x :=
    fun x hx => h.shares.inside x (.inr ⟨b, hb, hx⟩)
  rcases h.list with ⟨-, -, hlive, -⟩ | hlist
  · rw [hlive] at hb
    exact absurd hb List.not_mem_nil
  obtain ⟨m', hrun, hlist', henv, hframe⟩ := free_spec hlist hpos hsize hlow hhigh
    (not_covers_iff.mp (h.shares.freeApart b hb)) (usable_of_covers (Dvd.intro _ hsize) hin)
  have hshares := h.shares.give hb
  refine ⟨m', place b l, ⟨l.length + 2, fun rounds hrounds => hrun rounds (by omega)⟩, .inr hlist',
    fun v hv => ?_, ?_, ?_, ?_, ?_⟩
  · have hv' := List.mem_of_mem_erase hv
    obtain ⟨hvpos, hvsize⟩ := h.liveSize v hv'
    have hvlow := (h.liveBounds hv').1
    have hout : ¬ Covers (place b l) v.start := hshares.freeApart v hv _ (has_start hvpos)
    rw [covers_place, not_or] at hout
    have hmem : m'.mem v.start = s.machine.mem v.start :=
      hframe v.start (show v.start ≠ base by omega) hout.1 hout.2
    rw [hmem]
    exact ⟨hvpos, hvsize⟩
  · rw [henv]
    exact hshares
  · rw [henv]
    exact h.range
  · rw [henv]
    exact h.top_ge
  · rw [henv]
    exact h.top_lt

/-- The program's own writes do not reach a header. -/
theorem Sound.write (h : Sound base s l) {mem : ℕ → Header} (he : Enabled base s (.write mem)) :
    Sound base ⟨⟨mem, s.machine.freep, s.machine.env⟩, s.live⟩ l := by
  have hsame : ∀ a, (∀ b ∈ s.live, a = b.start ∨ ¬ b.Has a) → mem a = s.machine.mem a := by
    intro a ha
    by_contra hne
    obtain ⟨b, hb, hlt, hgt⟩ := he a hne
    rcases ha b hb with rfl | hno
    · exact lt_irrefl _ hlt
    · exact hno ⟨hlt.le, hgt⟩
  refine ⟨h.list.imp id fun hlist => ?_, fun v hv => ?_, h.shares, h.range, h.top_ge, h.top_lt⟩
  · have hcells : ∀ c ∈ (⟨base, 0⟩ : Extent) :: l, mem c.start = s.machine.mem c.start := by
      refine fun c hc => hsame _ fun b hb => .inr fun hhas => ?_
      rcases List.mem_cons.mp hc with rfl | hc
      · have := (h.liveBounds hb).1
        have : b.start ≤ base := hhas.1
        omega
      · exact h.shares.freeApart b hb _ hhas ⟨c, hc, has_start (hlist.spaced.pos c hc)⟩
    refine ⟨⟨hlist.listed.linked.congr fun a ha => ?_, fun c hc => ?_⟩, hlist.freep,
      hlist.baseMapped,
      hlist.usable, hlist.spaced, hlist.above, hlist.below⟩
    · obtain ⟨c, hc, rfl⟩ := List.mem_map.mp ha
      exact congrArg Header.ptr (hcells c hc)
    · exact (congrArg (fun h => 8 * Header.size h) (hcells c hc)).trans (hlist.listed.sizes c hc)
  · obtain ⟨hpos, hsize⟩ := h.liveSize v hv
    have hmem : mem v.start = s.machine.mem v.start := by
      refine hsame _ fun b hb => ?_
      by_cases hvb : v = b
      · exact .inl (hvb ▸ rfl)
      · exact .inr (h.shares.liveApart.forall hv hb hvb _ (has_start hpos))
    exact ⟨hpos, (congrArg (fun h => 8 * Header.size h) hmem).trans hsize⟩

/-- **Every step keeps the heap sound.** -/
theorem Sound.step (hbase : 0 < base) (h : Sound base s l) {e : Event} {s' : Heap}
    (hstep : Step base s e s') : ∃ l', Sound base s' l' := by
  cases hstep with
  | malloc he hreturns =>
    obtain ⟨r, m', l', hreturns', hsound, -⟩ := h.malloc hbase he
    obtain ⟨rfl, rfl⟩ := hreturns.unique hreturns'
    exact ⟨l', hsound⟩
  | free he hreturns =>
    obtain ⟨m', l', hreturns', hsound⟩ := h.free he
    obtain ⟨-, rfl⟩ := hreturns.unique hreturns'
    exact ⟨l', hsound⟩
  | write he => exact ⟨l, h.write he⟩

end Sound

/-- **The allocator keeps a sound free list.** After any sequence of calls of `malloc` and `free`,
and of writes of the program into its blocks, there is a circular free list in address order whose
blocks do not touch each other, and the free and the live blocks share out the memory that `sbrk`
gave. A call of `malloc` returns `0`, or a block that is large enough, in memory that `sbrk` gave
and apart from the live blocks; a call of `free` for a live block returns. -/
theorem heap_sound {base : ℕ} (hbase : 0 < base) {mem : ℕ → Header} {es : List Event} {s : Heap}
    (h : Run (Step base) (start mem) es s) :
    (∃ l, Sound base s l) ∧
      (∀ n answer, Enabled base s (.malloc n answer) → ∃ r m',
        Returns (fun rounds => malloc (process base answer) rounds n) s.machine r m' ∧
        (r ≠ 0 → 8 ≤ r ∧ n + 8 ≤ (blockAt m' r).len ∧
          (∀ x, (blockAt m' r).Has x → Covers m'.env x) ∧ ∀ v ∈ s.live, (blockAt m' r).Apart v)) ∧
      ∀ b, b ∈ s.live → ∃ m',
        Returns (fun rounds => free (process base none) rounds (b.start + 8)) s.machine () m' := by
  obtain ⟨l, hsound⟩ : ∃ l, Sound base s l :=
    h.invariant (I := fun s => ∃ l, Sound base s l)
      (fun _ _ _ ⟨_, hl⟩ hstep => hl.step hbase hstep) ⟨[], sound_start base mem⟩
  refine ⟨⟨l, hsound⟩, fun n answer he => ?_, fun b hb => ?_⟩
  · obtain ⟨r, m', l', hreturns, hsound', hlarge⟩ := hsound.malloc hbase he
    refine ⟨r, m', hreturns, fun hr => ?_⟩
    rw [if_neg hr] at hsound'
    obtain ⟨h8, hlen⟩ := hlarge.1 hr
    refine ⟨h8, hlen, fun x hx => ?_, fun v hv => ?_⟩
    · exact hsound'.shares.inside x (.inr ⟨_, List.mem_cons_self, hx⟩)
    · exact (List.pairwise_cons.mp hsound'.shares.liveApart).1 v hv
  · obtain ⟨m', l', hreturns, -⟩ := hsound.free hb
    exact ⟨m', hreturns⟩

/-- The block of a first request, for which `sbrk` gives memory at `8192`, is freed after a second
request, and there is a third. -/
theorem heap_sound_after_free : ∃ b s l, Run (Step 4096) (start fun _ => ⟨0, 0⟩)
    [.malloc 10 (some 8192), .malloc 20 none, .free b, .malloc 5000 none] s ∧ Sound 4096 s l := by
  have he : Enabled 4096 (start fun _ => ⟨0, 0⟩) (.malloc 10 (some 8192)) :=
    ⟨by decide, fun p hp => by obtain rfl := Option.some.inj hp; decide⟩
  have he' : ∀ {s n}, n ≤ 2 ^ 30 → Enabled 4096 s (.malloc n none) := fun hn => ⟨hn, nofun⟩
  obtain ⟨r, m₁, l₁, hr, h₁, -, hne⟩ := (sound_start 4096 fun _ => ⟨0, 0⟩).malloc (by decide) he
  rw [if_neg fun h0 => nomatch hne h0] at h₁
  obtain ⟨r₂, m₂, l₂, hr₂, h₂, -⟩ := h₁.malloc (n := 20) (by decide) (he' (by decide))
  have hb : blockAt m₁ r ∈
      if r₂ = 0 then [blockAt m₁ r] else blockAt m₂ r₂ :: [blockAt m₁ r] := by
    split <;> simp
  obtain ⟨m₃, l₃, hr₃, h₃⟩ := h₂.free hb
  obtain ⟨r₄, m₄, l₄, hr₄, -⟩ := h₃.malloc (n := 5000) (by decide) (he' (by decide))
  have hfirst := Step.malloc he hr
  rw [if_neg fun h0 => nomatch hne h0] at hfirst
  have hrun := (((Run.single hfirst).snoc (.malloc (he' (by decide)) hr₂)).snoc (.free hb hr₃)).snoc
    (.malloc (he' (by decide)) hr₄)
  obtain ⟨⟨l, hl⟩, -, -⟩ := heap_sound (by decide) hrun
  exact ⟨_, _, l, hrun, hl⟩

example : ((malloc (process 4096 (some 8192)) 10 10) (start fun _ => ⟨0, 0⟩).machine).map Prod.fst =
    .ok 40944 := by decide

end Xv6.Umalloc
