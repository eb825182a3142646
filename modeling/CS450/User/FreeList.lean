import CS450.Lib.Cycle
import CS450.Lib.Extent
import CS450.User.Umalloc

/-!
# The free list of the allocator

What `free` and `malloc` do to the free list, on any platform: `free` puts a block into its place
and joins it with the blocks that it touches, and `malloc` takes the end of a block that is large
enough, if need be after `morecore` has put new memory into the list.
-/

namespace Xv6.Umalloc

open Cycle Extent

variable {σ : Type} (pf : Platform σ)

/-! ### Headers in memory -/

section Access

variable {pf : Platform σ} {m : Machine σ} {p : ℕ} {f : Header → Header}

theorem load_of_mapped (h : pf.mapped m.env p) : load pf p m = .ok (m.mem p, m) := by
  unfold load
  rw [StateT.get_bind, if_pos h]
  rfl

theorem store_of_mapped (h : pf.mapped m.env p) :
    store pf p f m = .ok ((), { m with mem := Function.update m.mem p (f (m.mem p)) }) := by
  unfold store
  rw [StateT.get_bind, if_pos h]
  rfl

theorem plus_eq {p n : ℕ} (h : p + 8 * n < WORD) : plus p n = p + 8 * n := Nat.mod_eq_of_lt h

theorem add32_eq {a b : ℕ} (h : a + b < WORD) : add32 a b = a + b := Nat.mod_eq_of_lt h

end Access

/-- **The blocks are linked in memory**, up to `base`, and their headers have their sizes. -/
structure Listed (base : ℕ) (mem : ℕ → Header) (l : List Extent) : Prop where
  linked : Linked (fun a => (mem a).ptr) (l.map start ++ [base])
  sizes : ∀ c ∈ l, 8 * (mem c.start).size = c.len

/-- The header of the block `b` before the blocks `l`, when it is joined with the first of them if
it touches it. -/
def joinedHeader (base : ℕ) (mem : ℕ → Header) (b : Extent) : List Extent → Header
  | [] => ⟨base, b.len / 8⟩
  | c :: _ =>
    if b.stop = c.start then ⟨(mem c.start).ptr, (b.len + c.len) / 8⟩ else ⟨c.start, b.len / 8⟩

section Join

variable {pf : Platform σ} {m : Machine σ} {base p : ℕ} {mem : ℕ → Header} {b c : Extent}
  {l front back : List Extent}

theorem listed_nil (base : ℕ) (mem : ℕ → Header) : Listed base mem [] :=
  ⟨linked_singleton _ _, nofun⟩

theorem listed_cons : Listed base mem (b :: l) ↔ (mem b.start).ptr = (l.map start).headD base ∧
    8 * (mem b.start).size = b.len ∧ Listed base mem l := by
  have hlink : Linked (fun a => (mem a).ptr) ((b :: l).map start ++ [base]) ↔
      (mem b.start).ptr = (l.map start).headD base ∧
        Linked (fun a => (mem a).ptr) (l.map start ++ [base]) := by
    cases l with
    | nil => exact linked_cons_cons
    | cons c l => exact linked_cons_cons
  constructor
  · rintro ⟨hlinked, hsizes⟩
    obtain ⟨hb, hl⟩ := hlink.mp hlinked
    exact ⟨hb, hsizes b List.mem_cons_self, hl, fun c hc => hsizes c (List.mem_cons_of_mem b hc)⟩
  · rintro ⟨hb, hsize, hl, hsizes⟩
    refine ⟨hlink.mpr ⟨hb, hl⟩, fun c hc => ?_⟩
    rcases List.mem_cons.mp hc with rfl | hc
    · exact hsize
    · exact hsizes c hc

/-- A block in the middle. -/
theorem listed_append : Listed base mem (front ++ b :: back) ↔
    Listed b.start mem front ∧ Listed base mem (b :: back) := by
  have hlink : (front ++ b :: back).map start ++ [base] =
      front.map start ++ b.start :: (back.map start ++ [base]) := by simp
  constructor
  · rintro ⟨hlinked, hsizes⟩
    rw [hlink, linked_split] at hlinked
    exact ⟨⟨hlinked.1, fun c hc => hsizes c (List.mem_append_left _ hc)⟩,
      ⟨hlinked.2, fun c hc => hsizes c (List.mem_append_right _ hc)⟩⟩
  · rintro ⟨hfront, hback⟩
    refine ⟨?_, fun c hc => ?_⟩
    · rw [hlink, linked_split]
      exact ⟨hfront.linked, hback.linked⟩
    · rcases List.mem_append.mp hc with hc | hc
      · exact hfront.sizes c hc
      · exact hback.sizes c hc

theorem Listed.update (h : Listed base mem l) {a : ℕ} (ha : ∀ c ∈ l, c.start ≠ a) (hd : Header) :
    Listed base (Function.update mem a hd) l := by
  refine ⟨h.linked.congr fun x hx => ?_, fun c hc => ?_⟩
  · obtain ⟨c, hc, rfl⟩ := List.mem_map.mp hx
    rw [Function.update_of_ne (ha c hc)]
  · rw [Function.update_of_ne (ha c hc)]
    exact h.sizes c hc

/-- **A block is joined with those behind it.** -/
theorem Listed.join (h : Listed base mem l) (hb : ∀ c ∈ l, c.start ≠ b.start) (hdvd : 8 ∣ b.len) :
    Listed base (Function.update mem b.start (joinedHeader base mem b l)) (join b l) := by
  have hl := h.update hb (joinedHeader base mem b l)
  cases l with
  | nil =>
    refine listed_cons.mpr ⟨?_, ?_, listed_nil _ _⟩
    · rw [Function.update_self]
      rfl
    · rw [Function.update_self]
      exact Nat.mul_div_cancel' hdvd
  | cons c l =>
    obtain ⟨hc, hcsize, hl'⟩ := listed_cons.mp hl
    rw [Function.update_of_ne (hb c List.mem_cons_self)] at hc hcsize
    rw [Extent.join]
    split_ifs with htouch
    · refine listed_cons.mpr ⟨?_, ?_, hl'⟩
      · rw [Function.update_self, joinedHeader, if_pos htouch]
        exact hc
      · rw [Function.update_self, joinedHeader, if_pos htouch]
        exact Nat.mul_div_cancel' (dvd_add hdvd ⟨_, hcsize.symm⟩)
    · refine listed_cons.mpr ⟨?_, ?_, hl⟩
      · rw [Function.update_self, joinedHeader, if_neg htouch]
        rfl
      · rw [Function.update_self, joinedHeader, if_neg htouch]
        exact Nat.mul_div_cancel' hdvd

/-- A block is taken out of the list. -/
theorem Listed.drop {r : Extent} (h : Listed base mem (front ++ r :: b :: back))
    (hr : ∀ c, c ∈ front ∨ c ∈ back → c.start ≠ r.start) :
    Listed base (Function.update mem r.start ⟨(mem b.start).ptr, (mem r.start).size⟩)
      (front ++ r :: back) := by
  obtain ⟨hfront, hrest⟩ := listed_append.mp h
  obtain ⟨-, hsize, hrest⟩ := listed_cons.mp hrest
  obtain ⟨hnext, -, hback⟩ := listed_cons.mp hrest
  refine listed_append.mpr ⟨hfront.update (fun c hc => hr c (.inl hc)) _, listed_cons.mpr
    ⟨?_, ?_, hback.update (fun c hc => hr c (.inr hc)) _⟩⟩
  · rw [Function.update_self]
    exact hnext
  · rw [Function.update_self]
    exact hsize

/-- A block of the list is made smaller. -/
theorem Listed.shrink (h : Listed base mem (front ++ b :: back))
    (hb : ∀ c, c ∈ front ∨ c ∈ back → c.start ≠ b.start) (k : ℕ) :
    Listed base (Function.update mem b.start ⟨(mem b.start).ptr, k⟩)
      (front ++ ⟨b.start, 8 * k⟩ :: back) := by
  obtain ⟨hfront, hrest⟩ := listed_append.mp h
  obtain ⟨hnext, -, hback⟩ := listed_cons.mp hrest
  refine listed_append.mpr ⟨hfront.update (fun c hc => hb c (.inl hc)) _, listed_cons.mpr
    ⟨?_, ?_, hback.update (fun c hc => hb c (.inr hc)) _⟩⟩
  · rw [Function.update_self]
    exact hnext
  · rw [Function.update_self]

theorem joinNext_eq (hl : Listed pf.base m.mem l) (hp : (m.mem p).ptr = (l.map start).headD pf.base)
    (hb : 8 * (m.mem b.start).size = b.len) (hstop : ∀ c ∈ b :: l, c.stop < WORD)
    (hbase : pf.base < b.start) (hmp : pf.mapped m.env p) (hmb : pf.mapped m.env b.start)
    (hml : ∀ c ∈ l, pf.mapped m.env c.start) :
    joinNext pf b.start p m =
      .ok ((),
        { m with mem := Function.update m.mem b.start (joinedHeader pf.base m.mem b l) }) := by
  have hbstop := hstop b List.mem_cons_self
  have hplus : plus b.start (m.mem b.start).size = b.stop := by
    rw [plus_eq (by rw [hb]; exact hbstop), hb]
    rfl
  unfold joinNext
  rw [StateT.bind_of_ok (load_of_mapped hmb), StateT.bind_of_ok (load_of_mapped hmp), hplus, hp]
  have hsize : (m.mem b.start).size = b.len / 8 := by omega
  cases l with
  | nil =>
    have hne : b.stop ≠ pf.base := (hbase.trans_le b.start_le_stop).ne'
    show (if b.stop = pf.base then _ else _ : M σ Unit) m = _
    rw [if_neg hne, store_of_mapped hmb, hsize]
    rfl
  | cons c l =>
    show (if b.stop = c.start then _ else _ : M σ Unit) m = _
    have hcsize := hl.sizes c List.mem_cons_self
    by_cases htouch : b.stop = c.start
    · have hcstop := hstop c (List.mem_cons_of_mem b List.mem_cons_self)
      have hadd : add32 (m.mem b.start).size (m.mem c.start).size = (b.len + c.len) / 8 := by
        simp only [stop] at hbstop hcstop htouch
        rw [add32_eq (by omega)]
        omega
      rw [if_pos htouch]
      show (load pf c.start >>= _) m = _
      rw [StateT.bind_of_ok (load_of_mapped (hml c List.mem_cons_self)), store_of_mapped hmb, hadd,
        joinedHeader, if_pos htouch]
    · rw [if_neg htouch, store_of_mapped hmb, hsize, joinedHeader, if_neg htouch]
      rfl

theorem joinPrev_eq {p : Extent} (hl : Listed pf.base m.mem (b :: l))
    (hp : 8 * (m.mem p.start).size = p.len) (hstop : b.stop < WORD) (hle : p.stop ≤ b.start)
    (hmp : pf.mapped m.env p.start) (hmb : pf.mapped m.env b.start) :
    joinPrev pf b.start p.start m = .ok ((),
      { m with mem := Function.update m.mem p.start (joinedHeader pf.base m.mem p (b :: l)) }) := by
  obtain ⟨hlink, hb, -⟩ := listed_cons.mp hl
  have hble := b.start_le_stop
  have hplus : plus p.start (m.mem p.start).size = p.stop := by
    rw [plus_eq (by rw [hp]; exact (hle.trans hble).trans_lt hstop), hp]
    rfl
  have hsize : (m.mem p.start).size = p.len / 8 := by omega
  unfold joinPrev
  rw [StateT.bind_of_ok (load_of_mapped hmb), StateT.bind_of_ok (load_of_mapped hmp), hplus]
  by_cases htouch : p.stop = b.start
  · have hadd : add32 (m.mem p.start).size (m.mem b.start).size = (p.len + b.len) / 8 := by
      simp only [stop] at hstop htouch
      rw [add32_eq (by omega)]
      omega
    rw [if_pos htouch, store_of_mapped hmp, hadd, joinedHeader, if_pos htouch]
  · rw [if_neg htouch, store_of_mapped hmp, hsize, joinedHeader, if_neg htouch]

end Join

/-! ### The free list -/

/-- A header can be put at every unit of the block. -/
def Usable (env : σ) (b : Extent) : Prop := 8 ∣ b.len ∧ ∀ k, 8 * k < b.len → pf.mapped env
    (b.start + 8 * k)

/-- **The free list**: the circular list that begins with `base`, in address order. -/
structure FreeList (m : Machine σ) (l : List Extent) : Prop where
  listed : Listed pf.base m.mem (⟨pf.base, 0⟩ :: l)
  freep : m.freep ∈ pf.base :: l.map start
  baseMapped : pf.mapped m.env pf.base
  usable : ∀ b ∈ l, Usable pf m.env b
  spaced : Spaced l
  above : ∀ b ∈ l, pf.base + 8 ≤ b.start
  below : ∀ b ∈ l, b.stop < WORD

section FreeList

variable {pf} {m : Machine σ} {l : List Extent} {b c : Extent} {bp p q rounds : ℕ}

theorem Usable.start {env : σ} (h : Usable pf env b) (hb : 0 < b.len) :
    pf.mapped env b.start := h.2 0 hb

/-- Blocks that touch are usable as one. -/
theorem Usable.join {env : σ} (hb : Usable pf env b) (hc : Usable pf env c) (h : b.stop = c.start) :
    Usable pf env ⟨b.start, b.len + c.len⟩ := by
  refine ⟨dvd_add hb.1 hc.1, fun k hk => ?_⟩
  obtain ⟨n, hn⟩ := hb.1
  by_cases hkb : 8 * k < b.len
  · exact hb.2 k hkb
  · have haddr : b.start + 8 * k = c.start + 8 * (k - n) := by
      simp only [stop] at h
      omega
    rw [haddr]
    have hk : 8 * k < b.len + c.len := hk
    exact hc.2 (k - n) (by omega)

theorem FreeList.mapped (h : FreeList pf m l) : ∀ a ∈ pf.base :: l.map start,
    pf.mapped m.env a := by
  intro a ha
  rcases List.mem_cons.mp ha with rfl | ha
  · exact h.baseMapped
  · obtain ⟨b, hb, rfl⟩ := List.mem_map.mp ha
    exact (h.usable b hb).start (h.spaced.pos b hb)

theorem FreeList.closed (h : FreeList pf m l) :
    Closed (fun a => (m.mem a).ptr) pf.base (l.map start) := h.listed.linked

theorem FreeList.sorted (h : FreeList pf m l) :
    ((⟨pf.base, 0⟩ : Extent) :: l).Pairwise fun c d => c.stop < d.start := by
  refine List.pairwise_cons.mpr ⟨fun c hc => ?_, h.spaced.gaps⟩
  have := h.above c hc
  show pf.base + 0 < c.start
  omega

theorem FreeList.starts_lt (h : FreeList pf m l) :
    ((⟨pf.base, 0⟩ : Extent) :: l).Pairwise fun c d => c.start < d.start :=
  h.sorted.imp fun hlt => (start_le_stop _).trans_lt hlt

theorem FreeList.nodup (h : FreeList pf m l) : (pf.base :: l.map start).Nodup := by
  have hmap : (((⟨pf.base, 0⟩ : Extent) :: l).map start).Pairwise (· < ·) :=
    List.pairwise_map.mpr h.starts_lt
  exact hmap.imp fun hlt => hlt.ne

/-- The search of `free` ends at `p`. -/
def Ends (m : Machine σ) (bp p : ℕ) : Prop :=
  (bp > p ∧ bp < (m.mem p).ptr) ∨ (p ≥ (m.mem p).ptr ∧ (bp > p ∨ bp < (m.mem p).ptr))

variable {u : List ℕ} {back front : List Extent} {v n : ℕ} {env' : σ}

/-- The search goes on until it ends. -/
theorem freeLoop_eq {v : List ℕ} (hlink : Linked (fun a => (m.mem a).ptr) (u ++ [q]))
    (hp : p :: v = u ++ [q]) (hmapped : ∀ a ∈ u ++ [q], pf.mapped m.env a)
    (hu : ∀ a ∈ u, ¬ Ends m bp a) (hq : Ends m bp q) (hrounds : u.length < rounds) :
    freeLoop pf bp rounds p m = .ok (q, m) := by
  induction u generalizing p v rounds with
  | nil =>
    obtain ⟨rfl, rfl⟩ := List.cons.inj hp
    obtain ⟨rounds, rfl⟩ := Nat.exists_eq_add_of_le' (show 1 ≤ rounds from hrounds)
    rw [freeLoop, StateT.bind_of_ok (load_of_mapped (hmapped p List.mem_cons_self))]
    have hq : (bp > p ∧ bp < (m.mem p).ptr) ∨ (p ≥ (m.mem p).ptr ∧ (bp > p ∨ bp < (m.mem p).ptr)) :=
      hq
    rw [if_pos hq]
    rfl
  | cons x u ih =>
    obtain ⟨rfl, rfl⟩ := List.cons.inj hp
    obtain ⟨rounds, rfl⟩ := Nat.exists_eq_add_of_le' (Nat.one_le_of_lt hrounds)
    have hno : ¬ ((bp > p ∧ bp < (m.mem p).ptr) ∨
      (p ≥ (m.mem p).ptr ∧ (bp > p ∨ bp < (m.mem p).ptr))) := hu p List.mem_cons_self
    rw [freeLoop, StateT.bind_of_ok (load_of_mapped (hmapped p List.mem_cons_self)), if_neg hno]
    obtain ⟨y, v, hv⟩ :=
      List.exists_cons_of_ne_nil (List.append_ne_nil_of_right_ne_nil u (List.cons_ne_nil q []))
    rw [List.cons_append, hv, linked_cons_cons] at hlink
    rw [hlink.1]
    refine ih (hv ▸ hlink.2) hv.symm (fun a ha => hmapped a (List.mem_cons_of_mem _ ha))
      (fun a ha => hu a (List.mem_cons_of_mem _ ha)) ?_
    rw [List.length_cons] at hrounds
    omega

/-- Where the search ends: at the block before the place of the new one. -/
theorem FreeList.ends_iff (h : FreeList pf m l) {p d : Extent}
    (hsplit : (⟨pf.base, 0⟩ : Extent) :: l = front ++ p :: back) (hp : p.start < b.start)
    (hback : ∀ c ∈ back, b.start < c.start) (hbase : pf.base ≤ b.start)
    (hd : d ∈ (⟨pf.base, 0⟩ : Extent) :: l) : Ends m b.start d.start ↔ d.start = p.start := by
  obtain ⟨s, t, ht⟩ := List.append_of_mem hd
  have hlisted := h.listed
  rw [ht] at hlisted
  obtain ⟨hnext, -, -⟩ := listed_cons.mp (listed_append.mp hlisted).2
  have hlt := h.starts_lt
  have hbase' : ∀ c ∈ (⟨pf.base, 0⟩ : Extent) :: l, pf.base ≤ c.start := by
    intro c hc
    rcases List.mem_cons.mp hc with rfl | hc
    · exact le_rfl
    · exact Nat.le_of_add_right_le (h.above c hc)
  have hdb := hbase' d hd
  -- The other blocks are on one side of `d`, and on one side of `p`.
  have hcases : ∀ c ∈ (⟨pf.base, 0⟩ : Extent) :: l, c.start ≤ d.start ∨ c ∈ t := by
    intro c hc
    rw [ht, List.pairwise_append] at hlt
    rw [ht] at hc
    rcases List.mem_append.mp hc with hc | hc
    · exact .inl (hlt.2.2 c hc d List.mem_cons_self).le
    · rcases List.mem_cons.mp hc with rfl | hc
      · exact .inl le_rfl
      · exact .inr hc
  have hcases' : ∀ c ∈ (⟨pf.base, 0⟩ : Extent) :: l, c.start ≤ p.start ∨ b.start < c.start := by
    intro c hc
    rw [hsplit, List.pairwise_append] at hlt
    rw [hsplit] at hc
    rcases List.mem_append.mp hc with hc | hc
    · exact .inl (hlt.2.2 c hc p List.mem_cons_self).le
    · rcases List.mem_cons.mp hc with rfl | hc
      · exact .inl le_rfl
      · exact .inr (hback c hc)
  have hpd := hcases p (by rw [hsplit]; simp)
  have hdp := hcases' d hd
  unfold Ends
  cases t with
  | nil =>
    -- `d` is the last block and points to `base`.
    have hnext : (m.mem d.start).ptr = pf.base := hnext
    have hpd : p.start ≤ d.start := hpd.resolve_right List.not_mem_nil
    omega
  | cons e t =>
    have hnext : (m.mem d.start).ptr = e.start := hnext
    have he : e ∈ (⟨pf.base, 0⟩ : Extent) :: l := by
      rw [ht]
      simp
    have hde : d.start < e.start := by
      rw [ht, List.pairwise_append] at hlt
      exact (List.pairwise_cons.mp hlt.2.1).1 e List.mem_cons_self
    have hep := hcases' e he
    have hpe : p.start ≤ d.start ∨ e.start ≤ p.start := by
      refine hpd.imp_right fun hmem => ?_
      rcases List.mem_cons.mp hmem with rfl | hmem
      · exact le_rfl
      · rw [ht, List.pairwise_append] at hlt
        exact ((List.pairwise_cons.mp (List.pairwise_cons.mp hlt.2.1).2).1 p hmem).le
    omega

/-- The cells of the list, from `freep` on. -/
theorem FreeList.enter (h : FreeList pf m l) : ∃ l', Closed (fun a => (m.mem a).ptr) m.freep l' ∧
    (m.freep :: l').Nodup ∧ l'.length = l.length ∧
    ∀ a, a ∈ m.freep :: l' ↔ a ∈ pf.base :: l.map start := by
  obtain ⟨l', hclosed, hperm⟩ := h.closed.enter h.freep
  refine ⟨l', hclosed, hperm.nodup_iff.mpr h.nodup, ?_, fun a => hperm.mem_iff⟩
  have hlen := hperm.length_eq
  simp only [List.length_cons, List.length_map] at hlen
  omega

/-- The search of `free` finds the block before the place of the new one. -/
theorem FreeList.freeLoop (h : FreeList pf m l) {p : Extent}
    (hsplit : (⟨pf.base, 0⟩ : Extent) :: l = front ++ p :: back) (hp : p.start < b.start)
    (hback : ∀ c ∈ back, b.start < c.start) (hbase : pf.base ≤ b.start)
    (hrounds : l.length + 1 < rounds) :
    freeLoop pf b.start rounds m.freep m = .ok (p.start, m) := by
  obtain ⟨l', hclosed, hnodup, hlen, hmem⟩ := h.enter
  have hends : ∀ a ∈ pf.base :: l.map start, Ends m b.start a ↔ a = p.start := by
    intro a ha
    obtain ⟨d, hd, rfl⟩ :=
      List.mem_map.mp (show a ∈ ((⟨pf.base, 0⟩ : Extent) :: l).map start from ha)
    exact h.ends_iff hsplit hp hback hbase hd
  have hpmem : p.start ∈ pf.base :: l.map start := by
    show p.start ∈ ((⟨pf.base, 0⟩ : Extent) :: l).map start
    rw [hsplit]
    simp
  by_cases hfirst : Ends m b.start m.freep
  · have hfreep : m.freep = p.start := (hends _ h.freep).mp hfirst
    exact freeLoop_eq (u := []) (v := []) (linked_singleton _ _) (by rw [hfreep]; rfl)
      (fun a ha => h.mapped a (List.mem_singleton.mp ha ▸ hpmem)) nofun
      ((hends _ hpmem).mpr rfl) (Nat.zero_lt_of_lt hrounds)
  · obtain ⟨u, q, hlink, hq, hqmem, hu, hno⟩ :=
      hclosed.first hnodup ((hmem _).mpr hpmem) ((hends _ hpmem).mpr rfl)
    obtain rfl : q = p.start := (hends q ((hmem q).mp hqmem)).mp hq
    refine freeLoop_eq (u := m.freep :: u) (v := u ++ [p.start]) hlink rfl
      (fun a ha => h.mapped a ?_)
      (fun a ha => ?_) hq ?_
    · rcases List.mem_append.mp ha with ha | ha
      · rcases List.mem_cons.mp ha with rfl | ha
        · exact h.freep
        · exact (hmem a).mp (List.mem_cons_of_mem _ (hno a ha).2.2)
      · exact List.mem_singleton.mp ha ▸ hpmem
    · rcases List.mem_cons.mp ha with rfl | ha
      · exact hfirst
      · exact (hno a ha).1
    · rw [List.length_cons]
      omega

/-- **`free`**: the list with the block in its place. -/
theorem free_spec (h : FreeList pf m l) (hb : 0 < b.len) (hsize : 8 * (m.mem b.start).size = b.len)
    (habove : pf.base + 8 ≤ b.start) (hbelow : b.stop < WORD) (hapart : ∀ c ∈ l, b.Apart c)
    (husable : Usable pf m.env b) :
    ∃ m', (∀ rounds, l.length + 1 < rounds → free pf rounds (b.start + 8) m = .ok ((), m')) ∧
      FreeList pf m' (place b l) ∧ m'.env = m.env ∧ ∀ a, a ≠ pf.base → ¬ b.Has a → ¬ Covers l a →
        m'.mem a = m.mem a := by
  have hbstart : b.start < b.stop := Nat.lt_add_of_pos_right hb
  have hmapped := husable.start hb
  have hne : ∀ d ∈ l, d.start ≠ b.start := fun d hd heq =>
    hapart d hd b.start (has_start hb) (heq ▸ has_start (h.spaced.pos d hd))
  obtain ⟨front, p, back, hsplit, hp, hback⟩ := exists_gap (c := ⟨pf.base, 0⟩) (l := l)
    (show pf.base < b.start by omega) hne h.starts_lt
  have hcells : ∀ c, c ∈ front ∨ c = p ∨ c ∈ back → c ∈ (⟨pf.base, 0⟩ : Extent) :: l := by
    intro c hc
    rw [hsplit, List.mem_append, List.mem_cons]
    exact hc
  have hmem : ∀ c ∈ (⟨pf.base, 0⟩ : Extent) :: l, pf.mapped m.env c.start := fun c hc =>
    h.mapped c.start (List.mem_map_of_mem (f := start) hc)
  have hne' : ∀ c ∈ (⟨pf.base, 0⟩ : Extent) :: l, c.start ≠ b.start := by
    intro c hc
    rcases List.mem_cons.mp hc with rfl | hc
    · exact (show pf.base < b.start by omega).ne
    · exact hne c hc
  have hbackl : ∀ c ∈ back, c ∈ l := by
    intro c hc
    refine (List.mem_cons.mp (hcells c (.inr (.inr hc)))).resolve_left ?_
    rintro rfl
    have := hback _ hc
    change b.start < pf.base at this
    omega
  -- The lists in memory before and behind the place.
  have hlisted := h.listed
  rw [hsplit, listed_append] at hlisted
  obtain ⟨hfront, hrest⟩ := hlisted
  obtain ⟨hnext, hpsize, hbackListed⟩ := listed_cons.mp hrest
  have hsorted := h.sorted
  rw [hsplit, List.pairwise_append, List.pairwise_cons] at hsorted
  obtain ⟨-, ⟨hpback, -⟩, hfrontp⟩ := hsorted
  have hpstop : p.stop ≤ b.start := by
    rcases List.mem_cons.mp (hcells p (.inr (.inl rfl))) with rfl | hpl
    · show pf.base + 0 ≤ b.start
      omega
    · refine ((hapart p hpl).le_or_le hb (h.spaced.pos p hpl)).resolve_left ?_
      omega
  have hjoinNext := joinNext_eq (b := b) hbackListed hnext hsize
    (fun c hc => by
      rcases List.mem_cons.mp hc with rfl | hc
      · exact hbelow
      · exact h.below c (hbackl c hc))
    (show pf.base < b.start by omega) (hmem p (hcells p (.inr (.inl rfl)))) hmapped
    (fun c hc => hmem c (hcells c (.inr (.inr hc))))
  have hjoined := hbackListed.join (fun c hc => hne c (hbackl c hc)) (Dvd.intro _ hsize)
  set mem₁ := Function.update m.mem b.start (joinedHeader pf.base m.mem b back) with hmem₁
  obtain ⟨n, rest, hjoin⟩ := exists_join_eq b back
  rw [hjoin] at hjoined
  have hjoinMem : ∀ d ∈ (⟨b.start, n⟩ : Extent) :: rest, d.start ≠ p.start ∧ d.stop < WORD := by
    intro d hd
    rw [← hjoin] at hd
    obtain ⟨hstart, hstop⟩ := mem_join hd
    constructor
    · rcases hstart with hstart | ⟨c, hc, hstart⟩
      · omega
      · rw [hstart]
        exact (p.start_le_stop.trans_lt (hpback c hc)).ne'
    · rcases hstop with hstop | ⟨c, hc, hstop⟩
      · omega
      · rw [hstop]
        exact h.below c (hbackl c hc)
  have hpsize₁ : 8 * (mem₁ p.start).size = p.len := by
    rw [hmem₁, Function.update_of_ne hp.ne]
    exact hpsize
  have hjoinPrev := joinPrev_eq (m := ⟨mem₁, m.freep, m.env⟩) (p := p) hjoined hpsize₁
    (hjoinMem _ List.mem_cons_self).2 hpstop (hmem p (hcells p (.inr (.inl rfl)))) hmapped
  have hjoined' := hjoined.join (fun d hd => (hjoinMem d hd).1) (Dvd.intro _ hpsize)
  rw [← hjoin] at hjoined' hjoinPrev
  set mem₂ := Function.update mem₁ p.start
    (joinedHeader pf.base mem₁ p (Extent.join b back)) with hmem₂
  have hplace : (⟨pf.base, 0⟩ : Extent) :: place b l = front ++
      Extent.join p (Extent.join b back) := by
    have hbase : ¬ b.start < (⟨pf.base, 0⟩ : Extent).start := by
      show ¬ b.start < pf.base
      omega
    have hbase' : (⟨pf.base, 0⟩ : Extent).stop ≠ b.start := by
      show pf.base + 0 ≠ b.start
      omega
    rw [← place_of_gap (fun c hc => ?_) hp.le hback, ← hsplit, place, if_neg hbase, if_neg hbase']
    have := hfrontp c hc p List.mem_cons_self
    have := c.start_le_stop
    omega
  obtain ⟨n', rest', hjoin'⟩ := exists_join_eq p (Extent.join b back)
  have hlisted₂ : Listed pf.base mem₂ (⟨pf.base, 0⟩ :: place b l) := by
    rw [hjoin'] at hjoined'
    rw [hplace, hjoin']
    refine listed_append.mpr ⟨?_, hjoined'⟩
    refine (hfront.update (fun c hc => hne' c (hcells c (.inl hc))) _).update (fun c hc => ?_) _
    exact (c.start_le_stop.trans_lt (hfrontp c hc p List.mem_cons_self)).ne
  have hsub : sub32 (b.start + 8) 8 = b.start := by
    unfold sub32
    unfold WORD at hbelow ⊢
    omega
  refine ⟨⟨mem₂, p.start, m.env⟩, fun rounds hrounds => ?_, ⟨hlisted₂, ?_, h.baseMapped,
    forall_place (fun c d hc hd => hc.join hd) husable h.usable, h.spaced.place hb hapart,
    fun d hd => ?_, fun d hd => ?_⟩, rfl, fun a ha hba hla => ?_⟩
  · unfold free
    rw [hsub, StateT.get_bind]
    rw [StateT.bind_of_ok (h.freeLoop hsplit hp hback (by omega) hrounds),
      StateT.bind_of_ok hjoinNext,
      StateT.bind_of_ok hjoinPrev]
    rfl
  · show p.start ∈ ((⟨pf.base, 0⟩ : Extent) :: place b l).map start
    rw [hplace, hjoin']
    simp
  · rcases (mem_place hd).1 with heq | ⟨c, hc, heq⟩
    · omega
    · rw [heq]
      exact h.above c hc
  · rcases (mem_place hd).2 with heq | ⟨c, hc, heq⟩
    · omega
    · rw [heq]
      exact h.below c hc
  · have hap : a ≠ p.start := by
      rintro rfl
      rcases List.mem_cons.mp (hcells p (.inr (.inl rfl))) with rfl | hpl
      · exact ha rfl
      · exact hla ⟨p, hpl, has_start (h.spaced.pos p hpl)⟩
    have hab : a ≠ b.start := by
      rintro rfl
      exact hba (has_start hb)
    show mem₂ a = m.mem a
    rw [hmem₂, Function.update_of_ne hap, hmem₁, Function.update_of_ne hab]

theorem FreeList.freep_ne_zero (h : FreeList pf m l) (hbase : pf.base ≠ 0) : m.freep ≠ 0 := by
  intro h0
  have hmem := h.freep
  rw [h0] at hmem
  rcases List.mem_cons.mp hmem with h0 | hmem
  · exact hbase h0.symm
  · obtain ⟨d, hd, h0⟩ := List.mem_map.mp hmem
    have := h.above d hd
    omega

/-! ### A block is taken -/

theorem linked_last {next : ℕ → ℕ} (h : Linked next (v :: (u ++ [q]))) :
    next (u.getLastD v) = q := by
  induction u generalizing v with
  | nil => exact (linked_cons_cons.mp h).1
  | cons x u ih =>
    rw [List.getLastD_cons]
    exact ih (linked_cons_cons.mp h).2

/-- The search of `malloc` passes blocks that are too small. -/
theorem mallocLoop_skip (hlink : Linked (fun a => (m.mem a).ptr) (v :: (u ++ [q])))
    (hu : ∀ x ∈ u, pf.mapped m.env x ∧ (m.mem x).size < n ∧ x ≠ m.freep) :
    mallocLoop pf n (rounds + u.length) v (m.mem v).ptr m =
      mallocLoop pf n rounds (u.getLastD v) q m := by
  induction u generalizing v with
  | nil =>
    have hq : (m.mem v).ptr = q := (linked_cons_cons.mp hlink).1
    rw [hq]
    rfl
  | cons x u ih =>
    obtain ⟨hx, hlink⟩ := linked_cons_cons.mp hlink
    obtain ⟨hmapped, hsmall, hne⟩ := hu x List.mem_cons_self
    rw [hx, List.length_cons, ← Nat.add_assoc, mallocLoop,
      StateT.bind_of_ok (load_of_mapped hmapped), if_neg (not_le.mpr hsmall), StateT.get_bind,
      if_neg hne, List.getLastD_cons]
    exact ih hlink fun y hy => hu y (List.mem_cons_of_mem x hy)

/-- What `malloc` does at a block that is large enough. -/
theorem mallocLoop_take (hb : 8 * (m.mem b.start).size = b.len) (hn : 8 * n ≤ b.len)
    (hbelow : b.stop < WORD) (husable : Usable pf m.env b) (hpos : 0 < n)
    (hv : pf.mapped m.env v) :
    mallocLoop pf n (rounds + 1) v b.start m = .ok (b.start + (b.len - 8 * n) + 8,
      ⟨if b.len = 8 * n then Function.update m.mem v ⟨(m.mem b.start).ptr, (m.mem v).size⟩
        else Function.update
          (Function.update m.mem b.start ⟨(m.mem b.start).ptr, (b.len - 8 * n) / 8⟩)
          (b.start + (b.len - 8 * n)) ⟨(m.mem (b.start + (b.len - 8 * n))).ptr, n⟩, v, m.env⟩) := by
  have hmapped := husable.start (by omega : 0 < b.len)
  simp only [stop] at hbelow
  rw [mallocLoop, StateT.bind_of_ok (load_of_mapped hmapped), if_pos (show n ≤ _ by omega)]
  by_cases hexact : b.len = 8 * n
  · have hplus : plus b.start 1 = b.start + (b.len - 8 * n) + 8 := by
      rw [plus_eq (by omega)]
      omega
    rw [if_pos (show _ = n by omega), if_pos hexact, StateT.bind_of_ok (store_of_mapped hv), hplus]
    rfl
  · obtain ⟨k, hk⟩ : ∃ k, b.len - 8 * n = 8 * k := ⟨(m.mem b.start).size - n, by omega⟩
    have hsize : (m.mem b.start).size - n = k := by omega
    have hplus : plus b.start k = b.start + (b.len - 8 * n) := by rw [plus_eq (by omega), hk]
    have hplus' : plus (b.start + (b.len - 8 * n)) 1 = b.start + (b.len - 8 * n) + 8 := by
      rw [plus_eq (by omega)]
    have hq : pf.mapped m.env (b.start + (b.len - 8 * n)) := by
      rw [hk]
      exact husable.2 k (by omega)
    have hne : b.start + (b.len - 8 * n) ≠ b.start := by omega
    have hdiv : (b.len - 8 * n) / 8 = k := by omega
    rw [if_neg (show _ ≠ n by omega), if_neg hexact, StateT.bind_of_ok (store_of_mapped hmapped)]
    rw [hsize, hplus, hdiv]
    refine (StateT.bind_of_ok (store_of_mapped (m := ⟨Function.update m.mem b.start
      ⟨(m.mem b.start).ptr, k⟩, m.freep, m.env⟩) hq)).trans ?_
    dsimp only
    rw [hplus', Function.update_of_ne hne]
    rfl

/-- The list after a block was taken, with the block before it. -/
theorem FreeList.take (h : FreeList pf m l) {n : ℕ} {front back cells : List Extent} {r : Extent}
    (hpos : 0 < n) (hsplit : l = front ++ b :: back) (hn : 8 * n ≤ b.len)
    (hr : (⟨pf.base, 0⟩ : Extent) :: front = cells ++ [r]) :
    FreeList pf
      ⟨if b.len = 8 * n then
          Function.update m.mem r.start ⟨(m.mem b.start).ptr, (m.mem r.start).size⟩
        else Function.update
          (Function.update m.mem b.start ⟨(m.mem b.start).ptr, (b.len - 8 * n) / 8⟩)
          (b.start + (b.len - 8 * n)) ⟨(m.mem (b.start + (b.len - 8 * n))).ptr, n⟩, r.start, m.env⟩
      (front ++ (if b.len = 8 * n then [] else [⟨b.start, b.len - 8 * n⟩]) ++ back) := by
  have hcells : (⟨pf.base, 0⟩ : Extent) :: l = cells ++ r :: b :: back := by
    rw [hsplit, ← List.cons_append, hr]
    simp
  have hsorted := h.sorted
  have hlisted := h.listed
  rw [hcells] at hlisted hsorted
  have hsorted' := hsorted
  rw [List.pairwise_append, List.pairwise_cons, List.pairwise_cons] at hsorted
  obtain ⟨-, ⟨hrback, hbback, -⟩, hcross⟩ := hsorted
  have hrmem : r.start ∈ pf.base :: front.map start := by
    show r.start ∈ ((⟨pf.base, 0⟩ : Extent) :: front).map start
    rw [hr]
    simp
  have hb : b ∈ l := by
    rw [hsplit]
    simp
  have hdvd := (h.usable b hb).1
  have htake : Takes (8 * n) l ⟨b.start + (b.len - 8 * n), 8 * n⟩
      (front ++ (if b.len = 8 * n then [] else [⟨b.start, b.len - 8 * n⟩]) ++ back) :=
    ⟨front, b, back, hsplit, hn, rfl, rfl⟩
  refine ⟨?_, ?_, h.baseMapped, fun d hd => ?_, htake.spaced h.spaced,
    fun d hd => ?_, fun d hd => ?_⟩
  · by_cases hexact : b.len = 8 * n
    · rw [if_pos hexact, if_pos hexact, List.append_nil, ← List.cons_append, hr, List.append_assoc]
      refine hlisted.drop fun c hc => ?_
      rcases hc with hc | hc
      · exact (c.start_le_stop.trans_lt (hcross c hc r List.mem_cons_self)).ne
      · exact (r.start_le_stop.trans_lt (hrback c (List.mem_cons_of_mem b hc))).ne'
    · rw [if_neg hexact, if_neg hexact]
      have hcells' : (⟨pf.base, 0⟩ : Extent) :: (front ++ [⟨b.start, b.len - 8 * n⟩] ++ back) =
          (cells ++ [r]) ++ ⟨b.start, 8 * ((b.len - 8 * n) / 8)⟩ :: back := by
        rw [← hr, Nat.mul_div_cancel' (Nat.dvd_sub hdvd (Nat.dvd_mul_right 8 n))]
        simp
      rw [hcells']
      rw [show cells ++ r :: b :: back = (cells ++ [r]) ++ b :: back by simp] at hlisted hsorted'
      rw [List.pairwise_append] at hsorted'
      have hshrunk := hlisted.shrink (fun c hc => ?_) ((b.len - 8 * n) / 8)
      · refine hshrunk.update (fun c hc => ?_) _
        have hbstop : b.stop = b.start + b.len := rfl
        rcases List.mem_append.mp hc with hc | hc
        · have := hsorted'.2.2 c hc b List.mem_cons_self
          have := c.start_le_stop
          omega
        · rcases List.mem_cons.mp hc with rfl | hc
          · show b.start ≠ _
            omega
          · have := hbback c hc
            omega
      · rcases hc with hc | hc
        · exact (c.start_le_stop.trans_lt (hsorted'.2.2 c hc b List.mem_cons_self)).ne
        · exact (b.start_le_stop.trans_lt (hbback c hc)).ne'
  · rcases List.mem_cons.mp hrmem with heq | hmem
    · rw [heq]
      exact List.mem_cons_self
    · refine List.mem_cons_of_mem _ ?_
      rw [List.map_append, List.map_append]
      exact List.mem_append_left _ (List.mem_append_left _ hmem)
  · rcases List.mem_append.mp hd with hd | hd
    · rcases List.mem_append.mp hd with hd | hd
      · exact h.usable d (by rw [hsplit]; exact List.mem_append_left _ hd)
      · split_ifs at hd with hexact
        · exact absurd hd List.not_mem_nil
        · rw [List.mem_singleton.mp hd]
          exact ⟨Nat.dvd_sub hdvd (Nat.dvd_mul_right 8 n), fun k hk =>
            (h.usable b hb).2 k (lt_of_lt_of_le hk (Nat.sub_le _ _))⟩
    · exact h.usable d (by rw [hsplit]; exact List.mem_append_right _ (List.mem_cons_of_mem b hd))
  · obtain ⟨e, he, hstart, -⟩ := htake.mem hd
    rw [hstart]
    exact h.above e he
  · obtain ⟨e, he, -, hstop⟩ := htake.mem hd
    exact hstop.trans_lt (h.below e he)

/-- The cell before a block is the one that points to it. -/
theorem FreeList.prev_eq (h : FreeList pf m l) {cells : List Extent} {r : Extent}
    (hsplit : l = front ++ b :: back) (hr : (⟨pf.base, 0⟩ : Extent) :: front = cells ++ [r])
    (hv : v ∈ pf.base :: l.map start) (hnext : (m.mem v).ptr = b.start) : v = r.start := by
  have hcells : (⟨pf.base, 0⟩ : Extent) :: l = cells ++ r :: b :: back := by
    rw [hsplit, ← List.cons_append, hr]
    simp
  have hlisted := h.listed
  rw [hcells] at hlisted
  obtain ⟨hrnext, -, -⟩ := listed_cons.mp (listed_append.mp hlisted).2
  refine h.closed.prev_unique h.nodup hv ?_ (hnext.trans hrnext.symm)
  show r.start ∈ ((⟨pf.base, 0⟩ : Extent) :: l).map start
  rw [hcells]
  simp

/-- **A block is taken from the list**, if there is one that is large enough. -/
theorem mallocLoop_fit (h : FreeList pf m l) (hpos : 0 < n) (hfit : ∃ c ∈ l, 8 * n ≤ c.len) :
    ∃ c l' m', (∀ rounds, l.length < rounds →
        mallocLoop pf n rounds m.freep (m.mem m.freep).ptr m = .ok (c.start + 8, m')) ∧
      Takes (8 * n) l c l' ∧ FreeList pf m' l' ∧ m'.env = m.env ∧ (m'.mem c.start).size = n ∧
      ∀ a, a ≠ pf.base → ¬ Covers l a → m'.mem a = m.mem a := by
  obtain ⟨l', hclosed, hnodup, hlen, hmem⟩ := h.enter
  have hsizes := h.listed.sizes
  have hlarge : ∀ a ∈ pf.base :: l.map start, n ≤ (m.mem a).size → ∃ b ∈ l,
      b.start = a ∧ 8 * n ≤ b.len := by
    intro a ha hle
    rcases List.mem_cons.mp ha with rfl | ha
    · have hbase := hsizes ⟨pf.base, 0⟩ List.mem_cons_self
      change 8 * (m.mem pf.base).size = 0 at hbase
      omega
    · obtain ⟨b, hb, rfl⟩ := List.mem_map.mp ha
      have := hsizes b (List.mem_cons_of_mem _ hb)
      exact ⟨b, hb, rfl, by omega⟩
  obtain ⟨c, hc, hcn⟩ := hfit
  have hcsize := hsizes c (List.mem_cons_of_mem _ hc)
  obtain ⟨u, q, hlink, hq, hqmem, hu, hno⟩ :=
    hclosed.first (P := fun a => n ≤ (m.mem a).size) hnodup
    ((hmem c.start).mpr (List.mem_cons_of_mem _ (List.mem_map_of_mem hc))) (by omega)
  obtain ⟨b, hb, rfl, hbn⟩ := hlarge q ((hmem q).mp hqmem) hq
  obtain ⟨front, back, hsplit⟩ := List.append_of_mem hb
  obtain ⟨cells, r, hr⟩ : ∃ cells r, (⟨pf.base, 0⟩ : Extent) :: front = cells ++ [r] := by
    rcases List.eq_nil_or_concat ((⟨pf.base, 0⟩ : Extent) :: front) with hnil | ⟨cells, r, hr⟩
    · cases hnil
    · exact ⟨cells, r, by rw [hr, List.concat_eq_append]⟩
  -- The search stops behind the cell that points to the block.
  have hlast : u.getLastD m.freep ∈ pf.base :: l.map start := by
    cases u with
    | nil => exact h.freep
    | cons x u =>
      rw [List.getLastD_cons]
      have hx : u.getLastD x ∈ x :: u := by
        rw [List.getLastD_eq_getLast?, List.getLast?_eq_getElem?]
        cases u with
        | nil => simp
        | cons y u => simp
      exact (hmem _).mp (List.mem_cons_of_mem _ (hno _ hx).2.2)
  have hprev : u.getLastD m.freep = r.start := h.prev_eq hsplit hr hlast (linked_last hlink)
  have hskip : ∀ k, mallocLoop pf n (k + 1 + u.length) m.freep (m.mem m.freep).ptr m =
      mallocLoop pf n (k + 1) r.start b.start m := by
    intro k
    rw [← hprev]
    exact mallocLoop_skip hlink fun x hx =>
      ⟨h.mapped x ((hmem x).mp (List.mem_cons_of_mem _ (hno x hx).2.2)), not_le.mp (hno x hx).1,
        (hno x hx).2.1⟩
  have hbsize := hsizes b (List.mem_cons_of_mem _ hb)
  have hmapped : pf.mapped m.env r.start := h.mapped _ (hprev ▸ hlast)
  have htake : Takes (8 * n) l ⟨b.start + (b.len - 8 * n), 8 * n⟩
      (front ++ (if b.len = 8 * n then [] else [⟨b.start, b.len - 8 * n⟩]) ++ back) :=
    ⟨front, b, back, hsplit, hbn, rfl, rfl⟩
  refine ⟨_, _, _, fun rounds hrounds => ?_, htake, h.take hpos hsplit hbn hr, rfl, ?_,
    fun a ha hla => ?_⟩
  · obtain ⟨k, rfl⟩ : ∃ k, rounds = k + 1 + u.length := ⟨rounds - u.length - 1, by omega⟩
    exact (hskip k).trans (mallocLoop_take hbsize hbn (h.below b hb) (h.usable b hb) hpos hmapped)
  · dsimp only
    split_ifs with hexact
    · have hne : b.start + (b.len - 8 * n) ≠ r.start := by
        have hcells : (⟨pf.base, 0⟩ : Extent) :: l = cells ++ r :: b :: back := by
          rw [hsplit, ← List.cons_append, hr]
          simp
        have hsorted := h.starts_lt
        rw [hcells, List.pairwise_append] at hsorted
        have := (List.pairwise_cons.mp hsorted.2.1).1 b List.mem_cons_self
        omega
      rw [Function.update_of_ne hne, hexact, Nat.sub_self, Nat.add_zero]
      omega
    · rw [Function.update_self]
  · have har : a ≠ r.start := by
      rintro rfl
      rcases List.mem_cons.mp (hprev ▸ hlast) with heq | hmem
      · exact ha heq
      · obtain ⟨d, hd, heq⟩ := List.mem_map.mp hmem
        exact hla ⟨d, hd, heq ▸ has_start (h.spaced.pos d hd)⟩
    have hab : ∀ x, b.Has x → a ≠ x := by
      rintro x hx rfl
      exact hla ⟨b, hb, hx⟩
    have hstart := hab b.start (has_start (h.spaced.pos b hb))
    have hcut := hab (b.start + (b.len - 8 * n)) ⟨Nat.le_add_right _ _, by
      simp only [stop]
      omega⟩
    dsimp only
    split_ifs
    · rw [Function.update_of_ne har]
    · rw [Function.update_of_ne hcut, Function.update_of_ne hstart]

/-! ### More memory -/

variable (pf) in
/-- **What `sbrk` may answer** to a call for `n` bytes: it fails, or it gives memory behind `top`;
what was mapped stays so, and so is the new memory. -/
inductive Answers (env : σ) (top n : ℕ) : Except Stop (ℕ × σ) → Prop
  | fails {env' : σ} : (∀ a, pf.mapped env a → pf.mapped env' a) →
      Answers env top n (.ok (WORD - 1, env'))
  | gives {p : ℕ} {env' : σ} : top ≤ p → p + n < WORD → (∀ a, pf.mapped env a → pf.mapped env' a) →
      (∀ a, p ≤ a → a + 8 ≤ p + n → pf.mapped env' a) → Answers env top n (.ok (p, env'))

theorem FreeList.of_env (h : FreeList pf m l)
    (henv : ∀ a, pf.mapped m.env a → pf.mapped env' a) : FreeList pf { m with env := env' } l where
  listed := h.listed
  freep := h.freep
  baseMapped := henv _ h.baseMapped
  usable := fun b hb => ⟨(h.usable b hb).1, fun k hk => henv _ ((h.usable b hb).2 k hk)⟩
  spaced := h.spaced
  above := h.above
  below := h.below

theorem callSbrk_eq {p : ℕ} (h : pf.sbrk n m.env = .ok (p, env')) :
    callSbrk pf n m = .ok (p, { m with env := env' }) := by
  unfold callSbrk
  rw [StateT.get_bind, h]
  rfl

theorem coreUnits_pos (n : ℕ) : 0 < coreUnits n ∧ n ≤ coreUnits n := by
  unfold coreUnits
  split_ifs <;> omega

/-- `morecore` without more memory. -/
theorem morecore_fails (hsbrk : pf.sbrk (coreUnits n * 8 % WORD) m.env = .ok (WORD - 1, env')) :
    morecore pf rounds n m = .ok (0, { m with env := env' }) := by
  unfold morecore
  rw [StateT.bind_of_ok (callSbrk_eq hsbrk), if_pos rfl]
  rfl

/-- **`morecore`** puts the new memory into the list. -/
theorem morecore_gives (h : FreeList pf m l) (hn : coreUnits n * 8 < WORD)
    (hsbrk : pf.sbrk (coreUnits n * 8) m.env = .ok (p, env'))
    (hbase : pf.base + 8 ≤ p) (htop : ∀ b ∈ l, b.stop ≤ p) (hp : p + coreUnits n * 8 < WORD)
    (henv : ∀ a, pf.mapped m.env a → pf.mapped env' a)
    (hnew : ∀ a, p ≤ a → a + 8 ≤ p + coreUnits n * 8 → pf.mapped env' a) :
    ∃ m', (∀ rounds, l.length + 1 < rounds → morecore pf rounds n m = .ok (m'.freep, m')) ∧
      FreeList pf m' (place ⟨p, coreUnits n * 8⟩ l) ∧ m'.env = env' ∧
      ∀ a, a ≠ pf.base → ¬ (⟨p, coreUnits n * 8⟩ : Extent).Has a → ¬ Covers l a →
        m'.mem a = m.mem a := by
  obtain ⟨hpos, -⟩ := coreUnits_pos n
  have hapart : ∀ c ∈ l, (⟨p, coreUnits n * 8⟩ : Extent).Apart c := fun c hc =>
    (apart_of_le (htop c hc)).symm
  have husable : Usable pf env' ⟨p, coreUnits n * 8⟩ := by
    refine ⟨Nat.dvd_mul_left 8 _, fun k hk => hnew _ (Nat.le_add_right _ _) ?_⟩
    change 8 * k < coreUnits n * 8 at hk
    show p + 8 * k + 8 ≤ _
    omega
  have hfreeList : FreeList pf ⟨Function.update m.mem p ⟨(m.mem p).ptr, coreUnits n⟩,
      m.freep, env'⟩ l := by
    refine ⟨h.listed.update (fun c hc => ?_) _, h.freep, henv _ h.baseMapped,
      (h.of_env henv).usable, h.spaced, h.above, h.below⟩
    rcases List.mem_cons.mp hc with rfl | hc
    · show pf.base ≠ p
      omega
    · have := htop c hc
      have hlt : c.start < c.stop := Nat.lt_add_of_pos_right (h.spaced.pos c hc)
      omega
  obtain ⟨m', hfree, hlist, henv', hframe⟩ := free_spec (b := ⟨p, coreUnits n * 8⟩) hfreeList
    (Nat.mul_pos hpos (by omega)) (by
      show 8 * (Function.update m.mem p _ p).size = _
      rw [Function.update_self]
      exact Nat.mul_comm _ _) hbase hp hapart husable
  refine ⟨m', fun rounds hrounds => ?_, hlist, henv', fun a ha hpa hla => ?_⟩
  · unfold morecore
    rw [Nat.mod_eq_of_lt hn, StateT.bind_of_ok (callSbrk_eq hsbrk), if_neg (by omega)]
    have hmapped : pf.mapped env' p := husable.start (Nat.mul_pos hpos (by omega))
    refine (StateT.bind_of_ok (store_of_mapped (m := { m with env := env' }) hmapped)).trans ?_
    have hplus : plus p 1 = p + 8 := plus_eq (by omega)
    rw [hplus]
    refine (StateT.bind_of_ok (hfree rounds hrounds)).trans ?_
    rfl
  · rw [hframe a ha hpa hla]
    refine Function.update_of_ne ?_ _ _
    rintro rfl
    exact hpa (has_start (Nat.mul_pos hpos (by omega)))

/-- The search of `malloc` passes all blocks if they are too small. -/
theorem mallocLoop_around (h : FreeList pf m l) (hpos : 0 < n) (hsmall : ∀ c ∈ l, c.len < 8 * n) :
    ∃ v, (∀ rounds, mallocLoop pf n (rounds + 1 + l.length) m.freep (m.mem m.freep).ptr m =
      mallocLoop pf n (rounds + 1) v m.freep m) ∧ (m.mem m.freep).size < n := by
  obtain ⟨l', hclosed, hnodup, hlen, hmem⟩ := h.enter
  have hless : ∀ a ∈ pf.base :: l.map start, (m.mem a).size < n := by
    intro a ha
    obtain ⟨c, hc, rfl⟩ :=
      List.mem_map.mp (show a ∈ ((⟨pf.base, 0⟩ : Extent) :: l).map start from ha)
    have hsize := h.listed.sizes c hc
    rcases List.mem_cons.mp hc with rfl | hc
    · change 8 * _ = 0 at hsize
      omega
    · have := hsmall c hc
      omega
  refine ⟨l'.getLastD m.freep, fun rounds => ?_, hless _ h.freep⟩
  rw [← hlen]
  refine mallocLoop_skip hclosed fun x hx => ?_
  have hx' := (hmem x).mp (List.mem_cons_of_mem _ hx)
  refine ⟨h.mapped x hx', hless x hx', ?_⟩
  rintro rfl
  exact (List.nodup_cons.mp hnodup).1 hx

variable (pf) in
/-- **What `malloc` does**: it takes a block from the list, if there is one that is large enough. If
not, it asks for more memory, and takes the block from the list with that memory, or returns `0`. -/
inductive Mallocs (m : Machine σ) (l : List Extent) (n : ℕ) : ℕ → Machine σ → List Extent → Prop
  | fits {c : Extent} {l' : List Extent} {m' : Machine σ} : (∃ d ∈ l, 8 * n ≤ d.len) →
      Takes (8 * n) l c l' → m'.env = m.env → (m'.mem c.start).size = n →
      (∀ a, a ≠ pf.base → ¬ Covers l a → m'.mem a = m.mem a) → Mallocs m l n (c.start + 8) m' l'
  | fails {m' : Machine σ} : (∀ d ∈ l, d.len < 8 * n) →
      pf.sbrk (coreUnits n * 8) m.env = .ok (WORD - 1, m'.env) →
      (∀ a, a ≠ pf.base → m'.mem a = m.mem a) → Mallocs m l n 0 m' l
  | grows {p : ℕ} {c : Extent} {l' : List Extent} {m' : Machine σ} : (∀ d ∈ l, d.len < 8 * n) →
      pf.sbrk (coreUnits n * 8) m.env = .ok (p, m'.env) → p + coreUnits n * 8 < WORD →
      Takes (8 * n) (place ⟨p, coreUnits n * 8⟩ l) c l' → (m'.mem c.start).size = n →
      (∀ a, a ≠ pf.base → ¬ (⟨p, coreUnits n * 8⟩ : Extent).Has a → ¬ Covers l a →
        m'.mem a = m.mem a) → Mallocs m l n (c.start + 8) m' l'

/-- **The loop of `malloc`**, from `freep` on. -/
theorem mallocLoop_spec (h : FreeList pf m l) {top : ℕ} (hpos : 0 < n) (hn : coreUnits n * 8 < WORD)
    (hbase : pf.base + 8 ≤ top) (htop : ∀ b ∈ l, b.stop ≤ top) (hfreep : pf.base ≠ 0)
    (hsbrk : Answers pf m.env top (coreUnits n * 8) (pf.sbrk (coreUnits n * 8) m.env)) :
    ∃ r m' l', (∀ rounds, 2 * l.length + 3 < rounds →
        mallocLoop pf n rounds m.freep (m.mem m.freep).ptr m = .ok (r, m')) ∧
      FreeList pf m' l' ∧ Mallocs pf m l n r m' l' := by
  by_cases hfit : ∃ c ∈ l, 8 * n ≤ c.len
  · obtain ⟨c, l', m', hrun, htakes, hlist, henv, hsize, hframe⟩ := mallocLoop_fit h hpos hfit
    exact ⟨_, m', l', fun rounds hrounds => hrun rounds (by omega), hlist,
      .fits hfit htakes henv hsize hframe⟩
  have hsmall : ∀ c ∈ l, c.len < 8 * n := by
    intro c hc
    by_contra hge
    exact hfit ⟨c, hc, not_lt.mp hge⟩
  obtain ⟨v, haround, hless⟩ := mallocLoop_around h hpos hsmall
  have hmapped := h.mapped _ h.freep
  have hround : ∀ k, mallocLoop pf n (k + 1 + l.length) m.freep (m.mem m.freep).ptr m =
      (morecore pf k n >>= fun p => if p = 0 then pure 0
        else load pf p >>= fun h => mallocLoop pf n k p h.ptr) m := by
    intro k
    rw [haround, mallocLoop, StateT.bind_of_ok (load_of_mapped hmapped), if_neg (not_le.mpr hless),
      StateT.get_bind, if_pos rfl]
  generalize hresult : pf.sbrk (coreUnits n * 8) m.env = result at hsbrk
  cases hsbrk with
  | @fails env' henv =>
    refine ⟨0, { m with env := env' }, l, fun rounds hrounds => ?_, h.of_env henv,
      .fails hsmall hresult fun _ _ => rfl⟩
    obtain ⟨k, rfl⟩ : ∃ k, rounds = k + 1 + l.length := ⟨rounds - 1 - l.length, by omega⟩
    have hfails : morecore pf k n m = .ok (0, { m with env := env' }) := by
      refine morecore_fails ?_
      rw [Nat.mod_eq_of_lt hn]
      exact hresult
    rw [hround, StateT.bind_of_ok hfails, if_pos rfl]
    rfl
  | @gives p env' htop' hp henv hnew =>
    obtain ⟨m₁, hmore, hlist, henv₁, hframe⟩ := morecore_gives h hn hresult
      (hbase.trans htop') (fun b hb => (htop b hb).trans htop') hp henv hnew
    have hfreep₁ : m₁.freep ≠ 0 := hlist.freep_ne_zero hfreep
    -- The new memory is large enough, by itself or joined with other blocks.
    have hfit₁ : ∃ c ∈ place ⟨p, coreUnits n * 8⟩ l, 8 * n ≤ c.len := by
      obtain ⟨c, hc, hle⟩ := exists_mem_place (b := ⟨p, coreUnits n * 8⟩) (l := l)
      have hle : coreUnits n * 8 ≤ c.len := hle
      have := (coreUnits_pos n).2
      exact ⟨c, hc, by omega⟩
    have hlen : (place ⟨p, coreUnits n * 8⟩ l).length ≤ l.length + 1 := length_place_le
    obtain ⟨c, l', m', hrun, htakes, hlist', henv', hsize, hframe'⟩ :=
      mallocLoop_fit hlist hpos hfit₁
    refine ⟨_, m', l', fun rounds hrounds => ?_, hlist', .grows hsmall ?_ hp htakes hsize
      fun a ha hpa hla => ?_⟩
    · obtain ⟨k, rfl⟩ : ∃ k, rounds = k + 1 + l.length := ⟨rounds - 1 - l.length, by omega⟩
      rw [hround, StateT.bind_of_ok (hmore k (by omega)), if_neg hfreep₁,
        StateT.bind_of_ok (load_of_mapped (hlist.mapped _ hlist.freep))]
      exact hrun k (by omega)
    · rw [henv', henv₁]
      exact hresult
    · rw [hframe' a ha ?_, hframe a ha hpa hla]
      rw [covers_place]
      exact fun hc => hc.elim hpa hla

/-- `malloc` before the first call of `malloc`, when there is no list yet. -/
theorem Mallocs.of_start {m₀ m' : Machine σ} {r : ℕ} {l' : List Extent}
    (h : Mallocs pf m₀ l n r m' l')
    (henv : m₀.env = m.env) (hmem : ∀ a, a ≠ pf.base → m₀.mem a = m.mem a) :
    Mallocs pf m l n r m' l' := by
  cases h with
  | fits hfit htakes henv' hsize hframe =>
    exact .fits hfit htakes (henv'.trans henv) hsize fun a ha hla =>
      (hframe a ha hla).trans (hmem a ha)
  | fails hsmall hsbrk hframe =>
    exact .fails hsmall (henv ▸ hsbrk) fun a ha => (hframe a ha).trans (hmem a ha)
  | grows hsmall hsbrk hp htakes hsize hframe =>
    exact .grows hsmall (henv ▸ hsbrk) hp htakes hsize fun a ha hpa hla =>
      (hframe a ha hpa hla).trans (hmem a ha)

variable (pf) in
/-- There is a free list, or there is none yet. -/
def Ready (m : Machine σ) (l : List Extent) : Prop :=
  (m.freep = 0 ∧ l = [] ∧ pf.mapped m.env pf.base) ∨ FreeList pf m l

/-- **`malloc`** returns, and does what it should. -/
theorem malloc_spec {nbytes top : ℕ} (h : Ready pf m l)
    (hn : coreUnits (unitsFor nbytes) * 8 < WORD)
    (hbase : pf.base + 8 ≤ top) (htop : ∀ b ∈ l, b.stop ≤ top) (hfreep : pf.base ≠ 0)
    (hsbrk : Answers pf m.env top (coreUnits (unitsFor nbytes) * 8)
      (pf.sbrk (coreUnits (unitsFor nbytes) * 8) m.env)) :
    ∃ r m' l', (∀ rounds, 2 * l.length + 3 < rounds → malloc pf rounds nbytes m = .ok (r, m')) ∧
      FreeList pf m' l' ∧ Mallocs pf m l (unitsFor nbytes) r m' l' := by
  have hpos : 0 < unitsFor nbytes := Nat.succ_pos _
  rcases h with ⟨hzero, rfl, hmapped⟩ | hlist
  · -- The list is made, with `base` alone.
    set m₀ : Machine σ := ⟨Function.update m.mem pf.base ⟨pf.base, 0⟩, pf.base, m.env⟩ with hm₀
    have hself : m₀.mem pf.base = ⟨pf.base, 0⟩ := Function.update_self ..
    have hlist : FreeList pf m₀ [] := by
      refine ⟨listed_cons.mpr ⟨?_, ?_, listed_nil _ _⟩, List.mem_cons_self, hmapped,
        nofun, spaced_nil,
        nofun, nofun⟩
      · rw [show (⟨pf.base, 0⟩ : Extent).start = pf.base from rfl, hself]
        rfl
      · rw [show (⟨pf.base, 0⟩ : Extent).start = pf.base from rfl, hself]
        rfl
    have hstore : store pf pf.base (fun _ => ⟨pf.base, 0⟩) { m with freep := pf.base } =
        .ok ((), m₀) :=
      store_of_mapped hmapped
    obtain ⟨r, m', l', hrun, hlist', hmallocs⟩ :=
      mallocLoop_spec hlist hpos hn hbase htop hfreep hsbrk
    refine ⟨r, m', l', fun rounds hrounds => ?_, hlist',
      hmallocs.of_start rfl fun a ha => Function.update_of_ne ha _ _⟩
    unfold malloc
    rw [StateT.get_bind, if_pos hzero,
      StateT.bind_of_ok (t := { m with freep := pf.base }) (a := ()) rfl, StateT.bind_of_ok hstore]
    beta_reduce
    rw [StateT.get_bind, StateT.bind_of_ok (load_of_mapped (hlist.mapped _ hlist.freep))]
    exact hrun rounds hrounds
  · obtain ⟨r, m', l', hrun, hlist', hmallocs⟩ :=
      mallocLoop_spec hlist hpos hn hbase htop hfreep hsbrk
    refine ⟨r, m', l', fun rounds hrounds => ?_, hlist', hmallocs⟩
    unfold malloc
    rw [StateT.get_bind, if_neg (hlist.freep_ne_zero hfreep)]
    beta_reduce
    rw [StateT.get_bind, StateT.bind_of_ok (load_of_mapped (hlist.mapped _ hlist.freep))]
    exact hrun rounds hrounds

/-- The block behind a pointer that `malloc` returned: its size is in its header. -/
def blockAt (m : Machine σ) (r : ℕ) : Extent := ⟨r - 8, 8 * (m.mem (r - 8)).size⟩

theorem blockAt_eq (hc : c.len = 8 * n) (hsize : (m.mem c.start).size = n) :
    blockAt m (c.start + 8) = c := by
  unfold blockAt
  rw [Nat.add_sub_cancel, hsize, ← hc]

end FreeList

end Xv6.Umalloc
