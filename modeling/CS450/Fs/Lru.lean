import CS450.Lib.Cycle
import CS450.Fs.Coherence

/-!
# The list of the buffers

The buffers of `bcache` are in a circular list with a head, linked in both directions. `bget`
follows `next` to look for a block and `prev` to look for a buffer to recycle; `brelse` moves a
buffer to the front when it lets go of the last reference. In the model of the buffer cache the
buffers are in a list of Lean. Here the pointers of the source go along with it: they lead through
the list, so the searches along them end, with what the model finds. Among the buffers without a
reference the list is in the order of their last release, so `bget` recycles the buffer released
longest ago.

## Main results

* `exists_links`: the pointers go along with every run
* `Ordered.step`: every step keeps the list
* `lru_list`: what holds of the list in every run
-/

namespace Xv6.Bio

open Cycle Thread Transition
open Log (Area Disk)

/-- A node of the list; `none` is `bcache.head`. -/
abbrev Node := Option Bix

/-- The pointers of the nodes. -/
structure Links where
  next : Node → Node
  prev : Node → Node

/-- A search of `bget` along the pointers `step`, from a node on; `none` when the given number of
iterations is not enough. -/
def scan (step : Node → Node) (test : Bix → Bool) : ℕ → Node → Option (Option Bix)
  | 0, _ => none
  | _ + 1, none => some none
  | n + 1, some b => if test b then some (some b) else scan step test n (step (some b))

namespace Links

/-- `b` is put behind the head. -/
def insert (k : Links) (b : Bix) : Links :=
  let next := Function.update k.next (some b) (k.next none)
  let prev := Function.update k.prev (some b) none
  let prev := Function.update prev (next none) (some b)
  ⟨Function.update next none (some b), prev⟩

/-- `b` is taken out. -/
def remove (k : Links) (b : Bix) : Links :=
  let prev := Function.update k.prev (k.next (some b)) (k.prev (some b))
  ⟨Function.update k.next (prev (some b)) (k.next (some b)), prev⟩

def binit (k : Links) : Links :=
  (List.finRange NBUF).foldl insert
    ⟨Function.update k.next none none, Function.update k.prev none none⟩

/-- The search of `bget` for the block. -/
def cached {P : Type} (k : Links) (s : State P) (n rounds : ℕ) : Option (Option Bix) :=
  scan k.next (fun b => (s.buf b).Holds n) rounds (k.next none)

/-- The search of `bget` for a buffer to recycle. -/
def recyclable {P : Type} (k : Links) (s : State P) (rounds : ℕ) : Option (Option Bix) :=
  scan k.prev (fun b => (s.buf b).refcnt = 0 ∧ (s.buf b).dirty = false) rounds (k.prev none)

/-- The pointers lead from the head through the buffers and back, in both directions. -/
def Through (k : Links) (l : List Bix) : Prop := Doubly k.next k.prev none (l.map some)

end Links

/-- The machine with the pointers of its list. -/
structure Lru (P : Type) where
  pool : Pool P (State P) Unit Act.Resp
  links : Links
  /-- history: the buffers released, the last one first -/
  releases : List Bix

/-- What a process does. -/
abbrev BioEvent (P : Type) := Thread.Event P Program Unit Act.Resp

section Lru

variable {P : Type} [DecidableEq P] {L : Area} {s t : State P} {x y : Lru P} {k : Links}
  {l releases : List Bix} {b b' : Bix} {e : BioEvent P}

/-- The pointers after a step: the critical section of `brelse` moves the buffer. -/
def Links.after (k : Links) (s : State P) : BioEvent P → Links
  | .act _ (.unref b) _ => if (s.buf b).refcnt - 1 = 0 then (k.remove b).insert b else k
  | _ => k

def released : BioEvent P → List Bix
  | .act _ (.unref b) _ => [b]
  | _ => []

def LruStep (L : Area) (x : Lru P) (e : BioEvent P) (y : Lru P) : Prop :=
  Step (machine P L) x.pool e y.pool ∧ y.links = x.links.after x.pool.st e ∧
    y.releases = released e ++ x.releases

/-- **The pointers go along** with every run of the machine. -/
theorem exists_links {p q : Pool P (State P) Unit Act.Resp}
    {es : List (BioEvent P)} (h : Run (Step (machine P L)) p es q)
    (k : Links) : ∃ k' releases, Run (LruStep L) ⟨p, k, []⟩ es ⟨q, k', releases⟩ := by
  induction h with
  | nil => exact ⟨k, [], .nil⟩
  | snoc _ hstep ih =>
    obtain ⟨k', releases, hrun⟩ := ih
    exact ⟨_, _, hrun.snoc ⟨hstep, rfl, rfl⟩⟩

/-! ### The pointers -/

theorem nodup_nodes (h : l.Nodup) : (none :: l.map some : List Node).Nodup :=
  List.nodup_cons.mpr ⟨by simp, h.map (Option.some_injective _)⟩

theorem Links.Through.insert (h : k.Through l) (hl : l.Nodup) (hb : b ∉ l) :
    (k.insert b).Through (b :: l) := by
  have hinsert := Doubly.insert (b := some b) h (nodup_nodes hl) (by simpa using hb)
  have hne : (none : Node) ≠ some b := by simp
  unfold Through Links.insert
  dsimp only
  rw [Function.update_of_ne hne]
  exact hinsert

theorem Links.Through.remove (h : k.Through l) (hl : l.Nodup) (hb : b ∈ l) :
    (k.remove b).Through (l.erase b) := by
  obtain ⟨u, v, rfl⟩ := List.append_of_mem hb
  have hu : b ∉ u := fun hbu => (List.nodup_append.mp hl).2.2 b hbu b List.mem_cons_self rfl
  have hnodes := nodup_nodes hl
  have hprev : Function.update k.prev (k.next (some b)) (k.prev (some b)) (some b) =
      k.prev (some b) := by
    rw [Function.update_apply, ite_eq_right_iff]
    exact fun _ => rfl
  unfold Through at h
  rw [List.map_append, List.map_cons] at h hnodes
  unfold Through Links.remove
  dsimp only
  rw [hprev, List.erase_append_right _ hu, List.erase_cons_head, List.map_append]
  exact h.remove hnodes

/-- **`binit`** links the buffers, the last one first. -/
theorem through_binit (k : Links) : k.binit.Through (List.finRange NBUF).reverse := by
  have hfold : ∀ {l l' : List Bix} {k : Links}, (l.reverse ++ l').Nodup → k.Through l' →
      (l.foldl Links.insert k).Through (l.reverse ++ l') := by
    intro l
    induction l with
    | nil => exact fun _ hk => hk
    | cons b l ih =>
      intro l' k hnodup hk
      rw [List.reverse_cons, List.append_assoc, List.singleton_append] at hnodup ⊢
      have hb := List.nodup_cons.mp hnodup.of_append_right
      exact ih hnodup (hk.insert hb.2 hb.1)
  have := @hfold (List.finRange NBUF) []
    ⟨Function.update k.next none none, Function.update k.prev none none⟩
  rw [List.append_nil] at this
  refine this (List.nodup_reverse.mpr (List.nodup_finRange _)) ?_
  simp [Links.Through, Doubly, Link]

/-- **A search ends**, with the first buffer on its way. -/
theorem scan_eq {step : Node → Node} {test : Bix → Bool} {n : ℕ} {a : Node}
    (h : Linked step (a :: (l.map some ++ [none]))) (hn : l.length < n) :
    scan step test n (step a) = some (l.find? test) := by
  induction l generalizing a n with
  | nil =>
    obtain ⟨n, rfl⟩ := Nat.exists_eq_succ_of_ne_zero (Nat.ne_zero_of_lt hn)
    rw [List.map_nil, List.nil_append, linked_cons_cons] at h
    rw [h.1]
    rfl
  | cons b l ih =>
    obtain ⟨n, rfl⟩ := Nat.exists_eq_succ_of_ne_zero (Nat.ne_zero_of_lt hn)
    rw [List.map_cons, List.cons_append, linked_cons_cons] at h
    rw [h.1, scan, List.find?_cons]
    cases test b with
    | true => rfl
    | false => exact ih h.2 (Nat.lt_of_succ_lt_succ hn)

/-! ### The order -/

/-- Of two buffers without a reference, the first was released later. -/
def Later (s : State P) (releases : List Bix) (b b' : Bix) : Prop :=
  (s.buf b).refcnt = 0 → (s.buf b').refcnt = 0 → b' ∈ releases →
    releases.idxOf b < releases.idxOf b'

/-- What holds of the list. -/
structure Ordered (s : State P) (k : Links) (releases : List Bix) : Prop where
  nodup : s.lru.Nodup
  mem : ∀ b, b ∈ s.lru
  through : k.Through s.lru
  later : s.lru.Pairwise (Later s releases)

omit [DecidableEq P] in
theorem Ordered.quiet (h : Ordered s k releases) (hlru : t.lru = s.lru)
    (hzero : ∀ b, (t.buf b).refcnt = 0 → (s.buf b).refcnt = 0) : Ordered t k releases := by
  constructor
  all_goals rw [hlru]
  · exact h.nodup
  · exact h.mem
  · exact h.through
  · exact h.later.imp fun {c c'} hlater hc hc' => hlater (hzero c hc) (hzero c' hc')

omit [DecidableEq P] in
/-- The other buffers keep their order behind a new release. -/
theorem Later.release {c c' : Bix} (h : Later s releases c c')
    (hbuf : ∀ c, c ≠ b → t.buf c = s.buf c) (hc : c ≠ b) (hc' : c' ≠ b) :
    Later t (b :: releases) c c' := by
  intro h₀ h₀' hmem
  rw [hbuf c hc] at h₀
  rw [hbuf c' hc'] at h₀'
  rw [List.idxOf_cons_ne _ hc.symm, List.idxOf_cons_ne _ hc'.symm]
  exact Nat.succ_lt_succ (h h₀ h₀' ((List.mem_cons.mp hmem).resolve_left hc'))

/-- **`brelse`**: the list stays as it is, or the buffer moves to the front. -/
theorem Ordered.unref {p : P} {r : Unit} (h : Ordered s k releases)
    (hexec : exec L p (.unref b) s = .ok (r, t)) :
    Ordered t (if (s.buf b).refcnt - 1 = 0 then (k.remove b).insert b else k) (b :: releases) := by
  cases hexec
  have hbuf : ∀ y c, c ≠ b → (s.setBuf b y).buf c = s.buf c := by
    intro y c hc
    rw [buf_setBuf, if_neg hc]
  split_ifs with hzero
  · have hb : b ∉ s.lru.erase b := h.nodup.not_mem_erase
    refine ⟨List.nodup_cons.mpr ⟨hb, h.nodup.erase b⟩, fun c => ?_,
      (h.through.remove h.nodup (h.mem b)).insert (h.nodup.erase b) hb,
      List.pairwise_cons.mpr ⟨fun c hc _ _ _ => ?_, ?_⟩⟩
    · rw [List.mem_cons, or_iff_not_imp_left]
      exact fun hc => (List.mem_erase_of_ne hc).mpr (h.mem c)
    · rw [List.idxOf_cons_self, List.idxOf_cons_ne _ (ne_of_mem_of_not_mem hc hb).symm]
      exact Nat.succ_pos _
    · refine (h.later.sublist List.erase_sublist).imp_of_mem fun {c c'} hc hc' hlater => ?_
      exact hlater.release (hbuf _) (ne_of_mem_of_not_mem hc hb) (ne_of_mem_of_not_mem hc' hb)
  · -- the buffer is still referenced, so its place does not matter
    have hne : ∀ c, ((s.setBuf b { s.buf b with
        refcnt := (s.buf b).refcnt - 1 }).buf c).refcnt = 0 → c ≠ b := by
      rintro c hc rfl
      rw [buf_setBuf, if_pos rfl] at hc
      exact hzero hc
    refine ⟨h.nodup, h.mem, h.through, h.later.imp fun {c c'} hlater h₀ h₀' => ?_⟩
    exact hlater.release (hbuf _) (hne c h₀) (hne c' h₀') h₀ h₀'

/-- **Every step** keeps the list. -/
theorem Ordered.step (h : Ordered x.pool.st x.links x.releases) (hstep : LruStep L x e y) :
    Ordered y.pool.st y.links y.releases := by
  obtain ⟨pool, links, releases⟩ := y
  obtain ⟨hstep, rfl, rfl⟩ := hstep
  cases hstep with
  | start hidle hready => exact h
  | @act p a next r t hcode hexec =>
    by_cases ha : ∃ b, a = .unref b
    · obtain ⟨b, rfl⟩ := ha
      exact h.unref (L := L) (p := p) hexec
    · obtain ⟨hlru, hkept⟩ := exec_kept hexec fun b hb => ha ⟨b, hb⟩
      have hquiet := h.quiet hlru fun b hb => (hkept b).elim
        (fun hkept => Nat.eq_zero_of_le_zero (hb ▸ hkept.refcnt)) fun hfree => hfree.1
      cases a with
      | unref b => exact absurd ⟨b, rfl⟩ ha
      | _ => exact hquiet
  | ret hcode => exact h

omit [DecidableEq P] in
theorem Ordered.length (h : Ordered s k releases) : s.lru.length = NBUF := by
  rw [← List.toFinset_card_of_nodup h.nodup,
    Finset.eq_univ_of_forall fun b => List.mem_toFinset.mpr (h.mem b), Finset.card_univ,
    Fintype.card_fin]

omit [DecidableEq P] in
/-- The last buffer in the list that can be recycled is the one released longest ago. -/
theorem Ordered.oldest (h : Ordered s k releases) (hb : s.recyclable = some b)
    (hb' : (s.buf b').refcnt = 0 ∧ (s.buf b').dirty = false) :
    releases.idxOf b' ≤ releases.idxOf b := by
  obtain ⟨-, u, v, hsplit, hu⟩ := List.find?_eq_some_iff_append.mp hb
  have hmem : b' ∈ u ++ b :: v := by
    rw [← hsplit, List.mem_reverse]
    exact h.mem b'
  rcases List.mem_append.mp hmem with hbu | hbv
  · have := hu b' hbu
    simp [hb'] at this
  rcases List.mem_cons.mp hbv with rfl | hbv
  · exact le_rfl
  by_cases hreleased : b ∈ releases
  · have hlater := h.later
    rw [← List.reverse_reverse s.lru, hsplit, List.reverse_append, List.reverse_cons,
      List.append_assoc, List.pairwise_append] at hlater
    exact (hlater.2.2 b' (List.mem_reverse.mpr hbv) b List.mem_cons_self hb'.1
      (recyclable_free hb).1 hreleased).le
  · rw [List.idxOf_eq_length hreleased]
    exact List.idxOf_le_length

theorem ordered_of_run {disk : Disk} {es : List (BioEvent P)}
    (hrun : Run (LruStep L) ⟨⟨binit disk, fun _ => none⟩, k.binit, []⟩ es x) :
    Ordered x.pool.st x.links x.releases := by
  refine Run.invariant (I := fun x : Lru P => Ordered x.pool.st x.links x.releases)
    (fun _ _ _ h hstep => h.step hstep) hrun ?_
  refine ⟨List.nodup_reverse.mpr (List.nodup_finRange _), fun b => by simp [binit],
    through_binit k, List.pairwise_of_forall fun _ _ _ _ hmem => ?_⟩
  cases hmem

/-- **The list of the buffers.** In every state of a run after `binit`, `next` leads from the head
through each buffer once and back, `prev` is its inverse, and the buffers without a reference are in
the order of their last release. So both searches of `bget` end, with what the model of the buffer
cache finds; and the buffer recycled is, of those neither referenced nor dirty, the one released
longest ago. -/
theorem lru_list {disk : Disk} {es : List (BioEvent P)}
    (hrun : Run (LruStep L) ⟨⟨binit disk, fun _ => none⟩, k.binit, []⟩ es x) :
    x.pool.st.lru.Nodup ∧ (∀ b, b ∈ x.pool.st.lru) ∧
      Linked x.links.next (none :: (x.pool.st.lru.map some ++ [none])) ∧
      (∀ a, x.links.prev (x.links.next a) = a ∧ x.links.next (x.links.prev a) = a) ∧
      x.pool.st.lru.Pairwise (Later x.pool.st x.releases) ∧
      (∀ rounds, NBUF < rounds →
        (∀ n, x.links.cached x.pool.st n rounds = some (x.pool.st.cached n)) ∧
        x.links.recyclable x.pool.st rounds = some x.pool.st.recyclable) ∧
      ∀ b, x.pool.st.recyclable = some b →
        ((x.pool.st.buf b).refcnt = 0 ∧ (x.pool.st.buf b).dirty = false) ∧
        ∀ b', (x.pool.st.buf b').refcnt = 0 ∧ (x.pool.st.buf b').dirty = false →
          x.releases.idxOf b' ≤ x.releases.idxOf b := by
  have h := ordered_of_run hrun
  have hnode : ∀ a : Node, a ∈ none :: x.pool.st.lru.map some := by
    intro a
    cases a with
    | none => exact List.mem_cons_self
    | some b => exact List.mem_cons_of_mem _ (List.mem_map_of_mem (h.mem b))
  refine ⟨h.nodup, h.mem, h.through.closed,
    fun a => ⟨h.through.prev_next (hnode a), h.through.next_prev (hnode a)⟩, h.later,
    fun rounds hn => ⟨fun n => scan_eq h.through.closed (by rwa [h.length]), ?_⟩,
    fun b hb => ⟨recyclable_free hb, fun b' hb' => h.oldest hb hb'⟩⟩
  refine scan_eq ?_ (by rwa [List.length_reverse, h.length])
  rw [List.map_reverse]
  exact h.through.reverse.closed

theorem lru_list_storeBlock : ∃ es, ∃ x : Lru Unit,
    Run (LruStep logArea) ⟨fresh, Links.binit ⟨fun _ => none, fun _ => none⟩, []⟩ es x ∧
    x.pool.st.lru.head? = some 2 ∧ x.links.next none = some 2 ∧
    x.links.recyclable x.pool.st 31 = some x.pool.st.recyclable := by
  obtain ⟨es, s, hrun, -, hhead⟩ := exists_storeBlock
  obtain ⟨k, releases, hlru⟩ := exists_links (hrun.mono fun _ _ _ h => h.1)
    (Links.binit ⟨fun _ => none, fun _ => none⟩)
  obtain ⟨-, -, hlinked, -, -, hsearch, -⟩ := lru_list hlru
  obtain ⟨l, hl⟩ := List.head?_eq_some_iff.mp hhead
  refine ⟨es, _, hlru, hhead, ?_, (hsearch 31 (by decide)).2⟩
  rw [hl] at hlinked
  exact (linked_cons_cons.mp hlinked).1

end Lru

end Xv6.Bio
