import Mathlib

/-!
# Circular linked lists

A singly linked list in memory is a function `next`. A list of nodes is linked if each node points
to the one after it; it is a cycle if the last points to the first. A cycle can be entered at any
node, and a search from there that follows `next` passes all the nodes before it comes back.

## Main definitions

* `Linked next l`: each node of `l` points to the next one
* `Closed next a l`: the nodes `a :: l` form a cycle
* `Doubly next prev a l`: so they do, with links in both directions

## Main results

* `Closed.enter`: a cycle seen from another of its nodes
* `Closed.prev_unique`: two nodes of a cycle do not point to the same node
* `Closed.first`: the way to the first node with a property
* `Linked.congr`: only the pointers of the nodes matter
* `Doubly.remove`, `Doubly.insert`: a node is taken out, and put first
-/

namespace Cycle

variable {α : Type*} {next next' : α → α} {a b c p q : α} {l l' u v : List α} {P : α → Prop}

/-- Each node points to the next one. -/
def Linked (next : α → α) (l : List α) : Prop := l.IsChain fun x y => next x = y

/-- The nodes form a cycle. -/
def Closed (next : α → α) (a : α) (l : List α) : Prop := Linked next (a :: (l ++ [a]))

@[simp] theorem linked_singleton (next : α → α) (a : α) : Linked next [a] :=
  List.isChain_singleton a

@[simp] theorem linked_cons_cons : Linked next (a :: b :: l) ↔ next a = b ∧ Linked next (b :: l) :=
  List.isChain_cons_cons

theorem linked_split : Linked next (u ++ a :: v) ↔ Linked next (u ++ [a]) ∧ Linked next (a :: v) :=
  List.isChain_split

/-- Only the pointers of the nodes before the last one matter. -/
theorem Linked.congr (h : Linked next (u ++ [a])) (hu : ∀ x ∈ u, next' x = next x) :
    Linked next' (u ++ [a]) := by
  induction u with
  | nil => exact linked_singleton next' a
  | cons x u ih =>
    cases u with
    | nil =>
      rw [List.cons_append, List.nil_append, linked_cons_cons] at h ⊢
      exact ⟨(hu x List.mem_cons_self).trans h.1, linked_singleton next' a⟩
    | cons y u =>
      rw [List.cons_append, List.cons_append, linked_cons_cons] at h ⊢
      exact ⟨(hu x List.mem_cons_self).trans h.1,
        ih h.2 fun z hz => hu z (List.mem_cons_of_mem x hz)⟩

theorem Linked.map_next (h : Linked next (u ++ [a])) : u.map next = (u ++ [a]).tail := by
  induction u with
  | nil => rfl
  | cons x u ih =>
    cases u with
    | nil =>
      rw [List.cons_append, List.nil_append, linked_cons_cons] at h
      simp [h.1]
    | cons y u =>
      rw [List.cons_append, List.cons_append, linked_cons_cons] at h
      rw [List.map_cons, h.1, ih h.2]
      rfl

theorem Closed.map_next (h : Closed next a l) : (a :: l).map next = l ++ [a] :=
  Linked.map_next (u := a :: l) h

/-- Two nodes of a cycle do not point to the same node. -/
theorem Closed.prev_unique (h : Closed next a l) (hl : (a :: l).Nodup) (hp : p ∈ a :: l)
    (hq : q ∈ a :: l) (heq : next p = next q) : p = q := by
  have hnodup : ((a :: l).map next).Nodup := by
    rw [h.map_next, List.nodup_append_comm]
    exact hl
  exact List.inj_on_of_nodup_map hnodup hp hq heq

/-- **A cycle seen from another of its nodes.** -/
theorem Closed.enter (h : Closed next a l) (hc : c ∈ a :: l) :
    ∃ l', Closed next c l' ∧ (c :: l').Perm (a :: l) := by
  rcases List.mem_cons.mp hc with rfl | hc
  · exact ⟨l, h, .refl _⟩
  · obtain ⟨u, v, rfl⟩ := List.append_of_mem hc
    have hsplit : a :: ((u ++ c :: v) ++ [a]) = (a :: u) ++ c :: (v ++ [a]) := by simp
    rw [Closed, hsplit, linked_split] at h
    refine ⟨v ++ a :: u, ?_, ?_⟩
    · rw [Closed, show c :: ((v ++ a :: u) ++ [c]) = (c :: v) ++ a ::
        (u ++ [c]) by simp, linked_split]
      exact ⟨h.2, h.1⟩
    · have hperm : (c :: (v ++ a :: u)).Perm ((a :: u) ++ (c :: v)) :=
        @List.perm_append_comm _ (c :: v) (a :: u)
      simpa using hperm

/-- The nodes of a list before the first one with a property. -/
theorem exists_first (hq : q ∈ l) (hP : P q) : ∃ u p v, l = u ++ p :: v ∧ P p ∧ ∀ x ∈ u, ¬ P x := by
  induction l with
  | nil => cases hq
  | cons x l ih =>
    by_cases hx : P x
    · exact ⟨[], x, l, rfl, hx, nofun⟩
    · rcases List.mem_cons.mp hq with rfl | hq
      · exact absurd hP hx
      · obtain ⟨u, p, v, rfl, hp, hu⟩ := ih hq
        refine ⟨x :: u, p, v, rfl, hp, fun y hy => ?_⟩
        rcases List.mem_cons.mp hy with rfl | hy
        · exact hx
        · exact hu y hy

/-- **The way to the first node with a property**, behind the node where a search begins; the search
does not pass that node before. -/
theorem Closed.first (h : Closed next a l) (hl : (a :: l).Nodup) (hq : q ∈ a :: l) (hP : P q) :
    ∃ u p, Linked next (a :: (u ++ [p])) ∧ P p ∧ p ∈ a :: l ∧ u.length ≤ l.length ∧
      ∀ x ∈ u, ¬ P x ∧ x ≠ a ∧ x ∈ l := by
  have hq' : q ∈ l ++ [a] := by
    rw [List.mem_append, List.mem_singleton, or_comm]
    exact List.mem_cons.mp hq
  obtain ⟨u, p, v, hsplit, hp, hu⟩ := exists_first hq' hP
  have hlinked : Linked next (a :: (u ++ [p])) := by
    rw [Closed, hsplit, show a :: (u ++ p :: v) = (a :: u) ++ p :: v by simp, linked_split] at h
    exact h.1
  have hmem : ∀ x ∈ u, x ∈ l := by
    intro x hx
    rcases List.eq_nil_or_concat v with rfl | ⟨v, y, rfl⟩
    · obtain ⟨rfl, -⟩ := List.append_inj' hsplit rfl
      exact hx
    · have hsplit' : l ++ [a] = (u ++ p :: v) ++ [y] := by
        rw [hsplit]
        simp
      rw [(List.append_inj' hsplit' rfl).1]
      exact List.mem_append_left _ hx
  refine ⟨u, p, hlinked, hp, ?_, ?_, fun x hx => ⟨hu x hx, ?_, hmem x hx⟩⟩
  · have hpl : p ∈ l ++ [a] := by
      rw [hsplit]
      exact List.mem_append_right _ List.mem_cons_self
    rw [List.mem_append, List.mem_singleton, or_comm] at hpl
    exact List.mem_cons.mpr hpl
  · have hlen := congrArg List.length hsplit
    simp only [List.length_append, List.length_cons, List.length_nil] at hlen
    omega
  · rintro rfl
    exact (List.nodup_cons.mp hl).1 (hmem x hx)

/-! ### Links in both directions -/

section Doubly

variable {prev : α → α}

/-- The second node follows the first one, seen from both. -/
def Link (next prev : α → α) (x y : α) : Prop := next x = y ∧ prev y = x

/-- The nodes form a cycle with links in both directions. -/
def Doubly (next prev : α → α) (a : α) (l : List α) : Prop :=
  (a :: (l ++ [a])).IsChain (Link next prev)

theorem Doubly.closed (h : Doubly next prev a l) : Closed next a l :=
  List.IsChain.imp (fun _ _ hxy => hxy.1) h

theorem Doubly.reverse (h : Doubly next prev a l) : Doubly prev next a l.reverse := by
  have hrev : a :: (l.reverse ++ [a]) = (a :: (l ++ [a])).reverse := by simp
  rw [Doubly, hrev, List.isChain_reverse]
  exact List.IsChain.imp (fun _ _ hxy => hxy.symm) h

theorem Doubly.prev_next (h : Doubly next prev a l) (hb : b ∈ a :: l) : prev (next b) = b := by
  obtain ⟨u, v, huv⟩ := List.append_of_mem hb
  obtain ⟨c, w, hw⟩ := List.exists_cons_of_ne_nil (List.concat_ne_nil a v)
  have hsplit : a :: (l ++ [a]) = u ++ b :: c :: w := by
    rw [← List.cons_append, huv, List.append_assoc, List.cons_append, ← hw]
  rw [Doubly, hsplit, List.isChain_append_cons_cons] at h
  rw [h.2.1.1, h.2.1.2]

theorem Doubly.next_prev (h : Doubly next prev a l) (hb : b ∈ a :: l) : next (prev b) = b :=
  h.reverse.prev_next (by simpa using hb)

variable [DecidableEq α]

/-- **Taking a node out**, with one pointer of each neighbour changed. -/
theorem Doubly.remove (h : Doubly next prev a (u ++ b :: v)) (hl : (a :: (u ++ b :: v)).Nodup) :
    Doubly (Function.update next (prev b) (next b)) (Function.update prev (next b) (prev b)) a
      (u ++ v) := by
  obtain ⟨w, p, hw⟩ := (List.eq_nil_or_concat (a :: u)).resolve_left (List.cons_ne_nil a u)
  obtain ⟨c, w', hw'⟩ := List.exists_cons_of_ne_nil (List.concat_ne_nil a v)
  rw [List.concat_eq_append] at hw
  have hsplit : a :: ((u ++ b :: v) ++ [a]) = w ++ p :: b :: c :: w' := by
    rw [List.append_assoc, List.cons_append, hw', ← List.cons_append, hw, List.append_assoc]
    rfl
  have hsplit' : a :: ((u ++ v) ++ [a]) = w ++ p :: c :: w' := by
    rw [List.append_assoc, hw', ← List.cons_append, hw, List.append_assoc]
    rfl
  have hb : b ∉ a :: u ∧ b ∉ v ++ [a] := by
    rw [← List.cons_append, List.nodup_middle, List.nodup_cons] at hl
    simp only [List.mem_append, List.mem_cons, not_or] at hl ⊢
    exact ⟨hl.1.1, hl.1.2, hl.1.1.1, List.not_mem_nil⟩
  rw [hw, hw'] at hb
  rw [Doubly, hsplit, List.isChain_append_cons_cons, List.isChain_cons_cons] at h
  obtain ⟨hleft, ⟨hpb, hbp⟩, ⟨hbc, hcb⟩, hright⟩ := h
  rw [hbp, hbc]
  -- a link that does not involve `b` does not begin at `p` or end at `c`
  have hframe : ∀ x y, x ≠ b → y ≠ b → Link next prev x y →
      Link (Function.update next p c) (Function.update prev c p) x y := by
    rintro x y hx hy ⟨hxy, hyx⟩
    constructor
    · rw [Function.update_of_ne, hxy]
      rintro rfl
      exact hy (hxy.symm.trans hpb)
    · rw [Function.update_of_ne, hyx]
      rintro rfl
      exact hx (hyx.symm.trans hcb)
  rw [Doubly, hsplit', List.isChain_append_cons_cons]
  refine ⟨hleft.imp_of_mem_imp fun x y hx hy => ?_,
    ⟨Function.update_self .., Function.update_self ..⟩,
    hright.imp_of_mem_imp fun x y hx hy => ?_⟩
  · exact hframe x y (ne_of_mem_of_not_mem hx hb.1) (ne_of_mem_of_not_mem hy hb.1)
  · exact hframe x y (ne_of_mem_of_not_mem hx hb.2) (ne_of_mem_of_not_mem hy hb.2)

/-- **Putting a node first.** -/
theorem Doubly.insert (h : Doubly next prev a l) (hl : (a :: l).Nodup) (hb : b ∉ a :: l) :
    Doubly (Function.update (Function.update next b (next a)) a b)
      (Function.update (Function.update prev b a) (next a) b) a (b :: l) := by
  obtain ⟨c, w, hw⟩ := List.exists_cons_of_ne_nil (List.concat_ne_nil a l)
  have hc : c ∉ w := by
    have hnodup : (l ++ [a]).Nodup := by
      rw [List.nodup_append_comm]
      exact hl
    rw [hw] at hnodup
    exact (List.nodup_cons.mp hnodup).1
  have hb' : b ∉ c :: w := by
    rw [← hw, List.mem_append, List.mem_singleton, or_comm]
    rwa [List.mem_cons] at hb
  have hba : b ≠ a := fun heq => hb (heq ▸ List.mem_cons_self)
  have hbc : b ≠ c := fun heq => hb' (heq ▸ List.mem_cons_self)
  rw [Doubly, hw, List.isChain_cons_cons] at h
  obtain ⟨⟨hac, hca⟩, hrest⟩ := h
  rw [hac, Doubly, List.cons_append, hw, List.isChain_cons_cons, List.isChain_cons_cons]
  refine ⟨⟨Function.update_self .., ?_⟩, ⟨?_, Function.update_self ..⟩, ?_⟩
  · rw [Function.update_of_ne hbc, Function.update_self]
  · rw [Function.update_of_ne hba, Function.update_self]
  · refine hrest.imp_of_mem_tail_imp fun x y hx hy hlink => ?_
    obtain ⟨hxy, hyx⟩ := hlink
    have hyc : y ≠ c := ne_of_mem_of_not_mem hy hc
    have hxa : x ≠ a := by
      rintro rfl
      exact hyc (hxy.symm.trans hac)
    have hyb : y ≠ b := ne_of_mem_of_not_mem (List.mem_cons_of_mem c hy) hb'
    refine ⟨?_, ?_⟩
    · rw [Function.update_of_ne hxa, Function.update_of_ne (ne_of_mem_of_not_mem hx hb'), hxy]
    · rw [Function.update_of_ne hyc, Function.update_of_ne hyb, hyx]

end Doubly

end Cycle
