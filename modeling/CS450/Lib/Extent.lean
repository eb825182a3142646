import Mathlib

/-!
# Extents in address order

Parts of an address space that do not overlap, in the order of their addresses, with a gap between
any two: the form in which an allocator keeps the parts that are free. An extent that is given back
is put into its place, and joined with a neighbour that it touches; one that is handed out is the
end of a part that is large enough.

## Main definitions

* `Extent`: a start and a length
* `Covers l x`: the address lies in one of the extents
* `Spaced l`: the extents are not empty and in order, with gaps between them
* `place b l`: the extents with `b` put into its place
* `Takes n l c l'`: the extent `c` of the length `n` is taken from `l`, and `l'` is left
* `Shares free live whole`: what is free and what is handed out are the whole

## Main results

* `covers_place`, `total_place`, `Spaced.place`: nothing is lost, and the order and the gaps stay
* `Takes.covers_iff`, `Takes.total_eq`, `Takes.spaced`: the same for what is taken
* `place_of_gap`: the place of an extent lies between two neighbours
* `Shares.take`, `Shares.grow`, `Shares.give`: the steps of an allocator
-/

/-- A part of an address space. -/
structure Extent where
  start : ℕ
  len : ℕ
  deriving DecidableEq, Repr

namespace Extent

/-- The first address behind the extent. -/
def stop (b : Extent) : ℕ := b.start + b.len

def Has (b : Extent) (x : ℕ) : Prop := b.start ≤ x ∧ x < b.stop

instance (b : Extent) (x : ℕ) : Decidable (b.Has x) := inferInstanceAs (Decidable (_ ∧ _))

/-- The two extents have no address in common. -/
def Apart (b c : Extent) : Prop := ∀ x, b.Has x → ¬ c.Has x

/-- The address lies in one of the extents. -/
def Covers (l : List Extent) (x : ℕ) : Prop := ∃ b ∈ l, b.Has x

/-- The sum of the lengths. -/
def total (l : List Extent) : ℕ := (l.map len).sum

/-- The extents are not empty and in order, with gaps between them. -/
structure Spaced (l : List Extent) : Prop where
  pos : ∀ b ∈ l, 0 < b.len
  gaps : l.Pairwise fun b c => b.stop < c.start

/-- The extent before the extents `l`, joined with the first of them if it touches it. -/
def join (b : Extent) : List Extent → List Extent
  | [] => [b]
  | c :: l => if b.stop = c.start then ⟨b.start, b.len + c.len⟩ :: l else b :: c :: l

/-- **The extent is put into its place**, and joined with the neighbours that it touches. -/
def place (b : Extent) : List Extent → List Extent
  | [] => [b]
  | c :: l =>
    if b.start < c.start then join b (c :: l)
    else if c.stop = b.start then join ⟨c.start, c.len + b.len⟩ l
    else c :: place b l

/-- **The end of an extent is taken**, or the whole. -/
def Takes (n : ℕ) (l : List Extent) (c : Extent) (l' : List Extent) : Prop :=
  ∃ front b back, l = front ++ b :: back ∧ n ≤ b.len ∧ c = ⟨b.start + (b.len - n), n⟩ ∧
    l' = front ++ (if b.len = n then [] else [⟨b.start, b.len - n⟩]) ++ back

variable {b c d p : Extent} {l l' front back : List Extent} {n x : ℕ}

theorem start_le_stop (b : Extent) : b.start ≤ b.stop := Nat.le_add_right _ _

/-! ### Addresses -/

theorem has_start (h : 0 < b.len) : b.Has b.start := ⟨le_rfl, Nat.lt_add_of_pos_right h⟩

theorem Apart.symm (h : b.Apart c) : c.Apart b := fun x hc hb => h x hb hc

instance : Std.Symm Apart := ⟨fun _ _ h => h.symm⟩

/-- Of two extents without a common address one ends before the other begins. -/
theorem Apart.le_or_le (h : b.Apart c) (hb : 0 < b.len) (hc : 0 < c.len) :
    b.stop ≤ c.start ∨ c.stop ≤ b.start := by
  by_contra hno
  obtain ⟨h1, h2⟩ := not_or.mp hno
  rcases le_total b.start c.start with hle | hle
  · exact h c.start ⟨hle, not_le.mp h1⟩ (has_start hc)
  · exact h b.start (has_start hb) ⟨hle, not_le.mp h2⟩

theorem apart_of_le (h : b.stop ≤ c.start) : b.Apart c := fun _ hb hc =>
  absurd (hb.2.trans_le h) (not_lt.mpr hc.1)

@[simp] theorem covers_nil : ¬ Covers [] x := fun ⟨_, hb, _⟩ => List.not_mem_nil hb

@[simp] theorem covers_cons : Covers (b :: l) x ↔ b.Has x ∨ Covers l x := by
  simp [Covers]

@[simp] theorem covers_append : Covers (l ++ l') x ↔ Covers l x ∨ Covers l' x := by
  simp [Covers, or_and_right, exists_or]

theorem not_covers_iff : (∀ x, b.Has x → ¬ Covers l x) ↔ ∀ c ∈ l, b.Apart c :=
  ⟨fun h c hc x hb hx => h x hb ⟨c, hc, hx⟩, fun h x hb ⟨c, hc, hx⟩ => h c hc x hb hx⟩

@[simp] theorem total_nil : total [] = 0 := rfl

@[simp] theorem total_cons : total (b :: l) = b.len + total l := List.sum_cons

@[simp] theorem total_append : total (l ++ l') = total l + total l' := by
  simp [total]

theorem spaced_nil : Spaced [] := ⟨nofun, .nil⟩

theorem spaced_cons : Spaced (b :: l) ↔ 0 < b.len ∧ (∀ c ∈ l, b.stop < c.start) ∧ Spaced l := by
  constructor
  · rintro ⟨hpos, hgaps⟩
    obtain ⟨hb, hgaps⟩ := List.pairwise_cons.mp hgaps
    exact ⟨hpos b List.mem_cons_self, hb, fun c hc => hpos c (List.mem_cons_of_mem b hc), hgaps⟩
  · rintro ⟨hb, hlt, hpos, hgaps⟩
    refine ⟨fun c hc => ?_, List.pairwise_cons.mpr ⟨hlt, hgaps⟩⟩
    rcases List.mem_cons.mp hc with rfl | hc
    · exact hb
    · exact hpos c hc

/-! ### Extents that touch -/

theorem has_join_iff (h : b.stop = c.start) :
    (⟨b.start, b.len + c.len⟩ : Extent).Has x ↔ b.Has x ∨ c.Has x := by
  simp only [Has, stop] at h ⊢
  omega

theorem covers_join : Covers (join b l) x ↔ b.Has x ∨ Covers l x := by
  cases l with
  | nil => simp [join]
  | cons c l =>
    rw [join]
    split_ifs with h
    · rw [covers_cons, covers_cons, has_join_iff h, or_assoc]
    · rw [covers_cons]

theorem total_join : total (join b l) = b.len + total l := by
  cases l with
  | nil => rfl
  | cons c l =>
    rw [join]
    split_ifs
    · simp only [total_cons]
      omega
    · rfl

theorem exists_join_eq (b : Extent) (l : List Extent) : ∃ n l', join b l = ⟨b.start, n⟩ :: l' := by
  cases l with
  | nil => exact ⟨b.len, [], rfl⟩
  | cons c l =>
    rw [join]
    split_ifs
    · exact ⟨b.len + c.len, l, rfl⟩
    · exact ⟨b.len, c :: l, rfl⟩

/-- Two extents that touch are joined with the extents behind them as one. -/
theorem join_join (h : p.stop = b.start) : join p (join b l) = join ⟨p.start, p.len + b.len⟩ l := by
  have hstop : (⟨p.start, p.len + b.len⟩ : Extent).stop = b.stop := by
    simp only [stop] at h ⊢
    omega
  cases l with
  | nil =>
    show (if p.stop = b.start then _ else _) = _
    rw [if_pos h]
    rfl
  | cons c l =>
    rw [join, join, hstop]
    split_ifs
    · rw [join, if_pos h, Nat.add_assoc]
    · rw [join, if_pos h]

theorem join_of_ne (h : p.stop ≠ b.start) : join p (join b l) = p :: join b l := by
  obtain ⟨n, l', heq⟩ := exists_join_eq b l
  rw [heq, join, if_neg h]

/-- The starts and the ends of the result are those of the parts. -/
theorem mem_join (h : d ∈ join b l) :
    (d.start = b.start ∨ ∃ c ∈ l, d.start = c.start) ∧
    (d.stop = b.stop ∨ ∃ c ∈ l, d.stop = c.stop) := by
  cases l with
  | nil =>
    rw [join, List.mem_singleton] at h
    exact ⟨.inl (h ▸ rfl), .inl (h ▸ rfl)⟩
  | cons c l =>
    rw [join] at h
    split_ifs at h with htouch
    · rcases List.mem_cons.mp h with rfl | h
      · refine ⟨.inl rfl, .inr ⟨c, List.mem_cons_self, ?_⟩⟩
        simp only [stop] at htouch ⊢
        omega
      · have hd : d ∈ c :: l := List.mem_cons_of_mem c h
        exact ⟨.inr ⟨d, hd, rfl⟩, .inr ⟨d, hd, rfl⟩⟩
    · rcases List.mem_cons.mp h with rfl | h
      · exact ⟨.inl rfl, .inl rfl⟩
      · exact ⟨.inr ⟨d, h, rfl⟩, .inr ⟨d, h, rfl⟩⟩

/-- What holds of the parts and goes over to extents that are joined holds of the result. -/
theorem forall_join {P : Extent → Prop} (hP : ∀ c d, P c → P d → c.stop = d.start →
    P ⟨c.start, c.len + d.len⟩) (hb : P b) (hl : ∀ c ∈ l, P c) : ∀ d ∈ join b l, P d := by
  cases l with
  | nil =>
    intro d hd
    exact List.mem_singleton.mp hd ▸ hb
  | cons c l =>
    intro d hd
    rw [join] at hd
    split_ifs at hd with htouch
    · rcases List.mem_cons.mp hd with rfl | hd
      · exact hP b c hb (hl c List.mem_cons_self) htouch
      · exact hl d (List.mem_cons_of_mem c hd)
    · rcases List.mem_cons.mp hd with rfl | hd
      · exact hb
      · exact hl d hd

theorem Spaced.join (h : Spaced l) (hb : 0 < b.len) (hle : ∀ c ∈ l, b.stop ≤ c.start) :
    Spaced (join b l) := by
  cases l with
  | nil => exact spaced_cons.mpr ⟨hb, nofun, spaced_nil⟩
  | cons c l =>
    obtain ⟨hc, hlt, hl⟩ := spaced_cons.mp h
    rw [Extent.join]
    split_ifs with htouch
    · refine spaced_cons.mpr ⟨Nat.add_pos_left hb _, fun d hd => ?_, hl⟩
      have hd := hlt d hd
      simp only [stop] at htouch hd ⊢
      omega
    · refine spaced_cons.mpr ⟨hb, fun d hd => ?_, h⟩
      have hbc := hle c List.mem_cons_self
      rcases List.mem_cons.mp hd with rfl | hd
      · omega
      · have hd := hlt d hd
        have := c.start_le_stop
        omega

/-! ### An extent is put into its place -/

theorem covers_place : Covers (place b l) x ↔ b.Has x ∨ Covers l x := by
  induction l with
  | nil => simp [place]
  | cons c l ih =>
    rw [place]
    split_ifs with hlt htouch
    · exact covers_join
    · rw [covers_join, covers_cons, has_join_iff htouch, or_assoc, or_left_comm]
    · rw [covers_cons, covers_cons, ih, or_left_comm]

theorem total_place : total (place b l) = b.len + total l := by
  induction l with
  | nil => rfl
  | cons c l ih =>
    rw [place]
    split_ifs
    · exact total_join
    · rw [total_join, total_cons]
      show c.len + b.len + total l = _
      omega
    · rw [total_cons, total_cons, ih]
      omega

theorem mem_place (h : d ∈ place b l) :
    (d.start = b.start ∨ ∃ c ∈ l, d.start = c.start) ∧
    (d.stop = b.stop ∨ ∃ c ∈ l, d.stop = c.stop) := by
  induction l with
  | nil => exact mem_join h
  | cons c l ih =>
    have hmem : ∀ e ∈ l, e ∈ c :: l := fun e => List.mem_cons_of_mem c
    rw [place] at h
    split_ifs at h with hlt htouch
    · exact mem_join h
    · obtain ⟨hstart, hstop⟩ := mem_join h
      refine ⟨.inr ?_, ?_⟩
      · rcases hstart with hstart | ⟨e, he, hstart⟩
        · exact ⟨c, List.mem_cons_self, hstart⟩
        · exact ⟨e, hmem e he, hstart⟩
      · refine hstop.imp (fun hstop => hstop.trans ?_) fun ⟨e, he, hstop⟩ => ⟨e, hmem e he, hstop⟩
        simp only [stop] at htouch ⊢
        omega
    · rcases List.mem_cons.mp h with rfl | h
      · exact ⟨.inr ⟨d, List.mem_cons_self, rfl⟩, .inr ⟨d, List.mem_cons_self, rfl⟩⟩
      · obtain ⟨hstart, hstop⟩ := ih h
        exact ⟨hstart.imp_right fun ⟨e, he, heq⟩ => ⟨e, hmem e he, heq⟩,
          hstop.imp_right fun ⟨e, he, heq⟩ => ⟨e, hmem e he, heq⟩⟩

theorem forall_place {P : Extent → Prop} (hP : ∀ c d, P c → P d → c.stop = d.start →
    P ⟨c.start, c.len + d.len⟩) (hb : P b) (hl : ∀ c ∈ l, P c) : ∀ d ∈ place b l, P d := by
  induction l with
  | nil =>
    intro d hd
    exact List.mem_singleton.mp hd ▸ hb
  | cons c l ih =>
    have hc := hl c List.mem_cons_self
    have hl' : ∀ e ∈ l, P e := fun e he => hl e (List.mem_cons_of_mem c he)
    rw [place]
    split_ifs with hlt htouch
    · exact forall_join hP hb hl
    · exact forall_join hP (hP c b hc hb htouch) hl'
    · intro d hd
      rcases List.mem_cons.mp hd with rfl | hd
      · exact hc
      · exact ih hl' d hd

theorem length_join_le : (join b l).length ≤ l.length + 1 := by
  cases l with
  | nil => exact le_rfl
  | cons c l =>
    rw [join]
    split_ifs
    · exact Nat.le_succ _
    · exact le_rfl

theorem length_place_le : (place b l).length ≤ l.length + 1 := by
  induction l with
  | nil => exact le_rfl
  | cons c l ih =>
    rw [place]
    split_ifs
    · exact length_join_le
    · exact length_join_le.trans (Nat.le_succ _)
    · exact Nat.succ_le_succ ih

theorem exists_mem_join : ∃ d ∈ join b l, b.len ≤ d.len := by
  cases l with
  | nil => exact ⟨b, List.mem_cons_self, le_rfl⟩
  | cons c l =>
    rw [join]
    split_ifs
    · exact ⟨_, List.mem_cons_self, Nat.le_add_right _ _⟩
    · exact ⟨b, List.mem_cons_self, le_rfl⟩

/-- The extent is part of one that is at least as long. -/
theorem exists_mem_place : ∃ d ∈ place b l, b.len ≤ d.len := by
  induction l with
  | nil => exact ⟨b, List.mem_cons_self, le_rfl⟩
  | cons c l ih =>
    rw [place]
    split_ifs
    · exact exists_mem_join
    · obtain ⟨d, hd, hle⟩ := exists_mem_join (b := ⟨c.start, c.len + b.len⟩) (l := l)
      exact ⟨d, hd, (Nat.le_add_left _ _).trans hle⟩
    · obtain ⟨d, hd, hle⟩ := ih
      exact ⟨d, List.mem_cons_of_mem c hd, hle⟩

/-- **The order and the gaps stay.** -/
theorem Spaced.place (h : Spaced l) (hb : 0 < b.len) (hapart : ∀ c ∈ l, b.Apart c) :
    Spaced (place b l) := by
  induction l with
  | nil => exact spaced_cons.mpr ⟨hb, nofun, spaced_nil⟩
  | cons c l ih =>
    obtain ⟨hc, hlt, hl⟩ := spaced_cons.mp h
    have hcases := (hapart c List.mem_cons_self).le_or_le hb hc
    have hrest : ∀ d ∈ l, b.Apart d := fun d hd => hapart d (List.mem_cons_of_mem c hd)
    have hbstop : b.start < b.stop := Nat.lt_add_of_pos_right hb
    rw [Extent.place]
    split_ifs with hbc htouch
    · have := c.start_le_stop
      have hle : b.stop ≤ c.start := hcases.resolve_right (by omega)
      refine h.join hb fun d hd => ?_
      rcases List.mem_cons.mp hd with rfl | hd
      · exact hle
      · have := hlt d hd
        omega
    · refine hl.join (Nat.add_pos_left hc _) fun d hd => ?_
      have hd' := (hrest d hd).le_or_le hb (hl.pos d hd)
      have hlt := hlt d hd
      have := d.start_le_stop
      simp only [stop] at htouch hd' hlt this ⊢
      omega
    · refine spaced_cons.mpr ⟨hc, fun d hd => ?_, ih hl hrest⟩
      rcases (mem_place hd).1 with heq | ⟨e, he, heq⟩
      · omega
      · rw [heq]
        exact hlt e he

/-- **The place of an extent lies between two neighbours.** -/
theorem place_of_gap (hfront : ∀ c ∈ front, c.start ≤ b.start ∧ c.stop ≠ b.start)
    (hp : p.start ≤ b.start) (hback : ∀ c ∈ back, b.start < c.start) :
    place b (front ++ p :: back) = front ++ join p (join b back) := by
  induction front with
  | nil =>
    have hplace : place b back = join b back := by
      cases back with
      | nil => rfl
      | cons c back => rw [place, if_pos (hback c List.mem_cons_self)]
    rw [List.nil_append, List.nil_append, place, if_neg (not_lt.mpr hp), hplace]
    split_ifs with htouch
    · exact (join_join htouch).symm
    · exact (join_of_ne htouch).symm
  | cons c front ih =>
    obtain ⟨hc, hcs⟩ := hfront c List.mem_cons_self
    rw [List.cons_append, place, if_neg (not_lt.mpr hc), if_neg hcs,
      ih fun d hd => hfront d (List.mem_cons_of_mem c hd), List.cons_append]

/-- There is a place for every extent behind the first one. -/
theorem exists_gap (hc : c.start < b.start) (hne : ∀ d ∈ l, d.start ≠ b.start)
    (hsorted : (c :: l).Pairwise fun d e => d.start < e.start) :
    ∃ front p back, c :: l = front ++ p :: back ∧ p.start < b.start ∧ ∀ d ∈ back,
      b.start < d.start := by
  induction l generalizing c with
  | nil => exact ⟨[], c, [], rfl, hc, nofun⟩
  | cons e l ih =>
    obtain ⟨-, hsorted'⟩ := List.pairwise_cons.mp hsorted
    rcases lt_or_gt_of_ne (hne e List.mem_cons_self) with hlt | hgt
    · obtain ⟨front, p, back, heq, hp, hback⟩ := ih hlt
        (fun d hd => hne d (List.mem_cons_of_mem e hd)) hsorted'
      exact ⟨c :: front, p, back, by rw [heq]; rfl, hp, hback⟩
    · refine ⟨[], c, e :: l, rfl, hc, fun d hd => ?_⟩
      rcases List.mem_cons.mp hd with rfl | hd
      · exact hgt
      · exact hgt.trans ((List.pairwise_cons.mp hsorted').1 d hd)

/-! ### An extent is taken -/

theorem Takes.covers_iff (h : Takes n l c l') : Covers l x ↔ c.Has x ∨ Covers l' x := by
  obtain ⟨front, b, back, rfl, hle, rfl, rfl⟩ := h
  split_ifs with hn
  · subst hn
    simp only [Nat.sub_self, Nat.add_zero, List.append_nil, covers_append, covers_cons]
    exact or_left_comm
  · have hsplit : b.Has x ↔ (⟨b.start + (b.len - n), n⟩ : Extent).Has x ∨
        (⟨b.start, b.len - n⟩ : Extent).Has x := by
      simp only [Has, stop]
      omega
    simp only [covers_append, covers_cons, covers_nil, or_false]
    tauto

theorem Takes.total_eq (h : Takes n l c l') : total l = c.len + total l' := by
  obtain ⟨front, b, back, rfl, hle, rfl, rfl⟩ := h
  split_ifs with hn
  · simp only [total_append, total_cons, total_nil]
    omega
  · simp only [total_append, total_cons, total_nil]
    omega

theorem Takes.len_eq (h : Takes n l c l') : c.len = n := by
  obtain ⟨-, -, -, -, -, rfl, -⟩ := h
  rfl

/-- The starts of what is left are starts from before, and the ends do not grow. -/
theorem Takes.mem (h : Takes n l c l') (hd : d ∈ l') :
    ∃ e ∈ l, d.start = e.start ∧ d.stop ≤ e.stop := by
  obtain ⟨front, b, back, rfl, hle, -, rfl⟩ := h
  rcases List.mem_append.mp hd with hd | hd
  · rcases List.mem_append.mp hd with hd | hd
    · exact ⟨d, List.mem_append_left _ hd, rfl, le_rfl⟩
    · split_ifs at hd with hn
      · exact absurd hd List.not_mem_nil
      · rw [List.mem_singleton.mp hd]
        refine ⟨b, List.mem_append_right _ List.mem_cons_self, rfl, ?_⟩
        simp only [stop]
        omega
  · exact ⟨d, List.mem_append_right _ (List.mem_cons_of_mem b hd), rfl, le_rfl⟩

theorem Takes.spaced (h : Takes n l c l') (hl : Spaced l) : Spaced l' := by
  have hpos : ∀ d ∈ l', 0 < d.len := by
    obtain ⟨front, b, back, rfl, hle, -, rfl⟩ := h
    intro d hd
    rcases List.mem_append.mp hd with hd | hd
    · rcases List.mem_append.mp hd with hd | hd
      · exact hl.pos d (List.mem_append_left _ hd)
      · split_ifs at hd with hn
        · exact absurd hd List.not_mem_nil
        · rw [List.mem_singleton.mp hd]
          exact (by omega : 0 < b.len - n)
    · exact hl.pos d (List.mem_append_right _ (List.mem_cons_of_mem b hd))
  refine ⟨hpos, ?_⟩
  obtain ⟨front, b, back, rfl, hle, -, rfl⟩ := h
  have hgaps := hl.gaps
  split_ifs with hn
  · rw [List.append_nil]
    exact hgaps.sublist ((List.sublist_cons_self b back).append_left front)
  · rw [List.pairwise_append, List.pairwise_cons] at hgaps
    obtain ⟨hfront, ⟨hb, hback⟩, hcross⟩ := hgaps
    rw [List.append_assoc, List.singleton_append, List.pairwise_append, List.pairwise_cons]
    refine ⟨hfront, ⟨fun d hd => ?_, hback⟩, fun d hd e he => ?_⟩
    · have := hb d hd
      simp only [stop] at this ⊢
      omega
    · rcases List.mem_cons.mp he with rfl | he
      · exact hcross d hd b List.mem_cons_self
      · exact hcross d hd e (List.mem_cons_of_mem b he)

/-- What is taken is not left. -/
theorem Takes.apart (h : Takes n l c l') (hl : Spaced l) (hx : c.Has x) : ¬ Covers l' x := by
  obtain ⟨front, b, back, rfl, hle, rfl, rfl⟩ := h
  have hgaps := hl.gaps
  rw [List.pairwise_append, List.pairwise_cons] at hgaps
  obtain ⟨-, ⟨hb, -⟩, hcross⟩ := hgaps
  have hbx : b.Has x := by
    simp only [Has, stop] at hx ⊢
    omega
  rintro ⟨d, hd, hdx⟩
  rcases List.mem_append.mp hd with hd | hd
  · rcases List.mem_append.mp hd with hd | hd
    · exact apart_of_le (hcross d hd b List.mem_cons_self).le x hdx hbx
    · split_ifs at hd with hn
      · exact absurd hd List.not_mem_nil
      · rw [List.mem_singleton.mp hd] at hdx
        simp only [Has, stop] at hx hdx
        omega
  · exact apart_of_le (hb d hd).le x hbx hdx

/-! ### The bookkeeping of an allocator -/

/-- **Free and live extents share out the whole**: they do not overlap, they lie inside, and
together they are as long. The free ones are apart from each other since they are spaced. -/
structure Shares (free live whole : List Extent) : Prop where
  liveApart : live.Pairwise Apart
  freeApart : ∀ v ∈ live, ∀ x, v.Has x → ¬ Covers free x
  inside : ∀ x, Covers free x ∨ Covers live x → Covers whole x
  total_eq : total free + total live = total whole

section Shares

variable {free free' live whole : List Extent} {r v : Extent}

theorem shares_nil : Shares [] [] [] := ⟨.nil, nofun, fun _ h => h.elim id id, rfl⟩

/-- An extent is handed out. -/
theorem Shares.take (h : Shares free live whole) (hfree : Spaced free) (ht : Takes n free c free') :
    Shares free' (c :: live) whole := by
  refine ⟨List.pairwise_cons.mpr ⟨fun v hv x hc hvx => ?_, h.liveApart⟩, fun v hv x hvx hx => ?_,
    fun x hx => h.inside x ?_, ?_⟩
  · exact h.freeApart v hv x hvx (ht.covers_iff.mpr (.inl hc))
  · rcases List.mem_cons.mp hv with rfl | hv
    · exact ht.apart hfree hvx hx
    · exact h.freeApart v hv x hvx (ht.covers_iff.mpr (.inr hx))
  · rw [covers_cons] at hx
    rw [ht.covers_iff]
    tauto
  · have htotal := h.total_eq
    have := ht.total_eq
    rw [total_cons]
    omega

/-- The whole grows, and what is new is free. -/
theorem Shares.grow (h : Shares free live whole) (hr : ∀ x, r.Has x → ¬ Covers whole x) :
    Shares (place r free) live (r :: whole) := by
  refine ⟨h.liveApart, fun v hv x hvx hx => ?_, fun x hx => ?_, ?_⟩
  · rcases covers_place.mp hx with hx | hx
    · exact hr x hx (h.inside x (.inr ⟨v, hv, hvx⟩))
    · exact h.freeApart v hv x hvx hx
  · rw [covers_place, or_assoc] at hx
    rw [covers_cons]
    exact hx.imp_right (h.inside x)
  · have htotal := h.total_eq
    rw [total_place, total_cons]
    omega

/-- A live extent is given back. -/
theorem Shares.give (h : Shares free live whole) (hv : v ∈ live) :
    Shares (place v free) (live.erase v) whole := by
  have hperm : live.Perm (v :: live.erase v) := List.perm_cons_erase hv
  have hapart : (v :: live.erase v).Pairwise Apart :=
    (hperm.pairwise_iff fun hxy => hxy.symm).mp h.liveApart
  obtain ⟨hv', hrest⟩ := List.pairwise_cons.mp hapart
  refine ⟨hrest, fun w hw x hwx hx => ?_, fun x hx => h.inside x ?_, ?_⟩
  · rcases covers_place.mp hx with hx | hx
    · exact hv' w hw x hx hwx
    · exact h.freeApart w (List.mem_of_mem_erase hw) x hwx hx
  · rw [covers_place] at hx
    rcases hx with (hx | hx) | ⟨w, hw, hx⟩
    · exact .inr ⟨v, hv, hx⟩
    · exact .inl hx
    · exact .inr ⟨w, List.mem_of_mem_erase hw, hx⟩
  · have htotal := h.total_eq
    have hlive : total live = v.len + total (live.erase v) := (hperm.map len).sum_eq
    rw [total_place]
    omega

end Shares

end Extent
