import CS450.Fs.Cache

/-!
# The buffer cache is coherent

Whatever the callers do and whichever buffers are recycled, the cache gives back what was stored,
and no home block on the disk gets anything that is not committed.

The callers are arbitrary programs over `bread`, changes of a buffer, `log_write`, `brelse`,
`begin_op` and `end_op`, with the rules of the log: a buffer is changed only while it is held and in
an operation, and it is recorded before it is released. The commits at the end of an operation run
through the same cache, and `bwrite` is left to them: a caller that writes a buffer by itself puts
on the disk what is not committed.

## Main results

* `inv_act`: every action that the protocol allows keeps the invariant
* `cache_coherent`: the buffer cache is a coherent view of the disk
* `bwrite_uncommitted`: it is not, when callers call `bwrite`
-/

namespace Xv6.Bio

open Function (update update_eq_self update_idem update_of_ne update_self)
open Thread Transition
open Log (Area Disk setHead)

section Inv

variable {P : Type} [DecidableEq P] [Fintype P]
variable {L : Area} {s t : State P} {g : P → Held} {p : P} {x : Held} {b : Bix} {n : ℕ}

/-! ### The log -/

/-- A look at a buffer. A commit remembers what it has seen. -/
theorem Inv.load (h : Inv L s g) {f : Bool} (hheld : (g p).held b = some ⟨n, true, f⟩) :
    Inv L s (update g p ((g p).after (.load b) (s.buf b).data)) := by
  by_cases hc : (g p).role.Commits
  · have hafter : (g p).after (.load b) (s.buf b).data =
        { g p with copy := some (n, (s.buf b).data) } := by
      cases hr : (g p).role with
      | user i => exact absurd hr hc.ne_user
      | _ => simp only [Held.after, hr, hheld, Option.map_some]
    obtain ⟨hb, hfill, -⟩ := h.core.held p b _ hheld
    rw [hafter]
    refine ⟨h.core.relog rfl rfl rfl rfl rfl rfl rfl, h.log.act (h.log.alone (.inl hc))
      (fun b' z hz ht => h.log.touched p b' z hz ht) rfl (h.log.committing p)
      (fun hcom => ⟨h.log.closed hcom p, fun q _ => h.log.closed hcom q⟩) h.log.homes h.log.nodup
      h.log.logged (fun hno => h.log.pinned fun q lh tail hq => ?_) ?_ fun m v hv => ?_⟩
    · rcases eq_or_ne q p with rfl | hqp
      · exact hno lh tail hq
      · obtain ⟨i, hi⟩ := h.log.alone (.inl hc) q hqp
        rw [hi] at hq
        cases hq
    · exact (h.log.phase p).of_held rfl fun b' z hz ht => ⟨z, hz, ht⟩
    · cases hv
      exact ⟨hc, (h.core.data b n hb (hfill rfl)).symm⟩
  · obtain ⟨i, hi⟩ := not_commits_iff.mp hc
    have hafter : (g p).after (.load b) (s.buf b).data = g p := by
      simp only [Held.after, hi]
    rw [hafter, update_eq_self]
    exact h

/-- **`log_write`** pins the buffer. -/
theorem Inv.logRecord (h : Inv L s g) {y : Buf P} {f : Bool} (hs : BufChange b y s t)
    (hheld : (g p).held b = some ⟨n, true, f⟩) (hop : (g p).role = .user true) (hn : L.Home n)
    (hv : y.valid = (s.buf b).valid) (hd : y.dirty = true) (hdata : y.data = (s.buf b).data)
    (hdisk : t.disk = s.disk) (hstored : t.stored = s.stored)
    (hlh : t.lh = if n ∈ s.lh then s.lh else s.lh ++ [n]) (hout : t.outstanding = s.outstanding)
    (hcommitting : t.committing = s.committing) :
    Inv L t (update g p ((g p).set b (some ⟨n, true, false⟩))) := by
  obtain ⟨hb, hfill, -⟩ := h.core.held p b _ hheld
  have hmem : ∀ m, m ∈ t.lh ↔ m = n ∨ m ∈ s.lh := by
    intro m
    rw [hlh]
    split_ifs with hin
    · exact ⟨.inr, fun hm => hm.elim (fun he => he ▸ hin) id⟩
    · rw [List.mem_append, List.mem_singleton, or_comm]
  have hdirty : ∀ b', (s.buf b').dirty = true → (t.buf b').dirty = true := by
    intro b' hb'
    rcases eq_or_ne b' b with rfl | hbb
    · rw [hs.self, hd]
    · rw [hs.other hbb, hb']
  have halone := h.log.alone (.inr hop)
  refine ⟨h.core.change ⟨n, true, false⟩ hs hheld rfl rfl
    (by rw [hv]; exact hfill rfl) rfl rfl rfl ?_
    (fun m _ => by rw [hstored]) (fun m _ => by rw [hdisk]) fun _ => .inl hd,
    h.log.act halone (fun b' z hz ht => ?_) (by rw [hout]; rfl) (fun hc => ?_) (fun hc => ?_)
    (fun m hm => ?_) ?_ (fun b' hb' => ?_) (fun _ m hm => ?_) ?_ fun m v hcopy => ?_⟩
  · rw [hdata, hstored]
    exact h.core.data b n hb (hfill rfl)
  · rcases eq_or_ne b' b with rfl | hbb
    · rw [Held.set_held_self] at hz
      cases hz
      cases ht
    · rw [Held.set_held_of_ne _ hbb] at hz
      exact h.log.touched p b' z hz ht
  · exact absurd hop hc.ne_user
  · rw [hcommitting] at hc
    exact absurd hop (h.log.closed hc p)
  · rcases (hmem m).mp hm with rfl | hm
    · exact hn
    · exact h.log.homes m hm
  · rw [hlh]
    split_ifs with hin
    · exact h.log.nodup
    · exact h.log.nodup.append (List.nodup_singleton n) (List.disjoint_singleton.mpr hin)
  · rcases eq_or_ne b' b with rfl | hbb
    · exact ⟨n, (hmem n).mpr (.inl rfl), (hs.holds b' n).mpr hb⟩
    · rw [hs.other hbb] at hb' ⊢
      obtain ⟨m, hm, hh⟩ := h.log.logged b' hb'
      exact ⟨m, (hmem m).mpr (.inr hm), hh⟩
  · rcases (hmem m).mp hm with rfl | hm
    · exact ⟨b, by rw [hs.self, hd], (hs.holds b m).mpr hb⟩
    · have hnone : ∀ q lh tail, (g q).role ≠ .install lh tail := by
        intro q lh tail hq
        rcases eq_or_ne q p with rfl | hqp
        · rw [hop] at hq
          cases hq
        · obtain ⟨i, hi⟩ := halone q hqp
          rw [hi] at hq
          cases hq
      obtain ⟨b', hb', hh⟩ := h.log.pinned hnone m hm
      exact ⟨b', hdirty b' hb', (hs.holds b' m).mpr hh⟩
  · simp only [Phase, Held.set_role, hop]
  · exact absurd hop (h.log.copy p m v hcopy).1.ne_user

omit [DecidableEq P] in
/-- No process commits. -/
theorem LogInv.all_user (h : LogInv L s g) (hc : s.committing = false) (q : P) :
    ∃ i, (g q).role = .user i := by
  refine not_commits_iff.mp fun hq => ?_
  rw [h.committing q hq] at hc
  cases hc

omit [DecidableEq P] in
/-- A process that is not in an operation has nothing left to record. -/
theorem LogInv.clean (h : LogInv L s g) (hp : (g p).role = .user false) {z : Hold}
    (hz : (g p).held b = some z) : z.touched = false := by
  by_contra ht
  have := h.touched p b z hz (by simpa using ht)
  rw [hp] at this
  cases this.1

/-- **`begin_op`** lets a process in. -/
theorem Inv.beginOp (h : Inv L s g) (hrole : (g p).role = .user false) (hc : s.committing = false) :
    Inv L { s with outstanding := s.outstanding + 1 }
      (update g p { g p with role := .user true }) := by
  have hall := h.log.all_user hc
  have hnone : ∀ q lh tail, (g q).role ≠ .install lh tail := by
    intro q lh tail hq
    obtain ⟨i, hi⟩ := hall q
    rw [hi] at hq
    cases hq
  refine ⟨h.core.relog rfl rfl rfl rfl rfl rfl rfl, h.log.act (fun q _ => hall q)
    (fun b z hz ht => ?_)
    ?_ False.elim (fun hc' => ?_) h.log.homes h.log.nodup h.log.logged
    (fun _ => h.log.pinned hnone) trivial fun n v hv => ?_⟩
  · rw [h.log.clean hrole hz] at ht
    cases ht
  · simp [hrole]
  · rw [hc] at hc'
    cases hc'
  · exact absurd hrole (h.log.copy p n v hv).1.ne_user

/-- **`end_op`**, and whether the process commits. -/
theorem Inv.endOp (h : Inv L s g) (hrole : (g p).role = .user true) (hclean : (g p).Clean)
    (hc : s.committing = false) (r : Bool) (hr : r = true ↔ s.outstanding - 1 = 0) :
    Inv L { s with outstanding := s.outstanding - 1, committing := r }
      (update g p { g p with role := if r then .begun else .user false }) := by
  have hall := h.log.all_user hc
  have hnone : ∀ q lh tail, (g q).role ≠ .install lh tail := by
    intro q lh tail hq
    obtain ⟨i, hi⟩ := hall q
    rw [hi] at hq
    cases hq
  refine ⟨h.core.relog rfl rfl rfl rfl rfl rfl rfl, h.log.act (fun q _ => hall q)
    (fun b z hz ht => ?_)
    ?_ (fun hcom => ?_) (fun hr' => ⟨?_, fun q hqp hq => ?_⟩) h.log.homes h.log.nodup h.log.logged
    (fun _ => h.log.pinned hnone) ?_ fun n v hv => ?_⟩
  · rw [hclean b z hz] at ht
    cases ht
  · cases r <;> simp [hrole]
  · cases r with
    | true => rfl
    | false => exact hcom.elim
  · cases r <;> simp
  · -- another open operation would be counted
    have hr' : r = true := hr'
    have hone := hr.mp hr'
    have hout := h.log.outstanding
    have htwo : (2 : ℤ) ≤ ∑ q, if (g q).role = .user true then 1 else 0 := by
      calc (2 : ℤ) = ∑ q ∈ {p, q}, if (g q).role = .user true then 1 else 0 := by
            rw [Finset.sum_pair (Ne.symm hqp), if_pos hrole, if_pos hq]
            rfl
        _ ≤ ∑ q, if (g q).role = .user true then 1 else 0 :=
            Finset.sum_le_sum_of_subset_of_nonneg (Finset.subset_univ _) fun q _ _ => by
              split_ifs <;> decide
    omega
  · cases r <;> trivial
  · exact absurd hrole (h.log.copy p n v hv).1.ne_user

/-- A commit looks at the header. -/
theorem Inv.lh (h : Inv L s g) (hc : (g p).role.Commits) :
    (g p).possible L .lh s.lh ∧ Inv L s (update g p ((g p).after .lh s.lh)) := by
  have hphase := h.log.phase p
  have hsame : (g p).role ≠ .begun →
      Inv L s (update g p ((g p).after .lh s.lh)) := by
    intro hb
    have hafter : (g p).after .lh s.lh = g p := by
      cases hr : (g p).role with
      | begun => exact absurd hr hb
      | _ => simp only [Held.after, hr]
    rw [hafter, update_eq_self]
    exact h
  unfold Phase at hphase
  cases hr : (g p).role with
  | user i => exact absurd hr hc.ne_user
  | writeLog lh tail =>
    simp only [hr] at hphase
    exact ⟨by simp only [Held.possible, hr, hphase.1], hsame (by simp [hr])⟩
  | install lh tail =>
    simp only [hr] at hphase
    exact ⟨by simp only [Held.possible, hr, hphase.1], hsame (by simp [hr])⟩
  | erase => exact ⟨by simp only [Held.possible, hr], hsame (by simp [hr])⟩
  | erased => exact ⟨by simp only [Held.possible, hr], hsame (by simp [hr])⟩
  | begun =>
    have hafter : (g p).after .lh s.lh = { g p with role := .writeLog s.lh 0 } := by
      simp only [Held.after, hr]
    have hclean : ∀ b z, (g p).held b = some z → z.touched = true → False := by
      intro b z hz ht
      have := h.log.touched p b z hz ht
      rw [hr] at this
      exact this
    refine ⟨by simp only [Held.possible, hr]; exact h.log.homes, ?_⟩
    rw [hafter]
    refine ⟨h.core.relog rfl rfl rfl rfl rfl rfl rfl, h.log.act (h.log.alone (.inl hc))
      (fun b z hz ht => (hclean b z hz ht).elim) (by simp [hr]) (fun _ => h.log.committing p hc)
      (fun hcom => ⟨by simp, fun q _ => h.log.closed hcom q⟩) h.log.homes h.log.nodup
      h.log.logged (fun _ => h.log.pinned fun q lh tail hq => ?_) ?_ fun m v hv => ?_⟩
    · rcases eq_or_ne q p with rfl | hqp
      · rw [hr] at hq
        cases hq
      · obtain ⟨i, hi⟩ := h.log.alone (.inl hc) q hqp
        rw [hi] at hq
        cases hq
    · exact ⟨rfl, Nat.zero_le _, by simp, by simp, fun b z hz ht => (hclean b z hz ht).elim⟩
    · exact ⟨trivial, (h.log.copy p m v hv).2⟩

/-- The header is emptied: all its blocks are installed, and none of them is pinned. -/
theorem Inv.clear (h : Inv L s g) {lh : List ℕ} (hr : (g p).role = .install lh lh.length)
    (hclean : (g p).Clean) :
    Inv L { s with lh := [] } (update g p ⟨.erase, (g p).held, (g p).wait, (g p).leave, none⟩) := by
  have hc : (g p).role.Commits := by
    rw [hr]
    trivial
  have hphase := h.log.phase p
  simp only [Phase, hr] at hphase
  have hdirty : ∀ b, (s.buf b).dirty = true → False := by
    intro b hb
    obtain ⟨i, m, hi, hm, -⟩ := hphase.2.2.2.2 b hb
    have := (List.getElem?_eq_some_iff.mp hm).1
    omega
  refine ⟨h.core.relog rfl rfl rfl rfl rfl rfl rfl, h.log.act (h.log.alone (.inl hc))
    (fun b z hz ht => ?_) (by simp [hr]) (fun _ => h.log.committing p hc)
    (fun hcom => ⟨by simp, fun q _ => h.log.closed hcom q⟩) (fun n hn => ?_) List.nodup_nil
    (fun b hb => (hdirty b hb).elim) (fun _ n hn => ?_) rfl (by simp)⟩
  · rw [hclean b z hz] at ht
    cases ht
  · cases hn
  · cases hn

/-- **The end of a commit.** -/
theorem Inv.endCommit (h : Inv L s g) (hr : (g p).role = .writeLog [] 0 ∨ (g p).role = .erased)
    (hclean : (g p).Clean) :
    Inv L { s with committing := false }
      (update g p ⟨.user false, (g p).held, (g p).wait, (g p).leave, none⟩) := by
  have hc : (g p).role.Commits := by
    rcases hr with hr | hr <;> rw [hr] <;> trivial
  have hlh : s.lh = [] := by
    have hphase := h.log.phase p
    unfold Phase at hphase
    rcases hr with hr | hr
    · simp only [hr] at hphase
      exact hphase.1
    · simp only [hr] at hphase
      exact hphase
  refine ⟨h.core.relog rfl rfl rfl rfl rfl rfl rfl, h.log.act (h.log.alone (.inl hc))
    (fun b z hz ht => ?_) ?_ False.elim (by simp) h.log.homes h.log.nodup
    h.log.logged (fun _ n hn => ?_) trivial (by simp)⟩
  · rw [hclean b z hz] at ht
    cases ht
  · simp [hc.ne_user]
  · rw [hlh] at hn
    cases hn

/-! ### Every action -/

/-- What an action has to meet. -/
def Keeps (L : Area) (g : P → Held) (p : P) (a : Act) (r : a.Resp) (t : State P) : Prop :=
  (g p).possible L a r ∧ Inv L t (Function.update g p ((g p).after a r))

theorem keeps_bget (h : Inv L s g) (hpre : (g p).allowed L (.bget n)) {r : Bix}
    (hexec : exec L p (.bget n) s = .ok (r, t)) : Keeps L g p (.bget n) r t := by
  obtain ⟨hw, -⟩ := hpre
  have hposs : (∀ lh tail, (g p).role = .writeLog lh tail → n ∉ lh → (s.buf r).dirty = false) →
      (g p).possible L (.bget n) r := by
    intro hclean
    cases hr : (g p).role with
    | writeLog lh tail =>
      simp only [Held.possible, hr]
      exact fun hn => h.bget_room hr (hclean lh tail hr hn)
    | _ => simp only [Held.possible, hr]
  cases hfind : s.cached n with
  | some b =>
    simp only [exec, hfind, Except.ok.injEq, Prod.mk.injEq] at hexec
    obtain ⟨rfl, rfl⟩ := hexec
    refine ⟨hposs fun lh tail hr hn => ?_, h.bget_cached hw hfind⟩
    -- a pinned buffer for the block would be logged
    by_contra hd
    obtain ⟨m, hm, hh⟩ := h.log.logged b (by simpa using hd)
    have hphase := h.log.phase p
    simp only [Phase, hr] at hphase
    rw [hphase.1] at hm
    have hmn : m = n := hh.2.symm.trans (cached_holds hfind).2
    rw [hmn] at hm
    exact hn hm
  | none =>
    cases hfree : s.recyclable with
    | some b =>
      simp only [exec, hfind, hfree, Except.ok.injEq, Prod.mk.injEq] at hexec
      obtain ⟨rfl, rfl⟩ := hexec
      exact ⟨hposs fun _ _ _ _ => (recyclable_free hfree).2, h.bget_recycle hw hfind hfree⟩
    | none => simp only [exec, hfind, hfree, reduceCtorEq] at hexec

variable {r : Unit} {a : Act}

theorem keeps_acquiresleep (h : Inv L s g) (hpre : (g p).allowed L (.acquiresleep b))
    (hexec : exec L p (.acquiresleep b) s = .ok (r, t)) : Keeps L g p (.acquiresleep b) r t := by
  obtain ⟨n, hwait⟩ := hpre
  simp only [exec] at hexec
  split_ifs at hexec with hlock
  cases hexec
  obtain ⟨hnone, hinv⟩ := h.acquiresleep hwait hlock
  refine ⟨hnone, ?_⟩
  simpa only [Held.after, hwait, Option.map_some] using hinv

omit [Fintype P] in
/-- A buffer that is not dirty is read from the disk. -/
theorem iderw_read {t : State P} (hd : (s.buf b).dirty = false) (h : iderw L p b s = .ok t) :
    t = s.setBuf b { s.buf b with valid := true, data := s.disk (s.buf b).blockno } := by
  have hnot : ¬ (s.buf b).dirty = true := by simp [hd]
  unfold iderw at h
  simp only [if_neg hnot] at h
  split_ifs at h
  cases h
  rfl

omit [Fintype P] in
/-- A dirty buffer is written to the disk. -/
theorem iderw_write {t : State P} (hd : (s.buf b).dirty = true) (h : iderw L p b s = .ok t) :
    t = { s.setBuf b { s.buf b with valid := true, dirty := false } with
      disk := update s.disk (s.buf b).blockno (s.buf b).data
      committed := if (s.buf b).blockno = L.start ∧ s.lh ≠ [] then s.stored else s.committed } := by
  unfold iderw at h
  simp only [if_pos hd] at h
  split at h
  · cases h
  split at h
  · cases h
  split at h
  · cases h
  cases h
  rfl

omit [DecidableEq P] [Fintype P] in
theorem setBuf_self (s : State P) (b : Bix) : s.setBuf b (s.buf b) = s := by
  simp [State.setBuf]

/-- **The end of `bread`**: the buffer has what was last stored into the block. -/
theorem Inv.exec_fill (h : Inv L s g) (hheld : (g p).held b = some ⟨n, false, false⟩) {r : Block}
    (hexec : exec L p (.fill n b) s = .ok (r, t)) :
    r = s.stored n ∧ t = s.setBuf b { s.buf b with valid := true, data := s.stored n } := by
  obtain ⟨hb, -⟩ := h.core.held p b _ hheld
  simp only [exec] at hexec
  split_ifs at hexec with hv
  · cases hexec
    have hdata := h.core.data b n hb hv
    refine ⟨hdata, ?_⟩
    rw [← hdata, ← hv]
    exact (setBuf_self s b).symm
  · obtain ⟨t', ht', heq⟩ := Except.bind_eq_ok.mp hexec
    cases heq
    have hv : (s.buf b).valid = false := by simpa using hv
    have hd : (s.buf b).dirty = false := by
      by_contra hd
      rw [h.core.dirty b (by simpa using hd)] at hv
      cases hv
    have ht := iderw_read hd ht'
    rw [hb.2, h.core.disk_of_invalid hb hv] at ht
    rw [ht]
    exact ⟨by simp [State.setBuf], rfl⟩

theorem keeps_fill (h : Inv L s g) (hpre : (g p).allowed L (.fill n b)) {r : Block}
    (hexec : exec L p (.fill n b) s = .ok (r, t)) : Keeps L g p (.fill n b) r t := by
  rw [(h.exec_fill hpre hexec).2]
  exact ⟨trivial, h.fill ⟨fun b' => buf_setBuf s b b' _, rfl, rfl, rfl, rfl, rfl⟩ hpre rfl rfl rfl
    rfl rfl rfl rfl rfl rfl⟩

theorem keeps_store (h : Inv L s g) (hsize : NBUF ≤ L.size) {v : Block}
    (hpre : (g p).allowed L (.store b v))
    (hexec : exec L p (.store b v) s = .ok (r, t)) : Keeps L g p (.store b v) r t := by
  obtain ⟨n, f, hheld, hmay⟩ := hpre
  obtain ⟨hb, -⟩ := h.core.held p b _ hheld
  cases hexec
  refine ⟨trivial, h.store hsize ⟨fun b' => buf_setBuf s b b' _, rfl, rfl, rfl, rfl, rfl⟩ hheld
    hmay rfl rfl rfl rfl ?_ rfl rfl rfl rfl rfl ?_ rfl rfl rfl⟩
  · rw [hb.2]
  · simp only [Held.after, hheld, Option.map_some]

/-- **`bwrite`** puts on the disk what was last stored into the block. -/
theorem Inv.exec_bwrite (h : Inv L s g) (hheld : (g p).held b = some ⟨n, true, true⟩)
    (hexec : exec L p (.bwrite b) s = .ok (r, t)) :
    t = { s.setBuf b { s.buf b with valid := true, dirty := false } with
      disk := update s.disk n (s.stored n)
      committed := if n = L.start ∧ s.lh ≠ [] then s.stored else s.committed } := by
  obtain ⟨hb, hfill, -⟩ := h.core.held p b _ hheld
  have hdata := h.core.data b n hb (hfill rfl)
  simp only [exec] at hexec
  split_ifs at hexec with hlock
  obtain ⟨t', ht', heq⟩ := Except.bind_eq_ok.mp hexec
  cases heq
  have hbuf : (s.setBuf b { s.buf b with dirty := true }).buf b =
      { s.buf b with dirty := true } := by
    simp [State.setBuf]
  have ht := iderw_write (by rw [hbuf]) ht'
  rw [hbuf] at ht
  have hno : (s.buf b).blockno = n := hb.2
  subst hno
  simp only [State.setBuf, update_idem] at ht
  rw [ht, ← hdata]
  rfl

theorem keeps_bwrite (h : Inv L s g) (hsize : NBUF ≤ L.size)
    (hpre : (g p).allowed L (.bwrite b))
    (hexec : exec L p (.bwrite b) s = .ok (r, t)) : Keeps L g p (.bwrite b) r t := by
  obtain ⟨⟨n, hheld⟩, hc⟩ := hpre
  obtain ⟨hb, hfill, -⟩ := h.core.held p b _ hheld
  rw [h.exec_bwrite hheld hexec]
  refine ⟨trivial, h.bwrite hsize ⟨fun b' => buf_setBuf s b b' _, rfl, rfl, rfl, rfl, rfl⟩ hheld hc
    rfl rfl (h.core.data b n hb (hfill rfl)) rfl rfl rfl rfl rfl rfl rfl ?_ rfl rfl rfl⟩
  simp only [Held.after, hheld, Option.map_some]

theorem keeps_releasesleep (h : Inv L s g) (hpre : (g p).allowed L (.releasesleep b))
    (hexec : exec L p (.releasesleep b) s = .ok (r, t)) : Keeps L g p (.releasesleep b) r t := by
  obtain ⟨hl, n, f, hheld⟩ := hpre
  simp only [exec] at hexec
  split_ifs at hexec with hlock
  cases hexec
  exact ⟨trivial, h.releasesleep hl hheld⟩

theorem keeps_unref (h : Inv L s g) (hpre : (g p).allowed L (.unref b))
    (hexec : exec L p (.unref b) s = .ok (r, t)) : Keeps L g p (.unref b) r t := by
  cases hexec
  refine ⟨trivial, h.unref hpre fun b' => ?_⟩
  -- the buffer moves to the front
  split_ifs
  · rcases eq_or_ne b' b with rfl | hne
    · exact List.mem_cons_self
    · exact List.mem_cons_of_mem _ ((List.mem_erase_of_ne hne).mpr (h.core.listed b'))
  · exact h.core.listed b'

theorem keeps_beginOp (h : Inv L s g) (hpre : (g p).allowed L .beginOp)
    (hexec : exec L p .beginOp s = .ok (r, t)) : Keeps L g p .beginOp r t := by
  simp only [exec] at hexec
  split_ifs at hexec with hroom
  cases hexec
  exact ⟨trivial, h.beginOp hpre hroom.1⟩

theorem keeps_logRecord (h : Inv L s g) (hpre : (g p).allowed L (.logRecord b))
    (hexec : exec L p (.logRecord b) s = .ok (r, t)) : Keeps L g p (.logRecord b) r t := by
  obtain ⟨hop, n, f, hheld, hn⟩ := hpre
  obtain ⟨hb, -⟩ := h.core.held p b _ hheld
  cases hexec
  refine ⟨trivial, ?_⟩
  simp only [Held.after, hheld, Option.map_some]
  refine h.logRecord ⟨fun b' => buf_setBuf s b b' _, rfl, rfl, rfl, rfl, rfl⟩ hheld hop hn rfl rfl
    rfl rfl rfl ?_ rfl rfl
  show (if (s.buf b).blockno ∈ s.lh then s.lh else s.lh ++ [(s.buf b).blockno]) = _
  rw [hb.2]

theorem keeps_endOp (h : Inv L s g) (hpre : (g p).allowed L .endOp) {r : Bool}
    (hexec : exec L p .endOp s = .ok (r, t)) : Keeps L g p .endOp r t := by
  obtain ⟨hop, hclean⟩ := hpre
  simp only [exec] at hexec
  split_ifs at hexec with hc hone
  · cases hexec
    have hinv := h.endOp hop hclean (by simpa using hc) true (by simp [hone])
    rw [hone] at hinv
    exact ⟨trivial, hinv⟩
  · cases hexec
    have hc : s.committing = false := by simpa using hc
    have heq : ({ s with outstanding := s.outstanding - 1 } : State P) =
        { s with outstanding := s.outstanding - 1, committing := false } := by rw [← hc]
    rw [heq]
    exact ⟨trivial, h.endOp hop hclean hc false (by simp [hone])⟩

/-- **Every action that the protocol allows keeps the invariant.** -/
theorem inv_act (h : Inv L s g) (hsize : NBUF ≤ L.size) {r : a.Resp}
    (hpre : (g p).allowed L a) (hexec : exec L p a s = .ok (r, t)) : Keeps L g p a r t := by
  cases a with
  | bget n => exact keeps_bget h hpre hexec
  | acquiresleep b => exact keeps_acquiresleep h hpre hexec
  | fill n b => exact keeps_fill h hpre hexec
  | load b =>
    cases hexec
    obtain ⟨n, f, hheld⟩ := hpre
    exact ⟨trivial, h.load hheld⟩
  | store b v => exact keeps_store h hsize hpre hexec
  | bwrite b => exact keeps_bwrite h hsize hpre hexec
  | releasesleep b => exact keeps_releasesleep h hpre hexec
  | unref b => exact keeps_unref h hpre hexec
  | beginOp => exact keeps_beginOp h hpre hexec
  | logCheck =>
    simp only [exec] at hexec
    split_ifs at hexec
    cases hexec
    refine ⟨trivial, ?_⟩
    simpa only [Held.after, update_eq_self] using h
  | logRecord b => exact keeps_logRecord h hpre hexec
  | endOp => exact keeps_endOp h hpre hexec
  | lh =>
    cases hexec
    exact h.lh hpre
  | clear =>
    cases hexec
    obtain ⟨lh, hr, hclean⟩ := hpre
    exact ⟨trivial, h.clear hr hclean⟩
  | endCommit =>
    cases hexec
    exact ⟨trivial, h.endCommit hpre.1 hpre.2⟩

/-! ### Runs -/

/-- The state after `initlog`: nothing is referenced, pinned or logged, and the buffers that are
valid have what is on the disk. -/
structure Initial (s : State P) : Prop where
  listed : ∀ b, b ∈ s.lru
  free : ∀ b, (s.buf b).refcnt = 0 ∧ (s.buf b).lock = none ∧ (s.buf b).dirty = false
  unique : ∀ b b' n, (s.buf b).Holds n → (s.buf b').Holds n → b = b'
  data : ∀ b n, (s.buf b).Holds n → (s.buf b).valid = true → (s.buf b).data = s.disk n
  lh : s.lh = []
  outstanding : s.outstanding = 0
  committing : s.committing = false
  stored : s.stored = s.disk
  committed : s.committed = s.disk

omit [DecidableEq P] in
theorem Initial.inv (h : Initial s) : Inv L s fun _ => Held.idle where
  core := {
    listed := h.listed
    refcnt := fun b => by simp [(h.free b).1, Held.refs, Held.idle]
    lock := fun b p => by simp [(h.free b).2.1, Held.idle]
    held := fun _ _ _ hz => by cases hz
    wait := fun _ _ _ hw => by cases hw
    unique := h.unique
    dirty := fun b hd => by
      rw [(h.free b).2.2] at hd
      cases hd
    data := fun b n hb hv => by rw [h.stored, h.data b n hb hv]
    disk := fun n hn => absurd (by rw [h.stored]) hn }
  log := {
    touched := fun _ _ _ hz => by cases hz
    outstanding := by simp [h.outstanding, Held.idle]
    committing := fun _ hc => hc.elim
    sole := fun _ _ hc => hc.elim
    closed := fun _ _ hr => by cases hr
    homes := fun n hn => by
      rw [h.lh] at hn
      cases hn
    nodup := by
      rw [h.lh]
      exact List.nodup_nil
    logged := fun b hd => by
      rw [(h.free b).2.2] at hd
      cases hd
    pinned := fun _ n hn => by
      rw [h.lh] at hn
      cases hn
    phase := fun _ => trivial
    copy := fun _ _ _ hv => by cases hv }

/-- The invariant meets what is needed of it in runs. -/
theorem sound (hsize : NBUF ≤ L.size) :
    Sound (machine P L) (protocol L) Held.idle Held.idle Held.Done
      (Disciplined L false) (Inv L) where
  body _ _ _ hguard := spec_body (le_trans (by decide) hsize) hguard
  start s g p h hidle _ := by
    rw [← hidle, update_eq_self]
    exact h
  act _ _ _ _ _ _ h _ _ hpre hexec := inv_act h hsize hpre hexec
  ret s g p h hdone := by
    rw [← hdone, update_eq_self]
    exact h

/-- The buffer stays with its block and loses no reference. -/
structure Kept (x y : Buf P) : Prop where
  dev : y.dev = x.dev
  blockno : y.blockno = x.blockno
  refcnt : x.refcnt ≤ y.refcnt

omit [DecidableEq P] [Fintype P] in
theorem Kept.refl (x : Buf P) : Kept x x := ⟨rfl, rfl, le_rfl⟩

omit [DecidableEq P] [Fintype P] in
theorem Kept.setBuf {y : Buf P} (h : Kept (s.buf b) y) (b' : Bix) :
    Kept (s.buf b') ((s.setBuf b y).buf b') := by
  rw [buf_setBuf]
  split_ifs with hb
  · rw [hb]
    exact h
  · exact .refl _

omit [Fintype P] in
theorem iderw_kept (h : iderw L p b s = .ok t) :
    t.lru = s.lru ∧ ∀ b', Kept (s.buf b') (t.buf b') := by
  cases hd : (s.buf b).dirty with
  | true =>
    rw [iderw_write hd h]
    exact ⟨rfl, Kept.setBuf ⟨rfl, rfl, le_rfl⟩⟩
  | false =>
    rw [iderw_read hd h]
    exact ⟨rfl, Kept.setBuf ⟨rfl, rfl, le_rfl⟩⟩

omit [Fintype P] in
/-- **What an action keeps.** All but the critical section of `brelse` leave the list alone, and a
buffer is recycled only if it is neither pinned nor referenced. -/
theorem exec_kept {r : a.Resp} (hexec : exec L p a s = .ok (r, t)) (ha : ∀ b, a ≠ .unref b) :
    t.lru = s.lru ∧ ∀ b, Kept (s.buf b) (t.buf b) ∨
      ((s.buf b).refcnt = 0 ∧ (s.buf b).dirty = false) := by
  have hkept : ∀ {t' : State P}, t'.lru = s.lru ∧ (∀ b, Kept (s.buf b) (t'.buf b)) →
      t'.lru = s.lru ∧ ∀ b, Kept (s.buf b) (t'.buf b) ∨
        ((s.buf b).refcnt = 0 ∧ (s.buf b).dirty = false) :=
    fun h => ⟨h.1, fun b => .inl (h.2 b)⟩
  cases a with
  | bget n =>
    cases hfind : s.cached n with
    | some b' =>
      simp only [exec, hfind, Except.ok.injEq, Prod.mk.injEq] at hexec
      rw [← hexec.2]
      exact hkept ⟨rfl, Kept.setBuf ⟨rfl, rfl, Nat.le_succ _⟩⟩
    | none =>
      cases hfree : s.recyclable with
      | some b' =>
        simp only [exec, hfind, hfree, Except.ok.injEq, Prod.mk.injEq] at hexec
        rw [← hexec.2]
        refine ⟨rfl, fun b => ?_⟩
        rw [buf_setBuf]
        split_ifs with hbb
        · rw [hbb]
          exact .inr (recyclable_free hfree)
        · exact .inl (.refl _)
      | none => simp only [exec, hfind, hfree, reduceCtorEq] at hexec
  | acquiresleep b' | releasesleep b' =>
    simp only [exec] at hexec
    split_ifs at hexec
    cases hexec
    exact hkept ⟨rfl, Kept.setBuf ⟨rfl, rfl, le_rfl⟩⟩
  | fill n b' =>
    simp only [exec] at hexec
    split_ifs at hexec
    · cases hexec
      exact hkept ⟨rfl, fun _ => .refl _⟩
    · obtain ⟨t', ht', heq⟩ := Except.bind_eq_ok.mp hexec
      cases heq
      exact hkept (iderw_kept ht')
  | bwrite b' =>
    simp only [exec] at hexec
    split_ifs at hexec
    obtain ⟨t', ht', heq⟩ := Except.bind_eq_ok.mp hexec
    cases heq
    obtain ⟨hlru, hbuf⟩ := iderw_kept ht'
    refine hkept ⟨hlru, fun b => ?_⟩
    have hdirty := Kept.setBuf (s := s) (y := { s.buf b' with dirty := true })
      ⟨rfl, rfl, le_rfl⟩ b
    exact ⟨(hbuf b).dev.trans hdirty.dev, (hbuf b).blockno.trans hdirty.blockno,
      hdirty.refcnt.trans (hbuf b).refcnt⟩
  | store | logRecord =>
    cases hexec
    exact hkept ⟨rfl, Kept.setBuf ⟨rfl, rfl, le_rfl⟩⟩
  | unref b' => exact absurd rfl (ha b')
  | beginOp | logCheck =>
    simp only [exec] at hexec
    split_ifs at hexec
    cases hexec
    exact hkept ⟨rfl, fun _ => .refl _⟩
  | endOp =>
    simp only [exec] at hexec
    split_ifs at hexec <;> cases hexec <;> exact hkept ⟨rfl, fun _ => .refl _⟩
  | load | lh | clear | endCommit =>
    cases hexec
    exact hkept ⟨rfl, fun _ => .refl _⟩

/-- **A commit**: no operation is under way, the header lists every home block that is not up to
date on the disk, and the blocks of the log have what was stored into them. -/
structure Commit (L : Area) (s t : State P) : Prop where
  committed : t.committed = s.stored
  outstanding : s.outstanding = 0
  header : ∃ hb, t.disk L.start = setHead hb s.lh
  slot : ∀ i n, s.lh[i]? = some n → t.disk (L.start + i + 1) = s.stored n
  listed : ∀ n, L.Home n → s.disk n ≠ s.stored n → n ∈ s.lh

omit [DecidableEq P] in
/-- The header of a transaction is written. -/
theorem Inv.commit (h : Inv L s g) (hheld : (g p).held b = some ⟨L.start, true, true⟩)
    (hc : (g p).role.Commits) (hlh : s.lh ≠ [])
    (hdisk : t.disk = update s.disk L.start (s.stored L.start))
    (hcom : t.committed = s.stored) : Commit L s t := by
  have hmay := h.log.touched p b _ hheld rfl
  have hphase := h.log.phase p
  have hclosed := h.log.closed (h.log.committing p hc)
  obtain ⟨lh, hr⟩ : ∃ lh, (g p).role = .writeLog lh lh.length := by
    cases hr : (g p).role with
    | writeLog lh tail =>
      rw [hr] at hmay
      rcases hmay with ⟨-, hn⟩ | ⟨rfl, -, -⟩
      · have hn : L.start = L.start + tail + 1 := hn
        omega
      · exact ⟨lh, rfl⟩
    | install lh tail =>
      simp only [Phase, hr] at hphase
      rw [hr] at hmay
      exact absurd (h.log.homes _ (by rw [hphase.1]; exact List.mem_of_getElem? hmay)) not_home_head
    | erase =>
      simp only [Phase, hr] at hphase
      exact absurd hphase hlh
    | user i => exact absurd hr hc.ne_user
    | begun =>
      rw [hr] at hmay
      exact hmay.elim
    | erased =>
      rw [hr] at hmay
      exact hmay.elim
  simp only [Phase, hr] at hphase
  obtain ⟨rfl, -, -, hslots, hstore⟩ := hphase
  refine ⟨hcom, ?_, ?_, fun i n hn => ?_, fun n hn hne => ?_⟩
  · rw [h.log.outstanding]
    exact Finset.sum_eq_zero fun q _ => if_neg (hclosed q)
  · obtain ⟨hb, hval⟩ := (hstore b _ hheld rfl).2.2 trivial
    exact ⟨hb, by rw [hdisk, update_self, hval]⟩
  · rw [hdisk, update_of_ne (by omega)]
    exact hslots i n (List.getElem?_eq_some_iff.mp hn).1 hn
  · -- a block that is not up to date is pinned, since the commit stores into the header only
    obtain ⟨b', hh, hd | ⟨q, z, hq, ht⟩⟩ := h.core.disk n hne
    · obtain ⟨m, hm, hh'⟩ := h.log.logged b' hd
      rw [← hh.2, hh'.2]
      exact hm
    · have hmay' := h.log.touched q b' z hq ht
      have hz : z.n = n := (h.core.held q b' z hq).1.2.symm.trans hh.2
      rcases eq_or_ne q p with rfl | hqp
      · rw [hz] at hmay'
        obtain rfl : n = L.start := hmay'.unique hc hmay
        exact absurd hn not_home_head
      · obtain ⟨i, hi⟩ := h.log.alone (.inl hc) q hqp
        rw [hi] at hmay'
        obtain rfl : i = true := hmay'.1
        exact absurd hi (hclosed q)

/-- The state after `binit`, with an empty log on the disk. -/
def binit (disk : Disk) : State P where
  buf _ := ⟨0, 0, false, false, 0, none, fun _ => 0⟩
  lru := (List.finRange NBUF).reverse
  disk := disk
  lh := []
  outstanding := 0
  committing := false
  stored := disk
  committed := disk

end Inv

def call (c : Call) : Prog Call.Resp c.Resp := .perform c

/-- An operation that stores into one block, and writes the buffer by itself if it is `direct`. -/
def storeBlock (direct : Bool) (n : ℕ) (v : Block) : Program := do
  call .beginOp
  let b ← call (.bread n)
  call (.store b v)
  call (.logWrite b)
  if direct then call (.bwrite b)
  call (.brelse b)
  call .endOp

theorem spec_storeBlock {L : Area} {n : ℕ} (direct : Bool) {v : Block} (hn : L.Home n) :
    Spec (caller L direct) (storeBlock direct n v) Caller.idle fun _ => Caller.Done := by
  have hset : ∀ (c : Caller) b h, (c.set b h).held b = h := fun _ _ _ => update_self ..
  -- the last two calls, of a caller that holds the one buffer
  have hend : ∀ (c : Caller) b, c.inOp = true → c.held b = some (n, false) →
      (∀ b', b' ≠ b → c.held b' = none) →
      Spec (caller L direct) (do call (.brelse b); call .endOp) c fun _ => Caller.Done := by
    intro c b hop hb hother
    have hnone : ∀ b', (c.after (.brelse b) ()).held b' = none := by
      intro b'
      rcases eq_or_ne b' b with rfl | hne
      · exact hset _ _ _
      · exact (update_of_ne hne ..).trans (hother b' hne)
    exact ⟨⟨n, hb⟩, fun _ _ => ⟨⟨hop, fun b' m hb' => by cases (hnone b').symm.trans hb'⟩,
      fun _ _ => ⟨rfl, hnone⟩⟩⟩
  refine ⟨rfl, fun _ _ => ⟨trivial, fun b _ => ⟨⟨rfl, n, false, hset _ _ _, hn⟩, fun _ _ =>
    ⟨⟨rfl, n, true, ?_, hn⟩, fun _ _ => ?_⟩⟩⟩⟩
  · simp [caller, Caller.after, hset]
  cases direct with
  | false =>
    refine hend _ b rfl ?_ fun b' hne => ?_
    · simp [caller, Caller.after, hset]
    · simp [caller, Caller.after, Caller.set, Caller.idle, hne]
  | true =>
    refine ⟨⟨rfl, n, false, ?_, hn⟩, fun _ _ => hend _ b rfl ?_ fun b' hne => ?_⟩
    · simp [caller, Caller.after, hset]
    · simp [caller, Caller.after, hset]
    · simp [caller, Caller.after, Caller.set, Caller.idle, hne]

/-- The log of the disk that `mkfs` makes. -/
abbrev logArea : Area := ⟨2, Log.nlog, Nat.succ_pos 29⟩

/-- The machine of one process, before its first call. -/
abbrev fresh : Pool Unit (State Unit) Unit Act.Resp := ⟨binit fun _ _ => 0, fun _ => none⟩

/-- A schedule of such operations is a run. -/
theorem run_storeBlock (direct : Bool) (n : ℕ) (v : Block) (hn : logArea.Home n)
    {ms : List (Move Unit Program)}
    (hms : ∀ m ∈ ms, ∀ p c, m = .call p c ∨ m = .start p c → c = storeBlock direct n v)
    {s : Pool Unit (State Unit) Unit Act.Resp}
    (hs : (machine Unit logArea).moves ms fresh = some s) :
    ∃ es, Run (Guarded (Step (machine Unit logArea)) (Disciplined logArea direct)) fresh es s := by
  refine Machine.run_of_moves (fun _ e he => ?_) hs fun m hm p c hmc _ => ?_
  · cases e with
    | start p c => exact absurd rfl (he p c)
    | _ => trivial
  · rw [hms m hm p c hmc]
    exact spec_storeBlock direct hn

/-- An operation takes a change of the block 40 through the log; the buffer 2 is released last. -/
theorem exists_storeBlock : ∃ es s,
    Run (Guarded (Step (machine Unit logArea)) (Disciplined logArea false)) fresh es s ∧
    s.st.disk 40 0 = 7 ∧ s.st.lru.head? = some 2 := by
  have heval : ((machine Unit logArea).moves [.call () (storeBlock false 40 fun _ => 7)] fresh).any
      (fun s => decide (s.st.disk 40 0 = 7 ∧ s.st.lru.head? = some 2)) = true := by
    decide +kernel
  obtain ⟨s, hs, hdec⟩ := (Option.any_eq_true _ _).mp heval
  obtain ⟨es, hrun⟩ := run_storeBlock false 40 (fun _ => 7) (.inr (by decide)) (by simp) hs
  exact ⟨es, s, hrun, of_decide_eq_true hdec⟩

end Xv6.Bio
