import CS450.Fs.Bio

/-!
# The invariant of the buffer cache

The invariant counts the references of all processes, and says of every block where its contents
are: a buffer that is valid has what was last stored into its block, and so has the disk, unless the
buffer is pinned or somebody has just stored into it.

The log copies blocks through the same cache. It finds in the home blocks what the operations have
stored, and in the blocks of the log what it has stored there itself. So the stores of
`install_trans` change nothing, and what it writes is what the header has committed. The blocks of
the log are not home blocks, since a header that fills the whole cache with pinned buffers leaves no
buffer for the first block of the log, and the kernel panics before it writes anything.
-/

namespace Xv6.Bio

open Function (update update_apply update_eq_self update_of_ne update_self)
open Thread Transition
open Log (Area setHead)

/-- The references of a process to a buffer. -/
def Held.refs (g : Held) (b : Bix) : ℕ :=
  (g.held b).isSome.toNat + (g.wait.any fun w => w.1 == b).toNat + (g.leave == some b).toNat

/-- The block into whose buffer a process may have stored without recording it. -/
def Role.MayTouch (L : Area) (n : ℕ) : Role → Prop
  | .user inOp => inOp = true ∧ L.Home n
  | .writeLog lh tail => tail < lh.length ∧ n = L.start + tail + 1 ∨
      tail = lh.length ∧ lh ≠ [] ∧ n = L.start
  | .install lh tail => lh[tail]? = some n
  | .erase => n = L.start
  | _ => False

section Inv

variable {P : Type} [DecidableEq P] [Fintype P]

/-- A process has stored into the buffer and not recorded it. -/
def Touched (g : P → Held) (b : Bix) : Prop := ∃ p h, (g p).held b = some h ∧ h.touched = true

/-- **References and contents.** -/
structure Core (s : State P) (g : P → Held) : Prop where
  listed : ∀ b, b ∈ s.lru
  refcnt : ∀ b, (s.buf b).refcnt = ∑ p, (g p).refs b
  lock : ∀ b p, (s.buf b).lock = some p ↔ ((g p).held b).isSome = true
  held : ∀ p b h, (g p).held b = some h → (s.buf b).Holds h.n ∧
    (h.filled = true → (s.buf b).valid = true) ∧ (h.touched = true → h.filled = true)
  wait : ∀ p b n, (g p).wait = some (b, n) → (s.buf b).Holds n
  unique : ∀ b b' n, (s.buf b).Holds n → (s.buf b').Holds n → b = b'
  dirty : ∀ b, (s.buf b).dirty = true → (s.buf b).valid = true
  data : ∀ b n, (s.buf b).Holds n → (s.buf b).valid = true → (s.buf b).data = s.stored n
  disk : ∀ n, s.disk n ≠ s.stored n →
    ∃ b, (s.buf b).Holds n ∧ ((s.buf b).dirty = true ∨ Touched g b)

/-- How far a commit has come. -/
def Phase (L : Area) (s : State P) (g : Held) : Prop :=
  match g.role with
  | .writeLog lh tail => s.lh = lh ∧ tail ≤ lh.length ∧ (0 < tail → lh.length < NBUF) ∧
      (∀ i m, i < tail → lh[i]? = some m → s.disk (L.start + i + 1) = s.stored m) ∧
      ∀ b h, g.held b = some h → h.touched = true → lh.length < NBUF ∧
        (∀ m, lh[tail]? = some m → s.stored (L.start + tail + 1) = s.stored m) ∧
        (tail = lh.length → ∃ hb, s.stored L.start = setHead hb lh)
  | .install lh tail => s.lh = lh ∧ lh.length < NBUF ∧
      (∀ i m, lh[i]? = some m → s.disk (L.start + i + 1) = s.stored m) ∧
      (∀ n, L.Home n → s.committed n = s.stored n) ∧
      ∀ b, (s.buf b).dirty = true → ∃ i m, tail ≤ i ∧ lh[i]? = some m ∧ (s.buf b).Holds m
  | .erase => s.lh = []
  | .erased => s.lh = []
  | _ => True

/-- **The log.** -/
structure LogInv (L : Area) (s : State P) (g : P → Held) : Prop where
  touched : ∀ p b h, (g p).held b = some h → h.touched = true → (g p).role.MayTouch L h.n
  outstanding : s.outstanding = ∑ p, if (g p).role = .user true then 1 else 0
  committing : ∀ p, (g p).role.Commits → s.committing = true
  sole : ∀ p q, (g p).role.Commits → (g q).role.Commits → p = q
  closed : s.committing = true → ∀ p, (g p).role ≠ .user true
  homes : ∀ n ∈ s.lh, L.Home n
  nodup : s.lh.Nodup
  logged : ∀ b, (s.buf b).dirty = true → ∃ n ∈ s.lh, (s.buf b).Holds n
  pinned : (∀ p lh tail, (g p).role ≠ .install lh tail) →
    ∀ n ∈ s.lh, ∃ b, (s.buf b).dirty = true ∧ (s.buf b).Holds n
  phase : ∀ p, Phase L s (g p)
  copy : ∀ p n v, (g p).copy = some (n, v) → (g p).role.Commits ∧ s.stored n = v

variable {L : Area} {s t : State P} {g : P → Held} {p : P} {x : Held} {b : Bix} {n : ℕ}

/-! ### One process moves -/

omit [Fintype P] in
/-- The process that has moved, and the others. -/
theorem moved_eq (g : P → Held) (p : P) (x : Held) (q : P) :
    (q = p ∧ update g p x q = x) ∨ (q ≠ p ∧ update g p x q = g q) := by
  rcases eq_or_ne q p with rfl | hne
  · exact .inl ⟨rfl, update_self ..⟩
  · exact .inr ⟨hne, update_of_ne hne ..⟩

omit [Fintype P] in
/-- What was stored into stays so, when the process that moves has not recorded it. -/
theorem Touched.moved (hb : Touched g b)
    (hx : ∀ h, (g p).held b = some h → h.touched = true → ∃ h', x.held b = some h' ∧
    h'.touched = true) :
    Touched (update g p x) b := by
  obtain ⟨q, h, hq, ht⟩ := hb
  rcases moved_eq g p x q with ⟨rfl, he⟩ | ⟨-, he⟩
  · obtain ⟨h', hh', ht'⟩ := hx h hq ht
    exact ⟨q, h', by rw [he]; exact hh', ht'⟩
  · exact ⟨q, h, by rw [he]; exact hq, ht⟩

theorem sum_moved {M : Type} [AddCommMonoid M] (f : Held → M) :
    ∑ q, f (update g p x q) + f (g p) = ∑ q, f (g q) + f x := by
  have h := @Table.sum_add_of_eq_off P M _ _ _ (fun q => f (g q))
    (fun q => f (update g p x q)) p fun q hq => by rw [update_of_ne hq]
  simpa only [update_self] using h

/-- The buffers have the same contents, for the same blocks. -/
structure CoreSame (s t : State P) : Prop where
  holds : ∀ b n, (t.buf b).Holds n ↔ (s.buf b).Holds n
  valid : ∀ b, (t.buf b).valid = (s.buf b).valid
  dirty : ∀ b, (t.buf b).dirty = (s.buf b).dirty
  data : ∀ b, (t.buf b).data = (s.buf b).data
  disk : t.disk = s.disk
  stored : t.stored = s.stored

omit [DecidableEq P] [Fintype P] in
theorem CoreSame.setBuf {y : Buf P} (hdev : y.dev = (s.buf b).dev)
    (hno : y.blockno = (s.buf b).blockno) (hv : y.valid = (s.buf b).valid)
    (hd : y.dirty = (s.buf b).dirty) (hdata : y.data = (s.buf b).data) :
    CoreSame s (s.setBuf b y) := by
  have hbuf : ∀ Q : Buf P → Buf P → Prop, Q y (s.buf b) → (∀ z, Q z z) →
      ∀ b', Q ((s.setBuf b y).buf b') (s.buf b') := by
    intro Q hQ hrefl b'
    rcases eq_or_ne b' b with rfl | hne
    · simpa [State.setBuf] using hQ
    · simpa [State.setBuf, update_of_ne hne] using hrefl _
  refine ⟨fun b' n => ?_, hbuf (fun y z => y.valid = z.valid) hv fun _ => rfl,
    hbuf (fun y z => y.dirty = z.dirty) hd fun _ => rfl,
    hbuf (fun y z => y.data = z.data) hdata fun _ => rfl, rfl, rfl⟩
  exact hbuf (fun y z => y.Holds n ↔ z.Holds n) (by simp [Buf.Holds, hdev, hno])
    (fun _ => Iff.rfl) b'

/-- A step of a process that changes references and locks only. -/
theorem Core.quiet (h : Core s g) (hs : CoreSame s t) (listed : ∀ b, b ∈ t.lru)
    (refcnt : ∀ b, (t.buf b).refcnt + (g p).refs b = (s.buf b).refcnt + x.refs b)
    (lock : ∀ b q, (t.buf b).lock = some q ↔ ((update g p x q).held b).isSome = true)
    (held : ∀ b y, x.held b = some y → (s.buf b).Holds y.n ∧
      (y.filled = true → (s.buf b).valid = true) ∧ (y.touched = true → y.filled = true))
    (wait : ∀ b n, x.wait = some (b, n) → (s.buf b).Holds n)
    (touch : ∀ b y, (g p).held b = some y → y.touched = true →
      ∃ y', x.held b = some y' ∧ y'.touched = true) :
    Core t (update g p x) where
  listed := listed
  refcnt b := by
    have hsum := @sum_moved P _ _ g p x ℕ _ fun g => g.refs b
    have := refcnt b
    have := h.refcnt b
    omega
  lock := lock
  held q b y hy := by
    rw [hs.holds, hs.valid]
    rcases moved_eq g p x q with ⟨rfl, he⟩ | ⟨-, he⟩
    · exact held b y (by rw [← he]; exact hy)
    · exact h.held q b y (by rw [← he]; exact hy)
  wait q b n hb := by
    rw [hs.holds]
    rcases moved_eq g p x q with ⟨rfl, he⟩ | ⟨-, he⟩
    · exact wait b n (by rw [← he]; exact hb)
    · exact h.wait q b n (by rw [← he]; exact hb)
  unique b b' n := by
    rw [hs.holds, hs.holds]
    exact h.unique b b' n
  dirty b := by
    rw [hs.dirty, hs.valid]
    exact h.dirty b
  data b n := by
    rw [hs.holds, hs.valid, hs.data, hs.stored]
    exact h.data b n
  disk n := by
    rw [hs.disk, hs.stored]
    intro hne
    obtain ⟨b, hb, hd⟩ := h.disk n hne
    refine ⟨b, (hs.holds b n).mpr hb, hd.imp (fun hd => by rw [hs.dirty, hd]) fun ht => ?_⟩
    exact ht.moved fun y hy ht => touch b y hy ht

/-- The log and the pinned buffers are the same. -/
structure LogSame (s t : State P) : Prop where
  dirty : ∀ b, (t.buf b).dirty = (s.buf b).dirty
  holds : ∀ b n, (s.buf b).dirty = true → ((t.buf b).Holds n ↔ (s.buf b).Holds n)
  disk : t.disk = s.disk
  stored : t.stored = s.stored
  committed : t.committed = s.committed
  lh : t.lh = s.lh
  outstanding : t.outstanding = s.outstanding
  committing : t.committing = s.committing

omit [DecidableEq P] [Fintype P] in
theorem LogSame.phase (hs : LogSame s t) (h : Phase L s x) : Phase L t x := by
  unfold Phase at h ⊢
  cases hrole : x.role with
  | writeLog lh tail =>
    simp only [hrole] at h ⊢
    rw [hs.lh, hs.disk, hs.stored]
    exact h
  | install lh tail =>
    simp only [hrole] at h ⊢
    rw [hs.lh, hs.disk, hs.stored, hs.committed]
    refine ⟨h.1, h.2.1, h.2.2.1, h.2.2.2.1, fun b hb => ?_⟩
    rw [hs.dirty] at hb
    obtain ⟨i, m, hi, hm, hh⟩ := h.2.2.2.2 b hb
    exact ⟨i, m, hi, hm, (hs.holds b m hb).mpr hh⟩
  | erase =>
    simp only [hrole] at h ⊢
    rw [hs.lh, h]
  | erased =>
    simp only [hrole] at h ⊢
    rw [hs.lh, h]
  | user i => trivial
  | begun => trivial

omit [DecidableEq P] [Fintype P] in
/-- What the phase says about the process depends on its role and on what it has stored into. -/
theorem Phase.of_held {y : Held} (h : Phase L s y) (hrole : x.role = y.role)
    (held : ∀ b z, x.held b = some z → z.touched = true →
      ∃ z', y.held b = some z' ∧ z'.touched = true) : Phase L s x := by
  unfold Phase at h ⊢
  rw [hrole]
  cases hr : y.role with
  | writeLog lh tail =>
    simp only [hr] at h ⊢
    obtain ⟨h₁, h₂, h₃, h₄, h₅⟩ := h
    refine ⟨h₁, h₂, h₃, h₄, fun b z hz ht => ?_⟩
    obtain ⟨z', hz', ht'⟩ := held b z hz ht
    exact h₅ b z' hz' ht'
  | install lh tail =>
    simp only [hr] at h ⊢
    exact h
  | erase =>
    simp only [hr] at h ⊢
    exact h
  | erased =>
    simp only [hr] at h ⊢
    exact h
  | user i => trivial
  | begun => trivial

/-- A step of a process that leaves the log alone. -/
theorem LogInv.quiet (h : LogInv L s g) (hs : LogSame s t) (hrole : x.role = (g p).role)
    (hcopy : x.copy = (g p).copy ∨ x.copy = none)
    (held : ∀ b z, x.held b = some z → z.touched = true → (g p).held b = some z) :
    LogInv L t (update g p x) := by
  have hroles : ∀ q, (update g p x q).role = (g q).role := by
    intro q
    rcases moved_eq g p x q with ⟨rfl, he⟩ | ⟨-, he⟩
    · rw [he, hrole]
    · rw [he]
  refine ⟨?_, ?_, ?_, ?_, ?_, ?_, ?_, ?_, ?_, ?_, ?_⟩
  · intro q b z hz ht
    rw [hroles]
    rcases moved_eq g p x q with ⟨rfl, he⟩ | ⟨-, he⟩
    · exact h.touched q b z (held b z (by rw [← he]; exact hz) ht) ht
    · exact h.touched q b z (by rw [← he]; exact hz) ht
  · simp only [hroles]
    rw [hs.outstanding]
    exact h.outstanding
  · intro q
    rw [hroles, hs.committing]
    exact h.committing q
  · intro q r
    rw [hroles, hroles]
    exact h.sole q r
  · intro hc q
    rw [hroles]
    exact h.closed (by rw [← hs.committing]; exact hc) q
  · rw [hs.lh]
    exact h.homes
  · rw [hs.lh]
    exact h.nodup
  · intro b hb
    rw [hs.dirty] at hb
    obtain ⟨n, hn, hh⟩ := h.logged b hb
    exact ⟨n, by rw [hs.lh]; exact hn, (hs.holds b n hb).mpr hh⟩
  · intro hno n hn
    rw [hs.lh] at hn
    simp only [hroles] at hno
    obtain ⟨b, hb, hh⟩ := h.pinned hno n hn
    exact ⟨b, by rw [hs.dirty]; exact hb, (hs.holds b n hb).mpr hh⟩
  · intro q
    rcases moved_eq g p x q with ⟨rfl, he⟩ | ⟨-, he⟩
    · rw [he]
      exact hs.phase ((h.phase q).of_held hrole fun b z hz ht => ⟨z, held b z hz ht, ht⟩)
    · rw [he]
      exact hs.phase (h.phase q)
  · intro q n v hv
    rw [hroles, hs.stored]
    rcases moved_eq g p x q with ⟨rfl, he⟩ | ⟨-, he⟩
    · rw [he] at hv
      rcases hcopy with hcopy | hcopy
      · exact h.copy q n v (by rw [← hcopy]; exact hv)
      · rw [hcopy] at hv
        cases hv
    · exact h.copy q n v (by rw [← he]; exact hv)

/-! ### Buffers are found, locked and released -/

/-- **The invariant.** -/
structure Inv (L : Area) (s : State P) (g : P → Held) : Prop where
  core : Core s g
  log : LogInv L s g

omit [DecidableEq P] [Fintype P] in
theorem CoreSame.logSame (hs : CoreSame s t) (hc : t.committed = s.committed) (hlh : t.lh = s.lh)
    (ho : t.outstanding = s.outstanding) (hcom : t.committing = s.committing) : LogSame s t :=
  ⟨hs.dirty, fun b n _ => hs.holds b n, hs.disk, hs.stored, hc, hlh, ho, hcom⟩

omit [DecidableEq P] [Fintype P] in
theorem buf_setBuf (s : State P) (b b' : Bix) (y : Buf P) :
    (s.setBuf b y).buf b' = if b' = b then y else s.buf b' := by
  simp [State.setBuf, update_apply]

omit [Fintype P] in
theorem held_moved (hx : x.held = (g p).held) (q : P) :
    (update g p x q).held = (g q).held := by
  rcases moved_eq g p x q with ⟨rfl, he⟩ | ⟨-, he⟩
  · rw [he, hx]
  · rw [he]

omit [DecidableEq P] in
/-- A buffer without references is held by nobody. -/
theorem Core.refs_eq_zero (h : Core s g) (hb : (s.buf b).refcnt = 0) (q : P) :
    (g q).refs b = 0 := by
  have hsum := h.refcnt b
  rw [hb] at hsum
  exact Finset.sum_eq_zero_iff.mp hsum.symm q (Finset.mem_univ q)

omit [DecidableEq P] in
theorem Core.held_eq_none (h : Core s g) (hb : (s.buf b).refcnt = 0) (q : P) :
    (g q).held b = none := by
  have hq := h.refs_eq_zero hb q
  cases hheld : (g q).held b with
  | none => rfl
  | some y => simp [Held.refs, hheld] at hq

omit [DecidableEq P] [Fintype P] in
theorem cached_holds (h : s.cached n = some b) : (s.buf b).Holds n := by
  simpa using List.find?_some h

omit [DecidableEq P] [Fintype P] in
theorem recyclable_free (h : s.recyclable = some b) :
    (s.buf b).refcnt = 0 ∧ (s.buf b).dirty = false := by
  simpa using List.find?_some h

/-- **`bget`** finds the block in the cache. -/
theorem Inv.bget_cached (h : Inv L s g) (hw : (g p).wait = none) (hfind : s.cached n = some b) :
    Inv L (s.setBuf b { s.buf b with refcnt := (s.buf b).refcnt + 1 })
      (update g p { g p with wait := some (b, n) }) := by
  have hsame : CoreSame s (s.setBuf b { s.buf b with refcnt := (s.buf b).refcnt + 1 }) :=
    CoreSame.setBuf rfl rfl rfl rfl rfl
  refine ⟨h.core.quiet hsame h.core.listed (fun b' => ?_) (fun b' q => ?_) (fun b' y hy => ?_)
    (fun b' m hb => ?_) fun b' y hy ht => ⟨y, hy, ht⟩,
    h.log.quiet (hsame.logSame rfl rfl rfl rfl) rfl (.inl rfl) fun _ _ hz _ => hz⟩
  · rw [buf_setBuf]
    split_ifs with hb
    · simp [Held.refs, hw, hb]
      omega
    · simp [Held.refs, hw, Ne.symm hb]
  · rw [held_moved (by rfl), buf_setBuf]
    split_ifs with hb
    · rw [hb]
      exact h.core.lock b q
    · exact h.core.lock b' q
  · exact h.core.held p b' y hy
  · cases hb
    exact cached_holds hfind

/-- **`bget`** recycles a buffer: nobody refers to it, and what it held is on the disk. -/
theorem Inv.bget_recycle (h : Inv L s g) (hw : (g p).wait = none) (hfind : s.cached n = none)
    (hfree : s.recyclable = some b) :
    Inv L (s.setBuf b { s.buf b with
        dev := ROOTDEV, blockno := n, valid := false, dirty := false, refcnt := 1 })
      (update g p { g p with wait := some (b, n) }) := by
  obtain ⟨href, hdirty⟩ := recyclable_free hfree
  have hnone := h.core.held_eq_none href
  have hnew : ∀ b', (s.buf b').Holds n → False := by
    intro b' hb'
    have := List.find?_eq_none.mp hfind b' (h.core.listed b')
    simp [hb'] at this
  have hheld : ∀ q, (update g p { g p with wait := some (b, n) } q).held = (g q).held :=
    held_moved rfl
  have hother : ∀ q b' m, (g q).wait = some (b', m) → b' ≠ b := by
    rintro q b' m hq rfl
    have := h.core.refs_eq_zero href q
    simp [Held.refs, hq] at this
  refine ⟨⟨h.core.listed, fun b' => ?_, fun b' q => ?_, fun q b' y hy => ?_, fun q b' m hq => ?_,
    fun b₁ b₂ m h₁ h₂ => ?_, fun b' hb' => ?_, fun b' m hm hv => ?_, fun m hm => ?_⟩,
    h.log.quiet ⟨fun b' => ?_, fun b' m hd => ?_, rfl, rfl, rfl, rfl, rfl, rfl⟩ rfl (.inl rfl)
      fun _ _ hz _ => hz⟩
  · have hsum := @sum_moved P _ _ g p { g p with wait := some (b, n) } ℕ _ fun g => g.refs b'
    have hb := h.core.refcnt b'
    rw [buf_setBuf]
    split_ifs with hbb
    · subst hbb
      have hone : Held.refs { g p with wait := some (b', n) } b' = (g p).refs b' + 1 := by
        simp [Held.refs, hw]
        omega
      show 1 = _
      omega
    · have hsame : Held.refs { g p with wait := some (b, n) } b' = (g p).refs b' := by
        simp [Held.refs, hw, Ne.symm hbb]
      omega
  · rw [hheld, buf_setBuf]
    split_ifs with hbb
    · rw [hbb]
      exact h.core.lock b q
    · exact h.core.lock b' q
  · rw [hheld] at hy
    have hbb : b' ≠ b := by
      rintro rfl
      rw [hnone q] at hy
      cases hy
    rw [buf_setBuf, if_neg hbb]
    exact h.core.held q b' y hy
  · rw [buf_setBuf]
    rcases moved_eq g p { g p with wait := some (b, n) } q with ⟨rfl, he⟩ | ⟨-, he⟩
    · rw [he] at hq
      cases hq
      rw [if_pos rfl]
      exact ⟨rfl, rfl⟩
    · rw [he] at hq
      rw [if_neg (hother q b' m hq)]
      exact h.core.wait q b' m hq
  · rw [buf_setBuf] at h₁ h₂
    split_ifs at h₁ h₂ with e₁ e₂ e₂
    · rw [e₁, e₂]
    · obtain rfl : n = m := h₁.2
      exact (hnew b₂ h₂).elim
    · obtain rfl : n = m := h₂.2
      exact (hnew b₁ h₁).elim
    · exact h.core.unique b₁ b₂ m h₁ h₂
  · rw [buf_setBuf] at hb' ⊢
    split_ifs at hb' ⊢ with hbb
    · exact h.core.dirty b' hb'
  · rw [buf_setBuf] at hm hv ⊢
    split_ifs at hm hv ⊢ with hbb
    · exact h.core.data b' m hm hv
  · -- a block that is not on the disk is in a buffer that is not recycled
    obtain ⟨b', hb', hd⟩ := h.core.disk m hm
    have hbb : b' ≠ b := by
      rintro rfl
      rcases hd with hd | ⟨q, y, hy, -⟩
      · rw [hdirty] at hd
        cases hd
      · rw [hnone q] at hy
        cases hy
    refine ⟨b', by rw [buf_setBuf, if_neg hbb]; exact hb', hd.imp ?_ fun ht => ?_⟩
    · rw [buf_setBuf, if_neg hbb]
      exact id
    · exact ht.moved fun y hy ht => ⟨y, hy, ht⟩
  · rw [buf_setBuf]
    split_ifs with hbb
    · rw [hbb, hdirty]
    · rfl
  · have hbb : b' ≠ b := by
      rintro rfl
      rw [hdirty] at hd
      cases hd
    rw [buf_setBuf, if_neg hbb]

omit [DecidableEq P] in
/-- **Not all buffers are pinned** when a commit has found one for a block that is not logged. -/
theorem Inv.bget_room (h : Inv L s g) {lh : List ℕ} {tail : ℕ}
    (hrole : (g p).role = .writeLog lh tail)
    (hb : (s.buf b).dirty = false) : lh.length < NBUF := by
  have hlh : s.lh = lh := by
    have := h.log.phase p
    simp only [Phase, hrole] at this
    exact this.1
  have hno : ∀ q lh' tail', (g q).role ≠ .install lh' tail' := by
    intro q lh' tail' hq
    obtain rfl := h.log.sole p q (by rw [hrole]; trivial) (by rw [hq]; trivial)
    rw [hrole] at hq
    cases hq
  have hpin := h.log.pinned hno
  rw [hlh] at hpin
  -- each block of the header has a pinned buffer of its own
  choose! f hf using hpin
  have hcard : lh.toFinset.card ≤ (Finset.univ.erase b).card := by
    refine Finset.card_le_card_of_injOn f (fun n hn => ?_) fun n hn m hm he => ?_
    · have hd := (hf n (List.mem_toFinset.mp hn)).1
      refine Finset.mem_coe.mpr (Finset.mem_erase.mpr ⟨?_, Finset.mem_univ _⟩)
      rintro rfl
      rw [hb] at hd
      cases hd
    · have h₁ := (hf n (List.mem_toFinset.mp hn)).2
      have h₂ := (hf m (List.mem_toFinset.mp hm)).2
      rw [← he] at h₂
      exact h₁.2.symm.trans h₂.2
  rw [List.toFinset_card_of_nodup (hlh ▸ h.log.nodup), Finset.card_erase_of_mem (Finset.mem_univ b),
    Finset.card_univ, Fintype.card_fin] at hcard
  have hpos : 0 < NBUF := by decide
  omega

/-- The lock of a buffer is taken. -/
theorem Inv.acquiresleep (h : Inv L s g) (hwait : (g p).wait = some (b, n))
    (hlock : (s.buf b).lock = none) :
    (g p).held b = none ∧ Inv L (s.setBuf b { s.buf b with lock := some p })
      (update g p ⟨(g p).role, update (g p).held b (some ⟨n, false, false⟩), none,
        (g p).leave, (g p).copy⟩) := by
  have hnone : ∀ q, (g q).held b = none := by
    intro q
    have := h.core.lock b q
    rw [hlock] at this
    simpa using this
  have hsame : CoreSame s (s.setBuf b { s.buf b with lock := some p }) :=
    CoreSame.setBuf rfl rfl rfl rfl rfl
  refine ⟨hnone p, h.core.quiet hsame h.core.listed (fun b' => ?_) (fun b' q => ?_)
    (fun b' y hy => ?_) (fun b' m hb => by cases hb) fun b' y hy ht => ⟨y, ?_, ht⟩,
    h.log.quiet (hsame.logSame rfl rfl rfl rfl) rfl (.inl rfl) fun b' z hz ht => ?_⟩
  · rw [buf_setBuf]
    split_ifs with hbb
    · subst hbb
      simp [Held.refs, hwait, hnone p]
    · simp [Held.refs, hwait, update_of_ne hbb, Ne.symm hbb]
  · rw [buf_setBuf]
    rcases eq_or_ne q p with rfl | hq
    · rw [update_self]
      split_ifs with hbb
      · simp [hbb]
      · simp only [update_of_ne hbb]
        exact h.core.lock b' q
    · rw [update_of_ne hq]
      split_ifs with hbb
      · simp [hbb, hnone q, Ne.symm hq]
      · exact h.core.lock b' q
  · rcases eq_or_ne b' b with rfl | hbb
    · simp only [update_self] at hy
      cases hy
      exact ⟨h.core.wait p b' n hwait, by simp, by simp⟩
    · simp only [update_of_ne hbb] at hy
      exact h.core.held p b' y hy
  · have hbb : b' ≠ b := by
      rintro rfl
      rw [hnone p] at hy
      cases hy
    simp only [update_of_ne hbb]
    exact hy
  · rcases eq_or_ne b' b with rfl | hbb
    · simp only [update_self] at hz
      cases hz
      cases ht
    · simpa only [update_of_ne hbb] using hz

theorem Held.refs_set {g : Held} {b b' : Bix} {h h' : Hold} (hb : g.held b = some h) :
    (g.set b (some h')).refs b' = g.refs b' := by
  simp only [refs, set]
  rcases eq_or_ne b' b with rfl | hbb
  · simp [hb]
  · simp [update_of_ne hbb]

omit [Fintype P] in
theorem isSome_held_set {h h' : Hold} (hb : (g p).held b = some h)
    (hx : x.held = ((g p).set b (some h')).held)
    (b' : Bix) (q : P) : ((update g p x q).held b').isSome = ((g q).held b').isSome := by
  rcases moved_eq g p x q with ⟨rfl, he⟩ | ⟨-, he⟩
  · rw [he, hx]
    rcases eq_or_ne b' b with rfl | hbb
    · rw [Held.set_held_self, hb]
      rfl
    · rw [Held.set_held_of_ne _ hbb]
  · rw [he]

omit [DecidableEq P] in
/-- The disk has what was last stored into a block whose buffer is not valid. -/
theorem Core.disk_of_invalid (h : Core s g) (hb : (s.buf b).Holds n)
    (hv : (s.buf b).valid = false) :
    s.disk n = s.stored n := by
  by_contra hne
  obtain ⟨b', hb', hd⟩ := h.disk n hne
  obtain rfl := h.unique b b' n hb hb'
  rcases hd with hd | ⟨q, y, hy, ht⟩
  · rw [h.dirty b hd] at hv
    cases hv
  · obtain ⟨-, hfill, htouch⟩ := h.held q b y hy
    rw [hfill (htouch ht)] at hv
    cases hv

/-- The lock of a buffer is released. -/
theorem Inv.releasesleep {f : Bool} (h : Inv L s g) (hl : (g p).leave = none)
    (hheld : (g p).held b = some ⟨n, f, false⟩) :
    Inv L (s.setBuf b { s.buf b with lock := none })
      (update g p ⟨(g p).role, update (g p).held b none, (g p).wait, some b,
        (g p).copy⟩) := by
  have hlock : (s.buf b).lock = some p := (h.core.lock b p).mpr (by rw [hheld]; rfl)
  have hsame : CoreSame s (s.setBuf b { s.buf b with lock := none }) :=
    CoreSame.setBuf rfl rfl rfl rfl rfl
  have hset : ∀ b' y, update (g p).held b none b' = some y → (g p).held b' = some y := by
    intro b' y hy
    rcases eq_or_ne b' b with rfl | hbb
    · rw [update_self] at hy
      cases hy
    · rwa [update_of_ne hbb] at hy
  refine ⟨h.core.quiet hsame h.core.listed (fun b' => ?_) (fun b' q => ?_)
    (fun b' y hy => h.core.held p b' y (hset b' y hy)) (fun b' m hb => h.core.wait p b' m hb)
    fun b' y hy ht => ⟨y, ?_, ht⟩,
    h.log.quiet (hsame.logSame rfl rfl rfl rfl) rfl (.inl rfl) fun b' z hz _ => hset b' z hz⟩
  · rw [buf_setBuf]
    split_ifs with hbb
    · subst hbb
      simp [Held.refs, hl, hheld]
      omega
    · simp [Held.refs, hl, update_of_ne hbb, Ne.symm hbb]
  · rw [buf_setBuf]
    rcases eq_or_ne q p with rfl | hq
    · rw [update_self]
      split_ifs with hbb
      · simp [hbb]
      · simp only [update_of_ne hbb]
        exact h.core.lock b' q
    · rw [update_of_ne hq]
      split_ifs with hbb
      · rw [hbb, ← h.core.lock b q, hlock]
        simp [Ne.symm hq]
      · exact h.core.lock b' q
  · have hbb : b' ≠ b := by
      rintro rfl
      rw [hheld] at hy
      cases hy
      cases ht
    simp only [update_of_ne hbb]
    exact hy

/-- A reference is dropped. -/
theorem Inv.unref (h : Inv L s g) (hl : (g p).leave = some b) {lru : List Bix}
    (hlru : ∀ b, b ∈ lru) :
    Inv L { s.setBuf b { s.buf b with refcnt := (s.buf b).refcnt - 1 } with lru := lru }
      (update g p { g p with leave := none }) := by
  have hsame : CoreSame s { s.setBuf b { s.buf b with refcnt := (s.buf b).refcnt - 1 } with
      lru := lru } := by
    obtain ⟨h₁, h₂, h₃, h₄, h₅, h₆⟩ := @CoreSame.setBuf P s b
      { s.buf b with refcnt := (s.buf b).refcnt - 1 } rfl rfl rfl rfl rfl
    exact ⟨h₁, h₂, h₃, h₄, h₅, h₆⟩
  have hpos : 0 < (s.buf b).refcnt := by
    rw [h.core.refcnt b]
    refine Finset.sum_pos' (fun _ _ => Nat.zero_le _) ⟨p, Finset.mem_univ p, ?_⟩
    simp [Held.refs, hl]
  refine ⟨h.core.quiet hsame hlru (fun b' => ?_) (fun b' q => ?_)
    (fun b' y hy => h.core.held p b' y hy) (fun b' m hb => h.core.wait p b' m hb)
    fun b' y hy ht => ⟨y, hy, ht⟩,
    h.log.quiet (hsame.logSame rfl rfl rfl rfl) rfl (.inl rfl) fun b' z hz ht => hz⟩
  · rw [buf_setBuf]
    split_ifs with hbb
    · subst hbb
      simp [Held.refs, hl]
      omega
    · simp [Held.refs, hl, Ne.symm hbb]
  · rw [held_moved (by rfl)]
    show ((s.setBuf b _).buf b').lock = _ ↔ _
    rw [buf_setBuf]
    split_ifs with hbb
    · rw [hbb]
      exact h.core.lock b q
    · exact h.core.lock b' q

/-! ### Stores and the log -/

omit [DecidableEq P] [Fintype P] in
theorem not_commits_iff {r : Role} : ¬ r.Commits ↔ ∃ i, r = .user i := by
  cases r <;> simp [Role.Commits]

omit [DecidableEq P] in
/-- While a process commits or is in an operation, no other one commits. -/
theorem LogInv.alone (h : LogInv L s g) (hp : (g p).role.Commits ∨ (g p).role = .user true) (q : P)
    (hq : q ≠ p) : ∃ i, (g q).role = .user i := by
  refine not_commits_iff.mp fun hc => ?_
  rcases hp with hp | hp
  · exact hq (h.sole q p hc hp)
  · exact h.closed (h.committing q hc) p hp

/-- A step of a process that takes part in the log, while no other one commits. -/
theorem LogInv.act (h : LogInv L s g) (halone : ∀ q, q ≠ p → ∃ i, (g q).role = .user i)
    (touched : ∀ b z, x.held b = some z → z.touched = true → x.role.MayTouch L z.n)
    (outstanding : t.outstanding + (if (g p).role = .user true then 1 else 0) =
      s.outstanding + if x.role = .user true then 1 else 0)
    (committing : x.role.Commits → t.committing = true)
    (closed : t.committing = true → x.role ≠ .user true ∧ ∀ q, q ≠ p → (g q).role ≠ .user true)
    (homes : ∀ n ∈ t.lh, L.Home n) (nodup : t.lh.Nodup)
    (logged : ∀ b, (t.buf b).dirty = true → ∃ n ∈ t.lh, (t.buf b).Holds n)
    (pinned : (∀ lh tail, x.role ≠ .install lh tail) →
      ∀ n ∈ t.lh, ∃ b, (t.buf b).dirty = true ∧ (t.buf b).Holds n)
    (phase : Phase L t x)
    (copy : ∀ n v, x.copy = some (n, v) → x.role.Commits ∧ t.stored n = v) :
    LogInv L t (update g p x) := by
  have huser : ∀ q, (update g p x q).role.Commits → q = p := by
    intro q hq
    rcases moved_eq g p x q with ⟨rfl, -⟩ | ⟨hne, he⟩
    · rfl
    · rw [he] at hq
      exact absurd hq (not_commits_iff.mpr (halone q hne))
  refine ⟨?_, ?_, ?_, ?_, ?_, homes, nodup, logged, ?_, ?_, ?_⟩
  · intro q b z hz ht
    rcases moved_eq g p x q with ⟨rfl, he⟩ | ⟨-, he⟩
    · rw [he] at hz ⊢
      exact touched b z hz ht
    · rw [he] at hz ⊢
      exact h.touched q b z hz ht
  · have hsum := @sum_moved P _ _ g p x ℤ _ fun g => if g.role = .user true then 1 else 0
    have hold := h.outstanding
    omega
  · intro q hq
    obtain rfl := huser q hq
    rw [update_self] at hq
    exact committing hq
  · intro q r hq hr
    exact (huser q hq).trans (huser r hr).symm
  · intro hc q
    rcases moved_eq g p x q with ⟨rfl, he⟩ | ⟨hne, he⟩
    · rw [he]
      exact (closed hc).1
    · rw [he]
      exact (closed hc).2 q hne
  · intro hno
    refine pinned fun lh tail => ?_
    have := hno p lh tail
    rwa [update_self] at this
  · intro q
    rcases moved_eq g p x q with ⟨rfl, he⟩ | ⟨hne, he⟩
    · rw [he]
      exact phase
    · obtain ⟨i, hi⟩ := halone q hne
      rw [he]
      simp only [Phase, hi]
  · intro q n v hv
    rcases moved_eq g p x q with ⟨rfl, he⟩ | ⟨hne, he⟩
    · rw [he] at hv ⊢
      exact copy n v hv
    · rw [he] at hv
      exact absurd (h.copy q n v hv).1 (not_commits_iff.mpr (halone q hne))

/-- The log does not matter for the buffers. -/
theorem Core.relog (h : Core s g) (hbuf : t.buf = s.buf) (hlru : t.lru = s.lru)
    (hdisk : t.disk = s.disk) (hstored : t.stored = s.stored) (hheld : x.held = (g p).held)
    (hwait : x.wait = (g p).wait) (hleave : x.leave = (g p).leave) :
    Core t (update g p x) := by
  have hsame : CoreSame s t := by
    refine ⟨?_, ?_, ?_, ?_, hdisk, hstored⟩ <;> simp [hbuf]
  refine h.quiet hsame (by rw [hlru]; exact h.listed) (fun b => ?_) (fun b q => ?_)
    (fun b y hy => ?_)
    (fun b n hb => ?_) fun b y hy ht => ⟨y, by rw [hheld]; exact hy, ht⟩
  · rw [hbuf]
    simp only [Held.refs, hheld, hwait, hleave]
  · rw [hbuf, held_moved hheld]
    exact h.lock b q
  · rw [hheld] at hy
    exact h.held p b y hy
  · rw [hwait] at hb
    exact h.wait p b n hb

omit [DecidableEq P] in
/-- **The blocks of the log are clean** while `install_trans` reads them. -/
theorem Inv.slot_clean (h : Inv L s g) (hsize : NBUF ≤ L.size) {lh : List ℕ} {tail i : ℕ}
    (hrole : (g p).role = .install lh tail) (hi : i < lh.length) :
    s.disk (L.start + i + 1) = s.stored (L.start + i + 1) := by
  have hphase := h.log.phase p
  simp only [Phase, hrole] at hphase
  obtain ⟨hlh, hlen, -⟩ := hphase
  have hhome : ¬ L.Home (L.start + i + 1) := not_home_slot (by omega)
  by_contra hne
  obtain ⟨b, hb, hd⟩ := h.core.disk _ hne
  rcases hd with hd | ⟨q, y, hy, ht⟩
  · obtain ⟨m, hm, hm'⟩ := h.log.logged b hd
    obtain rfl : m = L.start + i + 1 := hm'.2.symm.trans hb.2
    exact hhome (h.log.homes _ hm)
  · have hn : y.n = L.start + i + 1 := (h.core.held q b y hy).1.2.symm.trans hb.2
    have hmay := h.log.touched q b y hy ht
    rw [hn] at hmay
    rcases eq_or_ne q p with rfl | hq
    · rw [hrole] at hmay
      have hmem : L.start + i + 1 ∈ s.lh := by
        rw [hlh]
        exact List.mem_of_getElem? hmay
      exact hhome (h.log.homes _ hmem)
    · obtain ⟨j, hj⟩ := h.log.alone (.inl (by rw [hrole]; trivial)) q hq
      rw [hj] at hmay
      exact hhome hmay.2

omit [DecidableEq P] in
/-- **`install_trans` stores what is there already.** -/
theorem Inv.install_value (h : Inv L s g) (hsize : NBUF ≤ L.size) {lh : List ℕ}
    {tail : ℕ} {v : Block}
    (hrole : (g p).role = .install lh tail) (hmay : (g p).MayStore L n v) : v = s.stored n := by
  simp only [Held.MayStore, hrole] at hmay
  obtain ⟨hget, hcopy⟩ := hmay
  have hphase := h.log.phase p
  simp only [Phase, hrole] at hphase
  have hlt : tail < lh.length := (List.getElem?_eq_some_iff.mp hget).1
  rw [← (h.log.copy p _ v hcopy).2, ← h.slot_clean hsize hrole hlt]
  exact hphase.2.2.1 tail n hget

theorem Held.MayStore.mayTouch {g : Held} {v : Block} (h : g.MayStore L n v) :
    g.role.MayTouch L n := by
  unfold Held.MayStore at h
  cases hrole : g.role with
  | user i =>
    simp only [hrole] at h
    exact h
  | writeLog lh tail =>
    simp only [hrole] at h
    obtain ⟨-, ⟨m, hm, hn, -⟩ | hhead⟩ := h
    · exact .inl ⟨(List.getElem?_eq_some_iff.mp hm).1, hn⟩
    · exact .inr ⟨hhead.1, hhead.2.1, hhead.2.2.1⟩
  | install lh tail =>
    simp only [hrole] at h
    exact h.1
  | erase =>
    simp only [hrole] at h
    exact h
  | begun => simp only [hrole] at h
  | erased => simp only [hrole] at h

/-- A process that may store commits or is in an operation. -/
theorem Held.MayStore.active {g : Held} {v : Block} (h : g.MayStore L n v) :
    g.role.Commits ∨ g.role = .user true := by
  unfold Held.MayStore at h
  cases hrole : g.role with
  | user i =>
    simp only [hrole] at h
    rw [h.1]
    exact .inr rfl
  | _ => exact .inl trivial

/-- One buffer has changed, but holds the same block. -/
structure BufChange (b : Bix) (y : Buf P) (s t : State P) : Prop where
  buf : ∀ b', t.buf b' = if b' = b then y else s.buf b'
  lru : t.lru = s.lru
  dev : y.dev = (s.buf b).dev
  blockno : y.blockno = (s.buf b).blockno
  refcnt : y.refcnt = (s.buf b).refcnt
  lock : y.lock = (s.buf b).lock

namespace BufChange

variable {y : Buf P} (hs : BufChange b y s t)

include hs

omit [DecidableEq P] [Fintype P]

theorem self : t.buf b = y := by
  rw [hs.buf, if_pos rfl]

theorem other {b' : Bix} (hb : b' ≠ b) : t.buf b' = s.buf b' := by
  rw [hs.buf, if_neg hb]

theorem holds (b' : Bix) (m : ℕ) : (t.buf b').Holds m ↔ (s.buf b').Holds m := by
  rcases eq_or_ne b' b with rfl | hb
  · rw [hs.self, Buf.Holds, Buf.Holds, hs.dev, hs.blockno]
  · rw [hs.other hb]

theorem refcnt_eq (b' : Bix) : (t.buf b').refcnt = (s.buf b').refcnt := by
  rcases eq_or_ne b' b with rfl | hb
  · rw [hs.self, hs.refcnt]
  · rw [hs.other hb]

theorem lock_eq (b' : Bix) : (t.buf b').lock = (s.buf b').lock := by
  rcases eq_or_ne b' b with rfl | hb
  · rw [hs.self, hs.lock]
  · rw [hs.other hb]

end BufChange

/-- The holder of a valid buffer changes its contents or its flags. -/
theorem Core.change (h : Core s g) {y : Buf P} {z : Hold} (z' : Hold) (hs : BufChange b y s t)
    (hheld : (g p).held b = some z) (hn : z'.n = z.n) (hf : z'.filled = true)
    (hv : y.valid = true) (hx : x.held = ((g p).set b (some z')).held)
    (hw : x.wait = (g p).wait) (hl : x.leave = (g p).leave)
    (hdata : y.data = t.stored z.n) (hstored : ∀ m, m ≠ z.n → t.stored m = s.stored m)
    (hdisk : ∀ m, m ≠ z.n → t.disk m = s.disk m)
    (hown : t.disk z.n ≠ t.stored z.n → y.dirty = true ∨ z'.touched = true) :
    Core t (update g p x) := by
  obtain ⟨hb, -⟩ := h.held p b z hheld
  have hrefs : ∀ b', x.refs b' = (g p).refs b' := by
    intro b'
    rw [← @Held.refs_set (g p) b b' z z' hheld]
    simp only [Held.refs, hx, hw, hl]
    rfl
  refine ⟨by rw [hs.lru]; exact h.listed, fun b' => ?_, fun b' q => ?_, fun q b' y' hy' => ?_,
    fun q b' m hq => ?_, fun b₁ b₂ m h₁ h₂ => ?_, fun b' hb' => ?_, fun b' m hm hval => ?_,
    fun m hm => ?_⟩
  · have hsum := @sum_moved P _ _ g p x ℕ _ fun g => g.refs b'
    have hold := h.refcnt b'
    have hp := hrefs b'
    rw [hs.refcnt_eq]
    omega
  · rw [hs.lock_eq, isSome_held_set hheld hx]
    exact h.lock b' q
  · rw [hs.holds]
    have hvalid : (s.buf b').valid = true → (t.buf b').valid = true := by
      intro hval
      rcases eq_or_ne b' b with rfl | hbb
      · rw [hs.self, hv]
      · rw [hs.other hbb, hval]
    rcases moved_eq g p x q with ⟨rfl, he⟩ | ⟨-, he⟩
    · rw [he, hx] at hy'
      rcases eq_or_ne b' b with rfl | hbb
      · rw [Held.set_held_self] at hy'
        cases hy'
        exact ⟨by rw [hn]; exact hb, fun _ => by rw [hs.self, hv], fun _ => hf⟩
      · rw [Held.set_held_of_ne _ hbb] at hy'
        obtain ⟨h₁, h₂, h₃⟩ := h.held q b' y' hy'
        exact ⟨h₁, fun hfill => hvalid (h₂ hfill), h₃⟩
    · rw [he] at hy'
      obtain ⟨h₁, h₂, h₃⟩ := h.held q b' y' hy'
      exact ⟨h₁, fun hfill => hvalid (h₂ hfill), h₃⟩
  · rw [hs.holds]
    rcases moved_eq g p x q with ⟨rfl, he⟩ | ⟨-, he⟩
    · rw [he, hw] at hq
      exact h.wait q b' m hq
    · rw [he] at hq
      exact h.wait q b' m hq
  · rw [hs.holds] at h₁ h₂
    exact h.unique b₁ b₂ m h₁ h₂
  · rcases eq_or_ne b' b with rfl | hbb
    · rw [hs.self, hv]
    · rw [hs.other hbb] at hb' ⊢
      exact h.dirty b' hb'
  · rw [hs.holds] at hm
    rcases eq_or_ne b' b with rfl | hbb
    · obtain rfl : z.n = m := hb.2.symm.trans hm.2
      rw [hs.self, hdata]
    · -- another buffer holds another block
      have hmn : m ≠ z.n := by
        rintro rfl
        exact hbb (h.unique b' b _ hm hb)
      rw [hs.other hbb] at hval ⊢
      rw [hstored m hmn]
      exact h.data b' m hm hval
  · rcases eq_or_ne m z.n with rfl | hmn
    · refine ⟨b, (hs.holds b z.n).mpr hb,
        (hown hm).imp (fun hd => by rw [hs.self, hd]) fun ht => ?_⟩
      refine ⟨p, z', ?_, ht⟩
      rw [update_self, hx]
      exact Held.set_held_self _
    · rw [hstored m hmn, hdisk m hmn] at hm
      obtain ⟨b', hb', hd⟩ := h.disk m hm
      have hbb : b' ≠ b := by
        rintro rfl
        exact hmn (hb'.2.symm.trans hb.2)
      refine ⟨b', (hs.holds b' m).mpr hb', hd.imp (fun hd => by rw [hs.other hbb, hd]) fun ht => ?_⟩
      refine ht.moved fun y' hy' ht => ⟨y', ?_, ht⟩
      rw [hx, Held.set_held_of_ne _ hbb]
      exact hy'

/-- **`bread`** has a valid buffer. -/
theorem Inv.fill (h : Inv L s g) {y : Buf P} (hs : BufChange b y s t)
    (hheld : (g p).held b = some ⟨n, false, false⟩) (hv : y.valid = true)
    (hdirty : y.dirty = (s.buf b).dirty) (hdata : y.data = s.stored n) (hdisk : t.disk = s.disk)
    (hstored : t.stored = s.stored) (hcom : t.committed = s.committed) (hlh : t.lh = s.lh)
    (hout : t.outstanding = s.outstanding) (hcommitting : t.committing = s.committing) :
    Inv L t (update g p ((g p).set b (some ⟨n, true, false⟩))) := by
  have hdirty' : ∀ b', (t.buf b').dirty = (s.buf b').dirty := by
    intro b'
    rcases eq_or_ne b' b with rfl | hbb
    · rw [hs.self, hdirty]
    · rw [hs.other hbb]
  refine ⟨h.core.change ⟨n, true, false⟩ hs hheld rfl rfl hv rfl rfl rfl
    (by rw [hstored]; exact hdata)
    (fun m _ => by rw [hstored]) (fun m _ => by rw [hdisk]) fun hne => ?_,
    h.log.quiet ⟨hdirty', fun b' m _ => hs.holds b' m, hdisk, hstored, hcom, hlh, hout, hcommitting⟩
      rfl (.inl rfl) fun b' z hz ht => ?_⟩
  · rw [hdisk, hstored] at hne
    obtain ⟨b', hb', hd⟩ := h.core.disk n hne
    obtain rfl := h.core.unique b' b n hb' (h.core.held p b _ hheld).1
    refine .inl ?_
    rcases hd with hd | ⟨q, y', hy', ht⟩
    · rw [hdirty, hd]
    · -- only the holder can have stored into it, and it has not
      have hq : (s.buf b').lock = some q := (h.core.lock b' q).mpr (by rw [hy']; rfl)
      have hp : (s.buf b').lock = some p := (h.core.lock b' p).mpr (by rw [hheld]; rfl)
      obtain rfl : q = p := Option.some.inj (hq.symm.trans hp)
      rw [hheld] at hy'
      cases hy'
      cases ht
  · rcases eq_or_ne b' b with rfl | hbb
    · rw [Held.set_held_self] at hz
      cases hz
      cases ht
    · rwa [Held.set_held_of_ne _ hbb] at hz

/-- **A store** by an operation or by a commit. -/
theorem Inv.store (h : Inv L s g) (hsize : NBUF ≤ L.size) {y : Buf P} {v : Block} {f : Bool}
    (hs : BufChange b y s t) (hheld : (g p).held b = some ⟨n, true, f⟩)
    (hmay : (g p).MayStore L n v)
    (hv : y.valid = (s.buf b).valid) (hd : y.dirty = (s.buf b).dirty) (hdata : y.data = v)
    (hdisk : t.disk = s.disk) (hstored : t.stored = update s.stored n v)
    (hcom : t.committed = s.committed) (hlh : t.lh = s.lh) (hout : t.outstanding = s.outstanding)
    (hcommitting : t.committing = s.committing) (hrole : x.role = (g p).role)
    (hx : x.held = ((g p).set b (some ⟨n, true, true⟩)).held) (hw : x.wait = (g p).wait)
    (hl : x.leave = (g p).leave) (hcopy : x.copy = none) : Inv L t (update g p x) := by
  have hdirty : ∀ b', (t.buf b').dirty = (s.buf b').dirty := by
    intro b'
    rcases eq_or_ne b' b with rfl | hbb
    · rw [hs.self, hd]
    · rw [hs.other hbb]
  refine ⟨h.core.change ⟨n, true, true⟩ hs hheld rfl rfl ?_ hx hw hl ?_ (fun m hm => ?_)
    (fun m _ => by rw [hdisk]) fun _ => .inr rfl, h.log.act (h.log.alone hmay.active) ?_
      (by rw [hout, hrole])
    (fun hc => ?_) (fun hc => ?_) (by rw [hlh]; exact h.log.homes) (by rw [hlh]; exact h.log.nodup)
    (fun b' hb' => ?_) (fun hno' m hm => ?_) ?_ (by simp [hcopy])⟩
  · rw [hv]
    exact (h.core.held p b _ hheld).2.1 rfl
  · rw [hdata, hstored, update_self]
  · rw [hstored, update_of_ne hm]
  · intro b' z hz ht
    rw [hrole]
    rw [hx] at hz
    rcases eq_or_ne b' b with rfl | hbb
    · rw [Held.set_held_self] at hz
      cases hz
      exact hmay.mayTouch
    · rw [Held.set_held_of_ne _ hbb] at hz
      exact h.log.touched p b' z hz ht
  · rw [hcommitting]
    exact h.log.committing p (by rw [← hrole]; exact hc)
  · rw [hcommitting] at hc
    exact ⟨by rw [hrole]; exact h.log.closed hc p, fun q _ => h.log.closed hc q⟩
  · obtain ⟨m, hm, hh⟩ := h.log.logged b' (by rw [← hdirty]; exact hb')
    exact ⟨m, by rw [hlh]; exact hm, (hs.holds b' m).mpr hh⟩
  · have hnone : ∀ q lh tail, (g q).role ≠ .install lh tail := by
      intro q lh tail hq
      rcases eq_or_ne q p with rfl | hqp
      · exact hno' lh tail (hrole.trans hq)
      · obtain ⟨i, hi⟩ := h.log.alone hmay.active q hqp
        rw [hi] at hq
        cases hq
    obtain ⟨b', hb', hh⟩ := h.log.pinned hnone m (by rw [← hlh]; exact hm)
    exact ⟨b', by rw [hdirty]; exact hb', (hs.holds b' m).mpr hh⟩
  · have hphase := h.log.phase p
    unfold Phase at hphase ⊢
    rw [hrole]
    cases hr : (g p).role with
    | user i => trivial
    | begun => trivial
    | erase =>
      simp only [hr] at hphase ⊢
      rw [hlh, hphase]
    | erased =>
      simp only [hr] at hphase ⊢
      rw [hlh, hphase]
    | install lh tail =>
      -- the stored contents do not change at all
      have hsame : t.stored = s.stored := by
        rw [hstored, h.install_value hsize hr hmay, update_eq_self]
      simp only [hr] at hphase ⊢
      rw [hlh, hdisk, hsame, hcom]
      obtain ⟨h₁, h₂, h₃, h₄, h₅⟩ := hphase
      refine ⟨h₁, h₂, h₃, h₄, fun b' hb' => ?_⟩
      obtain ⟨i, m, hi, hm, hh⟩ := h₅ b' (by rw [← hdirty]; exact hb')
      exact ⟨i, m, hi, hm, (hs.holds b' m).mpr hh⟩
    | writeLog lh tail =>
      have hcopied := h.log.copy p
      unfold Held.MayStore at hmay
      simp only [hr] at hphase hmay ⊢
      obtain ⟨h₁, h₂, h₃, h₄, -⟩ := hphase
      -- the store goes to the log, and what it is compared with is in home blocks
      have hhome : ¬ L.Home n := by
        rcases hmay with ⟨hlen, ⟨m, hm, rfl, -⟩ | ⟨-, -, rfl, -⟩⟩
        · have := (List.getElem?_eq_some_iff.mp hm).1
          exact not_home_slot (by omega)
        · exact not_home_head
      have hkeep : ∀ (i m : ℕ), lh[i]? = some m → t.stored m = s.stored m := by
        intro i m hm
        rw [hstored]
        apply update_of_ne
        rintro rfl
        exact hhome (h.log.homes m (by rw [h₁]; exact List.mem_of_getElem? hm))
      rw [hlh, hdisk]
      refine ⟨h₁, h₂, h₃, fun i m hi hm => ?_,
        fun b' z hz ht => ⟨hmay.1, fun m hm => ?_, fun htail => ?_⟩⟩
      · rw [hkeep i m hm]
        exact h₄ i m hi hm
      · rcases hmay with ⟨-, ⟨m', hm', hn, hc⟩ | ⟨htail, -, -⟩⟩
        · obtain rfl : m' = m := Option.some.inj (hm'.symm.trans hm)
          rw [hkeep tail m' hm, (hcopied m' v hc).2, hstored, hn, update_self]
        · rw [htail, List.getElem?_eq_none_iff.mpr (le_refl _)] at hm
          cases hm
      · rcases hmay with ⟨-, ⟨m', hm', -, -⟩ | ⟨-, -, hn, hb, hval⟩⟩
        · rw [htail, List.getElem?_eq_none_iff.mpr (le_refl _)] at hm'
          cases hm'
        · exact ⟨hb, by rw [hstored, hn, update_self, hval]⟩

/-- A commit stores into one block at a time. -/
theorem Role.MayTouch.unique {r : Role} {m : ℕ} (hc : r.Commits) (hn : r.MayTouch L n)
    (hm : r.MayTouch L m) : n = m := by
  cases r with
  | user i => exact hc.elim
  | writeLog lh tail =>
    rcases hn with ⟨h₁, rfl⟩ | ⟨h₁, -, rfl⟩ <;> rcases hm with ⟨h₂, rfl⟩ | ⟨h₂, -, rfl⟩
    · rfl
    · omega
    · omega
    · rfl
  | install lh tail => exact Option.some.inj (hn.symm.trans hm)
  | erase => exact hn.trans hm.symm
  | begun => exact hn.elim
  | erased => exact hn.elim

theorem Held.advance_commits {g : Held} (hc : g.role.Commits) : g.advance.Commits := by
  unfold Held.advance
  cases hr : g.role with
  | user i =>
    rw [hr] at hc
    exact hc.elim
  | writeLog lh tail =>
    simp only
    split_ifs <;> trivial
  | _ => trivial

theorem Role.Commits.ne_user {r : Role} (hc : r.Commits) {i : Bool} : r ≠ .user i := by
  rintro rfl
  exact hc

omit [DecidableEq P] in
/-- The phase after a `bwrite` of a commit. -/
theorem Inv.phase_bwrite (h : Inv L s g) (hsize : NBUF ≤ L.size) {y : Buf P}
    (hs : BufChange b y s t)
    (hheld : (g p).held b = some ⟨n, true, true⟩) (hc : (g p).role.Commits) (hd : y.dirty = false)
    (hdisk : t.disk = update s.disk n (s.stored n)) (hstored : t.stored = s.stored)
    (hcom : t.committed = if n = L.start ∧ s.lh ≠ [] then s.stored else s.committed)
    (hlh : t.lh = s.lh) (hrole : x.role = (g p).advance)
    (hclean : ∀ b' z, x.held b' = some z → z.touched = true → False) : Phase L t x := by
  have hphase := h.log.phase p
  have hmay := h.log.touched p b _ hheld rfl
  unfold Held.advance at hrole
  unfold Phase at hphase ⊢
  have hdirty : ∀ b', (t.buf b').dirty = true → b' ≠ b ∧ (s.buf b').dirty = true := by
    intro b' hb'
    have hbb : b' ≠ b := by
      rintro rfl
      rw [hs.self, hd] at hb'
      cases hb'
    exact ⟨hbb, by rwa [hs.other hbb] at hb'⟩
  cases hr : (g p).role with
  | user i =>
    rw [hr] at hc
    exact hc.elim
  | begun =>
    rw [hr] at hmay
    exact hmay.elim
  | erased =>
    rw [hr] at hmay
    exact hmay.elim
  | erase =>
    simp only [hr] at hphase hrole
    simp only [hrole]
    rw [hlh, hphase]
  | install lh tail =>
    simp only [hr] at hphase hrole
    simp only [hrole]
    rw [hr] at hmay
    obtain ⟨h₁, h₂, h₃, h₄, h₅⟩ := hphase
    have hhome : L.Home n := h.log.homes n (by rw [h₁]; exact List.mem_of_getElem? hmay)
    have hhead : n ≠ L.start := by
      rintro rfl
      exact not_home_head hhome
    rw [hlh, hstored, hcom, if_neg fun hn => hhead hn.1]
    refine ⟨h₁, h₂, fun i m hm => ?_, h₄, fun b' hb' => ?_⟩
    · -- the blocks of the log stay as they are
      have hslot : L.start + i + 1 ≠ n := by
        rintro rfl
        have := (List.getElem?_eq_some_iff.mp hm).1
        exact not_home_slot (by omega) hhome
      rw [hdisk, update_of_ne hslot]
      exact h₃ i m hm
    · obtain ⟨hbb, hb'⟩ := hdirty b' hb'
      obtain ⟨i, m, hi, hm, hh⟩ := h₅ b' hb'
      refine ⟨i, m, ?_, hm, (hs.holds b' m).mpr hh⟩
      rcases Nat.lt_or_eq_of_le hi with hi | rfl
      · exact hi
      · obtain rfl : m = n := Option.some.inj (hm.symm.trans hmay)
        exact absurd (h.core.unique b' b m hh (h.core.held p b _ hheld).1) hbb
  | writeLog lh tail =>
    simp only [hr] at hphase hrole
    rw [hr] at hmay
    obtain ⟨h₁, h₂, h₃, h₄, h₅⟩ := hphase
    obtain ⟨hlen, hcopied, -⟩ := h₅ b _ hheld rfl
    split_ifs at hrole with htail
    · -- a block of the log is written
      obtain rfl : n = L.start + tail + 1 := by
        rcases hmay with hmay | hmay
        · exact hmay.2
        · omega
      simp only [hrole]
      rw [hlh, hstored]
      refine ⟨h₁, htail, fun _ => hlen, fun i m hi hm => ?_, fun b' z hz ht =>
        (hclean b' z hz ht).elim⟩
      rcases Nat.lt_or_eq_of_le (Nat.lt_succ_iff.mp hi) with hi | rfl
      · rw [hdisk, update_of_ne (by omega)]
        exact h₄ i m hi hm
      · rw [hdisk, update_self]
        exact hcopied m hm
    · -- the header is written
      obtain rfl : tail = lh.length := by omega
      obtain ⟨hne, rfl⟩ : lh ≠ [] ∧ n = L.start := by
        rcases hmay with hmay | hmay
        · omega
        · exact hmay.2
      simp only [hrole]
      rw [hlh, hstored, hcom, if_pos ⟨rfl, by rw [h₁]; exact hne⟩]
      refine ⟨h₁, hlen, fun i m hm => ?_, fun _ _ => rfl, fun b' hb' => ?_⟩
      · rw [hdisk, update_of_ne (by omega)]
        exact h₄ i m (List.getElem?_eq_some_iff.mp hm).1 hm
      · obtain ⟨m, hm, hh⟩ := h.log.logged b' (hdirty b' hb').2
        rw [h₁] at hm
        obtain ⟨i, hi⟩ := List.getElem?_of_mem hm
        exact ⟨i, m, Nat.zero_le i, hi, (hs.holds b' m).mpr hh⟩

/-- **`bwrite`** by a commit. -/
theorem Inv.bwrite (h : Inv L s g) (hsize : NBUF ≤ L.size) {y : Buf P} (hs : BufChange b y s t)
    (hheld : (g p).held b = some ⟨n, true, true⟩) (hc : (g p).role.Commits) (hv : y.valid = true)
    (hd : y.dirty = false) (hdata : y.data = s.stored n)
    (hdisk : t.disk = update s.disk n (s.stored n)) (hstored : t.stored = s.stored)
    (hcom : t.committed = if n = L.start ∧ s.lh ≠ [] then s.stored else s.committed)
    (hlh : t.lh = s.lh) (hout : t.outstanding = s.outstanding)
    (hcommitting : t.committing = s.committing) (hrole : x.role = (g p).advance)
    (hx : x.held = ((g p).set b (some ⟨n, true, false⟩)).held) (hw : x.wait = (g p).wait)
    (hl : x.leave = (g p).leave) (hcopy : x.copy = none) : Inv L t (update g p x) := by
  have hc' : x.role.Commits := by
    rw [hrole]
    exact Held.advance_commits hc
  have hb := (h.core.held p b _ hheld).1
  -- the one block that the commit had stored into is on the disk now
  have hclean : ∀ b' z, x.held b' = some z → z.touched = true → False := by
    intro b' z hz ht
    rw [hx] at hz
    rcases eq_or_ne b' b with rfl | hbb
    · rw [Held.set_held_self] at hz
      cases hz
      cases ht
    · rw [Held.set_held_of_ne _ hbb] at hz
      have hn := Role.MayTouch.unique hc (h.log.touched p b' z hz ht)
        (h.log.touched p b _ hheld rfl)
      have hb' := (h.core.held p b' z hz).1
      rw [hn] at hb'
      exact hbb (h.core.unique b' b _ hb' hb)
  have hdirty : ∀ b', (t.buf b').dirty = true → (s.buf b').dirty = true := by
    intro b' hb'
    have hbb : b' ≠ b := by
      rintro rfl
      rw [hs.self, hd] at hb'
      cases hb'
    rwa [hs.other hbb] at hb'
  refine ⟨h.core.change ⟨n, true, false⟩ hs hheld rfl rfl hv hx hw hl (by rw [hstored]; exact hdata)
    (fun m _ => by rw [hstored]) (fun m hm => by rw [hdisk, update_of_ne hm])
    fun hne => ?_, h.log.act (h.log.alone (.inl hc)) (fun b' z hz ht => (hclean b' z hz ht).elim) ?_
    (fun _ => ?_) (fun _ => ?_) (by rw [hlh]; exact h.log.homes) (by rw [hlh]; exact h.log.nodup)
    (fun b' hb' => ?_) (fun hno m hm => ?_)
    (h.phase_bwrite hsize hs hheld hc hd hdisk hstored hcom hlh hrole hclean) (by simp [hcopy])⟩
  · rw [hdisk, hstored, update_self] at hne
    exact absurd rfl hne
  · rw [hout, if_neg hc.ne_user, if_neg hc'.ne_user]
  · rw [hcommitting]
    exact h.log.committing p hc
  · exact ⟨hc'.ne_user, fun q _ => h.log.closed (h.log.committing p hc) q⟩
  · obtain ⟨m, hm, hh⟩ := h.log.logged b' (hdirty b' hb')
    exact ⟨m, by rw [hlh]; exact hm, (hs.holds b' m).mpr hh⟩
  · -- the block is a home block only when it is installed
    rw [hlh] at hm
    have hnone : ∀ q lh tail, (g q).role ≠ .install lh tail := by
      intro q lh tail hq
      rcases eq_or_ne q p with rfl | hqp
      · refine hno lh (tail + 1) ?_
        rw [hrole]
        simp only [Held.advance, hq]
      · obtain ⟨i, hi⟩ := h.log.alone (.inl hc) q hqp
        rw [hi] at hq
        cases hq
    obtain ⟨b', hb', hh⟩ := h.log.pinned hnone m hm
    have hbb : b' ≠ b := by
      rintro rfl
      obtain rfl : m = n := hh.2.symm.trans hb.2
      have hhome := h.log.homes m hm
      have hmay := h.log.touched p b' _ hheld rfl
      have hphase := h.log.phase p
      cases hr : (g p).role with
      | user i => exact hc.ne_user hr
      | begun =>
        rw [hr] at hmay
        exact hmay
      | erased =>
        rw [hr] at hmay
        exact hmay
      | install lh tail => exact hnone p lh tail hr
      | erase =>
        rw [hr] at hmay
        obtain rfl : m = L.start := hmay
        exact not_home_head hhome
      | writeLog lh tail =>
        rw [hr] at hmay
        simp only [Phase, hr] at hphase
        have hlen := (hphase.2.2.2.2 b' _ hheld rfl).1
        rcases hmay with ⟨hlt, rfl⟩ | ⟨-, -, rfl⟩
        · exact not_home_slot (by omega) hhome
        · exact not_home_head hhome
    exact ⟨b', by rw [hs.other hbb]; exact hb', (hs.holds b' m).mpr hh⟩

end Inv

end Xv6.Bio
