import CS450.Lib.Place
import CS450.Fs.Inode

/-!
# Who owns a block

Every data block in use belongs to one place: a direct slot, a slot of an indirect block, or the
pointer to an indirect block, of one allocated inode. Inodes are seen through a table, which is the
one on the disk except that it may have the in-memory copy of the inode being worked on.

Block allocation adds a place, data writes change none, and what a locked inode does this way leaves
the other inodes and their contents alone. `Frame` says so once, for everything that `bmap` and
`writei` do in several steps.
-/

namespace Xv6.Fs

open Place

/-- The places of an inode: its blocks by their index in the file, held in a direct slot or in a
slot of the indirect block, and the pointer to the indirect block. -/
inductive Ptr
  | block (bn : ℕ)
  | indirect
  deriving DecidableEq, Repr

namespace Dinode

variable (c : Dinode) (data : ℕ → Block)

/-- The block with the index `bn` in the file, or `0`. -/
def block (bn : ℕ) : ℕ :=
  if bn < NDIRECT then c.addrs bn
  else if bn < MAXFILE then
    if c.addrs NDIRECT = 0 then 0 else (data (c.addrs NDIRECT)).word (bn - NDIRECT)
  else 0

def ptr : Ptr → ℕ
  | .block bn => c.block data bn
  | .indirect => c.addrs NDIRECT

end Dinode

/-- The block that a place of an inode holds, for the inodes `ino`; an inode that is not allocated
holds none. -/
def held (ino : ℕ → Dinode) (data : ℕ → Block) (x : ℕ × Ptr) : ℕ :=
  if (ino x.1).type = .free then 0 else (ino x.1).ptr data x.2

/-- The first data block. -/
def Env.dataStart (env : Env) : ℕ := env.size - env.nblocks

def Env.InData (env : Env) (b : ℕ) : Prop := env.dataStart ≤ b ∧ b < env.size

theorem Env.dataStart_pos (env : Env) : 0 < env.dataStart := by
  have := env.nblocks_lt
  unfold dataStart
  omega

/-- Ownership is exact for the inodes `ino`, and the blocks before the data area are in use. -/
structure Owned (env : Env) (ino : ℕ → Dinode) (disk : Image) : Prop where
  exact : Exact (held ino disk.data) {b | disk.bitmap b = true ∧ env.InData b}
  reserved : ∀ b < env.dataStart, disk.bitmap b = true

/-- A block that `balloc` may return. -/
def Fresh (env : Env) (disk : Image) (b : ℕ) : Prop := b < env.size ∧ disk.bitmap b = false

namespace Work

variable (w : Work)

/-- The inode table with the in-memory inode in its place. -/
def view : ℕ → Dinode := Function.update w.disk.dinode w.inum w.ip

def block (bn : ℕ) : ℕ := w.ip.block w.disk.data bn

@[simp] theorem view_inum : w.view w.inum = w.ip := by simp [view]

theorem view_of_ne {j : ℕ} (h : j ≠ w.inum) : w.view j = w.disk.dinode j := by simp [view, h]

/-- The block `b` is allocated and zeroed. -/
def alloc (b : ℕ) : Work := (w.setBit b true).setData b .zero

end Work

section Owned

variable {env : Env} {ino ino' : ℕ → Dinode} {disk disk' : Image} {b : ℕ} {w : Work}

theorem Fresh.ge_dataStart (h : Owned env ino disk) (hb : Fresh env disk b) :
    env.dataStart ≤ b := by
  by_contra hlt
  have := h.reserved b (by omega)
  rw [hb.2] at this
  cases this

theorem Fresh.ne_zero (h : Owned env ino disk) (hb : Fresh env disk b) : b ≠ 0 := by
  have := hb.ge_dataStart h
  have := env.dataStart_pos
  omega

theorem Fresh.notMem (hb : Fresh env disk b) :
    b ∉ {b | disk.bitmap b = true ∧ env.InData b} := by
  rintro ⟨hbit, -⟩
  rw [hb.2] at hbit
  cases hbit

theorem Owned.held_ne (h : Owned env ino disk) (hb : Fresh env disk b) (x : ℕ × Ptr) :
    held ino disk.data x ≠ b :=
  h.exact.ne_of_notMem hb.notMem (hb.ne_zero h) x

variable {x : ℕ × Ptr} {data data' : ℕ → Block} {w' : Work} {i : ℕ}

/-- A place that was empty takes a fresh block. -/
theorem Owned.alloc (h : Owned env ino disk) (hb : Fresh env disk b)
    (hx : held ino disk.data x = 0) (hself : held ino' disk'.data x = b)
    (hother : ∀ y, y ≠ x → held ino' disk'.data y = held ino disk.data y)
    (hbit : disk'.bitmap = Function.update disk.bitmap b true) : Owned env ino' disk' := by
  have hdata : env.InData b := ⟨hb.ge_dataStart h, hb.1⟩
  constructor
  · apply h.exact.insert hx hb.notMem (hb.ne_zero h) hself hother
    intro y
    by_cases hy : y = b
    · subst hy
      simp [hbit, hdata]
    · simp [hbit, hy]
  · intro y hy
    rw [hbit]
    by_cases hyb : y = b
    · rw [hyb, Function.update_self]
    · rw [Function.update_of_ne hyb]
      exact h.reserved y hy

theorem held_of_free (h : (ino x.1).type = .free) :
    held ino data x = 0 := if_pos h

theorem held_of_allocated (h : (ino x.1).type ≠ .free) :
    held ino data x = (ino x.1).ptr data x.2 := if_neg h

theorem Dinode.block_congr {c : Dinode}
    (h : c.addrs NDIRECT ≠ 0 → data' (c.addrs NDIRECT) = data (c.addrs NDIRECT)) (bn : ℕ) :
    c.block data' bn = c.block data bn := by
  unfold Dinode.block
  split_ifs with h₁ h₂ h₃
  · rfl
  · rfl
  · rw [h h₃]
  · rfl

theorem Dinode.ptr_congr {c : Dinode}
    (h : c.addrs NDIRECT ≠ 0 → data' (c.addrs NDIRECT) = data (c.addrs NDIRECT)) (q : Ptr) :
    c.ptr data' q = c.ptr data q := by
  cases q with
  | block bn => exact Dinode.block_congr h bn
  | indirect => rfl

/-- What an inode holds does not depend on blocks other than its indirect block. -/
theorem held_congr (hino : ino' x.1 = ino x.1) (h : held ino data (x.1, .indirect) ≠ 0 →
      data' (held ino data (x.1, .indirect)) = data (held ino data (x.1, .indirect))) :
    held ino' data' x = held ino data x := by
  unfold held
  rw [hino]
  split_ifs with hf
  · rfl
  · apply Dinode.ptr_congr
    intro ha
    have hptr : held ino data (x.1, .indirect) = (ino x.1).addrs NDIRECT :=
      held_of_allocated (x := (x.1, .indirect)) hf
    rw [hptr] at h
    exact h ha

/-! ### What a locked inode leaves alone -/

/-- From `w` to `w'`, blocks may have been added to the inode, and blocks that it holds may have
been written. The inode table on the disk, the rest of the inode and the blocks it had stay, and so
does everything of the other inodes. -/
structure Frame (env : Env) (w w' : Work) : Prop where
  inum_eq : w'.inum = w.inum
  dinode_eq : w'.disk.dinode = w.disk.dinode
  rest_eq : { w'.ip with addrs := w.ip.addrs } = w.ip
  block_eq : ∀ bn, w.block bn ≠ 0 → w'.block bn = w.block bn
  held_eq : ∀ j, j ≠ w.inum → ∀ q, held w'.view w'.disk.data (j, q) = held w.view w.disk.data (j, q)
  data_eq : ∀ j, j ≠ w.inum → ∀ bn, held w.view w.disk.data (j, .block bn) ≠ 0 →
    w'.disk.data (held w.view w.disk.data (j, .block bn)) =
      w.disk.data (held w.view w.disk.data (j, .block bn))
  owned : Owned env w'.view w'.disk

theorem Frame.refl (h : Owned env w.view w.disk) : Frame env w w :=
  ⟨rfl, rfl, rfl, fun _ _ => rfl, fun _ _ _ => rfl, fun _ _ _ _ => rfl, h⟩

theorem Frame.trans {u v : Work} (h : Frame env w u) (h' : Frame env u v) : Frame env w v := by
  have hrest : { v.ip with addrs := w.ip.addrs } = w.ip := by
    rw [← h.rest_eq, ← h'.rest_eq]
  refine ⟨h'.inum_eq.trans h.inum_eq, h'.dinode_eq.trans h.dinode_eq, hrest, ?_, ?_, ?_, h'.owned⟩
  · intro bn hbn
    have hu := h.block_eq bn hbn
    rw [h'.block_eq bn (by rw [hu]; exact hbn), hu]
  · intro j hj q
    rw [h'.held_eq j (by rw [h.inum_eq]; exact hj) q, h.held_eq j hj q]
  · intro j hj bn hbn
    have hu := h.held_eq j hj (.block bn)
    have hju : j ≠ u.inum := by rw [h.inum_eq]; exact hj
    have hv := h'.data_eq j hju bn (by rw [hu]; exact hbn)
    rw [hu] at hv
    rw [hv, h.data_eq j hj bn hbn]

theorem Frame.type_eq (h : Frame env w w') : w'.ip.type = w.ip.type := by
  rw [← h.rest_eq]

theorem Frame.size_eq (h : Frame env w w') : w'.ip.size = w.ip.size := by
  rw [← h.rest_eq]

/-- The data of the blocks that the inode had stays as well. -/
def Keeps (w w' : Work) : Prop :=
  ∀ bn, w.block bn ≠ 0 → w'.disk.data (w.block bn) = w.disk.data (w.block bn)

theorem held_inum {q : Ptr} (hf : w.ip.type ≠ .free) :
    held w.view w.disk.data (w.inum, q) = w.ip.ptr w.disk.data q := by
  rw [held_of_allocated (by rw [Work.view_inum]; exact hf), Work.view_inum]

/-- The place of `ip->addrs[i]`. -/
def Ptr.ofAddr (i : ℕ) : Ptr := if i < NDIRECT then .block i else .indirect

/-- A direct slot or the pointer to the indirect block takes a fresh block. -/
theorem frame_addr (h : Owned env w.view w.disk) (hf : w.ip.type ≠ .free)
    (hi : i ≤ NDIRECT) (hz : w.ip.addrs i = 0) (hb : Fresh env w.disk b) :
    Frame env w ((w.alloc b).setAddr i b) ∧ Keeps w ((w.alloc b).setAddr i b) := by
  have hne := h.held_ne hb
  have hb0 := hb.ne_zero h
  -- No block in use is touched.
  have hdata : ∀ a, a ≠ b → (w.alloc b).disk.data a = w.disk.data a := by
    intro a ha
    simp [Work.alloc, Work.setData, Work.setBit, ha]
  have hzero : (w.alloc b).disk.data b = .zero := by
    simp [Work.alloc, Work.setData, Work.setBit]
  have hother : ∀ j, j ≠ w.inum → ∀ q, held ((w.alloc b).setAddr i b).view
      ((w.alloc b).setAddr i b).disk.data (j, q) = held w.view w.disk.data (j, q) := by
    intro j hj q
    apply held_congr
    · exact (((w.alloc b).setAddr i b).view_of_ne hj).trans (w.view_of_ne hj).symm
    · intro _
      exact hdata _ (hne _)
  -- The other places of the inode itself.
  have hblock : ∀ bn, Ptr.block bn ≠ .ofAddr i →
      ((w.alloc b).setAddr i b).block bn = w.block bn := by
    intro bn hbn
    unfold Work.block Dinode.block
    by_cases hd : bn < NDIRECT
    · have hbi : bn ≠ i := by
        rintro rfl
        exact hbn (by simp [Ptr.ofAddr, hd])
      simp only [hd, if_true]
      simp [Work.setAddr, Work.alloc, Work.setData, Work.setBit, hbi]
    · by_cases hm : bn < MAXFILE
      · simp only [hd, hm, if_true, if_false]
        by_cases hi' : i = NDIRECT
        · -- A new indirect block has no entries.
          subst hi'
          rw [hz, if_pos rfl]
          have haddr : ((w.alloc b).setAddr NDIRECT b).ip.addrs NDIRECT = b := by
            simp [Work.setAddr]
          rw [haddr, if_neg hb0]
          show ((w.alloc b).disk.data b).word _ = 0
          rw [hzero, Block.word_zero]
        · have haddr : ((w.alloc b).setAddr i b).ip.addrs NDIRECT = w.ip.addrs NDIRECT := by
            have : NDIRECT ≠ i := fun h => hi' h.symm
            simp [Work.setAddr, Work.alloc, Work.setData, Work.setBit, this]
          rw [haddr]
          split_ifs with ha
          · rfl
          · have hne' : w.ip.addrs NDIRECT ≠ b := by
              have := hne (w.inum, .indirect)
              rwa [held_inum hf] at this
            show ((w.alloc b).disk.data (w.ip.addrs NDIRECT)).word _ = _
            rw [hdata _ hne']
      · simp only [hd, hm, if_false]
  have hzero' : w.ip.ptr w.disk.data (.ofAddr i) = 0 := by
    unfold Ptr.ofAddr
    split_ifs with hd
    · simp [Dinode.ptr, Dinode.block, hd, hz]
    · have : i = NDIRECT := by omega
      simpa [Dinode.ptr, this] using hz
  refine ⟨⟨rfl, rfl, rfl, ?_, hother, ?_, ?_⟩, ?_⟩
  · intro bn hbn
    apply hblock
    intro heq
    exact hbn (by rw [← heq] at hzero'; exact hzero')
  · intro j _ bn _
    exact hdata _ (hne _)
  · apply h.alloc hb (x := (w.inum, .ofAddr i))
    · rw [held_inum hf, hzero']
    · have htype : ((w.alloc b).setAddr i b).ip.type ≠ .free := hf
      rw [show w.inum = ((w.alloc b).setAddr i b).inum from rfl, held_inum htype]
      unfold Ptr.ofAddr
      split_ifs with hd
      · simp [Dinode.ptr, Dinode.block, hd, Work.setAddr]
      · have : i = NDIRECT := by omega
        simp [Dinode.ptr, Work.setAddr, this]
    · rintro ⟨j, q⟩ hx
      by_cases hj : j = w.inum
      · subst hj
        have htype : ((w.alloc b).setAddr i b).ip.type ≠ .free := hf
        rw [show w.inum = ((w.alloc b).setAddr i b).inum from rfl, held_inum htype,
          show ((w.alloc b).setAddr i b).inum = w.inum from rfl, held_inum hf]
        cases q with
        | block bn => exact hblock bn fun heq => hx (by rw [heq])
        | indirect =>
          have hi' : NDIRECT ≠ i := by
            rintro rfl
            exact hx (by simp [Ptr.ofAddr])
          simp [Dinode.ptr, Work.setAddr, Work.alloc, Work.setData, Work.setBit, hi']
      · exact hother j hj q
    · rfl
  · intro bn hbn
    have := hne (w.inum, .block bn)
    rw [held_inum hf] at this
    exact hdata _ this

/-- A slot of the indirect block takes a fresh block. -/
theorem frame_indirect (h : Owned env w.view w.disk) (hf : w.ip.type ≠ .free) {ind j : ℕ}
    (hind : w.ip.addrs NDIRECT = ind) (hind0 : ind ≠ 0) (hj : j < NINDIRECT)
    (hz : (w.disk.data ind).word j = 0) (hb : Fresh env w.disk b)
    (hw' : w' = (w.alloc b).setData ind (((w.alloc b).disk.data ind).setWord j b)) :
    Frame env w w' ∧ Keeps w w' := by
  have hne := h.held_ne hb
  have hself : held w.view w.disk.data (w.inum, .indirect) = ind := by
    rw [held_inum hf]
    exact hind
  have hbind : b ≠ ind := fun heq => hne (w.inum, .indirect) (hself.trans heq.symm)
  -- Only the new block and the indirect block are touched, and that one is nobody else's.
  have hdata : ∀ a, a ≠ b → a ≠ ind → w'.disk.data a = w.disk.data a := by
    intro a ha ha'
    simp [hw', Work.alloc, Work.setData, Work.setBit, ha, ha']
  have hdata' : ∀ x, x ≠ (w.inum, Ptr.indirect) → held w.view w.disk.data x ≠ 0 →
      w'.disk.data (held w.view w.disk.data x) = w.disk.data (held w.view w.disk.data x) := by
    intro x hx hx0
    apply hdata _ (hne x)
    intro heq
    exact hx (h.exact.inj hx0 (heq.trans hself.symm))
  have hword : w'.disk.data ind = (w.disk.data ind).setWord j b := by
    simp [hw', Work.alloc, Work.setData, Work.setBit, hbind.symm]
  have hip : w'.ip = w.ip := by rw [hw']; rfl
  have hinum : w'.inum = w.inum := by rw [hw']; rfl
  have hview : w'.view = w.view := by rw [hw']; rfl
  have hother : ∀ i, i ≠ w.inum → ∀ q, held w'.view w'.disk.data (i, q) =
      held w.view w.disk.data (i, q) := by
    intro i hi q
    apply held_congr (by rw [hview])
    intro h0
    exact hdata' _ (fun heq => hi (congrArg Prod.fst heq)) h0
  have hblock : ∀ bn, bn ≠ NDIRECT + j → w'.block bn = w.block bn := by
    intro bn hbn
    unfold Work.block Dinode.block
    rw [hip, hind]
    split_ifs with hd hm
    · rfl
    · rw [hword, Block.word_setWord_of_ne (by omega)]
    · rfl
  have hnew : w'.block (NDIRECT + j) = b := by
    unfold Work.block Dinode.block
    rw [hip, hind, if_neg (by omega), if_pos (Nat.add_lt_add_left hj _), if_neg hind0, hword,
      Nat.add_sub_cancel_left]
    exact Block.word_setWord_self (hb.1.trans env.size_lt)
  have hold : w.block (NDIRECT + j) = 0 := by
    unfold Work.block Dinode.block
    rw [hind, if_neg (by omega), if_pos (Nat.add_lt_add_left hj _), if_neg hind0,
      Nat.add_sub_cancel_left]
    exact hz
  have htype : w'.ip.type ≠ .free := by rw [hip]; exact hf
  refine ⟨⟨hinum, by rw [hw']; rfl, by rw [hip], ?_, hother, ?_, ?_⟩, ?_⟩
  · intro bn hbn
    apply hblock
    rintro rfl
    exact hbn hold
  · intro i hi bn h0
    exact hdata' _ (fun heq => hi (congrArg Prod.fst heq)) h0
  · apply h.alloc hb (x := (w.inum, .block (NDIRECT + j)))
    · rw [held_inum hf]
      exact hold
    · rw [← hinum, held_inum htype]
      exact hnew
    · rintro ⟨i, q⟩ hx
      by_cases hi : i = w.inum
      · subst hi
        rw [held_inum hf, ← hinum, held_inum htype]
        cases q with
        | block bn => exact hblock bn fun heq => hx (by rw [heq])
        | indirect => simp [Dinode.ptr, hip]
      · exact hother i hi q
    · rw [hw']
      rfl
  · intro bn hbn
    have hheld : held w.view w.disk.data (w.inum, .block bn) = w.block bn := held_inum hf
    rw [← hheld] at hbn ⊢
    exact hdata' _ (by simp) hbn

/-- A block of the file is written. -/
theorem frame_write (h : Owned env w.view w.disk) (hf : w.ip.type ≠ .free) {bn : ℕ}
    (v : Block) : Frame env w (w.setData (w.block bn) v) := by
  have hheld : held w.view w.disk.data (w.inum, .block bn) = w.block bn := held_inum hf
  -- The block is no other place of any inode.
  have hdata : ∀ x, x ≠ (w.inum, Ptr.block bn) → held w.view w.disk.data x ≠ 0 →
      (w.setData (w.block bn) v).disk.data (held w.view w.disk.data x) =
        w.disk.data (held w.view w.disk.data x) := by
    intro x hx hx0
    have hne : held w.view w.disk.data x ≠ w.block bn := fun heq =>
      hx (h.exact.inj hx0 (heq.trans hheld.symm))
    simp [Work.setData, hne]
  have hall : ∀ x, held (w.setData (w.block bn) v).view (w.setData (w.block bn) v).disk.data x =
      held w.view w.disk.data x := by
    intro x
    apply held_congr rfl
    intro h0
    exact hdata (x.1, .indirect) (by simp) h0
  have hblock : ∀ bn', (w.setData (w.block bn) v).block bn' = w.block bn' := by
    intro bn'
    calc (w.setData (w.block bn) v).block bn'
        = held (w.setData (w.block bn) v).view (w.setData (w.block bn) v).disk.data
            (w.inum, .block bn') :=
          (held_inum (w := w.setData (w.block bn) v) (q := .block bn') hf).symm
      _ = held w.view w.disk.data (w.inum, .block bn') := hall _
      _ = w.block bn' := held_inum hf
  refine ⟨rfl, rfl, rfl, fun bn' _ => hblock bn', fun j _ q => hall (j, q), ?_, ?_, h.reserved⟩
  · intro j hj bn' h0
    exact hdata _ (fun heq => hj (congrArg Prod.fst heq)) h0
  · have heq : held (w.setData (w.block bn) v).view (w.setData (w.block bn) v).disk.data =
        held w.view w.disk.data := funext hall
    rw [heq]
    exact h.exact

/-! ### `bmap` -/

theorem balloc_ok (h : balloc env w = .ok (b, w')) :
    Fresh env w.disk b ∧ w' = w.alloc b := by
  unfold balloc at h
  rw [StateT.get_bind] at h
  cases hfind : (List.range env.size).find? fun b => !w.disk.bitmap b with
  | none =>
    rw [hfind] at h
    cases h
  | some b' =>
    rw [hfind] at h
    have hbit : (!w.disk.bitmap b') = true := by simpa using List.find?_some hfind
    have hmem := List.mem_of_find?_eq_some hfind
    cases h
    exact ⟨⟨List.mem_range.mp hmem, by simpa using hbit⟩, rfl⟩

/-- `balloc` finds a block while there is one. -/
theorem balloc_isOk (hb : Fresh env w.disk b) : ∃ b' w', balloc env w = .ok (b', w') := by
  unfold balloc
  rw [StateT.get_bind]
  cases hfind : (List.range env.size).find? fun b => !w.disk.bitmap b with
  | none =>
    have := List.find?_eq_none.mp hfind b (List.mem_range.mpr hb.1)
    simp [hb.2] at this
  | some b' => exact ⟨b', _, rfl⟩

theorem addrAlloc_ok (h : addrAlloc env i w = .ok (b, w')) :
    w.ip.addrs i ≠ 0 ∧ b = w.ip.addrs i ∧ w' = w ∨
      w.ip.addrs i = 0 ∧ Fresh env w.disk b ∧ w' = (w.alloc b).setAddr i b := by
  unfold addrAlloc at h
  rw [StateT.get_bind] at h
  split_ifs at h with hz
  · right
    obtain ⟨a, t, hb, h⟩ := StateT.bind_eq_ok.mp h
    obtain ⟨hfresh, rfl⟩ := balloc_ok hb
    cases h
    exact ⟨hz, hfresh, rfl⟩
  · left
    cases h
    exact ⟨hz, rfl, rfl⟩

theorem indirectAlloc_ok {ind j : ℕ} (h : indirectAlloc env ind j w = .ok (b, w')) :
    (w.disk.data ind).word j ≠ 0 ∧ b = (w.disk.data ind).word j ∧ w' = w ∨
      (w.disk.data ind).word j = 0 ∧ Fresh env w.disk b ∧
        w' = (w.alloc b).setData ind (((w.alloc b).disk.data ind).setWord j b) := by
  unfold indirectAlloc at h
  rw [StateT.get_bind] at h
  split_ifs at h with hz
  · right
    obtain ⟨a, t, hb, h⟩ := StateT.bind_eq_ok.mp h
    obtain ⟨hfresh, rfl⟩ := balloc_ok hb
    cases h
    exact ⟨hz, hfresh, rfl⟩
  · left
    cases h
    exact ⟨hz, rfl, rfl⟩

theorem Keeps.trans {u v : Work} (hf : Frame env w u) (h : Keeps w u) (h' : Keeps u v) :
    Keeps w v := by
  intro bn hbn
  have hu := hf.block_eq bn hbn
  have := h' bn (by rw [hu]; exact hbn)
  rw [hu] at this
  rw [this, h bn hbn]

/-- The address in `ip->addrs[i]` is there in the end, and the rest stays. -/
theorem addrAlloc_frame (h : Owned env w.view w.disk) (hf : w.ip.type ≠ .free)
    (hi : i ≤ NDIRECT) (ha : addrAlloc env i w = .ok (b, w')) :
    Frame env w w' ∧ Keeps w w' ∧ w'.ip.addrs i = b ∧ b ≠ 0 ∧ (w.ip.addrs i ≠ 0 → w' = w) := by
  rcases addrAlloc_ok ha with ⟨hne, rfl, rfl⟩ | ⟨hz, hb, rfl⟩
  · exact ⟨.refl h, fun _ _ => rfl, rfl, hne, fun _ => rfl⟩
  · obtain ⟨h₁, h₂⟩ := frame_addr h hf hi hz hb
    exact ⟨h₁, h₂, by simp [Work.setAddr], hb.ne_zero h, fun hne => absurd hz hne⟩

/-- **`bmap`.** It returns the block of the index. What the inode had stays as it was, and so does
everything if it had the block already. -/
theorem bmap_frame (h : Owned env w.view w.disk) (hf : w.ip.type ≠ .free) {bn : ℕ}
    (hm : bmap env bn w = .ok (b, w')) :
    Frame env w w' ∧ Keeps w w' ∧ w'.block bn = b ∧ b ≠ 0 ∧ (w.block bn ≠ 0 → w' = w) := by
  unfold bmap at hm
  split_ifs at hm with hd hi
  · obtain ⟨h₁, h₂, h₃, h₄, h₅⟩ := addrAlloc_frame h hf hd.le hm
    have hblock : ∀ v : Work, v.block bn = v.ip.addrs bn := by
      intro v
      simp only [Work.block, Dinode.block, if_pos hd]
    exact ⟨h₁, h₂, (hblock w').trans h₃, h₄, fun hne => h₅ (by rwa [← hblock])⟩
  · obtain ⟨ind, u, ha, hm⟩ := StateT.bind_eq_ok.mp hm
    obtain ⟨h₁, h₂, h₃, h₄, h₅⟩ := addrAlloc_frame h hf le_rfl ha
    have hfu : u.ip.type ≠ .free := by rw [h₁.type_eq]; exact hf
    have hlt : bn < MAXFILE := by
      have : MAXFILE = 140 := rfl
      have : NDIRECT = 12 := rfl
      have : NINDIRECT = 128 := rfl
      omega
    -- Once there is an indirect block, the index is looked up in it.
    have hblock : ∀ v : Work, v.ip.addrs NDIRECT = ind →
        v.block bn = (v.disk.data ind).word (bn - NDIRECT) := by
      intro v hv
      simp only [Work.block, Dinode.block, if_neg hd, if_pos hlt, hv, if_neg h₄]
    have hsame : w.block bn ≠ 0 → u = w := by
      intro hne
      apply h₅
      intro hz
      apply hne
      simp only [Work.block, Dinode.block, if_neg hd, if_pos hlt, hz, if_true]
    rcases indirectAlloc_ok hm with ⟨hne, rfl, rfl⟩ | ⟨hz, hb, hw'⟩
    · exact ⟨h₁, h₂, hblock _ h₃, hne, hsame⟩
    · obtain ⟨h₆, h₇⟩ := frame_indirect h₁.owned hfu h₃ h₄ hi hz hb hw'
      have hb0 := hb.ne_zero h₁.owned
      have hbind : ind ≠ b := by
        have := h₁.owned.held_ne hb (u.inum, .indirect)
        rwa [held_inum hfu, show Dinode.ptr _ _ .indirect = u.ip.addrs NDIRECT from rfl, h₃] at this
      refine ⟨h₁.trans h₆, .trans h₁ h₂ h₇, ?_, hb0, ?_⟩
      · have hip : w'.ip.addrs NDIRECT = ind := by rw [hw']; exact h₃
        rw [hblock w' hip, hw']
        simp only [Work.setData, Function.update_self]
        exact Block.word_setWord_self (hb.1.trans env.size_lt)
      · intro hne
        have hu := hsame hne
        subst hu
        rw [hblock u h₃] at hne
        exact absurd hz hne
  · cases hm

/-! ### Free blocks -/

/-- The number of free blocks. -/
def Image.free (env : Env) (disk : Image) : ℕ :=
  ((Finset.range env.size).filter fun b => disk.bitmap b = false).card

theorem free_alloc (hb : Fresh env w.disk b) :
    (w.alloc b).disk.free env + 1 = w.disk.free env := by
  have hset : (Finset.range env.size).filter (fun x => (w.alloc b).disk.bitmap x = false) =
      ((Finset.range env.size).filter fun x => w.disk.bitmap x = false).erase b := by
    ext x
    rw [Finset.mem_filter, Finset.mem_erase, Finset.mem_filter]
    by_cases hx : x = b
    · subst hx
      simp [Work.alloc, Work.setBit, Work.setData]
    · simp [Work.alloc, Work.setBit, Work.setData, hx]
  unfold Image.free
  rw [hset]
  apply Finset.card_erase_add_one
  exact Finset.mem_filter.mpr ⟨Finset.mem_range.mpr hb.1, hb.2⟩

theorem exists_fresh (h : 0 < w.disk.free env) : ∃ b, Fresh env w.disk b := by
  obtain ⟨b, hb⟩ := Finset.card_pos.mp h
  obtain ⟨hlt, hbit⟩ := Finset.mem_filter.mp hb
  exact ⟨b, Finset.mem_range.mp hlt, hbit⟩

/-- `addrAlloc` succeeds while there are free blocks, and takes one if it has to. -/
theorem addrAlloc_isOk {i : ℕ} (hfree : w.ip.addrs i = 0 → 0 < w.disk.free env) :
    ∃ b w', addrAlloc env i w = .ok (b, w') ∧
      w'.disk.free env + (if w.ip.addrs i = 0 then 1 else 0) = w.disk.free env := by
  unfold addrAlloc
  rw [StateT.get_bind]
  split_ifs with hz
  · obtain ⟨b₀, hb₀⟩ := exists_fresh (hfree hz)
    obtain ⟨b, w', hb⟩ := balloc_isOk hb₀
    obtain ⟨hfresh, rfl⟩ := balloc_ok hb
    exact ⟨b, (w.alloc b).setAddr i b, by rw [StateT.bind_of_ok hb]; rfl, free_alloc hfresh⟩
  · exact ⟨_, w, rfl, rfl⟩

theorem indirectAlloc_isOk {ind j : ℕ}
    (hfree : (w.disk.data ind).word j = 0 → 0 < w.disk.free env) :
    ∃ b w', indirectAlloc env ind j w = .ok (b, w') ∧
      w'.disk.free env + (if (w.disk.data ind).word j = 0 then 1 else 0) = w.disk.free env := by
  unfold indirectAlloc
  rw [StateT.get_bind]
  split_ifs with hz
  · obtain ⟨b₀, hb₀⟩ := exists_fresh (hfree hz)
    obtain ⟨b, w', hb⟩ := balloc_isOk hb₀
    obtain ⟨hfresh, rfl⟩ := balloc_ok hb
    exact ⟨b, (w.alloc b).setData ind (((w.alloc b).disk.data ind).setWord j b),
      by rw [StateT.bind_of_ok hb]; rfl, free_alloc hfresh⟩
  · exact ⟨_, w, rfl, rfl⟩

end Owned

end Xv6.Fs
