import CS450.Fs.Owner

/-!
# Files as byte arrays

The content of an inode is the bytes of its blocks, in the order of their index, up to its size.
`readi` returns a part of it and `writei` replaces a part of it or appends to it, block by block.
-/

namespace Xv6.Fs

open Place

namespace Dinode

variable (c : Dinode) (data : ℕ → Block)

/-- The byte at the offset `x` of the file. -/
def byte (x : ℕ) : UInt8 := data (c.block data (x / BSIZE)) (x % BSIZE)

/-- The content of the file. -/
def content : List UInt8 := (List.range c.size).map (c.byte data)

/-- There are no holes: every index below the size, in blocks, has a block. -/
structure Whole : Prop where
  size_le : c.size ≤ MAXFILE * BSIZE
  block_ne : ∀ bn, bn * BSIZE < c.size → c.block data bn ≠ 0

end Dinode

namespace Work

variable (w : Work)

def byte (x : ℕ) : UInt8 := w.ip.byte w.disk.data x

def content : List UInt8 := w.ip.content w.disk.data

def Whole : Prop := w.ip.Whole w.disk.data

theorem byte_eq (x : ℕ) : w.byte x = w.disk.data (w.block (x / BSIZE)) (x % BSIZE) := rfl

theorem length_content : w.content.length = w.ip.size := by simp [content, Dinode.content]

theorem getElem_content {x : ℕ} (hx : x < w.content.length) : w.content[x] = w.byte x := by
  simp [content, Dinode.content, byte]

end Work

section Read

variable {env : Env} {w : Work}

/-- `bmap` of a block that is there. -/
theorem bmap_of_ne_zero {bn : ℕ} (h : w.block bn ≠ 0) : bmap env bn w = .ok (w.block bn, w) := by
  unfold bmap
  simp only [Work.block, Dinode.block] at h ⊢
  by_cases hd : bn < NDIRECT
  · simp only [if_pos hd] at h ⊢
    unfold addrAlloc
    rw [StateT.get_bind, if_neg h]
    rfl
  · simp only [if_neg hd] at h ⊢
    by_cases hm : bn < MAXFILE
    · rw [if_pos hm] at h ⊢
      have hi : bn - NDIRECT < NINDIRECT := by
        have : MAXFILE = NDIRECT + NINDIRECT := rfl
        omega
      by_cases ha : w.ip.addrs NDIRECT = 0
      · simp [ha] at h
      · rw [if_neg ha] at h ⊢
        have haddr : addrAlloc env NDIRECT w = .ok (w.ip.addrs NDIRECT, w) := by
          unfold addrAlloc
          rw [StateT.get_bind, if_neg ha]
          rfl
        rw [if_pos hi, StateT.bind_of_ok haddr]
        unfold indirectAlloc
        rw [StateT.get_bind, if_neg h]
        rfl
    · simp [hm] at h

/-- The first round of a loop over bytes stays in one block. -/
theorem div_mod_of_lt (off i : ℕ) (hi : i < BSIZE - off % BSIZE) :
    (off + i) / BSIZE = off / BSIZE ∧ (off + i) % BSIZE = off % BSIZE + i := by
  have hi : i < 512 - off % 512 := hi
  show (off + i) / 512 = off / 512 ∧ (off + i) % 512 = off % 512 + i
  omega

/-- The loop of `readi` over blocks that are all there. -/
theorem readLoop_eq {rounds off n : ℕ} (hn : n ≤ rounds)
    (hb : ∀ i < n, w.block ((off + i) / BSIZE) ≠ 0) :
    readLoop env rounds off n w = .ok ((List.range n).map fun i => w.byte (off + i), w) := by
  induction rounds generalizing off n with
  | zero =>
    obtain rfl : n = 0 := by omega
    rfl
  | succ rounds ih =>
    rw [readLoop]
    by_cases h0 : n = 0
    · subst h0
      rfl
    · rw [if_neg h0]
      have hpos : 0 < BSIZE - off % BSIZE := Nat.sub_pos_of_lt (Nat.mod_lt _ (by decide))
      set m := min n (BSIZE - off % BSIZE) with hm
      have hb0 := hb 0 (by omega)
      rw [Nat.add_zero] at hb0
      rw [StateT.bind_of_ok (bmap_of_ne_zero hb0), StateT.get_bind]
      have hrest := @ih (off + m) (n - m) (by omega) (by
        intro i hi
        have := hb (m + i) (by omega)
        rwa [← Nat.add_assoc] at this)
      rw [StateT.bind_of_ok hrest]
      -- The bytes of this round and those of the rest.
      have hsplit : List.range n = List.range m ++ (List.range (n - m)).map (m + ·) := by
        rw [← List.range_add]
        congr 1
        omega
      have hfirst : (List.range m).map (fun i => w.disk.data (w.block (off / BSIZE))
          (off % BSIZE + i)) = (List.range m).map fun i => w.byte (off + i) := by
        apply List.map_congr_left
        intro i hi
        obtain ⟨hd, hmod⟩ := div_mod_of_lt off i
          (by have := List.mem_range.mp hi; omega)
        rw [Work.byte_eq, hd, hmod]
      rw [hsplit, List.map_append, List.map_map, hfirst]
      simp [Function.comp_def, Nat.add_assoc]
      rfl

/-- **`readi`.** It fails exactly for an offset after the end and where the end of the range does
not fit into 32 bits. Otherwise it returns the bytes of the range, up to the end of the file. It
never changes the inode or the disk. -/
theorem readi_eq (hw : w.Whole) (hd : w.ip.type ≠ .dev) {off n : ℕ} (hoff : off < 2 ^ 32)
    (hn : n < 2 ^ 32) :
    readi env off n w = .ok (if w.ip.size < off ∨ 2 ^ 32 ≤ off + n then none
      else some ((w.content.drop off).take n), w) := by
  unfold readi
  rw [StateT.get_bind, if_neg hd]
  have hover : (off + n) % 2 ^ 32 < off ↔ 2 ^ 32 ≤ off + n := by omega
  by_cases hbad : w.ip.size < off ∨ 2 ^ 32 ≤ off + n
  · rw [if_pos (by rwa [hover]), if_pos hbad]
    rfl
  · rw [if_neg (by rwa [hover]), if_neg hbad]
    set m := if w.ip.size < off + n then w.ip.size - off else n with hm
    have hend : off + m ≤ w.ip.size := by
      rw [hm]
      split_ifs <;> omega
    have hread := @readLoop_eq env w m off m le_rfl (by
      intro i hi
      apply hw.block_ne
      have : (off + i) / 512 * 512 ≤ off + i := Nat.div_mul_le_self _ _
      exact lt_of_le_of_lt this (by omega))
    rw [StateT.bind_of_ok hread]
    have hbytes : (List.range m).map (fun i => w.byte (off + i)) = (w.content.drop off).take n := by
      apply List.ext_getElem
      · rw [List.length_map, List.length_range, List.length_take, List.length_drop,
          Work.length_content, hm]
        split_ifs <;> omega
      · intro i hi hi'
        rw [List.getElem_map, List.getElem_range, List.getElem_take, List.getElem_drop,
          Work.getElem_content]
    rw [hbytes]
    rfl

end Read

/-! ### Writing -/

section Write

variable {env : Env} {w w' : Work} {b : ℕ}

theorem Frame.byte_eq (hfr : Frame env w w') (hk : Keeps w w') {x : ℕ}
    (hx : w.block (x / BSIZE) ≠ 0) : w'.byte x = w.byte x := by
  rw [Work.byte_eq, Work.byte_eq, hfr.block_eq _ hx, hk _ hx]

/-- A write into a block of the file changes the bytes of that block. -/
theorem byte_setData (h : Owned env w.view w.disk) (hf : w.ip.type ≠ .free) {bn : ℕ} (v : Block)
    {x : ℕ} (hx : w.block (x / BSIZE) ≠ 0) :
    (w.setData (w.block bn) v).byte x = if x / BSIZE = bn then v (x % BSIZE) else w.byte x := by
  rw [Work.byte_eq, (frame_write h hf v).block_eq _ hx]
  split_ifs with heq
  · rw [heq]
    simp [Work.setData]
  · have hne : w.block (x / BSIZE) ≠ w.block bn := by
      intro hblock
      have hinj := h.exact.inj (p := (w.inum, .block (x / BSIZE))) (q := (w.inum, .block bn))
        (by rw [held_inum hf]; exact hx) (by rw [held_inum hf, held_inum hf]; exact hblock)
      exact heq (by simpa using hinj)
    simp [Work.setData, hne, Work.byte_eq]

variable {off n : ℕ} {src : List UInt8}

/-- What one round of `writei` does: the bytes of the round are in place, and the bytes of other
blocks that were there are as before. -/
theorem write_round (h : Owned env w.view w.disk) (hf : w.ip.type ≠ .free) {m : ℕ} {u : Work}
    (hm : m ≤ BSIZE - off % BSIZE) (hlen : src.length = m)
    (hb : bmap env (off / BSIZE) w = .ok (b, u)) :
    let v := u.setData b ((u.disk.data b).write (off % BSIZE) src)
    Frame env w v ∧ v.block (off / BSIZE) ≠ 0 ∧
      (∀ i (hi : i < m), v.byte (off + i) = src[i]) ∧
      (∀ x, ¬ (off ≤ x ∧ x < off + m) → w.block (x / BSIZE) ≠ 0 → v.byte x = w.byte x) ∧
      (w.block (off / BSIZE) ≠ 0 → v.ip = w.ip) := by
  intro v
  obtain ⟨hfr, hk, hblock, hb0, hsame⟩ := bmap_frame h hf hb
  have hfu : u.ip.type ≠ .free := by rw [hfr.type_eq]; exact hf
  have hv : v = u.setData (u.block (off / BSIZE)) ((u.disk.data b).write (off % BSIZE) src) := by
    rw [hblock]
  have hfv : Frame env u v := by
    rw [hv]
    exact frame_write hfr.owned hfu _
  have hu0 : u.block (off / BSIZE) ≠ 0 := by rw [hblock]; exact hb0
  have hbyte : ∀ x, u.block (x / BSIZE) ≠ 0 → v.byte x = if x / BSIZE = off / BSIZE then
      (u.disk.data b).write (off % BSIZE) src (x % BSIZE) else u.byte x := by
    intro x hx
    rw [hv]
    exact byte_setData hfr.owned hfu _ hx
  refine ⟨hfr.trans hfv, by rw [hfv.block_eq _ hu0]; exact hu0, ?_, ?_, ?_⟩
  · intro i hi
    obtain ⟨hd, hmod⟩ := div_mod_of_lt off i (by omega)
    rw [hbyte (off + i) (by rw [hd]; exact hu0), if_pos hd, hmod]
    simp [Block.write, hlen, hi]
  · intro x hx hx0
    have hux : u.block (x / BSIZE) = w.block (x / BSIZE) := hfr.block_eq _ hx0
    rw [hbyte x (by rw [hux]; exact hx0)]
    split_ifs with heq
    · -- In the block of the round, but not in its range.
      have hold : u.byte x = w.byte x := hfr.byte_eq hk hx0
      rw [← hold, Work.byte_eq, heq, hblock]
      unfold Block.write
      rw [if_neg]
      rw [hlen]
      intro ⟨h₁, h₂⟩
      have h₁ : off % 512 ≤ x % 512 := h₁
      have h₂ : x % 512 < off % 512 + m := h₂
      have heq : x / 512 = off / 512 := heq
      omega
    · exact hfr.byte_eq hk hx0
  · intro hne
    rw [hv, hsame hne]
    rfl

/-- **The loop of `writei`.** The bytes written are in place, all other bytes that were there are as
before, and where no block had to be added the inode is the same. -/
theorem writeLoop_spec {rounds r : ℕ} (hlen : src.length ≤ rounds)
    (h : Owned env w.view w.disk) (hf : w.ip.type ≠ .free)
    (hw : writeLoop env rounds off src w = .ok (r, w')) :
    r = off + src.length ∧ Frame env w w' ∧
      (∀ i (hi : i < src.length), w'.block ((off + i) / BSIZE) ≠ 0 ∧ w'.byte (off + i) = src[i]) ∧
      (∀ x, ¬ (off ≤ x ∧ x < off + src.length) → w.block (x / BSIZE) ≠ 0 → w'.byte x = w.byte x) ∧
      ((∀ i < src.length, w.block ((off + i) / BSIZE) ≠ 0) → w'.ip = w.ip) := by
  induction rounds generalizing off src w with
  | zero =>
    obtain rfl : src = [] := List.length_eq_zero_iff.mp (by omega)
    cases hw
    exact ⟨rfl, .refl h, by simp, fun _ _ _ => rfl, fun _ => rfl⟩
  | succ rounds ih =>
    rw [writeLoop] at hw
    by_cases h0 : src = []
    · subst h0
      cases hw
      exact ⟨rfl, .refl h, by simp, fun _ _ _ => rfl, fun _ => rfl⟩
    · rw [if_neg h0] at hw
      obtain ⟨b, u, hb, hw⟩ := StateT.bind_eq_ok.mp hw
      rw [StateT.modify_bind] at hw
      set m := min src.length (BSIZE - off % BSIZE) with hm
      have hpos : 0 < m := by
        have : 0 < src.length := List.length_pos_of_ne_nil h0
        have : 0 < BSIZE - off % BSIZE := Nat.sub_pos_of_lt (Nat.mod_lt _ (by decide))
        omega
      have htake : (src.take m).length = m := by
        rw [List.length_take]
        omega
      obtain ⟨hfr, hv0, hbytes, hkeep, hip⟩ := write_round (m := m) h hf (by omega) htake hb
      generalize u.setData b ((u.disk.data b).write (off % BSIZE) (src.take m)) = v at *
      have hfv : v.ip.type ≠ .free := by rw [hfr.type_eq]; exact hf
      obtain ⟨hr, hfr', hbytes', hkeep', hip'⟩ := @ih v (off + m) (src.drop m)
        (by rw [List.length_drop]; omega) hfr.owned hfv hw
      rw [List.length_drop] at hr hkeep' hip'
      refine ⟨by omega, hfr.trans hfr', ?_, ?_, ?_⟩
      · intro i hi
        by_cases him : i < m
        · -- Written in this round, and not touched by the later ones.
          obtain ⟨hd, -⟩ := div_mod_of_lt off i (by omega)
          constructor
          · rw [hd, hfr'.block_eq _ hv0]
            exact hv0
          · rw [hkeep' (off + i) (by omega) (by rw [hd]; exact hv0), hbytes i him]
            exact List.getElem_take
        · have := hbytes' (i - m) (by rw [List.length_drop]; omega)
          rw [show off + m + (i - m) = off + i by omega] at this
          refine ⟨this.1, this.2.trans ?_⟩
          rw [List.getElem_drop]
          congr 1
          omega
      · intro x hx hx0
        have hv : v.block (x / BSIZE) ≠ 0 := by rw [hfr.block_eq _ hx0]; exact hx0
        rw [hkeep' x (by omega) hv, hkeep x (by omega) hx0]
      · intro hall
        have h0' := hall 0 (by omega)
        rw [← hip h0']
        apply hip'
        intro i hi
        have hx0 := hall (m + i) (by omega)
        rw [← Nat.add_assoc] at hx0
        rw [hfr.block_eq _ hx0]
        exact hx0

/-! ### The other inodes -/

/-- From `w` to `w'`, the other inodes are as they were: on the disk, in the blocks they hold, and
in the data of these blocks. -/
structure Apart (w w' : Work) : Prop where
  inum_eq : w'.inum = w.inum
  dinode_eq : ∀ j, j ≠ w.inum → w'.disk.dinode j = w.disk.dinode j
  held_eq : ∀ j, j ≠ w.inum → ∀ q,
    held w'.disk.dinode w'.disk.data (j, q) = held w.disk.dinode w.disk.data (j, q)
  data_eq : ∀ j, j ≠ w.inum → ∀ bn, held w.disk.dinode w.disk.data (j, .block bn) ≠ 0 →
    w'.disk.data (held w.disk.dinode w.disk.data (j, .block bn)) =
      w.disk.data (held w.disk.dinode w.disk.data (j, .block bn))

theorem held_view {j : ℕ} (hj : j ≠ w.inum) (q : Ptr) :
    held w.view w.disk.data (j, q) = held w.disk.dinode w.disk.data (j, q) :=
  held_congr (w.view_of_ne hj) fun _ => rfl

theorem Frame.apart (h : Frame env w w') : Apart w w' := by
  refine ⟨h.inum_eq, fun j _ => by rw [h.dinode_eq], ?_, ?_⟩
  · intro j hj q
    rw [← held_view hj, ← held_view (w := w') (by rw [h.inum_eq]; exact hj), h.held_eq j hj q]
  · intro j hj bn
    rw [← held_view hj]
    exact h.data_eq j hj bn

theorem Apart.refl (w : Work) : Apart w w :=
  ⟨rfl, fun _ _ => rfl, fun _ _ _ => rfl, fun _ _ _ _ => rfl⟩

theorem Apart.trans {u v : Work} (h : Apart w u) (h' : Apart u v) : Apart w v := by
  have hne : ∀ j, j ≠ w.inum → j ≠ u.inum := fun j hj => by rw [h.inum_eq]; exact hj
  refine ⟨h'.inum_eq.trans h.inum_eq, fun j hj => ?_, fun j hj q => ?_, fun j hj bn hbn => ?_⟩
  · rw [h'.dinode_eq j (hne j hj), h.dinode_eq j hj]
  · rw [h'.held_eq j (hne j hj), h.held_eq j hj]
  · have hu := h.held_eq j hj (.block bn)
    have hv := h'.data_eq j (hne j hj) bn (by rw [hu]; exact hbn)
    rw [hu] at hv
    rw [hv, h.data_eq j hj bn hbn]

/-- A change of the inode itself, in memory and on the disk. -/
theorem apart_of_dinode (hinum : w'.inum = w.inum) (hdata : w'.disk.data = w.disk.data)
    (hino : ∀ j, j ≠ w.inum → w'.disk.dinode j = w.disk.dinode j) : Apart w w' := by
  refine ⟨hinum, hino, fun j hj q => ?_, fun j hj bn _ => by rw [hdata]⟩
  exact held_congr (hino j hj) fun _ => by rw [hdata]

/-- The blocks, the size and the content of the other inodes are as before. -/
theorem Apart.content_eq (h : Apart w w') {j : ℕ} (hj : j ≠ w.inum)
    (hf : (w.disk.dinode j).type ≠ .free) (hw : (w.disk.dinode j).Whole w.disk.data) :
    (w'.disk.dinode j).content w'.disk.data = (w.disk.dinode j).content w.disk.data := by
  rw [h.dinode_eq j hj]
  apply List.map_congr_left
  intro x hx
  have hblock : ∀ bn, (w.disk.dinode j).block w'.disk.data bn =
      (w.disk.dinode j).block w.disk.data bn := by
    intro bn
    have := h.held_eq j hj (.block bn)
    rwa [held_of_allocated (by rw [h.dinode_eq j hj]; exact hf), held_of_allocated hf,
      h.dinode_eq j hj] at this
  have hx0 : (w.disk.dinode j).block w.disk.data (x / BSIZE) ≠ 0 := by
    apply hw.block_ne
    exact lt_of_le_of_lt (Nat.div_mul_le_self _ _) (List.mem_range.mp hx)
  have hdata := h.data_eq j hj (x / BSIZE) (by rw [held_of_allocated hf]; exact hx0)
  rw [held_of_allocated hf] at hdata
  unfold Dinode.byte
  rw [hblock]
  exact congrFun hdata _

/-! ### `writei` -/

/-- The in-memory inode and the one on the disk are the same. -/
def Work.Sync (w : Work) : Prop := w.disk.dinode w.inum = w.ip

theorem Owned.of_held {ino ino' : ℕ → Dinode} {disk disk' : Image} (h : Owned env ino disk)
    (hheld : ∀ x, held ino' disk'.data x = held ino disk.data x)
    (hbit : disk'.bitmap = disk.bitmap) : Owned env ino' disk' := by
  constructor
  · rw [funext hheld, hbit]
    exact h.exact
  · rw [hbit]
    exact h.reserved

/-- What an inode holds depends on its type and its addresses only. -/
theorem held_of_addrs {ino ino' : ℕ → Dinode} {data : ℕ → Block} {x : ℕ × Ptr}
    (htype : (ino' x.1).type = (ino x.1).type) (haddrs : (ino' x.1).addrs = (ino x.1).addrs) :
    held ino' data x = held ino data x := by
  unfold held
  rw [htype]
  split_ifs
  · rfl
  · cases x.2 <;> simp [Dinode.ptr, Dinode.block, haddrs]

/-- The inode becomes `c`, in memory and by `iupdate` on the disk. -/
def Work.put (c : Dinode) (w : Work) : Work :=
  { w with ip := c, disk := { w.disk with dinode := Function.update w.disk.dinode w.inum c } }

theorem apart_put (w : Work) (c : Dinode) : Apart w (w.put c) := by
  have hinum : (w.put c).inum = w.inum := rfl
  have hdata : (w.put c).disk.data = w.disk.data := rfl
  apply apart_of_dinode hinum hdata
  intro j hj
  simp [Work.put, hj]

theorem view_put (w : Work) (c : Dinode) : (w.put c).view = Function.update w.view w.inum c := by
  simp [Work.view, Work.put]

theorem sync_put (w : Work) (c : Dinode) : (w.put c).Sync := by simp [Work.Sync, Work.put]

/-- An update that keeps the type and the addresses keeps the ownership. -/
theorem owned_put (h : Owned env w.view w.disk) {c : Dinode} (htype : c.type = w.ip.type)
    (haddrs : c.addrs = w.ip.addrs) : Owned env (w.put c).view (w.put c).disk := by
  have hbit : (w.put c).disk.bitmap = w.disk.bitmap := rfl
  refine h.of_held (fun x => ?_) hbit
  rw [view_put]
  by_cases hx : x.1 = w.inum
  · apply held_of_addrs
    · rw [hx, Function.update_self, w.view_inum, htype]
    · rw [hx, Function.update_self, w.view_inum, haddrs]
  · exact held_congr (Function.update_of_ne hx _ _) fun _ => rfl

/-- **The effect of `writei`** on the content, and that nothing else is affected. -/
structure Written (env : Env) (off : ℕ) (src : List UInt8) (w w' : Work) : Prop where
  apart : Apart w w'
  owned : Owned env w'.view w'.disk
  whole : w'.Whole
  rest_eq : { w'.ip with addrs := w.ip.addrs, size := w.ip.size } = w.ip
  size_eq : w'.ip.size = max w.ip.size (off + src.length)
  content_eq : w'.content = w.content.take off ++ src ++ w.content.drop (off + src.length)
  sync : w.Sync → w'.Sync

/-- The content after a write, from what its bytes are. -/
theorem content_of_bytes (hoff : off ≤ w.ip.size)
    (hsize : w'.ip.size = max w.ip.size (off + src.length))
    (hin : ∀ i (hi : i < src.length), w'.byte (off + i) = src[i])
    (hout : ∀ x, ¬ (off ≤ x ∧ x < off + src.length) → x < w.ip.size → w'.byte x = w.byte x) :
    w'.content = w.content.take off ++ src ++ w.content.drop (off + src.length) := by
  have hlen := w.length_content
  have htake : (w.content.take off).length = off := by
    rw [List.length_take]
    omega
  apply List.ext_getElem
  · rw [List.length_append, List.length_append, List.length_drop, htake, w'.length_content]
    omega
  · intro x hx hx'
    rw [Work.getElem_content]
    rw [w'.length_content] at hx
    by_cases h₁ : x < off
    · rw [List.getElem_append_left (by rw [List.length_append]; omega),
        List.getElem_append_left (by omega), List.getElem_take, Work.getElem_content]
      exact hout x (by omega) (by omega)
    · by_cases h₂ : x < off + src.length
      · rw [List.getElem_append_left (by rw [List.length_append]; omega),
          List.getElem_append_right (by omega)]
        have := hin (x - off) (by omega)
        rw [Nat.add_sub_cancel' (by omega)] at this
        simpa only [htake] using this
      · rw [List.getElem_append_right (by rw [List.length_append]; omega), List.getElem_drop,
          Work.getElem_content]
        rw [List.length_append, htake,
          Nat.add_sub_cancel' (Nat.le_of_not_lt h₂ : off + src.length ≤ x)]
        exact hout x (by omega) (by omega)

/-- Where the write cannot be done, nothing happens. -/
theorem writei_of_not (hd : w.ip.type ≠ .dev)
    (hbad : ¬ (off ≤ w.ip.size ∧ off + src.length ≤ MAXFILE * BSIZE)) :
    writei env src off w = .ok (none, w) := by
  unfold writei
  rw [StateT.get_bind, if_neg hd]
  split_ifs
  · rfl
  · rfl
  · omega

/-- **`writei`.** It fails, and then changes nothing, exactly for an offset after the end and where
the range would exceed the maximal size. -/
theorem writei_spec (h : Owned env w.view w.disk) (hw : w.Whole) (hf : w.ip.type ≠ .free)
    (hd : w.ip.type ≠ .dev) {r : Option ℕ} (hoff : off < 2 ^ 32)
    (hn : src.length < 2 ^ 32) (hr : writei env src off w = .ok (r, w')) :
    if off ≤ w.ip.size ∧ off + src.length ≤ MAXFILE * BSIZE then
      r = some src.length ∧ Written env off src w w'
    else r = none ∧ w' = w := by
  have hmax : MAXFILE * BSIZE = 71680 := rfl
  by_cases hok : off ≤ w.ip.size ∧ off + src.length ≤ MAXFILE * BSIZE
  · unfold writei at hr
    rw [StateT.get_bind, if_neg hd, if_neg (by omega), if_neg (by omega)] at hr
    rw [if_pos hok]
    obtain ⟨end', u, hloop, hr⟩ := StateT.bind_eq_ok.mp hr
    obtain ⟨rfl, hfr, hbytes, hkeep, hip⟩ := writeLoop_spec le_rfl h hf hloop
    have hmapped : ∀ x < w.ip.size, w.block (x / BSIZE) ≠ 0 := fun x hx =>
      hw.block_ne _ (lt_of_le_of_lt (Nat.div_mul_le_self _ _) hx)
    have hout : ∀ x, ¬ (off ≤ x ∧ x < off + src.length) → x < w.ip.size → u.byte x = w.byte x :=
      fun x hx hlt => hkeep x hx (hmapped x hlt)
    have hin : ∀ i (hi : i < src.length), u.byte (off + i) = src[i] := fun i hi => (hbytes i hi).2
    -- The first byte of every block below the new size is an old byte or one that was written.
    have hblocks : ∀ bn, bn * BSIZE < max w.ip.size (off + src.length) → u.block bn ≠ 0 := by
      intro bn hbn
      have hdiv : bn * BSIZE / BSIZE = bn := Nat.mul_div_cancel _ (by decide)
      by_cases hlt : bn * BSIZE < w.ip.size
      · have := hmapped _ hlt
        rw [hdiv] at this
        rw [hfr.block_eq _ this]
        exact this
      · have := (hbytes (bn * BSIZE - off) (by omega)).1
        rwa [Nat.add_sub_cancel' (by omega), hdiv] at this
    by_cases hgrow : 0 < src.length ∧ w.ip.size < off + src.length
    · -- The inode grows, and is written to the disk.
      rw [if_pos hgrow] at hr
      obtain ⟨rfl, rfl⟩ :
          some src.length = r ∧ u.put { u.ip with size := off + src.length } = w' := by
        cases hr
        exact ⟨rfl, rfl⟩
      have hsize : off + src.length = max w.ip.size (off + src.length) := by omega
      refine ⟨rfl, hfr.apart.trans (apart_put u _), owned_put hfr.owned rfl rfl,
        ⟨hok.2, fun bn hbn => hblocks bn (by rw [← hsize]; exact hbn)⟩, ?_, hsize, ?_,
        fun _ => sync_put u _⟩
      · conv_rhs => rw [← hfr.rest_eq]
        rw [← hfr.size_eq]
        rfl
      · apply content_of_bytes hok.1 hsize
        · exact hin
        · exact hout
    · -- All blocks of the range were there.
      rw [if_neg hgrow] at hr
      obtain ⟨rfl, rfl⟩ : some src.length = r ∧ u = w' := by
        cases hr
        exact ⟨rfl, rfl⟩
      have hsize : u.ip.size = max w.ip.size (off + src.length) := by
        rw [hfr.size_eq]
        omega
      have hsame : u.ip = w.ip := hip fun i hi => hmapped _ (by omega)
      refine ⟨rfl, hfr.apart, hfr.owned, ?_, by rw [hsame], hsize, ?_, fun hsync => ?_⟩
      · refine ⟨?_, fun bn hbn => hblocks bn (by rw [← hsize]; exact hbn)⟩
        rw [hsame]
        exact hw.size_le
      · exact content_of_bytes hok.1 hsize hin hout
      · unfold Work.Sync at hsync ⊢
        rw [hfr.dinode_eq, hfr.inum_eq, hsync, hsame]
  · rw [if_neg hok]
    rw [writei_of_not hd hok] at hr
    cases hr
    exact ⟨rfl, rfl⟩

/-! ### Enough free blocks -/

/-- The blocks that `bmap` allocates for the index `bn`. -/
def Work.cost (w : Work) (bn : ℕ) : ℕ :=
  (if w.block bn = 0 then 1 else 0) + if NDIRECT ≤ bn ∧ w.ip.addrs NDIRECT = 0 then 1 else 0

/-- The indices of the range of `n` bytes from `off` on that have no block. -/
def Work.holes (w : Work) (off n : ℕ) : Finset ℕ :=
  (Finset.range MAXFILE).filter fun bn =>
    w.block bn = 0 ∧ off / BSIZE ≤ bn ∧ bn * BSIZE < off + n

/-- The blocks that `writei` allocates at most: one for every hole, and the indirect block. -/
def Work.need (w : Work) (off n : ℕ) : ℕ :=
  (w.holes off n).card + if w.ip.addrs NDIRECT = 0 then 1 else 0

/-- `bmap` succeeds if there are enough free blocks, and takes as many as it needs. -/
theorem bmap_isOk {bn : ℕ} (hbn : bn < MAXFILE) (h : Owned env w.view w.disk)
    (hfree : w.cost bn ≤ w.disk.free env) :
    ∃ b w', bmap env bn w = .ok (b, w') ∧ w'.disk.free env + w.cost bn = w.disk.free env ∧
      (w'.ip.addrs NDIRECT = 0 → w.ip.addrs NDIRECT = 0 ∧ bn < NDIRECT) := by
  unfold bmap
  by_cases hd : bn < NDIRECT
  · have hblock : w.block bn = w.ip.addrs bn := by simp only [Work.block, Dinode.block, if_pos hd]
    have hcost : w.cost bn = if w.ip.addrs bn = 0 then 1 else 0 := by
      rw [Work.cost, hblock, if_neg (c := NDIRECT ≤ bn ∧ _) (by omega), Nat.add_zero]
    rw [if_pos hd]
    obtain ⟨b, w', ha, hfree'⟩ := @addrAlloc_isOk env w bn (by
      intro hz
      rw [hcost, if_pos hz] at hfree
      omega)
    refine ⟨b, w', ha, by rw [hcost]; exact hfree', fun hz => ⟨?_, hd⟩⟩
    rcases addrAlloc_ok ha with ⟨-, -, rfl⟩ | ⟨-, -, rfl⟩
    · exact hz
    · have hne : NDIRECT ≠ bn := by omega
      simpa [Work.setAddr, Work.alloc, Work.setData, Work.setBit, hne] using hz
  · have hi : bn - NDIRECT < NINDIRECT := by
      have : MAXFILE = NDIRECT + NINDIRECT := rfl
      omega
    have hblock : w.block bn = if w.ip.addrs NDIRECT = 0 then 0
        else (w.disk.data (w.ip.addrs NDIRECT)).word (bn - NDIRECT) := by
      simp only [Work.block, Dinode.block, if_neg hd, if_pos hbn]
    have hcost : w.cost bn = (if w.block bn = 0 then 1 else 0) +
        if w.ip.addrs NDIRECT = 0 then 1 else 0 := by
      simp only [Work.cost, Nat.le_of_not_lt hd, true_and]
    rw [if_neg hd, if_pos hi]
    obtain ⟨ind, u, ha, hu⟩ := @addrAlloc_isOk env w NDIRECT (by
      intro hz
      rw [hcost, if_pos hz] at hfree
      omega)
    -- The entry in the indirect block is empty exactly where the file has no block.
    have hword : (u.disk.data ind).word (bn - NDIRECT) = w.block bn ∧ u.ip.addrs NDIRECT = ind ∧
        ind ≠ 0 := by
      rcases addrAlloc_ok ha with ⟨hne, rfl, rfl⟩ | ⟨hz, hb, rfl⟩
      · exact ⟨by rw [hblock, if_neg hne], rfl, hne⟩
      · refine ⟨?_, by simp [Work.setAddr], hb.ne_zero h⟩
        rw [hblock, if_pos hz]
        simp [Work.setAddr, Work.alloc, Work.setData, Work.setBit, Block.word_zero]
    obtain ⟨b, w', hb, hw'⟩ := @indirectAlloc_isOk env u ind (bn - NDIRECT) (by
        intro hz
        rw [hword.1] at hz
        rw [hcost, if_pos hz] at hfree
        omega)
    rw [hword.1] at hw'
    refine ⟨b, w', by rw [StateT.bind_of_ok ha]; exact hb, by omega, fun hz => ?_⟩
    have haddr : w'.ip = u.ip := by
      rcases indirectAlloc_ok hb with ⟨-, -, rfl⟩ | ⟨-, -, rfl⟩ <;> rfl
    rw [haddr, hword.2.1] at hz
    exact absurd hz hword.2.2

/-- The first index of the range, if it is a hole, and the other ones. -/
theorem card_holes {off n : ℕ} (hn : 0 < n) (hbn : off / BSIZE < MAXFILE) :
    ((w.holes off n).erase (off / BSIZE)).card + (if w.block (off / BSIZE) = 0 then 1 else 0) =
      (w.holes off n).card := by
  split_ifs with hz
  · apply Finset.card_erase_add_one
    refine Finset.mem_filter.mpr ⟨Finset.mem_range.mpr hbn, hz, le_rfl, ?_⟩
    exact lt_of_le_of_lt (Nat.div_mul_le_self _ _) (by omega)
  · rw [Finset.erase_eq_of_notMem, Nat.add_zero]
    intro hmem
    exact hz (Finset.mem_filter.mp hmem).2.1

theorem cost_le_need (hn : 0 < n) (hbn : off / BSIZE < MAXFILE) :
    w.cost (off / BSIZE) ≤ w.need off n := by
  have hcard := card_holes (w := w) hn hbn
  have hind : (if NDIRECT ≤ off / BSIZE ∧ w.ip.addrs NDIRECT = 0 then 1 else 0) ≤
      if w.ip.addrs NDIRECT = 0 then 1 else 0 := by
    split_ifs <;> omega
  unfold Work.cost Work.need
  omega

/-- What is needed after the first round is what was needed, without the blocks of that round. -/
theorem need_round {m : ℕ} (hm : m ≤ n) (hpos : 0 < m) (hbn : off / BSIZE < MAXFILE)
    (hblock : ∀ bn, w.block bn ≠ 0 → w'.block bn ≠ 0) (hnew : w'.block (off / BSIZE) ≠ 0)
    (hind : w'.ip.addrs NDIRECT = 0 → w.ip.addrs NDIRECT = 0 ∧ off / BSIZE < NDIRECT) :
    w'.need (off + m) (n - m) + w.cost (off / BSIZE) ≤ w.need off n := by
  have hsub : w'.holes (off + m) (n - m) ⊆ (w.holes off n).erase (off / BSIZE) := by
    intro bn hmem
    obtain ⟨hlt, hz, hlo, hhi⟩ := Finset.mem_filter.mp hmem
    have hmono : off / BSIZE ≤ (off + m) / BSIZE := Nat.div_le_div_right (by omega)
    refine Finset.mem_erase.mpr ⟨?_, Finset.mem_filter.mpr ⟨hlt, ?_, by omega, by omega⟩⟩
    · rintro rfl
      exact hnew hz
    · by_contra hne
      exact hblock bn hne hz
  have hcard := Finset.card_le_card hsub
  have hfirst := @card_holes w off n (hpos.trans_le hm) hbn
  have hindirect : (if w'.ip.addrs NDIRECT = 0 then 1 else 0) +
      (if NDIRECT ≤ off / BSIZE ∧ w.ip.addrs NDIRECT = 0 then 1 else 0) ≤
        if w.ip.addrs NDIRECT = 0 then 1 else 0 := by
    by_cases hz : w'.ip.addrs NDIRECT = 0
    · obtain ⟨h₁, h₂⟩ := hind hz
      simp [hz, h₁, Nat.not_le.mpr h₂]
    · split_ifs <;> omega
  unfold Work.need Work.cost
  omega

/-- The loop of `writei` succeeds if there are enough free blocks, and there are enough left for the
rest of a longer range. -/
theorem writeLoop_isOk {rounds : ℕ} (hlen : src.length ≤ rounds)
    (h : Owned env w.view w.disk) (hf : w.ip.type ≠ .free)
    (hmax : off + src.length ≤ MAXFILE * BSIZE) (hn : src.length ≤ n)
    (hneed : w.need off n ≤ w.disk.free env) :
    ∃ r w', writeLoop env rounds off src w = .ok (r, w') ∧
      w'.need (off + src.length) (n - src.length) ≤ w'.disk.free env := by
  induction rounds generalizing off n src w with
  | zero =>
    obtain rfl : src = [] := List.length_eq_zero_iff.mp (by omega)
    exact ⟨off, w, rfl, hneed⟩
  | succ rounds ih =>
    rw [writeLoop]
    by_cases h0 : src = []
    · subst h0
      exact ⟨off, w, rfl, hneed⟩
    · rw [if_neg h0]
      set m := min src.length (BSIZE - off % BSIZE) with hm
      have hpos : 0 < src.length := List.length_pos_of_ne_nil h0
      have hm0 : 0 < m := by
        have : 0 < BSIZE - off % BSIZE := Nat.sub_pos_of_lt (Nat.mod_lt _ (by decide))
        omega
      have hbn : off / BSIZE < MAXFILE := by
        rw [Nat.div_lt_iff_lt_mul (by decide)]
        omega
      obtain ⟨b, u, hb, hfree, hind⟩ :=
        bmap_isOk hbn h ((cost_le_need (hpos.trans_le hn) hbn).trans hneed)
      have htake : (src.take m).length = m := by
        rw [List.length_take]
        omega
      obtain ⟨hfr, hv0, -⟩ := write_round (m := m) h hf (by omega) htake hb
      rw [StateT.bind_of_ok hb, StateT.modify_bind]
      have hround := need_round (n := n) (by omega) hm0 hbn (fun bn hne => by
        rw [hfr.block_eq bn hne]
        exact hne) hv0 hind
      have hdrop : (src.drop m).length = src.length - m := List.length_drop
      have hlen' : (src.drop m).length ≤ rounds := by omega
      obtain ⟨r, w', hloop, hneed'⟩ := @ih _ (off + m) (n - m) _ hlen' hfr.owned
        (by rw [hfr.type_eq]; exact hf) (by omega) (by omega)
        (show _ ≤ u.disk.free env by omega)
      refine ⟨r, w', hloop, ?_⟩
      rw [hdrop] at hneed'
      rwa [show off + src.length = off + m + (src.length - m) by omega,
        show n - src.length = n - m - (src.length - m) by omega]

/-- **`writei` returns** if there are enough free blocks. -/
theorem writei_isOk (h : Owned env w.view w.disk)
    (hf : w.ip.type ≠ .free) (hd : w.ip.type ≠ .dev) (hn : src.length ≤ n)
    (hneed : w.need off n ≤ w.disk.free env) :
    ∃ r w', writei env src off w = .ok (r, w') ∧
      (r = some src.length → w'.need (off + src.length) (n - src.length) ≤ w'.disk.free env) := by
  unfold writei
  rw [StateT.get_bind, if_neg hd]
  split_ifs with hbad hbig
  · exact ⟨none, w, rfl, nofun⟩
  · exact ⟨none, w, rfl, nofun⟩
  · obtain ⟨r, w', hloop, hneed'⟩ := writeLoop_isOk le_rfl h hf (by omega) hn hneed
    rw [StateT.bind_of_ok hloop]
    split_ifs
    · exact ⟨_, _, rfl, fun _ => hneed'⟩
    · exact ⟨_, _, rfl, fun _ => hneed'⟩

end Write

end Xv6.Fs
