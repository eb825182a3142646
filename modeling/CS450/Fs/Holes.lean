import CS450.Fs.Format

/-!
# Holes in the images that mkfs builds

`mkfs` rounds the size of the root directory up to a multiple of `BSIZE` after the last entry, and
always adds something. When the entries fill their last block, the new size has a block that was
never allocated. And with more than 206 files the inodes reach into the bitmap, which is written
last.

## Main results

* `testBit_bitmapBlock`: the bitmap has the bits below the next block
* `Layout.block_eq`: the kernel finds the blocks of a file where `mkfs` put them
* `mkfs_no_holes_iff`: which images have no holes
* `mkfs_files_read_back`: the kernel reads the files as `mkfs` got them
-/

namespace Xv6.Mkfs

open Fs

/-! ### The bitmap -/

theorem bitmapBlock_succ (n : ℕ) : bitmapBlock (n + 1) =
    Function.update (bitmapBlock n) (n / 8)
      (bitmapBlock n (n / 8) ||| UInt8.ofNat (2 ^ (n % 8))) := by
  rw [bitmapBlock, List.range_succ, List.foldl_append]
  rfl

/-- **The bits of the bitmap.** -/
theorem testBit_bitmapBlock (used k : ℕ) {j : ℕ} (hj : j < 8) :
    (bitmapBlock used k).toNat.testBit j = decide (8 * k + j < used) := by
  induction used with
  | zero => simp [bitmapBlock, Block.zero]
  | succ n ih =>
    rw [bitmapBlock_succ, Function.update_apply]
    split_ifs with hk
    · have hpow : 2 ^ (n % 8) < 2 ^ 8 := Nat.pow_lt_pow_right (by omega) (Nat.mod_lt _ (by omega))
      rw [UInt8.toNat_or, UInt8.toNat_ofNat', Nat.mod_eq_of_lt hpow, Nat.testBit_or, ← hk, ih,
        Nat.testBit_two_pow, ← Bool.decide_or]
      exact decide_eq_decide.mpr (by omega)
    · rw [ih]
      exact decide_eq_decide.mpr (by omega)

variable {k used free ind i : ℕ} {S : ℕ → Block} {blocks : List ℕ}

theorem bitmapBlock_full (h : 8 * (k + 1) ≤ used) : (bitmapBlock used k).toNat = 255 := by
  refine Nat.eq_of_testBit_eq fun j => ?_
  by_cases hj : j < 8
  · rw [testBit_bitmapBlock used k hj, decide_eq_true (by omega)]
    interval_cases j <;> rfl
  · have hpow : 2 ^ 8 ≤ 2 ^ j := Nat.pow_le_pow_right (by omega) (not_lt.mp hj)
    have hlt := (bitmapBlock used k).toNat_lt
    rw [Nat.testBit_lt_two_pow (by omega), Nat.testBit_lt_two_pow (by omega)]

theorem bitmapBlock_none (h : used ≤ 8 * k) : (bitmapBlock used k).toNat = 0 := by
  refine Nat.eq_of_testBit_eq fun j => ?_
  rw [Nat.zero_testBit]
  by_cases hj : j < 8
  · rw [testBit_bitmapBlock used k hj]
    exact decide_eq_false (by omega)
  · have hpow : 2 ^ 8 ≤ 2 ^ j := Nat.pow_le_pow_right (by omega) (not_lt.mp hj)
    have hlt := (bitmapBlock used k).toNat_lt
    exact Nat.testBit_lt_two_pow (by omega)

theorem bitmapBlock_some (h : 8 * k < used) : (bitmapBlock used k).toNat ≠ 0 := by
  intro h0
  have hbit := testBit_bitmapBlock used k (j := 0) (by omega)
  rw [h0, Nat.zero_testBit] at hbit
  exact absurd (decide_eq_true (p := 8 * k + 0 < used) h) (hbit ▸ Bool.false_ne_true)

/-! ### The image as the kernel reads it -/

/-- A word of 16 bits as `short`. -/
def short (n : ℕ) : ℤ := if n < 2 ^ 15 then n else n - 2 ^ 16

/-- The type of an inode; a number that is none of the types is treated as a file. -/
def fileType : ℕ → FileType
  | 0 => .free
  | 1 => .dir
  | 3 => .dev
  | _ => .file

/-- An inode of the image in the words of the kernel. -/
def kernelInode (d : Dinode) : Fs.Dinode :=
  ⟨fileType d.type, short d.major, short d.minor, short d.nlink, d.size, d.addrs⟩

/-- **The image as the kernel reads it.** -/
def view (S : ℕ → Block) : Image where
  dinode i := kernelInode (inode S i)
  bitmap b := (S (b / BPB + bmapstart) (b % BPB / 8)).toNat.testBit (b % 8)
  data := S

/-- **No holes**: every block of the inode below its size has an address. -/
def NoHole (S : ℕ → Block) (i : ℕ) : Prop :=
  ∀ bn, bn < ceilBlocks ((view S).dinode i).size → ((view S).dinode i).block (view S).data bn ≠ 0

/-- The kernel finds the blocks of a file where `mkfs` put them. -/
theorem Layout.block_eq {d : Dinode}
    (h : Layout S free d blocks ind) (bn : ℕ) : (kernelInode d).block S bn = blocks.getD bn 0 := by
  have hc := consts
  have hshort := h.short
  unfold Fs.Dinode.block kernelInode
  simp only
  by_cases hdirect : bn < NDIRECT
  · rw [if_pos hdirect, h.direct bn hdirect]
  rw [if_neg hdirect, h.indirect]
  by_cases hmax : bn < MAXFILE
  · rw [if_pos hmax]
    by_cases hind : ind = 0
    · have hlen := h.none_iff.mp hind
      rw [if_pos hind, List.getD_eq_default _ _ (by omega)]
    · rw [if_neg hind, h.words hind _ (by omega), show NDIRECT + (bn - NDIRECT) = bn by omega]
  · rw [if_neg hmax, List.getD_eq_default _ _ (by omega)]

theorem Layout.getD_ne_iff {d : Dinode}
    (h : Layout S free d blocks ind) (bn : ℕ) : blocks.getD bn 0 ≠ 0 ↔ bn < blocks.length := by
  refine ⟨fun hne => ?_, h.getD_ne⟩
  by_contra hge
  exact hne (List.getD_eq_default _ _ (not_lt.mp hge))

/-- A file has no holes exactly if its blocks suffice. -/
theorem noHole_iff (h : Layout S free (inode S i) blocks ind) :
    NoHole S i ↔ ceilBlocks (inode S i).size ≤ blocks.length := by
  have hblock : ∀ bn, ((view S).dinode i).block (view S).data bn ≠ 0 ↔ bn < blocks.length :=
    fun bn => by
    rw [← h.getD_ne_iff bn, ← h.block_eq bn]
    rfl
  refine ⟨fun hno => ?_, fun hle bn hbn => (hblock bn).mpr (lt_of_lt_of_le hbn hle)⟩
  by_contra hlt
  exact lt_irrefl _ ((hblock _).mp (hno _ (not_le.mp hlt)))

section Finished

variable {s : Mk} {desc : ℕ → Desc} {files : List HostFile}

theorem finished_of_ge {b : ℕ} (hb : nmeta ≤ b) : finished s b = s.img b := by
  have hc := consts
  rw [finished, Function.update_of_ne (by omega)]
  exact writeInode_of_ge (by decide) hb

/-- The inodes before the bitmap. -/
theorem inode_finished (h : Progress s files desc) (hi : i < 208) :
    inode (finished s) i = if i = ROOTINO then { inode s.img ROOTINO with
      size := ((inode s.img ROOTINO).size / BSIZE + 1) * BSIZE } else inode s.img i := by
  have hne : i / IPB + inodestart ≠ bmapstart := by
    change i / 8 + 32 ≠ 58
    omega
  have hd := h.built.inodes ROOTINO (by decide)
  have hfree := h.built.le
  have hshort := hd.layout.short
  have hc := consts
  have hsmall : Dinode.Small { inode s.img ROOTINO with
      size := ((inode s.img ROOTINO).size / BSIZE + 1) * BSIZE } := by
    have hbefore := small_of_layout hd.type_lt hd.nlink_lt hd.layout (by omega) hd.length_eq
    rw [hd.length_eq] at hshort
    change ((desc ROOTINO).content.length + 512 - 1) / 512 ≤ 140 at hshort
    rw [hd.head]
    refine ⟨hbefore.type_lt, hbefore.major_lt, hbefore.minor_lt, hbefore.nlink_lt, ?_,
      hbefore.addrs_lt, hbefore.rest⟩
    change ((desc ROOTINO).content.length / 512 + 1) * 512 < 2 ^ 32
    omega
  have hsame : inode (finished s) i = inode (writeInode s.img ROOTINO { inode s.img ROOTINO with
      size := ((inode s.img ROOTINO).size / BSIZE + 1) * BSIZE }) i := by
    unfold inode finished
    rw [Function.update_of_ne hne]
    rfl
  rw [hsame, inode_writeInode hsmall]

/-- The blocks of the files before the bitmap. -/
theorem layout_finished (h : Progress s files desc) (hi : i < 208) :
    Layout (finished s) s.freeblock (inode (finished s) i) (desc i).blocks (desc i).ind := by
  have hlayout := (h.built.inodes i (hi.trans (by decide))).layout
  have hframe : Layout (finished s) s.freeblock _ _ _ := hlayout.frame le_rfl fun hne =>
    finished_of_ge (hlayout.indRange hne).1
  rw [inode_finished h hi]
  split_ifs with hroot
  · subst hroot
    exact hframe.congr rfl
  · exact hframe

/-- **Holes of the files before the bitmap**: only the root directory can have one. -/
theorem noHole_finished (h : Progress s files desc) (hi : i < 208) :
    NoHole (finished s) i ↔ (i = ROOTINO → (files.length + 2) % 32 ≠ 0) := by
  have hd := h.built.inodes i (hi.trans (by decide))
  rw [noHole_iff (layout_finished h hi), inode_finished h hi, hd.length_eq]
  by_cases hroot : i = ROOTINO
  · subst hroot
    have hsize : (inode s.img ROOTINO).size = 16 * (files.length + 2) := by
      rw [hd.head, h.root, length_rootContent]
    rw [if_pos rfl, h.root, length_rootContent, hsize]
    change ((16 * (files.length + 2) / 512 + 1) * 512 + 512 - 1) / 512 ≤
      (16 * (files.length + 2) + 512 - 1) / 512 ↔ _
    constructor
    · omega
    · omega
  · rw [if_neg hroot, show (inode s.img i).size = (desc i).content.length by rw [hd.head]]
    exact iff_of_true le_rfl fun h => absurd h hroot

/-- **The first inode behind the inode blocks** is the beginning of the bitmap, and has a hole. -/
theorem hole_of_bitmap (hS : S bmapstart = bitmapBlock used)
    (hused : 64 < used) : ¬ NoHole S 208 := by
  have hc := consts
  have hinode : inode S 208 = .read (bitmapBlock used) 0 := by
    rw [← hS]
    rfl
  intro hno
  by_cases hfew : used ≤ 96
  · -- The size is positive, and the first address is zero.
    refine hno 0 ?_ ?_
    · show 0 < ceilBlocks (inode S 208).size
      have hbyte := bitmapBlock_some (k := 8) (by omega : 8 * 8 < used)
      have hpos : 0 < (bitmapBlock used).word 2 := by
        show 0 < (bitmapBlock used 8).toNat + _ + _ + _
        omega
      rw [hinode]
      show 0 < ((bitmapBlock used).word 2 + 512 - 1) / 512
      omega
    · show (kernelInode (inode S 208)).block S 0 = 0
      rw [hinode]
      show (bitmapBlock used 12).toNat + 2 ^ 8 * (bitmapBlock used 13).toNat +
        2 ^ 16 * (bitmapBlock used 14).toNat + 2 ^ 24 * (bitmapBlock used 15).toNat = 0
      rw [bitmapBlock_none (by omega), bitmapBlock_none (by omega), bitmapBlock_none (by omega),
        bitmapBlock_none (by omega)]
      rfl
  · -- The size is larger than any file can be.
    refine hno MAXFILE ?_ ?_
    · show MAXFILE < ceilBlocks (inode S 208).size
      rw [hinode]
      have hword : (bitmapBlock used).word 2 = 2 ^ 32 - 1 := by
        show (bitmapBlock used 8).toNat + 2 ^ 8 * (bitmapBlock used 9).toNat +
          2 ^ 16 * (bitmapBlock used 10).toNat + 2 ^ 24 * (bitmapBlock used 11).toNat = _
        rw [bitmapBlock_full (by omega), bitmapBlock_full (by omega), bitmapBlock_full (by omega),
          bitmapBlock_full (by omega)]
        rfl
      show 140 < ((bitmapBlock used).word 2 + 512 - 1) / 512
      rw [hword]
      decide
    · unfold Fs.Dinode.block
      rw [if_neg (by omega), if_neg (lt_irrefl _)]

end Finished

/-! ### Blocks are handed out in order -/

/-- The next block never goes back. -/
def Rises {α : Type} (m : M α) : Prop :=
  ∀ s, Meets m s (fun _ s' => s.freeblock ≤ s'.freeblock) True

section Rises

variable {α β : Type} {m : M α} {f : α → M β}

theorem rises_pure (a : α) : Rises (pure a) := fun _ => le_rfl

theorem Rises.bind (hm : Rises m) (hf : ∀ a, Rises (f a)) : Rises (m >>= f) := fun s =>
  meets_bind.mpr ((hm s).mono fun a s' hle => (hf a s').mono fun _ _ hle' => hle.trans hle')

theorem Rises.ite {c : Prop} [Decidable c] {m' : M α} (h : Rises m) (h' : Rises m') :
    Rises (if c then m else m') := by
  split_ifs
  · exact h
  · exact h'

theorem rises_throw (e : Exit) : Rises (throw e : M α) := fun _ => trivial

theorem rises_nextBlock : Rises nextBlock := fun _ => Nat.le_succ _

theorem rises_wsect (sec : ℕ) (buf : Block) : Rises (wsect sec buf) := fun _ => le_rfl

theorem rises_rsect (sec : ℕ) : Rises (rsect sec) := by
  intro s
  show Meets (if sec % 2 ^ 23 < FSSIZE then _ else _) s _ True
  split_ifs
  · exact le_rfl
  · trivial

theorem rises_winode (i : ℕ) (d : Dinode) : Rises (winode i d) :=
  (rises_rsect _).bind fun _ => rises_wsect _ _

theorem rises_ialloc (type : ℕ) : Rises (ialloc type) := fun s =>
  ((rises_winode s.freeinode _).bind fun _ => rises_pure s.freeinode) ⟨s.img, _, s.freeblock⟩

theorem rises_blockFor (din : Dinode) (fbn : ℕ) : Rises (blockFor din fbn) := by
  refine .ite (.ite (rises_nextBlock.bind fun _ => rises_pure _) (rises_pure _)) ?_
  extract_lets rest
  have hrest : ∀ din, Rises (rest din) := fun din =>
    (rises_rsect _).bind fun indirect => .ite (rises_nextBlock.bind fun b =>
      (rises_wsect _ _).bind fun _ => rises_pure _) (rises_pure _)
  exact .ite (rises_nextBlock.bind fun _ => hrest _) (hrest _)

theorem rises_iappendLoop (rounds : ℕ) (din : Dinode) (off : ℕ) (p : List UInt8) :
    Rises (iappendLoop rounds din off p) := by
  induction rounds generalizing din off p with
  | zero => exact rises_pure _
  | succ rounds ih =>
    refine .ite (rises_pure _) (.ite (rises_throw _) ?_)
    refine (rises_blockFor _ _).bind fun x => (rises_rsect _).bind fun buf => ?_
    exact (rises_wsect _ _).bind fun _ => ih _ _ _

theorem rises_iappend (i : ℕ) (p : List UInt8) : Rises (iappend i p) :=
  ((rises_rsect _).bind fun _ => rises_pure _).bind fun _ =>
    (rises_iappendLoop _ _ _ _).bind fun _ => rises_winode _ _

theorem rises_forM {γ : Type} {g : γ → M PUnit} (hg : ∀ c, Rises (g c)) (l : List γ) :
    Rises (l.forM g) := by
  induction l with
  | nil => exact rises_pure _
  | cons c l ih => exact (hg c).bind fun _ => ih

theorem rises_addFile (f : HostFile) : Rises (addFile f) := by
  refine .ite (rises_throw _) ?_
  cases f.pieces with
  | none => exact rises_throw _
  | some pieces =>
    exact (rises_ialloc _).bind fun i => (rises_iappend _ _).bind fun _ =>
      rises_forM (rises_iappend i) pieces

end Rises

/-- The bitmap is written last. -/
theorem finish_bitmap (s : Mk) :
    Meets finish s (fun _ s' => s'.img bmapstart = bitmapBlock s.freeblock) True := by
  show Meets (balloc s.freeblock) _ _ True
  unfold balloc
  split_ifs
  · trivial
  · rw [meets_wsect (by decide)]
    dsimp only
    rw [Function.update_self]

/-! ### Holes -/

section Images

variable {files : List HostFile} {img : ℕ → Block}

/-- **With more than 206 files** the inodes reach into the bitmap. -/
theorem hole_of_many (h : mkfs files = .ok img) (hn : 206 < files.length) : ¬ NoHole img 208 := by
  refine mkfs_cases h (Q := fun S => ¬ NoHole S 208) ?_
  unfold build
  rw [meets_bind]
  refine makeRoot_spec.mono ?_
  rintro - s₁ ⟨desc₁, h₁⟩
  have hlen : (files.take 207).length = 207 := by
    rw [List.length_take]
    omega
  have hsplit : files.forM addFile =
      (files.take 207).forM addFile >>= fun _ => (files.drop 207).forM addFile := by
    rw [List.forM_eq_forM, ← List.forM_append, List.take_append_drop]
  rw [hsplit, bind_assoc, meets_bind]
  refine (addFiles_spec h₁ (by rw [hlen]; decide) fun _ => trivial).mono ?_
  rintro - s₂ ⟨desc₂, h₂⟩
  have hroot : blocksFor (16 * ((files.take 207).length + 2)) = 7 := by
    rw [hlen]
    decide
  have hfree := h₂.freeblock
  rw [List.nil_append, needed, hroot] at hfree
  rw [meets_bind]
  refine (rises_forM rises_addFile (files.drop 207) s₂).mono fun _ s₃ hle => ?_
  refine (finish_bitmap s₃).mono fun _ s' himg => hole_of_bitmap himg ?_
  have hc := consts
  omega

/-- Reading an inode of the image changes nothing, whatever is read. -/
def ReadsOnly (S : ℕ → Block) (i : ℕ) : Prop :=
  ∀ env off n, off < 2 ^ 32 → n < 2 ^ 32 → ∃ r,
    readi env off n ⟨i, (view S).dinode i, view S⟩ = .ok (r, ⟨i, (view S).dinode i, view S⟩)

theorem NoHole.whole (h : NoHole S i) :
    ((view S).dinode i).Whole (view S).data := by
  have hc := consts
  refine ⟨?_, fun bn hbn => h bn ?_⟩
  · by_contra hbig
    refine h MAXFILE ?_ ?_
    · change 140 < (((view S).dinode i).size + 512 - 1) / 512
      change ¬ _ ≤ 140 * 512 at hbig
      omega
    · unfold Fs.Dinode.block
      rw [if_neg (by omega), if_neg (lt_irrefl _)]
  · change bn < (((view S).dinode i).size + 512 - 1) / 512
    change bn * 512 < _ at hbn
    omega

theorem NoHole.readsOnly (h : NoHole S i)
    (htype : ((view S).dinode i).type ≠ .dev) : ReadsOnly S i := fun env _ _ hoff hn =>
  ⟨_, @readi_eq env ⟨i, (view S).dinode i, view S⟩ h.whole htype _ _ hoff hn⟩

theorem Progress.type_ne_dev {s : Mk} {desc : ℕ → Desc} (h : Progress s files desc)
    (hi : i < 208) : ((view (finished s)).dinode i).type ≠ .dev := by
  have htype : (inode (finished s) i).type = (desc i).type := by
    rw [inode_finished h hi, show (desc i).type = (inode s.img i).type by
      rw [(h.built.inodes i (hi.trans (by decide))).head]]
    split_ifs with hroot
    · rw [hroot]
    · rfl
  show fileType (inode (finished s) i).type ≠ .dev
  rw [htype]
  by_cases hroot : i = ROOTINO
  · rw [hroot, h.rootType]
    decide
  · by_cases hfile : 2 ≤ i ∧ i < files.length + 2
    · obtain ⟨k, rfl⟩ := Nat.exists_eq_add_of_le' hfile.1
      rw [(h.file k _ (List.getElem?_eq_getElem (by omega))).1]
      decide
    · rw [h.rest i hroot (by omega)]
      decide

/-- **Images without holes.** Every inode of an image that `mkfs` wrote has a block for every index
below its size, and `readi` changes nothing, exactly if the inodes do not reach into the bitmap and
the entries of the root directory do not fill their last block. -/
theorem mkfs_no_holes_iff (files : List HostFile) (img : ℕ → Block) (h : mkfs files = .ok img) :
    (∀ i, i < NINODES ∨ i < files.length + 2 → NoHole img i ∧ ReadsOnly img i) ↔
      files.length ≤ 206 ∧ (files.length + 2) % 32 ≠ 0 := by
  by_cases hn : files.length ≤ 206
  · have hn' : files.length + 1 < maxInode := lt_of_le_of_lt (Nat.succ_le_succ hn) (by decide)
    obtain ⟨s, desc, hs, rfl⟩ := mkfs_cases
      (Q := fun S => ∃ s desc, Progress s files desc ∧ S = finished s) h
      (build_spec hn' fun _ => trivial)
    refine ⟨fun hall => ⟨hn, ?_⟩, fun ⟨_, hmod⟩ i hi => ?_⟩
    · exact (noHole_finished hs (by decide)).mp (hall ROOTINO (.inl (by decide))).1 rfl
    · have hi : i < 208 := by
        have hN : NINODES = 200 := rfl
        omega
      have hno := (noHole_finished hs hi).mpr fun _ => hmod
      exact ⟨hno, hno.readsOnly (hs.type_ne_dev hi)⟩
  · refine iff_of_false (fun hall => ?_) fun hcond => hn hcond.1
    exact hole_of_many h (not_le.mp hn) (hall 208 (.inr (by omega))).1

/-- Two files, one of them empty. -/
theorem mkfs_no_holes_two : ∃ img, mkfs [⟨[97], some []⟩, ⟨[98], some [[1, 2], [3]]⟩] = .ok img ∧
    ∀ i, i < NINODES → NoHole img i ∧ ReadsOnly img i := by
  obtain ⟨s, desc, -, hok⟩ := @mkfs_accepts [⟨[97], some []⟩, ⟨[98], some [[1, 2], [3]]⟩]
    (by decide) (by decide) (by decide)
  exact ⟨_, hok, fun i hi => (mkfs_no_holes_iff _ _ hok).mpr (by decide) i (.inl hi)⟩

/-- Thirty files of one byte. -/
def thirtyFiles : List HostFile :=
  (List.range 30).map fun k => ⟨[UInt8.ofNat (97 + k)], some [[10]]⟩

/-- **A hole in the root directory**: with thirty files its entries fill one block, and its size
says that there are two. -/
theorem mkfs_root_hole : ∃ img, mkfs thirtyFiles = .ok img ∧
    ((view img).dinode ROOTINO).size = 1024 ∧
    ((view img).dinode ROOTINO).block img 1 = 0 := by
  obtain ⟨s, desc, h, hok⟩ := @mkfs_accepts thirtyFiles (by decide) (by decide) (by decide)
  have hd := h.built.inodes ROOTINO (by decide)
  have hlen : (desc ROOTINO).content.length = 512 := by
    rw [h.root, length_rootContent]
    decide
  refine ⟨_, hok, ?_, ?_⟩
  · show (inode (finished s) ROOTINO).size = 1024
    rw [inode_finished h (by decide), if_pos rfl, hd.head]
    show ((desc ROOTINO).content.length / 512 + 1) * 512 = 1024
    rw [hlen]
  · refine ((layout_finished h (by decide)).block_eq 1).trans (List.getD_eq_default _ _ ?_)
    rw [hd.length_eq, hlen]
    decide

end Images

/-! ### Reading files back -/

/-- The inode `i` of the image, locked. -/
def opened (S : ℕ → Block) (i : ℕ) : Work := ⟨i, (view S).dinode i, view S⟩

section ReadBack

variable {i bn : ℕ} {s : Mk} {desc : ℕ → Desc} {files : List HostFile}

theorem block_opened (h : Progress s files desc) (hi : i < 208) (bn : ℕ) :
    (opened (finished s) i).block bn = (desc i).blocks.getD bn 0 :=
  (layout_finished h hi).block_eq bn

/-- **The content of a file** is what `mkfs` appended to it. -/
theorem content_opened (h : Progress s files desc) (hi : i < 208) (hroot : i ≠ ROOTINO) :
    (opened (finished s) i).content = (desc i).content := by
  have hd := h.built.inodes i (hi.trans (by decide))
  apply List.ext_getElem
  · rw [Work.length_content]
    show (inode (finished s) i).size = _
    rw [inode_finished h hi, if_neg hroot, hd.head]
  · intro x _ hx
    rw [Work.getElem_content, Work.byte_eq, block_opened h hi]
    -- a data block, which the last step leaves alone
    show finished s _ _ = _
    rw [finished_of_ge (hd.layout.range _ (hd.getD_mem hx)).1, hd.holds x hx,
      List.getD_eq_getElem _ _ hx]

theorem mem_of_block_ne (h : Progress s files desc) (hi : i < 208)
    (hne : (opened (finished s) i).block bn ≠ 0) :
    bn < (desc i).blocks.length ∧ (opened (finished s) i).block bn ∈ (desc i).blocks := by
  rw [block_opened h hi] at hne ⊢
  have hlt := ((layout_finished h hi).getD_ne_iff bn).mp hne
  rw [List.getD_eq_getElem _ _ hlt]
  exact ⟨hlt, List.getElem_mem hlt⟩

/-- **A block is at one place of one inode.** -/
theorem block_opened_inj (h : Progress s files desc) (hi : i < 208)
    (hne : (opened (finished s) i).block bn ≠ 0) {j bn' : ℕ} (hj : j < 208)
    (heq : (opened (finished s) j).block bn' = (opened (finished s) i).block bn) :
    j = i ∧ bn' = bn := by
  obtain ⟨hlt, hmem⟩ := mem_of_block_ne h hi hne
  obtain ⟨hlt', hmem'⟩ := mem_of_block_ne h hj (heq ▸ hne)
  by_cases hji : j = i
  · subst hji
    rw [block_opened h hj, block_opened h hj] at heq
    exact ⟨rfl, (layout_finished h hj).getD_inj hlt' hlt heq⟩
  · rw [heq] at hmem'
    exact absurd (.inl hmem) (h.built.disjoint j i (hj.trans (by decide)) (hi.trans (by decide)) hji
      _ (.inl hmem'))

theorem bitmap_finished {b : ℕ} (hb : b < FSSIZE) :
    (view (finished s)).bitmap b = decide (b < s.freeblock) := by
  have hbits := testBit_bitmapBlock s.freeblock (b / 8) (Nat.mod_lt b (by decide : 0 < 8))
  rw [Nat.div_add_mod] at hbits
  simp only [view, Nat.mod_eq_of_lt (hb.trans (by decide : FSSIZE < BPB)),
    Nat.div_eq_of_lt (hb.trans (by decide : FSSIZE < BPB)), Nat.zero_add, finished,
    Function.update_self]
  exact hbits

end ReadBack

/-- **Files are read back.** On an image of at most 206 files the kernel's `readi` returns the bytes
of every file as `mkfs` got them. The blocks in use are those below the next block, and a block of
an inode is one of them, behind the metadata, and at one place of one inode. -/
theorem mkfs_files_read_back (files : List HostFile) (img : ℕ → Block) (h : mkfs files = .ok img)
    (hn : files.length ≤ 206) :
    (∀ k f, files[k]? = some f → (opened img (k + 2)).ip.type = .file ∧
      ∀ env off n, off < 2 ^ 32 → n < 2 ^ 32 → readi env off n (opened img (k + 2)) =
        .ok (if f.bytes.length < off ∨ 2 ^ 32 ≤ off + n then none
          else some ((f.bytes.drop off).take n), opened img (k + 2))) ∧
    ∃ free, free ≤ FSSIZE ∧ (∀ b, b < FSSIZE → (view img).bitmap b = decide (b < free)) ∧
      ∀ i bn, i < 208 → (opened img i).block bn ≠ 0 →
        nmeta ≤ (opened img i).block bn ∧ (opened img i).block bn < free ∧
        ∀ j bn', j < 208 → (opened img j).block bn' = (opened img i).block bn →
          j = i ∧ bn' = bn := by
  obtain ⟨s, desc, hs, rfl⟩ := mkfs_cases
    (Q := fun S => ∃ s desc, Progress s files desc ∧ S = finished s) h
    (build_spec (lt_of_le_of_lt (Nat.succ_le_succ hn) (by decide)) fun _ => trivial)
  refine ⟨fun k f hf => ?_, s.freeblock, hs.built.le, fun b => bitmap_finished,
    fun i bn hi hne => ?_⟩
  · have hi : k + 2 < 208 := by
      have := (List.getElem?_eq_some_iff.mp hf).1
      omega
    have hroot : k + 2 ≠ ROOTINO := by unfold ROOTINO; omega
    obtain ⟨htype, -, hcontent⟩ := hs.file k f hf
    refine ⟨?_, fun env off n hoff hlt => ?_⟩
    · show fileType (inode (finished s) (k + 2)).type = .file
      rw [inode_finished hs hi, if_neg hroot,
        (hs.built.inodes _ (hi.trans (by decide))).head, htype]
      rfl
    · have hwhole := ((noHole_finished hs hi).mpr fun h => absurd h hroot).whole
      have hread := @readi_eq env (opened (finished s) (k + 2)) hwhole
        (hs.type_ne_dev hi) off n hoff hlt
      rwa [← Work.length_content, content_opened hs hi hroot, hcontent] at hread
  · obtain ⟨-, hmem⟩ := mem_of_block_ne hs hi hne
    obtain ⟨hlo, hhi⟩ := (hs.built.inodes i (hi.trans (by decide))).layout.range _ hmem
    exact ⟨hlo, hhi, fun j bn' hj => block_opened_inj hs hi hne hj⟩

theorem mkfs_files_read_back_two :
    ∃ img, mkfs [⟨[97], some []⟩, ⟨[98], some [[1, 2], [3]]⟩] = .ok img ∧
    ∀ env, readi env 1 5 (opened img 3) = .ok (some [2, 3], opened img 3) := by
  obtain ⟨s, desc, -, hok⟩ := @mkfs_accepts [⟨[97], some []⟩, ⟨[98], some [[1, 2], [3]]⟩]
    (by decide) (by decide) (by decide)
  exact ⟨_, hok, fun env => ((mkfs_files_read_back _ _ hok (by decide)).1 1 _ rfl).2 env 1 5
    (by decide) (by decide)⟩

end Xv6.Mkfs
