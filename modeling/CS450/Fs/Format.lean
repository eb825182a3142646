import CS450.Fs.Mkfs

/-!
# The images that mkfs builds

The inodes and the data blocks lie apart as long as the inode numbers fit into the sectors before
the data blocks. Then every inode of the image is described by its type, its blocks and its content,
and `iappend` appends to the content of one of them.

## Main results

* `ialloc_spec`, `iappend_spec`: inodes are allocated and appended to
* `addFile_spec`, `makeRoot_spec`, `finish_spec`: the steps of `main`
* `mkfs_accepts`: files that can be opened are accepted, if there are blocks for them
-/

namespace Xv6.Mkfs

open Function (update update_eq_self update_idem update_of_ne update_self)
open Fs

/-! ### Inodes in sectors -/

/-- The fields are in the ranges of their types. -/
structure Dinode.Small (d : Dinode) : Prop where
  type_lt : d.type < 2 ^ 16
  major_lt : d.major < 2 ^ 16
  minor_lt : d.minor < 2 ^ 16
  nlink_lt : d.nlink < 2 ^ 16
  size_lt : d.size < 2 ^ 32
  addrs_lt : ∀ k, d.addrs k < 2 ^ 32
  rest : ∀ k, NDIRECT < k → d.addrs k = 0

section Inodes

variable {b : Block} {d : Dinode} {i j : ℕ}

theorem length_words (d : Dinode) : d.words.length = 16 := by simp [Dinode.words]

theorem Dinode.Small.words_lt (h : d.Small) : ∀ w ∈ d.words, w < 2 ^ 32 := by
  have h1 := h.type_lt
  have h2 := h.major_lt
  have h3 := h.minor_lt
  have h4 := h.nlink_lt
  intro w hw
  simp only [Dinode.words, List.mem_append, List.mem_cons, List.not_mem_nil, or_false,
    List.mem_map] at hw
  rcases hw with (rfl | rfl | rfl) | ⟨k, -, rfl⟩
  · omega
  · omega
  · exact h.size_lt
  · exact h.addrs_lt k

theorem addrs_words {k : ℕ} (hk : k < 13) : d.words[3 + k]? = some (d.addrs k) := by
  rw [Dinode.words, List.getElem?_append_right (by simp)]
  simp [hk]

/-- An inode is read as it was written. -/
theorem read_setWords_self (h : d.Small) : Dinode.read (b.setWords (16 * j) d.words) j = d := by
  have hword : ∀ k (hk : k < d.words.length),
      (b.setWords (16 * j) d.words).word (16 * j + k) = d.words[k] := fun k hk =>
    Block.word_setWords h.words_lt hk
  have hlen := length_words d
  have h1 := h.type_lt
  have h3 := h.minor_lt
  have h0 : (b.setWords (16 * j) d.words).word (16 * j) = d.type + 2 ^ 16 * d.major :=
    hword 0 (by omega)
  have h1' : (b.setWords (16 * j) d.words).word (16 * j + 1) = d.minor + 2 ^ 16 * d.nlink :=
    hword 1 (by omega)
  have h2 : (b.setWords (16 * j) d.words).word (16 * j + 2) = d.size := hword 2 (by omega)
  have hc := consts
  cases d with
  | mk type major minor nlink size addrs =>
    simp only [Dinode.read, Dinode.mk.injEq]
    rw [h0, h1', h2]
    refine ⟨by simp only at h1 ⊢; omega, by simp only at h1 ⊢; omega, by simp only at h3 ⊢; omega,
      by simp only at h3 ⊢; omega, rfl, funext fun k => ?_⟩
    split_ifs with hk
    · have hk' := hword (3 + k) (by omega)
      rw [← Nat.add_assoc] at hk'
      rw [hk']
      exact Option.some.inj ((List.getElem?_eq_getElem _).symm.trans (addrs_words (by omega)))
    · exact (h.rest k (not_le.mp hk)).symm

/-- Other inodes of the sector stay as they are. -/
theorem read_setWords_of_ne (hne : i ≠ j) :
    Dinode.read (b.setWords (16 * j) d.words) i = Dinode.read b i := by
  have hlen := length_words d
  have hword : ∀ k, k < 16 → (b.setWords (16 * j) d.words).word (16 * i + k) =
      b.word (16 * i + k) := by
    intro k hk
    rcases lt_or_gt_of_ne hne with hlt | hlt
    · exact Block.word_setWords_of_lt (by omega)
    · exact Block.word_setWords_of_ge (by omega)
  have hc := consts
  have h0 : (b.setWords (16 * j) d.words).word (16 * i) = b.word (16 * i) := hword 0 (by omega)
  have haddrs : ∀ k, k ≤ NDIRECT →
      (b.setWords (16 * j) d.words).word (16 * i + 3 + k) = b.word (16 * i + 3 + k) := by
    intro k hk
    rw [Nat.add_assoc]
    exact hword (3 + k) (by omega)
  unfold Dinode.read
  rw [h0, hword 1 (by omega), hword 2 (by omega)]
  congr 1
  funext k
  split_ifs with hk
  · exact haddrs k hk
  · rfl

end Inodes

/-- The inode on the image. -/
def inode (S : ℕ → Block) (i : ℕ) : Dinode := .read (S (i / IPB + inodestart)) (i % IPB)

/-- The number of inodes before the data blocks. -/
abbrev maxInode : ℕ := (nmeta - inodestart) * IPB

theorem inode_sector_lt {i : ℕ} (hi : i < maxInode) : i / IPB + inodestart < nmeta := by
  change i / 8 + 32 < 59
  have hi : i < 216 := hi
  omega

/-- **An inode is written**; the others stay as they are. -/
theorem inode_update {S : ℕ → Block} {i j : ℕ} {d : Dinode} (hd : d.Small) :
    inode (update S (i / IPB + inodestart)
      ((S (i / IPB + inodestart)).setWords (16 * (i % IPB)) d.words)) j =
        if j = i then d else inode S j := by
  unfold inode
  by_cases hji : j = i
  · subst hji
    rw [if_pos rfl, update_self, read_setWords_self hd]
  · rw [if_neg hji]
    by_cases hsec : j / IPB = i / IPB
    · have hne : j % IPB ≠ i % IPB := by
        intro hmod
        have hj := Nat.div_add_mod j IPB
        have hi := Nat.div_add_mod i IPB
        rw [hsec, hmod] at hj
        exact hji (hj.symm.trans hi)
      rw [hsec, update_self, read_setWords_of_ne hne]
    · rw [update_of_ne (by omega)]

/-! ### What is on the image -/

/-- What an inode is: its type and links, its blocks with the indirect one, and its content. -/
structure Desc where
  type : ℕ
  nlink : ℕ
  blocks : List ℕ
  ind : ℕ
  content : List UInt8

/-- A new inode. -/
def Desc.empty (type nlink : ℕ) : Desc := ⟨type, nlink, [], 0, []⟩

def Desc.Uses (f : Desc) (b : ℕ) : Prop := b ∈ f.blocks ∨ (f.ind ≠ 0 ∧ b = f.ind)

/-- **The inode is described** by `f`, on the sectors `S`. -/
structure Described (S : ℕ → Block) (free i : ℕ) (f : Desc) : Prop where
  head : inode S i = ⟨f.type, 0, 0, f.nlink, f.content.length, (inode S i).addrs⟩
  type_lt : f.type < 2 ^ 16
  nlink_lt : f.nlink < 2 ^ 16
  layout : Layout S free (inode S i) f.blocks f.ind
  holds : Holds S f.blocks f.content
  length_eq : f.blocks.length = ceilBlocks f.content.length

/-- **All inodes before the data blocks are described**, and no two of them share a block. -/
structure Built (m : Mk) (desc : ℕ → Desc) : Prop where
  inodes : ∀ i, i < maxInode → Described m.img m.freeblock i (desc i)
  disjoint : ∀ i j, i < maxInode → j < maxInode → i ≠ j →
    ∀ b, (desc i).Uses b → ¬ (desc j).Uses b
  fresh : ∀ b, m.freeblock ≤ b → m.img b = .zero
  meta_le : nmeta ≤ m.freeblock
  le : m.freeblock ≤ FSSIZE

section Built

variable {s s' : Mk} {desc : ℕ → Desc} {S S' : ℕ → Block} {free free' i j : ℕ} {f : Desc}
  {d : Dinode} {E : Prop}

theorem Described.uses_range (h : Described S free i f) {b : ℕ} (hb : f.Uses b) :
    nmeta ≤ b ∧ b < free := by
  rcases hb with hb | ⟨hne, rfl⟩
  · exact h.layout.range b hb
  · exact ⟨(h.layout.indRange hne).1, (h.layout.indRange hne).2.1⟩

theorem Described.getD_mem (h : Described S free i f) {x : ℕ} (hx : x < f.content.length) :
    f.blocks.getD (x / BSIZE) 0 ∈ f.blocks := by
  have hlt : x / BSIZE < f.blocks.length := by
    rw [h.length_eq]
    change x / 512 < (f.content.length + 512 - 1) / 512
    omega
  rw [List.getD_eq_getElem _ _ hlt]
  exact List.getElem_mem hlt

/-- An inode stays described when neither it nor its blocks change. -/
theorem Described.frame (h : Described S free i f) (hfree : free ≤ free')
    (hinode : inode S' i = inode S i) (hS : ∀ b, f.Uses b → S' b = S b) :
    Described S' free' i f := by
  refine ⟨by rw [hinode]; exact h.head, h.type_lt, h.nlink_lt, ?_, fun x hx => ?_, h.length_eq⟩
  · rw [hinode]
    exact h.layout.frame hfree fun hne => hS _ (.inr ⟨hne, rfl⟩)
  · rw [hS _ (.inl (h.getD_mem hx))]
    exact h.holds x hx

/-- A new inode is described. -/
theorem described_empty {type nlink : ℕ} (htype : type < 2 ^ 16) (hnlink : nlink < 2 ^ 16)
    (h : inode S i = ⟨type, 0, 0, nlink, 0, fun _ => 0⟩) :
    Described S free i (.empty type nlink) := by
  refine ⟨by rw [h]; rfl, htype, hnlink, ?_, fun x hx => absurd hx (Nat.not_lt_zero x),
    (by decide : 0 = ceilBlocks 0)⟩
  rw [h]
  exact ⟨Nat.zero_le _, fun _ _ => rfl, rfl, fun _ _ => rfl, iff_of_true rfl (Nat.zero_le _),
    fun hne => absurd rfl hne, nofun, fun hne => absurd rfl hne, List.nodup_nil⟩

/-- The inode of a file is in the ranges of its fields. -/
theorem small_of_layout {type nlink : ℕ} {blocks : List ℕ} {ind n : ℕ} (htype : type < 2 ^ 16)
    (hnlink : nlink < 2 ^ 16) (h : Layout S free d blocks ind) (hfree : free < 2 ^ 32)
    (hlen : blocks.length = ceilBlocks n) : Dinode.Small ⟨type, 0, 0, nlink, n, d.addrs⟩ := by
  have hshort := h.short
  rw [hlen] at hshort
  change (n + 512 - 1) / 512 ≤ 140 at hshort
  exact ⟨htype, Nat.two_pow_pos 16, Nat.two_pow_pos 16, hnlink, (by omega : n < 2 ^ 32),
    h.addrs_lt hfree, h.rest⟩

/-! ### Inodes are allocated and appended to -/

/-- The sectors after an inode was written. -/
def writeInode (S : ℕ → Block) (i : ℕ) (d : Dinode) : ℕ → Block :=
  Function.update S (i / IPB + inodestart)
    ((S (i / IPB + inodestart)).setWords (16 * (i % IPB)) d.words)

theorem inode_writeInode (hd : d.Small) :
    inode (writeInode S i d) j = if j = i then d else inode S j := inode_update hd

theorem writeInode_of_ge (hi : i < maxInode) {b : ℕ} (hb : nmeta ≤ b) : writeInode S i d b = S b :=
  update_of_ne ((inode_sector_lt hi).trans_le hb).ne' _ _

theorem meets_rinode {Q : Dinode → Mk → Prop} (hi : i < maxInode) :
    Meets (rinode i) s Q E ↔ Q (inode s.img i) s := by
  have hlt := inode_sector_lt hi
  have hc := consts
  unfold Meets rinode rsect
  rw [Nat.mod_eq_of_lt (by omega : i / IPB + inodestart < 2 ^ 23), StateT.bind_of_ok (t := s)
    (a := s.img (i / IPB + inodestart))]
  · rfl
  · rw [StateT.get_bind, if_pos (by omega)]
    rfl

theorem meets_winode {Q : Unit → Mk → Prop} (hi : i < maxInode) :
    Meets (winode i d) s Q E ↔ Q () ⟨writeInode s.img i d, s.freeinode, s.freeblock⟩ := by
  have hlt := inode_sector_lt hi
  have hc := consts
  unfold Meets winode rsect wsect
  rw [Nat.mod_eq_of_lt (by omega : i / IPB + inodestart < 2 ^ 23), StateT.bind_of_ok (t := s)
    (a := s.img (i / IPB + inodestart))]
  · rfl
  · rw [StateT.get_bind, if_pos (by omega)]
    rfl

/-- **`ialloc`** hands out the next inode. -/
theorem ialloc_spec {type : ℕ} (h : Built s desc) (htype : type < 2 ^ 16)
    (hi : s.freeinode < maxInode) :
    Meets (ialloc type) s (fun i s' => i = s.freeinode ∧ s'.freeinode = s.freeinode + 1 ∧
      s'.freeblock = s.freeblock ∧ Built s' (update desc i (.empty type 1))) E := by
  have hsmall : Dinode.Small ⟨type, 0, 0, 1, 0, fun _ => 0⟩ :=
    ⟨htype, by simp, by simp, by simp, by simp, fun _ => by simp, fun _ _ => rfl⟩
  show Meets (winode s.freeinode _ >>= fun _ => pure s.freeinode)
    { s with freeinode := s.freeinode + 1 } _ E
  rw [meets_bind, meets_winode hi, meets_pure]
  refine ⟨rfl, rfl, rfl, fun j hj => ?_, fun j k hj hk hne b => ?_, fun b hb => ?_, h.meta_le, h.le⟩
  · by_cases hji : j = s.freeinode
    · subst hji
      rw [update_self]
      exact described_empty htype (by decide) (by rw [inode_writeInode hsmall, if_pos rfl])
    · rw [update_of_ne hji]
      refine (h.inodes j hj).frame le_rfl (by rw [inode_writeInode hsmall, if_neg hji]) ?_
      exact fun b hb => writeInode_of_ge hi ((h.inodes j hj).uses_range hb).1
  · have huses : ∀ j, (update desc s.freeinode (.empty type 1) j).Uses b → (desc j).Uses b := by
      intro j hb
      by_cases hji : j = s.freeinode
      · rw [hji, update_self] at hb
        rcases hb with hb | ⟨hne, -⟩
        · exact absurd hb List.not_mem_nil
        · exact absurd rfl hne
      · rwa [update_of_ne hji] at hb
    exact fun hb hb' => h.disjoint j k hj hk hne b (huses j hb) (huses k hb')
  · exact (writeInode_of_ge hi (h.meta_le.trans hb)).trans (h.fresh b hb)

/-- **`iappend`** appends to the content of an inode, if the bytes fit. -/
theorem iappend_spec {p : List UInt8} (h : Built s desc) (hi : i < maxInode)
    (hE : MAXFILE * BSIZE < (desc i).content.length + p.length ∨
      FSSIZE + cost (ceilBlocks (desc i).content.length) <
        s.freeblock + cost (ceilBlocks ((desc i).content.length + p.length)) → E) :
    Meets (iappend i p) s (fun _ s' => ∃ f, f.type = (desc i).type ∧ f.nlink = (desc i).nlink ∧
      f.content = (desc i).content ++ p ∧ Built s' (update desc i f) ∧
      s'.freeinode = s.freeinode ∧
      s'.freeblock + cost (ceilBlocks (desc i).content.length) =
        s.freeblock + cost (ceilBlocks ((desc i).content.length + p.length))) E := by
  have hc := consts
  have hd := h.inodes i hi
  have hsize : (inode s.img i).size = (desc i).content.length := by rw [hd.head]
  unfold iappend
  rw [meets_bind, meets_rinode hi, meets_bind, hsize]
  refine (iappendLoop_spec le_rfl hd.layout h.fresh h.meta_le h.le hd.holds hd.length_eq
    (by rw [hd.length_eq]; exact hE)).mono ?_
  rintro ⟨din, off⟩ s₁ ⟨hoff, blocks, ind, hgrown, hholds, hlen, hfree⟩
  simp only at hoff hgrown ⊢
  rw [meets_winode hi]
  have htaken := hgrown.taken
  rw [hd.length_eq, hlen, List.length_append] at htaken
  refine ⟨⟨(desc i).type, (desc i).nlink, blocks, ind, (desc i).content ++ p⟩, rfl, rfl, rfl, ?_,
    hgrown.freeinode, htaken⟩
  -- The inodes are not among the blocks that changed.
  have hinode : ∀ j, j < maxInode → inode s₁.img j = inode s.img j := by
    intro j hj
    have hlt := inode_sector_lt hj
    unfold inode
    rw [hgrown.frame _ (hlt.trans_le h.meta_le)]
    · intro heq
      have hpos : 0 < inodestart := by decide
      have hne : (desc i).ind ≠ 0 := heq ▸ (Nat.add_pos_right _ hpos).ne'
      exact absurd (hd.layout.indRange hne).1 (not_le.mpr (heq ▸ hlt))
    · intro hmem
      exact absurd (hd.layout.range _ hmem).1 (not_le.mpr hlt)
  have hdin : ({ din with size := off } : Dinode) =
      ⟨(desc i).type, 0, 0, (desc i).nlink, ((desc i).content ++ p).length, din.addrs⟩ := by
    rw [hgrown.same, hd.head, hoff]
  rw [hdin]
  have hsmall := small_of_layout hd.type_lt hd.nlink_lt hgrown.layout (by omega) hlen
  have huses : ∀ b, (⟨(desc i).type, (desc i).nlink, blocks, ind,
      (desc i).content ++ p⟩ : Desc).Uses b →
      (desc i).Uses b ∨ s.freeblock ≤ b := by
    rintro b (hb | ⟨hne, rfl⟩)
    · obtain ⟨new, rfl, hnew⟩ := hgrown.begins
      rcases List.mem_append.mp hb with hb | hb
      · exact .inl (.inl hb)
      · exact .inr (hnew b hb)
    · rcases hgrown.indSame with hsame | ⟨-, hge⟩
      · exact .inl (.inr ⟨hsame ▸ hne, hsame⟩)
      · exact .inr hge
  have hother : ∀ j, j < maxInode → j ≠ i → ∀ b, (desc j).Uses b → ¬ (desc i).Uses b :=
    fun j hj hne =>
    h.disjoint j i hj hi hne
  refine ⟨fun j hj => ?_, fun j k hj hk hne b hb hb' => ?_, fun b hb => ?_,
    h.meta_le.trans hgrown.le, hfree⟩
  · by_cases hji : j = i
    · subst hji
      have hnew : inode (writeInode s₁.img j ⟨(desc j).type, 0, 0, (desc j).nlink,
          ((desc j).content ++ p).length, din.addrs⟩) j = ⟨(desc j).type, 0, 0, (desc j).nlink,
          ((desc j).content ++ p).length, din.addrs⟩ := by rw [inode_writeInode hsmall, if_pos rfl]
      rw [update_self]
      refine ⟨by rw [hnew], hd.type_lt, hd.nlink_lt, ?_, fun x hx => ?_, hlen⟩
      · have hlayout : Layout s₁.img s₁.freeblock ⟨(desc j).type, 0, 0, (desc j).nlink,
            ((desc j).content ++ p).length, din.addrs⟩ blocks ind := hgrown.layout.congr rfl
        rw [hnew]
        exact hlayout.frame le_rfl fun hne => writeInode_of_ge hi (hgrown.layout.indRange hne).1
      · refine (congrFun (writeInode_of_ge hi ?_) _).trans (hholds x hx)
        have hlt : x / BSIZE < blocks.length := by
          rw [hlen]
          change x / 512 < (((desc j).content ++ p).length + 512 - 1) / 512
          have hx : x < ((desc j).content ++ p).length := hx
          omega
        show nmeta ≤ blocks.getD (x / BSIZE) 0
        rw [List.getD_eq_getElem _ _ hlt]
        exact (hgrown.layout.range _ (List.getElem_mem hlt)).1
    · rw [update_of_ne hji]
      refine (h.inodes j hj).frame hgrown.le
        (by rw [inode_writeInode hsmall, if_neg hji, hinode j hj])
        fun b hb => ?_
      obtain ⟨hge, hlt⟩ := (h.inodes j hj).uses_range hb
      have hnot := hother j hj hji b hb
      refine (writeInode_of_ge hi hge).trans (hgrown.frame b hlt (fun heq => ?_) fun hmem => ?_)
      · exact hnot (.inr ⟨by omega, heq⟩)
      · exact hnot (.inl hmem)
  · by_cases hji : j = i
    · subst hji
      rw [update_self] at hb
      rw [update_of_ne (Ne.symm hne)] at hb'
      rcases huses b hb with hb | hb
      · exact h.disjoint j k hj hk hne b hb hb'
      · exact absurd ((h.inodes k hk).uses_range hb').2 (not_lt.mpr hb)
    · rw [update_of_ne hji] at hb
      by_cases hki : k = i
      · subst hki
        rw [update_self] at hb'
        rcases huses b hb' with hb' | hb'
        · exact h.disjoint j k hj hk hne b hb hb'
        · exact absurd ((h.inodes j hj).uses_range hb).2 (not_lt.mpr hb')
      · rw [update_of_ne hki] at hb'
        exact h.disjoint j k hj hk hne b hb hb'
  · exact (writeInode_of_ge hi (h.meta_le.trans (hgrown.le.trans hb))).trans (hgrown.fresh b hb)

theorem ceilBlocks_mono {m n : ℕ} (h : m ≤ n) : ceilBlocks m ≤ ceilBlocks n :=
  Nat.div_le_div_right (by omega)

/-- The pieces of a file are appended one after the other, if they fit. -/
theorem iappends_spec {pieces : List (List UInt8)} (h : Built s desc) (hi : i < maxInode)
    (hE : MAXFILE * BSIZE < (desc i).content.length + pieces.flatten.length ∨
      FSSIZE + cost (ceilBlocks (desc i).content.length) <
        s.freeblock + cost (ceilBlocks ((desc i).content.length + pieces.flatten.length)) → E) :
    Meets (pieces.forM (iappend i)) s (fun _ s' => ∃ f, f.type = (desc i).type ∧
      f.nlink = (desc i).nlink ∧ f.content = (desc i).content ++ pieces.flatten ∧
      Built s' (update desc i f) ∧ s'.freeinode = s.freeinode ∧
      s'.freeblock + cost (ceilBlocks (desc i).content.length) =
        s.freeblock + cost (ceilBlocks ((desc i).content.length + pieces.flatten.length))) E := by
  induction pieces generalizing s desc with
  | nil =>
    refine ⟨desc i, rfl, rfl, (List.append_nil _).symm, ?_, rfl, rfl⟩
    rwa [update_eq_self]
  | cons piece pieces ih =>
    rw [List.flatten_cons, List.length_append] at hE
    show Meets (iappend i piece >>= fun _ => pieces.forM (iappend i)) s _ E
    rw [meets_bind]
    refine (iappend_spec h hi fun hno => hE ?_).mono ?_
    · have hmono := cost_mono (ceilBlocks_mono (m := (desc i).content.length + piece.length)
        (n := (desc i).content.length + (piece.length + pieces.flatten.length)) (by omega))
      exact hno.imp (by omega) (by omega)
    · rintro - s₁ ⟨f, htype, hnlink, hcontent, hbuilt, hinode, hblock⟩
      have hf : update desc i f i = f := update_self ..
      have hlen : f.content.length = (desc i).content.length + piece.length := by
        rw [hcontent, List.length_append]
      refine (ih hbuilt ?_).mono ?_
      · rw [hf, hlen, Nat.add_assoc]
        exact fun hno => hE (hno.imp_right (by omega))
      · rintro - s₂ ⟨f', htype', hnlink', hcontent', hbuilt', hinode', hblock'⟩
        rw [hf] at htype' hnlink' hcontent' hblock'
        rw [update_idem] at hbuilt'
        refine ⟨f', htype'.trans htype, hnlink'.trans hnlink, ?_, hbuilt', hinode'.trans hinode, ?_⟩
        · rw [hcontent', hcontent, List.append_assoc, List.flatten_cons]
        · rw [hlen, Nat.add_assoc] at hblock'
          rw [List.flatten_cons, List.length_append]
          omega

end Built

/-! ### The files one after the other -/

/-- The bytes of a file. -/
def HostFile.bytes (f : HostFile) : List UInt8 := (f.pieces.getD []).flatten

/-- The entry of a file in the root directory. -/
def HostFile.entry (f : HostFile) (inum : ℕ) : List UInt8 :=
  Dirent.encode ⟨inum, strncpy f.target DIRSIZ⟩

/-- The entries of files whose inodes begin with `inum`. -/
def entries : ℕ → List HostFile → List UInt8
  | _, [] => []
  | inum, f :: fs => f.entry inum ++ entries (inum + 1) fs

/-- The content of the root directory. -/
def rootContent (files : List HostFile) : List UInt8 :=
  Dirent.encode ⟨ROOTINO, strncpy dot DIRSIZ⟩ ++ Dirent.encode ⟨ROOTINO, strncpy dotdot DIRSIZ⟩ ++
    entries 2 files

theorem length_entry (f : HostFile) (inum : ℕ) : (f.entry inum).length = 16 :=
  Dirent.length_encode length_strncpy

theorem length_entries (inum : ℕ) (files : List HostFile) :
    (entries inum files).length = 16 * files.length := by
  induction files generalizing inum with
  | nil => rfl
  | cons f fs ih =>
    rw [entries, List.length_append, length_entry, ih, List.length_cons]
    omega

theorem length_rootContent (files : List HostFile) :
    (rootContent files).length = 16 * (files.length + 2) := by
  rw [rootContent, List.length_append, List.length_append, length_entries,
    Dirent.length_encode length_strncpy, Dirent.length_encode length_strncpy]
  omega

theorem entries_append (inum : ℕ) (files : List HostFile) (f : HostFile) :
    entries inum (files ++ [f]) = entries inum files ++ f.entry (inum + files.length) := by
  induction files generalizing inum with
  | nil => simp [entries]
  | cons g fs ih =>
    rw [List.cons_append, entries, ih, entries, List.append_assoc, List.length_cons,
      show inum + 1 + fs.length = inum + (fs.length + 1) by omega]

theorem rootContent_append (files : List HostFile) (f : HostFile) :
    rootContent (files ++ [f]) = rootContent files ++ f.entry (files.length + 2) := by
  rw [rootContent, rootContent, entries_append, ← List.append_assoc, Nat.add_comm 2]

/-- The number of blocks that a file of `n` bytes takes. -/
def blocksFor (n : ℕ) : ℕ := cost (ceilBlocks n)

/-- The number of blocks that the files and the root directory take. -/
def needed (files : List HostFile) : ℕ :=
  blocksFor (16 * (files.length + 2)) + (files.map fun f => blocksFor f.bytes.length).sum

theorem needed_append (files : List HostFile) (f : HostFile) :
    needed (files ++ [f]) + blocksFor (16 * (files.length + 2)) =
      needed files + blocksFor (16 * (files.length + 3)) + blocksFor f.bytes.length := by
  simp only [needed, List.length_append, List.length_singleton, List.map_append, List.sum_append,
    List.map_cons, List.map_nil, List.sum_singleton]
  have hlen : files.length + 1 + 2 = files.length + 3 := rfl
  rw [hlen]
  omega

theorem blocksFor_mono {m n : ℕ} (h : m ≤ n) : blocksFor m ≤ blocksFor n :=
  cost_mono (ceilBlocks_mono h)

/-- **The image after some files.** -/
structure Progress (m : Mk) (files : List HostFile) (desc : ℕ → Desc) : Prop where
  built : Built m desc
  freeinode : m.freeinode = files.length + 2
  freeblock : m.freeblock = nmeta + needed files
  rootType : (desc ROOTINO).type = T_DIR
  root : (desc ROOTINO).content = rootContent files
  file : ∀ k f, files[k]? = some f →
    (desc (k + 2)).type = T_FILE ∧ (desc (k + 2)).nlink = 1 ∧ (desc (k + 2)).content = f.bytes
  rest : ∀ i, i ≠ ROOTINO → i < 2 ∨ files.length + 2 ≤ i → desc i = .empty 0 0

/-- Why a file is not accepted. -/
def Refused (files : List HostFile) (f : HostFile) : Prop :=
  47 ∈ f.name ∨ f.pieces = none ∨ MAXFILE * BSIZE < f.bytes.length ∨
    FSSIZE < nmeta + needed (files ++ [f])

section Files

variable {s : Mk} {desc : ℕ → Desc} {files : List HostFile} {f : HostFile} {E : Prop}

/-- **One more file.** -/
theorem addFile_spec (h : Progress s files desc) (hn : files.length + 2 < maxInode)
    (hE : Refused files f → E) :
    Meets (addFile f) s (fun _ s' => ∃ desc', Progress s' (files ++ [f]) desc') E := by
  unfold addFile
  by_cases hslash : 47 ∈ f.name
  · rw [if_pos hslash]
    exact hE (.inl hslash)
  rw [if_neg hslash]
  cases hpieces : f.pieces with
  | none => exact hE (.inr (.inl hpieces))
  | some pieces =>
    have hbytes : f.bytes = pieces.flatten := by rw [HostFile.bytes, hpieces, Option.getD_some]
    have hneeded := needed_append files f
    have hfree := h.freeblock
    have hroot : ROOTINO ≠ files.length + 2 := by
      change 1 ≠ files.length + 2
      omega
    show Meets (ialloc T_FILE >>= fun inum => iappend ROOTINO (f.entry inum) >>= fun _ =>
      pieces.forM (iappend inum)) s _ E
    rw [meets_bind]
    refine (ialloc_spec h.built (by decide) (h.freeinode ▸ hn)).mono ?_
    rintro i s₁ ⟨rfl, hinode₁, hblock₁, hbuilt₁⟩
    rw [h.freeinode] at hinode₁ hbuilt₁ ⊢
    have hcontent₁ : (update desc (files.length + 2) (.empty T_FILE 1) ROOTINO).content =
        rootContent files := by rw [update_of_ne hroot, h.root]
    have hlen : (rootContent files).length + (f.entry (files.length + 2)).length =
        16 * (files.length + 3) := by
      rw [length_rootContent, length_entry]
      omega
    rw [meets_bind]
    refine (iappend_spec hbuilt₁ (by decide) ?_).mono ?_
    · rw [hcontent₁, hlen, length_rootContent, hblock₁]
      intro hno
      refine hE (.inr (.inr (.inr ?_)))
      rcases hno with hno | hno
      · have hn : files.length + 2 < 216 := hn
        change 140 * 512 < _ at hno
        omega
      · change FSSIZE + blocksFor _ < s.freeblock + blocksFor _ at hno
        omega
    · rintro - s₂ ⟨root, htype₂, hnlink₂, hcontent₂, hbuilt₂, hinode₂, hblock₂⟩
      rw [hcontent₁, hlen, length_rootContent, hblock₁] at hblock₂
      rw [hcontent₁] at hcontent₂
      rw [update_of_ne hroot] at htype₂
      change s₂.freeblock + blocksFor _ = s.freeblock + blocksFor _ at hblock₂
      set desc₂ := update (update desc (files.length + 2) (.empty T_FILE 1)) ROOTINO
        root with hdesc₂
      have hfile₂ : desc₂ (files.length + 2) = .empty T_FILE 1 := by
        rw [hdesc₂, update_of_ne hroot.symm, update_self]
      have hzero : cost (ceilBlocks 0) = 0 := by decide
      refine (iappends_spec hbuilt₂ hn ?_).mono ?_
      · rw [hfile₂]
        show MAXFILE * BSIZE < 0 + pieces.flatten.length ∨ FSSIZE + cost (ceilBlocks 0) <
          s₂.freeblock + blocksFor (0 + pieces.flatten.length) → E
        rw [Nat.zero_add, ← hbytes, hzero]
        refine fun hno => hE (.inr (.inr (hno.imp_right fun hno => ?_)))
        omega
      · rintro - s₃ ⟨file, htype₃, hnlink₃, hcontent₃, hbuilt₃, hinode₃, hblock₃⟩
        rw [hfile₂] at htype₃ hnlink₃ hcontent₃ hblock₃
        change s₃.freeblock + cost (ceilBlocks 0) = s₂.freeblock +
          blocksFor (0 + pieces.flatten.length)
          at hblock₃
        rw [Nat.zero_add, ← hbytes, hzero] at hblock₃
        have hother : ∀ i, i ≠ ROOTINO → i ≠ files.length + 2 →
            update desc₂ (files.length + 2) file i = desc i := by
          intro i hi hi'
          rw [update_of_ne hi', hdesc₂, update_of_ne hi, update_of_ne hi']
        have hroot₃ : update desc₂ (files.length + 2) file ROOTINO = root := by
          rw [update_of_ne hroot, hdesc₂, update_self]
        refine ⟨_, hbuilt₃, ?_, by omega, ?_, ?_, fun k g hg => ?_, fun i hi hout => ?_⟩
        · rw [hinode₃, hinode₂, hinode₁, List.length_append, List.length_singleton]
        · rw [hroot₃, htype₂, h.rootType]
        · rw [hroot₃, hcontent₂, rootContent_append]
        · by_cases hk : k < files.length
          · rw [List.getElem?_append_left hk] at hg
            have hne : k + 2 ≠ ROOTINO := by
              change k + 2 ≠ 1
              omega
            rw [hother (k + 2) hne (by omega)]
            exact h.file k g hg
          · rw [List.getElem?_append_right (not_lt.mp hk), List.getElem?_singleton] at hg
            split_ifs at hg with hk'
            obtain rfl : k = files.length := by omega
            cases hg
            rw [update_self]
            exact ⟨htype₃, hnlink₃, hcontent₃.trans (by rw [hbytes]; rfl)⟩
        · rw [List.length_append, List.length_singleton] at hout
          rw [hother i hi (by omega)]
          exact h.rest i hi (by omega)

/-- **Any number of files**, as long as the inodes fit. -/
theorem addFiles_spec {new : List HostFile} (h : Progress s files desc)
    (hn : files.length + new.length + 1 < maxInode)
    (hE : (∃ before f after, new = before ++ f :: after ∧ Refused (files ++ before) f) → E) :
    Meets (new.forM addFile) s (fun _ s' => ∃ desc', Progress s' (files ++ new) desc') E := by
  induction new generalizing s desc files with
  | nil =>
    rw [List.append_nil]
    exact ⟨desc, h⟩
  | cons f new ih =>
    rw [List.length_cons] at hn
    show Meets (addFile f >>= fun _ => new.forM addFile) s _ E
    rw [meets_bind]
    refine (addFile_spec h (by omega) fun hno => hE ⟨[], f, new, rfl, ?_⟩).mono ?_
    · rwa [List.append_nil]
    · rintro - s₁ ⟨desc₁, h₁⟩
      have hlen : (files ++ [f]).length = files.length + 1 := by simp
      rw [show files ++ f :: new = (files ++ [f]) ++ new by simp]
      refine ih h₁ (by omega) ?_
      rintro ⟨before, g, after, rfl, hno⟩
      refine hE ⟨f :: before, g, after, rfl, ?_⟩
      rwa [List.append_assoc] at hno

/-! ### The root directory -/

theorem built_blank : Built blank fun _ => .empty 0 0 := by
  have hc := consts
  have hzero : ∀ sec, sec ≠ 1 → blank.img sec = .zero := fun sec hsec => by
    show update (fun _ => Block.zero) 1 _ sec = .zero
    rw [update_of_ne hsec]
  refine ⟨fun i hi => described_empty (by decide) (by decide) ?_, fun i j _ _ _ b hb => ?_,
    fun b hb => hzero b ?_, le_rfl, by decide⟩
  · have hne : i / IPB + inodestart ≠ 1 := by
      change i / 8 + 32 ≠ 1
      omega
    have hsec : blank.img (i / IPB + inodestart) = .zero := hzero _ hne
    rw [inode, hsec]
    simp [Dinode.read]
  · rcases hb with hb | ⟨hne, -⟩
    · exact absurd hb List.not_mem_nil
    · exact absurd rfl hne
  · have hb : nmeta ≤ b := hb
    omega

/-- **The root directory is made.** -/
theorem makeRoot_spec : Meets makeRoot blank (fun _ s => ∃ desc, Progress s [] desc) E := by
  have hdot : ∀ t, (Dirent.encode ⟨ROOTINO, strncpy t DIRSIZ⟩).length = 16 := fun t =>
    Dirent.length_encode length_strncpy
  have hfew : MAXFILE * BSIZE = 71680 ∧ cost (ceilBlocks 0) = 0 ∧ cost (ceilBlocks 16) = 1 ∧
    cost (ceilBlocks 32) = 1 ∧ blank.freeblock = 59 ∧ FSSIZE = 1000 := by decide
  unfold makeRoot
  rw [meets_bind]
  refine (ialloc_spec built_blank (by decide) (by decide)).mono ?_
  rintro i s₁ ⟨rfl, hinode₁, hblock₁, hbuilt₁⟩
  show Meets (iappend ROOTINO (Dirent.encode ⟨ROOTINO, strncpy dot DIRSIZ⟩) >>= fun _ =>
    iappend ROOTINO (Dirent.encode ⟨ROOTINO, strncpy dotdot DIRSIZ⟩)) s₁ _ E
  change Built s₁ (update _ ROOTINO _) at hbuilt₁
  set desc₁ : ℕ → Desc := update (fun _ => .empty 0 0) ROOTINO (.empty T_DIR 1) with hdesc₁
  rw [meets_bind]
  refine (iappend_spec hbuilt₁ (by decide) ?_).mono ?_
  · show MAXFILE * BSIZE < 0 + 16 ∨ FSSIZE + cost (ceilBlocks 0) <
      s₁.freeblock + cost (ceilBlocks 16) → E
    omega
  rintro - s₂ ⟨root₂, htype₂, hnlink₂, hcontent₂, hbuilt₂, hinode₂, hblock₂⟩
  change s₂.freeblock + cost (ceilBlocks 0) = s₁.freeblock + cost (ceilBlocks 16) at hblock₂
  change root₂.content = Dirent.encode ⟨ROOTINO, strncpy dot DIRSIZ⟩ at hcontent₂
  have hroot₂ : update desc₁ ROOTINO root₂ ROOTINO = root₂ := update_self ..
  refine (iappend_spec hbuilt₂ (by decide) ?_).mono ?_
  · rw [hroot₂, hcontent₂, hdot, hdot]
    show MAXFILE * BSIZE < 16 + 16 ∨ FSSIZE + cost (ceilBlocks 16) <
      s₂.freeblock + cost (ceilBlocks 32) → E
    omega
  rintro - s₃ ⟨root₃, htype₃, hnlink₃, hcontent₃, hbuilt₃, hinode₃, hblock₃⟩
  rw [hroot₂, hcontent₂, hdot, hdot] at hblock₃
  change s₃.freeblock + cost (ceilBlocks 16) = s₂.freeblock + cost (ceilBlocks 32) at hblock₃
  rw [hroot₂] at htype₃ hcontent₃
  have hroot₃ : update (update desc₁ ROOTINO root₂) ROOTINO root₃ ROOTINO = root₃ :=
    update_self ..
  have hneeded : nmeta + needed [] = 60 := by decide
  refine ⟨_, hbuilt₃, ?_, by omega, ?_, ?_, nofun, fun i hi _ => ?_⟩
  · rw [hinode₃, hinode₂, hinode₁]
    rfl
  · rw [hroot₃, htype₃, htype₂]
    rfl
  · rw [hroot₃, hcontent₃, hcontent₂]
    exact (List.append_nil _).symm
  · rw [update_of_ne hi, update_of_ne hi, hdesc₁, update_of_ne hi]

/-- The image after `finish`. -/
def finished (s : Mk) : ℕ → Block :=
  Function.update (writeInode s.img ROOTINO { inode s.img ROOTINO with
    size := ((inode s.img ROOTINO).size / BSIZE + 1) * BSIZE }) bmapstart (bitmapBlock s.freeblock)

theorem finish_spec (h : s.freeblock ≤ FSSIZE) :
    Meets finish s (fun _ s' => s'.img = finished s) E := by
  have hc := consts
  show Meets (balloc s.freeblock) _ _ E
  unfold balloc
  rw [if_neg (by omega)]
  show Meets (wsect bmapstart (bitmapBlock s.freeblock)) _ _ E
  rfl

end Files

/-! ### The images -/

section Images

variable {files : List HostFile} {img : ℕ → Block} {E : Prop}

/-- **`main`**, as long as no inode reaches behind the bitmap. -/
theorem build_spec (hn : files.length + 1 < maxInode)
    (hE : (∃ before f after, files = before ++ f :: after ∧ Refused before f) → E) :
    Meets (build files) blank
      (fun _ s' => ∃ s desc, Progress s files desc ∧ s'.img = finished s) E := by
  unfold build
  rw [meets_bind]
  refine makeRoot_spec.mono ?_
  rintro - s₁ ⟨desc₁, h₁⟩
  rw [meets_bind]
  refine (addFiles_spec h₁ (by rwa [List.length_nil, Nat.zero_add]) hE).mono ?_
  rintro - s₂ ⟨desc₂, h₂⟩
  exact (finish_spec h₂.built.le).mono fun _ s' himg => ⟨s₂, desc₂, h₂, himg⟩

/-- An image that `mkfs` wrote. -/
theorem mkfs_cases {Q : (ℕ → Block) → Prop} (h : mkfs files = .ok img)
    (hQ : Meets (build files) blank (fun _ s' => Q s'.img) True) : Q img := by
  unfold Meets at hQ
  unfold mkfs at h
  cases hbuild : build files blank with
  | error e => rw [hbuild] at h; cases h
  | ok x =>
    rw [hbuild] at h hQ
    cases h
    exact hQ

theorem needed_le (before after : List HostFile) (f : HostFile) :
    needed (before ++ [f]) ≤ needed (before ++ f :: after) := by
  have hmono := blocksFor_mono (m := 16 * (before.length + 1 + 2))
    (n := 16 * (before.length + (after.length + 1) + 2)) (by omega)
  simp only [needed, List.length_append, List.length_cons, List.length_nil, List.map_append,
    List.map_cons, List.map_nil, List.sum_append, List.sum_cons, List.sum_nil, Nat.zero_add]
  omega

/-- **`mkfs` accepts the files** that it can open, if there are blocks for them. -/
theorem mkfs_accepts (hn : files.length + 1 < maxInode)
    (hfiles : ∀ f ∈ files, 47 ∉ f.name ∧ f.pieces ≠ none ∧ f.bytes.length ≤ MAXFILE * BSIZE)
    (hfit : nmeta + needed files ≤ FSSIZE) :
    ∃ s desc, Progress s files desc ∧ mkfs files = .ok (finished s) := by
  have hbuild := build_spec (E := False) hn (by
    rintro ⟨before, f, after, rfl, hno⟩
    obtain ⟨hname, hopen, hlen⟩ := hfiles f (by simp)
    have hle := needed_le before after f
    rcases hno with hno | hno | hno | hno
    · exact hname hno
    · exact hopen hno
    · exact absurd hno (not_lt.mpr hlen)
    · omega)
  unfold Meets at hbuild
  cases hrun : build files blank with
  | error e =>
    rw [hrun] at hbuild
    exact hbuild.elim
  | ok x =>
    rw [hrun] at hbuild
    obtain ⟨s, desc, h, himg⟩ := hbuild
    refine ⟨s, desc, h, ?_⟩
    rw [mkfs, hrun, ← himg]
    rfl

end Images

end Xv6.Mkfs
