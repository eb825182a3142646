import CS450.Fs.Chunk
import CS450.Fs.Dir

/-!
# The builder of file systems

`mkfs.c`, which writes the disk image: an image is its sectors, and inodes, indirect blocks and the
bitmap are bytes in them. Inodes and blocks are handed out in order, and `iappend` has a block
mapping of its own.

`mkfs` gives up when an assertion fails, when a file cannot be opened, or when it reads a sector
behind the end of the image; the size of the image is fixed from the beginning, since a sector is
always read before it is written. It does not check that the inode numbers fit into the inode
blocks.
-/

namespace Xv6.Mkfs

open Function (update update_apply update_of_ne update_self)
open Fs

/-! ### The program -/

abbrev NINODES : ℕ := 200

abbrev nlog : ℕ := 30

abbrev ninodeblocks : ℕ := NINODES / IPB + 1

abbrev nbitmap : ℕ := FSSIZE / (BSIZE * 8) + 1

/-- The number of blocks before the data blocks. -/
abbrev nmeta : ℕ := 2 + nlog + ninodeblocks + nbitmap

abbrev nblocks : ℕ := FSSIZE - nmeta

abbrev inodestart : ℕ := 2 + nlog

abbrev bmapstart : ℕ := 2 + nlog + ninodeblocks

abbrev T_DIR : ℕ := 1

abbrev T_FILE : ℕ := 2

/-- Why `mkfs` gives up. -/
inductive Exit
  /-- `assert` -/
  | assertion
  /-- a file cannot be opened -/
  | openFailed
  /-- a sector is behind the end of the image -/
  | shortRead
  deriving DecidableEq, Repr

/-- The sectors of the image, and the next inode and the next block. -/
structure Mk where
  img : ℕ → Block
  freeinode : ℕ
  freeblock : ℕ

/-- Computations on the image. -/
abbrev M := StateT Mk (Except Exit)

/-- `rsect`: the offset `sec * BSIZE` is of type `uint`. -/
def rsect (sec : ℕ) : M Block := do
  let m ← get
  if sec % 2 ^ 23 < FSSIZE then return m.img (sec % 2 ^ 23) else throw .shortRead

def wsect (sec : ℕ) (buf : Block) : M Unit :=
  modify fun m => { m with img := Function.update m.img (sec % 2 ^ 23) buf }

/-- `struct dinode`; the first four fields are of type `short`. -/
structure Dinode where
  type : ℕ
  major : ℕ
  minor : ℕ
  nlink : ℕ
  size : ℕ
  addrs : ℕ → ℕ

/-- The words of an inode. -/
def Dinode.words (d : Dinode) : List ℕ :=
  [d.type + 2 ^ 16 * d.major, d.minor + 2 ^ 16 * d.nlink, d.size] ++ (List.range 13).map d.addrs

/-- The `j`-th inode of a sector. -/
def Dinode.read (b : Block) (j : ℕ) : Dinode where
  type := b.word (16 * j) % 2 ^ 16
  major := b.word (16 * j) / 2 ^ 16
  minor := b.word (16 * j + 1) % 2 ^ 16
  nlink := b.word (16 * j + 1) / 2 ^ 16
  size := b.word (16 * j + 2)
  addrs k := if k ≤ NDIRECT then b.word (16 * j + 3 + k) else 0

def winode (inum : ℕ) (d : Dinode) : M Unit := do
  let bn := inum / IPB + inodestart
  let buf ← rsect bn
  wsect bn (buf.setWords (16 * (inum % IPB)) d.words)

def rinode (inum : ℕ) : M Dinode := do
  let buf ← rsect (inum / IPB + inodestart)
  return .read buf (inum % IPB)

def ialloc (type : ℕ) : M ℕ := do
  let m ← get
  set { m with freeinode := m.freeinode + 1 }
  winode m.freeinode ⟨type, 0, 0, 1, 0, fun _ => 0⟩
  return m.freeinode

/-- `freeblock++` -/
def nextBlock : M ℕ := do
  let m ← get
  set { m with freeblock := m.freeblock + 1 }
  return m.freeblock

def Dinode.setAddr (d : Dinode) (k b : ℕ) : Dinode :=
  { d with addrs := Function.update d.addrs k b }

/-- The block `fbn` of a file, allocated if there is none. -/
def blockFor (din : Dinode) (fbn : ℕ) : M (Dinode × ℕ) := do
  if fbn < NDIRECT then
    if din.addrs fbn = 0 then
      let b ← nextBlock
      return (din.setAddr fbn b, b)
    else return (din, din.addrs fbn)
  else
    let din ← if din.addrs NDIRECT = 0 then din.setAddr NDIRECT <$> nextBlock else pure din
    let indirect ← rsect (din.addrs NDIRECT)
    if indirect.word (fbn - NDIRECT) = 0 then
      let b ← nextBlock
      wsect (din.addrs NDIRECT) (indirect.setWord (fbn - NDIRECT) b)
      return (din, b)
    else return (din, indirect.word (fbn - NDIRECT))

/-- The loop of `iappend`, for at most `rounds` rounds: the inode and the offset after the last
byte. -/
def iappendLoop : ℕ → Dinode → ℕ → List UInt8 → M (Dinode × ℕ)
  | 0, din, off, _ => return (din, off)
  | rounds + 1, din, off, p => do
    if p = [] then return (din, off)
    let fbn := off / BSIZE
    if MAXFILE ≤ fbn then throw .assertion
    let (din, x) ← blockFor din fbn
    let n1 := min p.length ((fbn + 1) * BSIZE - off)
    let buf ← rsect x
    wsect x (buf.write (off - fbn * BSIZE) (p.take n1))
    iappendLoop rounds din (off + n1) (p.drop n1)

def iappend (inum : ℕ) (p : List UInt8) : M Unit := do
  let din ← rinode inum
  let (din, off) ← iappendLoop p.length din din.size p
  winode inum { din with size := off }

/-- The bitmap with the bits below `used` set. -/
def bitmapBlock (used : ℕ) : Block :=
  (List.range used).foldl
    (fun buf i => Function.update buf (i / 8) (buf (i / 8) ||| UInt8.ofNat (2 ^ (i % 8)))) .zero

def balloc (used : ℕ) : M Unit := do
  if BSIZE * 8 ≤ used then throw .assertion
  wsect bmapstart (bitmapBlock used)

/-- A file to be copied: its name, and the pieces that `read` returns one after the other, where it
can be opened. -/
structure HostFile where
  name : List UInt8
  pieces : Option (List (List UInt8))

/-- The name in the file system, without a leading `_`. -/
def HostFile.target (f : HostFile) : List UInt8 :=
  if f.name.headD 0 = 95 then f.name.tail else f.name

/-- One file. -/
def addFile (f : HostFile) : M Unit := do
  if 47 ∈ f.name then throw .assertion
  match f.pieces with
  | none => throw .openFailed
  | some pieces =>
    let inum ← ialloc T_FILE
    iappend ROOTINO (Dirent.encode ⟨inum, strncpy f.target DIRSIZ⟩)
    pieces.forM (iappend inum)

/-- The image before the first inode: zeros and the superblock. -/
def blank : Mk where
  img := Function.update (fun _ => .zero) 1
    (Block.zero.setWords 0 [FSSIZE, nblocks, NINODES, nlog, 2, inodestart, bmapstart])
  freeinode := 1
  freeblock := nmeta

/-- The root directory with its first two entries. -/
def makeRoot : M Unit := do
  let rootino ← ialloc T_DIR
  if rootino ≠ ROOTINO then throw .assertion
  iappend rootino (Dirent.encode ⟨rootino, strncpy dot DIRSIZ⟩)
  iappend rootino (Dirent.encode ⟨rootino, strncpy dotdot DIRSIZ⟩)

/-- The size of the root directory is rounded up, and the bitmap is written. -/
def finish : M Unit := do
  let din ← rinode ROOTINO
  winode ROOTINO { din with size := (din.size / BSIZE + 1) * BSIZE }
  let m ← get
  balloc m.freeblock

def build (files : List HostFile) : M Unit := do
  makeRoot
  files.forM addFile
  finish

/-- `main`: the image, if `mkfs` accepts the files. -/
def mkfs (files : List HostFile) : Except Exit (ℕ → Block) := do
  let (_, m) ← build files blank
  return m.img

/-! ### Computations that may give up -/

section Meets

variable {α β : Type} {m : M α} {f : α → M β} {s : Mk} {Q Q' : α → Mk → Prop} {E : Prop}

/-- The computation returns something that meets the condition, or gives up, and then `E`. -/
def Meets (m : M α) (s : Mk) (Q : α → Mk → Prop) (E : Prop) : Prop :=
  match m s with
  | .ok (a, s') => Q a s'
  | .error _ => E

theorem meets_bind {Q : β → Mk → Prop} :
    Meets (m >>= f) s Q E ↔ Meets m s (fun a s' => Meets (f a) s' Q E) E := by
  unfold Meets
  cases hm : m s with
  | error e => rw [StateT.bind_of_error hm]
  | ok x => rw [StateT.bind_of_ok hm]

theorem Meets.mono (h : Meets m s Q E) (hQ : ∀ a s', Q a s' → Q' a s') : Meets m s Q' E := by
  unfold Meets at h ⊢
  cases hm : m s with
  | error e =>
    rw [hm] at h
    exact h
  | ok x =>
    rw [hm] at h
    exact hQ _ _ h

theorem meets_rsect {sec : ℕ} {Q : Block → Mk → Prop} (hsec : sec < 2 ^ 23)
    (hQ : sec < FSSIZE → Q (s.img sec) s) (hE : FSSIZE ≤ sec → E) : Meets (rsect sec) s Q E := by
  unfold Meets rsect
  rw [StateT.get_bind, Nat.mod_eq_of_lt hsec]
  by_cases h : sec < FSSIZE
  · rw [if_pos h]
    exact hQ h
  · rw [if_neg h]
    exact hE (not_lt.mp h)

theorem meets_nextBlock {Q : ℕ → Mk → Prop} :
    Meets nextBlock s Q E ↔ Q s.freeblock { s with freeblock := s.freeblock + 1 } := Iff.rfl

theorem meets_wsect {sec : ℕ} {buf : Block} {Q : Unit → Mk → Prop} (hsec : sec < 2 ^ 23) :
    Meets (wsect sec buf) s Q E ↔ Q () { s with img := update s.img sec buf } := by
  unfold Meets wsect
  rw [Nat.mod_eq_of_lt hsec]
  rfl

theorem meets_pure {a : α} : Meets (pure a) s Q E ↔ Q a s := Iff.rfl

end Meets

/-! ### The blocks of a file -/

/-- The numbers, for linear arithmetic. -/
theorem consts : NDIRECT = 12 ∧ NINDIRECT = 128 ∧ MAXFILE = 140 ∧ nmeta = 59 ∧ FSSIZE = 1000 ∧
    BSIZE = 512 ∧ inodestart = 32 ∧ bmapstart = 58 ∧ IPB = 8 := by
  decide

theorem setAddr_addrs (d : Dinode) (k b j : ℕ) :
    (d.setAddr k b).addrs j = if j = k then b else d.addrs j := update_apply ..

/-- The number of blocks that a file with `n` blocks of content takes, with the indirect one. -/
def cost (n : ℕ) : ℕ := n + if NDIRECT < n then 1 else 0

/-- **The blocks of a file**: where the inode and its indirect block say that they are. -/
structure Layout (S : ℕ → Block) (free : ℕ) (din : Dinode) (blocks : List ℕ) (ind : ℕ) : Prop where
  short : blocks.length ≤ MAXFILE
  direct : ∀ k, k < NDIRECT → din.addrs k = blocks.getD k 0
  indirect : din.addrs NDIRECT = ind
  rest : ∀ k, NDIRECT < k → din.addrs k = 0
  none_iff : ind = 0 ↔ blocks.length ≤ NDIRECT
  words : ind ≠ 0 → ∀ j, j < NINDIRECT → (S ind).word j = blocks.getD (NDIRECT + j) 0
  range : ∀ b ∈ blocks, nmeta ≤ b ∧ b < free
  indRange : ind ≠ 0 → nmeta ≤ ind ∧ ind < free ∧ ind ∉ blocks
  nodup : blocks.Nodup

section Blocks

variable {S S' : ℕ → Block} {free free' : ℕ} {din : Dinode} {blocks : List ℕ} {ind : ℕ}

theorem Layout.getD_ne (h : Layout S free din blocks ind) {k : ℕ} (hk : k < blocks.length) :
    blocks.getD k 0 ≠ 0 := by
  rw [List.getD_eq_getElem _ _ hk]
  have hmeta := (h.range _ (List.getElem_mem hk)).1
  have hc := consts
  omega

theorem getD_snoc (blocks : List ℕ) (b k : ℕ) :
    (blocks ++ [b]).getD k 0 = if k = blocks.length then b else blocks.getD k 0 := by
  simp only [List.getD_eq_getElem?_getD, List.getElem?_append, List.getElem?_singleton]
  split_ifs <;> grind

/-- A new direct block. -/
theorem Layout.snoc_direct (h : Layout S free din blocks ind) (hk : blocks.length < NDIRECT)
    (hfree : nmeta ≤ free) :
    Layout S (free + 1) (din.setAddr blocks.length free) (blocks ++ [free]) ind := by
  have hc := consts
  have hind : ind = 0 := h.none_iff.mpr hk.le
  refine ⟨?_, fun k hlt => ?_, ?_, fun k hlt => ?_, ?_, fun hne => absurd hind hne, ?_,
    fun hne => absurd hind hne, ?_⟩
  · rw [List.length_append, List.length_singleton]
    omega
  · rw [getD_snoc, setAddr_addrs]
    split_ifs
    · rfl
    · exact h.direct k hlt
  · rw [setAddr_addrs, if_neg (by omega)]
    exact h.indirect
  · rw [setAddr_addrs, if_neg (by omega)]
    exact h.rest k hlt
  · rw [List.length_append, List.length_singleton]
    exact ⟨fun _ => hk, fun _ => hind⟩
  · intro b hb
    rcases List.mem_append.mp hb with hb | hb
    · exact ⟨(h.range b hb).1, (h.range b hb).2.trans (Nat.lt_succ_self _)⟩
    · rw [List.mem_singleton.mp hb]
      exact ⟨hfree, Nat.lt_succ_self _⟩
  · refine List.nodup_append.mpr ⟨h.nodup, List.nodup_singleton _, fun a ha b hb => ?_⟩
    rw [List.mem_singleton.mp hb]
    exact (h.range a ha).2.ne

/-- The layout depends on the indirect block only, and blocks may be handed out to others. -/
theorem Layout.frame (h : Layout S free din blocks ind) (hfree : free ≤ free')
    (hS : ind ≠ 0 → S' ind = S ind) : Layout S' free' din blocks ind where
  short := h.short
  direct := h.direct
  indirect := h.indirect
  rest := h.rest
  none_iff := h.none_iff
  words := fun hne j hj => by rw [hS hne]; exact h.words hne j hj
  range := fun b hb => ⟨(h.range b hb).1, (h.range b hb).2.trans_le hfree⟩
  indRange := fun hne => ⟨(h.indRange hne).1, (h.indRange hne).2.1.trans_le hfree,
    (h.indRange hne).2.2⟩
  nodup := h.nodup

/-- The layout depends on the addresses only. -/
theorem Layout.congr {din' : Dinode} (h : Layout S free din blocks ind)
    (haddrs : din'.addrs = din.addrs) : Layout S free din' blocks ind where
  short := h.short
  direct := fun k hk => by rw [haddrs]; exact h.direct k hk
  indirect := by rw [haddrs]; exact h.indirect
  rest := fun k hk => by rw [haddrs]; exact h.rest k hk
  none_iff := h.none_iff
  words := h.words
  range := h.range
  indRange := h.indRange
  nodup := h.nodup

theorem Layout.addrs_lt (h : Layout S free din blocks ind) (hfree : free < 2 ^ 32) (k : ℕ) :
    din.addrs k < 2 ^ 32 := by
  rcases lt_trichotomy k NDIRECT with hk | hk | hk
  · rw [h.direct k hk]
    by_cases hlt : k < blocks.length
    · rw [List.getD_eq_getElem _ _ hlt]
      exact (h.range _ (List.getElem_mem hlt)).2.trans hfree
    · rw [List.getD_eq_default _ _ (not_lt.mp hlt)]
      decide
  · rw [hk, h.indirect]
    by_cases hne : ind = 0
    · rw [hne]
      decide
    · exact (h.indRange hne).2.1.trans hfree
  · rw [h.rest k hk]
    decide

/-- A new block in the indirect block. -/
theorem Layout.snoc_indirect (h : Layout S free din blocks ind) (hind : ind ≠ 0)
    (hk : blocks.length < MAXFILE) (hfree : free < 2 ^ 32) :
    Layout (update S ind ((S ind).setWord (blocks.length - NDIRECT) free)) (free + 1) din
      (blocks ++ [free]) ind := by
  have hc := consts
  have hlong : NDIRECT < blocks.length := not_le.mp fun hle => hind (h.none_iff.mpr hle)
  obtain ⟨hmeta, hlt, hnot⟩ := h.indRange hind
  refine ⟨?_, fun k hk => ?_, h.indirect, h.rest, ?_, fun _ j hj => ?_, ?_, fun _ => ?_, ?_⟩
  · rw [List.length_append, List.length_singleton]
    omega
  · rw [getD_snoc, if_neg (by omega)]
    exact h.direct k hk
  · rw [List.length_append, List.length_singleton]
    exact ⟨fun h0 => absurd h0 hind, fun hle => by omega⟩
  · rw [update_self, getD_snoc]
    by_cases hj' : j = blocks.length - NDIRECT
    · rw [hj', Block.word_setWord_self hfree, if_pos (by omega)]
    · rw [Block.word_setWord_of_ne hj', if_neg (by omega)]
      exact h.words hind j hj
  · intro b hb
    rcases List.mem_append.mp hb with hb | hb
    · exact ⟨(h.range b hb).1, (h.range b hb).2.trans (Nat.lt_succ_self _)⟩
    · rw [List.mem_singleton.mp hb]
      exact ⟨by omega, Nat.lt_succ_self _⟩
  · refine ⟨hmeta, hlt.trans (Nat.lt_succ_self _), fun hmem => ?_⟩
    rcases List.mem_append.mp hmem with hmem | hmem
    · exact hnot hmem
    · rw [List.mem_singleton] at hmem
      omega
  · refine List.nodup_append.mpr ⟨h.nodup, List.nodup_singleton _, fun a ha b hb => ?_⟩
    rw [List.mem_singleton.mp hb]
    exact (h.range a ha).2.ne

/-- A new indirect block, which is zero, and the first block in it. -/
theorem Layout.snoc_first (h : Layout S free din blocks 0) (hk : blocks.length = NDIRECT)
    (hfree : nmeta ≤ free) (hfree' : free + 1 < 2 ^ 32) (hzero : S free = .zero) :
    Layout (update S free ((S free).setWord 0 (free + 1))) (free + 2)
      (din.setAddr NDIRECT free) (blocks ++ [free + 1]) free := by
  have hc := consts
  have hne : free ≠ 0 := by omega
  refine ⟨?_, fun k hlt => ?_, ?_, fun k hlt => ?_, ?_, fun _ j hj => ?_, ?_, fun _ => ?_, ?_⟩
  · rw [List.length_append, List.length_singleton]
    omega
  · rw [getD_snoc, if_neg (by omega), setAddr_addrs, if_neg (by omega)]
    exact h.direct k hlt
  · rw [setAddr_addrs, if_pos rfl]
  · rw [setAddr_addrs, if_neg (by omega)]
    exact h.rest k hlt
  · rw [List.length_append, List.length_singleton]
    exact ⟨fun h0 => absurd h0 hne, fun hle => by omega⟩
  · rw [update_self, getD_snoc]
    by_cases hj' : j = 0
    · rw [hj', Block.word_setWord_self hfree', if_pos (by omega)]
    · rw [Block.word_setWord_of_ne hj', if_neg (by omega), hzero, Block.word_zero,
        List.getD_eq_default _ _ (by omega)]
  · intro b hb
    rcases List.mem_append.mp hb with hb | hb
    · exact ⟨(h.range b hb).1, by have := (h.range b hb).2; omega⟩
    · rw [List.mem_singleton.mp hb]
      exact ⟨by omega, by omega⟩
  · refine ⟨hfree, by omega, fun hmem => ?_⟩
    rcases List.mem_append.mp hmem with hmem | hmem
    · exact absurd (h.range _ hmem).2 (lt_irrefl _)
    · rw [List.mem_singleton] at hmem
      omega
  · refine List.nodup_append.mpr ⟨h.nodup, List.nodup_singleton _, fun a ha b hb => ?_⟩
    rw [List.mem_singleton.mp hb]
    have := (h.range a ha).2
    omega

end Blocks

/-- **A file has grown**: it has new blocks, and no block of another file is changed. -/
structure Grown (s : Mk) (din : Dinode) (blocks : List ℕ) (ind : ℕ) (s' : Mk) (din' : Dinode)
    (blocks' : List ℕ) (ind' : ℕ) : Prop where
  layout : Layout s'.img s'.freeblock din' blocks' ind'
  same : din' = { din with addrs := din'.addrs }
  begins : ∃ new, blocks' = blocks ++ new ∧ ∀ b ∈ new, s.freeblock ≤ b
  indSame : ind' = ind ∨ (ind = 0 ∧ s.freeblock ≤ ind')
  taken : s'.freeblock + cost blocks.length = s.freeblock + cost blocks'.length
  le : s.freeblock ≤ s'.freeblock
  frame : ∀ b, b < s.freeblock → b ≠ ind → b ∉ blocks → s'.img b = s.img b
  fresh : ∀ b, s'.freeblock ≤ b → s'.img b = .zero
  freeinode : s'.freeinode = s.freeinode

section Grown

variable {s s' s'' : Mk} {din din' din'' : Dinode} {blocks blocks' blocks'' : List ℕ}
  {ind ind' ind'' : ℕ} {E : Prop}

theorem Grown.refl (h : Layout s.img s.freeblock din blocks ind)
    (hfresh : ∀ b, s.freeblock ≤ b → s.img b = .zero) :
    Grown s din blocks ind s din blocks ind where
  layout := h
  same := rfl
  begins := ⟨[], (List.append_nil _).symm, nofun⟩
  indSame := .inl rfl
  taken := rfl
  le := le_rfl
  frame := fun _ _ _ _ => rfl
  fresh := hfresh
  freeinode := rfl

theorem Grown.trans (h : Grown s din blocks ind s' din' blocks' ind')
    (h' : Grown s' din' blocks' ind' s'' din'' blocks'' ind'') :
    Grown s din blocks ind s'' din'' blocks'' ind'' := by
  obtain ⟨new, rfl, hnew⟩ := h.begins
  obtain ⟨new', rfl, hnew'⟩ := h'.begins
  have hle := h.le
  have htaken := h.taken
  have htaken' := h'.taken
  refine ⟨h'.layout, ?_, ⟨new ++ new', List.append_assoc .., fun b hb => ?_⟩, ?_, by omega,
    hle.trans h'.le, fun b hb hne hnot => ?_, h'.fresh, h'.freeinode.trans h.freeinode⟩
  · rw [h'.same, h.same]
  · rcases List.mem_append.mp hb with hb | hb
    · exact hnew b hb
    · exact hle.trans (hnew' b hb)
  · rcases h.indSame with h0 | ⟨h0, hge⟩
    · rcases h'.indSame with h1 | ⟨h1, hge'⟩
      · exact .inl (h1.trans h0)
      · exact .inr ⟨h0 ▸ h1, hle.trans hge'⟩
    · rcases h'.indSame with h1 | ⟨h1, hge'⟩
      · exact .inr ⟨h0, h1 ▸ hge⟩
      · exact .inr ⟨h0, hle.trans hge'⟩
  · rw [h'.frame b (by omega) ?_ ?_, h.frame b hb hne hnot]
    · rintro rfl
      rcases h.indSame with h0 | ⟨h0, hge⟩
      · exact hne h0
      · omega
    · intro hmem
      rcases List.mem_append.mp hmem with hmem | hmem
      · exact hnot hmem
      · have := hnew b hmem
        omega

/-- **The block of an offset**, allocated where there is none. -/
theorem blockFor_spec {fbn : ℕ} (h : Layout s.img s.freeblock din blocks ind)
    (hfresh : ∀ b, s.freeblock ≤ b → s.img b = .zero) (hmeta : nmeta ≤ s.freeblock)
    (hfree : s.freeblock ≤ FSSIZE) (hfbn : fbn ≤ blocks.length) (hmax : fbn < MAXFILE)
    (hE : FSSIZE + cost blocks.length < s.freeblock + cost (max blocks.length (fbn + 1)) → E) :
    Meets (blockFor din fbn) s (fun r s' => ∃ blocks' ind',
      Grown s din blocks ind s' r.1 blocks' ind' ∧ blocks'.length = max blocks.length (fbn + 1) ∧
      blocks'.getD fbn 0 = r.2 ∧ s'.freeblock ≤ max s.freeblock (r.2 + 1) ∧
      ∀ b ∈ blocks, s'.img b = s.img b) E := by
  have hc := consts
  unfold blockFor
  by_cases hdirect : fbn < NDIRECT
  · rw [if_pos hdirect, h.direct fbn hdirect]
    by_cases hold : fbn < blocks.length
    · rw [if_neg (h.getD_ne hold)]
      exact ⟨blocks, ind, .refl h hfresh, by omega, rfl, le_max_left _ _, fun _ _ => rfl⟩
    · obtain rfl : fbn = blocks.length := by omega
      rw [if_pos (List.getD_eq_default _ _ le_rfl), meets_bind, meets_nextBlock, meets_pure]
      refine ⟨blocks ++ [s.freeblock], ind, ⟨h.snoc_direct hdirect hmeta, rfl,
        ⟨[s.freeblock], rfl, fun b hb => (List.mem_singleton.mp hb).ge⟩, .inl rfl,
          ?_, Nat.le_succ _,
        fun _ _ _ _ => rfl, fun b hb => hfresh b (Nat.le_of_succ_le hb), rfl⟩, ?_, ?_,
          le_max_right _ _, fun _ _ => rfl⟩
      · simp only [cost, List.length_append, List.length_singleton]
        split_ifs <;> omega
      · rw [List.length_append, List.length_singleton]
        omega
      · rw [getD_snoc, if_pos rfl]
  · rw [if_neg hdirect, h.indirect]
    by_cases hind : ind = 0
    · -- The indirect block is new as well.
      subst hind
      have hlen : blocks.length = NDIRECT := by
        have := h.none_iff.mp rfl
        omega
      obtain rfl : fbn = NDIRECT := by omega
      have hcost : cost (max blocks.length (NDIRECT + 1)) = cost blocks.length + 2 := by
        rw [hlen]
        decide
      rw [if_pos rfl, map_eq_pure_bind, bind_assoc, meets_bind, meets_nextBlock]
      simp only [pure_bind, setAddr_addrs, if_true]
      rw [meets_bind]
      refine meets_rsect (by omega) (fun hlt => ?_) (fun hge => hE (by omega))
      have hzero : s.img s.freeblock = .zero := hfresh _ le_rfl
      rw [if_pos (by simp [hzero]), meets_bind, meets_nextBlock, meets_bind, meets_wsect (by omega),
        meets_pure]
      have hlayout := h.snoc_first hlen hmeta (by omega) hzero
      refine ⟨blocks ++ [s.freeblock + 1], s.freeblock, ⟨hlayout, rfl,
        ⟨[s.freeblock + 1], rfl, fun b hb => ?_⟩, .inr ⟨rfl, le_rfl⟩, ?_, ?_, fun b hb _ _ => ?_,
        fun b hb => ?_, rfl⟩, ?_, ?_, le_max_right _ _, fun b hb => ?_⟩
      · rw [List.mem_singleton.mp hb]
        exact Nat.le_succ _
      · show s.freeblock + 1 + 1 + _ = _
        rw [List.length_append, List.length_singleton, hlen]
        have : cost (NDIRECT + 1) = cost NDIRECT + 2 := by decide
        omega
      · show s.freeblock ≤ s.freeblock + 1 + 1
        omega
      · exact update_of_ne hb.ne _ _
      · have hb : s.freeblock + 1 + 1 ≤ b := hb
        exact (update_of_ne (by omega) _ _).trans (hfresh b (by omega))
      · rw [List.length_append, List.length_singleton]
        omega
      · rw [getD_snoc, if_pos hlen.symm]
      · exact update_of_ne (h.range b hb).2.ne _ _
    · obtain ⟨hge, hlt, hnot⟩ := h.indRange hind
      have hword := h.words hind (fbn - NDIRECT) (by omega)
      rw [show NDIRECT + (fbn - NDIRECT) = fbn by omega] at hword
      rw [if_neg hind, pure_bind, meets_bind, h.indirect]
      refine meets_rsect (by omega) (fun _ => ?_) (fun hge => by omega)
      rw [hword]
      by_cases hold : fbn < blocks.length
      · rw [if_neg (h.getD_ne hold), meets_pure]
        exact ⟨blocks, ind, .refl h hfresh, by omega, rfl, le_max_left _ _, fun _ _ => rfl⟩
      · obtain rfl : fbn = blocks.length := by omega
        have hlong : NDIRECT < blocks.length := not_le.mp fun hle => hind (h.none_iff.mpr hle)
        rw [if_pos (List.getD_eq_default _ _ le_rfl), meets_bind, meets_nextBlock, meets_bind,
          meets_wsect (by omega), meets_pure]
        refine ⟨blocks ++ [s.freeblock], ind, ⟨h.snoc_indirect hind hmax (by omega), rfl,
          ⟨[s.freeblock], rfl, fun b hb => (List.mem_singleton.mp hb).ge⟩, .inl rfl,
            ?_, Nat.le_succ _,
          fun b hb hne _ => update_of_ne hne _ _, fun b hb => ?_, rfl⟩, ?_, ?_,
          le_max_right _ _, fun b hb => ?_⟩
        · simp only [cost, List.length_append, List.length_singleton]
          split_ifs <;> omega
        · have hb : s.freeblock + 1 ≤ b := hb
          exact (update_of_ne (by omega) _ _).trans (hfresh b (by omega))
        · rw [List.length_append, List.length_singleton]
          omega
        · rw [getD_snoc, if_pos rfl]
        · refine update_of_ne ?_ _ _
          rintro rfl
          exact hnot hb

/-! ### The bytes of a file -/

/-- The number of blocks that `n` bytes need. -/
def ceilBlocks (n : ℕ) : ℕ := (n + BSIZE - 1) / BSIZE

/-- **The blocks hold the content.** -/
def Holds (S : ℕ → Block) (blocks : List ℕ) (c : List UInt8) : Prop :=
  ∀ x, x < c.length → S (blocks.getD (x / BSIZE) 0) (x % BSIZE) = c.getD x 0

theorem cost_mono {m n : ℕ} (h : m ≤ n) : cost m ≤ cost n := by
  unfold cost
  split_ifs <;> omega

theorem Layout.getD_inj {S : ℕ → Block} {free i j : ℕ} (h : Layout S free din blocks ind)
    (hi : i < blocks.length) (hj : j < blocks.length) (heq : blocks.getD i 0 = blocks.getD j 0) :
    i = j := by
  rw [List.getD_eq_getElem _ _ hi, List.getD_eq_getElem _ _ hj] at heq
  exact (h.nodup.getElem_inj_iff).mp heq

/-- Bytes are written behind the content, in the last block. -/
theorem Holds.write {S : ℕ → Block} {free : ℕ} {c q : List UInt8} (h : Layout S free din blocks ind)
    (hc : Holds S blocks c) (hlen : c.length / BSIZE < blocks.length)
    (hq : c.length + q.length ≤ (c.length / BSIZE + 1) * BSIZE) :
    Holds (update S (blocks.getD (c.length / BSIZE) 0)
      ((S (blocks.getD (c.length / BSIZE) 0)).write (c.length - c.length / BSIZE * BSIZE) q))
      blocks (c ++ q) := by
  have hB : BSIZE = 512 := rfl
  intro y hy
  rw [List.length_append] at hy
  have hyb : y / BSIZE ≤ c.length / BSIZE := by
    have : y < (c.length / BSIZE + 1) * BSIZE := by omega
    rw [hB] at this ⊢
    omega
  by_cases hsame : y / BSIZE = c.length / BSIZE
  · rw [hsame, update_self, Block.write]
    by_cases hold : y < c.length
    · have hout : ¬ (c.length - c.length / BSIZE * BSIZE ≤ y % BSIZE ∧
          y % BSIZE < c.length - c.length / BSIZE * BSIZE + q.length) := by
        rw [hB] at hsame ⊢
        omega
      rw [if_neg hout, ← hsame, hc y hold, List.getD_append _ _ _ _ hold]
    · have hin : c.length - c.length / BSIZE * BSIZE ≤ y % BSIZE ∧
          y % BSIZE < c.length - c.length / BSIZE * BSIZE + q.length := by
        rw [hB] at hsame ⊢
        omega
      have hindex : y % BSIZE - (c.length - c.length / BSIZE * BSIZE) = y - c.length := by
        rw [hB] at hsame ⊢
        omega
      rw [if_pos hin, hindex, List.getD_append_right _ _ _ _ (not_lt.mp hold)]
  · have hold : y < c.length := by
      by_contra hge
      rw [hB] at hsame hyb
      omega
    have hne : blocks.getD (y / BSIZE) 0 ≠ blocks.getD (c.length / BSIZE) 0 := fun heq =>
      hsame (h.getD_inj (by omega) hlen heq)
    rw [update_of_ne hne, hc y hold, List.getD_append _ _ _ _ hold]

theorem length_div_le {c : List UInt8} (hlen : blocks.length = ceilBlocks c.length) :
    c.length / BSIZE ≤ blocks.length := by
  have hB : BSIZE = 512 := rfl
  rw [hlen, ceilBlocks, hB]
  omega

/-- The write of one round, which begins behind the content. -/
theorem Grown.write {c q : List UInt8} {x : ℕ} (h : Grown s din blocks ind s' din' blocks' ind')
    (hx : blocks'.getD (c.length / BSIZE) 0 = x) (hlen : c.length / BSIZE < blocks'.length) :
    Grown s din blocks ind
      ⟨update s'.img x ((s'.img x).write (c.length - c.length / BSIZE * BSIZE) q),
        s'.freeinode, s'.freeblock⟩ din' blocks' ind' := by
  have hmem : x ∈ blocks' := by
    rw [← hx, List.getD_eq_getElem _ _ hlen]
    exact List.getElem_mem hlen
  refine ⟨h.layout.frame le_rfl fun hne => ?_, h.same, h.begins, h.indSame, h.taken, h.le,
    fun b hb hne hnot => ?_, fun b hb => ?_, h.freeinode⟩
  · refine update_of_ne ?_ _ _
    rintro rfl
    exact (h.layout.indRange hne).2.2 hmem
  · refine (update_of_ne ?_ _ _).trans (h.frame b hb hne hnot)
    rintro rfl
    obtain ⟨new, rfl, hnew⟩ := h.begins
    rcases List.mem_append.mp hmem with hmem | hmem
    · exact hnot hmem
    · exact absurd (hnew b hmem) (not_le.mpr hb)
  · exact (update_of_ne ((h.layout.range x hmem).2.trans_le hb).ne' _ _).trans (h.fresh b hb)

/-- **Bytes are appended to a file**, if they fit. -/
theorem iappendLoop_spec {rounds : ℕ} {c p : List UInt8} (hrounds : p.length ≤ rounds)
    (h : Layout s.img s.freeblock din blocks ind)
    (hfresh : ∀ b, s.freeblock ≤ b → s.img b = .zero) (hmeta : nmeta ≤ s.freeblock)
    (hfree : s.freeblock ≤ FSSIZE) (hholds : Holds s.img blocks c)
    (hlen : blocks.length = ceilBlocks c.length)
    (hE : MAXFILE * BSIZE < c.length + p.length ∨
      FSSIZE + cost blocks.length < s.freeblock + cost (ceilBlocks (c.length + p.length)) → E) :
    Meets (iappendLoop rounds din c.length p) s (fun r s' => r.2 = (c ++ p).length ∧
      ∃ blocks' ind', Grown s din blocks ind s' r.1 blocks' ind' ∧ Holds s'.img blocks' (c ++ p) ∧
        blocks'.length = ceilBlocks (c ++ p).length ∧ s'.freeblock ≤ FSSIZE) E := by
  induction rounds generalizing s din blocks ind c p with
  | zero =>
    obtain rfl : p = [] := List.length_eq_zero_iff.mp (Nat.le_zero.mp hrounds)
    rw [iappendLoop, meets_pure, List.append_nil]
    exact ⟨rfl, blocks, ind, .refl h hfresh, hholds, hlen, hfree⟩
  | succ rounds ih =>
    have hc := consts
    rw [iappendLoop]
    by_cases hp : p = []
    · subst hp
      rw [if_pos rfl, meets_pure, List.append_nil]
      exact ⟨rfl, blocks, ind, .refl h hfresh, hholds, hlen, hfree⟩
    have hpos : 0 < p.length := List.length_pos_of_ne_nil hp
    rw [if_neg hp]
    by_cases hbig : MAXFILE ≤ c.length / BSIZE
    · rw [if_pos hbig]
      refine hE (.inl ?_)
      rw [show BSIZE = 512 by rfl, show MAXFILE = 140 by rfl] at *
      omega
    rw [if_neg hbig]
    beta_reduce
    rw [meets_bind]
    have hdiv := length_div_le hlen
    set fbn := c.length / BSIZE with hfbn
    have hceil : max blocks.length (fbn + 1) ≤ ceilBlocks (c.length + p.length) := by
      rw [hlen, hfbn]
      unfold ceilBlocks
      rw [show BSIZE = 512 by rfl]
      omega
    have hcost := cost_mono hceil
    refine (blockFor_spec h hfresh hmeta hfree hdiv (not_le.mp hbig)
      (fun hno => hE (.inr (by omega)))).mono ?_
    rintro ⟨din', x⟩ s' ⟨blocks', ind', hgrown, hlen', hx, hlast, hsame⟩
    simp only at hx hgrown hlast ⊢
    have hfbn' : fbn < blocks'.length := by omega
    have htaken := hgrown.taken
    have hmem : x ∈ blocks' := by
      rw [← hx, List.getD_eq_getElem _ _ hfbn']
      exact List.getElem_mem hfbn'
    have hxlt := (hgrown.layout.range x hmem).2
    have hfew : cost blocks'.length ≤ 141 := by
      have := hgrown.layout.short
      unfold cost
      split_ifs <;> omega
    rw [meets_bind]
    refine meets_rsect (by omega) (fun hlt => ?_)
      (fun hge => hE (.inr (by rw [hlen'] at htaken; omega)))
    rw [meets_bind, meets_wsect (by omega)]
    set n1 := min p.length ((fbn + 1) * BSIZE - c.length) with hn1
    have htake : (p.take n1).length = n1 := by
      rw [List.length_take]
      omega
    have hn1pos : 0 < n1 ∧ c.length + n1 ≤ (fbn + 1) * BSIZE := by
      rw [hn1, hfbn, show BSIZE = 512 by rfl]
      omega
    have hround := hgrown.write (q := p.take n1) hx hfbn'
    have hholds' : Holds s'.img blocks' c := by
      obtain ⟨new, rfl, -⟩ := hgrown.begins
      intro y hy
      have hylt : y / BSIZE < blocks.length := by
        rw [hlen]
        unfold ceilBlocks
        rw [show BSIZE = 512 by rfl]
        omega
      rw [List.getD_append _ _ _ _ hylt, hsame _ (by
        rw [List.getD_eq_getElem _ _ hylt]
        exact List.getElem_mem hylt)]
      exact hholds y hy
    have hwritten := hholds'.write (q := p.take n1) hgrown.layout hfbn'
      (by rw [htake]; exact hn1pos.2)
    rw [hx] at hwritten
    have hceil' : ceilBlocks (c ++ p.take n1).length = max blocks.length (fbn + 1) := by
      rw [List.length_append, htake, hlen, hfbn]
      unfold ceilBlocks
      rw [hfbn] at hn1pos
      rw [show BSIZE = 512 by rfl] at *
      omega
    have hoff : c.length + n1 = (c ++ p.take n1).length := by rw [List.length_append, htake]
    have hdrop : (c ++ p.take n1).length + (p.drop n1).length = c.length + p.length := by
      rw [← hoff, List.length_drop]
      omega
    rw [hoff]
    refine (ih (by rw [List.length_drop]; omega) hround.layout hround.fresh (hmeta.trans hround.le)
      (by show s'.freeblock ≤ _; omega) hwritten (hlen'.trans hceil'.symm) ?_).mono ?_
    · rw [hdrop]
      refine fun hno => hE (hno.imp_right fun hno => ?_)
      have hno : FSSIZE + cost blocks'.length <
        s'.freeblock + cost (ceilBlocks (c.length + p.length)) := hno
      omega
    · rintro ⟨din'', off⟩ s'' ⟨hoff', blocks'', ind'', hgrown', hholds'', hlen'', hfree''⟩
      rw [List.append_assoc, List.take_append_drop] at hoff' hholds'' hlen''
      exact ⟨hoff', blocks'', ind'', hround.trans hgrown', hholds'', hlen'', hfree''⟩

end Grown

end Xv6.Mkfs
