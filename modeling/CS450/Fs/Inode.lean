import CS450.Lib.Outcome
import CS450.Fs.Block

/-!
# Inodes and their content

What `fs.c` does with one inode that it holds locked in memory: block allocation, `bmap`, `itrunc`,
`readi`, `writei`, and the directory operations that read and write entries through them.

The disk is seen through its parts: the inode table, the free bit map and the blocks. Where an inode
or a bit lies inside its block plays no role in these functions. They work on the in-memory copy of
one inode and on the disk; `iupdate` copies the first to the second.

Numbers of type `uint` are natural numbers, and where the source relies on overflow the sum is taken
modulo `2 ^ 32`. Loops are bounded by a number of rounds that they cannot exceed.
-/

namespace Xv6.Fs

abbrev NDIRECT : ℕ := 12

abbrev NINDIRECT : ℕ := 128

abbrev MAXFILE : ℕ := NDIRECT + NINDIRECT

abbrev DIRSIZ : ℕ := 14

/-- The size of a directory entry. -/
abbrev DESIZE : ℕ := 16

abbrev ROOTINO : ℕ := 1

/-- The types of inodes; `free` is the type `0` of an inode that is not allocated. -/
inductive FileType
  | free
  | dir
  | file
  | dev
  deriving DecidableEq, Repr

/-- `struct dinode`. Of `addrs`, only the places up to `NDIRECT` are used. -/
structure Dinode where
  type : FileType
  major : ℤ
  minor : ℤ
  nlink : ℤ
  size : ℕ
  addrs : ℕ → ℕ

/-- An inode after `memset(dip, 0, sizeof(*dip))`. -/
def Dinode.zero : Dinode := ⟨.free, 0, 0, 0, 0, fun _ => 0⟩

/-- The disk. -/
structure Image where
  dinode : ℕ → Dinode
  bitmap : ℕ → Bool
  data : ℕ → Block

/-- What the functions find and never change: the superblock and the devices. -/
structure Env where
  /-- the number of blocks of the file system -/
  size : ℕ
  /-- the number of data blocks, which are the last ones -/
  nblocks : ℕ
  ninodes : ℕ
  nblocks_lt : nblocks < size
  size_lt : size < 2 ^ 32
  /-- `devsw[major].read`, where there is one -/
  devRead : ℤ → Option (ℕ → Option (List UInt8))
  /-- `devsw[major].write`, where there is one -/
  devWrite : ℤ → Option (List UInt8 → Option ℕ)

/-- The panics of the file system. -/
inductive Panic
  /-- `panic("balloc: out of blocks")` -/
  | balloc
  /-- `panic("freeing free block")` -/
  | bfree
  /-- `panic("ialloc: no inodes")` -/
  | ialloc
  /-- `panic("iget: no inodes")` -/
  | iget
  /-- `panic("ilock")` -/
  | ilock
  /-- `panic("ilock: no type")` -/
  | ilockNoType
  /-- `panic("iunlock")` -/
  | iunlock
  /-- `panic("bmap: out of range")` -/
  | bmap
  /-- `panic("dirlookup not DIR")` -/
  | dirlookupNotDir
  /-- `panic("dirlookup read")` -/
  | dirlookupRead
  /-- `panic("dirlink read")` -/
  | dirlinkRead
  /-- `panic("dirlink")` -/
  | dirlink
  /-- `panic("isdirempty: readi")` -/
  | isdirempty
  /-- `panic("unlink: nlink < 1")` -/
  | unlinkNlink
  /-- `panic("unlink: writei")` -/
  | unlinkWritei
  /-- `panic("create dots")` -/
  | createDots
  /-- `panic("create: dirlink")` -/
  | createDirlink
  /-- `panic("filedup")` -/
  | filedup
  /-- `panic("fileclose")` -/
  | fileclose
  /-- `panic("fileread")` -/
  | fileread
  /-- `panic("filewrite")` -/
  | filewrite
  /-- `panic("short filewrite")` -/
  | shortFilewrite
  deriving DecidableEq, Repr

/-- Why a function does not go on. -/
inductive Fault
  | panic (p : Panic)
  /-- it waits for a sleep lock -/
  | blocked
  /-- it follows a null pointer -/
  | null
  deriving DecidableEq, Repr

/-- An inode locked in memory, its number, and the disk. -/
structure Work where
  inum : ℕ
  ip : Dinode
  disk : Image

/-- Computations on a locked inode. -/
abbrev I := StateT Work (Except Fault)

def panic {α : Type} (p : Panic) : I α := throw (.panic p)

namespace Work

def setAddr (i b : ℕ) (w : Work) : Work :=
  { w with ip := { w.ip with addrs := Function.update w.ip.addrs i b } }

def setData (b : ℕ) (v : Block) (w : Work) : Work :=
  { w with disk := { w.disk with data := Function.update w.disk.data b v } }

def setBit (b : ℕ) (v : Bool) (w : Work) : Work :=
  { w with disk := { w.disk with bitmap := Function.update w.disk.bitmap b v } }

end Work

/-! ### Blocks -/

section Functions

variable (env : Env)

/-- `balloc`: the first free block, marked and zeroed. -/
def balloc : I ℕ := do
  let w ← get
  match (List.range env.size).find? fun b => !w.disk.bitmap b with
  | none => panic .balloc
  | some b =>
    set ((w.setBit b true).setData b .zero)
    return b

def bfree (b : ℕ) : I Unit := do
  let w ← get
  if w.disk.bitmap b then set (w.setBit b false) else panic .bfree

/-- The loops of `itrunc`: the blocks among `bs` are freed, where there is one. -/
def bfreeAll : List ℕ → I Unit
  | [] => return
  | b :: bs => do
    if b ≠ 0 then bfree b
    bfreeAll bs

/-! ### Inodes -/

/-- `iupdate`: the in-memory inode is copied to the disk. -/
def iupdate : I Unit :=
  modify fun w =>
    { w with disk := { w.disk with dinode := Function.update w.disk.dinode w.inum w.ip } }

/-- The address in `ip->addrs[i]`, allocated if there is none. -/
def addrAlloc (i : ℕ) : I ℕ := do
  let w ← get
  if w.ip.addrs i = 0 then
    let addr ← balloc env
    modify (Work.setAddr i addr)
    return addr
  else return w.ip.addrs i

/-- The address in the `j`-th place of the indirect block `ind`, allocated if there is none. -/
def indirectAlloc (ind j : ℕ) : I ℕ := do
  let w ← get
  if (w.disk.data ind).word j = 0 then
    let addr ← balloc env
    modify fun w => w.setData ind ((w.disk.data ind).setWord j addr)
    return addr
  else return (w.disk.data ind).word j

/-- `bmap`: the disk block of the `bn`-th block of the inode. -/
def bmap (bn : ℕ) : I ℕ :=
  if bn < NDIRECT then addrAlloc env bn
  else if bn - NDIRECT < NINDIRECT then do
    let ind ← addrAlloc env NDIRECT
    indirectAlloc env ind (bn - NDIRECT)
  else panic .bmap

/-- `itrunc`: all blocks are freed. -/
def itrunc : I Unit := do
  let w ← get
  bfreeAll ((List.range NDIRECT).map w.ip.addrs)
  modify fun w =>
    { w with ip := { w.ip with addrs := fun i => if i < NDIRECT then 0 else w.ip.addrs i } }
  let ind := w.ip.addrs NDIRECT
  if ind ≠ 0 then
    let w ← get
    bfreeAll ((List.range NINDIRECT).map (w.disk.data ind).word)
    bfree ind
    modify (Work.setAddr NDIRECT 0)
  modify fun w => { w with ip := { w.ip with size := 0 } }
  iupdate

/-- The loop of `readi`, for at most `rounds` rounds and `n` bytes. -/
def readLoop : ℕ → ℕ → ℕ → I (List UInt8)
  | 0, _, _ => return []
  | rounds + 1, off, n => do
    if n = 0 then return []
    let b ← bmap env (off / BSIZE)
    let m := min n (BSIZE - off % BSIZE)
    let w ← get
    let bytes := (List.range m).map fun i => w.disk.data b (off % BSIZE + i)
    let rest ← readLoop rounds (off + m) (n - m)
    return bytes ++ rest

/-- `readi`: the bytes read, or `none` for `-1`. -/
def readi (off n : ℕ) : I (Option (List UInt8)) := do
  let w ← get
  if w.ip.type = .dev then
    match env.devRead w.ip.major with
    | none => return none
    | some read => return read n
  else if w.ip.size < off ∨ (off + n) % 2 ^ 32 < off then return none
  else
    let n := if w.ip.size < off + n then w.ip.size - off else n
    let bytes ← readLoop env n off n
    return some bytes

/-- The loop of `writei`, for at most `rounds` rounds; the offset after the last byte. -/
def writeLoop : ℕ → ℕ → List UInt8 → I ℕ
  | 0, off, _ => return off
  | rounds + 1, off, src => do
    if src = [] then return off
    let b ← bmap env (off / BSIZE)
    let m := min src.length (BSIZE - off % BSIZE)
    modify fun w => w.setData b ((w.disk.data b).write (off % BSIZE) (src.take m))
    writeLoop rounds (off + m) (src.drop m)

/-- `writei` of the bytes `src`: the number of bytes written, or `none` for `-1`. -/
def writei (src : List UInt8) (off : ℕ) : I (Option ℕ) := do
  let w ← get
  if w.ip.type = .dev then
    match env.devWrite w.ip.major with
    | none => return none
    | some write => return write src
  else if w.ip.size < off ∨ (off + src.length) % 2 ^ 32 < off then return none
  else if MAXFILE * BSIZE < off + src.length then return none
  else
    let off ← writeLoop env src.length off src
    if 0 < src.length ∧ w.ip.size < off then
      modify fun w => { w with ip := { w.ip with size := off } }
      iupdate
    return some src.length

/-! ### Directories -/

/-- `struct dirent`, with all `DIRSIZ` bytes of the name. -/
structure Dirent where
  inum : ℕ
  name : List UInt8

/-- The entry that the bytes at the beginning of `bs` hold. -/
def Dirent.decode (bs : List UInt8) : Dirent :=
  ⟨(bs.getD 0 0).toNat + 2 ^ 8 * (bs.getD 1 0).toNat, (bs.drop 2).take DIRSIZ⟩

/-- The bytes of an entry; `inum` is stored as `ushort`. -/
def Dirent.encode (de : Dirent) : List UInt8 :=
  UInt8.ofNat de.inum :: UInt8.ofNat (de.inum / 2 ^ 8) :: de.name

/-- `strncmp` on strings given by their bytes before the terminating one. -/
def strncmp : List UInt8 → List UInt8 → ℕ → ℤ
  | _, _, 0 => 0
  | p, q, n + 1 =>
    if p.headD 0 ≠ 0 ∧ p.headD 0 = q.headD 0 then strncmp p.tail q.tail n
    else ((p.headD 0).toNat : ℤ) - (q.headD 0).toNat

/-- `strncpy`: the `n` bytes it stores. -/
def strncpy : List UInt8 → ℕ → List UInt8
  | _, 0 => []
  | t, n + 1 =>
    if t.headD 0 = 0 then List.replicate (n + 1) 0 else t.headD 0 :: strncpy t.tail n

def namecmp (s t : List UInt8) : ℤ := strncmp s t DIRSIZ

/-- An entry read with `readi`; where it comes short the caller panics with `p`. -/
def readDirent (p : Panic) (off : ℕ) : I Dirent := do
  match ← readi env off DESIZE with
  | some bs => if bs.length = DESIZE then return .decode bs else panic p
  | none => panic p

/-- The loop of `dirlookup`: the first live entry with the name, as its inode number and its
offset. -/
def dirfindFrom (name : List UInt8) : ℕ → ℕ → I (Option (ℕ × ℕ))
  | 0, _ => return none
  | rounds + 1, off => do
    let w ← get
    if off < w.ip.size then
      let de ← readDirent env .dirlookupRead off
      if de.inum ≠ 0 ∧ namecmp name de.name = 0 then return some (de.inum, off)
      else dirfindFrom name rounds (off + DESIZE)
    else return none

/-- The search of `dirlookup`. -/
def dirfind (name : List UInt8) : I (Option (ℕ × ℕ)) := do
  let w ← get
  if w.ip.type = .dir then dirfindFrom env name (w.ip.size / DESIZE + 1) 0
  else panic .dirlookupNotDir

/-- The loop of `dirlink`: the offset of the first entry that is not live, or of the end. -/
def emptyFrom : ℕ → ℕ → I ℕ
  | 0, off => return off
  | rounds + 1, off => do
    let w ← get
    if off < w.ip.size then
      let de ← readDirent env .dirlinkRead off
      if de.inum = 0 then return off else emptyFrom rounds (off + DESIZE)
    else return off

/-- The second part of `dirlink`: the entry is stored in the first place that is not in use. -/
def direntWrite (name : List UInt8) (inum : ℕ) : I Unit := do
  let w ← get
  let off ← emptyFrom env (w.ip.size / DESIZE + 1) 0
  match ← writei env (Dirent.encode ⟨inum, strncpy name DIRSIZ⟩) off with
  | some n => if n = DESIZE then return else panic .dirlink
  | none => panic .dirlink

/-- The erasure of an entry in `sys_unlink`. -/
def direntErase (off : ℕ) : I Unit := do
  match ← writei env (List.replicate DESIZE 0) off with
  | some n => if n = DESIZE then return else panic .unlinkWritei
  | none => panic .unlinkWritei

/-- The loop of `isdirempty`. -/
def isdiremptyFrom : ℕ → ℕ → I Bool
  | 0, _ => return true
  | rounds + 1, off => do
    let w ← get
    if off < w.ip.size then
      let de ← readDirent env .isdirempty off
      if de.inum ≠ 0 then return false else isdiremptyFrom rounds (off + DESIZE)
    else return true

/-- `isdirempty`: no entry after the first two is live. -/
def isdirempty : I Bool := do
  let w ← get
  isdiremptyFrom env (w.ip.size / DESIZE + 1) (2 * DESIZE)

end Functions

end Xv6.Fs
