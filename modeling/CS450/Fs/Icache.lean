import CS450.Lib.Thread
import CS450.Proc.Table
import CS450.Fs.Dir

/-!
# Programs over the inode cache

The functions of `fs.c` that find an inode by its name, as programs over atomic actions on the inode
cache and the disk. An action is what happens under one acquisition of `icache.lock`, one
acquisition or release of the sleep lock of an inode, or one function of `fs.c` on an inode that the
caller has locked. Between two actions of a process others may run.

Transactions do not show: `begin_op` and `end_op` only make a process wait. There is one device.
-/

namespace Xv6.Fs

open Thread Table

/-- `struct inode`; the fields that are a copy of the disk are in `copy`. -/
structure Inode where
  inum : ℕ
  ref : ℕ
  /-- the holder of the sleep lock -/
  lock : Option Slot
  valid : Bool
  copy : Dinode

/-- What is used here of `struct proc`. -/
structure FsProc where
  cwd : Option Cached

structure State where
  disk : Image
  icache : Cached → Inode
  proc : Slot → FsProc

namespace State

variable (s : State)

def setInode (k : Cached) (x : Inode) : State :=
  { s with icache := Function.update s.icache k x }

variable {s}

@[simp] theorem icache_setInode_self {k : Cached} {x : Inode} : (s.setInode k x).icache k = x :=
  Function.update_self ..

variable (s)

/-- The inode in a cache entry, for the functions on a locked inode. -/
def work (k : Cached) : Work := ⟨(s.icache k).inum, (s.icache k).copy, s.disk⟩

def setWork (k : Cached) (w : Work) : State :=
  { s with disk := w.disk, icache := Function.update s.icache k { s.icache k with copy := w.ip } }

end State

/-! ### Actions -/

inductive Act
  | iget (inum : ℕ)
  /-- `idup(myproc()->cwd)` -/
  | idupCwd
  /-- the check of `ip->ref` in `ilock` -/
  | assertRef (k : Cached)
  /-- the check of `iunlock` -/
  | assertHeld (k : Cached)
  | acquiresleep (k : Cached)
  /-- the second part of `ilock`: the inode is read from the disk -/
  | load (k : Cached)
  | releasesleep (k : Cached)
  /-- a look at the fields of a locked inode -/
  | stat (k : Cached)
  /-- the search of `dirlookup` in a locked directory -/
  | dirfind (k : Cached) (name : List UInt8)
  /-- the test of `iput`: the last reference, and no links -/
  | iputTest (k : Cached)
  /-- `iput` frees the inode -/
  | iputFree (k : Cached)
  /-- `ip->ref--` -/
  | iputDec (k : Cached)

abbrev Act.Resp : Act → Type
  | .iget _ => Cached
  | .idupCwd => Cached
  | .assertRef _ => Unit
  | .assertHeld _ => Unit
  | .acquiresleep _ => Unit
  | .load _ => Unit
  | .releasesleep _ => Unit
  | .stat _ => Dinode
  | .dirfind _ _ => Option (ℕ × ℕ)
  | .iputTest _ => Bool
  | .iputFree _ => Unit
  | .iputDec _ => Unit

section Exec

variable (env : Env)

/-- The inode is truncated and becomes free: the part of `iput` for the last reference. -/
def freeInode : I Unit := do
  itrunc
  modify fun w => { w with ip := { w.ip with type := .free } }
  iupdate

/-- The scan of `iget` for the inode. -/
def State.cached (s : State) (inum : ℕ) : Option Cached :=
  firstIdx fun k => decide (0 < (s.icache k).ref) && decide ((s.icache k).inum = inum)

/-- The scan of `iget` for an entry that is not in use. -/
def State.unused (s : State) : Option Cached := firstIdx fun k => decide ((s.icache k).ref = 0)

/-- What the action does when `p` executes it. -/
def exec (p : Slot) : (a : Act) → State → Except Fault (a.Resp × State)
  | .iget inum, s =>
    match s.cached inum with
    | some k => .ok (k, s.setInode k { s.icache k with ref := (s.icache k).ref + 1 })
    | none =>
      match s.unused with
      | some k => .ok (k, s.setInode k { s.icache k with inum, ref := 1, valid := false })
      | none => .error (.panic .iget)
  | .idupCwd, s =>
    match (s.proc p).cwd with
    | some k => .ok (k, s.setInode k { s.icache k with ref := (s.icache k).ref + 1 })
    | none => .error .null
  | .assertRef k, s => if (s.icache k).ref < 1 then .error (.panic .ilock) else .ok ((), s)
  | .assertHeld k, s =>
    if (s.icache k).lock ≠ some p ∨ (s.icache k).ref < 1 then .error (.panic .iunlock)
    else .ok ((), s)
  | .acquiresleep k, s =>
    if (s.icache k).lock = none then .ok ((), s.setInode k { s.icache k with lock := some p })
    else .error .blocked
  | .load k, s =>
    if (s.icache k).valid then .ok ((), s)
    else
      let c := s.disk.dinode (s.icache k).inum
      if c.type = .free then .error (.panic .ilockNoType)
      else .ok ((), s.setInode k { s.icache k with valid := true, copy := c })
  | .releasesleep k, s => .ok ((), s.setInode k { s.icache k with lock := none })
  | .stat k, s => .ok ((s.icache k).copy, s)
  | .dirfind k name, s => do
    let (r, w) ← Fs.dirfind env name (s.work k)
    return (r, s.setWork k w)
  | .iputTest k, s =>
    .ok ((s.icache k).valid && decide ((s.icache k).copy.nlink = 0) &&
      decide ((s.icache k).ref = 1), s)
  | .iputFree k, s => do
    let (_, w) ← freeInode (s.work k)
    let s := s.setWork k w
    return ((), s.setInode k { s.icache k with valid := false })
  | .iputDec k, s => .ok ((), s.setInode k { s.icache k with ref := (s.icache k).ref - 1 })

end Exec

/-! ### Functions -/

abbrev FsProg := Prog Act.Resp

def act (a : Act) : FsProg a.Resp := .perform a

def iput (k : Cached) : FsProg Unit := do
  act (.acquiresleep k)
  if ← act (.iputTest k) then act (.iputFree k)
  act (.releasesleep k)
  act (.iputDec k)

def ilock (k : Cached) : FsProg Unit := do
  act (.assertRef k)
  act (.acquiresleep k)
  act (.load k)

def iunlock (k : Cached) : FsProg Unit := do
  act (.assertHeld k)
  act (.releasesleep k)

def iunlockput (k : Cached) : FsProg Unit := do
  iunlock k
  iput k

/-- `dirlookup`: the inode of the name, and the offset of the entry. -/
def dirlookup (dp : Cached) (name : List UInt8) : FsProg (Option (Cached × ℕ)) := do
  match ← act (.dirfind dp name) with
  | none => return none
  | some (inum, off) =>
    let ip ← act (.iget inum)
    return some (ip, off)

/-- `skipelem`: the next element of the path, cut off at `DIRSIZ` bytes, and the rest. -/
def skipelem (path : List UInt8) : Option (List UInt8 × List UInt8) :=
  let path := path.dropWhile (· == 47)
  if path.headD 0 = 0 then none
  else
    let elem := path.takeWhile fun c => c != 47 && c != 0
    let rest := path.dropWhile fun c => c != 47 && c != 0
    some (if DIRSIZ ≤ elem.length then elem.take DIRSIZ else elem, rest.dropWhile (· == 47))

/-- The loop of `namex`, for a path of at most `fuel` bytes; with `parent` it stops one level early.
The inode is given with the last element. -/
def namexLoop (parent : Bool) :
    ℕ → List UInt8 → Cached → List UInt8 → FsProg (Option (Cached × List UInt8))
  | 0, _, ip, name => finish ip name
  | fuel + 1, path, ip, name =>
    match skipelem path with
    | none => finish ip name
    | some (elem, rest) => do
      ilock ip
      if (← act (.stat ip)).type ≠ .dir then
        iunlockput ip
        return none
      else if parent ∧ rest.headD 0 = 0 then
        iunlock ip
        return some (ip, elem)
      else
        match ← dirlookup ip elem with
        | none =>
          iunlockput ip
          return none
        | some (next, _) =>
          iunlockput ip
          namexLoop parent fuel rest next elem
where
  /-- The end of the path. -/
  finish (ip : Cached) (name : List UInt8) : FsProg (Option (Cached × List UInt8)) := do
    if parent then
      iput ip
      return none
    else return some (ip, name)

def namex (path : List UInt8) (parent : Bool) : FsProg (Option (Cached × List UInt8)) := do
  let ip ← if path.headD 0 = 47 then act (.iget ROOTINO) else act .idupCwd
  namexLoop parent path.length path ip []

def namei (path : List UInt8) : FsProg (Option Cached) := do
  return (← namex path false).map Prod.fst

def nameiparent (path : List UInt8) : FsProg (Option (Cached × List UInt8)) := namex path true

end Xv6.Fs
