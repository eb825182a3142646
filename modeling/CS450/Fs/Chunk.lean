import CS450.Fs.File

/-!
# A chunk of a write fits its reservation

`filewrite` cuts what it writes into chunks, and each chunk is an operation of the log for which
`MAXOPBLOCKS` blocks are reserved. The functions of a write are given here once more, with the
blocks that they pass to `log_write`; without these they are the functions of `Fs.Inode`.

A chunk touches at most four blocks of the file. All bits that `balloc` sets are in the one bitmap
block, a new block is zeroed before it is written, and there is one indirect block and one inode. So
at most eight blocks are logged, whatever the inode looks like: one of them is block `0`, which
`balloc` returns if the bitmap says that it is free.

## Main results

* `writei_erases`: `Logged.writei` does what `writei` does
* `bmap_within`, `writeLoop_within`: the blocks that are logged
* `writei_logs_changes`: what `writei` changes is logged
* `chunk_fits_reservation`: a chunk logs at most `MAXOPBLOCKS` distinct blocks
-/

namespace Xv6.Fs

/-- `FSSIZE`, the size of the file system that `mkfs` builds -/
abbrev FSSIZE : ℕ := 1000

/-- Inodes per block. -/
abbrev IPB : ℕ := 8

/-- Bits per block. -/
abbrev BPB : ℕ := BSIZE * 8

/-- Where the superblock says that the inodes and the bitmap begin. -/
structure Layout where
  inodestart : ℕ
  bmapstart : ℕ
  deriving DecidableEq, Repr

namespace Logged

/-- A locked inode, the disk, and the blocks that were passed to `log_write`. -/
structure Trace where
  work : Work
  logged : List ℕ

/-- Computations on a locked inode that log blocks. What was logged before a fault is kept. -/
abbrev L := ExceptT Fault (StateM Trace)

def onWork (f : Work → Work) : L Unit := modify fun s => { s with work := f s.work }

def logWrite (b : ℕ) : L Unit := modify fun s => { s with logged := b :: s.logged }

section Functions

variable (env : Env) (sb : Layout)

def bzero (b : ℕ) : L Unit := do
  onWork (Work.setData b .zero)
  logWrite b

def balloc : L ℕ := do
  let s ← get
  match (List.range env.size).find? fun b => !s.work.disk.bitmap b with
  | none => throw (.panic .balloc)
  | some b =>
    onWork (Work.setBit b true)
    logWrite (b / BPB + sb.bmapstart)
    bzero b
    return b

def iupdate : L Unit := do
  let s ← get
  onWork fun w =>
    { w with disk := { w.disk with dinode := Function.update w.disk.dinode w.inum w.ip } }
  logWrite (s.work.inum / IPB + sb.inodestart)

/-- The address in `ip->addrs[i]`, allocated if there is none. -/
def addrAlloc (i : ℕ) : L ℕ := do
  let s ← get
  if s.work.ip.addrs i = 0 then
    let addr ← balloc env sb
    onWork (Work.setAddr i addr)
    return addr
  else return s.work.ip.addrs i

/-- The address in the `j`-th place of the indirect block `ind`, allocated if there is none. -/
def indirectAlloc (ind j : ℕ) : L ℕ := do
  let s ← get
  if (s.work.disk.data ind).word j = 0 then
    let addr ← balloc env sb
    onWork fun w => w.setData ind ((w.disk.data ind).setWord j addr)
    logWrite ind
    return addr
  else return (s.work.disk.data ind).word j

def bmap (bn : ℕ) : L ℕ :=
  if bn < NDIRECT then addrAlloc env sb bn
  else if bn - NDIRECT < NINDIRECT then do
    let ind ← addrAlloc env sb NDIRECT
    indirectAlloc env sb ind (bn - NDIRECT)
  else throw (.panic .bmap)

/-- The loop of `writei`, for at most `rounds` rounds; the offset after the last byte. -/
def writeLoop : ℕ → ℕ → List UInt8 → L ℕ
  | 0, off, _ => return off
  | rounds + 1, off, src => do
    if src = [] then return off
    let b ← bmap env sb (off / BSIZE)
    let m := min src.length (BSIZE - off % BSIZE)
    onWork fun w => w.setData b ((w.disk.data b).write (off % BSIZE) (src.take m))
    logWrite b
    writeLoop rounds (off + m) (src.drop m)

def writei (src : List UInt8) (off : ℕ) : L (Option ℕ) := do
  let s ← get
  if s.work.ip.type = .dev then
    match env.devWrite s.work.ip.major with
    | none => return none
    | some write => return write src
  else if s.work.ip.size < off ∨ (off + src.length) % 2 ^ 32 < off then return none
  else if MAXFILE * BSIZE < off + src.length then return none
  else
    let off ← writeLoop env sb src.length off src
    if 0 < src.length ∧ s.work.ip.size < off then
      onWork fun w => { w with ip := { w.ip with size := off } }
      iupdate sb
    return some src.length

end Functions

section Bind

variable {α β : Type} {m : L α} {f : α → L β} {s s' : Trace}

theorem bind_of_ok {a : α} (h : m s = (.ok a, s')) : (m >>= f) s = f a s' := by
  show ExceptT.bindCont f (m s).1 (m s).2 = _
  rw [h]
  rfl

theorem bind_of_error {e : Fault} (h : m s = (.error e, s')) : (m >>= f) s = (.error e, s') := by
  show ExceptT.bindCont f (m s).1 (m s).2 = _
  rw [h]
  rfl

theorem get_bind {f : Trace → L β} : (get >>= f) s = f s s := rfl

theorem onWork_bind {g : Work → Work} {f : Unit → L β} :
    (onWork g >>= f) s = f () { s with work := g s.work } := rfl

theorem logWrite_bind {b : ℕ} {f : Unit → L β} :
    (logWrite b >>= f) s = f () { s with logged := b :: s.logged } := rfl

theorem pure_run (a : α) : (pure a : L α) s = (.ok a, s) := rfl

end Bind

/-! ### Without the log -/

/-- What is left when the blocks are forgotten. -/
def erase {α : Type} : Except Fault α × Trace → Except Fault (α × Work)
  | (.ok a, s) => .ok (a, s.work)
  | (.error e, _) => .error e

/-- **The computation does what the other one does, and logs.** -/
def Erases {α : Type} (m : L α) (m' : I α) : Prop := ∀ s, erase (m s) = m' s.work

section Erasure

variable {α β : Type}

theorem Erases.bind {m : L α} {m' : I α} {f : α → L β} {f' : α → I β} (h : Erases m m')
    (hf : ∀ a, Erases (f a) (f' a)) : Erases (m >>= f) (m' >>= f') := by
  intro s
  have hs := h s
  show _ = (m' s.work >>= fun x => f' x.1 x.2)
  rw [← hs]
  rcases hm : m s with ⟨e | a, s'⟩
  · rw [bind_of_error hm]
    rfl
  · rw [bind_of_ok hm]
    exact hf a s'

theorem Erases.pure (a : α) : Erases (pure a) (pure a) := fun _ => rfl

theorem Erases.panic (p : Panic) : Erases (α := α) (throw (.panic p)) (Fs.panic p) := fun _ => rfl

theorem Erases.onWork (f : Work → Work) : Erases (onWork f) (modify f) := fun _ => rfl

/-- A call of `log_write` is forgotten. -/
theorem Erases.logWrite {m : L α} {m' : I α} {b : ℕ} (h : Erases m m') :
    Erases (logWrite b >>= fun _ => m) m' := fun s => h { s with logged := b :: s.logged }

/-- The state is read. -/
theorem Erases.get {f : Trace → L α} {f' : Work → I α}
    (h : ∀ s, erase (f s s) = f' s.work s.work) : Erases (get >>= f) (get >>= f') := h

variable (env : Env) (sb : Layout)

theorem balloc_erases : Erases (balloc env sb) (Fs.balloc env) := by
  refine .get fun s => ?_
  cases hfind : (List.range env.size).find? fun b => !s.work.disk.bitmap b with
  | none => rfl
  | some b => rfl

theorem iupdate_erases : Erases (iupdate sb) Fs.iupdate := fun _ => rfl

theorem addrAlloc_erases (i : ℕ) : Erases (addrAlloc env sb i) (Fs.addrAlloc env i) := by
  refine .get fun s => ?_
  by_cases h : s.work.ip.addrs i = 0
  · rw [if_pos h, if_pos h]
    exact (balloc_erases env sb).bind (fun addr => (Erases.onWork _).bind fun _ => .pure addr) s
  · rw [if_neg h, if_neg h]
    rfl

theorem indirectAlloc_erases (ind j : ℕ) :
    Erases (indirectAlloc env sb ind j) (Fs.indirectAlloc env ind j) := by
  refine .get fun s => ?_
  by_cases h : (s.work.disk.data ind).word j = 0
  · rw [if_pos h, if_pos h]
    exact (balloc_erases env sb).bind
      (fun addr => (Erases.onWork _).bind fun _ => .logWrite (.pure addr)) s
  · rw [if_neg h, if_neg h]
    rfl

theorem bmap_erases (bn : ℕ) : Erases (bmap env sb bn) (Fs.bmap env bn) := by
  unfold bmap Fs.bmap
  split_ifs with hdirect hindirect
  · exact addrAlloc_erases env sb bn
  · exact (addrAlloc_erases env sb NDIRECT).bind fun ind => indirectAlloc_erases env sb ind _
  · exact .panic .bmap

theorem writeLoop_erases (rounds off : ℕ) (src : List UInt8) :
    Erases (writeLoop env sb rounds off src) (Fs.writeLoop env rounds off src) := by
  induction rounds generalizing off src with
  | zero => exact .pure off
  | succ rounds ih =>
    rw [writeLoop, Fs.writeLoop]
    split_ifs with hsrc
    · exact .pure off
    · exact (bmap_erases env sb _).bind fun b =>
        (Erases.onWork _).bind fun _ => .logWrite (ih _ _)

/-- **`Logged.writei` is `writei`** with the blocks that it logs. -/
theorem writei_erases (src : List UInt8) (off : ℕ) :
    Erases (writei env sb src off) (Fs.writei env src off) := by
  refine .get fun s => ?_
  by_cases hdev : s.work.ip.type = .dev
  · rw [if_pos hdev, if_pos hdev]
    cases env.devWrite s.work.ip.major <;> rfl
  rw [if_neg hdev, if_neg hdev]
  by_cases hoff : s.work.ip.size < off ∨ (off + src.length) % 2 ^ 32 < off
  · rw [if_pos hoff, if_pos hoff]
    rfl
  rw [if_neg hoff, if_neg hoff]
  by_cases hmax : MAXFILE * BSIZE < off + src.length
  · rw [if_pos hmax, if_pos hmax]
    rfl
  rw [if_neg hmax, if_neg hmax]
  refine (writeLoop_erases env sb _ off src).bind (fun off' => ?_) s
  by_cases hgrow : 0 < src.length ∧ s.work.ip.size < off'
  · simp only [if_pos hgrow]
    exact (Erases.onWork _).bind fun _ => (iupdate_erases sb).bind fun _ => .pure _
  · simp only [if_neg hgrow]
    exact .pure _

end Erasure

/-! ### The blocks that are logged -/

section Blocks

variable {env : Env} {sb : Layout}

/-- The blocks that are logged from one state to the other: the bitmap block, the indirect block,
block `0`, or one of `D`. -/
structure Within (sb : Layout) (D : Finset ℕ) (s s' : Trace) : Prop where
  logged : ∀ b ∈ s'.logged, b ∈ s.logged ∨
    b ∈ insert sb.bmapstart (insert 0 (insert (s'.work.ip.addrs NDIRECT) D))
  indirect : s.work.ip.addrs NDIRECT = 0 ∨ s'.work.ip.addrs NDIRECT = s.work.ip.addrs NDIRECT
  inum : s'.work.inum = s.work.inum

variable {D D' : Finset ℕ} {s s' s'' : Trace}

theorem Within.refl (D : Finset ℕ) (s : Trace) : Within sb D s s :=
  ⟨fun _ hb => .inl hb, .inr rfl, rfl⟩

theorem Within.trans (h : Within sb D s s') (h' : Within sb D' s' s'') :
    Within sb (D ∪ D') s s'' := by
  refine ⟨fun b hb => ?_, ?_, h'.inum.trans h.inum⟩
  · rcases h'.logged b hb with hb | hb
    · rcases h.logged b hb with hb | hb
      · exact .inl hb
      · -- The indirect block of the state between is none, or the one of the last state.
        have := h'.indirect
        grind
    · simp only [Finset.mem_insert, Finset.mem_union] at hb ⊢
      tauto
  · rcases h.indirect with h0 | h0
    · exact .inl h0
    · rw [← h0]
      exact h'.indirect

theorem Within.logWrite {b : ℕ} (h : Within sb D s s')
    (hb : b ∈ insert sb.bmapstart (insert 0 (insert (s'.work.ip.addrs NDIRECT) D))) :
    Within sb D s { s' with logged := b :: s'.logged } := by
  refine ⟨fun b' hb' => ?_, h.indirect, h.inum⟩
  rcases List.mem_cons.mp hb' with rfl | hb'
  · exact .inr hb
  · exact h.logged b' hb'

/-- The computation returns a block, and logs at most this block and those of every write. -/
def LogsOne (sb : Layout) (m : L ℕ) (s : Trace) : Prop :=
  ∃ D : Finset ℕ, D.card ≤ 1 ∧ Within sb D s (m s).2 ∧ ∀ b, (m s).1 = .ok b → b ∈ D

variable (sb)

/-- The result of `balloc`: all bits are in the first bitmap block. -/
theorem balloc_cases (hsize : env.size ≤ BPB) (s : Trace) :
    balloc env sb s = (.error (.panic .balloc), s) ∨
      ∃ b, balloc env sb s =
        (.ok b, ⟨(s.work.setBit b true).setData b .zero, b :: sb.bmapstart :: s.logged⟩) := by
  cases hfind : (List.range env.size).find? fun b => !s.work.disk.bitmap b with
  | none =>
    left
    rw [balloc, get_bind, hfind]
    rfl
  | some b =>
    right
    have hb : b < env.size := List.mem_range.mp (List.mem_of_find?_eq_some hfind)
    have hzero : b / BPB + sb.bmapstart = sb.bmapstart := by
      rw [Nat.div_eq_of_lt (hb.trans_le hsize), Nat.zero_add]
    refine ⟨b, ?_⟩
    rw [balloc, get_bind, hfind]
    simp only [hzero, onWork_bind, logWrite_bind]
    rfl

theorem addrAlloc_run (i : ℕ) (s : Trace) :
    addrAlloc env sb i s = if s.work.ip.addrs i = 0 then
      (balloc env sb >>= fun addr => onWork (Work.setAddr i addr) >>= fun _ => pure addr) s
      else (.ok (s.work.ip.addrs i), s) := by
  rw [addrAlloc, get_bind]
  split_ifs <;> rfl

/-- A direct block. -/
theorem addrAlloc_logsOne (hsize : env.size ≤ BPB) {i : ℕ} (hi : i < NDIRECT) (s : Trace) :
    LogsOne sb (addrAlloc env sb i) s := by
  have hne : NDIRECT ≠ i := by omega
  unfold LogsOne
  rw [addrAlloc_run sb]
  split_ifs with hnone
  · rcases balloc_cases sb hsize s with hfull | ⟨b, hb⟩
    · rw [bind_of_error hfull]
      exact ⟨∅, Nat.zero_le 1, .refl ∅ s, nofun⟩
    · rw [bind_of_ok hb, onWork_bind, pure_run]
      refine ⟨{b}, le_rfl, ⟨fun b' hb' => ?_, .inr ?_, rfl⟩, fun b' hb' => ?_⟩
      · simp only [List.mem_cons] at hb'
        simp only [Finset.mem_insert, Finset.mem_singleton]
        tauto
      · exact Function.update_of_ne hne _ _
      · cases hb'
        exact Finset.mem_singleton_self b
  · refine ⟨{s.work.ip.addrs i}, le_rfl, .refl _ s, fun b' hb' => ?_⟩
    cases hb'
    exact Finset.mem_singleton_self _

/-- The indirect block. -/
theorem addrAlloc_indirect (hsize : env.size ≤ BPB) (s : Trace) :
    Within sb ∅ s (addrAlloc env sb NDIRECT s).2 ∧
      ∀ ind, (addrAlloc env sb NDIRECT s).1 = .ok ind →
        (addrAlloc env sb NDIRECT s).2.work.ip.addrs NDIRECT = ind := by
  rw [addrAlloc_run sb]
  split_ifs with hnone
  · rcases balloc_cases sb hsize s with hfull | ⟨b, hb⟩
    · rw [bind_of_error hfull]
      exact ⟨.refl ∅ s, nofun⟩
    · rw [bind_of_ok hb, onWork_bind, pure_run]
      have hself : Function.update s.work.ip.addrs NDIRECT b NDIRECT = b :=
        Function.update_self ..
      refine ⟨⟨fun b' hb' => ?_, .inl hnone, rfl⟩, fun ind hind => ?_⟩
      · simp only [List.mem_cons] at hb'
        simp only [Work.setAddr, Work.setData, Work.setBit, hself, Finset.mem_insert]
        tauto
      · cases hind
        exact hself
  · refine ⟨.refl ∅ s, fun ind hind => ?_⟩
    cases hind
    rfl

/-- A block of the indirect block. -/
theorem indirectAlloc_logsOne (hsize : env.size ≤ BPB) (j : ℕ) (s : Trace) :
    LogsOne sb (indirectAlloc env sb (s.work.ip.addrs NDIRECT) j) s := by
  unfold LogsOne indirectAlloc
  rw [get_bind]
  split_ifs with hnone
  · rcases balloc_cases sb hsize s with hfull | ⟨b, hb⟩
    · rw [bind_of_error hfull]
      exact ⟨∅, Nat.zero_le 1, .refl ∅ s, nofun⟩
    · rw [bind_of_ok hb, onWork_bind, logWrite_bind, pure_run]
      refine ⟨{b}, le_rfl, ⟨fun b' hb' => ?_, .inr rfl, rfl⟩, fun b' hb' => ?_⟩
      · simp only [List.mem_cons] at hb'
        simp only [Work.setData, Work.setBit, Finset.mem_insert, Finset.mem_singleton]
        tauto
      · cases hb'
        exact Finset.mem_singleton_self b
  · refine ⟨{(s.work.disk.data (s.work.ip.addrs NDIRECT)).word j}, le_rfl, .refl _ s,
      fun b' hb' => ?_⟩
    cases hb'
    exact Finset.mem_singleton_self _

/-- **`bmap`** logs at most one block besides those of every write: the one that it returns. -/
theorem bmap_within (hsize : env.size ≤ BPB) (bn : ℕ) (s : Trace) :
    LogsOne sb (bmap env sb bn) s := by
  unfold bmap
  split_ifs with hdirect hindirect
  · exact addrAlloc_logsOne sb hsize hdirect s
  · obtain ⟨hwithin, hind⟩ := addrAlloc_indirect sb hsize s
    unfold LogsOne
    rcases haddr : addrAlloc env sb NDIRECT s with ⟨e | ind, s'⟩
    · rw [haddr] at hwithin
      rw [bind_of_error haddr]
      exact ⟨∅, Nat.zero_le 1, hwithin, nofun⟩
    · rw [haddr] at hwithin hind
      rw [bind_of_ok haddr, ← hind ind rfl]
      obtain ⟨D, hcard, hD, hmem⟩ := indirectAlloc_logsOne sb hsize (bn - NDIRECT) s'
      exact ⟨D, hcard, by simpa using hwithin.trans hD, hmem⟩
  · exact ⟨∅, Nat.zero_le 1, .refl ∅ s, nofun⟩

/-- The number of blocks that a range of bytes touches. -/
def touched (off n : ℕ) : ℕ := if n = 0 then 0 else (off + n - 1) / BSIZE - off / BSIZE + 1

theorem touched_step (off : ℕ) {n : ℕ} (hn : n ≠ 0) :
    1 + touched (off + min n (BSIZE - off % BSIZE)) (n - min n (BSIZE - off % BSIZE)) ≤
      touched off n := by
  unfold touched BSIZE
  split_ifs <;> omega

theorem touched_chunk (off : ℕ) {n : ℕ} (hn : n ≤ chunk) : touched off n ≤ 4 := by
  have hchunk : chunk = 1536 := rfl
  unfold touched BSIZE
  split_ifs <;> omega

/-- **The loop of `writei`** logs at most one block for each block that it touches, besides those of
every write. -/
theorem writeLoop_within (hsize : env.size ≤ BPB) (rounds off : ℕ) (src : List UInt8) (s : Trace) :
    ∃ D : Finset ℕ, D.card ≤ touched off src.length ∧
      Within sb D s (writeLoop env sb rounds off src s).2 := by
  induction rounds generalizing off src s with
  | zero => exact ⟨∅, Nat.zero_le _, .refl ∅ s⟩
  | succ rounds ih =>
    rw [writeLoop]
    split_ifs with hsrc
    · exact ⟨∅, Nat.zero_le _, .refl ∅ s⟩
    · have hn : src.length ≠ 0 := by simpa using hsrc
      have hstep := touched_step off hn
      obtain ⟨D, hcard, hD, hmem⟩ := bmap_within sb hsize (off / BSIZE) s
      rcases hbmap : bmap env sb (off / BSIZE) s with ⟨e | b, s'⟩
      · rw [hbmap] at hD
        rw [bind_of_error hbmap]
        exact ⟨D, by omega, hD⟩
      · rw [hbmap] at hD hmem
        rw [bind_of_ok hbmap, onWork_bind, logWrite_bind]
        set m := min src.length (BSIZE - off % BSIZE)
        set s'' : Trace := ⟨s'.work.setData b ((s'.work.disk.data b).write (off % BSIZE)
          (src.take m)), b :: s'.logged⟩ with hs''
        obtain ⟨D', hcard', hD'⟩ := ih (off + m) (src.drop m) s''
        have hdisk : Within sb D s ⟨s''.work, s'.logged⟩ := ⟨hD.logged, hD.indirect, hD.inum⟩
        have hround : Within sb D s s'' := hdisk.logWrite (by simp [hmem b rfl, hs''])
        refine ⟨D ∪ D', ?_, hround.trans hD'⟩
        rw [List.length_drop] at hcard'
        have := Finset.card_union_le D D'
        omega

/-- **`writei`** logs the blocks of the loop, and the block of the inode. -/
theorem writei_within (hsize : env.size ≤ BPB) (src : List UInt8) (off : ℕ) (s : Trace) :
    ∃ s' D, D.card ≤ touched off src.length ∧ Within sb D s s' ∧
      ((writei env sb src off s).2.logged = s'.logged ∨
        (writei env sb src off s).2.logged = (s.work.inum / IPB + sb.inodestart) :: s'.logged) := by
  rw [writei, get_bind]
  split_ifs with hdev hoff hmax
  · refine ⟨s, ∅, Nat.zero_le _, .refl ∅ s, .inl ?_⟩
    cases env.devWrite s.work.ip.major <;> rfl
  · exact ⟨s, ∅, Nat.zero_le _, .refl ∅ s, .inl rfl⟩
  · exact ⟨s, ∅, Nat.zero_le _, .refl ∅ s, .inl rfl⟩
  · obtain ⟨D, hcard, hD⟩ := writeLoop_within sb hsize src.length off src s
    refine ⟨(writeLoop env sb src.length off src s).2, D, hcard, hD, ?_⟩
    rcases hloop : writeLoop env sb src.length off src s with ⟨e | off', s'⟩
    · rw [bind_of_error hloop]
      exact .inl rfl
    · rw [hloop] at hD
      rw [bind_of_ok hloop]
      split_ifs with hgrow
      · right
        rw [← hD.inum]
        rfl
      · exact .inl rfl

end Blocks

/-! ### Nothing is changed without the log -/

section Ahead

variable {α β : Type} {env : Env} {sb : Layout} {d : Image} {m : L α} {f : α → L β}

/-- **What is different from the disk `d` has been logged.** -/
structure Ahead (sb : Layout) (d : Image) (s : Trace) : Prop where
  data : ∀ b, s.work.disk.data b ≠ d.data b → b ∈ s.logged
  bit : ∀ b, s.work.disk.bitmap b ≠ d.bitmap b → b / BPB + sb.bmapstart ∈ s.logged
  inode : ∀ i, s.work.disk.dinode i ≠ d.dinode i → i / IPB + sb.inodestart ∈ s.logged

/-- The computation logs what it changes, also if it faults. -/
def Logs (sb : Layout) (d : Image) (m : L α) : Prop := ∀ s, Ahead sb d s → Ahead sb d (m s).2

theorem Logs.bind (hm : Logs sb d m) (hf : ∀ a, Logs sb d (f a)) : Logs sb d (m >>= f) := by
  intro s hs
  have hs' := hm s hs
  rcases h : m s with ⟨e | a, s'⟩
  all_goals rw [h] at hs'
  · rw [bind_of_error h]
    exact hs'
  · rw [bind_of_ok h]
    exact hf a s' hs'

theorem Logs.pure (a : α) : Logs sb d (pure a) := fun _ hs => hs

/-- A change of the inode in memory. -/
theorem Logs.setIp (g : Work → Dinode) : Logs sb d (onWork fun w => { w with ip := g w }) :=
  fun _ hs => ⟨hs.data, hs.bit, hs.inode⟩

/-- A change at one place, which is logged. -/
theorem mem_of_update_ne {γ : Type} {g g₀ : ℕ → γ} {l : List ℕ} (c : ℕ → ℕ)
    (h : ∀ y, g y ≠ g₀ y → c y ∈ l) {x y : ℕ} {v : γ} (hne : Function.update g x v y ≠ g₀ y) :
    c y ∈ c x :: l := by
  by_cases hy : y = x
  · rw [hy]
    exact .head _
  · rw [Function.update_of_ne hy] at hne
    exact .tail _ (h y hne)

/-- A block is stored and logged. -/
theorem Logs.store {b : ℕ} (g : Work → Block) (h : Logs sb d m) :
    Logs sb d (onWork (fun w => w.setData b (g w)) >>= fun _ => logWrite b >>= fun _ => m) := by
  intro s hs
  apply h
  exact ⟨fun _ => mem_of_update_ne id hs.data, fun b' hne => .tail _ (hs.bit b' hne),
    fun i hne => .tail _ (hs.inode i hne)⟩

theorem balloc_logs : Logs sb d (balloc env sb) := by
  intro s hs
  rw [balloc, get_bind]
  cases (List.range env.size).find? fun b => !s.work.disk.bitmap b with
  | none => exact hs
  | some b =>
    apply Logs.store (fun _ => .zero) (.pure b)
    exact ⟨fun b' hne => .tail _ (hs.data b' hne),
      fun _ => mem_of_update_ne (· / BPB + sb.bmapstart) hs.bit,
      fun i hne => .tail _ (hs.inode i hne)⟩

theorem iupdate_logs : Logs sb d (iupdate sb) := fun _ hs =>
  ⟨fun b hne => .tail _ (hs.data b hne), fun b hne => .tail _ (hs.bit b hne),
    fun _ => mem_of_update_ne (· / IPB + sb.inodestart) hs.inode⟩

theorem addrAlloc_logs (i : ℕ) : Logs sb d (addrAlloc env sb i) := by
  intro s
  rw [addrAlloc, get_bind]
  split_ifs
  · exact (balloc_logs.bind fun addr => (Logs.setIp _).bind fun _ => .pure addr) s
  · exact id

theorem indirectAlloc_logs (ind j : ℕ) : Logs sb d (indirectAlloc env sb ind j) := by
  intro s
  rw [indirectAlloc, get_bind]
  split_ifs
  · exact (balloc_logs.bind fun addr => .store _ (.pure addr)) s
  · exact id

theorem bmap_logs (bn : ℕ) : Logs sb d (bmap env sb bn) := by
  unfold bmap
  split_ifs
  · exact addrAlloc_logs bn
  · exact (addrAlloc_logs NDIRECT).bind fun ind => indirectAlloc_logs ind _
  · exact fun _ hs => hs

theorem writeLoop_logs (rounds off : ℕ) (src : List UInt8) :
    Logs sb d (writeLoop env sb rounds off src) := by
  induction rounds generalizing off src with
  | zero => exact .pure off
  | succ rounds ih =>
    rw [writeLoop]
    split_ifs
    · exact .pure off
    · exact (bmap_logs _).bind fun b => .store _ (ih _ _)

theorem writei_logs (src : List UInt8) (off : ℕ) : Logs sb d (writei env sb src off) := by
  intro s
  rw [writei, get_bind]
  split_ifs
  · cases env.devWrite s.work.ip.major <;> exact id
  · exact id
  · exact id
  · refine (writeLoop_logs _ off src).bind (fun off' => ?_) s
    split_ifs
    · exact (Logs.setIp _).bind fun _ => iupdate_logs.bind fun _ => .pure _
    · exact .pure _

end Ahead

end Logged

/-- **A write chunk fits its log reservation.** On a file system of `FSSIZE` blocks, a chunk of
`filewrite` passes at most `MAXOPBLOCKS` distinct blocks to `log_write`, for every inode and every
offset, and also if it faults. -/
theorem chunk_fits_reservation (env : Env) (hsize : env.size = FSSIZE) (sb : Layout) (w : Work)
    (src : List UInt8) (hsrc : src.length ≤ chunk) (off : ℕ) :
    ((Logged.writei env sb src off ⟨w, []⟩).2.logged.toFinset).card ≤ Log.MAXOPBLOCKS := by
  have hbits : env.size ≤ BPB := by rw [hsize]; decide
  obtain ⟨s', D, hcard, hD, hlogged⟩ := Logged.writei_within sb hbits src off ⟨w, []⟩
  have htouched := Logged.touched_chunk off hsrc
  set all := insert (w.inum / IPB + sb.inodestart)
    (insert sb.bmapstart (insert 0 (insert (s'.work.ip.addrs NDIRECT) D))) with hall
  have hsub : (Logged.writei env sb src off ⟨w, []⟩).2.logged.toFinset ⊆ all := by
    intro b hb
    rw [List.mem_toFinset] at hb
    have hloop : b ∈ s'.logged → b ∈ all := fun hb =>
      Finset.mem_insert_of_mem ((hD.logged b hb).resolve_left List.not_mem_nil)
    rcases hlogged with h | h
    · exact hloop (h ▸ hb)
    · rw [h] at hb
      rcases List.mem_cons.mp hb with rfl | hb
      · exact Finset.mem_insert_self _ _
      · exact hloop hb
  calc _ ≤ all.card := Finset.card_le_card hsub
    _ ≤ D.card + 1 + 1 + 1 + 1 := by
      refine (Finset.card_insert_le _ _).trans (Nat.succ_le_succ ?_)
      refine (Finset.card_insert_le _ _).trans (Nat.succ_le_succ ?_)
      refine (Finset.card_insert_le _ _).trans (Nat.succ_le_succ ?_)
      exact Finset.card_insert_le _ _
    _ ≤ Log.MAXOPBLOCKS := by
      have : Log.MAXOPBLOCKS = 10 := rfl
      omega

/-- The file system that `mkfs` builds, without devices. -/
def mkfsEnv : Env where
  size := FSSIZE
  nblocks := 941
  ninodes := 200
  nblocks_lt := by decide
  size_lt := by decide
  devRead := fun _ => none
  devWrite := fun _ => none

/-- A new file on a disk on which only the first 59 blocks are in use. -/
def newFile : Work :=
  ⟨2, ⟨.file, 0, 0, 1, 0, fun _ => 0⟩, ⟨fun _ => .zero, fun b => decide (b < 59), fun _ => .zero⟩⟩

/-- The first chunk of a file: three blocks, the bitmap and the inode. -/
theorem chunk_fits_reservation_new :
    (Logged.writei mkfsEnv ⟨32, 58⟩ (List.replicate chunk 1) 0 ⟨newFile, []⟩).2.logged.toFinset =
        {32, 58, 59, 60, 61} ∧
      ((Logged.writei mkfsEnv ⟨32, 58⟩ (List.replicate chunk 1) 0
        ⟨newFile, []⟩).2.logged.toFinset).card ≤ Log.MAXOPBLOCKS := by
  refine ⟨by decide +kernel, chunk_fits_reservation mkfsEnv rfl _ _ _ ?_ _⟩
  rw [List.length_replicate]

/-- **Write-ahead logging.** Whatever `writei` changes on the disk, blocks of data, bits of the
bitmap or inodes, has been passed to `log_write`, also if it panics on the way. -/
theorem writei_logs_changes (env : Env) (sb : Layout) (src : List UInt8) (off : ℕ) (w : Work) :
    Logged.Ahead sb w.disk (Logged.writei env sb src off ⟨w, []⟩).2 ∧
      Logged.erase (Logged.writei env sb src off ⟨w, []⟩) = writei env src off w :=
  ⟨Logged.writei_logs src off _ ⟨fun _ h => absurd rfl h, fun _ h => absurd rfl h,
    fun _ h => absurd rfl h⟩, Logged.writei_erases env sb src off ⟨w, []⟩⟩

end Xv6.Fs
