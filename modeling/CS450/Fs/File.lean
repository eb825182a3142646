import CS450.Fs.Log
import CS450.Fs.Content

/-!
# Open files

`fileread` and `filewrite` work at the offset of an open file and move it. `filewrite` splits what
it is given into chunks that fit into one operation of the log, so its effect is that of several
`writei`; it is the effect of one `writei` of everything.

## Main results

* `filewrite_spec`: a chunked write has the effect of one write
* `filereads_spec`: reads one after the other return consecutive parts of the content
* `files_are_byte_arrays`: reads and writes, of inodes and through open files, are those of an array
-/

namespace Xv6.Fs

abbrev NINODE : ℕ := 50

/-- An entry of the inode cache. -/
abbrev Cached := Fin NINODE

/-- `FD_NONE` and `FD_INODE`; pipes have no inode and are not modelled. -/
inductive FileKind
  | none
  | inode
  deriving DecidableEq, Repr

/-- `struct file`. -/
structure File where
  type : FileKind
  ref : ℕ
  readable : Bool
  writable : Bool
  ip : Cached
  off : ℕ

/-- Computations on an open file and its locked inode. -/
abbrev F := StateT (File × Work) (Except Fault)

/-- A computation on the inode of the file. -/
def onInode {α : Type} (m : I α) : F α := fun (f, w) => do
  let (a, w) ← m w
  return (a, f, w)

section Functions

variable (env : Env)

/-- `r = readi(f->ip, addr, f->off, n)` and the move of the offset. -/
def filereadi (n : ℕ) : F (Option (List UInt8)) := do
  let (f, _) ← get
  match ← onInode (readi env f.off n) with
  | some bytes =>
    modify fun (f, w) => ({ f with off := (f.off + bytes.length) % 2 ^ 32 }, w)
    return some bytes
  | none => return none

/-- `r = writei(f->ip, addr + i, f->off, n1)` and the move of the offset. -/
def filewritei (src : List UInt8) : F (Option ℕ) := do
  let (f, _) ← get
  match ← onInode (writei env src f.off) with
  | some r =>
    modify fun (f, w) => ({ f with off := (f.off + r) % 2 ^ 32 }, w)
    return some r
  | none => return none

def fileread (n : ℕ) : F (Option (List UInt8)) := do
  let (f, _) ← get
  if f.readable = false then return none
  match f.type with
  | .inode => filereadi env n
  | .none => onInode (panic .fileread)

/-- The largest number of bytes that one chunk of `filewrite` has. -/
def chunk : ℕ := (Log.MAXOPBLOCKS - 1 - 1 - 2) / 2 * 512

/-- The loop of `filewrite`, with the way a chunk is written and the panic for a short write:
whether everything was written. -/
def writeChunks {m : Type → Type} [Monad m] (write : List UInt8 → m (Option ℕ)) (short : m Bool) :
    ℕ → List UInt8 → m Bool
  | 0, src => return src.isEmpty
  | rounds + 1, src => do
    if src = [] then return true
    let n1 := min src.length chunk
    match ← write (src.take n1) with
    | none => return false
    | some r => if r = n1 then writeChunks write short rounds (src.drop n1) else short

def filewrite (src : List UInt8) : F (Option ℕ) := do
  let (f, _) ← get
  if f.writable = false then return none
  match f.type with
  | .inode =>
    let all ← writeChunks (filewritei env) (onInode (panic .shortFilewrite)) src.length src
    return if all then some src.length else none
  | .none => onInode (panic .filewrite)

end Functions

section Spec

variable {env : Env} {w w' : Work} {f : File}

/-! ### Writing -/

/-- Two writes, the second where the first one ended. -/
theorem Written.append {u : Work} {off : ℕ} {src src' : List UInt8} (hoff : off ≤ w.ip.size)
    (h : Written env off src w u) (h' : Written env (off + src.length) src' u w') :
    Written env off (src ++ src') w w' := by
  have htake : (w.content.take off).length = off := by
    rw [List.length_take, w.length_content]
    omega
  have hlen : (w.content.take off ++ src).length = off + src.length := by
    rw [List.length_append, htake]
  have hfront : u.content.take (off + src.length) = w.content.take off ++ src := by
    rw [h.content_eq]
    exact List.take_left' hlen
  have hback : u.content.drop (off + src.length + src'.length) =
      w.content.drop (off + src.length + src'.length) := by
    rw [h.content_eq, ← List.drop_drop, List.drop_left' hlen, List.drop_drop]
  refine ⟨h.apart.trans h'.apart, h'.owned, h'.whole, ?_, ?_, ?_, fun hs => h'.sync (h.sync hs)⟩
  · have hu := h'.rest_eq
    rw [← h.rest_eq, ← hu]
  · rw [h'.size_eq, h.size_eq, List.length_append]
    omega
  · rw [h'.content_eq, hfront, hback, List.length_append]
    simp only [List.append_assoc, Nat.add_assoc]

theorem Written.nil {off : ℕ} (hoff : off ≤ w.ip.size) (h : Owned env w.view w.disk)
    (hw : w.Whole) : Written env off [] w w := by
  refine ⟨.refl w, h, hw, rfl, ?_, ?_, id⟩
  · rw [List.length_nil]
    omega
  · simp [List.take_append_drop]

theorem Written.type_eq {off : ℕ} {src : List UInt8} (h : Written env off src w w') :
    w'.ip.type = w.ip.type := by
  rw [← h.rest_eq]

theorem fileread_of_inode {n : ℕ} (hreadable : f.readable = true) (htype : f.type = .inode) :
    fileread env n (f, w) = filereadi env n (f, w) := by
  obtain ⟨type, ref, readable, writable, ip, off⟩ := f
  subst hreadable htype
  rfl

theorem filewrite_of_inode {src : List UInt8} (hwritable : f.writable = true)
    (htype : f.type = .inode) :
    filewrite env src (f, w) = (do
      let all ← writeChunks (filewritei env) (onInode (panic .shortFilewrite)) src.length src
      return if all then some src.length else none) (f, w) := by
  obtain ⟨type, ref, readable, writable, ip, off⟩ := f
  subst hwritable htype
  rfl

theorem onInode_of_ok {α : Type} {m : I α} {a : α} (h : m w = .ok (a, w')) :
    onInode m (f, w) = .ok (a, f, w') := by
  show (m w >>= fun x => pure (x.1, f, x.2)) = _
  rw [h]
  rfl

/-- One chunk. -/
theorem filewritei_spec {n : ℕ} {src : List UInt8} (h : Owned env w.view w.disk) (hw : w.Whole)
    (hf : w.ip.type ≠ .free) (hd : w.ip.type ≠ .dev) (hoff : f.off ≤ w.ip.size)
    (hmax : f.off + src.length ≤ MAXFILE * BSIZE) (hn : src.length ≤ n)
    (hneed : w.need f.off n ≤ w.disk.free env) :
    ∃ w', filewritei env src (f, w) =
        .ok (some src.length, { f with off := f.off + src.length }, w') ∧
      Written env f.off src w w' ∧
      w'.need (f.off + src.length) (n - src.length) ≤ w'.disk.free env := by
  have hsize : MAXFILE * BSIZE = 71680 := rfl
  obtain ⟨r, w', hwrite, hneed'⟩ := writei_isOk h hf hd hn hneed
  have hspec := writei_spec h hw hf hd (by omega) (by omega) hwrite
  rw [if_pos ⟨hoff, hmax⟩] at hspec
  obtain ⟨rfl, hwritten⟩ := hspec
  refine ⟨w', ?_, hwritten, hneed' rfl⟩
  have hmod : (f.off + src.length) % 2 ^ 32 = f.off + src.length := Nat.mod_eq_of_lt (by omega)
  unfold filewritei
  rw [StateT.get_bind]
  show (onInode (writei env src f.off) >>= _) (f, w) = _
  rw [StateT.bind_of_ok (onInode_of_ok hwrite), ← hmod]
  rfl

/-- The chunks one after the other. -/
theorem writeChunks_spec {rounds : ℕ} {src : List UInt8} (hlen : src.length ≤ rounds)
    (h : Owned env w.view w.disk) (hw : w.Whole) (hf : w.ip.type ≠ .free) (hd : w.ip.type ≠ .dev)
    (hoff : f.off ≤ w.ip.size) (hmax : f.off + src.length ≤ MAXFILE * BSIZE)
    (hneed : w.need f.off src.length ≤ w.disk.free env) (short : F Bool) :
    ∃ w', writeChunks (filewritei env) short rounds src (f, w) =
        .ok (true, { f with off := f.off + src.length }, w') ∧ Written env f.off src w w' := by
  induction rounds generalizing src f w with
  | zero =>
    obtain rfl : src = [] := List.length_eq_zero_iff.mp (by omega)
    exact ⟨w, rfl, .nil hoff h hw⟩
  | succ rounds ih =>
    rw [writeChunks]
    by_cases h0 : src = []
    · subst h0
      exact ⟨w, rfl, .nil hoff h hw⟩
    · rw [if_neg h0]
      set m := min src.length chunk with hm
      have hchunk : 0 < chunk := by decide
      have htake : (src.take m).length = m := by
        rw [List.length_take]
        omega
      have hdrop : (src.drop m).length = src.length - m := List.length_drop
      obtain ⟨u, hu, hwritten, hneed'⟩ :=
        @filewritei_spec env w f src.length (src.take m) h hw hf hd hoff
        (by omega) (by omega) hneed
      rw [htake] at hu hneed'
      have hoff' : f.off + m ≤ u.ip.size := by
        rw [hwritten.size_eq, htake]
        exact le_max_right _ _
      obtain ⟨w', hw', hwritten'⟩ := @ih u { f with off := f.off + m } (src.drop m)
        (by omega) hwritten.owned hwritten.whole (by rw [hwritten.type_eq]; exact hf)
        (by rw [hwritten.type_eq]; exact hd) hoff' (show f.off + m + _ ≤ _ by omega)
        (by rw [hdrop]; exact hneed')
      refine ⟨w', ?_, ?_⟩
      · rw [StateT.bind_of_ok hu]
        simp only [if_true]
        rw [hw', hdrop, Nat.add_assoc, Nat.add_sub_cancel' (by omega)]
      · have := hwritten.append hoff (by rw [htake]; exact hwritten')
        rwa [List.take_append_drop] at this

/-- **`filewrite`** has the effect of one write of everything. -/
theorem filewrite_spec {src : List UInt8} (hwritable : f.writable = true) (htype : f.type = .inode)
    (h : Owned env w.view w.disk) (hw : w.Whole) (hf : w.ip.type ≠ .free) (hd : w.ip.type ≠ .dev)
    (hoff : f.off ≤ w.ip.size) (hmax : f.off + src.length ≤ MAXFILE * BSIZE)
    (hneed : w.need f.off src.length ≤ w.disk.free env) :
    ∃ w', filewrite env src (f, w) =
        .ok (some src.length, { f with off := f.off + src.length }, w') ∧
      Written env f.off src w w' := by
  obtain ⟨w', hchunks, hwritten⟩ := writeChunks_spec le_rfl h hw hf hd hoff hmax hneed
    (onInode (panic .shortFilewrite))
  refine ⟨w', ?_, hwritten⟩
  rw [filewrite_of_inode hwritable htype, StateT.bind_of_ok hchunks]
  rfl

/-! ### Reading -/

/-- **`fileread`** returns the next bytes of the content. -/
theorem fileread_spec {n : ℕ} (hreadable : f.readable = true) (htype : f.type = .inode)
    (hw : w.Whole) (hd : w.ip.type ≠ .dev) (hoff : f.off ≤ w.ip.size) (hn : n < 2 ^ 31) :
    fileread env n (f, w) = .ok (some ((w.content.drop f.off).take n),
      { f with off := f.off + min n (w.ip.size - f.off) }, w) := by
  have hsize : MAXFILE * BSIZE = 71680 := rfl
  have hle := hw.size_le
  have hread := @readi_eq env w hw hd f.off n (by omega) (by omega)
  rw [if_neg (by omega)] at hread
  have hlen : ((w.content.drop f.off).take n).length = min n (w.ip.size - f.off) := by
    rw [List.length_take, List.length_drop, w.length_content]
  have hmod : (f.off + min n (w.ip.size - f.off)) % 2 ^ 32 = f.off + min n (w.ip.size - f.off) :=
    Nat.mod_eq_of_lt (by omega)
  rw [fileread_of_inode hreadable htype]
  unfold filereadi
  rw [StateT.get_bind]
  show (onInode (readi env f.off n) >>= _) (f, w) = _
  rw [StateT.bind_of_ok (onInode_of_ok hread), ← hmod, ← hlen]
  rfl

/-- Reads of several lengths, one after the other. -/
def filereads (env : Env) (lens : List ℕ) : F (List (Option (List UInt8))) :=
  lens.mapM (fileread env)

/-- **Consecutive reads** return consecutive parts of the content. -/
theorem filereads_spec {lens : List ℕ} (hreadable : f.readable = true) (htype : f.type = .inode)
    (hw : w.Whole) (hd : w.ip.type ≠ .dev) (hoff : f.off ≤ w.ip.size)
    (hlens : ∀ n ∈ lens, n < 2 ^ 31) :
    ∃ (parts : List (List UInt8)) (f' : File),
      filereads env lens (f, w) = .ok (parts.map some, f', w) ∧
      parts.flatten = (w.content.drop f.off).take lens.sum := by
  induction lens generalizing f with
  | nil => exact ⟨[], f, rfl, by simp⟩
  | cons n lens ih =>
    have hread := @fileread_spec env w f n hreadable htype hw hd hoff (hlens n (by simp))
    have hoff' : f.off + min n (w.ip.size - f.off) ≤ w.ip.size := by omega
    obtain ⟨parts, f', hrest, hflat⟩ :=
      @ih { f with off := f.off + min n (w.ip.size - f.off) } hreadable htype hoff'
        fun m hm => hlens m (List.mem_cons_of_mem _ hm)
    refine ⟨(w.content.drop f.off).take n :: parts, f', ?_, ?_⟩
    · unfold filereads at hrest ⊢
      rw [List.mapM_cons, StateT.bind_of_ok hread, StateT.bind_of_ok hrest]
      rfl
    · rw [List.flatten_cons, hflat, List.sum_cons, List.take_add, List.drop_drop]
      -- At the end of the file the offset stays, and nothing is left to read.
      have hlen := w.length_content
      rcases Nat.le_total n (w.ip.size - f.off) with hle | hle
      · rw [Nat.min_eq_left hle]
      · rw [Nat.min_eq_right hle, List.drop_eq_nil_of_le (show _ ≤ f.off + n by omega),
          List.drop_eq_nil_of_le (show _ ≤ f.off + (w.ip.size - f.off) by omega)]

/-! ### Byte arrays -/

/-- A file system without holes, with an inode of it locked in memory. -/
structure NoHoles (env : Env) (w : Work) : Prop where
  owned : Owned env w.view w.disk
  whole : ∀ i, (w.view i).type ≠ .free → (w.view i).Whole w.disk.data

/-- The other inodes are the same on the disk and have the same content. -/
def OthersSame (w w' : Work) : Prop :=
  ∀ j, j ≠ w.inum → w'.disk.dinode j = w.disk.dinode j ∧ ((w.disk.dinode j).type ≠ .free →
    (w'.disk.dinode j).content w'.disk.data = (w.disk.dinode j).content w.disk.data)

theorem NoHoles.othersSame (h : NoHoles env w) (hapart : Apart w w') : OthersSame w w' := by
  intro j hj
  refine ⟨hapart.dinode_eq j hj, fun hf => hapart.content_eq hj hf ?_⟩
  have := h.whole j
  rw [w.view_of_ne hj] at this
  exact this hf

/-- **Files are byte arrays.** For every regular file and directory of a file system without holes:
`readi` returns the part of the content asked for; `writei` replaces or appends it, or fails and
does nothing; no other inode is affected; and what a `filewrite` has written, in chunks, later
`fileread`s of any lengths return. Enough free blocks are assumed for what is written. -/
theorem files_are_byte_arrays (h : NoHoles env w) (ht : w.ip.type = .file ∨ w.ip.type = .dir) :
    (∀ off n, off < 2 ^ 32 → n < 2 ^ 32 → readi env off n w =
      .ok (if w.ip.size < off ∨ 2 ^ 32 ≤ off + n then none
        else some ((w.content.drop off).take n), w)) ∧
    (∀ off src, off < 2 ^ 32 → src.length < 2 ^ 32 →
      (off ≤ w.ip.size → off + src.length ≤ MAXFILE * BSIZE →
        w.need off src.length ≤ w.disk.free env) →
      ∃ r w', writei env src off w = .ok (r, w') ∧ OthersSame w w' ∧
        if off ≤ w.ip.size ∧ off + src.length ≤ MAXFILE * BSIZE then
          r = some src.length ∧ w'.ip.size = max w.ip.size (off + src.length) ∧
            w'.content = w.content.take off ++ src ++ w.content.drop (off + src.length)
        else r = none ∧ w' = w) ∧
    (∀ f src, f.type = .inode → f.writable = true → f.off ≤ w.ip.size →
      f.off + src.length ≤ MAXFILE * BSIZE → w.need f.off src.length ≤ w.disk.free env →
      ∃ f' w', filewrite env src (f, w) = .ok (some src.length, f', w') ∧ OthersSame w w' ∧
        ∀ g lens, g.type = .inode → g.readable = true → g.off = f.off →
          (∀ n ∈ lens, n < 2 ^ 31) → lens.sum ≤ src.length →
          ∃ (parts : List (List UInt8)) (g' : File),
            filereads env lens (g, w') = .ok (parts.map some, g', w') ∧
            parts.flatten = src.take lens.sum) := by
  have hf : w.ip.type ≠ .free := by
    intro hfree
    rw [hfree] at ht
    simp at ht
  have hd : w.ip.type ≠ .dev := by
    intro hdev
    rw [hdev] at ht
    simp at ht
  have hw : w.Whole := by
    have := h.whole w.inum
    rw [w.view_inum] at this
    exact this hf
  refine ⟨fun off n hoff hn => readi_eq hw hd hoff hn, ?_, ?_⟩
  · intro off src hoff hn hneed
    by_cases hok : off ≤ w.ip.size ∧ off + src.length ≤ MAXFILE * BSIZE
    · obtain ⟨r, w', hwrite, -⟩ := writei_isOk h.owned hf hd le_rfl (hneed hok.1 hok.2)
      have hspec := writei_spec h.owned hw hf hd hoff hn hwrite
      rw [if_pos hok] at hspec
      obtain ⟨rfl, hwritten⟩ := hspec
      refine ⟨_, w', hwrite, h.othersSame hwritten.apart, ?_⟩
      rw [if_pos hok]
      exact ⟨rfl, hwritten.size_eq, hwritten.content_eq⟩
    · refine ⟨none, w, writei_of_not hd hok, h.othersSame (.refl w), ?_⟩
      rw [if_neg hok]
      exact ⟨rfl, rfl⟩
  · intro f src htype hwritable hoff hmax hneed
    obtain ⟨w', hwrite, hwritten⟩ :=
      filewrite_spec hwritable htype h.owned hw hf hd hoff hmax hneed
    refine ⟨_, w', hwrite, h.othersSame hwritten.apart, ?_⟩
    intro g lens hgtype hreadable hgoff hlens hsum
    obtain ⟨parts, g', hreads, hflat⟩ := @filereads_spec env w' g lens hreadable hgtype
      hwritten.whole (by rw [hwritten.type_eq]; exact hd)
      (by rw [hgoff, hwritten.size_eq]; omega) hlens
    refine ⟨parts, g', hreads, ?_⟩
    -- The content from the offset on begins with what was written.
    have htake : (w.content.take f.off).length = f.off := by
      rw [List.length_take, w.length_content]
      omega
    rw [hflat, hgoff, hwritten.content_eq, List.append_assoc, List.drop_left' htake,
      List.take_append_of_le_length hsum]

end Spec

/-! ### An empty file -/

section Example

/-- A small disk. -/
def smallEnv : Env where
  size := 20
  nblocks := 10
  ninodes := 5
  nblocks_lt := by decide
  size_lt := by decide
  devRead _ := none
  devWrite _ := none

/-- An empty inode of type `t` on a disk with nothing else. -/
def blank (t : FileType) : Work where
  inum := 2
  ip := { Dinode.zero with type := t, nlink := 1 }
  disk :=
    { dinode := Function.update (fun _ => .zero) 2 { Dinode.zero with type := t, nlink := 1 }
      bitmap := fun b => b < 10
      data := fun _ => .zero }

theorem noHoles_blank (t : FileType) : NoHoles smallEnv (blank t) := by
  have hview : (blank t).view =
      Function.update (fun _ => .zero) 2 { Dinode.zero with type := t, nlink := 1 } := by
    simp [Work.view, blank]
  have hheld : ∀ x, held (blank t).view (blank t).disk.data x = 0 := by
    rintro ⟨i, q⟩
    rw [hview]
    by_cases hi : i = 2
    · subst hi
      cases q <;> simp [held, Dinode.ptr, Dinode.block, Dinode.zero]
    · exact held_of_free (by simp [hi, Dinode.zero])
  refine ⟨⟨⟨?_, ?_⟩, ?_⟩, ?_⟩
  · intro x y hx
    exact absurd (hheld x) hx
  · intro b
    constructor
    · rintro ⟨hbit, hdata⟩
      have hlt : b < 10 := by simpa [blank] using hbit
      have hge : 10 ≤ b := hdata.1
      omega
    · rintro ⟨hb, x, hx⟩
      rw [hheld] at hx
      exact absurd hx.symm hb
  · intro b hb
    have hlt : b < 10 := hb
    simpa [blank] using hlt
  · intro i hi
    rw [hview] at hi ⊢
    by_cases h2 : i = 2
    · subst h2
      refine ⟨by simp [Dinode.zero], fun bn hbn => ?_⟩
      simp [Dinode.zero] at hbn
    · simp [h2, Dinode.zero] at hi

/-- The theorem at an empty file: three bytes are written at its beginning. -/
theorem files_are_byte_arrays_empty_file :
    NoHoles smallEnv (blank .file) ∧
      ((blank .file).ip.type = .file ∨ (blank .file).ip.type = .dir) ∧
      ∃ r w', writei smallEnv [1, 2, 3] 0 (blank .file) = .ok (r, w') ∧
        OthersSame (blank .file) w' ∧ r = some 3 ∧ w'.ip.size = 3 ∧ w'.content = [1, 2, 3] := by
  have ht : (blank .file).ip.type = .file ∨ (blank .file).ip.type = .dir := .inl rfl
  refine ⟨noHoles_blank .file, ht, ?_⟩
  obtain ⟨r, w', hwrite, hsame, hspec⟩ := (files_are_byte_arrays (noHoles_blank .file) ht).2.1 0
    [1, 2, 3] (by decide) (by decide) (fun _ _ => by decide +kernel)
  exact ⟨r, w', hwrite, hsame, hspec⟩

end Example

end Xv6.Fs
