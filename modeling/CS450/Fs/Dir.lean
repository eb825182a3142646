import CS450.Lib.Slots
import CS450.Lib.Run
import CS450.Fs.File

/-!
# Directories as finite maps

The content of a directory is a table of entries of `DESIZE` bytes. `dirlookup`, `dirlink` and the
erasure in `sys_unlink` are loops over `readi` and one `writei`; on the table of entries they are
the operations of a table of slots, so a directory is a finite map from names to inode numbers.

Names are compared on their first `DIRSIZ` bytes, up to a terminating one. `nameKey` is what two
equal names have in common.

## Main results

* `dirfind_eq`, `direntWrite_spec`, `direntErase_spec`, `isdirempty_eq`: the functions on the table
* `directories_are_maps`: a directory represents the map given by its history
-/

namespace Xv6.Fs

open Function (update update_apply update_of_ne update_self)
open Slots Transition

/-! ### Names -/

/-- The first `DIRSIZ` bytes of a name, up to a terminating one. -/
def nameKey (name : List UInt8) : List UInt8 :=
  (name.take DIRSIZ).takeWhile fun c => !decide (c = 0)

theorem strncmp_eq_zero_iff {n : ℕ} {p q : List UInt8} : strncmp p q n = 0 ↔
    (p.take n).takeWhile (fun c => !decide (c = 0)) =
      (q.take n).takeWhile fun c => !decide (c = 0) := by
  induction n generalizing p q with
  | zero => simp [strncmp]
  | succ n ih =>
    have hval : ∀ a b : UInt8, ((a.toNat : ℤ) - b.toNat = 0) ↔ a = b := by
      intro a b
      rw [sub_eq_zero, Nat.cast_inj, UInt8.toNat_inj]
    rw [strncmp]
    split_ifs with hc
    · -- Both begin with the same byte, which is not the terminating one.
      obtain ⟨a, p, rfl⟩ := List.exists_cons_of_ne_nil (l := p) (by rintro rfl; simp at hc)
      obtain ⟨b, q, rfl⟩ := List.exists_cons_of_ne_nil (l := q) (by rintro rfl; simp at hc)
      obtain ⟨ha, rfl⟩ : a ≠ 0 ∧ a = b := hc
      rw [List.tail_cons, List.tail_cons, ih]
      simp [ha]
    · rw [hval]
      cases p with
      | nil =>
        cases q with
        | nil => simp
        | cons b q =>
          show 0 = b ↔ _
          rw [eq_comm]
          by_cases hb : b = 0 <;> simp [hb]
      | cons a p =>
        cases q with
        | nil => by_cases ha : a = 0 <;> simp [ha]
        | cons b q =>
          show a = b ↔ _
          by_cases ha : a = 0
          · rw [eq_comm]
            by_cases hb : b = 0 <;> simp [ha, hb]
          · have hab : a ≠ b := fun heq => hc ⟨ha, heq⟩
            by_cases hb : b = 0 <;> simp [ha, hb, hab]

variable {t bs e k : List UInt8} {j parent : ℕ}

theorem namecmp_eq_zero_iff {s : List UInt8} : namecmp s t = 0 ↔ nameKey s = nameKey t :=
  strncmp_eq_zero_iff

theorem length_strncpy {n : ℕ} : (strncpy t n).length = n := by
  induction n generalizing t with
  | zero => rfl
  | succ n ih =>
    rw [strncpy]
    split_ifs
    · simp
    · rw [List.length_cons, ih]

theorem takeWhile_strncpy {n : ℕ} :
    (strncpy t n).takeWhile (fun c => !decide (c = 0)) =
      (t.take n).takeWhile fun c => !decide (c = 0) := by
  induction n generalizing t with
  | zero => simp [strncpy]
  | succ n ih =>
    rw [strncpy]
    cases t with
    | nil => simp [List.replicate_succ]
    | cons a t =>
      by_cases ha : a = 0
      · simp [ha, List.replicate_succ]
      · simp [ha, ih]

/-- What is stored of a name compares like the name. -/
theorem nameKey_strncpy {name : List UInt8} : nameKey (strncpy name DIRSIZ) = nameKey name := by
  unfold nameKey
  rw [List.take_of_length_le length_strncpy.le, takeWhile_strncpy]

/-! ### Entries -/

/-- The entries that a content holds. -/
def direntsOf (bs : List UInt8) : List Dirent :=
  (List.range (bs.length / DESIZE)).map fun j => .decode ((bs.drop (DESIZE * j)).take DESIZE)

/-- The binding of an entry; an entry with inode number `0` is not in use. -/
def Dirent.live (de : Dirent) : Option (List UInt8 × ℕ) :=
  if de.inum = 0 then none else some (nameKey de.name, de.inum)

/-- The entries of a directory. -/
def Dinode.dirents (c : Dinode) (data : ℕ → Block) : List Dirent := direntsOf (c.content data)

def Work.dirents (w : Work) : List Dirent := w.ip.dirents w.disk.data

/-- An entry after `memset(&de, 0, sizeof(de))`. -/
def Dirent.zero : Dirent := ⟨0, List.replicate DIRSIZ 0⟩

theorem Dirent.live_zero : Dirent.zero.live = none := rfl

theorem Dirent.length_encode {de : Dirent} (h : de.name.length = DIRSIZ) :
    de.encode.length = 16 := by
  simp [encode, h]

theorem Dirent.decode_encode {de : Dirent} (h : de.name.length = DIRSIZ) :
    Dirent.decode de.encode = ⟨de.inum % 2 ^ 16, de.name⟩ := by
  have hinum : (UInt8.ofNat de.inum).toNat + 2 ^ 8 * (UInt8.ofNat (de.inum / 2 ^ 8)).toNat =
      de.inum % 2 ^ 16 := by
    rw [UInt8.toNat_ofNat', UInt8.toNat_ofNat']
    omega
  have hname : de.name.take DIRSIZ = de.name := List.take_of_length_le h.le
  simpa [decode, encode, hname] using hinum

theorem Dirent.decode_zeros : Dirent.decode (List.replicate 16 0) = .zero := rfl

theorem length_direntsOf {n : ℕ} (h : bs.length = 16 * n) :
    (direntsOf bs).length = n := by
  rw [direntsOf, List.length_map, List.length_range, h, Nat.mul_div_cancel_left _ (by decide)]

theorem getElem?_direntsOf {n : ℕ} (h : bs.length = 16 * n) :
    (direntsOf bs)[j]? =
      if j < n then some (.decode ((bs.drop (16 * j)).take 16)) else none := by
  rw [direntsOf, List.getElem?_map, h, Nat.mul_div_cancel_left _ (by decide)]
  split_ifs with hj
  · rw [List.getElem?_range hj]
    rfl
  · rw [List.getElem?_eq_none (by rw [List.length_range]; omega)]
    rfl

/-- The entries after one of them, or the end, was written. -/
theorem direntsOf_replace {n : ℕ} (h : bs.length = 16 * n) (hj : j ≤ n) (he : e.length = 16) :
    direntsOf (bs.take (16 * j) ++ e ++ bs.drop (16 * j + e.length)) =
      put (direntsOf bs) j (.decode e) := by
  have htake : (bs.take (16 * j)).length = 16 * j := by
    rw [List.length_take]
    omega
  have hlen : (bs.take (16 * j) ++ e).length = 16 * j + 16 := by
    rw [List.length_append, htake, he]
  have hnew : (bs.take (16 * j) ++ e ++ bs.drop (16 * j + e.length)).length =
      16 * max n (j + 1) := by
    rw [List.length_append, hlen, List.length_drop, h, he]
    omega
  apply List.ext_getElem?
  intro i
  rw [getElem?_direntsOf hnew, getElem?_put (by rw [length_direntsOf h]; exact hj),
    getElem?_direntsOf h]
  by_cases hij : i = j
  · subst hij
    rw [if_pos (by omega), if_pos rfl, List.append_assoc, List.drop_left' htake,
      List.take_left' he]
  · rw [if_neg hij]
    by_cases hin : i < n
    · rw [if_pos (by omega), if_pos hin]
      congr 2
      rcases Nat.lt_or_gt_of_ne hij with hlt | hgt
      · rw [List.append_assoc, List.drop_append_of_le_length (by omega),
          List.take_append_of_le_length (by rw [List.length_drop]; omega), List.drop_take,
          List.take_take, Nat.min_eq_left (by omega)]
      · rw [List.drop_append, List.drop_eq_nil_of_le (by omega), List.nil_append, List.drop_drop,
          hlen, he]
        congr 2
        omega
    · rw [if_neg (by omega), if_neg hin]

/-! ### The functions on the table -/

section Table

variable {env : Env} {w w' : Work}

/-- A directory whose content is a table of entries. -/
structure Work.IsDir (w : Work) (n : ℕ) : Prop where
  type_eq : w.ip.type = .dir
  whole : w.Whole
  size_eq : w.ip.size = 16 * n

namespace Work.IsDir

variable {n : ℕ} (h : w.IsDir n)

include h

theorem ne_dev : w.ip.type ≠ .dev := by
  rw [h.type_eq]
  nofun

theorem ne_free : w.ip.type ≠ .free := by
  rw [h.type_eq]
  nofun

theorem length_content : w.content.length = 16 * n := by rw [w.length_content, h.size_eq]

theorem length_dirents : w.dirents.length = n := length_direntsOf h.length_content

theorem size_lt : w.ip.size < 2 ^ 17 := lt_of_le_of_lt h.whole.size_le (by decide)

end Work.IsDir

/-- An entry is read. -/
theorem readDirent_eq {n j : ℕ} (h : w.IsDir n) (hj : j < n) (p : Panic) :
    ∃ de, w.dirents[j]? = some de ∧ readDirent env p (16 * j) w = .ok (de, w) := by
  have hsize := h.size_eq
  have hlt := h.size_lt
  refine ⟨_, (getElem?_direntsOf h.length_content).trans (if_pos hj), ?_⟩
  have hread := @readi_eq env w h.whole h.ne_dev (16 * j) 16 (by omega) (by omega)
  rw [if_neg (by omega)] at hread
  unfold readDirent
  rw [StateT.bind_of_ok hread]
  have hlen : ((w.content.drop (16 * j)).take 16).length = 16 := by
    rw [List.length_take, List.length_drop, h.length_content]
    omega
  simp only [hlen, if_true]
  rfl

/-- The offset of a slot. -/
def atOffset (r : ℕ × ℕ) : ℕ × ℕ := (r.1, DESIZE * r.2)

theorem dirfindFrom_eq {n j rounds : ℕ} (h : w.IsDir n) (hj : j ≤ n) (hrounds : n ≤ j + rounds)
    (name : List UInt8) : dirfindFrom env name rounds (16 * j) w =
      .ok ((findFrom Dirent.live (nameKey name) (w.dirents.drop j) j).map atOffset, w) := by
  have hsize := h.size_eq
  have hlen := h.length_dirents
  induction rounds generalizing j with
  | zero =>
    rw [List.drop_eq_nil_of_le (by omega)]
    rfl
  | succ rounds ih =>
    rw [dirfindFrom, StateT.get_bind]
    by_cases hlt : j < n
    · rw [if_pos (by omega)]
      obtain ⟨de, hde, hread⟩ := @readDirent_eq env w n j h hlt .dirlookupRead
      obtain ⟨hj', rfl⟩ := List.getElem?_eq_some_iff.mp hde
      rw [StateT.bind_of_ok hread, List.drop_eq_getElem_cons hj', findFrom]
      have hrest := ih (j := j + 1) (by omega) (by omega)
      unfold Dirent.live
      by_cases h0 : (w.dirents[j]).inum = 0
      · rw [if_pos h0, if_neg (by simp [h0])]
        exact hrest
      · rw [if_neg h0]
        simp only
        by_cases hk : nameKey (w.dirents[j]).name = nameKey name
        · rw [if_pos hk, if_pos ⟨h0, namecmp_eq_zero_iff.mpr hk.symm⟩]
          rfl
        · rw [if_neg hk, if_neg fun hc => hk (namecmp_eq_zero_iff.mp hc.2).symm]
          exact hrest
    · rw [if_neg (by omega), List.drop_eq_nil_of_le (by omega)]
      rfl

/-- **`dirlookup`** finds the name in the table. -/
theorem dirfind_eq {n : ℕ} (h : w.IsDir n) (name : List UInt8) :
    dirfind env name w = .ok ((find Dirent.live w.dirents (nameKey name)).map atOffset, w) := by
  have hsize := h.size_eq
  unfold dirfind
  rw [StateT.get_bind, if_pos h.type_eq]
  have := @dirfindFrom_eq env w n 0 (w.ip.size / 16 + 1) h (Nat.zero_le n) (by omega) name
  rwa [Nat.mul_zero, List.drop_zero] at this

theorem emptyFrom_eq {n j rounds : ℕ} (h : w.IsDir n) (hj : j ≤ n) (hrounds : n ≤ j + rounds) :
    emptyFrom env rounds (16 * j) w =
      .ok (16 * (j + vacant Dirent.live (w.dirents.drop j)), w) := by
  have hsize := h.size_eq
  have hlen := h.length_dirents
  induction rounds generalizing j with
  | zero =>
    rw [List.drop_eq_nil_of_le (by omega)]
    rfl
  | succ rounds ih =>
    rw [emptyFrom, StateT.get_bind]
    by_cases hlt : j < n
    · rw [if_pos (by omega)]
      obtain ⟨de, hde, hread⟩ := @readDirent_eq env w n j h hlt .dirlinkRead
      obtain ⟨hj', rfl⟩ := List.getElem?_eq_some_iff.mp hde
      rw [StateT.bind_of_ok hread, List.drop_eq_getElem_cons hj', vacant, List.findIdx_cons]
      by_cases h0 : (w.dirents[j]).inum = 0
      · simp [Dirent.live, h0]
        rfl
      · rw [if_neg h0]
        have hrest := ih (j := j + 1) (by omega) (by omega)
        rw [Nat.mul_succ] at hrest
        rw [hrest]
        simp only [Dirent.live, h0, if_false, Option.isNone_some, cond_false]
        rw [show ∀ a, j + 1 + a = j + (a + 1) by omega]
        rfl
    · rw [if_neg (by omega), List.drop_eq_nil_of_le (by omega)]
      rfl

theorem isdiremptyFrom_eq {n j rounds : ℕ} (h : w.IsDir n) (hrounds : n ≤ j + rounds) :
    isdiremptyFrom env rounds (16 * j) w =
      .ok ((w.dirents.drop j).all fun e => e.live.isNone, w) := by
  have hsize := h.size_eq
  have hlen := h.length_dirents
  induction rounds generalizing j with
  | zero =>
    rw [List.drop_eq_nil_of_le (by omega)]
    rfl
  | succ rounds ih =>
    rw [isdiremptyFrom, StateT.get_bind]
    by_cases hlt : j < n
    · rw [if_pos (by omega)]
      obtain ⟨de, hde, hread⟩ := @readDirent_eq env w n j h hlt .isdirempty
      obtain ⟨hj', rfl⟩ := List.getElem?_eq_some_iff.mp hde
      rw [StateT.bind_of_ok hread, List.drop_eq_getElem_cons hj', List.all_cons]
      by_cases h0 : (w.dirents[j]).inum = 0
      · have hrest := ih (j := j + 1) (by omega)
        rw [Nat.mul_succ] at hrest
        rw [if_neg (by simp [h0]), hrest]
        simp [Dirent.live, h0]
      · simp [Dirent.live, h0]
        rfl
    · rw [if_neg (by omega), List.drop_eq_nil_of_le (by omega)]
      rfl

/-- **`isdirempty`**: no slot after the first two binds a name. -/
theorem isdirempty_eq {n : ℕ} (h : w.IsDir n) :
    isdirempty env w = .ok ((w.dirents.drop 2).all fun e => e.live.isNone, w) := by
  have hsize := h.size_eq
  exact @isdiremptyFrom_eq env w n 2 (w.ip.size / 16 + 1) h (by omega)

/-- A write of one entry. -/
theorem Written.isDir {n : ℕ} (hw : Written env (16 * j) e w w')
    (h : w.IsDir n) (hj : j ≤ n) (he : e.length = 16) :
    w'.IsDir (max n (j + 1)) ∧ w'.dirents = put w.dirents j (.decode e) := by
  constructor
  · refine ⟨?_, hw.whole, ?_⟩
    · rw [← h.type_eq, ← hw.rest_eq]
    · rw [hw.size_eq, h.size_eq, he]
      omega
  · show direntsOf w'.content = _
    rw [hw.content_eq, direntsOf_replace h.length_content hj he]
    rfl

/-- An entry is written, in place or at the end. -/
theorem writei_entry {n : ℕ} {r : Option ℕ} (ho : Owned env w.view w.disk)
    (h : w.IsDir n) (hj : j ≤ n) (he : e.length = 16)
    (hr : writei env e (16 * j) w = .ok (r, w')) :
    r = none ∧ w' = w ∨ r = some 16 ∧ Written env (16 * j) e w w' := by
  have hsize := h.size_eq
  have hlt := h.size_lt
  have hspec := writei_spec ho h.whole h.ne_free h.ne_dev (by omega) (by omega) hr
  split_ifs at hspec
  · rw [he] at hspec
    exact .inr hspec
  · exact .inl hspec

/-- **The entry that `dirlink` stores** goes into the first slot that is not in use. -/
theorem direntWrite_spec {n inum : ℕ} {name : List UInt8} (ho : Owned env w.view w.disk)
    (h : w.IsDir n) (hr : direntWrite env name inum w = .ok ((), w')) :
    Written env (16 * vacant Dirent.live w.dirents)
        (Dirent.encode ⟨inum, strncpy name DIRSIZ⟩) w w' ∧
      w'.IsDir (max n (vacant Dirent.live w.dirents + 1)) ∧
      w'.dirents = put w.dirents (vacant Dirent.live w.dirents)
        ⟨inum % 2 ^ 16, strncpy name DIRSIZ⟩ := by
  have hvacant : vacant Dirent.live w.dirents ≤ n := by
    rw [← h.length_dirents]
    exact vacant_le _ _
  have hname : (strncpy name DIRSIZ).length = DIRSIZ := length_strncpy
  have hlen : (Dirent.encode ⟨inum, strncpy name DIRSIZ⟩).length = 16 := Dirent.length_encode hname
  have hempty := @emptyFrom_eq env w n 0 (w.ip.size / 16 + 1) h (Nat.zero_le n)
    (by have := h.size_eq; omega)
  rw [Nat.mul_zero, List.drop_zero, Nat.zero_add] at hempty
  unfold direntWrite at hr
  rw [StateT.get_bind, StateT.bind_of_ok hempty] at hr
  obtain ⟨r, u, hwrite, hret⟩ := StateT.bind_eq_ok.mp hr
  rcases writei_entry ho h hvacant hlen hwrite with ⟨rfl, rfl⟩ | ⟨rfl, hwritten⟩
  · cases hret
  · obtain rfl : u = w' := by
      cases hret
      rfl
    obtain ⟨hdir, hdirents⟩ := hwritten.isDir h hvacant hlen
    rw [Dirent.decode_encode hname] at hdirents
    exact ⟨hwritten, hdir, hdirents⟩

/-- **The erasure in `sys_unlink`** makes the slot vacant. -/
theorem direntErase_spec {n : ℕ} (ho : Owned env w.view w.disk) (h : w.IsDir n) (hj : j < n)
    (hr : direntErase env (16 * j) w = .ok ((), w')) :
    Written env (16 * j) (List.replicate DESIZE 0) w w' ∧ w'.IsDir n ∧
      w'.dirents = put w.dirents j .zero := by
  obtain ⟨r, u, hwrite, hret⟩ := StateT.bind_eq_ok.mp hr
  have hlen : (List.replicate DESIZE (0 : UInt8)).length = 16 := List.length_replicate
  rcases writei_entry ho h hj.le hlen hwrite with ⟨rfl, rfl⟩ | ⟨rfl, hwritten⟩
  · cases hret
  · obtain rfl : u = w' := by
      cases hret
      rfl
    obtain ⟨hdir, hdirents⟩ := hwritten.isDir h hj.le hlen
    rw [Nat.max_eq_left hj] at hdir
    exact ⟨hwritten, hdir, hdirents⟩

end Table

/-! ### Directories as maps -/

section Map

variable (env : Env)

/-- `"."` -/
def dot : List UInt8 := [46]

/-- `".."` -/
def dotdot : List UInt8 := [46, 46]

/-- `dirlink` on the directory itself: whether the entry was stored. The inode that the lookup finds
is given back by the caller. -/
def dirlink (name : List UInt8) (inum : ℕ) : I Bool := do
  match ← dirfind env name with
  | some _ => return false
  | none =>
    direntWrite env name inum
    return true

/-- The part of `sys_unlink` that finds and erases an entry: whether it was erased. -/
def eraseEntry (name : List UInt8) : I Bool := do
  if namecmp name dot = 0 ∨ namecmp name dotdot = 0 then return false
  match ← dirfind env name with
  | none => return false
  | some (_, off) =>
    direntErase env off
    return true

/-- An operation on a directory, with its result. -/
inductive DirEvent
  | link (name : List UInt8) (inum : ℕ) (ok : Bool)
  | erase (name : List UInt8) (ok : Bool)

/-- An operation that returns. Inode numbers are those that an entry can hold. -/
def DirStep (w : Work) : DirEvent → Work → Prop
  | .link name inum ok, w' => inum ≠ 0 ∧ inum < 2 ^ 16 ∧ dirlink env name inum w = .ok (ok, w')
  | .erase name ok, w' => eraseEntry env name w = .ok (ok, w')

/-- The effect of an operation on the binding of a name. -/
def rebind (k : List UInt8) (b : Option ℕ) : DirEvent → Option ℕ
  | .link name inum ok => if ok = true ∧ nameKey name = k then some inum else b
  | .erase name ok => if ok = true ∧ nameKey name = k then none else b

/-- **The binding of a name given by the history**: that of the last successful `dirlink` of the
name, unless its entry was erased after that. -/
def bound (es : List DirEvent) (k : List UInt8) : Option ℕ := es.foldl (rebind k) none

/-- The directory represents the map `M`. -/
structure IsMap (w : Work) (M : List UInt8 → Option ℕ) : Prop where
  owned : Owned env w.view w.disk
  isDir : w.IsDir w.dirents.length
  distinct : Distinct Dirent.live w.dirents
  map_eq : ∀ k, (find Dirent.live w.dirents k).map Prod.fst = M k

/-- The first two slots are `.` and `..`. -/
structure HasDots (w : Work) (inum parent : ℕ) : Prop where
  dot : Binds Dirent.live w.dirents 0 dot inum
  dotdot : Binds Dirent.live w.dirents 1 dotdot parent

/-- The directory has the same binding for every name but `k`. -/
def SameExcept (k : List UInt8) (w w' : Work) : Prop :=
  ∀ k', k' ≠ k → find Dirent.live w'.dirents k' = find Dirent.live w.dirents k'

variable {env} {w w' : Work} {M : List UInt8 → Option ℕ} {name : List UInt8} {inum : ℕ}

theorem Work.IsDir.of_length {n : ℕ} (h : w.IsDir n) : w.IsDir w.dirents.length := by
  rw [h.length_dirents]
  exact h

theorem IsMap.absent_iff (h : IsMap env w M) :
    find Dirent.live w.dirents k = none ↔ M k = none := by
  rw [← h.map_eq, Option.map_eq_none_iff]

theorem Dirent.live_link (h0 : inum ≠ 0) (hlt : inum < 2 ^ 16) :
    Dirent.live ⟨inum % 2 ^ 16, strncpy name DIRSIZ⟩ = some (nameKey name, inum) := by
  rw [Nat.mod_eq_of_lt hlt, live, if_neg h0, nameKey_strncpy]

/-- **`dirlink`** fails, and then changes nothing, exactly if the name is bound; otherwise it binds
the name in a slot that was vacant. -/
theorem dirlink_spec (h : IsMap env w M) (h0 : inum ≠ 0) (hlt : inum < 2 ^ 16) {r : Bool}
    (hr : dirlink env name inum w = .ok (r, w')) :
    M (nameKey name) ≠ none ∧ r = false ∧ w' = w ∨
      M (nameKey name) = none ∧ r = true ∧
        IsMap env w' (update M (nameKey name) (some inum)) ∧
        SameExcept (nameKey name) w w' ∧
        ∃ de, Dirent.live de = some (nameKey name, inum) ∧
          w'.dirents = put w.dirents (vacant Dirent.live w.dirents) de := by
  unfold dirlink at hr
  rw [StateT.bind_of_ok (dirfind_eq h.isDir name)] at hr
  cases hf : find Dirent.live w.dirents (nameKey name) with
  | some b =>
    left
    rw [hf] at hr
    cases hr
    refine ⟨fun hnone => ?_, rfl, rfl⟩
    rw [h.absent_iff.mpr hnone] at hf
    cases hf
  | none =>
    right
    rw [hf] at hr
    obtain ⟨_, u, hwrite, hret⟩ := StateT.bind_eq_ok.mp hr
    obtain ⟨hwritten, hdir, hdirents⟩ := direntWrite_spec h.owned h.isDir hwrite
    cases hret
    have hlive : Dirent.live ⟨inum % 2 ^ 16, strncpy name DIRSIZ⟩ = some (nameKey name, inum) :=
      Dirent.live_link h0 hlt
    have hle := vacant_le Dirent.live w.dirents
    have habsent := find_eq_none_iff.mp hf
    have hfind : ∀ k', find Dirent.live w'.dirents k' = if k' = nameKey name then
        some (inum, vacant Dirent.live w.dirents) else find Dirent.live w.dirents k' := by
      intro k'
      rw [hdirents]
      exact find_insert h.distinct hle hlive habsent fun _ _ => not_binds_vacant
    refine ⟨h.absent_iff.mp hf, rfl, ⟨hwritten.owned, hdir.of_length, ?_, fun k' => ?_⟩, ?_,
      _, hlive, hdirents⟩
    · rw [hdirents]
      exact h.distinct.insert hle hlive habsent
    · rw [hfind]
      by_cases hk : k' = nameKey name
      · rw [if_pos hk, hk, update_self]
        rfl
      · rw [if_neg hk, update_of_ne hk, h.map_eq]
    · intro k' hk
      rw [hfind, if_neg hk]

/-- **The erasure** of an entry of `sys_unlink` fails for the first two entries and for names that
are not bound; otherwise it removes the binding. -/
theorem eraseEntry_spec (h : IsMap env w M) {r : Bool}
    (hr : eraseEntry env name w = .ok (r, w')) :
    r = false ∧ w' = w ∨
      r = true ∧ nameKey name ≠ dot ∧ nameKey name ≠ dotdot ∧
        IsMap env w' (update M (nameKey name) none) ∧
        SameExcept (nameKey name) w w' ∧
        ∃ j v, Binds Dirent.live w.dirents j (nameKey name) v ∧
          w'.dirents = put w.dirents j .zero := by
  unfold eraseEntry at hr
  split_ifs at hr with hdots
  · left
    cases hr
    exact ⟨rfl, rfl⟩
  · rw [StateT.bind_of_ok (dirfind_eq h.isDir name)] at hr
    cases hf : find Dirent.live w.dirents (nameKey name) with
    | none =>
      left
      rw [hf] at hr
      cases hr
      exact ⟨rfl, rfl⟩
    | some b =>
      right
      obtain ⟨v, j⟩ := b
      rw [hf] at hr
      obtain ⟨_, u, herase, hret⟩ := StateT.bind_eq_ok.mp hr
      have hb := find_binds hf
      obtain ⟨hwritten, hdir, hdirents⟩ :=
        direntErase_spec h.owned h.isDir hb.lt_length herase
      cases hret
      have hkeys : nameKey name ≠ dot ∧ nameKey name ≠ dotdot := by
        rw [not_or, namecmp_eq_zero_iff, namecmp_eq_zero_iff] at hdots
        exact hdots
      have hfind : ∀ k', find Dirent.live w'.dirents k' = if k' = nameKey name then
          none else find Dirent.live w.dirents k' := by
        intro k'
        rw [hdirents]
        exact find_erase h.distinct Dirent.live_zero hb
      refine ⟨rfl, hkeys.1, hkeys.2, ⟨hwritten.owned, hdir.of_length, ?_, fun k' => ?_⟩, ?_,
        j, v, hb, hdirents⟩
      · rw [hdirents]
        exact h.distinct.erase hb.lt_length.le Dirent.live_zero
      · rw [hfind]
        by_cases hk : k' = nameKey name
        · rw [if_pos hk, hk, update_self]
          rfl
        · rw [if_neg hk, update_of_ne hk, h.map_eq]
      · intro k' hk
        rw [hfind, if_neg hk]

theorem bound_append {es : List DirEvent} {e : DirEvent} :
    bound (es ++ [e]) k = rebind k (bound es k) e := by
  simp [bound]

/-- One operation, on the map that the history gives. -/
theorem IsMap.step {es : List DirEvent} {e : DirEvent} (h : IsMap env w (bound es))
    (hs : DirStep env w e w') : IsMap env w' (bound (es ++ [e])) := by
  cases e with
  | link name inum ok =>
    obtain ⟨h0, hlt, hr⟩ := hs
    rcases dirlink_spec h h0 hlt hr with ⟨-, rfl, rfl⟩ | ⟨-, rfl, hmap, -⟩
    · have heq : bound (es ++ [.link name inum false]) = bound es := by
        funext k
        simp [bound_append, rebind]
      rwa [heq]
    · have heq : bound (es ++ [.link name inum true]) =
          update (bound es) (nameKey name) (some inum) := by
        funext k
        rw [bound_append, rebind, update_apply]
        simp [eq_comm]
      rwa [heq]
  | erase name ok =>
    rcases eraseEntry_spec h hs with ⟨rfl, rfl⟩ | ⟨rfl, -, -, hmap, -⟩
    · have heq : bound (es ++ [.erase name false]) = bound es := by
        funext k
        simp [bound_append, rebind]
      rwa [heq]
    · have heq : bound (es ++ [.erase name true]) =
          update (bound es) (nameKey name) none := by
        funext k
        rw [bound_append, rebind, update_apply]
        simp [eq_comm]
      rwa [heq]

/-- A slot that binds a name stays under every operation that does not erase it. -/
theorem binds_step {e : DirEvent} {v : ℕ} (h : IsMap env w M)
    (hs : DirStep env w e w') (hb : Binds Dirent.live w.dirents j k v)
    (hk : k = dot ∨ k = dotdot) : Binds Dirent.live w'.dirents j k v := by
  cases e with
  | link name inum ok =>
    obtain ⟨h0, hlt, hr⟩ := hs
    rcases dirlink_spec h h0 hlt hr with ⟨-, -, rfl⟩ | ⟨-, -, -, -, de, -, hdirents⟩
    · exact hb
    · rw [hdirents, binds_put (vacant_le _ _)]
      refine .inr ⟨?_, hb⟩
      rintro rfl
      exact not_binds_vacant hb
  | erase name ok =>
    rcases eraseEntry_spec h hs with ⟨-, rfl⟩ | ⟨-, hdot, hdotdot, -, -, i, u, hi, hdirents⟩
    · exact hb
    · rw [hdirents, binds_put hi.lt_length.le]
      refine .inr ⟨?_, hb⟩
      rintro rfl
      obtain ⟨rfl, -⟩ := hb.unique hi
      rcases hk with hk | hk
      · exact hdot hk
      · exact hdotdot hk

theorem HasDots.step {e : DirEvent} {inum : ℕ} (h : IsMap env w M)
    (hs : DirStep env w e w') (hd : HasDots w inum parent) : HasDots w' inum parent :=
  ⟨binds_step h hs hd.dot (.inl rfl), binds_step h hs hd.dotdot (.inr rfl)⟩

/-- The operations by which `create` stores `.` and `..`. -/
def dots (inum parent : ℕ) : List DirEvent := [.link dot inum true, .link dotdot parent true]

/-- A new directory: an inode without content in which `create` has stored `.` and `..`. -/
structure Created (env : Env) (parent : ℕ) (w₀ w : Work) : Prop where
  owned : Owned env w₀.view w₀.disk
  type_eq : w₀.ip.type = .dir
  size_eq : w₀.ip.size = 0
  links : Run (DirStep env) w₀ (dots w₀.inum parent) w

/-- An empty directory represents the empty map. -/
theorem isMap_empty (ho : Owned env w.view w.disk) (ht : w.ip.type = .dir) (hs : w.ip.size = 0) :
    w.dirents = [] ∧ IsMap env w (bound []) := by
  have hempty : w.dirents = [] := by
    have : w.content = [] := List.length_eq_zero_iff.mp (by rw [w.length_content, hs])
    show direntsOf w.content = []
    rw [this]
    rfl
  refine ⟨hempty, ho, ?_, ?_, ?_⟩
  · rw [hempty]
    refine ⟨ht, ⟨by rw [hs]; exact Nat.zero_le _, fun bn hbn => ?_⟩, hs⟩
    rw [hs] at hbn
    exact absurd hbn (Nat.not_lt_zero _)
  · intro i j k v v' hb
    rw [hempty] at hb
    exact absurd hb.lt_length (Nat.not_lt_zero _)
  · intro k
    rw [hempty]
    rfl

/-- What `create` leaves. -/
theorem Created.isMap {w₀ : Work} (h : Created env parent w₀ w) :
    IsMap env w (bound (dots w₀.inum parent)) ∧ HasDots w w₀.inum parent := by
  obtain ⟨hempty, hmap₀⟩ := isMap_empty h.owned h.type_eq h.size_eq
  have hlinks : Run (DirStep env) w₀
      ([] ++ [.link dot w₀.inum true] ++ [.link dotdot parent true]) w := h.links
  obtain ⟨w₁, hrun, hs₂⟩ := Run.snoc_iff.mp hlinks
  obtain ⟨_, hnil, hs₁⟩ := Run.snoc_iff.mp hrun
  obtain rfl := Run.nil_iff.mp hnil
  have hmap₁ := hmap₀.step hs₁
  have hmap₂ := hmap₁.step hs₂
  -- The two entries go into the first two slots.
  have hdot : Binds Dirent.live w₁.dirents 0 dot w₀.inum ∧ w₁.dirents.length = 1 := by
    obtain ⟨h0, hlt, hr⟩ := hs₁
    rcases dirlink_spec hmap₀ h0 hlt hr with ⟨-, hfalse, -⟩ | ⟨-, -, -, -, de, hlive, hdirents⟩
    · cases hfalse
    · rw [hdirents, hempty]
      exact ⟨⟨de, rfl, hlive⟩, rfl⟩
  have hdot₂ := binds_step hmap₁ hs₂ hdot.1 (.inl rfl)
  refine ⟨hmap₂, hdot₂, ?_⟩
  obtain ⟨h0, hlt, hr⟩ := hs₂
  rcases dirlink_spec hmap₁ h0 hlt hr with ⟨-, hfalse, -⟩ | ⟨-, -, -, -, de, hlive, hdirents⟩
  · cases hfalse
  · have hvacant : vacant Dirent.live w₁.dirents = 1 := by
      have hle := vacant_le Dirent.live w₁.dirents
      have hne : vacant Dirent.live w₁.dirents ≠ 0 := by
        intro hzero
        have := hdot.1
        rw [← hzero] at this
        exact not_binds_vacant this
      omega
    rw [hdirents, binds_put (vacant_le _ _)]
    exact .inl ⟨hvacant.symm, hlive⟩

/-- `isdirempty` in terms of the map. -/
theorem IsMap.isdirempty {inum : ℕ} (h : IsMap env w M) (hd : HasDots w inum parent) :
    ((w.dirents.drop 2).all fun e => e.live.isNone) = true ↔
      ∀ k, M k ≠ none → k = dot ∨ k = dotdot := by
  rw [List.all_eq_true]
  constructor
  · intro hall k hk
    obtain ⟨⟨v, j⟩, hf⟩ := Option.ne_none_iff_exists'.mp (mt h.absent_iff.mp hk)
    have hb := find_binds hf
    by_cases h2 : 2 ≤ j
    · obtain ⟨e, he, hl⟩ := hb
      have hmem : e ∈ w.dirents.drop 2 := by
        rw [List.mem_iff_getElem?]
        exact ⟨j - 2, by rw [List.getElem?_drop, Nat.add_sub_cancel' h2, he]⟩
      have := hall e hmem
      rw [hl] at this
      cases this
    · have : j = 0 ∨ j = 1 := by omega
      rcases this with rfl | rfl
      · exact .inl (hb.unique hd.dot).1
      · exact .inr (hb.unique hd.dotdot).1
  · intro hall e he
    obtain ⟨i, hi⟩ := List.mem_iff_getElem?.mp he
    rw [List.getElem?_drop] at hi
    cases hl : e.live with
    | none => rfl
    | some b =>
      obtain ⟨k, v⟩ := b
      have hb : Binds Dirent.live w.dirents (2 + i) k v := ⟨e, hi, hl⟩
      have hk : M k ≠ none := by
        intro hnone
        exact find_eq_none_iff.mp (h.absent_iff.mpr hnone) _ _ hb
      rcases hall k hk with rfl | rfl
      · have := h.distinct hb hd.dot
        omega
      · have := h.distinct hb hd.dotdot
        omega

/-- A lookup of the name gives the same result in both directories. -/
def SameLookup (env : Env) (name : List UInt8) (w w' : Work) : Prop :=
  ∃ r, dirfind env name w = .ok (r, w) ∧ dirfind env name w' = .ok (r, w')

theorem IsMap.sameLookup {M' : List UInt8 → Option ℕ} (h : IsMap env w M)
    (h' : IsMap env w' M') (hsame : SameExcept k w w') {name : List UInt8} (hk : nameKey name ≠ k) :
    SameLookup env name w w' := by
  refine ⟨_, dirfind_eq h.isDir name, ?_⟩
  rw [← hsame _ hk]
  exact dirfind_eq h'.isDir name

/-- **Directories are finite maps.** For every directory that `create` makes and every sequence of
`dirlink`s, of inode numbers that an entry can hold, and of erasures by `sys_unlink`: no name is
bound twice and the first two entries stay; a lookup finds the last binding of the name that was not
erased, with its offset; `dirlink` fails, changing nothing, exactly if the name is bound; operations
on one name do not affect the lookup of others; and `isdirempty` says whether a name other than `.`
and `..` is bound. -/
theorem directories_are_maps {parent : ℕ} {w₀ w₁ : Work} {es : List DirEvent}
    (hc : Created env parent w₀ w₁) (hrun : Run (DirStep env) w₁ es w) :
    Distinct Dirent.live w.dirents ∧ HasDots w w₀.inum parent ∧
    (∀ name, ∃ r, dirfind env name w = .ok (r, w) ∧
      r.map Prod.fst = bound (dots w₀.inum parent ++ es) (nameKey name) ∧
      ∀ v off, r = some (v, off) →
        ∃ j, off = DESIZE * j ∧ Binds Dirent.live w.dirents j (nameKey name) v) ∧
    (∀ name inum r w', inum ≠ 0 → inum < 2 ^ 16 → dirlink env name inum w = .ok (r, w') →
      (r = false ↔ bound (dots w₀.inum parent ++ es) (nameKey name) ≠ none) ∧
      (r = false → w' = w) ∧
      ∀ name', nameKey name' ≠ nameKey name → SameLookup env name' w w') ∧
    (∀ name r w', eraseEntry env name w = .ok (r, w') →
      ∀ name', nameKey name' ≠ nameKey name → SameLookup env name' w w') ∧
    ∃ b, isdirempty env w = .ok (b, w) ∧
      (b = true ↔ ∀ k, bound (dots w₀.inum parent ++ es) k ≠ none → k = dot ∨ k = dotdot) := by
  obtain ⟨hmap, hdots⟩ : IsMap env w (bound (dots w₀.inum parent ++ es)) ∧
      HasDots w w₀.inum parent := by
    refine hrun.invariant_history
      (J := fun es w => IsMap env w (bound (dots w₀.inum parent ++ es)) ∧
      HasDots w w₀.inum parent) ?_ ?_
    · rintro es s e s' ⟨hmap, hdots⟩ hs
      exact ⟨hmap.step hs, hdots.step hmap hs⟩
    · exact hc.isMap
  refine ⟨hmap.distinct, hdots, fun name => ?_, fun name inum r w' h0 hlt hr => ?_,
    fun name r w' hr name' hne => ?_, _, isdirempty_eq hmap.isDir, hmap.isdirempty hdots⟩
  · refine ⟨_, dirfind_eq hmap.isDir name, ?_, fun v off hr => ?_⟩
    · rw [← hmap.map_eq, Option.map_map]
      rfl
    · obtain ⟨⟨v', j⟩, hf, heq⟩ := Option.map_eq_some_iff.mp hr
      cases heq
      exact ⟨j, rfl, find_binds hf⟩
  · rcases dirlink_spec hmap h0 hlt hr with ⟨hbound, rfl, rfl⟩ | ⟨habsent, rfl, hmap', hsame, -⟩
    · exact ⟨by simp [hbound], fun _ => rfl, fun name' _ => ⟨_, dirfind_eq hmap.isDir name',
        dirfind_eq hmap.isDir name'⟩⟩
    · exact ⟨by simp [habsent], nofun, fun name' hne => hmap.sameLookup hmap' hsame hne⟩
  · rcases eraseEntry_spec hmap hr with ⟨-, rfl⟩ | ⟨-, -, -, hmap', hsame, -⟩
    · exact ⟨_, dirfind_eq hmap.isDir name', dirfind_eq hmap.isDir name'⟩
    · exact hmap.sameLookup hmap' hsame hne

/-! ### A new directory, and an inode number that does not fit -/

/-- A new directory in which a third entry is stored and looked up. -/
def linkAndFind (inum : ℕ) : I (Bool × Bool × Bool × Option (ℕ × ℕ)) := do
  let a ← dirlink smallEnv dot 2
  let b ← dirlink smallEnv dotdot 1
  let c ← dirlink smallEnv [102] inum
  let r ← dirfind smallEnv [102]
  return (a, b, c, r)

/-- What the four calls did one after the other. -/
theorem linkAndFind_ok {a b c : Bool} {r : Option (ℕ × ℕ)}
    (h : ((linkAndFind inum (blank .dir)).toOption.map Prod.fst) = some (a, b, c, r)) :
    ∃ w₁ w₂ w₃ w₄, dirlink smallEnv dot 2 (blank .dir) = .ok (a, w₁) ∧
      dirlink smallEnv dotdot 1 w₁ = .ok (b, w₂) ∧
      dirlink smallEnv [102] inum w₂ = .ok (c, w₃) ∧ dirfind smallEnv [102] w₃ = .ok (r, w₄) := by
  cases hrun : linkAndFind inum (blank .dir) with
  | error e =>
    rw [hrun] at h
    cases h
  | ok x =>
    obtain ⟨⟨a', b', c', r'⟩, w'⟩ := x
    rw [hrun] at h
    obtain ⟨a, w₁, h₁, hrun⟩ := StateT.bind_eq_ok.mp hrun
    obtain ⟨b, w₂, h₂, hrun⟩ := StateT.bind_eq_ok.mp hrun
    obtain ⟨c, w₃, h₃, hrun⟩ := StateT.bind_eq_ok.mp hrun
    obtain ⟨r, w₄, h₄, hrun⟩ := StateT.bind_eq_ok.mp hrun
    cases hrun
    cases h
    exact ⟨w₁, w₂, w₃, w', h₁, h₂, h₃, h₄⟩

theorem created_blank {w₁ w₂ : Work} (h₁ : dirlink smallEnv dot 2 (blank .dir) = .ok (true, w₁))
    (h₂ : dirlink smallEnv dotdot 1 w₁ = .ok (true, w₂)) :
    Created smallEnv 1 (blank .dir) w₂ := by
  have hs₁ : DirStep smallEnv (blank .dir) (.link dot 2 true) w₁ := ⟨by decide, by decide, h₁⟩
  have hs₂ : DirStep smallEnv w₁ (.link dotdot 1 true) w₂ := ⟨by decide, by decide, h₂⟩
  exact ⟨(noHoles_blank .dir).owned, rfl, rfl, .snoc (.single hs₁) hs₂⟩

/-- In a new directory, a name is bound to `3` and found. -/
theorem directories_are_maps_one_name : ∃ w₁ w, Created smallEnv 1 (blank .dir) w₁ ∧
    Run (DirStep smallEnv) w₁ [.link [102] 3 true] w ∧
    ∃ r, dirfind smallEnv [102] w = .ok (r, w) ∧ r.map Prod.fst = some 3 := by
  have heval : ((linkAndFind 3 (blank .dir)).toOption.map Prod.fst) =
      some (true, true, true, some (3, 32)) := by decide +kernel
  obtain ⟨w₁, w₂, w₃, w₄, h₁, h₂, h₃, -⟩ := linkAndFind_ok heval
  have hc := created_blank h₁ h₂
  have hrun : Run (DirStep smallEnv) w₂ [.link [102] 3 true] w₃ :=
    .single ⟨by decide, by decide, h₃⟩
  obtain ⟨-, -, hfind, -⟩ := directories_are_maps hc hrun
  obtain ⟨r, hr, hbound, -⟩ := hfind [102]
  exact ⟨w₂, w₃, hc, hrun, r, hr, hbound⟩

/-- **An inode number that does not fit** into an entry is cut off when the entry is stored: after a
successful `dirlink` of `65536` the name is not found. -/
theorem dirlink_inum_truncated : ∃ w₁ w₂ r, Created smallEnv 1 (blank .dir) w₁ ∧
    dirlink smallEnv [102] 65536 w₁ = .ok (true, w₂) ∧
    dirfind smallEnv [102] w₂ = .ok (none, r) := by
  have heval : ((linkAndFind 65536 (blank .dir)).toOption.map Prod.fst) =
      some (true, true, true, none) := by decide +kernel
  obtain ⟨w₁, w₂, w₃, w₄, h₁, h₂, h₃, h₄⟩ := linkAndFind_ok heval
  exact ⟨w₂, w₃, w₄, created_blank h₁ h₂, h₃, h₄⟩

end Map

end Xv6.Fs
