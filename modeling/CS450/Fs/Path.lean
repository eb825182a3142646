import CS450.Lib.Split
import CS450.Fs.Icache

/-!
# Path resolution

`namei` and `nameiparent` of a process that runs by itself, on a tree of directories that does not
change. A path is its components: the runs between slashes, cut off at `DIRSIZ` bytes. They are
looked up one after the other, from the root or from the current directory.

On the way `namex` holds a reference to one inode, and for a moment to two. An inode that is not in
the cache needs an entry of its own, and where there is none `iget` panics; this is the only way in
which the functions do not return.

## Main results

* `skipelem_none`, `skipelem_some`: `skipelem` takes the components one at a time
* `namexLoop_spec`: what the loop of `namex` does
* `path_resolution`: `namei` and `nameiparent` look up the components
-/

namespace Xv6.Fs

namespace Path

open Function (update update_apply update_eq_self update_idem update_of_ne update_self)
open Thread Table

/-! ### Components -/

/-- **The components of a path**: the runs between slashes, cut off at `DIRSIZ` bytes. A path ends
at its first NUL. -/
def components (path : List UInt8) : List (List UInt8) :=
  (Split.words (· == 47) (path.takeWhile (· != 0))).map (List.take DIRSIZ)

/-- Slashes in front do not matter. -/
theorem components_skip (path : List UInt8) :
    components (path.dropWhile (· == 47)) = components path := by
  induction path with
  | nil => rfl
  | cons c path ih =>
    by_cases hc : c = 47
    · subst hc
      rw [List.dropWhile_cons_of_pos (by decide), ih, components, components,
        List.takeWhile_cons_of_pos (by decide), Split.words_cons_of_sep (by decide)]
    · rw [List.dropWhile_cons_of_neg (by simpa using hc)]

theorem components_of_nul {path : List UInt8} (h : path.headD 0 = 0) : components path = [] := by
  cases path with
  | nil => rfl
  | cons c path =>
    obtain rfl : c = 0 := h
    rfl

/-- A path that begins with a component. -/
theorem components_run {path : List UInt8} (h0 : path.headD 0 ≠ 0) (h47 : path.headD 0 ≠ 47) :
    components path = (path.takeWhile fun c => c != 47 && c != 0).take DIRSIZ ::
      components (path.dropWhile fun c => c != 47 && c != 0) := by
  obtain ⟨c, path', rfl⟩ : ∃ c path', path = c :: path' := by
    cases path with
    | nil => exact absurd rfl h0
    | cons c path' => exact ⟨c, path', rfl⟩
  have hc : (c != 47 && c != 0) = true := by simpa using ⟨h47, h0⟩
  set elem := (c :: path').takeWhile fun c => c != 47 && c != 0 with helem
  set rest := (c :: path').dropWhile fun c => c != 47 && c != 0 with hrest
  have hsplit : c :: path' = elem ++ rest := (List.takeWhile_append_dropWhile).symm
  have hmem : ∀ x ∈ elem, x ≠ 47 ∧ x ≠ 0 := by
    intro x hx
    simpa using List.mem_takeWhile_imp hx
  have hne : elem ≠ [] := by
    have hcons : elem = c :: path'.takeWhile fun c => c != 47 && c != 0 :=
      List.takeWhile_cons_of_pos hc
    rw [hcons]
    exact List.cons_ne_nil _ _
  have htake : (c :: path').takeWhile (· != 0) = elem ++ rest.takeWhile (· != 0) := by
    rw [hsplit, List.takeWhile_append_of_pos fun x hx => by simpa using (hmem x hx).2]
  unfold components
  rw [htake, Split.words_run hne (fun x hx => by simpa using (hmem x hx).1) ?_]
  · rfl
  · -- What stops the component is a slash or the end.
    intro x hx
    have hstop := List.head?_dropWhile_not (fun c => c != 47 && c != 0) (c :: path')
    rw [← hrest] at hstop
    cases hr : rest with
    | nil =>
      rw [hr] at hx
      cases hx
    | cons y ys =>
      rw [hr] at hx hstop
      by_cases hy : y = 0
      · subst hy
        cases hx
      · rw [List.takeWhile_cons_of_pos (by simpa using hy)] at hx
        cases hx
        simpa [hy] using hstop

theorem headD_dropWhile_ne (path : List UInt8) : (path.dropWhile (· == 47)).headD 0 ≠ 47 := by
  have hstop := List.head?_dropWhile_not (· == 47) path
  cases h : path.dropWhile (· == 47) with
  | nil => decide
  | cons c cs =>
    rw [h] at hstop
    simpa using hstop

/-- `skipelem`, with the component cut off in one way. -/
theorem skipelem_eq (path : List UInt8) :
    skipelem path = if (path.dropWhile (· == 47)).headD 0 = 0 then none else
      some (((path.dropWhile (· == 47)).takeWhile fun c => c != 47 && c != 0).take DIRSIZ,
        ((path.dropWhile (· == 47)).dropWhile fun c => c != 47 && c != 0).dropWhile (· == 47)) := by
  have hcut : ∀ elem : List UInt8,
      (if DIRSIZ ≤ elem.length then elem.take DIRSIZ else elem) = elem.take DIRSIZ := by
    intro elem
    split_ifs with hlen
    · rfl
    · rw [List.take_of_length_le (by omega)]
  unfold skipelem
  simp only [hcut]

/-- `skipelem` finds no component. -/
theorem skipelem_none {path : List UInt8} (h : skipelem path = none) : components path = [] := by
  rw [skipelem_eq] at h
  split_ifs at h with h0
  rw [← components_skip]
  exact components_of_nul h0

/-- `skipelem` takes the first component. -/
theorem skipelem_some {path elem rest : List UInt8} (h : skipelem path = some (elem, rest)) :
    components path = elem :: components rest ∧ rest.length < path.length ∧
      (rest.headD 0 = 0 ↔ components rest = []) := by
  rw [skipelem_eq] at h
  split_ifs at h with h0
  obtain ⟨rfl, rfl⟩ := Prod.mk.inj (Option.some.inj h)
  refine ⟨?_, ?_, ⟨components_of_nul, fun hnil => ?_⟩⟩
  · rw [← components_skip path, components_run h0 (headD_dropWhile_ne path), components_skip]
  · -- The component is not empty.
    have hle := (List.dropWhile_sublist (l := path) (· == 47)).length_le
    have hskip := (List.dropWhile_sublist (l := (path.dropWhile (· == 47)).dropWhile
      fun c => c != 47 && c != 0) (· == 47)).length_le
    have h47 := headD_dropWhile_ne path
    cases hpath : path.dropWhile (· == 47) with
    | nil =>
      rw [hpath] at h0
      exact absurd rfl h0
    | cons c cs =>
      rw [hpath] at h0 h47 hle hskip
      have hc : (c != 47 && c != 0) = true := by simpa using ⟨h47, h0⟩
      rw [List.dropWhile_cons_of_pos (p := fun c : UInt8 => c != 47 && c != 0) hc] at hskip ⊢
      have := (List.dropWhile_sublist (l := cs) fun c => c != 47 && c != 0).length_le
      rw [List.length_cons] at hle
      omega
  · by_contra hne
    rw [components_run hne (headD_dropWhile_ne _)] at hnil
    cases hnil

/-! ### The tree of directories -/

/-- The inode of a name in a directory. -/
def entry (s : State) (i : ℕ) (name : List UInt8) : Option ℕ :=
  (Slots.find Dirent.live ((s.disk.dinode i).dirents s.disk.data) (nameKey name)).map Prod.fst

/-- **The inode that components lead to**: each is looked up in the directory that the ones before
lead to. -/
def walk (s : State) : ℕ → List (List UInt8) → Option ℕ
  | i, [] => some i
  | i, c :: cs =>
    if (s.disk.dinode i).type = .dir then (entry s i c).bind fun j => walk s j cs else none

/-- The inode has an entry of the cache. -/
def InUse (s : State) (i : ℕ) : Prop := ∃ k, 0 < (s.icache k).ref ∧ (s.icache k).inum = i

/-- The number of entries of the cache that are not in use. -/
def spare (s : State) : ℕ := (Finset.univ.filter fun k => (s.icache k).ref = 0).card

instance (s : State) (i : ℕ) : Decidable (InUse s i) := inferInstanceAs (Decidable (∃ _, _))

/-- There is an entry of the cache for `j`, while `i` has one. -/
def Room (s : State) (i j : ℕ) : Prop :=
  InUse s j ∨ j = i ∨ (if InUse s i then 1 else 2) ≤ spare s

/-- **A component needs an entry of the cache when none is left**, on the way from `i`. -/
def CrowdedFrom (s : State) : ℕ → List (List UInt8) → Prop
  | _, [] => False
  | i, c :: cs =>
    (s.disk.dinode i).type = .dir ∧ ∃ j, entry s i c = some j ∧ (¬ Room s i j ∨ CrowdedFrom s j cs)

/-- An inode that a path can lead to: it is allocated, it has a link or somebody uses it, and a
directory is a table of entries without holes. -/
structure SoundInode (s : State) (i : ℕ) : Prop where
  allocated : (s.disk.dinode i).type ≠ .free
  linked : (s.disk.dinode i).nlink ≠ 0 ∨ InUse s i
  dir : (s.disk.dinode i).type = .dir → ∃ n, (⟨i, s.disk.dinode i, s.disk⟩ : Work).IsDir n

/-- All inodes that components lead to from `i` are sound. -/
def Tree (s : State) (i : ℕ) : Prop := ∀ cs j, walk s i cs = some j → SoundInode s j

theorem Tree.sound {s : State} {i : ℕ} (h : Tree s i) : SoundInode s i := h [] i rfl

theorem Tree.entry {s : State} {i j : ℕ} {c : List UInt8} (h : Tree s i)
    (hdir : (s.disk.dinode i).type = .dir) (hc : Path.entry s i c = some j) : Tree s j := by
  intro cs j' hj'
  refine h (c :: cs) j' ?_
  rw [walk, if_pos hdir, hc]
  exact hj'

/-- No process is at work on an inode, no inode has two entries of the cache, and the copies in the
cache are those of the disk. -/
structure Quiet (s : State) : Prop where
  unlocked : ∀ k, (s.icache k).lock = none
  unique : ∀ j k, 0 < (s.icache j).ref → 0 < (s.icache k).ref →
    (s.icache j).inum = (s.icache k).inum → j = k
  copy : ∀ k, 0 < (s.icache k).ref → (s.icache k).valid = true →
    (s.icache k).copy = s.disk.dinode (s.icache k).inum

/-! ### References and locks on the way -/

/-- **The state is as before**, except that there are `e k` more references to the entry `k`, and
the locks are `l`. -/
structure Keeps (s t : State) (e : Cached → ℕ) (l : Cached → Option Slot) : Prop where
  disk : t.disk = s.disk
  proc : t.proc = s.proc
  ref : ∀ k, (t.icache k).ref = (s.icache k).ref + e k
  lock : ∀ k, (t.icache k).lock = l k
  inum : ∀ k, 0 < (s.icache k).ref → (t.icache k).inum = (s.icache k).inum
  unique : ∀ j k, 0 < (t.icache j).ref → 0 < (t.icache k).ref →
    (t.icache j).inum = (t.icache k).inum → j = k
  copy : ∀ k, 0 < (t.icache k).ref → (t.icache k).valid = true →
    (t.icache k).copy = s.disk.dinode (t.icache k).inum

theorem Quiet.keeps {s : State} (h : Quiet s) : Keeps s s 0 fun _ => none where
  disk := rfl
  proc := rfl
  ref := fun _ => rfl
  lock := h.unlocked
  inum := fun _ _ => rfl
  unique := h.unique
  copy := h.copy

section Actions

variable {env : Env} {p : Slot} {s t : State} {e : Cached → ℕ} {l : Cached → Option Slot}
  {k : Cached} {x : Inode}

theorem icache_setInode (t : State) (k : Cached) (x : Inode) (j : Cached) :
    (t.setInode k x).icache j = if j = k then x else t.icache j := update_apply ..

/-- An entry of the cache is changed, and keeps its inode. -/
theorem Keeps.touch (h : Keeps s t e l) (n : ℕ) (hinum : x.inum = (t.icache k).inum)
    (href : x.ref = (s.icache k).ref + n) (hused : 0 < x.ref → 0 < (t.icache k).ref)
    (hcopy : 0 < x.ref → x.valid = true → x.copy = s.disk.dinode x.inum) :
    Keeps s (t.setInode k x) (update e k n) (update l k x.lock) := by
  -- What is in use is in use before, with the same inode.
  have hold : ∀ j, 0 < ((t.setInode k x).icache j).ref →
      0 < (t.icache j).ref ∧ ((t.setInode k x).icache j).inum = (t.icache j).inum := by
    intro j hj
    rw [icache_setInode] at hj ⊢
    split_ifs at hj ⊢ with hjk
    · rw [hjk]
      exact ⟨hused hj, hinum⟩
    · exact ⟨hj, rfl⟩
  refine ⟨h.disk, h.proc, fun j => ?_, fun j => ?_, fun j hj => ?_,
    fun i j hi hj hij => ?_, fun j hj hvalid => ?_⟩
  · rw [icache_setInode, update_apply]
    split_ifs with hjk
    · rw [href, hjk]
    · exact h.ref j
  · rw [icache_setInode, update_apply]
    split_ifs
    · rfl
    · exact h.lock j
  · rw [icache_setInode]
    split_ifs with hjk
    · rw [hinum, ← hjk, h.inum j hj]
    · exact h.inum j hj
  · obtain ⟨hi, hi'⟩ := hold i hi
    obtain ⟨hj, hj'⟩ := hold j hj
    rw [hi', hj'] at hij
    exact h.unique i j hi hj hij
  · rw [icache_setInode] at hj hvalid ⊢
    split_ifs at hj hvalid ⊢
    · exact hcopy hj hvalid
    · exact h.copy j hj hvalid

/-- An entry of the cache that is not in use is taken for an inode that has none. -/
theorem Keeps.recycle (h : Keeps s t e l) {i : ℕ} (hk : (t.icache k).ref = 0)
    (hnew : ∀ j, 0 < (t.icache j).ref → (t.icache j).inum ≠ i) :
    Keeps s (t.setInode k { t.icache k with inum := i, ref := 1, valid := false })
      (update e k 1) l := by
  have hs : (s.icache k).ref = 0 ∧ e k = 0 := by
    have := h.ref k
    omega
  refine ⟨h.disk, h.proc, fun j => ?_, fun j => ?_, fun j hj => ?_,
    fun i j hi hj hij => ?_, fun j hj hvalid => ?_⟩
  · rw [icache_setInode, update_apply]
    split_ifs with hjk
    · rw [hjk, hs.1]
    · exact h.ref j
  · rw [icache_setInode]
    split_ifs with hjk
    · rw [hjk]
      exact h.lock k
    · exact h.lock j
  · rw [icache_setInode, if_neg (by rintro rfl; omega)]
    exact h.inum j hj
  · rw [icache_setInode] at hi hij
    rw [icache_setInode] at hj hij
    split_ifs at hi hj hij with hik hjk hjk
    · rw [hik, hjk]
    · exact absurd hij.symm (hnew j hj)
    · exact absurd hij (hnew i hi)
    · exact h.unique i j hi hj hij
  · rw [icache_setInode] at hj hvalid ⊢
    by_cases hjk : j = k
    · rw [if_pos hjk] at hvalid
      exact absurd hvalid Bool.false_ne_true
    · rw [if_neg hjk] at hj hvalid ⊢
      exact h.copy j hj hvalid

/-- One more reference to an entry that is in use. -/
theorem Keeps.addRef (h : Keeps s t e l) (hk : 0 < (t.icache k).ref) :
    Keeps s (t.setInode k { t.icache k with ref := (t.icache k).ref + 1 })
      (update e k (e k + 1)) l := by
  have href := h.ref k
  have hkeeps := h.touch (x := { t.icache k with ref := (t.icache k).ref + 1 }) (e k + 1) rfl
    (by simp only; omega) (fun _ => hk) (fun _ hvalid => h.copy k hk hvalid)
  rwa [show ({ t.icache k with ref := (t.icache k).ref + 1 } : Inode).lock = l k from h.lock k,
    update_eq_self] at hkeeps

variable (env p) in
/-- **`iget`**: the entry of the inode, an entry that was not in use, or a panic when there is
neither. -/
theorem exec_iget (h : Keeps s t e l) (i : ℕ) :
    (∃ k t', exec env p (.iget i) t = .ok (k, t') ∧ Keeps s t' (update e k (e k + 1)) l ∧
        (t'.icache k).inum = i ∧ ∀ j, 0 < (t.icache j).ref →
          (t'.icache j).inum = (t.icache j).inum) ∧
        ((∃ k, 0 < (t.icache k).ref ∧ (t.icache k).inum = i) ∨ ∃ k, (t.icache k).ref = 0) ∨
      exec env p (.iget i) t = .error (.panic .iget) ∧
        (¬ ∃ k, 0 < (t.icache k).ref ∧ (t.icache k).inum = i) ∧ ¬ ∃ k, (t.icache k).ref = 0 := by
  rw [exec]
  cases hcached : t.cached i with
  | some k =>
    left
    have hk := firstIdx_spec hcached
    simp only [Bool.and_eq_true, decide_eq_true_eq] at hk
    refine ⟨⟨k, _, rfl, ?_, ?_, fun j _ => ?_⟩, .inl ⟨k, hk⟩⟩
    · exact h.addRef hk.1
    · rw [icache_setInode, if_pos rfl]
      exact hk.2
    · rw [icache_setInode]
      split_ifs with hjk
      · rw [hjk]
      · rfl
  | none =>
    have hnone : ∀ k, 0 < (t.icache k).ref → (t.icache k).inum ≠ i := by
      intro k hk
      have := firstIdx_eq_none.mp hcached k
      simpa [hk] using this
    cases hunused : t.unused with
    | some k =>
      left
      have hk : (t.icache k).ref = 0 := by simpa using firstIdx_spec hunused
      have he : e k = 0 := by
        have := h.ref k
        omega
      refine ⟨⟨k, _, rfl, ?_, ?_, fun j hj => ?_⟩, .inr ⟨k, hk⟩⟩
      · rw [he]
        exact h.recycle hk hnone
      · rw [icache_setInode, if_pos rfl]
      · rw [icache_setInode, if_neg (by rintro rfl; omega)]
    | none =>
      right
      refine ⟨rfl, ?_, ?_⟩
      · rintro ⟨k, hk, hi⟩
        exact hnone k hk hi
      · rintro ⟨k, hk⟩
        have := firstIdx_eq_none.mp hunused k
        simp [hk] at this

theorem run_act {a : Act} {r : a.Resp} {t' : State} (h : exec env p a t = .ok (r, t')) :
    (act a).run (exec env p) t = .ok (r, t') := Prog.run_perform.trans h

theorem run_act_bind {α : Type} {a : Act} {r : a.Resp} {t' : State} {f : a.Resp → FsProg α}
    (h : exec env p a t = .ok (r, t')) :
    (act a >>= f).run (exec env p) t = (f r).run (exec env p) t' :=
  Prog.run_bind_of_ok (run_act h)

theorem run_act_bind_of_error {α : Type} {a : Act} {x : Fault} {f : a.Resp → FsProg α}
    (h : exec env p a t = .error x) : (act a >>= f).run (exec env p) t = .error x :=
  Prog.run_bind_of_error (Prog.run_perform.trans h)

theorem inum_setInode (hx : x.inum = (t.icache k).inum) (j : Cached) :
    ((t.setInode k x).icache j).inum = (t.icache j).inum := by
  rw [icache_setInode]
  split_ifs with hjk
  · rw [hx, hjk]
  · rfl

theorem update_none (hl : l k = none) : update l k none = l := by
  rw [← hl, update_eq_self]

/-- The lock of an entry is set. -/
theorem Keeps.setLock (h : Keeps s t e l) (k : Cached) (o : Option Slot) :
    Keeps s (t.setInode k { t.icache k with lock := o }) e (update l k o) := by
  have hkeeps := h.touch (x := { t.icache k with lock := o }) (e k) rfl (h.ref k) id (h.copy k)
  rwa [update_eq_self] at hkeeps

variable (env p)

/-- **`ilock`** loads an inode that is allocated. -/
theorem run_ilock (h : Keeps s t e l) (hl : l k = none) (href : 0 < (t.icache k).ref)
    (htype : (s.disk.dinode (t.icache k).inum).type ≠ .free) :
    ∃ t', (ilock k).run (exec env p) t = .ok ((), t') ∧
      Keeps s t' e (update l k (some p)) ∧
      (∀ j, (t'.icache j).inum = (t.icache j).inum) ∧
      (t'.icache k).copy = s.disk.dinode (t.icache k).inum := by
  have hassert : exec env p (.assertRef k) t = .ok ((), t) := if_neg (by omega)
  set t₁ := t.setInode k { t.icache k with lock := some p } with ht₁
  have hacquire : exec env p (.acquiresleep k) t = .ok ((), t₁) := if_pos ((h.lock k).trans hl)
  have h₁ : Keeps s t₁ e (update l k (some p)) := h.setLock k (some p)
  have hk : t₁.icache k =
      { t.icache k with lock := some p } := by rw [ht₁, State.icache_setInode_self]
  have hinum : ∀ j, (t₁.icache j).inum = (t.icache j).inum := inum_setInode rfl
  rw [ilock, run_act_bind hassert, run_act_bind hacquire]
  cases hvalid : (t.icache k).valid with
  | true =>
    refine ⟨t₁, run_act (if_pos (by rw [hk]; exact hvalid)), h₁, hinum, ?_⟩
    rw [hk]
    exact h.copy k href hvalid
  | false =>
    set c := s.disk.dinode (t.icache k).inum with hc
    set t₂ := t₁.setInode k { t₁.icache k with valid := true, copy := c } with ht₂
    have hload : exec env p (.load k) t₁ = .ok ((), t₂) := by
      have hdisk : t₁.disk.dinode (t₁.icache k).inum = c := by rw [h₁.disk, hinum]
      rw [exec, if_neg (by rw [hk]; simp [hvalid])]
      simp only [hdisk]
      rw [if_neg htype]
    refine ⟨t₂, run_act hload, ?_, fun j => ?_, ?_⟩
    · have hkeeps := h₁.touch (x := { t₁.icache k with valid := true, copy := c }) (e k) rfl
        (h₁.ref k) id (fun _ _ => by rw [hc, ← hinum])
      rwa [update_eq_self, show ({ t₁.icache k with valid := true, copy := c } : Inode).lock =
        update l k (some p) k from h₁.lock k, update_eq_self] at hkeeps
    · exact (inum_setInode (x := { t₁.icache k with valid := true, copy := c }) rfl j).trans
        (hinum j)
    · rw [ht₂, State.icache_setInode_self]

theorem run_iunlock (h : Keeps s t e l) (hl : l k = some p) (href : 0 < (t.icache k).ref) :
    ∃ t', (iunlock k).run (exec env p) t = .ok ((), t') ∧
      Keeps s t' e (update l k none) ∧ ∀ j, (t'.icache j).inum = (t.icache j).inum := by
  have hassert : exec env p (.assertHeld k) t = .ok ((), t) := by
    refine if_neg ?_
    rw [h.lock k, hl]
    simp
    omega
  rw [iunlock, run_act_bind hassert]
  exact ⟨_, run_act rfl, h.setLock k none, inum_setInode rfl⟩

/-- **`iput`** drops the reference, and does not free an inode that has a link or another
reference. -/
theorem run_iput (h : Keeps s t e l) (hl : l k = none) (he : 0 < e k)
    (hlinked : (s.disk.dinode (t.icache k).inum).nlink ≠ 0 ∨ 0 < (s.icache k).ref) :
    ∃ t', (iput k).run (exec env p) t = .ok ((), t') ∧
      Keeps s t' (update e k (e k - 1)) l ∧
      ∀ j, (t'.icache j).inum = (t.icache j).inum := by
  have href := h.ref k
  set t₁ := t.setInode k { t.icache k with lock := some p } with ht₁
  have hacquire : exec env p (.acquiresleep k) t = .ok ((), t₁) := if_pos ((h.lock k).trans hl)
  have h₁ : Keeps s t₁ e (update l k (some p)) := h.setLock k (some p)
  have hk : t₁.icache k =
      { t.icache k with lock := some p } := by rw [ht₁, State.icache_setInode_self]
  have htest : exec env p (.iputTest k) t₁ = .ok (false, t₁) := by
    have hfalse : ((t.icache k).valid && decide ((t.icache k).copy.nlink = 0) &&
        decide ((t.icache k).ref = 1)) = false := by
      by_contra htrue
      simp only [Bool.not_eq_false, Bool.and_eq_true, decide_eq_true_eq] at htrue
      obtain ⟨⟨hvalid, hzero⟩, hone⟩ := htrue
      rw [h.copy k (by omega) hvalid] at hzero
      rcases hlinked with hlinked | hlinked
      · exact hlinked hzero
      · omega
    rw [exec, hk]
    exact congrArg (fun b => Except.ok (b, t₁)) hfalse
  set t₂ := t₁.setInode k { t₁.icache k with lock := none } with ht₂
  have h₂ : Keeps s t₂ e l := by
    have hkeeps := h₁.setLock k none
    rwa [update_idem, update_none hl] at hkeeps
  have hk₂ : (t₂.icache k).ref = (t.icache k).ref := by rw [ht₂, State.icache_setInode_self, hk]
  rw [iput, run_act_bind hacquire, run_act_bind htest]
  refine ⟨_, run_act rfl, ?_, fun j => ?_⟩
  · have hkeeps := h₂.touch (x := { t₂.icache k with ref := (t₂.icache k).ref - 1 }) (e k - 1) rfl
      (by simp only; omega) (fun _ => by omega) (fun _ hvalid => h₂.copy k (by omega) hvalid)
    rwa [show ({ t₂.icache k with ref := (t₂.icache k).ref - 1 } : Inode).lock = l k from h₂.lock k,
      update_eq_self] at hkeeps
  · have hinum₁ : (t₁.icache j).inum = (t.icache j).inum :=
      inum_setInode (x := { t.icache k with lock := some p }) rfl j
    have hinum₂ : (t₂.icache j).inum = (t₁.icache j).inum :=
      inum_setInode (x := { t₁.icache k with lock := none }) rfl j
    exact (inum_setInode (x := { t₂.icache k with ref := (t₂.icache k).ref - 1 }) rfl j).trans
      (hinum₂.trans hinum₁)

theorem run_iunlockput (h : Keeps s t e (update l k (some p))) (hl : l k = none)
    (he : 0 < e k)
    (hlinked : (s.disk.dinode (t.icache k).inum).nlink ≠ 0 ∨ 0 < (s.icache k).ref) :
    ∃ t', (iunlockput k).run (exec env p) t = .ok ((), t') ∧
      Keeps s t' (update e k (e k - 1)) l ∧
      ∀ j, (t'.icache j).inum = (t.icache j).inum := by
  have href := h.ref k
  obtain ⟨t₁, hrun₁, h₁, hinum₁⟩ := run_iunlock env p h (update_self ..) (by omega)
  rw [update_idem, update_none hl] at h₁
  obtain ⟨t₂, hrun₂, h₂, hinum₂⟩ := run_iput env p h₁ hl he (by rwa [hinum₁])
  refine ⟨t₂, ?_, h₂, fun j => by rw [hinum₂, hinum₁]⟩
  rw [iunlockput, Prog.run_bind_of_ok hrun₁, hrun₂]

/-- The search of `dirlookup` in a locked directory changes nothing. -/
theorem exec_dirfind (h : Keeps s t e l) {i : ℕ} (hi : (t.icache k).inum = i)
    (hcopy : (t.icache k).copy = s.disk.dinode i) (hsound : SoundInode s i)
    (hdir : (s.disk.dinode i).type = .dir) (name : List UInt8) :
    ∃ r, exec env p (.dirfind k name) t = .ok (r, t) ∧ r.map Prod.fst = entry s i name := by
  obtain ⟨n, hn⟩ := hsound.dir hdir
  have hwork : t.work k = ⟨i, s.disk.dinode i, s.disk⟩ := by
    rw [State.work, hi, hcopy, h.disk]
  have hset : t.setWork k (t.work k) = t := by
    unfold State.setWork State.work
    simp
  have hfind := @dirfind_eq env _ n hn name
  rw [← hwork] at hfind
  refine ⟨(Slots.find Dirent.live (t.work k).dirents (nameKey name)).map atOffset, ?_, ?_⟩
  · show (dirfind env name (t.work k) >>= fun x => .ok (x.1, t.setWork k x.2)) = _
    rw [hfind]
    exact congrArg (fun t' => Except.ok (_, t')) hset
  · rw [hwork, entry, Option.map_map]
    rfl

/-- Who uses an inode of which there is a reference. -/
theorem Keeps.inUse_iff (h : Keeps s t e l) (hk : 0 < (t.icache k).ref) :
    InUse s (t.icache k).inum ↔ 0 < (s.icache k).ref := by
  constructor
  · rintro ⟨j, hj, hinum⟩
    have href := h.ref j
    obtain rfl := h.unique j k (by omega) hk ((h.inum j hj).trans hinum)
    exact hj
  · exact fun hs => ⟨k, hs, (h.inum k hs).symm⟩

/-- Whether `iget` succeeds, with one entry held. -/
theorem Keeps.room_iff (h : Keeps s t (Pi.single k 1) l) (j : ℕ) :
    ((∃ k', 0 < (t.icache k').ref ∧ (t.icache k').inum = j) ∨ ∃ k', (t.icache k').ref = 0) ↔
      Room s (t.icache k).inum j := by
  have hone : (t.icache k).ref = (s.icache k).ref + 1 := by rw [h.ref k, Pi.single_eq_same]
  have hother : ∀ k', k' ≠ k → (t.icache k').ref = (s.icache k').ref := fun k' hk' => by
    rw [h.ref k', Pi.single_eq_of_ne hk', Nat.add_zero]
  have hinUse := h.inUse_iff (k := k) (by omega)
  simp only [Room, hinUse]
  constructor
  · rintro (⟨k', hk', hj⟩ | ⟨k', hk'⟩)
    · by_cases hkk : k' = k
      · exact .inr (.inl (by rw [← hj, hkk]))
      · rw [hother k' hkk] at hk'
        exact .inl ⟨k', hk', (h.inum k' hk').symm.trans hj⟩
    · have hkk : k' ≠ k := by
        rintro rfl
        omega
      rw [hother k' hkk] at hk'
      refine .inr (.inr ?_)
      split_ifs with hs
      · exact Finset.card_pos.mpr ⟨k', by simpa using hk'⟩
      · exact Finset.one_lt_card.mpr ⟨k', by simpa using hk', k, by simpa using hs, hkk⟩
  · rintro (⟨k', hk', hj⟩ | hj | hspare)
    · have href := h.ref k'
      exact .inl ⟨k', by omega, (h.inum k' hk').trans hj⟩
    · exact .inl ⟨k, by omega, hj.symm⟩
    · right
      split_ifs at hspare with hs
      · obtain ⟨k', hk'⟩ := Finset.card_pos.mp hspare
        rw [Finset.mem_filter] at hk'
        have hkk : k' ≠ k := by
          rintro rfl
          omega
        exact ⟨k', (hother k' hkk).trans hk'.2⟩
      · obtain ⟨k', hk', hkk⟩ := Finset.exists_mem_ne hspare k
        rw [Finset.mem_filter] at hk'
        exact ⟨k', (hother k' hkk).trans hk'.2⟩

/-- The reference moves on. -/
theorem single_next {k k' : Cached} {e : Cached → ℕ}
    (he : e = update (Pi.single k 1) k' ((Pi.single k 1 : Cached → ℕ) k' + 1)) :
    0 < e k ∧ update e k (e k - 1) = Pi.single k' 1 := by
  subst he
  constructor
  · by_cases hk : k = k'
    · subst hk
      simp
    · simp [update_of_ne hk]
  · funext j
    by_cases hk : k = k'
    · subst hk
      by_cases hj : j = k
      · subst hj
        simp
      · simp [update_of_ne hj, Pi.single_eq_of_ne hj]
    · by_cases hj : j = k
      · subst hj
        simp [update_of_ne hk, Pi.single_eq_of_ne hk]
      · by_cases hj' : j = k'
        · subst hj'
          simp [update_of_ne hj, Pi.single_eq_of_ne hj]
        · simp [update_of_ne hj, update_of_ne hj', Pi.single_eq_of_ne hj,
            Pi.single_eq_of_ne hj']

/-- The reference is dropped. -/
theorem single_sub (k : Cached) : update (Pi.single k 1 : Cached → ℕ) k (1 - 1) = 0 := by
  funext j
  by_cases hj : j = k
  · subst hj
    simp
  · simp [update_of_ne hj, Pi.single_eq_of_ne hj]

end Actions

/-! ### The loop -/

section Loop

variable {env : Env} {p : Slot} {s t : State} {ip : Cached} {parent : Bool}

/-- What `namex` returns: the inode and the last component; with `parent` the walk stops one level
early. -/
def resolve (s : State) (parent : Bool) :
    ℕ → List (List UInt8) → List UInt8 → Option (ℕ × List UInt8)
  | i, [], name => if parent then none else some (i, name)
  | i, c :: cs, _ =>
    if (s.disk.dinode i).type = .dir then
      if parent ∧ cs = [] then some (i, c) else (entry s i c).bind fun j => resolve s parent j cs c
    else none

/-- The components that are looked up. -/
def front (parent : Bool) (cs : List (List UInt8)) : List (List UInt8) :=
  if parent then cs.dropLast else cs

/-- A run of `namex` ends as it should: there is one more reference to the inode that is
returned. -/
def Ends (s : State) (r : Except Fault (Option (Cached × List UInt8) × State)) :
    Option (ℕ × List UInt8) → Prop
  | none => ∃ t, r = .ok (none, t) ∧ Keeps s t 0 fun _ => none
  | some (j, name) => ∃ k t, r = .ok (some (k, name), t) ∧ (t.icache k).inum = j ∧
      Keeps s t (Pi.single k 1) fun _ => none

/-- The run ends as it should, or panics where there is no entry of the cache. -/
structure Looks (s : State) (parent : Bool) (i : ℕ) (cs : List (List UInt8)) (name : List UInt8)
    (r : Except Fault (Option (Cached × List UInt8) × State)) : Prop where
  crowded : CrowdedFrom s i (front parent cs) → r = .error (.panic .iget)
  ends : ¬ CrowdedFrom s i (front parent cs) → Ends s r (resolve s parent i cs name)

theorem run_finish (h : Keeps s t (Pi.single ip 1) fun _ => none)
    (hsound : SoundInode s (t.icache ip).inum) (name : List UInt8) :
    Looks s parent (t.icache ip).inum [] name
      ((namexLoop.finish parent ip name).run (exec env p) t) := by
  have hnone : front parent [] = [] := by
    unfold front
    split_ifs <;> rfl
  refine ⟨fun hcrowded => ?_, fun _ => ?_⟩
  · rw [hnone] at hcrowded
    exact hcrowded.elim
  · rw [resolve, namexLoop.finish]
    cases parent with
    | false => exact ⟨ip, t, rfl, rfl, h⟩
    | true =>
      have href : 0 < (t.icache ip).ref := by
        rw [h.ref ip, Pi.single_eq_same]
        omega
      obtain ⟨t', hrun, ht', -⟩ := run_iput env p h rfl (by simp)
        (hsound.linked.imp_right (h.inUse_iff href).mp)
      rw [Pi.single_eq_same, single_sub] at ht'
      exact ⟨t', by rw [if_pos rfl, Prog.run_bind_of_ok hrun]; rfl, ht'⟩

variable (env) in
/-- A component is missing, or the inode is not a directory: the reference is dropped. -/
theorem run_giveUp (h : Keeps s t (Pi.single ip 1) (update (fun _ => none) ip (some p)))
    (hsound : SoundInode s (t.icache ip).inum) :
    ∃ t', (iunlockput ip >>= fun _ => pure none : FsProg (Option (Cached × List UInt8))).run
      (exec env p) t = .ok (none, t') ∧ Keeps s t' 0 fun _ => none := by
  have href : 0 < (t.icache ip).ref := by
    rw [h.ref ip, Pi.single_eq_same]
    omega
  obtain ⟨t', hrun, ht', -⟩ := run_iunlockput env p h rfl (by simp)
    (hsound.linked.imp_right (h.inUse_iff href).mp)
  rw [Pi.single_eq_same, single_sub] at ht'
  exact ⟨t', by rw [Prog.run_bind_of_ok hrun]; rfl, ht'⟩

variable (env) in
/-- **`dirlookup`** in the directory that is held and locked. -/
theorem run_dirlookup (h : Keeps s t (Pi.single ip 1) (update (fun _ => none) ip (some p)))
    (hcopy : (t.icache ip).copy = s.disk.dinode (t.icache ip).inum)
    (hsound : SoundInode s (t.icache ip).inum)
    (hdir : (s.disk.dinode (t.icache ip).inum).type = .dir) (name : List UInt8) :
    (entry s (t.icache ip).inum name = none ∧
        (dirlookup ip name).run (exec env p) t = .ok (none, t)) ∨
      ∃ j, entry s (t.icache ip).inum name = some j ∧
        ((¬ Room s (t.icache ip).inum j ∧
            (dirlookup ip name).run (exec env p) t = .error (.panic .iget)) ∨
          Room s (t.icache ip).inum j ∧ ∃ k off t',
            (dirlookup ip name).run (exec env p) t = .ok (some (k, off), t') ∧
            Keeps s t' (update (Pi.single ip 1) k ((Pi.single ip 1 : Cached → ℕ) k + 1))
              (update (fun _ => none) ip (some p)) ∧
            (t'.icache k).inum = j ∧ (t'.icache ip).inum = (t.icache ip).inum) := by
  have href : 0 < (t.icache ip).ref := by
    rw [h.ref ip, Pi.single_eq_same]
    omega
  obtain ⟨r, hfind, hr⟩ := exec_dirfind env p h rfl hcopy hsound hdir name
  rw [dirlookup, run_act_bind hfind, ← hr]
  cases r with
  | none => exact .inl ⟨rfl, rfl⟩
  | some x =>
    obtain ⟨j, off⟩ := x
    refine .inr ⟨j, rfl, ?_⟩
    rw [← h.room_iff]
    rcases exec_iget env p h j with ⟨⟨k, t', hget, hkeeps, hinum, hsame⟩, hroom⟩ |
      ⟨hget, hnone, hfull⟩
    · refine .inr ⟨hroom, k, off, t', ?_, hkeeps, hinum, hsame ip href⟩
      rw [run_act_bind hget]
      rfl
    · refine .inl ⟨not_or.mpr ⟨hnone, hfull⟩, ?_⟩
      exact run_act_bind_of_error hget

theorem front_cons (c : List UInt8) (cs : List (List UInt8)) :
    front parent (c :: cs) = if parent ∧ cs = [] then [] else c :: front parent cs := by
  unfold front
  cases parent with
  | false => simp
  | true => cases cs <;> simp

variable (env p parent) in
/-- **The loop of `namex`.** -/
theorem namexLoop_spec {fuel : ℕ} {path : List UInt8} (hfuel : path.length ≤ fuel)
    (h : Keeps s t (Pi.single ip 1) fun _ => none) (htree : Tree s (t.icache ip).inum)
    (name : List UInt8) :
    Looks s parent (t.icache ip).inum (components path) name
      ((namexLoop parent fuel path ip name).run (exec env p) t) := by
  induction fuel generalizing path t ip name with
  | zero =>
    obtain rfl : path = [] := List.length_eq_zero_iff.mp (Nat.le_zero.mp hfuel)
    exact run_finish h htree.sound name
  | succ fuel ih =>
    rw [namexLoop]
    cases hskip : skipelem path with
    | none =>
      rw [skipelem_none hskip]
      exact run_finish h htree.sound name
    | some x =>
      obtain ⟨elem, rest⟩ := x
      obtain ⟨hcomponents, hshorter, hlast⟩ := skipelem_some hskip
      rw [hcomponents]
      have href : 0 < (t.icache ip).ref := by
        rw [h.ref ip, Pi.single_eq_same]
        omega
      obtain ⟨t₁, hrun₁, h₁, hinum₁, hcopy₁⟩ := run_ilock env p h rfl href htree.sound.allocated
      have hstat : exec env p (.stat ip) t₁ = .ok (s.disk.dinode (t.icache ip).inum, t₁) := by
        rw [exec, hcopy₁]
      rw [← hinum₁] at hstat hcopy₁ htree ⊢
      rw [Prog.run_bind_of_ok hrun₁, run_act_bind hstat]
      by_cases hdir : (s.disk.dinode (t₁.icache ip).inum).type = .dir
      · rw [if_neg (not_not.mpr hdir)]
        by_cases hstop : parent = true ∧ components rest = []
        · -- The walk stops one level early.
          obtain ⟨t₂, hrun₂, h₂, hinum₂⟩ := run_iunlock env p h₁ (update_self ..)
            (by rw [h₁.ref ip, Pi.single_eq_same]; omega)
          rw [update_idem, update_none rfl] at h₂
          rw [if_pos (by rwa [hlast]), Prog.run_bind_of_ok hrun₂]
          refine ⟨fun hcrowded => ?_, fun _ => ?_⟩
          · rw [front_cons, if_pos hstop] at hcrowded
            exact hcrowded.elim
          · rw [resolve, if_pos hdir, if_pos hstop]
            exact ⟨ip, t₂, rfl, hinum₂ ip, h₂⟩
        · rw [if_neg (by rwa [hlast])]
          have hfront : front parent (elem :: components rest) =
              elem :: front parent (components rest) := by rw [front_cons, if_neg hstop]
          have hresolve : resolve s parent (t₁.icache ip).inum (elem :: components rest) name =
              (entry s (t₁.icache ip).inum elem).bind fun j =>
                resolve s parent j (components rest) elem := by
            rw [resolve, if_pos hdir, if_neg hstop]
          rcases run_dirlookup env h₁ hcopy₁ htree.sound hdir elem with
            ⟨hentry, hrun₂⟩ | ⟨j, hentry,
              ⟨hroom, hrun₂⟩ | ⟨hroom, next, off, t₂, hrun₂, h₂, hj, hip⟩⟩
          · -- The component is missing.
            obtain ⟨t₃, hrun₃, h₃⟩ := run_giveUp env h₁ htree.sound
            rw [Prog.run_bind_of_ok hrun₂]
            rw [hrun₃]
            refine ⟨fun hcrowded => ?_, fun _ => ?_⟩
            · rw [hfront] at hcrowded
              obtain ⟨-, j, hj, -⟩ := hcrowded
              rw [hentry] at hj
              cases hj
            · rw [hresolve, hentry]
              exact ⟨t₃, rfl, h₃⟩
          · -- There is no entry of the cache for it.
            rw [Prog.run_bind_of_error hrun₂]
            refine ⟨fun _ => rfl, fun hcrowded => ?_⟩
            rw [hfront] at hcrowded
            exact absurd ⟨hdir, j, hentry, .inl hroom⟩ hcrowded
          · obtain ⟨hpos, hnext⟩ := single_next rfl
            obtain ⟨t₃, hrun₃, h₃, hinum₃⟩ := run_iunlockput env p h₂ rfl hpos (by
              rw [hip]
              exact htree.sound.linked.imp_right
                (h₁.inUse_iff (by rw [h₁.ref ip, Pi.single_eq_same]; omega)).mp)
            rw [hnext] at h₃
            rw [Prog.run_bind_of_ok hrun₂]
            rw [Prog.run_bind_of_ok hrun₃]
            have hj₃ : (t₃.icache next).inum = j := (hinum₃ next).trans hj
            have hfuel' : rest.length ≤ fuel := by omega
            obtain ⟨hcrowded, hends⟩ := ih hfuel' h₃
              (by rw [hj₃]; exact htree.entry hdir hentry) elem
            rw [hj₃] at hcrowded hends
            have hiff : CrowdedFrom s (t₁.icache ip).inum (elem :: front parent (components rest)) ↔
                CrowdedFrom s j (front parent (components rest)) := by
              constructor
              · rintro ⟨-, j', hj', hor⟩
                rw [hentry] at hj'
                cases hj'
                exact hor.resolve_left (not_not.mpr hroom)
              · exact fun hc => ⟨hdir, j, hentry, .inr hc⟩
            refine ⟨fun hc => ?_, fun hc => ?_⟩
            · rw [hfront, hiff] at hc
              exact hcrowded hc
            · rw [hfront, hiff] at hc
              rw [hresolve, hentry]
              exact hends hc
      · -- The inode is not a directory.
        rw [if_pos hdir]
        obtain ⟨t₂, hrun₂, h₂⟩ := run_giveUp env h₁ htree.sound
        rw [hrun₂]
        refine ⟨fun hcrowded => ?_, fun _ => ?_⟩
        · rw [front_cons] at hcrowded
          split_ifs at hcrowded
          · exact hcrowded.elim
          · exact absurd hcrowded.1 hdir
        · rw [resolve, if_neg hdir]
          exact ⟨t₂, rfl, h₂⟩

end Loop

/-! ### Paths -/

section Paths

variable {env : Env} {p : Slot} {s : State} {path : List UInt8} {parent : Bool}

/-- The inode at which a path begins: the root or the current directory. -/
def start (s : State) (p : Slot) (path : List UInt8) : ℕ :=
  if path.headD 0 = 47 then ROOTINO else ((s.proc p).cwd.map fun k => (s.icache k).inum).getD 0

/-- **An inode on the way needs an entry of the cache when none is left.** -/
def Crowded (s : State) (p : Slot) (path : List UInt8) (cs : List (List UInt8)) : Prop :=
  (path.headD 0 = 47 ∧ ¬ (InUse s ROOTINO ∨ 0 < spare s)) ∨ CrowdedFrom s (start s p path) cs

/-- The process has a current directory. -/
def HasCwd (s : State) (p : Slot) : Prop := ∃ k, (s.proc p).cwd = some k ∧ 0 < (s.icache k).ref

theorem single_of_zero (k : Cached) :
    update (0 : Cached → ℕ) k ((0 : Cached → ℕ) k + 1) = Pi.single k 1 := rfl

variable (env parent) in
/-- **`namex`** of a process that runs by itself. -/
theorem namex_spec (hs : Quiet s) (hcwd : HasCwd s p) (htree : Tree s (start s p path)) :
    (Crowded s p path (front parent (components path)) →
        (namex path parent).run (exec env p) s = .error (.panic .iget)) ∧
      (¬ Crowded s p path (front parent (components path)) →
        Ends s ((namex path parent).run (exec env p) s)
          (resolve s parent (start s p path) (components path) [])) := by
  unfold Crowded
  by_cases habs : path.headD 0 = 47
  · have hstart : start s p path = ROOTINO := if_pos habs
    rw [hstart] at htree ⊢
    have hroom : ((∃ k, 0 < (s.icache k).ref ∧ (s.icache k).inum = ROOTINO) ∨
        ∃ k, (s.icache k).ref = 0) ↔ InUse s ROOTINO ∨ 0 < spare s := by
      refine or_congr Iff.rfl ?_
      rw [spare, Finset.card_pos]
      simp [Finset.Nonempty]
    rw [namex, if_pos habs]
    rcases exec_iget env p hs.keeps ROOTINO with
      ⟨⟨k, t, hget, hkeeps, hinum, -⟩, hfits⟩ | ⟨hget, hnone, hfull⟩
    · have hloop := namexLoop_spec env p parent (le_refl path.length)
        hkeeps (by rwa [hinum]) []
      rw [hinum] at hloop
      rw [run_act_bind hget]
      refine ⟨fun hc => hloop.crowded (hc.resolve_left ?_), fun hc => hloop.ends (not_or.mp hc).2⟩
      exact fun hno => hno.2 (hroom.mp hfits)
    · rw [run_act_bind_of_error hget]
      refine ⟨fun _ => rfl, fun hc => absurd (.inl ⟨habs, ?_⟩) hc⟩
      rw [← hroom]
      exact not_or.mpr ⟨hnone, hfull⟩
  · obtain ⟨k, hk, href⟩ := hcwd
    have hstart : start s p path = (s.icache k).inum := by
      rw [start, if_neg habs, hk]
      rfl
    rw [hstart] at htree ⊢
    set t := s.setInode k { s.icache k with ref := (s.icache k).ref + 1 } with ht
    have hdup : exec env p .idupCwd s = .ok (k, t) := by rw [exec, hk]
    have hkeeps : Keeps s t (Pi.single k 1) fun _ => none := hs.keeps.addRef href
    have hinum : (t.icache k).inum = (s.icache k).inum := by rw [ht, State.icache_setInode_self]
    have hloop := namexLoop_spec env p parent (le_refl path.length)
      hkeeps (by rwa [hinum]) []
    rw [hinum] at hloop
    rw [namex, if_neg habs, run_act_bind hdup]
    exact ⟨fun hc => hloop.crowded (hc.resolve_left fun hno => habs hno.1),
      fun hc => hloop.ends (not_or.mp hc).2⟩

/-- `namei` returns what the components lead to. -/
theorem resolve_false (i : ℕ) (cs : List (List UInt8)) (name : List UInt8) :
    (resolve s false i cs name).map Prod.fst = walk s i cs := by
  induction cs generalizing i name with
  | nil => rfl
  | cons c cs ih =>
    rw [resolve, walk]
    by_cases hdir : (s.disk.dinode i).type = .dir
    · rw [if_pos hdir, if_pos hdir, if_neg (by simp), Option.map_bind]
      exact congrArg _ (funext fun j => ih j c)
    · rw [if_neg hdir, if_neg hdir]
      rfl

/-- What `nameiparent` returns: the directory that all components but the last lead to, and the last
one. -/
def parentOf (s : State) (i : ℕ) (cs : List (List UInt8)) : Option (ℕ × List UInt8) :=
  cs.getLast?.bind fun c => (walk s i cs.dropLast).bind fun j =>
    if (s.disk.dinode j).type = .dir then some (j, c) else none

theorem resolve_true (i : ℕ) (cs : List (List UInt8)) (name : List UInt8) :
    resolve s true i cs name = parentOf s i cs := by
  induction cs generalizing i name with
  | nil => rfl
  | cons c cs ih =>
    rw [resolve]
    cases cs with
    | nil =>
      rfl
    | cons c' cs =>
      have hrest : (c' :: cs).getLast? ≠ none := by simp
      obtain ⟨d, hd⟩ := Option.ne_none_iff_exists'.mp hrest
      unfold parentOf at ih ⊢
      rw [List.dropLast_cons_cons, walk, List.getLast?_cons_cons, hd]
      rw [hd] at ih
      by_cases hdir : (s.disk.dinode i).type = .dir
      · rw [if_pos hdir, if_pos hdir, if_neg (by simp), Option.bind_some, Option.bind_assoc]
        exact congrArg _ (funext fun j => ih j c)
      · rw [if_neg hdir, if_neg hdir]
        rfl

/-- `namei` ends as it should. -/
def Finds (s : State) (r : Except Fault (Option Cached × State)) : Option ℕ → Prop
  | none => ∃ t, r = .ok (none, t) ∧ Keeps s t 0 fun _ => none
  | some j => ∃ k t, r = .ok (some k, t) ∧ (t.icache k).inum = j ∧
      Keeps s t (Pi.single k 1) fun _ => none

end Paths

/-- **Path resolution is component-wise lookup.** A process runs by itself, on a tree of directories
that is sound. `namei` returns the inode that the components of the path lead to, or nothing where
they lead nowhere; `nameiparent` returns the directory that all components but the last lead to,
with the last component, or nothing where there is none or it is not a directory. There is one more
reference to the inode that is returned, and nothing else changes. The functions panic exactly when
they need an entry of the inode cache and none is left. -/
theorem path_resolution (env : Env) (p : Slot) (s : State) (path : List UInt8) (hs : Quiet s)
    (hcwd : HasCwd s p) (htree : Tree s (start s p path)) :
    (¬ Crowded s p path (components path) →
        Finds s ((namei path).run (exec env p) s) (walk s (start s p path) (components path))) ∧
      (Crowded s p path (components path) →
        (namei path).run (exec env p) s = .error (.panic .iget)) ∧
      (¬ Crowded s p path (components path).dropLast →
        Ends s ((nameiparent path).run (exec env p) s)
          (parentOf s (start s p path) (components path))) ∧
      (Crowded s p path (components path).dropLast →
        (nameiparent path).run (exec env p) s = .error (.panic .iget)) := by
  obtain ⟨hcrowded, hends⟩ := namex_spec env false hs hcwd htree
  obtain ⟨hcrowded', hends'⟩ := namex_spec env true hs hcwd htree
  refine ⟨fun hc => ?_, fun hc => ?_, fun hc => ?_, hcrowded'⟩
  · have hrun := hends hc
    rw [← resolve_false (start s p path) (components path) []]
    cases hr : resolve s false (start s p path) (components path) [] with
    | none =>
      rw [hr] at hrun
      obtain ⟨t, hrun, hkeeps⟩ := hrun
      exact ⟨t, by rw [namei, Prog.run_bind_of_ok hrun]; rfl, hkeeps⟩
    | some x =>
      rw [hr] at hrun
      obtain ⟨k, t, hrun, hinum, hkeeps⟩ := hrun
      exact ⟨k, t, by rw [namei, Prog.run_bind_of_ok hrun]; rfl, hinum, hkeeps⟩
  · rw [namei, Prog.run_bind_of_error (hcrowded hc)]
  · rw [← resolve_true (start s p path) (components path) []]
    exact hends' hc

/-! ### A directory with one file -/

section Example

/-- The content of a root directory with one file, `x`, whose inode is `60`. -/
def rootBytes : List UInt8 :=
  Dirent.encode ⟨1, strncpy dot DIRSIZ⟩ ++ Dirent.encode ⟨1, strncpy dotdot DIRSIZ⟩ ++
    Dirent.encode ⟨60, strncpy [120] DIRSIZ⟩

/-- The root directory is in block `59`, and all inodes up to `60` are files. -/
def oneFile : Image where
  dinode i :=
    if i = 1 then ⟨.dir, 0, 0, 1, 48, fun j => if j = 0 then 59 else 0⟩
    else if i ≤ 60 then ⟨.file, 0, 0, 1, 0, fun _ => 0⟩ else .zero
  bitmap b := decide (b ≤ 59)
  data b i := if b = 59 then rootBytes.getD i 0 else 0

theorem ninode_pos : 0 < NINODE := by decide

/-- The first entries of the cache are in use, for the inodes from `1` on; the root is the current
directory. -/
def withUsed (n : ℕ) : State where
  disk := oneFile
  icache k := ⟨k.val + 1, if k.val < n then 1 else 0, none, false, .zero⟩
  proc _ := ⟨some ⟨0, ninode_pos⟩⟩

theorem quiet_withUsed (n : ℕ) : Quiet (withUsed n) :=
  ⟨fun _ => rfl, fun _ _ _ _ h => Fin.ext (Nat.succ.inj h),
    fun _ _ hvalid => absurd hvalid Bool.false_ne_true⟩

theorem hasCwd_withUsed {n : ℕ} (p : Slot) (hn : 0 < n) : HasCwd (withUsed n) p := by
  refine ⟨0, rfl, ?_⟩
  show 0 < if 0 < n then 1 else 0
  rw [if_pos hn]
  decide

theorem inum_of_mem_root :
    ∀ de ∈ (oneFile.dinode 1).dirents oneFile.data, de.inum = 1 ∨ de.inum = 60 := by
  decide +kernel

/-- The root directory leads to itself and to the file. -/
theorem entry_withUsed {n j : ℕ} {c : List UInt8} (h : entry (withUsed n) 1 c = some j) :
    j = 1 ∨ j = 60 := by
  obtain ⟨⟨v, i⟩, hfind, rfl⟩ := Option.map_eq_some_iff.mp h
  obtain ⟨de, hde, hlive⟩ := Slots.find_binds hfind
  have hor := inum_of_mem_root de (List.mem_of_getElem? hde)
  unfold Dirent.live at hlive
  split_ifs at hlive
  obtain ⟨-, hv⟩ := Prod.mk.inj (Option.some.inj hlive)
  rwa [← hv]

theorem walk_withUsed {n j : ℕ} {cs : List (List UInt8)} (h : walk (withUsed n) 1 cs = some j) :
    j = 1 ∨ j = 60 := by
  induction cs with
  | nil => exact .inl (Option.some.inj h).symm
  | cons c cs ih =>
    have hdir : ((withUsed n).disk.dinode 1).type = .dir := rfl
    rw [walk, if_pos hdir, Option.bind_eq_some_iff] at h
    obtain ⟨i, hi, h⟩ := h
    rcases entry_withUsed hi with rfl | rfl
    · exact ih h
    · cases cs with
      | nil => exact .inr (Option.some.inj h).symm
      | cons c' cs =>
        cases h

theorem tree_withUsed (n : ℕ) : Tree (withUsed n) 1 := by
  intro cs j h
  rcases walk_withUsed h with rfl | rfl
  · refine ⟨(by decide : (oneFile.dinode 1).type ≠ .free),
      .inl (by decide : (oneFile.dinode 1).nlink ≠ 0),
      fun _ => ⟨3, rfl, ⟨(by decide : 48 ≤ MAXFILE * BSIZE), fun bn hbn => ?_⟩, rfl⟩⟩
    have hlt : bn * 512 < 48 := hbn
    obtain rfl : bn = 0 := by omega
    exact (by decide : (oneFile.dinode 1).block oneFile.data 0 ≠ 0)
  · exact ⟨(by decide : (oneFile.dinode 60).type ≠ .free),
      .inl (by decide : (oneFile.dinode 60).nlink ≠ 0),
      fun hdir => absurd hdir (by decide : ¬ (oneFile.dinode 60).type = .dir)⟩

/-- The path `/x`. -/
def slashX : List UInt8 := [47, 120]

theorem room_withUsed : ¬ Crowded (withUsed 1) 0 slashX (components slashX) := by
  have hspare : 2 ≤ spare (withUsed 1) := by decide +kernel
  rintro (⟨-, hno⟩ | ⟨-, j, -, hno | hno⟩)
  · exact hno (.inr (by omega))
  · refine hno (.inr (.inr ?_))
    split_ifs <;> omega
  · exact hno

/-- The theorem at `/x`, with the root in the cache: the inode `60` is returned. -/
theorem path_resolution_slash :
    Quiet (withUsed 1) ∧ HasCwd (withUsed 1) 0 ∧ Tree (withUsed 1) 1 ∧
      ∃ k t, (namei slashX).run (exec smallEnv 0) (withUsed 1) = .ok (some k, t) ∧
        (t.icache k).inum = 60 ∧ (t.icache k).ref = ((withUsed 1).icache k).ref + 1 := by
  have hcwd := hasCwd_withUsed (n := 1) 0 (by decide)
  refine ⟨quiet_withUsed 1, hcwd, tree_withUsed 1, ?_⟩
  have hfinds := (path_resolution smallEnv 0 (withUsed 1) slashX (quiet_withUsed 1) hcwd
    (tree_withUsed 1)).1 room_withUsed
  obtain ⟨k, t, hrun, hinum, hkeeps⟩ := hfinds
  exact ⟨k, t, hrun, hinum, by rw [hkeeps.ref k, Pi.single_eq_same]⟩

/-- With all entries of the cache in use, `/x` leads to the inode `60`, but `namei` panics. -/
theorem namei_full_cache :
    Quiet (withUsed NINODE) ∧ HasCwd (withUsed NINODE) 0 ∧ Tree (withUsed NINODE) 1 ∧
      walk (withUsed NINODE) (start (withUsed NINODE) 0 slashX) (components slashX) = some 60 ∧
      (namei slashX).run (exec smallEnv 0) (withUsed NINODE) = .error (.panic .iget) := by
  have hcwd := hasCwd_withUsed (n := NINODE) 0 (by decide)
  refine ⟨quiet_withUsed _, hcwd, tree_withUsed _, by decide +kernel, ?_⟩
  have hroom : ¬ Room (withUsed NINODE) 1 60 := by
    rintro (⟨k, -, hk⟩ | h | h)
    · have hk : k.val + 1 = 60 := hk
      have hlt : k.val < 50 := k.isLt
      omega
    · exact absurd h (by decide)
    · have hspare : spare (withUsed NINODE) = 0 := by decide +kernel
      split_ifs at h <;> omega
  have hentry : entry (withUsed NINODE) 1 [120] = some 60 := by decide +kernel
  have hcrowded : Crowded (withUsed NINODE) 0 slashX (front false (components slashX)) :=
    .inr ⟨rfl, 60, hentry, .inl hroom⟩
  have htree : Tree (withUsed NINODE) (start (withUsed NINODE) 0 slashX) := tree_withUsed NINODE
  have hrun := (namex_spec smallEnv false (quiet_withUsed NINODE) hcwd htree).1 hcrowded
  rw [namei, Prog.run_bind_of_error hrun]

end Example

end Path

end Xv6.Fs
