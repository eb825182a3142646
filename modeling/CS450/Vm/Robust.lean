import CS450.Shared.Args
import CS450.Shared.Exec

/-!
# `exec` of arbitrary files

Whatever is in the headers of the file, `exec` returns. When it fails, the old image is as it was
and every page that it took is free again.
-/

namespace Xv6

/-- Strings that together fit into a page do not wrap around. -/
theorem fitsImage_of_sum {argv : List (List UInt8)} (hargv : (argv.map (·.length + 1)).sum ≤ PGSIZE)
    (limit : ℕ) (ip : File) (m : Kmem) : FitsImage limit ip argv m := by
  intro sz _
  refine noWrap_of_le argv _ (Nat.mul_le_mul_right _ (by omega)) fun arg harg => ?_
  have hle := List.single_le_sum (fun _ _ => Nat.zero_le _) _
    (List.mem_map_of_mem (f := fun a : List UInt8 => a.length + 1) harg)
  simp only [PGSIZE] at *
  omega

/-! ### The system call -/

/-- The fields of `struct proc` and of its trap frame that `exec` uses. -/
structure ExecProc where
  pgdir : Option PageDir
  sz : ℕ
  kstack : Option ℕ
  eip : ℕ
  esp : ℕ
  name : List UInt8

namespace ExecProc

/-- The checks of `switchuvm`; the rest of it loads registers. -/
def switchuvm (p : ExecProc) : Except Fault Unit :=
  if p.kstack = none then .error (.panic "switchuvm: no kstack")
  else if p.pgdir.isNone then .error (.panic "switchuvm: no pgdir")
  else .ok ()

/-- `exec`: whether the process runs the new program. -/
def exec (namei : List UInt8 → Option File) (curproc : ExecProc) (path : List UInt8)
    (argv : List (List UInt8)) (m : Kmem) : Except Fault (Bool × ExecProc × Kmem) :=
  match namei path with
  | none => .ok (false, curproc, m)
  | some ip => do
    let (image, m) ← loadImage KERNBASE ip argv m
    match image with
    | none => return (false, curproc, m)
    | some image =>
      let oldpgdir := curproc.pgdir
      let curproc := { curproc with
        pgdir := some image.pgdir, sz := image.sz, eip := image.eip, esp := image.esp,
        name := Shared.programName path }
      curproc.switchuvm
      let m ← freevm oldpgdir m
      return (true, curproc, m)

/-- The pages of a directory can be freed. -/
structure SpaceFreeable (d : PageDir) (m : Kmem) : Prop where
  frames : ∀ v, v < KERNPAGE → (d.entry v).p = true → m.Freeable (d.entry v).addr
  tables : ∀ a ∈ d.tables, m.Freeable a
  page : m.Freeable d.page

/-- **A process that can call `exec`**: it has a kernel stack and memory that can be freed. -/
structure Ready (p : ExecProc) (m : Kmem) : Prop where
  link : m.LinkOk
  free : m.FreeOk
  kstack : p.kstack ≠ none
  space : ∃ d, p.pgdir = some d ∧ SpaceFreeable d m

section

variable {p : ExecProc} {d : PageDir} {m m' : Kmem}

theorem SpaceFreeable.of_kend (h : SpaceFreeable d m) (hk : m'.kend = m.kend) :
    SpaceFreeable d m' := by
  have hfree : ∀ {a}, m.Freeable a → m'.Freeable a := fun ⟨h₁, h₂, h₃⟩ => ⟨h₁, hk ▸ h₂, h₃⟩
  exact ⟨fun v hv hp => hfree (h.frames v hv hp), fun a ha => hfree (h.tables a ha), hfree h.page⟩

/-- An image built from free pages can be freed again. -/
theorem SpaceFreeable.of_draft {K : ℕ → Prop} {hi : ℕ} {l : List ℕ} (hm : m.FreeOk)
    (h : Draft K hi l d m m') : SpaceFreeable d m' := by
  have hfree : ∀ a ∈ (l : Multiset ℕ), m'.Freeable a := fun a ha =>
    (hm.of_mem h.mem.kend (h.mem_freelist (Multiset.mem_coe.mp ha))).2
  refine ⟨fun v hv hp => hfree _ (Multiset.mem_coe.mpr (h.frame_mem hv hp)), fun a ha => hfree _ ?_,
    hfree _ ?_⟩
  · rw [h.taken]
    simp [ha]
  · rw [h.taken]
    simp

/-- Freeing such a directory leaves a free list that is in order. -/
theorem SpaceFreeable.freevm (hm : m.FreeOk) (h : SpaceFreeable d m) :
    ∃ m', Xv6.freevm (some d) m = .ok m' ∧ m'.FreeOk ∧ m'.kend = m.kend ∧ m'.kdata = m.kdata := by
  have hkend := hm.kend
  obtain ⟨m', hok⟩ := @freevm_ok d m
    (fun v hv hp => ⟨by have := (h.frames v hv hp).2.1; omega, h.frames v hv hp⟩)
    (fun i t hi ht => h.tables _ (PageDir.mem_tables hi ht)) h.page
  obtain ⟨l, hl, hf⟩ := freevm_spec hok
  refine ⟨m', hok, ⟨by rw [hf.kend]; exact hkend, fun a ha => ?_⟩, hf.kend, hf.kdata⟩
  have hfree : m.Freeable a := by
    rw [hf.freelist, List.mem_append] at ha
    rcases ha with ha | ha
    · rw [← Multiset.mem_coe, hl, Multiset.mem_add, Multiset.mem_add, Multiset.mem_singleton] at ha
      rcases ha with (ha | ha) | rfl
      · obtain ⟨v, -, hv, hp, rfl⟩ := PageDir.mem_frames.mp ha
        exact h.frames v hv hp
      · exact h.tables a ha
      · exact h.page
    · exact hm.freeable a ha
  exact ⟨hfree.1, by rw [hf.kend]; exact hfree.2.1, hfree.2.2⟩

/-- Nothing that a process needs has changed when an image was given up. -/
theorem Ready.of_released (h : p.Ready m) (hr : Released m m') : p.Ready m' := by
  obtain ⟨hfree, hkend, hkdata, -⟩ := hr
  obtain ⟨d, hd, hs⟩ := h.space
  refine ⟨?_, ⟨by rw [hkend]; exact h.free.kend, fun a ha => ?_⟩, h.kstack, d, hd, hs.of_kend hkend⟩
  · obtain ⟨c, hc, hb⟩ := h.link
    exact ⟨c, hkdata.trans hc, hb⟩
  · rw [← Multiset.mem_coe, hfree, Multiset.mem_coe] at ha
    obtain ⟨h₁, h₂, h₃⟩ := h.free.freeable a ha
    exact ⟨h₁, by rw [hkend]; exact h₂, h₃⟩

/-- **`exec` returns** when no argument wraps around. When it fails, nothing has changed; when it
succeeds, the new memory is mapped. -/
theorem exec_total (h : p.Ready m) (namei : List UInt8 → Option File) (path : List UInt8)
    {argv : List (List UInt8)}
    (hfit : ∀ ip, namei path = some ip → FitsImage KERNBASE ip argv m) :
    ∃ ok p' m', exec namei p path argv m = .ok (ok, p', m') ∧ p'.Ready m' ∧
      (ok = false → p' = p ∧ (m'.freelist : Multiset ℕ) = m.freelist ∧
        ∀ a ∉ m.freelist, m'.mem a = m.mem a) ∧
      (ok = true → ∃ d, p'.pgdir = some d ∧ ∀ v, v < pages p'.sz → (d.entry v).p = true) := by
  obtain ⟨d, hd, hs⟩ := h.space
  unfold exec
  cases hip : namei path with
  | none => exact ⟨false, p, m, rfl, h, fun _ => ⟨rfl, rfl, fun _ _ => rfl⟩, nofun⟩
  | some ip =>
    obtain ⟨r, hload, hr⟩ :=
      (loadImage_spec (le_refl KERNBASE) h.link ip argv).exists ⟨h.free, hfit ip hip⟩
    cases hr with
    | @made image l m₁ hlt hdraft =>
      -- what is still free, and the old memory, are pages that `kfree` accepts
      obtain ⟨m₂, hfreevm, hfree₂, hkend, hkdata⟩ :=
        (hs.of_kend hdraft.mem.kend).freevm (h.free.allocated hdraft.mem)
      refine ⟨true, { p with
        pgdir := some image.pgdir, sz := image.sz, eip := image.eip, esp := image.esp,
        name := Shared.programName path }, m₂, ?_, ⟨?_, hfree₂, h.kstack, image.pgdir, rfl,
        (SpaceFreeable.of_draft h.free hdraft).of_kend hkend⟩, nofun,
        fun _ => ⟨image.pgdir, rfl, hdraft.present⟩⟩
      · simp only [hload, Except.ok_bind, switchuvm, h.kstack, ↓reduceIte, Option.isNone_some,
          Bool.false_eq_true, hd, hfreevm]
        rfl
      · obtain ⟨c, hc, hb⟩ := h.link
        exact ⟨c, hkdata.trans (hdraft.mem.kdata.trans hc), hb⟩
    | @failed m₁ hrel =>
      simp only [hload, Except.ok_bind]
      exact ⟨false, p, m₁, rfl, h.of_released hrel, fun _ => ⟨rfl, hrel.freelist, hrel.mem⟩, nofun⟩

/-- The pages of the process are not free. -/
def InUse (p : ExecProc) (m : Kmem) : Prop :=
  ∀ d, p.pgdir = some d → ∀ a ∈ d.frames 0 KERNPAGE + d.tables + {d.page}, a ∉ m.freelist

/-- A process of the kernel, about to start at address `0`. -/
def ofKernel (k : Shared.Kernel) (p : Slot) : ExecProc :=
  ⟨(k.vm p).pgdir, (k.vm p).sz, (k.vm p).kstack, 0, (k.vm p).sz, []⟩

/-- The processes of a kernel that keeps its invariant can call `exec`. -/
theorem ready_of_inv {k : Shared.Kernel} {p : Slot} (h : Shared.Inv k) (hp : k.Live p)
    (hkend : 0 < k.kmem.kend) (hfree : ∀ a ∈ k.census, k.kmem.Freeable a) :
    (ofKernel k p).Ready k.kmem ∧ (ofKernel k p).InUse k.kmem := by
  obtain ⟨d, kstack, hd, hks, hs⟩ := h.space p hp
  obtain ⟨hframes, htables, hpage⟩ := h.pgdir_mem_census hp hd
  refine ⟨⟨h.link, Shared.freeOk_of_census hkend hfree, ?_, d, hd,
    fun v hv hp => hfree _ (hframes v hv hp),
    fun a ha => hfree a (htables a ha), hfree _ hpage⟩, fun d' hd' a ha => ?_⟩
  · show (k.vm p).kstack ≠ none
    rw [hks]
    exact Option.some_ne_none _
  · obtain rfl : d = d' := Option.some.inj (hd.symm.trans hd')
    rw [Multiset.mem_add, Multiset.mem_add, Multiset.mem_singleton] at ha
    have hown : a ∈ d.tables ∨ a = d.page → a ∈ k.procPages p := by
      rw [Shared.procPages_of_live hp, Shared.ProcVm.owned, hd]
      simp only [Option.elim_some, Multiset.mem_add, Multiset.mem_singleton]
      tauto
    rcases ha with (ha | ha) | ha
    · obtain ⟨v, -, hv, hpr, rfl⟩ := PageDir.mem_frames.mp ha
      exact Shared.present_not_free h.toInvCore hp hd hv hpr
    · exact Shared.procPages_not_free h.toInvCore (hown (.inl ha))
    · exact Shared.procPages_not_free h.toInvCore (hown (.inr ha))

/-- The first process, as it is after boot. -/
theorem exists_ready : ∃ p m, Ready p m ∧ p.InUse m ∧ 520 ≤ m.freelist.length := by
  obtain ⟨k, np, -, -, hb, hkend⟩ := Shared.exists_booted
  have hlen := Shared.freelist_length_ge hb.inv hb.first.live (fun q => hb.first.only) hb.first.sz
  have hcard := hb.card
  obtain ⟨hready, huse⟩ := ready_of_inv hb.inv hb.first.live hkend hb.freeable
  exact ⟨_, _, hready, huse, by omega⟩

/-- With an image `exec` has succeeded. -/
theorem exec_of_loadImage {namei : List UInt8 → Option File} {path : List UInt8}
    {ip : File} {argv : List (List UInt8)} {image : Image} {m₁ : Kmem} (hip : namei path = some ip)
    (hload : loadImage KERNBASE ip argv m = .ok (some image, m₁)) {r : Bool × ExecProc × Kmem}
    (hexec : exec namei p path argv m = .ok r) : r.1 = true := by
  simp only [exec, hip, hload, Except.ok_bind] at hexec
  obtain ⟨_, -, hexec⟩ := Except.bind_eq_ok.mp hexec
  obtain ⟨_, -, hexec⟩ := Except.bind_eq_ok.mp hexec
  cases hexec
  rfl

/-- **`exec` is robust**: whatever the file holds, it does not panic. When it fails, the process is
as it was, the same pages are free and no other page has been written. When it succeeds, all of the
new memory is mapped. The process can call `exec` again. -/
theorem exec_robust (h : p.Ready m) (namei : List UInt8 → Option File) (path : List UInt8)
    {argv : List (List UInt8)} (hargv : (argv.map (·.length + 1)).sum ≤ PGSIZE) :
    ∃ ok p' m', exec namei p path argv m = .ok (ok, p', m') ∧ p'.Ready m' ∧
      (ok = false → p' = p ∧ (m'.freelist : Multiset ℕ) = m.freelist ∧
        ∀ a ∉ m.freelist, m'.mem a = m.mem a) ∧
      (ok = true → ∃ d, p'.pgdir = some d ∧ ∀ v, v < pages p'.sz → (d.entry v).p = true) :=
  exec_total h namei path fun ip _ => fitsImage_of_sum hargv KERNBASE ip m

/-- A program of one segment: two bytes of code, and a page and a half of memory. -/
def oneSegment : File :=
  [0x7F, 0x45, 0x4C, 0x46] ++ List.replicate 24 0 ++ [52, 0, 0, 0] ++ List.replicate 12 0 ++
    [1, 0, 0, 0, 0, 0, 0, 0] ++
  ([1, 0, 0, 0, 84, 0, 0, 0] ++ List.replicate 8 0 ++ [2, 0, 0, 0, 0, 24, 0, 0] ++
    List.replicate 8 0) ++ [0xEB, 0xFE]

theorem imageSize_oneSegment : imageSize KERNBASE oneSegment = some 6144 := by decide

/-- The first process runs this program with the arguments `"sh"` and `"-c"`. -/
theorem exec_robust_oneSegment : ∃ p m p' m', Ready p m ∧
    exec (fun _ => some oneSegment) p [] [[115, 104], [45, 99]] m = .ok (true, p', m') ∧
    ∃ d, p'.pgdir = some d ∧ ∀ v, v < pages p'.sz → (d.entry v).p = true := by
  obtain ⟨p, m, h, -, hlen⟩ := exists_ready
  have hi : HasImage KERNBASE oneSegment m 6144 := ⟨imageSize_oneSegment, by decide, by
    have hpages : pagesFor (pages 6144 + 2) = 70 := by decide
    omega⟩
  obtain ⟨image, m₁, hload⟩ := hi.load (le_refl _) h.link h.free
    (show [[115, 104], [45, 99]].length ≤ MAXARG by decide) (by decide)
  obtain ⟨ok, p', m', hexec, -, -, hok⟩ := @exec_robust p m h (fun _ => some oneSegment) []
    [[115, 104], [45, 99]] (by decide)
  obtain rfl : ok = true :=
    @exec_of_loadImage p m (fun _ => some oneSegment) [] _ _ _ _ rfl hload _ hexec
  exact ⟨p, m, p', m', h, hexec, hok rfl⟩

end

end ExecProc

end Xv6
