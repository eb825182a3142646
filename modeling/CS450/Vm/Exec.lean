import CS450.Vm.Draft

/-!
# Program images

The part of `exec` that builds the new image: the ELF header and the program headers are read from
the file, the segments are loaded, two pages are added of which the lower one is a guard, and the
arguments are copied onto the upper one. The old image is not touched; `exec` replaces it only when
everything has succeeded.

A file is the list of its bytes, and an argument string the list of its bytes without the final
`NUL`. As in `allocuvm`, the bound on the size is an argument.
-/

namespace Xv6

/-- The bytes of a regular file. -/
abbrev File := List UInt8

/-- `readi` of a regular file: at most `n` bytes from `off` on; `none` is `-1`. -/
def readi (ip : File) (off n : ℕ) : Option (List UInt8) :=
  if ip.length < off ∨ add32 off n < off then none else some ((ip.drop off).take n)

/-- The little-endian number in the `width` bytes from `off` on. -/
def field (bytes : List UInt8) (off width : ℕ) : ℕ :=
  Nat.ofDigits 256 (((bytes.drop off).take width).map UInt8.toNat)

/-- The fields of `struct elfhdr` that `exec` reads. -/
structure Elfhdr where
  magic : ℕ
  entry : ℕ
  phoff : ℕ
  phnum : ℕ

/-- The fields of `struct proghdr` that `exec` reads. -/
structure Proghdr where
  type : ℕ
  off : ℕ
  vaddr : ℕ
  filesz : ℕ
  memsz : ℕ

def ELF_MAGIC : ℕ := 0x464C457F
def ELF_PROG_LOAD : ℕ := 1
def MAXARG : ℕ := 32

/-- `sizeof(struct elfhdr)`. -/
def sizeofElfhdr : ℕ := 52

/-- `sizeof(struct proghdr)`. -/
def sizeofProghdr : ℕ := 32

def Elfhdr.ofBytes (bytes : List UInt8) : Elfhdr :=
  ⟨field bytes 0 4, field bytes 24 4, field bytes 28 4, field bytes 44 2⟩

def Proghdr.ofBytes (bytes : List UInt8) : Proghdr :=
  ⟨field bytes 0 4, field bytes 4 4, field bytes 8 4, field bytes 16 4, field bytes 20 4⟩

/-- `memmove` of the bytes to the offset `off` of the page `pa`. -/
def Kmem.write (m : Kmem) (pa off : ℕ) (bytes : List UInt8) : Kmem :=
  { m with
    mem := Function.update m.mem pa fun i =>
      if off ≤ i then (bytes[i - off]?).getD (m.mem pa i) else m.mem pa i }

/-- The loop of `loaduvm` from the offset `i`; the first argument bounds its iterations. The result
is `true` for `0` and `false` for `-1`. -/
def loaduvmLoop (pgdir : PageDir) (addr : ℕ) (ip : File) (offset sz : ℕ) :
    ℕ → ℕ → Kmem → Except Fault (Bool × Kmem)
  | 0, i, m => if i < sz then .error .diverges else .ok (true, m)
  | fuel + 1, i, m =>
    if i < sz then
      match walkpgdir pgdir (add32 addr i) false m with
      | (none, _, _) => .error (.panic "loaduvm: address should exist")
      | (some pte, _, m) =>
        let n := if sz - i < PGSIZE then sz - i else PGSIZE
        match readi ip (add32 offset i) n with
        | none => .ok (false, m)
        | some bytes =>
          let m := m.write (pgdir.deref pte).addr 0 bytes
          if bytes.length = n then loaduvmLoop pgdir addr ip offset sz fuel (add32 i PGSIZE) m
          else .ok (false, m)
    else .ok (true, m)

/-- `loaduvm`: a segment of the file is read into mapped memory. -/
def loaduvm (pgdir : PageDir) (addr : ℕ) (ip : File) (offset sz : ℕ) (m : Kmem) :
    Except Fault (Bool × Kmem) :=
  if addr % PGSIZE ≠ 0 then .error (.panic "loaduvm: addr must be page aligned")
  else loaduvmLoop pgdir addr ip offset sz (sz / PGSIZE + 1) 0 m

/-- `clearpteu`: the page is no longer for the user. -/
def clearpteu (pgdir : PageDir) (uva : ℕ) (m : Kmem) : Except Fault PageDir :=
  match walkpgdir pgdir uva false m with
  | (none, _, _) => .error (.panic "clearpteu")
  | (some pte, _, _) => .ok (pgdir.store pte { pgdir.deref pte with u := false })

/-- `uva2ka`: the page behind a user address. A missing page table is not checked for. -/
def uva2ka (pgdir : PageDir) (uva : ℕ) (m : Kmem) : Except Fault (Option ℕ) :=
  match walkpgdir pgdir uva false m with
  | (none, _, _) => .error .null
  | (some pte, _, _) =>
    if !(pgdir.deref pte).p then .ok none
    else if !(pgdir.deref pte).u then .ok none
    else .ok (some (pgdir.deref pte).addr)

/-- The loop of `copyout`; the first argument bounds its iterations. -/
def copyoutLoop (pgdir : PageDir) : ℕ → ℕ → List UInt8 → Kmem → Except Fault (Bool × Kmem)
  | 0, _, buf, m => if buf.isEmpty then .ok (true, m) else .error .diverges
  | fuel + 1, va, buf, m =>
    if buf.isEmpty then .ok (true, m)
    else do
      let va0 := PGROUNDDOWN va
      match ← uva2ka pgdir va0 m with
      | none => return (false, m)
      | some pa0 =>
        let n := min (PGSIZE - (va - va0)) buf.length
        copyoutLoop pgdir fuel (add32 va0 PGSIZE) (buf.drop n) (m.write pa0 (va - va0) (buf.take n))

/-- `copyout`: the bytes are copied to the user address `va` of `pgdir`. -/
def copyout (pgdir : PageDir) (va : ℕ) (buf : List UInt8) (m : Kmem) : Except Fault (Bool × Kmem) :=
  copyoutLoop pgdir (buf.length / PGSIZE + 2) va buf m

/-- The loop of `exec` over the `n` program headers from the offset `off` on, with the size so far.
The result is the size, or `none` for `goto bad`. -/
def loadSegments (limit : ℕ) (ip : File) :
    ℕ → ℕ → ℕ → PageDir → Kmem → Except Fault (Option ℕ × PageDir × Kmem)
  | 0, _, sz, pgdir, m => .ok (some sz, pgdir, m)
  | n + 1, off, sz, pgdir, m =>
    match readi ip off sizeofProghdr with
    | none => .ok (none, pgdir, m)
    | some bytes =>
      let ph := Proghdr.ofBytes bytes
      if bytes.length ≠ sizeofProghdr then .ok (none, pgdir, m)
      else if ph.type ≠ ELF_PROG_LOAD then
        loadSegments limit ip n (add32 off sizeofProghdr) sz pgdir m
      else if ph.memsz < ph.filesz then .ok (none, pgdir, m)
      else if add32 ph.vaddr ph.memsz < ph.vaddr then .ok (none, pgdir, m)
      else do
        let (sz, pgdir, m) ← allocuvm limit pgdir sz (add32 ph.vaddr ph.memsz) m
        if sz = 0 then return (none, pgdir, m)
        else if ph.vaddr % PGSIZE ≠ 0 then return (none, pgdir, m)
        else
          let (ok, m) ← loaduvm pgdir ph.vaddr ip ph.off ph.filesz m
          if ok then loadSegments limit ip n (add32 off sizeofProghdr) sz pgdir m
          else return (none, pgdir, m)

/-- The loop of `exec` over the arguments, with the stack pointer and the pointers pushed so far;
`none` for `goto bad`. -/
def pushArgs (pgdir : PageDir) :
    List (List UInt8) → ℕ → List ℕ → Kmem → Except Fault (Option (ℕ × List ℕ) × Kmem)
  | [], sp, ptrs, m => .ok (some (sp, ptrs), m)
  | arg :: argv, sp, ptrs, m =>
    if MAXARG ≤ ptrs.length then .ok (none, m)
    else do
      let sp := sub32 sp (arg.length + 1) / 4 * 4
      let (ok, m) ← copyout pgdir sp (arg ++ [0]) m
      if ok then pushArgs pgdir argv sp (ptrs ++ [sp]) m else return (none, m)

/-- A `uint` in memory. -/
def wordBytes (w : ℕ) : List UInt8 :=
  [w, w / 0x100, w / 0x10000, w / 0x1000000].map UInt8.ofNat

/-- `ustack`: a fake return address, `argc`, `argv` and the array of pointers. -/
def ustack (sp : ℕ) (ptrs : List ℕ) : List ℕ :=
  [0xffffffff, ptrs.length, sub32 sp ((ptrs.length + 1) * 4)] ++ ptrs ++ [0]

/-- The stack of the new image above `sz`, with its arguments: the size and the stack pointer. -/
def buildStack (limit : ℕ) (argv : List (List UInt8)) (sz : ℕ) (pgdir : PageDir) (m : Kmem) :
    Except Fault (Option (ℕ × ℕ) × PageDir × Kmem) := do
  let sz := PGROUNDUP sz
  let (sz, pgdir, m) ← allocuvm limit pgdir sz (add32 sz (2 * PGSIZE)) m
  if sz = 0 then return (none, pgdir, m)
  else
    let pgdir ← clearpteu pgdir (sub32 sz (2 * PGSIZE)) m
    let (pushed, m) ← pushArgs pgdir argv sz [] m
    match pushed with
    | none => return (none, pgdir, m)
    | some (sp, ptrs) =>
      let buf := (ustack sp ptrs).flatMap wordBytes
      let sp := sub32 sp ((3 + ptrs.length + 1) * 4)
      let (ok, m) ← copyout pgdir sp buf m
      return (if ok then some (sz, sp) else none, pgdir, m)

/-- The segments of the file, then the stack. -/
def buildImage (limit : ℕ) (ip : File) (elf : Elfhdr) (argv : List (List UInt8)) (pgdir : PageDir)
    (m : Kmem) : Except Fault (Option (ℕ × ℕ) × PageDir × Kmem) := do
  let (sz, pgdir, m) ← loadSegments limit ip elf.phnum elf.phoff 0 pgdir m
  match sz with
  | none => return (none, pgdir, m)
  | some sz => buildStack limit argv sz pgdir m

/-- A new image: its page directory, its size, and where it starts. -/
structure Image where
  pgdir : PageDir
  sz : ℕ
  eip : ℕ
  esp : ℕ

/-- `exec` from the inode up to the commit to the new image; `none` when it goes to `bad`, where
the page directory is freed. -/
def loadImage (limit : ℕ) (ip : File) (argv : List (List UInt8)) (m : Kmem) :
    Except Fault (Option Image × Kmem) :=
  match readi ip 0 sizeofElfhdr with
  | none => .ok (none, m)
  | some bytes =>
    let elf := Elfhdr.ofBytes bytes
    if bytes.length ≠ sizeofElfhdr ∨ elf.magic ≠ ELF_MAGIC then .ok (none, m)
    else do
      let (pgdir, m) ← setupkvm m
      match pgdir with
      | none => return (none, m)
      | some pgdir =>
        let (image, pgdir, m) ← buildImage limit ip elf argv pgdir m
        match image with
        | none =>
          let m ← freevm (some pgdir) m
          return (none, m)
        | some (sz, sp) => return (some ⟨pgdir, sz, elf.entry, sp⟩, m)

/-! ### Writing into pages -/

section Specs

open Except (Meets)

variable {pa limit hi : ℕ} {K : ℕ → Prop} {l : List ℕ} {ip : File} {d d' : PageDir}
  {m₀ m m₁ m₂ : Kmem}

theorem write_mem_of_ne (m : Kmem) {a : ℕ} (off : ℕ) (bytes : List UInt8) (h : a ≠ pa) :
    (m.write pa off bytes).mem a = m.mem a := by
  simp [Kmem.write, Function.update_of_ne h]

theorem Allocated.write {l : List ℕ} {m m' : Kmem} (h : Allocated l m m') (hpa : pa ∈ l)
    (off : ℕ) (bytes : List UInt8) : Allocated l m (m'.write pa off bytes) where
  freelist := h.freelist
  trace := h.trace
  kend := h.kend
  kdata := h.kdata
  mem a ha := by
    rw [write_mem_of_ne _ _ _ (by rintro rfl; exact ha hpa)]
    exact h.mem a ha

theorem Draft.write (h : Draft K hi l d m₀ m) {v : ℕ} (hv : v < KERNPAGE)
    (hp : (d.entry v).p = true) (off : ℕ) (bytes : List UInt8) :
    Draft K hi l d m₀ (m.write (d.entry v).addr off bytes) :=
  h.of_mem (h.mem.write (h.frame_mem hv hp) off bytes)

/-! ### Segments -/

/-- The file has the `n` bytes from `off` on. -/
def File.Covers (ip : File) (off n : ℕ) : Prop := n = 0 ∨ off + n ≤ ip.length ∧ off + n < WORD

instance (ip : File) (off n : ℕ) : Decidable (ip.Covers off n) :=
  inferInstanceAs (Decidable (_ ∨ _))

section Covers

variable {off n k : ℕ}

theorem File.Covers.mono (h : ip.Covers off n) (hle : k ≤ n) : ip.Covers off k := by
  unfold File.Covers at *
  omega

/-- The first `k` bytes are there, so the rest matters. -/
theorem File.Covers.rest (h : ip.Covers off k) (hk : k = n ∨ k = PGSIZE ∧ PGSIZE ≤ n) :
    ip.Covers (off + PGSIZE) (n - PGSIZE) ↔ ip.Covers off n := by
  unfold File.Covers at *
  simp only [PGSIZE] at *
  omega

end Covers

/-- A read of all `n` bytes. -/
theorem readi_full {off n : ℕ} (hoff : off < WORD) (hpos : 0 < n) (hn : n ≤ PGSIZE) :
    (∃ bytes, readi ip off n = some bytes ∧ bytes.length = n) ↔ ip.Covers off n := by
  have hwrap : add32 off n < off ↔ WORD ≤ off + n := by
    simp only [add32, WORD, PGSIZE] at *
    omega
  unfold readi File.Covers
  simp only [hwrap]
  constructor
  · rintro ⟨bytes, hread, hlen⟩
    split at hread
    · cases hread
    · cases hread
      rw [List.length_take, List.length_drop] at hlen
      omega
  · intro h
    rw [if_neg (by omega)]
    refine ⟨_, rfl, ?_⟩
    rw [List.length_take, List.length_drop]
    omega

/-- **The loop of `loaduvm`** from the offset `i`, by induction on the bound of its iterations: it
writes pages of the image only, and succeeds when the file has the bytes. -/
theorem loaduvmLoop_spec {C : Prop} {addr offset sz : ℕ} (hhi : hi ≤ KERNPAGE)
    (hsz : addr + sz ≤ hi * PGSIZE) :
    ∀ (fuel i : ℕ) {m : Kmem}, sz ≤ i + fuel * PGSIZE → (i < sz → offset + i < WORD) →
      Draft K hi l d m₀ m →
      Meets C (fun r => Draft K hi l d m₀ r.2 ∧ (r.1 = true ↔ ip.Covers (offset + i) (sz - i)))
        (loaduvmLoop d addr ip offset sz fuel i m) := by
  have hlim : hi * PGSIZE ≤ KERNBASE := by
    rw [KERNBASE_eq]
    exact Nat.mul_le_mul_right _ hhi
  -- at the end there is nothing left to read
  have hend : ∀ {i m}, sz ≤ i → Draft K hi l d m₀ m → Meets C (fun r => Draft K hi l d m₀ r.2 ∧
      (r.1 = true ↔ ip.Covers (offset + i) (sz - i)))
        (.ok (true, m) : Except Fault _) := fun hi h =>
    .ok ⟨h, iff_of_true rfl (.inl (by omega))⟩
  intro fuel
  induction fuel with
  | zero =>
    intro i m hfuel _ h
    rw [loaduvmLoop, if_neg (by omega)]
    exact hend (by omega) h
  | succ fuel ih =>
    intro i m hfuel hoff h
    rw [loaduvmLoop]
    by_cases hi' : i < sz
    swap
    · rw [if_neg hi']
      exact hend (by omega) h
    have hoff := hoff hi'
    have haddr : add32 addr i = addr + i := by
      apply Nat.mod_eq_of_lt
      simp only [KERNBASE, WORD] at *
      omega
    have hpage : (addr + i) / PGSIZE < hi := by
      refine Nat.div_lt_of_lt_mul ?_
      rw [Nat.mul_comm]
      omega
    have hp := h.present _ hpage
    obtain ⟨t, ht⟩ := PageDir.exists_table_of_present hp
    rw [if_pos hi', haddr, walkpgdir_find_addr d (by simp only [WORD, KERNBASE] at *; omega), ht,
      show add32 offset i = offset + i from Nat.mod_eq_of_lt hoff]
    simp only [Option.map_some]
    obtain ⟨n, hn, hnle, hmin⟩ : ∃ n, (if sz - i < PGSIZE then sz - i else PGSIZE) = n ∧
        n ≤ PGSIZE ∧ (n = sz - i ∨ n = PGSIZE ∧ PGSIZE ≤ sz - i) := by
      refine ⟨_, rfl, ?_⟩
      split <;> omega
    rw [hn]
    have hpos : 0 < n := by
      simp only [PGSIZE] at hmin
      omega
    have hfull := @readi_full ip _ _ hoff hpos hnle
    have hall : ip.Covers (offset + i) (sz - i) → ip.Covers (offset + i) n := fun h =>
      h.mono (by clear hfull; omega)
    cases hread : readi ip (offset + i) n with
    | none =>
      refine .ok ⟨h, iff_of_false Bool.false_ne_true fun hcov => ?_⟩
      obtain ⟨bytes, hno, -⟩ := hfull.mpr (hall hcov)
      rw [hread] at hno
      cases hno
    | some bytes =>
      have hw := h.write (by omega) hp 0 bytes
      simp only
      split
      · next hlen =>
        have hcov := hfull.mp ⟨bytes, hread, hlen⟩
        have hadd : add32 i PGSIZE = i + PGSIZE := by
          apply Nat.mod_eq_of_lt
          simp only [KERNBASE, WORD, PGSIZE] at *
          omega
        clear hfull hall
        have hrest := hcov.rest hmin
        unfold File.Covers at hcov
        rw [Nat.succ_mul] at hfuel
        rw [hadd]
        refine (ih (i + PGSIZE) (by omega) (by omega) hw).mono id fun r hr => ⟨hr.1, ?_⟩
        rw [hr.2, ← hrest, Nat.sub_sub, Nat.add_assoc]
      · next hlen =>
        refine .ok ⟨hw, iff_of_false Bool.false_ne_true fun hcov => ?_⟩
        obtain ⟨bytes', hread', hlen'⟩ := hfull.mpr (hall hcov)
        rw [hread] at hread'
        cases hread'
        exact hlen hlen'

theorem loaduvm_spec {C : Prop} {addr offset sz : ℕ} (hhi : hi ≤ KERNPAGE)
    (hsz : addr + sz ≤ hi * PGSIZE) (haddr : addr % PGSIZE = 0) (hoff : offset < WORD)
    (h : Draft K hi l d m₀ m) :
    Meets C (fun r => Draft K hi l d m₀ r.2 ∧ (r.1 = true ↔ ip.Covers offset sz))
      (loaduvm d addr ip offset sz m) := by
  unfold loaduvm
  rw [if_neg (by omega)]
  refine loaduvmLoop_spec hhi hsz _ 0 ?_ (fun _ => hoff) h
  simp only [PGSIZE]
  omega

/-- The program header describes a segment that can be loaded on top of an image of size `sz`. -/
def Proghdr.Loadable (limit : ℕ) (ip : File) (sz : ℕ) (ph : Proghdr) : Prop :=
  ph.filesz ≤ ph.memsz ∧ ph.vaddr + ph.memsz < limit ∧ max sz (ph.vaddr + ph.memsz) ≠ 0 ∧
    ph.vaddr % PGSIZE = 0 ∧ ip.Covers ph.off ph.filesz

instance (sz : ℕ) (ph : Proghdr) : Decidable (ph.Loadable limit ip sz) :=
  inferInstanceAs (Decidable (_ ∧ _))

/-- The size of the image that the `n` program headers from the offset `off` on describe; `none`
when one of them cannot be loaded. -/
def imageSegments (limit : ℕ) (ip : File) : ℕ → ℕ → ℕ → Option ℕ
  | 0, _, sz => some sz
  | n + 1, off, sz =>
    match readi ip off sizeofProghdr with
    | none => none
    | some bytes =>
      let ph := Proghdr.ofBytes bytes
      if bytes.length ≠ sizeofProghdr then none
      else if ph.type ≠ ELF_PROG_LOAD then imageSegments limit ip n (add32 off sizeofProghdr) sz
      else if ph.Loadable limit ip sz then
        imageSegments limit ip n (add32 off sizeofProghdr) (max sz (ph.vaddr + ph.memsz))
      else none

theorem field_lt (bytes : List UInt8) (off width : ℕ) : field bytes off width < 256 ^ width := by
  have hdigits : ∀ x ∈ ((bytes.drop off).take width).map UInt8.toNat, x < 256 := by
    intro x hx
    obtain ⟨b, -, rfl⟩ := List.mem_map.mp hx
    exact b.toNat_lt
  refine (Nat.ofDigits_lt_base_pow_length (by decide) hdigits).trans_le ?_
  refine Nat.pow_le_pow_right (by decide) ?_
  simp

/-- The image only grows. -/
theorem le_of_imageSegments :
    ∀ (n off : ℕ) {sz size : ℕ}, imageSegments limit ip n off sz = some size → sz ≤ size := by
  intro n
  induction n with
  | zero =>
    intro off sz size h
    exact (Option.some.inj h).le
  | succ n ih =>
    intro off sz size h
    rw [imageSegments] at h
    split at h
    · cases h
    · simp only at h
      split at h
      · cases h
      · split at h
        · exact ih _ h
        · split at h
          · exact (le_max_left _ _).trans (ih _ h)
          · cases h

/-- What loading segments leads to when the file asks for an image of the size `size`: that image,
or a directory to be freed. Without a mistake in the file it fails only for want of pages. -/
inductive LoadResult (limit : ℕ) (size : Option ℕ) (m : Kmem) : Option ℕ × PageDir × Kmem → Prop
  | loaded {sz l d m'} (hsize : size = some sz) (hsz : sz = 0 ∨ sz < limit)
      (h : Draft KernelTable (pages sz) l d m m') : LoadResult limit size m (some sz, d, m')
  | bad {hi d m'} (hhi : hi ≤ KERNPAGE) (h : Accounted hi d m m')
      (hshort : ∀ sz, size = some sz → m.freelist.length < pagesFor (pages sz)) :
      LoadResult limit size m (none, d, m')

/-- **The loop over the program headers**, by induction on their number. -/
theorem loadSegments_spec (hlim : limit ≤ KERNBASE) :
    ∀ (n off : ℕ) {sz : ℕ} {l : List ℕ} {d : PageDir} {m : Kmem},
      Draft KernelTable (pages sz) l d m₀ m → sz = 0 ∨ sz < limit →
      Meets m₀.FreeOk (LoadResult limit (imageSegments limit ip n off sz) m₀)
        (loadSegments limit ip n off sz d m) := by
  intro n
  induction n with
  | zero => exact fun off sz l d m h hsz => .ok (.loaded rfl hsz h)
  | succ n ih =>
    intro off sz l d m h hsz
    have hhi : pages sz ≤ KERNPAGE := pages_le (by omega)
    -- a header that cannot be loaded
    have hbad : ∀ {size : Option ℕ} {hi : ℕ} {d : PageDir} {m : Kmem}, hi ≤ KERNPAGE →
        Accounted hi d m₀ m → size = none → Meets m₀.FreeOk (LoadResult limit size m₀)
          (.ok (none, d, m) : Except Fault _) := by
      rintro size hi d m hhi hacc rfl
      exact .ok (.bad hhi hacc fun _ hno => by cases hno)
    rw [loadSegments, imageSegments]
    split
    · exact hbad hhi h.accounted rfl
    · next bytes _ =>
      simp only
      split
      · exact hbad hhi h.accounted rfl
      split
      · -- not a segment to load
        exact ih _ h hsz
      have hfields : (Proghdr.ofBytes bytes).vaddr < WORD ∧ (Proghdr.ofBytes bytes).memsz < WORD ∧
          (Proghdr.ofBytes bytes).off < WORD :=
        ⟨field_lt bytes 8 4, field_lt bytes 20 4, field_lt bytes 4 4⟩
      generalize Proghdr.ofBytes bytes = ph at hfields
      obtain ⟨hvaddr, hmemsz, hoff⟩ := hfields
      generalize hsize : (if ph.Loadable limit ip sz then _ else none) = size
      have hnone : ¬ ph.Loadable limit ip sz → size = none := fun hno => by
        rw [← hsize, if_neg hno]
      split
      · next hlt => exact hbad hhi h.accounted (hnone fun hl => Nat.not_le.mpr hlt hl.1)
      split
      · next hwrap =>
        refine hbad hhi h.accounted (hnone fun hl => ?_)
        have := hl.2.1
        simp only [add32, WORD, KERNBASE] at *
        omega
      next hle hwrap =>
      -- the segment does not wrap around
      have hadd : add32 ph.vaddr ph.memsz = ph.vaddr + ph.memsz := by
        simp only [add32, WORD] at *
        omega
      rw [hadd]
      refine (h.allocuvm hlim).bind ?_
      rintro ⟨sz', d', m'⟩ (⟨rfl, hacc, hshort⟩ | ⟨hnew, rfl, ⟨l', h'⟩, -⟩)
      · refine .ok (.bad hhi hacc fun s hs => ?_)
        rw [← hsize] at hs
        split at hs
        · next hl =>
          refine (hshort hl.2.1 hl.2.2.1).trans_le (pagesFor_mono (Nat.div_le_div_right ?_))
          have := le_of_imageSegments n _ hs
          omega
        · cases hs
      have hhi' : pages (max sz (ph.vaddr + ph.memsz)) ≤ KERNPAGE := pages_le (by omega)
      simp only
      split
      · next hz => exact hbad hhi' h'.accounted (hnone fun hl => hl.2.2.1 hz)
      split
      · next hal => exact hbad hhi' h'.accounted (hnone fun hl => hal hl.2.2.2.1)
      next hz hal =>
      refine (loaduvm_spec hhi' ?_ (by omega) hoff h').bind ?_
      · simp only [pages, PGSIZE]
        omega
      rintro ⟨ok, m''⟩ ⟨h'', hok⟩
      cases ok with
      | true =>
        rw [← hsize, if_pos ⟨by omega, hnew, hz, by omega, hok.mp rfl⟩]
        exact ih _ h'' (by omega)
      | false =>
        refine hbad hhi' h''.accounted (hnone fun hl => ?_)
        exact Bool.false_ne_true (hok.mpr hl.2.2.2.2)

/-! ### Copies into an image -/

/-- The page that `uva2ka` finds is one of the image. -/
theorem uva2ka_spec {uva : ℕ} (h : Draft K hi l d m₀ m) (huva : uva < WORD)
    (hok : uva2ka d uva m = .ok (some pa)) :
    uva / PGSIZE < KERNPAGE ∧ (d.entry (uva / PGSIZE)).p = true ∧
      pa = (d.entry (uva / PGSIZE)).addr := by
  unfold uva2ka at hok
  rw [walkpgdir_find_addr d huva] at hok
  cases ht : d.pde (uva / PGSIZE / 1024) with
  | none =>
    rw [ht] at hok
    cases hok
  | some t =>
    simp only [ht, Option.map_some] at hok
    change (if !(d.entry (uva / PGSIZE)).p then _ else if !(d.entry (uva / PGSIZE)).u then _ else
      Except.ok (some (d.entry (uva / PGSIZE)).addr)) = _ at hok
    split at hok
    · cases hok
    · next hp =>
      split at hok
      · cases hok
      · next hu =>
        refine ⟨?_, by simpa using hp, by cases hok; rfl⟩
        -- the entries of the kernel are not for the user
        by_contra hge
        exact hu (by simp [h.kernel _ (by omega : KERNPAGE ≤ uva / PGSIZE)])

theorem PGROUNDDOWN_le (a : ℕ) : PGROUNDDOWN a ≤ a := Nat.div_mul_le_self a PGSIZE

theorem add32_lt (a b : ℕ) : add32 a b < WORD := Nat.mod_lt _ (by decide)

theorem sub32_lt (a b : ℕ) : sub32 a b < WORD := Nat.mod_lt _ (by decide)

/-- **A copy to the user writes pages of the image only**, wherever it goes. -/
theorem copyoutLoop_spec :
    ∀ (fuel va : ℕ) (buf : List UInt8) {m₁ m₂ : Kmem} {ok : Bool}, va < WORD →
      Draft K hi l d m₀ m₁ → copyoutLoop d fuel va buf m₁ = .ok (ok, m₂) →
        Draft K hi l d m₀ m₂ := by
  intro fuel
  induction fuel with
  | zero =>
    intro va buf m₁ m₂ ok _ h hok
    rw [copyoutLoop] at hok
    split at hok
    · cases hok
      exact h
    · cases hok
  | succ fuel ih =>
    intro va buf m₁ m₂ ok hva h hok
    rw [copyoutLoop] at hok
    split at hok
    · cases hok
      exact h
    · obtain ⟨o, hu, hok⟩ := Except.bind_eq_ok.mp hok
      cases o with
      | none =>
        cases hok
        exact h
      | some pa =>
        have hva0 := PGROUNDDOWN_le va
        obtain ⟨hk, hp, rfl⟩ := uva2ka_spec h (by omega) hu
        exact ih _ _ (add32_lt _ _) (h.write hk hp _ _) hok

theorem copyout_spec {va : ℕ} {buf : List UInt8} {ok : Bool} (hva : va < WORD)
    (h : Draft K hi l d m₀ m₁) (hok : copyout d va buf m₁ = .ok (ok, m₂)) : Draft K hi l d m₀ m₂ :=
  copyoutLoop_spec _ _ _ hva h hok

/-- Bytes that fit into one page are written there at once. -/
theorem copyout_page {va : ℕ} {buf : List UInt8} (hne : buf ≠ [])
    (hfit : va % PGSIZE + buf.length ≤ PGSIZE) (hu : uva2ka d (PGROUNDDOWN va) m = .ok (some pa)) :
    copyout d va buf m = .ok (true, m.write pa (va % PGSIZE) buf) := by
  have hoff : va - PGROUNDDOWN va = va % PGSIZE := by
    unfold PGROUNDDOWN
    have := Nat.div_add_mod' va PGSIZE
    omega
  have hmin : min (PGSIZE - va % PGSIZE) buf.length = buf.length := by omega
  unfold copyout
  rw [copyoutLoop, if_neg (by simpa using hne)]
  simp only [hu, Except.ok_bind, hoff, hmin, List.drop_length, List.take_length]
  rw [copyoutLoop, if_pos List.isEmpty_nil]

/-- `clearpteu` of a page of the draft. -/
theorem clearpteu_spec {v : ℕ} (hv : v < KERNPAGE) (hp : (d.entry v).p = true)
    (h : Draft K hi l d m₀ m) :
    ∃ d', clearpteu d (v * PGSIZE) m = .ok d' ∧ Draft K hi l d' m₀ m ∧
      d'.entry = Function.update d.entry v { d.entry v with u := false } := by
  have hdiv : v * PGSIZE / PGSIZE = v := Nat.mul_div_cancel v (by decide)
  obtain ⟨t, ht⟩ := PageDir.exists_table_of_present hp
  unfold clearpteu
  rw [walkpgdir_find_addr d (by simp only [WORD, KERNPAGE, PGSIZE] at *; omega), hdiv, ht]
  refine ⟨_, rfl, ?_, PageDir.entry_store ht _⟩
  generalize hd : d.store _ _ = d'
  have hent : d'.entry = Function.update d.entry v { d.entry v with u := false } := by
    rw [← hd]
    exact PageDir.entry_store ht _
  have hsame : PageDir.SameTables d d' := by
    rw [← hd]
    exact PageDir.sameTables_store _ _ _
  have hkeep : ∀ w, (d'.entry w).p = (d.entry w).p ∧ (d'.entry w).addr = (d.entry w).addr := by
    intro w
    rw [hent]
    rcases eq_or_ne w v with rfl | hne
    · rw [Function.update_self]
      exact ⟨rfl, rfl⟩
    · rw [Function.update_of_ne hne]
      exact ⟨rfl, rfl⟩
  refine ⟨fun w hw => ?_, fun w hlo hhi => ?_, fun w hw => ?_, fun i => ?_, ?_, h.mem⟩
  · rw [(hkeep w).1]
    exact h.present w hw
  · rw [(hkeep w).1]
    exact h.absent w hlo hhi
  · rw [hent, Function.update_of_ne (by omega)]
    exact h.kernel w hw
  · rw [hsame.has_iff, h.has]
  · have hframes : d'.frames 0 hi = d.frames 0 hi := by
      refine Finset.sum_congr rfl fun w _ => ?_
      unfold PTE.frame
      rw [(hkeep w).1, (hkeep w).2]
    rw [hframes, hsame.tables_eq, hsame.1]
    exact h.taken

theorem pushArgs_spec :
    ∀ (argv : List (List UInt8)) (sp : ℕ) (ptrs : List ℕ) {m₁ m₂ : Kmem}
      {r : Option (ℕ × List ℕ)}, Draft K hi l d m₀ m₁ →
      pushArgs d argv sp ptrs m₁ = .ok (r, m₂) → Draft K hi l d m₀ m₂ := by
  intro argv
  induction argv with
  | nil =>
    intro sp ptrs m₁ m₂ r h hok
    cases hok
    exact h
  | cons arg argv ih =>
    intro sp ptrs m₁ m₂ r h hok
    rw [pushArgs] at hok
    split at hok
    · cases hok
      exact h
    · obtain ⟨⟨ok, m₃⟩, hc, hok⟩ := Except.bind_eq_ok.mp hok
      have hsp : sub32 sp (arg.length + 1) / 4 * 4 < WORD :=
        (Nat.div_mul_le_self _ _).trans_lt (sub32_lt _ _)
      have h₃ := copyout_spec hsp h hc
      simp only at hok
      split at hok
      · exact ih _ _ h₃ hok
      · cases hok
        exact h₃

theorem pages_PGROUNDUP {sz : ℕ} (h : sz ≤ KERNBASE) : pages (PGROUNDUP sz) = pages sz := by
  rw [PGROUNDUP_eq h]
  simp only [pages, PGSIZE]
  omega

end Specs

end Xv6
