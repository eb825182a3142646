import CS450.Shared.Resize
import CS450.Vm.Robust

/-!
# The arguments of `exec`

Two results about the strings that a process passes to `exec`. When they fit into the stack page of
the new image, the new program finds them there. When they do not, `exec` has to notice. The guard
page stops every string that does not begin in the stack page, however long it is, as long as it is
not longer than the whole image. A longer one makes `sp` wrap around to an address of the kernel.
Between the top of physical memory and the devices the kernel maps nothing, so there are no page
tables: `walkpgdir` returns a null pointer there, and `uva2ka` follows it.

## Main results

* `ExecProc.exec_delivers`: arguments that fit are delivered
* `ExecProc.args_confined_iff`: the copies are confined exactly when no string is longer than
  the image
* `ExecProc.exec_null`: a string that ends up in the hole makes `exec` follow a null pointer
-/

namespace Xv6

/-! ### Copies onto the stack -/

/-- A call of `copyout` for the stack: `sp` before, the bytes that are pushed, and the address. -/
structure StackCopy where
  sp : ℕ
  len : ℕ
  va : ℕ

/-- The calls of `copyout` that `exec` makes for the arguments from `sp` on, when `n` of them have
been pushed. The last one is for the vector. -/
def stackCopies (d : PageDir) : List (List UInt8) → ℕ → ℕ → Kmem → List StackCopy
  | [], sp, n, _ => [⟨sp, (3 + n + 1) * 4, sub32 sp ((3 + n + 1) * 4)⟩]
  | arg :: argv, sp, n, m =>
    if MAXARG ≤ n then []
    else
      let va := sub32 sp (arg.length + 1) / 4 * 4
      ⟨sp, arg.length + 1, va⟩ ::
        match copyout d va (arg ++ [0]) m with
        | .ok (true, m) => stackCopies d argv va (n + 1) m
        | _ => []

section Copies

variable {g : ℕ} {d : PageDir}

theorem stackCopies_cons {arg : List UInt8} {argv : List (List UInt8)} {sp n : ℕ} {m m' : Kmem}
    {ok : Bool} (hn : n < MAXARG) (hc : copyout d (argSp sp arg) (arg ++ [0]) m = .ok (ok, m')) :
    stackCopies d (arg :: argv) sp n m = ⟨sp, arg.length + 1, argSp sp arg⟩ ::
      if ok then stackCopies d argv (argSp sp arg) (n + 1) m' else [] := by
  rw [stackCopies, if_neg (by omega)]
  simp only [← argSp.eq_1, hc]
  cases ok <;> rfl

/-- **Without a wrap around**, by induction on the arguments: no copy is longer than what is
below `sp`, and no copy ends above the stack page. -/
theorem stackCopies_of_noWrap (hg : g + 2 ≤ KERNPAGE) (hs : StackOk g d) :
    ∀ (argv : List (List UInt8)) (sp n : ℕ) (m : Kmem), n + argv.length ≤ MAXARG →
      (g + 1) * PGSIZE ≤ sp → sp ≤ (g + 2) * PGSIZE → NoWrap ((g + 1) * PGSIZE) argv sp →
      ∀ c ∈ stackCopies d argv sp n m, c.len ≤ c.sp ∧ c.va + c.len ≤ (g + 2) * PGSIZE := by
  intro argv
  induction argv with
  | nil =>
    intro sp n m hn hbase htop _ c hc
    obtain rfl := List.mem_singleton.mp hc
    obtain ⟨hle, hsub⟩ := vector_sp hg hbase htop (n := n) (by simpa using hn)
    refine ⟨hle, ?_⟩
    show sub32 sp ((3 + n + 1) * 4) + (3 + n + 1) * 4 ≤ _
    omega
  | cons arg argv ih =>
    intro sp n m hn hbase htop hwrap c hc
    rw [List.length_cons] at hn
    obtain ⟨hend, m', hcopy⟩ := copyout_arg hg hs hbase htop hwrap.1 m
    rw [stackCopies_cons (by omega) hcopy, List.mem_cons] at hc
    rcases hc with rfl | hc
    · exact ⟨hwrap.1, hend.trans htop⟩
    · split at hc
      · next hin =>
        have hin' : (g + 1) * PGSIZE ≤ argSp sp arg := of_decide_eq_true hin
        exact ih _ _ m' (by omega) hin' (by omega) (hwrap.2 hin') c hc
      · cases hc

/-- **After a success**, by induction on the arguments: the pointers are the addresses of the copies
but the last one, which is for the vector, and the strings begin in the stack page. -/
theorem stackCopies_of_pushArgs (hg : g + 2 ≤ KERNPAGE) (hs : StackOk g d) :
    ∀ (argv : List (List UInt8)) (sp : ℕ) (ptrs : List ℕ) (m : Kmem) {sp' : ℕ} {ptrs' : List ℕ}
      {m' : Kmem}, (g + 1) * PGSIZE ≤ sp → sp ≤ (g + 2) * PGSIZE →
      NoWrap ((g + 1) * PGSIZE) argv sp →
      pushArgs d argv sp ptrs m = .ok (some (sp', ptrs'), m') →
      ∃ cs, stackCopies d argv sp ptrs.length m =
          cs ++ [⟨sp', (3 + ptrs'.length + 1) * 4, sub32 sp' ((3 + ptrs'.length + 1) * 4)⟩] ∧
        ptrs' = ptrs ++ cs.map StackCopy.va ∧ ∀ c ∈ cs, (g + 1) * PGSIZE ≤ c.va := by
  intro argv
  induction argv with
  | nil =>
    intro sp ptrs m sp' ptrs' m' _ _ _ hpush
    cases hpush
    exact ⟨[], rfl, (List.append_nil _).symm, by simp⟩
  | cons arg argv ih =>
    intro sp ptrs m sp' ptrs' m' hbase htop hwrap hpush
    by_cases hmax : MAXARG ≤ ptrs.length
    · rw [pushArgs, if_pos hmax] at hpush
      cases hpush
    · obtain ⟨hend, m₁, hc⟩ := copyout_arg hg hs hbase htop hwrap.1 m
      rw [pushArgs_cons (by omega), hc] at hpush
      simp only [Except.ok_bind, decide_eq_true_eq] at hpush
      split at hpush
      · next hin =>
        obtain ⟨cs, hcs, rfl, hall⟩ := ih _ _ m₁ hin (by omega) (hwrap.2 hin) hpush
        rw [List.length_append, List.length_singleton] at hcs
        refine ⟨⟨sp, arg.length + 1, argSp sp arg⟩ :: cs, ?_, ?_, fun c hc' => ?_⟩
        · rw [stackCopies_cons (by omega) hc, decide_eq_true hin, if_pos rfl, hcs]
          rfl
        · rw [List.append_assoc]
          rfl
        · rcases List.mem_cons.mp hc' with rfl | hc'
          · exact hin
          · exact hall c hc'
      · cases hpush

/-- **Conversely**, when no copy is longer than what is below `sp`, no string wraps around. -/
theorem noWrap_of_stackCopies (hg : g + 2 ≤ KERNPAGE) (hs : StackOk g d) :
    ∀ (argv : List (List UInt8)) (sp n : ℕ) (m : Kmem), n + argv.length ≤ MAXARG →
      (g + 1) * PGSIZE ≤ sp → sp ≤ (g + 2) * PGSIZE →
      (∀ c ∈ stackCopies d argv sp n m, c.len ≤ c.sp) → NoWrap ((g + 1) * PGSIZE) argv sp := by
  intro argv
  induction argv with
  | nil => exact fun _ _ _ _ _ _ _ => trivial
  | cons arg argv ih =>
    intro sp n m hn hbase htop hcs
    rw [List.length_cons] at hn
    have hle : arg.length + 1 ≤ sp := by
      refine hcs ⟨sp, arg.length + 1, argSp sp arg⟩ ?_
      rw [stackCopies, if_neg (by omega)]
      exact List.mem_cons_self
    refine ⟨hle, fun hin => ?_⟩
    obtain ⟨hend, m', hcopy⟩ := copyout_arg hg hs hbase htop hle m
    refine ih _ (n + 1) m' (by omega) hin (by omega) fun c hc => hcs c ?_
    rw [stackCopies_cons (by omega) hcopy, decide_eq_true hin, if_pos rfl]
    exact List.mem_cons_of_mem _ hc

end Copies

/-! ### The lengths of the strings -/

/-- **No string is longer than the image.** A string that is pushed when those before it fit into
the stack page ends above the address `0`. -/
def ShortStrings (top : ℕ) (argv : List (List UInt8)) : Prop :=
  ∀ k arg, argv[k]? = some arg → stringsSize (argv.take k) ≤ PGSIZE →
    stringsSize (argv.take k) + arg.length < top

/-- `sp` wraps around at a string that is longer than what the strings before it have left. -/
theorem noWrap_iff {base : ℕ} :
    ∀ (argv : List (List UInt8)) (sp : ℕ), sp % 4 = 0 → sp < WORD →
      (NoWrap base argv sp ↔ ∀ k arg, argv[k]? = some arg →
        (k = 0 ∨ base + stringsSize (argv.take k) ≤ sp) →
        stringsSize (argv.take k) + arg.length < sp) := by
  intro argv
  induction argv with
  | nil => simp [NoWrap]
  | cons arg argv ih =>
    intro sp hmod hlt
    have hsize : arg.length + 1 ≤ sp → argSize arg ≤ sp := by
      unfold argSize
      omega
    have hnext : argSize arg ≤ sp → (NoWrap base argv (argSp sp arg) ↔ ∀ k a, argv[k]? = some a →
        (k = 0 ∨ base + stringsSize (argv.take k) ≤ sp - argSize arg) →
        stringsSize (argv.take k) + a.length < sp - argSize arg) := by
      intro hle
      rw [argSp_eq hmod hle hlt]
      exact ih _ (by unfold argSize at *; omega) (by omega)
    constructor
    · rintro ⟨hle, hrest⟩ k a hk hbase
      cases k with
      | zero =>
        obtain rfl : arg = a := by simpa using hk
        simpa using hle
      | succ k =>
        rw [List.take_succ_cons, stringsSize_cons] at hbase ⊢
        have hle' := hsize hle
        have hin : base ≤ argSp sp arg := by
          rw [argSp_eq hmod hle' hlt]
          omega
        have := (hnext hle').mp (hrest hin) k a (by simpa using hk) (by omega)
        omega
    · intro h
      have hle : arg.length + 1 ≤ sp := by simpa using h 0 arg rfl (.inl rfl)
      refine ⟨hle, fun hin => (hnext (hsize hle)).mpr fun k a hk hbase => ?_⟩
      rw [argSp_eq hmod (hsize hle) hlt] at hin
      have := h (k + 1) a (by simpa using hk) (.inr (by
        rw [List.take_succ_cons, stringsSize_cons]
        rcases hbase with rfl | hbase
        · simpa using by omega
        · omega))
      rw [List.take_succ_cons, stringsSize_cons] at this
      omega

theorem noWrap_iff_shortStrings {g : ℕ} (hg : g + 2 ≤ KERNPAGE) (argv : List (List UInt8)) :
    NoWrap ((g + 1) * PGSIZE) argv ((g + 2) * PGSIZE) ↔ ShortStrings ((g + 2) * PGSIZE) argv := by
  have htop : (g + 2) * PGSIZE = (g + 1) * PGSIZE + PGSIZE := Nat.succ_mul (g + 1) PGSIZE
  rw [noWrap_iff argv _ (by simp only [PGSIZE]; omega) (stack_lt_word hg)]
  refine forall₃_congr fun k arg _ => ?_
  have hiff : (k = 0 ∨ (g + 1) * PGSIZE + stringsSize (argv.take k) ≤ (g + 2) * PGSIZE) ↔
      stringsSize (argv.take k) ≤ PGSIZE := by
    constructor
    · rintro (rfl | h)
      · exact Nat.zero_le _
      · omega
    · exact fun h => .inr (by omega)
  rw [hiff]

/-! ### Addresses without page tables -/

/-- The entries of a page directory for the addresses from `KERNBASE + PHYSTOP` to `DEVSPACE`. -/
def InHole (i : ℕ) : Prop := 568 ≤ i ∧ i < 1016

section Hole

variable {hi : ℕ} {l : List ℕ} {d : PageDir} {m₀ m₁ m : Kmem}

/-- **`uva2ka` in the hole** follows a null pointer. -/
theorem uva2ka_hole {uva : ℕ} (h : Draft KernelTable hi l d m₀ m₁) (hhi : hi ≤ KERNPAGE)
    (huva : uva < WORD) (hole : InHole (uva / PGSIZE / 1024)) : uva2ka d uva m = .error .null := by
  have hno : d.pde (uva / PGSIZE / 1024) = none := by
    rw [← Option.not_isSome_iff_eq_none]
    intro hsome
    have := (h.has _).mp hsome
    simp only [KernelTable, InHole, KERNPAGE] at *
    omega
  unfold uva2ka
  rw [walkpgdir_find_addr d huva, hno]
  rfl

theorem copyout_hole {va : ℕ} {buf : List UInt8} (h : Draft KernelTable hi l d m₀ m₁)
    (hhi : hi ≤ KERNPAGE) (hne : buf ≠ []) (hva : va < WORD)
    (hole : InHole (va / PGSIZE / 1024)) : copyout d va buf m = .error .null := by
  have hround : PGROUNDDOWN va / PGSIZE = va / PGSIZE := Nat.mul_div_cancel _ (by decide)
  unfold copyout
  rw [copyoutLoop, if_neg (by simpa using hne)]
  simp only [uva2ka_hole h hhi ((PGROUNDDOWN_le va).trans_lt hva) (by rw [hround]; exact hole)]
  rfl

/-- A first string that ends up in the hole makes `loadImage` follow a null pointer. -/
theorem HasImage.load_null {limit sz : ℕ} {ip : File} (hi : HasImage limit ip m sz)
    (hlim : limit ≤ KERNBASE) (hlink : m.LinkOk) (hm : m.FreeOk) {arg : List UInt8}
    (hole : InHole (argSp (stackTop sz) arg / PGSIZE / 1024)) (argv : List (List UInt8)) :
    loadImage limit ip (arg :: argv) m = .error .null := by
  obtain ⟨eip, l, d, m', hstart, -, h⟩ := hi.start hlim hlink hm
  have hlt : argSp (stackTop sz) arg < WORD := (Nat.div_mul_le_self _ _).trans_lt (sub32_lt _ _)
  have hcopy : copyout d (argSp (stackTop sz) arg) (arg ++ [0]) m' = .error .null :=
    copyout_hole h (stackTop_lt hlim hi.room) (by simp) hlt hole
  rw [loadImage_eq, hstart, Except.ok_bind, finishImage]
  simp only [pushStack, pushArgs_cons (show ([] : List ℕ).length < MAXARG by decide), hcopy]
  rfl

end Hole

/-! ### A memory full of one string -/

/-- Other contents of the memory. -/
def Kmem.setMem (m : Kmem) (mem : ℕ → Page) : Kmem := { m with mem := mem }

/-- The memory of a process that has filled its pages with one string. -/
def oneString (d : PageDir) (n : ℕ) (mem : ℕ → Page) : ℕ → Page := fun a i =>
  if a ∈ d.frames 0 n then if a = (d.entry (n - 1)).addr ∧ i = PGSIZE - 1 then 0 else 1 else mem a i

theorem byte_oneString {m : Kmem} {d : PageDir} {n : ℕ} (hn : 0 < n)
    (hpr : ∀ v, v < n → (d.entry v).p = true)
    (hinj : ∀ v w, v < n → w < n → (d.entry v).addr = (d.entry w).addr → v = w) {i : ℕ}
    (hi : i < n * PGSIZE) :
    (m.setMem (oneString d n m.mem)).byte d i = if i + 1 = n * PGSIZE then 0 else 1 := by
  have hv : i / PGSIZE < n := Nat.div_lt_of_lt_mul (by rw [Nat.mul_comm]; exact hi)
  have hmem : (d.entry (i / PGSIZE)).addr ∈ d.frames 0 n :=
    PageDir.mem_frames.mpr ⟨_, Nat.zero_le _, hv, hpr _ hv, rfl⟩
  have hiff : ((d.entry (i / PGSIZE)).addr = (d.entry (n - 1)).addr ∧ i % PGSIZE = PGSIZE - 1) ↔
      i + 1 = n * PGSIZE := by
    constructor
    · rintro ⟨he, hoff⟩
      have hlast := hinj _ _ hv (by omega) he
      simp only [PGSIZE] at *
      omega
    · intro he
      have hlast : i / PGSIZE = n - 1 := by
        simp only [PGSIZE] at *
        omega
      refine ⟨by rw [hlast], ?_⟩
      simp only [PGSIZE] at *
      omega
  unfold Kmem.byte Kmem.setMem oneString
  simp only [if_pos hmem, hiff]

namespace ExecProc

variable {p p' : ExecProc} {m m' : Kmem} {namei : List UInt8 → Option File} {path : List UInt8}
  {argv : List (List UInt8)}

/-- What a successful `exec` has done. -/
theorem exec_eq_true (h : exec namei p path argv m = .ok (true, p', m')) :
    ∃ ip image m₁, namei path = some ip ∧ loadImage KERNBASE ip argv m = .ok (some image, m₁) ∧
      freevm p.pgdir m₁ = .ok m' ∧ p'.pgdir = some image.pgdir ∧ p'.sz = image.sz ∧
      p'.esp = image.esp := by
  unfold exec at h
  cases hip : namei path with
  | none =>
    rw [hip] at h
    cases h
  | some ip =>
    simp only [hip] at h
    obtain ⟨⟨r, m₁⟩, hload, h⟩ := Except.bind_eq_ok.mp h
    cases r with
    | none => cases h
    | some image =>
      obtain ⟨_, -, h⟩ := Except.bind_eq_ok.mp h
      obtain ⟨m₂, hfree, h⟩ := Except.bind_eq_ok.mp h
      cases h
      exact ⟨ip, image, m₁, rfl, hload, hfree, rfl, rfl, rfl⟩

/-- A finished image has come to the stack. -/
theorem start_of_loadImage (h : p.Ready m) {ip : File} {image : Image} {m₁ : Kmem}
    (hload : loadImage KERNBASE ip argv m = .ok (some image, m₁)) :
    ∃ sz l m₂, HasImage KERNBASE ip m sz ∧
      startImage KERNBASE ip m = .ok (some ⟨image.eip, stackTop sz, image.pgdir⟩, m₂) ∧
      StackOk (pages sz) image.pgdir ∧
      Draft KernelTable (pages sz + 2) l image.pgdir m m₂ ∧
      pushStack argv (stackTop sz) image.pgdir m₂ = .ok (some image.esp, m₁) ∧
      image.sz = stackTop sz := by
  obtain ⟨r, hstart, hr⟩ := (startImage_spec (le_refl KERNBASE) h.link ip).exists h.free
  rw [loadImage_eq, hstart, Except.ok_bind] at hload
  cases hr with
  | failed => cases hload
  | started hi hs hdraft =>
    obtain ⟨⟨sp, m₃⟩, hpush, hload⟩ := Except.bind_eq_ok.mp hload
    cases sp with
    | none =>
      obtain ⟨_, -, hload⟩ := Except.bind_eq_ok.mp hload
      cases hload
    | some sp =>
      cases hload
      exact ⟨_, _, _, hi, hstart, hs, hdraft, hpush, rfl⟩

/-- **`exec` delivers its arguments.** For arguments that fit into the stack page, after a
successful `exec` the new image has them on its stack. The old image, which is freed last, had no
page that was free. -/
theorem exec_delivers (h : p.Ready m) (huse : p.InUse m) (hargc : argv.length < MAXARG)
    (hfit : argvSize argv ≤ PGSIZE) (hexec : exec namei p path argv m = .ok (true, p', m')) :
    ∃ d, p'.pgdir = some d ∧ Delivered argv p'.sz p'.esp d m' := by
  obtain ⟨ip, image, m₁, -, hload, hfree, hd, hsz, hesp⟩ := exec_eq_true hexec
  obtain ⟨sz, l, m₂, hi, -, hs, hdraft, hpush, htop⟩ := start_of_loadImage h hload
  have hg := stackTop_lt (le_refl KERNBASE) hi.room
  obtain ⟨m₃, hpush', hlaid⟩ := pushStack_lays hg hs hargc.le hfit m₂
  obtain ⟨hsp, rfl⟩ : image.esp = stackTop sz - argvSize argv ∧ m₁ = m₃ := by
    rw [stackTop, hpush'] at hpush
    simpa [eq_comm, stackTop] using hpush
  -- the stack page was free, so it is not one of the old image
  obtain ⟨dold, hold, -⟩ := h.space
  rw [hold] at hfree
  obtain ⟨l', hl, hfreed⟩ := freevm_spec hfree
  have hstack : (image.pgdir.entry (pages sz + 1)).addr ∈ m.freelist :=
    hdraft.mem_freelist (hdraft.frame_mem (by omega) (hs.present _ (by omega)))
  have hkeep := hfreed.mem (image.pgdir.entry (pages sz + 1)).addr fun hmem =>
    huse dold hold _ (by rw [← hl]; exact hmem) hstack
  refine ⟨image.pgdir, hd, ?_⟩
  rw [hsz, hesp, htop, hsp]
  exact (hlaid.of_mem hfit hkeep).delivered hg hs hargc.le hfit

theorem hasImage_emptyProgram (hlen : 520 ≤ m.freelist.length) :
    HasImage KERNBASE Shared.emptyProgram m 0 :=
  ⟨Shared.imageSize_emptyProgram _, by decide, le_trans (by decide) hlen⟩

/-- The first process runs the empty program with the arguments `"sh"` and `"-c"`. -/
theorem exec_delivers_two_arguments : ∃ p m p' m' d, Ready p m ∧
    exec (fun _ => some Shared.emptyProgram) p [] [[115, 104], [45, 99]] m = .ok (true, p', m') ∧
    p'.pgdir = some d ∧ Delivered [[115, 104], [45, 99]] p'.sz p'.esp d m' := by
  obtain ⟨p, m, h, huse, hlen⟩ := exists_ready
  obtain ⟨image, m₁, hload⟩ := (hasImage_emptyProgram hlen).load (le_refl _) h.link h.free
    (show [[115, 104], [45, 99]].length ≤ MAXARG by decide) (by decide)
  obtain ⟨ok, p', m', hexec, -⟩ := exec_total h (fun _ => some Shared.emptyProgram) [] fun ip _ =>
    fitsImage_of_sum (show ([[115, 104], [45, 99]].map (·.length + 1)).sum ≤ PGSIZE by decide)
      KERNBASE ip m
  obtain rfl : ok = true :=
    @exec_of_loadImage p m (fun _ => some Shared.emptyProgram) [] _ _ _ _ rfl hload _ hexec
  obtain ⟨d, hd, hdel⟩ := exec_delivers h huse (by decide) (by decide) hexec
  exact ⟨p, m, p', m', d, h, hexec, hd, hdel⟩

/-! ### Arguments that do not fit -/

/-- The calls of `copyout` that `exec` makes for the arguments; none when it fails before. -/
def execCopies (namei : List UInt8 → Option File) (path : List UInt8) (argv : List (List UInt8))
    (m : Kmem) : List StackCopy :=
  match namei path with
  | none => []
  | some ip =>
    match startImage KERNBASE ip m with
    | .ok (some s, m) => stackCopies s.pgdir argv s.top 0 m
    | _ => []

/-- **The arguments are confined to the stack page.** `exec` returns, so `uva2ka` has not been
called for an address without a page table. When it succeeds, the strings and the vector are in the
last page of the new image. And `sp` has never wrapped around. -/
structure ArgsConfined (namei : List UInt8 → Option File) (p : ExecProc) (path : List UInt8)
    (argv : List (List UInt8)) (m : Kmem) : Prop where
  returns : ∃ r, exec namei p path argv m = .ok r
  inside : ∀ p' m', exec namei p path argv m = .ok (true, p', m') →
    ∀ c ∈ execCopies namei path argv m, p'.sz - PGSIZE ≤ c.va ∧ c.va + c.len ≤ p'.sz
  noWrap : ∀ c ∈ execCopies namei path argv m, c.len ≤ c.sp

theorem execCopies_of_start {ip : File} {s : Start} {m₁ : Kmem} (hip : namei path = some ip)
    (hstart : startImage KERNBASE ip m = .ok (some s, m₁)) :
    execCopies namei path argv m = stackCopies s.pgdir argv s.top 0 m₁ := by
  simp only [execCopies, hip, hstart]

/-- A copy that `exec` makes comes from a stack that it has come to. -/
theorem exists_start_of_mem {c : StackCopy} (hc : c ∈ execCopies namei path argv m) :
    ∃ ip s m₁, namei path = some ip ∧ startImage KERNBASE ip m = .ok (some s, m₁) ∧
      c ∈ stackCopies s.pgdir argv s.top 0 m₁ := by
  unfold execCopies at hc
  split at hc
  · cases hc
  · next ip hip =>
    split at hc
    · next s m₁ hstart => exact ⟨ip, s, m₁, hip, hstart, hc⟩
    · cases hc

/-- The copies of a successful `exec` begin in the stack page: the strings, and the vector, since
its copy has succeeded. -/
theorem copies_above {g : ℕ} {d : PageDir} {m₁ : Kmem} {sp : ℕ} (hg : g + 2 ≤ KERNPAGE)
    (hs : StackOk g d) (hw : NoWrap ((g + 1) * PGSIZE) argv ((g + 2) * PGSIZE))
    (hpush : pushStack argv ((g + 2) * PGSIZE) d m = .ok (some sp, m₁)) :
    ∀ c ∈ stackCopies d argv ((g + 2) * PGSIZE) 0 m, (g + 1) * PGSIZE ≤ c.va := by
  have hmono : (g + 1) * PGSIZE ≤ (g + 2) * PGSIZE := Nat.mul_le_mul_right _ (by omega)
  intro c hc
  obtain ⟨⟨pushed, m₂⟩, hargs, hpush⟩ := Except.bind_eq_ok.mp hpush
  cases pushed with
  | none => cases hpush
  | some q =>
    obtain ⟨sp', ptrs⟩ := q
    obtain ⟨cs, hcs, -, hall⟩ := stackCopies_of_pushArgs hg hs argv _ [] m hmono
      (le_refl _) hw hargs
    rw [List.length_nil] at hcs
    rw [hcs, List.mem_append, List.mem_singleton] at hc
    rcases hc with hc | rfl
    · exact hall c hc
    · obtain ⟨r, m₃, hargs', hbound⟩ := pushArgs_total hg hs argv _ [] m (Nat.zero_le _) hmono
        (le_refl _) hw
      rw [hargs'] at hargs
      cases hargs
      obtain ⟨hptrs, hbase, hsp⟩ := hbound sp' ptrs rfl
      obtain ⟨m₄, hcopy⟩ := copyout_vector hg hs hbase hsp hptrs m₂
      simp only [hcopy, Except.ok_bind] at hpush
      show (g + 1) * PGSIZE ≤ sub32 sp' ((3 + ptrs.length + 1) * 4)
      by_contra hlt
      rw [decide_eq_false hlt] at hpush
      cases hpush

/-- **The arguments are confined exactly when no string is longer than the image.** It is enough to
look at the headers of the program, which give the size of the image, at the number of free pages,
and at the lengths of the strings. When the program has no image, or there are not enough pages for
it, `exec` fails before it pushes anything. -/
theorem args_confined_iff (h : p.Ready m) (hargc : argv.length < MAXARG) :
    ArgsConfined namei p path argv m ↔ ∀ ip sz, namei path = some ip →
      HasImage KERNBASE ip m sz → ShortStrings (stackTop sz) argv := by
  have hpage : ∀ g, (g + 1) * PGSIZE ≤ (g + 2) * PGSIZE :=
    fun g => Nat.mul_le_mul_right _ (by omega)
  constructor
  · intro hconf ip sz hip hi
    obtain ⟨eip, l, d, m₁, hstart, hs, -⟩ := hi.start (le_refl _) h.link h.free
    have hg := stackTop_lt (le_refl KERNBASE) hi.room
    refine (noWrap_iff_shortStrings hg argv).mp ?_
    refine noWrap_of_stackCopies hg hs argv _ 0 m₁ (by omega) (hpage _) (le_refl _) fun c hc => ?_
    exact hconf.noWrap c (by rw [execCopies_of_start hip hstart]; exact hc)
  · intro hshort
    have hwrap : ∀ ip, namei path = some ip → FitsImage KERNBASE ip argv m := fun ip hip sz hi =>
      (noWrap_iff_shortStrings (stackTop_lt (le_refl _) hi.room) argv).mpr (hshort ip sz hip hi)
    obtain ⟨ok, p', m', hexec, -⟩ := exec_total h namei path hwrap
    refine ⟨⟨_, hexec⟩, fun p₂ m₂ hexec₂ c hc => ?_, fun c hc => ?_⟩
    · obtain ⟨ip, image, m₃, hip, hload, -, -, hsz, -⟩ := exec_eq_true hexec₂
      obtain ⟨sz, l, m₄, hi, hstart, hs, -, hpush, htop⟩ := start_of_loadImage h hload
      have hg := stackTop_lt (le_refl KERNBASE) hi.room
      rw [execCopies_of_start hip hstart] at hc
      obtain ⟨-, hend⟩ := stackCopies_of_noWrap hg hs argv _ 0 m₄ (by omega) (hpage _) (le_refl _)
        (hwrap ip hip sz hi) c hc
      have hlow := copies_above hg hs (hwrap ip hip sz hi) hpush c hc
      have hsucc : stackTop sz = (pages sz + 1) * PGSIZE + PGSIZE := Nat.succ_mul _ _
      rw [hsz, htop]
      exact ⟨by omega, hend⟩
    · obtain ⟨ip, s, m₁, hip, hstart, hc⟩ := exists_start_of_mem hc
      cases (startImage_spec (le_refl KERNBASE) h.link ip).holds _ hstart with
      | started hi hs =>
        exact (stackCopies_of_noWrap (stackTop_lt (le_refl _) hi.room) hs argv _ 0 m₁ (by omega)
          (hpage _) (le_refl _) (hwrap ip hip _ hi) c hc).1

/-- The first process runs the empty program with the arguments `"sh"` and `"-c"`. -/
theorem args_confined_two_arguments : ∃ p m, Ready p m ∧
    ArgsConfined (fun _ => some Shared.emptyProgram) p [] [[115, 104], [45, 99]] m := by
  obtain ⟨p, m, h, -, -⟩ := exists_ready
  refine ⟨p, m, h, (args_confined_iff h (by decide)).mpr fun ip sz _ hi => ?_⟩
  refine (noWrap_iff_shortStrings (stackTop_lt (le_refl KERNBASE) hi.room) _).mp ?_
  exact fitsImage_of_sum (by decide) KERNBASE ip m sz hi

/-! ### A string longer than the image -/

/-- **A string that wraps around into the hole** makes `exec` follow a null pointer. -/
theorem exec_null {ip : File} {sz : ℕ} (hlink : m.LinkOk) (hm : m.FreeOk)
    (hip : namei path = some ip) (hi : HasImage KERNBASE ip m sz) {arg : List UInt8}
    (hole : InHole (argSp (stackTop sz) arg / PGSIZE / 1024)) :
    exec namei p path (arg :: argv) m = .error .null := by
  unfold exec
  simp only [hip, hi.load_null (le_refl KERNBASE) hlink hm hole argv]
  rfl

/-- The first process after boot grows to forty megabytes and fills its memory with one string.
`exec` of a program of two pages with this string as its argument follows a null pointer. -/
theorem exec_long_string : ∃ k₀ k np pgdir, Shared.Booted k₀ ∧
    Transition.Run Shared.SafeStep k₀ [(np, .sbrk 41943040)] k ∧ (k.vm np).pgdir = some pgdir ∧
    (k.vm np).sz = 41947136 ∧
    fetchstr ⟨pgdir, (k.vm np).sz, 0⟩ (k.kmem.setMem (oneString pgdir 10241 k.kmem.mem)) 0 =
      .ok (some 41947135) ∧
    exec (fun _ => some Shared.emptyProgram) (ofKernel k np) [] [List.replicate 41947135 1]
      (k.kmem.setMem (oneString pgdir 10241 k.kmem.mem)) = .error .null ∧
    ¬ ArgsConfined (fun _ => some Shared.emptyProgram) (ofKernel k np) []
      [List.replicate 41947135 1] (k.kmem.setMem (oneString pgdir 10241 k.kmem.mem)) := by
  obtain ⟨k₀, k, np, pgdir, hboot, hrun, hinv, hlive, hres, hsz, -, -, hlen⟩ :=
    Shared.exists_grown (n := 41943040) (by decide) (by decide)
  have hsize : (k.vm np).sz = 10241 * PGSIZE := hsz
  have hpages : pages (k.vm np).sz = 10241 := by rw [hsize, pages_mul]
  have hpr : ∀ v, v < 10241 → (pgdir.entry v).p = true := fun v hv =>
    (hres.present v (hres.page_lt (by omega))).mpr (by omega)
  have hbyte := fun i => byte_oneString (m := k.kmem) (i := i) (by decide) hpr fun v w hv hw =>
    hres.distinct v w (by omega) (by omega)
  have hfetch : fetchstr ⟨pgdir, (k.vm np).sz, 0⟩
      (k.kmem.setMem (oneString pgdir 10241 k.kmem.mem)) 0 = .ok (some 41947135) := by
    obtain ⟨r, hr, hspec⟩ := @fetchstr_spec ⟨pgdir, (k.vm np).sz, 0⟩
      (k.kmem.setMem (oneString pgdir 10241 k.kmem.mem)) ⟨hres.sz_le, by rw [hpages]; exact hpr⟩ 0
    rw [hr, (hspec 41947135).mpr]
    refine ⟨?_, ?_, fun j hj => ?_⟩
    · show 0 + 41947135 < (k.vm np).sz
      rw [hsize]
      decide
    · rw [Nat.zero_add, hbyte _ (by decide), if_pos (by decide)]
    · rw [Nat.zero_add, hbyte _ (hj.trans (by decide)), if_neg (by simp only [PGSIZE]; omega)]
      decide
  have hlink : (k.kmem.setMem (oneString pgdir 10241 k.kmem.mem)).LinkOk := hinv.link
  have hfree : (k.kmem.setMem (oneString pgdir 10241 k.kmem.mem)).FreeOk :=
    ⟨hres.free.kend, hres.free.freeable⟩
  have hhole : InHole (argSp (stackTop 0) (List.replicate 41947135 1) / PGSIZE / 1024) := by
    rw [argSp, List.length_replicate]
    unfold InHole
    decide
  have hexec : exec (fun _ => some Shared.emptyProgram) (ofKernel k np) []
      [List.replicate 41947135 1]
      (k.kmem.setMem (oneString pgdir 10241 k.kmem.mem)) = .error .null := by
    refine exec_null hlink hfree ?_ (hasImage_emptyProgram hlen) hhole
    rfl
  refine ⟨k₀, k, np, pgdir, hboot, hrun, hres.dir, hsz, hfetch, hexec, fun hconf => ?_⟩
  obtain ⟨r, hr⟩ := hconf.returns
  rw [hexec] at hr
  cases hr

end ExecProc

end Xv6
