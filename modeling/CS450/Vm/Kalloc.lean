import CS450.Lib.Table

/-!
# Physical memory and its allocator

The page allocator of `kalloc.c`: a list of free pages, `kalloc` taking its head and `kfree`
pushing onto it. Pages are named by their physical address, so `P2V` and `V2P` are the identity
here; the link word that `kfree` stores in a free page is the list itself.

The state also records every call of `kalloc` and `kfree`, most recent first. The code has no such
record: it is what the statements about failing allocations and about pages freed once refer to.

## Main results

* `kalloc_spec`, `kfree_spec`: the two operations take and give back one page
* `Allocated.trans`, `Freed.trans`: successive calls compose
-/

namespace Xv6

/-- The ways a kernel path ends without returning: `panic`, a loop that does not end, or a read
through a null pointer. -/
inductive Fault
  | panic (msg : String)
  | diverges
  | null
  deriving DecidableEq, Repr

/-! ### Constants of `mmu.h`, `memlayout.h` and `param.h` -/

def PGSIZE : ℕ := 4096
def EXTMEM : ℕ := 0x100000
def PHYSTOP : ℕ := 0xE000000
def DEVSPACE : ℕ := 0xFE000000
def KERNBASE : ℕ := 0x80000000
def KERNLINK : ℕ := KERNBASE + EXTMEM

-- irreducible, so that sums over the directory are never evaluated by unfolding
@[irreducible] def NPDENTRIES : ℕ := 1024

/-- One past the largest `uint`. -/
def WORD : ℕ := 0x100000000

/-- `a + b` on `uint`. -/
def add32 (a b : ℕ) : ℕ := (a + b) % WORD

/-- `a - b` on `uint`. -/
def sub32 (a b : ℕ) : ℕ := (a + (WORD - b % WORD)) % WORD

/-- `a + n` for a `uint` and an `int`. -/
def addInt32 (a : ℕ) (n : ℤ) : ℕ := (((a : ℤ) + n) % (WORD : ℤ)).toNat

def PGROUNDUP (sz : ℕ) : ℕ := add32 sz (PGSIZE - 1) / PGSIZE * PGSIZE
def PGROUNDDOWN (a : ℕ) : ℕ := a / PGSIZE * PGSIZE

/-- The bytes of a page. -/
abbrev Page := ℕ → UInt8

/-- A call of `kalloc`, with its result, or of `kfree`. -/
inductive MemEvent
  | alloc (r : Option ℕ)
  | free (pa : ℕ)
  deriving DecidableEq, Repr

/-- `kmem` of `kalloc.c`, with the contents of the pages and the record of calls. The addresses
`end` and `data` come from the linker. -/
structure Kmem where
  kend : ℕ
  kdata : ℕ
  freelist : List ℕ
  mem : ℕ → Page
  trace : List MemEvent

/-- `memset` of a whole page. -/
def Kmem.memset (m : Kmem) (pa : ℕ) (c : UInt8) : Kmem :=
  { m with mem := Function.update m.mem pa fun _ => c }

/-- `memmove` of a whole page. -/
def Kmem.copyPage (m : Kmem) (dst src : ℕ) : Kmem :=
  { m with mem := Function.update m.mem dst (m.mem src) }

/-- `kalloc`: the head of the free list, or `0`. -/
def kalloc (m : Kmem) : Option ℕ × Kmem :=
  match m.freelist with
  | [] => (none, { m with trace := .alloc none :: m.trace })
  | r :: next => (some r, { m with freelist := next, trace := .alloc (some r) :: m.trace })

/-- `kfree`: junk is written over the page, and the page becomes the head of the free list. -/
def kfree (pa : ℕ) (m : Kmem) : Except Fault Kmem :=
  if pa % PGSIZE ≠ 0 ∨ pa < m.kend ∨ PHYSTOP ≤ pa then .error (.panic "kfree")
  else .ok { m.memset pa 1 with freelist := pa :: m.freelist, trace := .free pa :: m.trace }

@[simp] theorem memset_freelist (m : Kmem) (pa : ℕ) (c : UInt8) :
    (m.memset pa c).freelist = m.freelist := rfl

variable {a pa : ℕ} {l : List ℕ} {m m' : Kmem}

theorem memset_mem_of_ne (m : Kmem) (c : UInt8) (h : a ≠ pa) :
    (m.memset pa c).mem a = m.mem a := by
  simp [Kmem.memset, Function.update_of_ne h]

theorem copyPage_mem_of_ne (m : Kmem) {dst : ℕ} (src : ℕ) (h : a ≠ dst) :
    (m.copyPage dst src).mem a = m.mem a := by
  simp [Kmem.copyPage, Function.update_of_ne h]

/-- No call of `kalloc` so far has failed. -/
def Kmem.NoFail (m : Kmem) : Prop := MemEvent.alloc none ∉ m.trace

/-- The pages `l`, in order, were taken from the free list, and only their contents changed. -/
structure Allocated (l : List ℕ) (m m' : Kmem) : Prop where
  freelist : m.freelist = l ++ m'.freelist
  trace : m'.trace = (l.map fun a => .alloc (some a)).reverse ++ m.trace
  kend : m'.kend = m.kend
  kdata : m'.kdata = m.kdata
  mem : ∀ a ∉ l, m'.mem a = m.mem a

/-- The pages `l`, the last one first, were given back, and only their contents changed. -/
structure Freed (l : List ℕ) (m m' : Kmem) : Prop where
  freelist : m'.freelist = l ++ m.freelist
  trace : m'.trace = l.map .free ++ m.trace
  kend : m'.kend = m.kend
  kdata : m'.kdata = m.kdata
  mem : ∀ a ∉ l, m'.mem a = m.mem a

theorem Allocated.refl (m : Kmem) : Allocated [] m m :=
  ⟨rfl, rfl, rfl, rfl, fun _ _ => rfl⟩

theorem Freed.refl (m : Kmem) : Freed [] m m :=
  ⟨rfl, rfl, rfl, rfl, fun _ _ => rfl⟩

theorem Allocated.trans {l₁ l₂ : List ℕ} {m₁ m₂ m₃ : Kmem} (h : Allocated l₁ m₁ m₂)
    (h' : Allocated l₂ m₂ m₃) : Allocated (l₁ ++ l₂) m₁ m₃ where
  freelist := by rw [h.freelist, h'.freelist, List.append_assoc]
  trace := by rw [h'.trace, h.trace, List.map_append, List.reverse_append, List.append_assoc]
  kend := h'.kend.trans h.kend
  kdata := h'.kdata.trans h.kdata
  mem a ha := by
    rw [List.mem_append, not_or] at ha
    rw [h'.mem a ha.2, h.mem a ha.1]

theorem Freed.trans {l₁ l₂ : List ℕ} {m₁ m₂ m₃ : Kmem} (h : Freed l₁ m₁ m₂)
    (h' : Freed l₂ m₂ m₃) : Freed (l₂ ++ l₁) m₁ m₃ where
  freelist := by rw [h'.freelist, h.freelist, List.append_assoc]
  trace := by rw [h'.trace, h.trace, List.map_append, List.append_assoc]
  kend := h'.kend.trans h.kend
  kdata := h'.kdata.trans h.kdata
  mem a ha := by
    rw [List.mem_append, not_or] at ha
    rw [h'.mem a ha.1, h.mem a ha.2]

/-- A store into an allocated page changes only that page. -/
theorem Allocated.memset (h : Allocated l m m') (hpa : pa ∈ l)
    (c : UInt8) : Allocated l m (m'.memset pa c) where
  freelist := h.freelist
  trace := h.trace
  kend := h.kend
  kdata := h.kdata
  mem a ha := by
    have hne : a ≠ pa := (ne_of_mem_of_not_mem hpa ha).symm
    rw [memset_mem_of_ne m' c hne, h.mem a ha]

theorem Allocated.copyPage (h : Allocated l m m') {dst : ℕ}
    (hdst : dst ∈ l) (src : ℕ) : Allocated l m (m'.copyPage dst src) where
  freelist := h.freelist
  trace := h.trace
  kend := h.kend
  kdata := h.kdata
  mem a ha := by
    have hne : a ≠ dst := (ne_of_mem_of_not_mem hdst ha).symm
    rw [copyPage_mem_of_ne m' src hne, h.mem a ha]

theorem Allocated.trace_suffix (h : Allocated l m m') :
    m.trace <:+ m'.trace := ⟨_, h.trace.symm⟩

theorem Freed.trace_suffix (h : Freed l m m') :
    m.trace <:+ m'.trace := ⟨_, h.trace.symm⟩

theorem Kmem.NoFail.of_suffix (h : m'.NoFail) (hs : m.trace <:+ m'.trace) :
    m.NoFail := fun hm => h (hs.subset hm)

theorem Allocated.noFail (h : Allocated l m m') (hm : m.NoFail) :
    m'.NoFail := by
  unfold Kmem.NoFail at *
  rw [h.trace]
  simpa using hm

theorem Freed.noFail (h : Freed l m m') (hm : m.NoFail) :
    m'.NoFail := by
  unfold Kmem.NoFail at *
  rw [h.trace]
  simpa using hm

/-- How often `kfree` was called on a page. -/
def Kmem.frees (m : Kmem) (pa : ℕ) : ℕ := m.trace.count (.free pa)

theorem Allocated.frees_eq (h : Allocated l m m') (pa : ℕ) :
    m'.frees pa = m.frees pa := by
  unfold Kmem.frees
  rw [h.trace, List.count_append, List.count_eq_zero.mpr (by simp), zero_add]

theorem Freed.frees_eq (h : Freed l m m') (pa : ℕ) :
    m'.frees pa = l.count pa + m.frees pa := by
  have hinj : Function.Injective MemEvent.free := fun a b hab => MemEvent.free.inj hab
  unfold Kmem.frees
  rw [h.trace, List.count_append, List.count_map_of_injective l _ hinj]

/-- `kalloc` takes one page, or fails on an empty list and changes nothing but the record. -/
theorem kalloc_spec {r : Option ℕ} (h : kalloc m = (r, m')) :
    (∃ a, r = some a ∧ Allocated [a] m m') ∨
      (r = none ∧ m.freelist = [] ∧ m' = { m with trace := .alloc none :: m.trace }) := by
  unfold kalloc at h
  split at h
  · next hf =>
    obtain ⟨rfl, rfl⟩ := Prod.mk.inj h
    exact .inr ⟨rfl, hf, rfl⟩
  · next a l hf =>
    obtain ⟨rfl, rfl⟩ := Prod.mk.inj h
    exact .inl ⟨a, rfl, ⟨by simp [hf], rfl, rfl, rfl, fun _ _ => rfl⟩⟩

theorem kalloc_some (h : m.freelist = a :: l) :
    ∃ m', kalloc m = (some a, m') ∧ m'.freelist = l ∧ Allocated [a] m m' := by
  refine ⟨{ m with freelist := l, trace := .alloc (some a) :: m.trace }, ?_, rfl, ?_⟩
  · simp [kalloc, h]
  · exact ⟨by simp [h], rfl, rfl, rfl, fun _ _ => rfl⟩

/-- What `kfree` accepts: page-aligned, above the kernel, below the top of memory. -/
def Kmem.Freeable (m : Kmem) (pa : ℕ) : Prop := pa % PGSIZE = 0 ∧ m.kend ≤ pa ∧ pa < PHYSTOP

theorem kfree_spec (h : kfree pa m = .ok m') :
    Freed [pa] m m' ∧ m.Freeable pa := by
  unfold kfree at h
  split at h
  · cases h
  · next hc =>
    cases h
    push Not at hc
    refine ⟨⟨rfl, rfl, rfl, rfl, fun a ha => ?_⟩, hc.1, hc.2.1, hc.2.2⟩
    exact memset_mem_of_ne m 1 (by simpa using ha)

theorem kfree_ok (h : m.Freeable pa) : ∃ m', kfree pa m = .ok m' := by
  obtain ⟨h₁, h₂, h₃⟩ := h
  unfold kfree
  rw [if_neg (by omega)]
  exact ⟨_, rfl⟩

end Xv6
