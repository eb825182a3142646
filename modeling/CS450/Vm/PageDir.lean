import CS450.Lib.Outcome
import CS450.Vm.Kalloc

/-!
# Page tables

The two-level page tables of `vm.c`. A page directory and a page table are the physical page that
holds them together with their 1024 entries; a pointer to a PTE is the pair of its indices. The
functions are those of `vm.c`, in state-passing form: each takes and returns the page directory it
works on and the physical memory.

`allocuvm` of the shared-memory kernel compares with the process's `shaddr` where that of the
plain kernel compares with `KERNBASE`; here the bound is an argument.
-/

namespace Xv6

/-- A page-table entry: `PTE_ADDR` and the flags `PTE_P`, `PTE_W`, `PTE_U`. -/
structure PTE where
  addr : ℕ
  p : Bool
  w : Bool
  u : Bool
  deriving DecidableEq, Repr

/-- The zero word. -/
def PTE.zero : PTE := ⟨0, false, false, false⟩

/-- The permission bits `perm` of `mappages`. -/
structure Perm where
  w : Bool
  u : Bool
  deriving DecidableEq, Repr

/-- `pa | perm | PTE_P`. -/
def PTE.ofPerm (pa : ℕ) (perm : Perm) : PTE := ⟨pa, true, perm.w, perm.u⟩

/-- A page table: the page that holds it, and its entries. -/
structure PageTable where
  page : ℕ
  pte : ℕ → PTE

/-- A page directory: the page that holds it, and its present entries. -/
structure PageDir where
  page : ℕ
  pde : ℕ → Option PageTable

def PDX (va : ℕ) : ℕ := va / 0x400000 % 0x400
def PTX (va : ℕ) : ℕ := va / 0x1000 % 0x400

/-- `PGADDR(d, 0, 0)`. -/
def PGADDR (d : ℕ) : ℕ := d * 0x400000 % WORD

/-- `*pte`, for the pointer given by the two indices. -/
def PageDir.deref (pgdir : PageDir) (pte : ℕ × ℕ) : PTE :=
  match pgdir.pde pte.1 with
  | some pgtab => pgtab.pte pte.2
  | none => .zero

/-- `*pte = e`. -/
def PageDir.store (pgdir : PageDir) (pte : ℕ × ℕ) (e : PTE) : PageDir :=
  { pgdir with
    pde := Function.update pgdir.pde pte.1
      ((pgdir.pde pte.1).map fun t => { t with pte := Function.update t.pte pte.2 e }) }

/-- A zeroed page table installed at index `i`. -/
def PageDir.install (pgdir : PageDir) (i page : ℕ) : PageDir :=
  { pgdir with pde := Function.update pgdir.pde i (some ⟨page, fun _ => .zero⟩) }

/-- `walkpgdir`: the pointer to the entry of `va`; with `alloc`, a missing table is created. -/
def walkpgdir (pgdir : PageDir) (va : ℕ) (alloc : Bool) (m : Kmem) :
    Option (ℕ × ℕ) × PageDir × Kmem :=
  match pgdir.pde (PDX va) with
  | some _ => (some (PDX va, PTX va), pgdir, m)
  | none =>
    if alloc then
      match kalloc m with
      | (none, m) => (none, pgdir, m)
      | (some pgtab, m) =>
        (some (PDX va, PTX va), pgdir.install (PDX va) pgtab, m.memset pgtab 0)
    else (none, pgdir, m)

/-- The loop of `mappages`, with the number of pages still to map. The result is `true` for `0`
and `false` for `-1`. -/
def mappagesLoop (perm : Perm) :
    ℕ → ℕ → ℕ → PageDir → Kmem → Except Fault (Bool × PageDir × Kmem)
  | 0, _, _, pgdir, m => .ok (true, pgdir, m)
  | n + 1, a, pa, pgdir, m =>
    match walkpgdir pgdir a true m with
    | (none, pgdir, m) => .ok (false, pgdir, m)
    | (some pte, pgdir, m) =>
      if (pgdir.deref pte).p then .error (.panic "remap")
      else
        mappagesLoop perm n (add32 a PGSIZE) (add32 pa PGSIZE) (pgdir.store pte (.ofPerm pa perm)) m

/-- `mappages`: the pages of `[va, va + size)` are mapped to consecutive frames from `pa`. -/
def mappages (pgdir : PageDir) (va size pa : ℕ) (perm : Perm) (m : Kmem) :
    Except Fault (Bool × PageDir × Kmem) :=
  let a := PGROUNDDOWN va
  let last := PGROUNDDOWN (sub32 (add32 va size) 1)
  mappagesLoop perm (sub32 last a / PGSIZE + 1) a pa pgdir m

/-- The loop of `deallocuvm` from the address `a`; the first argument bounds its iterations. -/
def deallocuvmLoop (oldsz : ℕ) : ℕ → ℕ → PageDir → Kmem → Except Fault (PageDir × Kmem)
  | 0, a, pgdir, m => if a < oldsz then .error .diverges else .ok (pgdir, m)
  | n + 1, a, pgdir, m =>
    if a < oldsz then
      match walkpgdir pgdir a false m with
      | (none, pgdir, m) =>
        deallocuvmLoop oldsz n (add32 (sub32 (PGADDR (PDX a + 1)) PGSIZE) PGSIZE) pgdir m
      | (some pte, pgdir, m) =>
        if (pgdir.deref pte).p then
          if (pgdir.deref pte).addr = 0 then .error (.panic "kfree")
          else do
            let m ← kfree (pgdir.deref pte).addr m
            deallocuvmLoop oldsz n (add32 a PGSIZE) (pgdir.store pte .zero) m
        else deallocuvmLoop oldsz n (add32 a PGSIZE) pgdir m
    else .ok (pgdir, m)

/-- `deallocuvm`: frees the user pages between `newsz` and `oldsz`, and returns the new size. -/
def deallocuvm (pgdir : PageDir) (oldsz newsz : ℕ) (m : Kmem) :
    Except Fault (ℕ × PageDir × Kmem) :=
  if oldsz ≤ newsz then .ok (oldsz, pgdir, m)
  else do
    let (pgdir, m) ← deallocuvmLoop oldsz (oldsz / PGSIZE + 1) (PGROUNDUP newsz) pgdir m
    return (newsz, pgdir, m)

/-- The loop of `freevm` over the page tables. -/
def freeTables (pgdir : PageDir) : List ℕ → Kmem → Except Fault Kmem
  | [], m => .ok m
  | i :: is, m =>
    match pgdir.pde i with
    | some pgtab => do
      let m ← kfree pgtab.page m
      freeTables pgdir is m
    | none => freeTables pgdir is m

/-- `freevm`: frees the user pages, the page tables and the directory. -/
def freevm (pgdir : Option PageDir) (m : Kmem) : Except Fault Kmem :=
  match pgdir with
  | none => .error (.panic "freevm: no pgdir")
  | some pgdir => do
    let (_, pgdir, m) ← deallocuvm pgdir KERNBASE 0 m
    let m ← freeTables pgdir (List.range NPDENTRIES) m
    kfree pgdir.page m

/-- `struct kmap`. -/
structure Kmap where
  virt : ℕ
  physStart : ℕ
  physEnd : ℕ
  perm : Perm

/-- The kernel's mappings, present in every page table. -/
def kmap (kdata : ℕ) : List Kmap :=
  [⟨KERNBASE, 0, EXTMEM, ⟨true, false⟩⟩,
    ⟨KERNLINK, EXTMEM, kdata, ⟨false, false⟩⟩,
    ⟨KERNBASE + kdata, kdata, PHYSTOP, ⟨true, false⟩⟩,
    ⟨DEVSPACE, DEVSPACE, 0, ⟨true, false⟩⟩]

/-- The loop of `setupkvm` over `kmap`. -/
def setupkvmLoop : List Kmap → PageDir → Kmem → Except Fault (Option PageDir × Kmem)
  | [], pgdir, m => .ok (some pgdir, m)
  | k :: ks, pgdir, m => do
    let (ok, pgdir, m) ← mappages pgdir k.virt (sub32 k.physEnd k.physStart) k.physStart k.perm m
    if ok then setupkvmLoop ks pgdir m
    else
      let m ← freevm (some pgdir) m
      return (none, m)

/-- `setupkvm`: a page directory with the kernel's mappings. -/
def setupkvm (m : Kmem) : Except Fault (Option PageDir × Kmem) :=
  match kalloc m with
  | (none, m) => .ok (none, m)
  | (some page, m) =>
    if DEVSPACE < KERNBASE + PHYSTOP then .error (.panic "PHYSTOP too high")
    else setupkvmLoop (kmap m.kdata) ⟨page, fun _ => none⟩ (m.memset page 0)

/-- `inituvm`: one page at address `0` holding the `initcode`. Its two callees are assumed by the
source to succeed; a null page would be written through. -/
def inituvm (pgdir : PageDir) (init : Page) (m : Kmem) : Except Fault (PageDir × Kmem) :=
  match kalloc m with
  | (none, _) => .error (.panic "trap")
  | (some mem, m) => do
    let (_, pgdir, m) ← mappages pgdir 0 PGSIZE mem ⟨true, true⟩ (m.memset mem 0)
    return (pgdir, { m with mem := Function.update m.mem mem init })

/-- The loop of `allocuvm` from the address `a`; the first argument bounds its iterations. -/
def allocuvmLoop (oldsz newsz : ℕ) : ℕ → ℕ → PageDir → Kmem → Except Fault (ℕ × PageDir × Kmem)
  | 0, a, pgdir, m => if a < newsz then .error .diverges else .ok (newsz, pgdir, m)
  | n + 1, a, pgdir, m =>
    if a < newsz then
      match kalloc m with
      | (none, m) => do
        let (_, pgdir, m) ← deallocuvm pgdir newsz oldsz m
        return (0, pgdir, m)
      | (some mem, m) => do
        let (ok, pgdir, m) ← mappages pgdir a PGSIZE mem ⟨true, true⟩ (m.memset mem 0)
        if ok then allocuvmLoop oldsz newsz n (add32 a PGSIZE) pgdir m
        else
          let (_, pgdir, m) ← deallocuvm pgdir newsz oldsz m
          let m ← kfree mem m
          return (0, pgdir, m)
    else .ok (newsz, pgdir, m)

/-- `allocuvm`: grows the user memory from `oldsz` to `newsz`; the new size, or `0` on error. -/
def allocuvm (limit : ℕ) (pgdir : PageDir) (oldsz newsz : ℕ) (m : Kmem) :
    Except Fault (ℕ × PageDir × Kmem) :=
  if limit ≤ newsz then .ok (0, pgdir, m)
  else if newsz < oldsz then .ok (oldsz, pgdir, m)
  else allocuvmLoop oldsz newsz (newsz / PGSIZE + 1) (PGROUNDUP oldsz) pgdir m

/-- The loop of `copyuvm` from the address `i`, building `d`; the first argument bounds its
iterations. -/
def copyuvmLoop (pgdir : PageDir) (sz : ℕ) :
    ℕ → ℕ → PageDir → Kmem → Except Fault (Option PageDir × Kmem)
  | 0, i, d, m => if i < sz then .error .diverges else .ok (some d, m)
  | n + 1, i, d, m =>
    if i < sz then
      match walkpgdir pgdir i false m with
      | (none, _, _) => .error (.panic "copyuvm: pte should exist")
      | (some pte, _, m) =>
        if (pgdir.deref pte).p then
          match kalloc m with
          | (none, m) => do
            let m ← freevm (some d) m
            return (none, m)
          | (some mem, m) => do
            let (ok, d, m) ← mappages d i PGSIZE mem ⟨(pgdir.deref pte).w, (pgdir.deref pte).u⟩
              (m.copyPage mem (pgdir.deref pte).addr)
            if ok then copyuvmLoop pgdir sz n (add32 i PGSIZE) d m
            else
              let m ← kfree mem m
              let m ← freevm (some d) m
              return (none, m)
        else .error (.panic "copyuvm: page not present")
    else .ok (some d, m)

/-- `copyuvm`: a copy of the user memory `[0, sz)` for a child. -/
def copyuvm (pgdir : PageDir) (sz : ℕ) (m : Kmem) : Except Fault (Option PageDir × Kmem) := do
  let (d, m) ← setupkvm m
  match d with
  | none => return (none, m)
  | some d => copyuvmLoop pgdir sz (sz / PGSIZE + 1) 0 d m

end Xv6
