import CS450.Lib.Run
import CS450.Proc.Table
import CS450.Vm.PageDir

/-!
# The shared-memory kernel

The kernel of HW3: `vm.c`, `proc.c` and `sysproc.c` with `GetSharedPage` and `FreeSharedPage`. The
state is the process table, the memory part of each process, the table of shared regions and the
physical memory. A system call is one function of the state: it returns with a new state, or the
kernel panics. `wait` may also put its caller to sleep; a process that slept and was woken is still
inside `wait`, with `chan` set, and continues there.

Files, directories, names, trap frames and kernel contexts are left out: none of the functions here
reads them. A system call runs alone, from its first line to its last or to where it sleeps. The
source does not ensure that: for the shared regions `vm.c` takes no lock and only turns off
interrupts in some loops. Calls that overlap, on two CPUs or by a timer interrupt, are outside this
model.
-/

namespace Xv6.Shared

/-- `MAX_SH_KEY` and `MAX_SH_PAGES`, both `NPROC`. -/
abbrev MAX_SH_KEY : ℕ := NPROC
abbrev MAX_SH_PAGES : ℕ := NPROC

/-- An index into `sharedRegions`, which stands for the pointer to that entry. -/
abbrev Key := Fin MAX_SH_KEY

/-- `sharedRegion_t`: a region of shared memory. -/
structure SharedRegion where
  valid : Bool
  refCount : ℤ
  pageCount : ℕ
  pages : ℕ → ℕ

/-- `sharedReference_t`: a process's reference to a region; null pointers are `none` and `0`. -/
structure SharedReference where
  region : Option Key
  va : ℕ
  deriving DecidableEq, Repr

/-- The memory part of `struct proc`. -/
structure ProcVm where
  sz : ℕ
  pgdir : Option PageDir
  kstack : Option ℕ
  shaddr : ℕ
  shared : Key → SharedReference

/-- The state of the kernel; `ncli` is the `pushcli` depth of the CPU that runs the call. -/
structure Kernel where
  proc : ProcTable
  vm : Slot → ProcVm
  regions : Key → SharedRegion
  kmem : Kmem
  nextpid : ℤ
  initproc : Slot
  ncli : ℤ

namespace Kernel

/-- A store into the memory part of a process. -/
def setVm (k : Kernel) (p : Slot) (v : ProcVm) : Kernel :=
  { k with vm := Function.update k.vm p v }

/-- A store into the scheduling part of a process. -/
def setProc (k : Kernel) (p : Slot) (c : Proc) : Kernel :=
  { k with proc := Function.update k.proc p c }

/-- A store into the region table. -/
def setRegion (k : Kernel) (key : Key) (r : SharedRegion) : Kernel :=
  { k with regions := Function.update k.regions key r }

/-- The physical memory after a callee. -/
def setKmem (k : Kernel) (m : Kmem) : Kernel := { k with kmem := m }

end Kernel

/-! ### Shared regions, `vm.c` -/

/-- The loop of `mapSharedRegion`, for `n` more pages from the index `i` on: each page is mapped
one page further down. -/
def mapSharedLoop (pages : ℕ → ℕ) :
    ℕ → ℕ → ℕ → PageDir → Kmem → Except Fault (Bool × ℕ × PageDir × Kmem)
  | 0, _, shaddr, pgdir, m => .ok (true, shaddr, pgdir, m)
  | n + 1, i, shaddr, pgdir, m => do
    let shaddr := sub32 shaddr PGSIZE
    let (ok, pgdir, m) ← mappages pgdir shaddr PGSIZE (pages i) ⟨true, true⟩ m
    if ok then mapSharedLoop pages n (i + 1) shaddr pgdir m
    else return (false, shaddr, pgdir, m)

/-- `ref->region && ref->region->valid`. -/
def Kernel.mapped (k : Kernel) (ref : SharedReference) : Bool :=
  match ref.region with
  | some key => (k.regions key).valid
  | none => false

/-- `mapSharedRegion`: the address of the region in `p`, mapped now if it was not; `none` is
`(void *)-1`. A failing `mappages` returns between `pushcli` and `popcli`. -/
def mapSharedRegion (k : Kernel) (p : Slot) (key : Key) : Except Fault (Option ℕ × Kernel) :=
  let region := k.regions key
  let ref := (k.vm p).shared key
  if k.mapped ref then .ok (some ref.va, k)
  else
    match (k.vm p).pgdir with
    | none => .error (.panic "trap")
    | some pgdir => do
      let (ok, shaddr, pgdir, m) ←
        mapSharedLoop region.pages region.pageCount 0 (k.vm p).shaddr pgdir k.kmem
      let vm := { k.vm p with shaddr := shaddr, pgdir := some pgdir }
      if ok then
        let vm := { vm with shared := Function.update vm.shared key ⟨some key, shaddr⟩ }
        let k := k.setRegion key { region with refCount := region.refCount + 1 }
        return (some shaddr, (k.setVm p vm).setKmem m)
      else return (none, { (k.setVm p vm).setKmem m with ncli := k.ncli + 1 })

/-- The loop of `allocSharedVM`: `n` more pages from the index `i` on. -/
def allocSharedLoop : ℕ → ℕ → (ℕ → ℕ) → Kmem → Bool × (ℕ → ℕ) × Kmem
  | 0, _, pages, m => (true, pages, m)
  | n + 1, i, pages, m =>
    match kalloc m with
    | (none, m) => (false, pages, m)
    | (some mem, m) => allocSharedLoop n (i + 1) (Function.update pages i mem) (m.memset mem 0)

/-- The index of an `int` key, when it is in range. -/
def keyOf (key : ℤ) : Option Key :=
  if h : 0 ≤ key ∧ key < (MAX_SH_KEY : ℤ) then some ⟨key.toNat, by omega⟩ else none

/-- `allocSharedVM`: the region of a key, created if it is not valid, mapped into `p`. -/
def allocSharedVM (k : Kernel) (p : Slot) (key count : ℤ) : Except Fault (Option ℕ × Kernel) :=
  match keyOf key with
  | none => .ok (none, k)
  | some key =>
    if count ≤ 0 ∨ (MAX_SH_PAGES : ℤ) < count then .ok (none, k)
    else
      let region := k.regions key
      if region.valid then
        if (region.pageCount : ℤ) < count then .ok (none, k) else mapSharedRegion k p key
      else
        match allocSharedLoop count.toNat 0 region.pages k.kmem with
        | (false, pages, m) =>
          .ok (none, { (k.setRegion key { region with pages := pages }).setKmem m with
            ncli := k.ncli + 1 })
        | (true, pages, m) =>
          mapSharedRegion ((k.setRegion key ⟨true, 0, count.toNat, pages⟩).setKmem m) p key

/-- The loop of `deallocProcSharedVM` that clears `n` entries from the page index `i` on; `false`
when a page table is missing. -/
def clearSharedLoop (va : ℕ) : ℕ → ℕ → PageDir → Kmem → Bool × PageDir
  | 0, _, pgdir, _ => (true, pgdir)
  | n + 1, i, pgdir, m =>
    match walkpgdir pgdir (add32 va (i * PGSIZE)) false m with
    | (none, _, _) => (false, pgdir)
    | (some pte, _, _) => clearSharedLoop va n (i + 1) (pgdir.store pte .zero) m

/-- The loop of `deallocProcSharedVM` that frees `n` pages of a region from the index `i` on. -/
def freeSharedLoop : ℕ → ℕ → (ℕ → ℕ) → Kmem → Except Fault ((ℕ → ℕ) × Kmem)
  | 0, _, pages, m => .ok (pages, m)
  | n + 1, i, pages, m => do
    let m ← kfree (pages i) m
    freeSharedLoop n (i + 1) (Function.update pages i 0) m

/-- The end of `deallocProcSharedVM`: the count is decreased, and a region nobody refers to any
more is freed. -/
def dropRegion (k : Kernel) (key : Key) : Except Fault (ℤ × Kernel) :=
  let region := k.regions key
  if region.valid then
    let refCount := region.refCount - 1
    if refCount = 0 then do
      let (pages, m) ← freeSharedLoop region.pageCount 0 region.pages k.kmem
      return (refCount, (k.setRegion key ⟨false, refCount, 0, pages⟩).setKmem m)
    else .ok (refCount, k.setRegion key { region with refCount := refCount })
  else .ok (region.refCount, k)

/-- `deallocProcSharedVM`: the reference of `p` to a region is dropped. -/
def deallocProcSharedVM (k : Kernel) (p : Slot) (key : ℤ) : Except Fault (ℤ × Kernel) :=
  match keyOf key with
  | none => .ok (-1, k)
  | some key =>
    let ref := (k.vm p).shared key
    if ref.region = none ∨ ref.va = 0 then .ok (-1, k)
    else
      match (k.vm p).pgdir with
      | none => .error (.panic "trap")
      | some pgdir =>
        match clearSharedLoop ref.va (k.regions key).pageCount 0 pgdir k.kmem with
        | (false, pgdir) => .ok (-1, k.setVm p { k.vm p with pgdir := some pgdir })
        | (true, pgdir) =>
          let shared := Function.update (k.vm p).shared key ⟨none, 0⟩
          dropRegion (k.setVm p { k.vm p with pgdir := some pgdir, shared := shared }) key

/-- The loop of `deallocProcAllSharedVM`. -/
def deallocAllLoop (p : Slot) : List Key → Kernel → Except Fault Kernel
  | [], k => .ok k
  | key :: keys, k =>
    if k.mapped ((k.vm p).shared key) ∧ ((k.vm p).shared key).va ≠ 0 then do
      let (_, k) ← deallocProcSharedVM k p (key : ℕ)
      deallocAllLoop p keys k
    else deallocAllLoop p keys k

/-- `deallocProcAllSharedVM`: every reference of `p` is dropped. -/
def deallocProcAllSharedVM (k : Kernel) (p : Slot) : Except Fault Kernel :=
  deallocAllLoop p (List.finRange MAX_SH_KEY) k

/-! ### Processes, `proc.c` -/

/-- `allocproc`: an unused entry with a kernel stack, or `none`. -/
def allocproc (k : Kernel) : Option Slot × Kernel :=
  match findUnused k.proc with
  | none => (none, k)
  | some p =>
    let k := k.setProc p { k.proc p with state := .embryo, pid := k.nextpid }
    let k := { k with nextpid := k.nextpid + 1 }
    let vm := { k.vm p with shaddr := KERNBASE }
    match kalloc k.kmem with
    | (none, m) =>
      (none, ((k.setVm p { vm with kstack := none }).setProc p
        { k.proc p with state := .unused }).setKmem m)
    | (some kstack, m) => (some p, (k.setVm p { vm with kstack := some kstack }).setKmem m)

/-- The checks of `switchuvm`; the rest of it loads registers. -/
def switchuvm (vm : ProcVm) : Except Fault Unit :=
  if vm.kstack = none then .error (.panic "switchuvm: no kstack")
  else if vm.pgdir.isNone then .error (.panic "switchuvm: no pgdir")
  else .ok ()

/-- `growproc`. -/
def growproc (k : Kernel) (p : Slot) (n : ℤ) : Except Fault (ℤ × Kernel) :=
  match (k.vm p).pgdir with
  | none => .error (.panic "trap")
  | some pgdir =>
    let sz := (k.vm p).sz
    if 0 < n then do
      let (r, pgdir, m) ← allocuvm (k.vm p).shaddr pgdir sz (addInt32 sz n) k.kmem
      let k' := (k.setVm p { k.vm p with pgdir := some pgdir }).setKmem m
      if r = 0 then return (-1, k')
      else
        switchuvm (k'.vm p)
        return (0, k'.setVm p { k'.vm p with sz := r })
    else if n < 0 then do
      let (r, pgdir, m) ← deallocuvm pgdir sz (addInt32 sz n) k.kmem
      let k' := (k.setVm p { k.vm p with pgdir := some pgdir }).setKmem m
      if r = 0 then return (-1, k')
      else
        switchuvm (k'.vm p)
        return (0, k'.setVm p { k'.vm p with sz := r })
    else do
      switchuvm (k.vm p)
      return (0, k)

/-- `sys_sbrk`: the old size, or `-1`. -/
def sbrk (k : Kernel) (p : Slot) (n : ℤ) : Except Fault (ℤ × Kernel) := do
  let addr := (k.vm p).sz
  let (r, k) ← growproc k p n
  if r < 0 then return (-1, k) else return ((addr : ℤ), k)

/-- `fork`. -/
def fork (k : Kernel) (p : Slot) : Except Fault (ℤ × Kernel) :=
  match allocproc k with
  | (none, k) => .ok (-1, k)
  | (some np, k) =>
    match (k.vm p).pgdir with
    | none => .error (.panic "trap")
    | some pgdir => do
      let (d, m) ← copyuvm pgdir (k.vm p).sz k.kmem
      let k := (k.setVm np { k.vm np with pgdir := d }).setKmem m
      match d with
      | none =>
        let m ← kfree ((k.vm np).kstack.getD 0) k.kmem
        return (-1, ((k.setVm np { k.vm np with kstack := none }).setProc np
          { k.proc np with state := .unused }).setKmem m)
      | some _ =>
        let k := k.setVm np { k.vm np with sz := (k.vm p).sz }
        return ((k.proc np).pid,
          k.setProc np { k.proc np with parent := some p, state := .runnable })

/-- `exit`, up to the switch to the scheduler. -/
def exit (k : Kernel) (p : Slot) : Except Fault Kernel :=
  if p = k.initproc then .error (.panic "init exiting")
  else .ok { k with proc := exitTable p k.initproc k.proc }

/-- What `wait` does with an exited child `c`: its shared references are dropped, its memory is
freed, and its entry becomes unused. -/
def reap (k : Kernel) (c : Slot) : Except Fault Kernel := do
  let k ← deallocProcAllSharedVM k c
  let m ← kfree ((k.vm c).kstack.getD 0) k.kmem
  let m ← freevm (k.vm c).pgdir m
  return ((k.setVm c { k.vm c with kstack := none }).setProc c (k.proc c).reaped).setKmem m

/-- `wait`: the pid of a reaped child, `-1`, or `none` when the caller goes to sleep. A caller
that was asleep first clears `chan`. -/
def wait (k : Kernel) (p : Slot) : Except Fault (Option ℤ × Kernel) :=
  let k := k.setProc p { k.proc p with chan := none }
  match findZombie p k.proc with
  | some c => do
    let k' ← reap k c
    return (some (k.proc c).pid, k')
  | none =>
    if !havekids p k.proc || (k.proc p).killed then .ok (some (-1), k)
    else .ok (none, k.setProc p { k.proc p with chan := some (.proc p), state := .sleeping })

/-! ### Boot -/

/-- `freerange` over `n` pages from the page number `a` on. -/
def freerange : ℕ → ℕ → Kmem → Except Fault Kmem
  | 0, _, m => .ok m
  | n + 1, a, m => do
    let m ← kfree (a * PGSIZE) m
    freerange n (a + 1) m

/-- `startothers`: a stack for each further CPU. -/
def startothers : ℕ → Kmem → Kmem
  | 0, m => m
  | n + 1, m => startothers n (kalloc m).2

/-- The entry of a process in the zero-initialised table. -/
def ProcVm.zero : ProcVm := ⟨0, none, none, 0, fun _ => ⟨none, 0⟩⟩

/-- A region of the zero-initialised table. -/
def SharedRegion.zero : SharedRegion := ⟨false, 0, 0, fun _ => 0⟩

/-- The memory before `kinit1`: nothing is free. -/
def Kmem.initial (kend kdata : ℕ) : Kmem := ⟨kend, kdata, [], fun _ _ => 0, []⟩

/-- The kernel before `userinit`. -/
def Kernel.initial (m : Kmem) : Kernel :=
  ⟨fun _ => .zero, fun _ => .zero, fun _ => .zero, m, 1, 0, 0⟩

/-- `userinit`: the first process, with one page of memory. -/
def userinit (initcode : Page) (k : Kernel) : Except Fault Kernel :=
  match allocproc k with
  | (none, _) => .error (.panic "trap")
  | (some p, k) => do
    let (d, m) ← setupkvm k.kmem
    match d with
    | none => .error (.panic "userinit: out of memory?")
    | some d =>
      let (d, m) ← inituvm d initcode m
      let k := k.setVm p { k.vm p with pgdir := some d, sz := PGSIZE }
      return { (k.setProc p { k.proc p with state := .runnable }).setKmem m with initproc := p }

/-- `main` up to `userinit`: the pages below 4 MB become free, `kvmalloc` makes the kernel's own
page directory, the other CPUs get their stacks, the rest of memory becomes free, and the first
process is set up. -/
def boot (kend kdata others : ℕ) (initcode : Page) : Except Fault Kernel := do
  let first := (kend + (PGSIZE - 1)) / PGSIZE
  let m ← freerange (0x400 - first) first (Kmem.initial kend kdata)
  let (_, m) ← setupkvm m
  let m := startothers others m
  let m ← freerange (PHYSTOP / PGSIZE - 0x400) 0x400 m
  userinit initcode (Kernel.initial m)

/-! ### System calls -/

/-- The system calls of the runs considered. -/
inductive Call
  | getSharedPage (key count : ℤ)
  | freeSharedPage (key : ℤ)
  | fork
  | sbrk (n : ℤ)
  | exit
  | wait
  deriving DecidableEq, Repr

/-- What a call returns: an address, an `int`, or nothing yet (`wait` sleeps, `exit` does not
return). -/
inductive Ret
  | addr (va : Option ℕ)
  | int (n : ℤ)
  | none
  deriving DecidableEq, Repr

/-- The system call `c` of the process `p`. -/
def syscall (k : Kernel) (p : Slot) : Call → Except Fault (Ret × Kernel)
  | .getSharedPage key count => do
    let (r, k) ← allocSharedVM k p key count
    return (.addr r, k)
  | .freeSharedPage key => do
    let (r, k) ← deallocProcSharedVM k p key
    return (.int r, k)
  | .fork => do
    let (r, k) ← fork k p
    return (.int r, k)
  | .sbrk n => do
    let (r, k) ← sbrk k p n
    return (.int r, k)
  | .exit => do
    let k ← exit k p
    return (.none, k)
  | .wait => do
    let (r, k) ← wait k p
    return (r.elim .none .int, k)

/-- The process `p` can make the call: it runs or may be scheduled, and if it slept in `wait` it
is still there. -/
def CanCall (k : Kernel) (p : Slot) (c : Call) : Prop :=
  ((k.proc p).state = .runnable ∨ (k.proc p).state = .running) ∧
    ((k.proc p).chan = none ∨ c = .wait)

/-- A step of the kernel: a process makes a system call, and the kernel does not panic. -/
def Step (k : Kernel) (e : Slot × Call) (k' : Kernel) : Prop :=
  CanCall k e.1 e.2 ∧ ∃ r, syscall k e.1 e.2 = .ok (r, k')

end Xv6.Shared
