import CS450.Lib.Outcome
import CS450.Vm.Kalloc

/-!
# The memory allocator of user programs

`umalloc.c`: the free blocks form a circular list in the order of their addresses, which begins with
the empty block `base`. A block begins with its header; sizes are in units of the size of a header.

The memory of the process is its headers, by address. Reading or writing a header may fault; what is
mapped, and what `sbrk` does, are parameters. A loop runs for a bounded number of rounds and reports
when they do not suffice.
-/

namespace Xv6.Umalloc

/-! ### The program -/

/-- `union header`: a pointer and a size in units. -/
structure Header where
  ptr : ℕ
  size : ℕ
  deriving DecidableEq, Repr

/-- The ways a call ends without returning. -/
inductive Stop
  /-- an access to memory that is not mapped, for which the kernel kills the process -/
  | pageFault
  /-- a loop that does not end -/
  | diverges
  /-- the kernel stops in `sbrk` -/
  | kernel (f : Fault)
  deriving DecidableEq, Repr

/-- The headers in memory, `freep`, and what is outside of the program. -/
structure Machine (σ : Type) where
  mem : ℕ → Header
  freep : ℕ
  env : σ

/-- Where `base` is, which headers can be read and written, and `sbrk`, which returns an address. -/
structure Platform (σ : Type) where
  base : ℕ
  mapped : σ → ℕ → Bool
  sbrk : ℕ → σ → Except Stop (ℕ × σ)

/-- Computations of the program. -/
abbrev M (σ : Type) := StateT (Machine σ) (Except Stop)

variable {σ : Type} (pf : Platform σ)

/-- `p + n` for a pointer to headers. -/
def plus (p n : ℕ) : ℕ := add32 p (8 * n)

/-- `*p` -/
def load (p : ℕ) : M σ Header := do
  let m ← get
  if pf.mapped m.env p then return m.mem p else throw .pageFault

/-- `p->s.ptr = q` and `p->s.size = n` -/
def store (p : ℕ) (f : Header → Header) : M σ Unit := do
  let m ← get
  if pf.mapped m.env p then set { m with mem := Function.update m.mem p (f (m.mem p)) }
  else throw .pageFault

def setFreep (p : ℕ) : M σ Unit := modify fun m => { m with freep := p }

/-- The loop of `free`: the block behind which `bp` belongs, in at most `rounds` rounds. -/
def freeLoop (bp : ℕ) : ℕ → ℕ → M σ ℕ
  | 0, _ => throw .diverges
  | rounds + 1, p => do
    let h ← load pf p
    if (bp > p ∧ bp < h.ptr) ∨ (p ≥ h.ptr ∧ (bp > p ∨ bp < h.ptr)) then return p
    else freeLoop bp rounds h.ptr

/-- `bp` is joined with the block behind it, or points to it. -/
def joinNext (bp p : ℕ) : M σ Unit := do
  let hb ← load pf bp
  let hp ← load pf p
  if plus bp hb.size = hp.ptr then
    let hn ← load pf hp.ptr
    store pf bp fun _ => ⟨hn.ptr, add32 hb.size hn.size⟩
  else store pf bp fun hb => ⟨hp.ptr, hb.size⟩

/-- `bp` is joined with the block before it, or that block points to it. -/
def joinPrev (bp p : ℕ) : M σ Unit := do
  let hb ← load pf bp
  let hp ← load pf p
  if plus p hp.size = bp then store pf p fun _ => ⟨hb.ptr, add32 hp.size hb.size⟩
  else store pf p fun hp => ⟨bp, hp.size⟩

def free (rounds ap : ℕ) : M σ Unit := do
  let bp := sub32 ap 8
  let m ← get
  let p ← freeLoop pf bp rounds m.freep
  joinNext pf bp p
  joinPrev pf bp p
  setFreep p

/-- `sbrk(n)` -/
def callSbrk (n : ℕ) : M σ ℕ := do
  let m ← get
  let (p, env) ← pf.sbrk n m.env
  set { m with env := env }
  return p

/-- The number of units that `morecore` asks for. -/
def coreUnits (nu : ℕ) : ℕ := if nu < 4096 then 4096 else nu

def morecore (rounds nu : ℕ) : M σ ℕ := do
  let p ← callSbrk pf (coreUnits nu * 8 % WORD)
  if p = WORD - 1 then return 0
  store pf p fun h => { h with size := coreUnits nu }
  free pf rounds (plus p 1)
  let m ← get
  return m.freep

/-- The loop of `malloc`, in at most `rounds` rounds. -/
def mallocLoop (nunits : ℕ) : ℕ → ℕ → ℕ → M σ ℕ
  | 0, _, _ => throw .diverges
  | rounds + 1, prevp, p => do
    let h ← load pf p
    if h.size ≥ nunits then
      if h.size = nunits then
        store pf prevp fun hp => { hp with ptr := h.ptr }
        setFreep prevp
        return plus p 1
      else
        store pf p fun h => { h with size := h.size - nunits }
        let q := plus p (h.size - nunits)
        store pf q fun h => { h with size := nunits }
        setFreep prevp
        return plus q 1
    else
      let m ← get
      if p = m.freep then
        let p ← morecore pf rounds nunits
        if p = 0 then return 0
        let h ← load pf p
        mallocLoop nunits rounds p h.ptr
      else mallocLoop nunits rounds p h.ptr

/-- `(nbytes + sizeof(Header) - 1)/sizeof(Header) + 1` -/
def unitsFor (nbytes : ℕ) : ℕ := add32 nbytes 7 / 8 + 1

def malloc (rounds nbytes : ℕ) : M σ ℕ := do
  let m ← get
  if m.freep = 0 then
    setFreep pf.base
    store pf pf.base fun _ => ⟨pf.base, 0⟩
  let m ← get
  let h ← load pf m.freep
  mallocLoop pf (unitsFor nbytes) rounds m.freep h.ptr

/-! ### Calls that return -/

section Returns

variable {α : Type} {f : ℕ → M σ α} {m m' m'' : Machine σ} {a b : α}

/-- **The call returns**: any number of rounds from some number on suffices. -/
def Returns (f : ℕ → M σ α) (m : Machine σ) (a : α) (m' : Machine σ) : Prop :=
  ∃ enough, ∀ rounds, enough ≤ rounds → f rounds m = .ok (a, m')

/-- A call returns one result. -/
theorem Returns.unique (h : Returns f m a m') (h' : Returns f m b m'') : a = b ∧ m' = m'' := by
  obtain ⟨k, hk⟩ := h
  obtain ⟨k', hk'⟩ := h'
  have heq := (hk (max k k') (le_max_left _ _)).symm.trans (hk' (max k k') (le_max_right _ _))
  exact Prod.mk.inj (Except.ok.inj heq)

end Returns

end Xv6.Umalloc
