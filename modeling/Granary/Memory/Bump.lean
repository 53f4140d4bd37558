import Granary.Lib.Chain
import Granary.Lib.Ranges
import Mathlib.Algebra.Group.Nat.Defs

/-!
# Bump-pointer allocators

`granary/bump_allocator.h`, with the configurations of `granary/state.h`. Slab descriptors are named by their
addresses and linked through their `next` fields. The allocators of one configuration, one for each CPU `i : ι`, share
one free list. What the code takes from its surroundings (new slabs, whether a lock could be acquired) is an argument
of each call. `unsigned` arithmetic is modulo `2 ^ 32`.
-/

namespace Granary.Memory

open Function (update update_idem update_self)

open Ranges

abbrev SlabPtr := Nat

structure BumpPointerSlab where
  next : Option SlabPtr
  memory : Nat
  index : Nat
  remaining : Nat
  size : Nat
deriving DecidableEq, Repr

inductive ExecutableMemoryKind where
  | codeCache
  | genCode
  | wrapper
deriving DecidableEq, Repr

/-! ## Configurations -/

structure AllocatorConfig where
  slabSize : Nat
  executable : Bool
  transient : Bool
  shared : Bool
  shareDeadSlabs : Bool
  execWhere : Option ExecutableMemoryKind
  minAlign : Nat
deriving DecidableEq, Repr

def pageSize : Nat := 4096

def fragmentAllocatorConfig : AllocatorConfig :=
  { slabSize := pageSize, executable := true, transient := false, shared := false, shareDeadSlabs := true,
    execWhere := some .codeCache, minAlign := 64 }

def stubAllocatorConfig : AllocatorConfig :=
  { slabSize := pageSize, executable := true, transient := false, shared := false, shareDeadSlabs := false,
    execWhere := some .genCode, minAlign := 8 }

def instructionAllocatorConfig : AllocatorConfig :=
  { slabSize := pageSize, executable := true, transient := true, shared := false, shareDeadSlabs := true,
    execWhere := some .genCode, minAlign := 1 }

def wrapperAllocatorConfig : AllocatorConfig :=
  { slabSize := pageSize, executable := true, transient := false, shared := true, shareDeadSlabs := false,
    execWhere := some .wrapper, minAlign := 16 }

def blockAllocatorConfig : AllocatorConfig :=
  { slabSize := pageSize, executable := false, transient := false, shared := false, shareDeadSlabs := false,
    execWhere := none, minAlign := 16 }

def globalFragmentAllocatorConfig : AllocatorConfig :=
  { slabSize := pageSize, executable := true, transient := false, shared := true, shareDeadSlabs := false,
    execWhere := some .genCode, minAlign := 16 }

def transientAllocatorConfig : AllocatorConfig :=
  { slabSize := pageSize, executable := false, transient := true, shared := false, shareDeadSlabs := true,
    execWhere := none, minAlign := 1 }

/-- The configuration of the leak detector. -/
def descriptorAllocatorConfig : AllocatorConfig :=
  { slabSize := 2 * pageSize, executable := false, transient := false, shared := true, shareDeadSlabs := true,
    execWhere := none, minAlign := 4 }

/-- The configurations that `granary/state.h` and the leak detector declare. -/
def allocatorConfigs : List AllocatorConfig :=
  [fragmentAllocatorConfig, stubAllocatorConfig, instructionAllocatorConfig, wrapperAllocatorConfig,
    blockAllocatorConfig, globalFragmentAllocatorConfig, transientAllocatorConfig, descriptorAllocatorConfig]

namespace AllocatorConfig

def sharesDeadSlabs (cfg : AllocatorConfig) : Bool := !cfg.shared && cfg.shareDeadSlabs

def memsetValue (cfg : AllocatorConfig) : UInt8 := if cfg.executable then 0xCC else 0

/-- What divides the address of a new slab's memory: pages, or 8 on the heap. -/
def baseAlign (cfg : AllocatorConfig) : Nat := if cfg.executable then pageSize else 8

end AllocatorConfig

/-! ## State -/

structure BumpPointerAllocator where
  curr : Option SlabPtr
  first : Option SlabPtr
  free : Option SlabPtr
  lastAllocationSize : Nat
  lastAllocation : Nat
  lastAllocationSlab : Option SlabPtr
deriving DecidableEq, Repr

def BumpPointerAllocator.init : BumpPointerAllocator :=
  { curr := none, first := none, free := none, lastAllocationSize := 0, lastAllocation := 0,
    lastAllocationSlab := none }

inductive BumpAssert where
  | slabBigEnough
  | slabSizeBigEnough
  | notGotSlab
  | currentSlabUsed
  | indexInSlab
  | remainingInSlab
  | iterations
  | roomLeft
  | memoryInitialised
  | sizeKept
  | aligned
  | freeSizeKept
  | freeIndexBound
  | freeLastIsLast
  | freeIndexInSlab
  | freedSizeKept
  | firstIsLast
  | currentSlab
deriving DecidableEq, Repr

inductive BumpAbort where
  | fault
  | running
  | assertion (site : BumpAssert)
deriving DecidableEq, Repr

/-- Memory that a caller of `allocate` may use. -/
structure LiveAllocation where
  addr : Nat
  size : Nat
  align : Nat
  slab : SlabPtr
deriving DecidableEq, Repr

/-- `made` are all slabs ever allocated, and `live` the allocations each CPU still uses. The code keeps neither. -/
structure BumpState (ι : Type) where
  slabs : SlabPtr → BumpPointerSlab
  bytes : Nat → UInt8
  allocator : ι → BumpPointerAllocator
  globalFree : Option SlabPtr
  made : List SlabPtr
  live : ι → List LiveAllocation

/-- The descriptor and memory of a new slab, if one can be had, and whether `global_free_lock` can be acquired when looking
for a slab and when giving slabs back. -/
structure BumpEnv where
  fresh : Option (SlabPtr × Nat)
  lockSearch : Bool
  lockShare : Bool
deriving DecidableEq, Repr

namespace BumpState

variable {ι : Type} [DecidableEq ι]

def init : BumpState ι :=
  { slabs := fun _ => { next := none, memory := 0, index := 0, remaining := 0, size := 0 }
    bytes := fun _ => 0
    allocator := fun _ => .init
    globalFree := none
    made := []
    live := fun _ => [] }

def setSlab (s : BumpState ι) (p : SlabPtr) (slab : BumpPointerSlab) : BumpState ι :=
  { s with slabs := update s.slabs p slab }

def setAllocator (s : BumpState ι) (i : ι) (a : BumpPointerAllocator) : BumpState ι :=
  { s with allocator := update s.allocator i a }

def setLive (s : BumpState ι) (i : ι) (live : List LiveAllocation) : BumpState ι :=
  { s with live := update s.live i live }

def memset (s : BumpState ι) (addr : Nat) (value : UInt8) (size : Nat) : BumpState ι :=
  { s with bytes := fun a => if addr ≤ a ∧ a < addr + size then value else s.bytes a }

@[simp] theorem setAllocator_self (s : BumpState ι) (i : ι) (a : BumpPointerAllocator) :
    (s.setAllocator i a).allocator i = a := update_self _ _ _

@[simp] theorem setAllocator_setAllocator (s : BumpState ι) (i : ι) (a b : BumpPointerAllocator) :
    (s.setAllocator i a).setAllocator i b = s.setAllocator i b :=
  congrArg (fun f => { s with allocator := f }) (update_idem _ _ _)

end BumpState

/-! ## Slab lists -/

/-- `ALIGN_TO`: how many bytes to skip. -/
def alignTo (lval constAlign : Nat) : Nat := if lval % constAlign ≠ 0 then constAlign - lval % constAlign else 0

def assert (site : BumpAssert) (p : Prop) [Decidable p] : Except BumpAbort Unit :=
  if p then return () else throw (.assertion site)

/-- What `unlink_ptr` points to: the head of the list that is searched, or the `next` field of a slab. -/
inductive SlabLink where
  | head
  | next (p : SlabPtr)
deriving DecidableEq, Repr

def biggerSlab (slabs : SlabPtr → BumpPointerSlab) (size : Nat) (bigger : Option (SlabLink × SlabPtr))
    (unlinkPtr : SlabLink) (found : SlabPtr) : Option (SlabLink × SlabPtr) :=
  if size < (slabs found).size then
    match bigger with
    | none => some (unlinkPtr, found)
    | some (_, b) => if (slabs found).size < (slabs b).size then some (unlinkPtr, found) else bigger
  else bigger

def slabSearchLoop (slabs : SlabPtr → BumpPointerSlab) (size : Nat) :
    Nat → SlabLink → Option SlabPtr → Option (SlabLink × SlabPtr) → Option (Option (SlabLink × SlabPtr))
  | 0, _, _, _ => none
  | _ + 1, _, none, bigger => some bigger
  | fuel + 1, unlinkPtr, some found, bigger =>
    if (slabs found).size = size then some (some (unlinkPtr, found))
    else slabSearchLoop slabs size fuel (.next found) (slabs found).next
      (biggerSlab slabs size bigger unlinkPtr found)

def slabSearch (slabs : SlabPtr → BumpPointerSlab) (fuel : Nat) (list : Option SlabPtr) (size : Nat) :
    Except BumpAbort (Option SlabPtr × (SlabPtr → BumpPointerSlab) × Option SlabPtr) :=
  match slabSearchLoop slabs size fuel .head list none with
  | none => throw .running
  | some none => return (none, slabs, list)
  | some (some (.head, found)) => return (some found, slabs, (slabs found).next)
  | some (some (.next p, found)) =>
    return (some found, update slabs p { slabs p with next := (slabs found).next }, list)

def connect (slabs : SlabPtr → BumpPointerSlab) : Nat → SlabPtr → Except BumpAbort SlabPtr
  | 0, _ => throw .running
  | fuel + 1, p =>
    match (slabs p).next with
    | none => return p
    | some q => connect slabs fuel q

section Operations

variable {ι : Type} [DecidableEq ι] (cfg : AllocatorConfig) (fuel : Nat) (env : BumpEnv)

/-! ## `allocate_slab` -/

def searchFree (s : BumpState ι) (i : ι) (size : Nat) : Except BumpAbort (Option SlabPtr × BumpState ι) := do
  let a := s.allocator i
  if a.free = none then return (none, s)
  let (found, slabs, free) ← slabSearch s.slabs fuel a.free size
  return (found, { s with slabs }.setAllocator i { a with free })

/-- Look for a slab in the shared free list, if its lock can be had. -/
def searchGlobalFree (s : BumpState ι) (size : Nat) : Except BumpAbort (Option SlabPtr × BumpState ι) := do
  if cfg.sharesDeadSlabs ∧ s.globalFree ≠ none ∧ env.lockSearch then
    let (found, slabs, globalFree) ← slabSearch s.slabs fuel s.globalFree size
    return (found, { s with slabs, globalFree })
  else return (none, s)

def newSlab (s : BumpState ι) (size : Nat) : Except BumpAbort (SlabPtr × BumpState ι) :=
  match env.fresh with
  | none => throw .fault
  | some (p, memory) =>
    return (p, { s with made := p :: s.made }.setSlab p { next := none, memory, index := 0, remaining := 0, size })

def initialiseSlab (s : BumpState ι) (p : SlabPtr) : Except BumpAbort (BumpState ι) := do
  let found := s.slabs p
  let s := s.memset found.memory cfg.memsetValue found.size
  assert .slabBigEnough (cfg.slabSize ≤ found.size)
  return s.setSlab p { found with index := 0, remaining := found.size, next := none }

def allocateSlab (s : BumpState ι) (i : ι) (size : Nat) : Except BumpAbort (SlabPtr × BumpState ι) := do
  let (found, s) ← searchFree fuel s i size
  match found with
  | some p => return (p, ← initialiseSlab cfg s p)
  | none =>
    let (found, s) ← searchGlobalFree cfg fuel env s size
    match found with
    | some p => return (p, ← initialiseSlab cfg s p)
    | none =>
      let (p, s) ← newSlab env s size
      return (p, ← initialiseSlab cfg s p)

/-! ## `allocate_bare` -/

def slabSizeFor (size : Nat) : Nat :=
  let slabSize := (size + alignTo size cfg.slabSize) % 2 ^ 32
  if slabSize = 0 then cfg.slabSize else slabSize

def takeSlab (s : BumpState ι) (i : ι) (size : Nat) : Except BumpAbort (BumpState ι) := do
  let (p, s) ← allocateSlab cfg fuel env s i (slabSizeFor cfg size)
  let a := s.allocator i
  let s := s.setSlab p { s.slabs p with next := a.curr }
  return s.setAllocator i { a with curr := some p, first := a.first.or (some p) }

/-- One round of the loop of `allocate_bare`: take a slab if there is none, or if it cannot serve the request. -/
def ensureSlab (s : BumpState ι) (i : ι) (size : Nat) (gotSlab : Bool) : Except BumpAbort (Bool × BumpState ι) := do
  match (s.allocator i).curr with
  | none => return (true, ← takeSlab cfg fuel env s i size)
  | some p =>
    if (s.slabs p).remaining < size then do
      assert .currentSlabUsed (0 < (s.slabs p).index)
      return (true, ← takeSlab cfg fuel env s i size)
    else return (gotSlab, s)

/-- How a round of the loop of `allocate_bare` ends. -/
inductive Placement where
  | staged
  | fits
  | wasted
deriving DecidableEq, Repr

/-- The rest of a round: skip bytes of the current slab so that the request is aligned, if it then still fits. -/
def placeInCurr (s : BumpState ι) (i : ι) (align size : Nat) :
    Except BumpAbort (SlabPtr × Placement × BumpState ι) :=
  match (s.allocator i).curr with
  | none => throw .fault
  | some p =>
    if size = 0 then return (p, .staged, s)
    else do
      let curr := s.slabs p
      assert .indexInSlab (curr.index ≤ curr.size)
      assert .remainingInSlab (curr.remaining ≤ curr.size)
      let alignOffset := alignTo (curr.memory + curr.index) align
      let alignedSize := (size + alignOffset) % 2 ^ 32
      if alignedSize ≤ curr.remaining then
        return (p, .fits, s.setSlab p { curr with
          index := (curr.index + alignOffset) % 2 ^ 32
          remaining := (curr.remaining + 2 ^ 32 - alignOffset) % 2 ^ 32 })
      else
        -- make this slab unusable
        return (p, .wasted, s.setSlab p { curr with remaining := 0, index := curr.size })

/-- The loop of `allocate_bare`. It ends with the current slab and, unless a staged allocation left it early, the value of
`i`. -/
def allocateBareLoop (i : ι) (align size : Nat) :
    Nat → Nat → Bool → BumpState ι → Except BumpAbort (SlabPtr × Option Nat × BumpState ι)
  | 0, round, _, s =>
    match (s.allocator i).curr with
    | none => throw .fault
    | some p => return (p, some round, s)
  | rounds + 1, round, gotSlab, s => do
      assert .notGotSlab (gotSlab = false)
      let (gotSlab, s) ← ensureSlab cfg fuel env s i size gotSlab
      let (p, placement, s) ← placeInCurr s i align size
      match placement with
      | .staged => return (p, none, s)
      | .fits => return (p, some round, s)
      | .wasted => allocateBareLoop i align size rounds (round + 1) gotSlab s

def checkInitialised (bytes : Nat → UInt8) (value : UInt8) : Nat → Nat → Except BumpAbort Unit
  | 0, _ => return ()
  | size + 1, addr => do
      assert .memoryInitialised (value = bytes addr)
      checkInitialised bytes value size (addr + 1)

/-- Hand out `size` bytes at the index of the current slab. -/
def bump (s : BumpState ι) (i : ι) (p : SlabPtr) (align size : Nat) : Except BumpAbort (Nat × BumpState ι) := do
  let curr := s.slabs p
  assert .roomLeft (size ≤ curr.remaining)
  let ret := curr.memory + curr.index
  checkInitialised s.bytes cfg.memsetValue size ret
  let s := s.setAllocator i { s.allocator i with
    lastAllocationSize := size, lastAllocation := ret, lastAllocationSlab := some p }
  let curr := { curr with
    index := (curr.index + size) % 2 ^ 32, remaining := (curr.remaining + 2 ^ 32 - size) % 2 ^ 32 }
  assert .sizeKept ((curr.index + curr.remaining) % 2 ^ 32 = curr.size)
  assert .aligned (ret % align = 0)
  return (ret, (s.setSlab p curr).setLive i ({ addr := ret, size, align, slab := p } :: s.live i))

def forgetLast (s : BumpState ι) (i : ι) : BumpState ι :=
  s.setAllocator i { s.allocator i with
    lastAllocationSize := 0, lastAllocation := 0, lastAllocationSlab := none }

def allocateBare (s : BumpState ι) (i : ι) (align size : Nat) : Except BumpAbort (Nat × BumpState ι) := do
  let s := forgetLast s i
  assert .slabSizeBigEnough (cfg.slabSize ≤ slabSizeFor cfg size)
  let (p, round, s) ← allocateBareLoop cfg fuel env i align size 3 0 false s
  match round with
  | none => return ((s.slabs p).memory + (s.slabs p).index, s)
  | some round =>
    assert .iterations (round ≤ 2)
    bump cfg s i p align size

/-! ## The public operations -/

def allocateUntyped (s : BumpState ι) (i : ι) (align numBytes : Nat) : Except BumpAbort (Nat × BumpState ι) :=
  allocateBare cfg fuel env s i align (numBytes % 2 ^ 32)

def allocateArray (s : BumpState ι) (i : ι) (alignofT sizeofT length : Nat) : Except BumpAbort (Nat × BumpState ι) :=
  allocateUntyped cfg fuel env s i (max alignofT cfg.minAlign) (sizeofT * length)

def tryFreeCurr (s : BumpState ι) (i : ι) (hadSlab : Bool) : Except BumpAbort (Bool × BumpState ι) :=
  match (s.allocator i).curr with
  | none => throw .fault
  | some p =>
    if hadSlab = false ∨ (s.slabs p).index = 0 then
      let a := s.allocator i
      let curr := (s.slabs p).next
      let s := s.setSlab p { s.slabs p with next := a.free }
      return (true, s.setAllocator i { a with curr, free := some p })
    else return (false, s)

def tryShareFree (s : BumpState ι) (i : ι) : Except BumpAbort (BumpState ι) :=
  match (s.allocator i).free with
  | none => return s
  | some p =>
    if env.lockShare then do
      let last ← connect s.slabs fuel p
      let s := s.setSlab last { s.slabs last with next := s.globalFree }
      return { s with globalFree := some p }.setAllocator i { s.allocator i with free := none }
    else return s

def retireCurr (s : BumpState ι) (i : ι) (hadSlab : Bool) : Except BumpAbort (BumpState ι) :=
  if cfg.sharesDeadSlabs then do
    let (freed, s) ← tryFreeCurr s i hadSlab
    if freed then tryShareFree fuel env s i else return s
  else return s

def allocateStaged (s : BumpState ι) (i : ι) : Except BumpAbort (Nat × BumpState ι) := do
  let hadSlab := (s.allocator i).curr.isSome
  let (ret, s) ← allocateBare cfg fuel env s i cfg.minAlign 0
  return (ret, ← retireCurr cfg fuel env s i hadSlab)

inductive FreeMemoryHint where
  | keepSlab
  | tryFreeSlab
deriving DecidableEq, Repr

/-- Move the index of the current slab back over the last allocation. -/
def unbump (s : BumpState ι) (i : ι) (p : SlabPtr) : Except BumpAbort (BumpState ι) := do
  let a := s.allocator i
  let curr := s.slabs p
  assert .freeSizeKept ((curr.index + curr.remaining) % 2 ^ 32 = curr.size)
  assert .freeIndexBound (a.lastAllocationSize ≤ curr.index)
  assert .freeLastIsLast (a.lastAllocation + a.lastAllocationSize = curr.memory + curr.index)
  let curr := { curr with
    index := curr.index - a.lastAllocationSize
    remaining := (curr.remaining + a.lastAllocationSize) % 2 ^ 32 }
  assert .freeIndexInSlab (curr.index ≤ curr.size)
  assert .freedSizeKept ((curr.index + curr.remaining) % 2 ^ 32 = curr.size)
  let s := (s.setSlab p curr).memset (curr.memory + curr.index) cfg.memsetValue a.lastAllocationSize
  return s.setLive i ((s.live i).filter fun b => b.addr ≠ a.lastAllocation)

def freeLast (s : BumpState ι) (i : ι) (hint : FreeMemoryHint) : Except BumpAbort (BumpState ι) := do
  let a := s.allocator i
  match a.curr with
  | none => return forgetLast s i
  | some p =>
    if a.lastAllocationSize ≠ 0 ∧ a.lastAllocationSlab = some p then
      let s ← unbump cfg s i p
      let s ← if hint = .tryFreeSlab then retireCurr cfg fuel env s i true else pure s
      return forgetLast s i
    else return forgetLast s i

/-- Link the current slabs in front of the free list, through the slab that was allocated first. -/
def freeCurrent (s : BumpState ι) (i : ι) : Except BumpAbort (BumpState ι) := do
  let a := s.allocator i
  let s ← match a.first with
    | none => pure s
    | some first => do
        assert .firstIsLast ((s.slabs first).next = none)
        assert .currentSlab (a.curr ≠ none)
        pure ((s.setSlab first { s.slabs first with next := a.free }).setAllocator i { a with first := none })
  let a := s.allocator i
  match a.curr with
  | none => return s
  | some p => return s.setAllocator i { a with free := some p, curr := none }

def freeAll (s : BumpState ι) (i : ι) : Except BumpAbort (BumpState ι) := do
  if cfg.transient = false ∨ cfg.shared then throw .fault
  let s := (forgetLast s i).setLive i []
  let s ← freeCurrent s i
  if cfg.sharesDeadSlabs then tryShareFree fuel env s i else return s

end Operations

/-! ## Well-formed states -/

inductive SlabPlace (ι : Type) where
  | curr (i : ι)
  | free (i : ι)
  | shared
deriving DecidableEq

def BumpState.heads {ι : Type} (s : BumpState ι) : SlabPlace ι → Option SlabPtr
  | .curr i => (s.allocator i).curr
  | .free i => (s.allocator i).free
  | .shared => s.globalFree

def nextOf (slabs : SlabPtr → BumpPointerSlab) (p : SlabPtr) : Option SlabPtr := (slabs p).next

/-- An allocation is aligned and inside the used part of a current slab. -/
structure InSlab {ι : Type} (s : BumpState ι) (L : SlabPlace ι → List SlabPtr) (i : ι) (b : LiveAllocation) :
    Prop where
  mem : b.slab ∈ L (.curr i)
  pos : 0 < b.size
  memory_le : (s.slabs b.slab).memory ≤ b.addr
  le_index : b.addr + b.size ≤ (s.slabs b.slab).memory + (s.slabs b.slab).index
  dvd : b.align ∣ b.addr

/-- Each slab is on exactly one of the lists `L`, which end, and the live allocations are where they should be. -/
structure BumpState.WellFormed {ι : Type} (s : BumpState ι) (L : SlabPlace ι → List SlabPtr) : Prop where
  lists : Linked.Lists (nextOf s.slabs) s.heads L
  owned : ∀ p, p ∈ s.made ↔ ∃ P, p ∈ L P
  kept : ∀ p ∈ s.made, (s.slabs p).index + (s.slabs p).remaining = (s.slabs p).size
  inside : ∀ i, ∀ b ∈ s.live i, InSlab s L i b
  disjoint : ∀ i, (s.live i).Pairwise fun b c => Apart b.addr b.size c.addr c.size
  disjoint_cpus : ∀ i j, i ≠ j → ∀ b ∈ s.live i, ∀ c ∈ s.live j, Apart b.addr b.size c.addr c.size

/-! ## Runs -/

inductive BumpOp where
  | allocate (align size : Nat)
  | allocateStaged
  | freeLast (hint : FreeMemoryHint)
  | freeAll
  | write (addr : Nat) (value : UInt8)
deriving DecidableEq, Repr

/-- An operation on the allocator of one CPU. A write is by the user of an allocation. -/
structure BumpCall (ι : Type) where
  cpu : ι
  op : BumpOp
  env : BumpEnv

section Runs

variable {ι : Type} [DecidableEq ι]

def BumpCall.exec (cfg : AllocatorConfig) (fuel : Nat) (call : BumpCall ι) (s : BumpState ι) :
    Except BumpAbort (BumpState ι) :=
  match call.op with
  | .allocate align size => Prod.snd <$> allocateUntyped cfg fuel call.env s call.cpu align size
  | .allocateStaged => Prod.snd <$> Memory.allocateStaged cfg fuel call.env s call.cpu
  | .freeLast hint => Memory.freeLast cfg fuel call.env s call.cpu hint
  | .freeAll => Memory.freeAll cfg fuel call.env s call.cpu
  | .write addr value => return s.memset addr value 1

def runBump (cfg : AllocatorConfig) (fuel : Nat) : List (BumpCall ι) → BumpState ι → Except BumpAbort (BumpState ι)
  | [], s => return s
  | call :: calls, s => do runBump cfg fuel calls (← call.exec cfg fuel s)

/-- New memory for a slab of `size` bytes does not overlap any slab's. -/
def BumpState.Fresh (s : BumpState ι) (cfg : AllocatorConfig) (env : BumpEnv) (size : Nat) : Prop :=
  ∀ p memory, env.fresh = some (p, memory) →
    p ∉ s.made ∧ cfg.baseAlign ∣ memory ∧ ∀ q ∈ s.made, Apart memory size (s.slabs q).memory (s.slabs q).size

/-- An allocation does not wrap around, fits into a new slab whatever the padding, and does not find a current slab that is
unused and yet too small. `free_all` finds the first slab at the end of the list. A write stays inside a live allocation. -/
def BumpCall.Meets (cfg : AllocatorConfig) (call : BumpCall ι) (s : BumpState ι) : Prop :=
  match call.op with
  | .allocate align size =>
    s.Fresh cfg call.env (slabSizeFor cfg size) ∧ 0 < align ∧ size + cfg.slabSize ≤ 2 ^ 32 ∧
      (align ∣ cfg.baseAlign ∨ size + align ≤ slabSizeFor cfg size) ∧
      ∀ p, (s.allocator call.cpu).curr = some p → (s.slabs p).remaining < size → 0 < (s.slabs p).index
  | .allocateStaged => s.Fresh cfg call.env (slabSizeFor cfg 0)
  | .freeLast _ => True
  | .freeAll =>
    cfg.transient = true ∧ ∃ l, Linked.Chain (nextOf s.slabs) (s.allocator call.cpu).curr l ∧
      (s.allocator call.cpu).first = l.getLast?
  | .write addr _ => ∃ b ∈ s.live call.cpu, b.addr ≤ addr ∧ addr < b.addr + b.size

inductive BumpRun (cfg : AllocatorConfig) : BumpState ι → Prop where
  | init : BumpRun cfg .init
  | call {s s' : BumpState ι} {fuel : Nat} (call : BumpCall ι) :
      BumpRun cfg s → call.Meets cfg s → call.exec cfg fuel s = .ok s' → BumpRun cfg s'

/-- In every state of a run, `allocate_bare` returns within three rounds. What it returns is aligned, in its slab, and not
in use. -/
def AllocatesAligned (cfg : AllocatorConfig) (i : ι) (align size : Nat) : Prop :=
  ∀ (s : BumpState ι) (env : BumpEnv) (fuel : Nat), BumpRun cfg s → env.fresh ≠ none →
    s.Fresh cfg env (slabSizeFor cfg size) → s.made.length + 1 < fuel →
      ∃ addr s' p, allocateBare cfg fuel env s i align size = .ok (addr, s') ∧ align ∣ addr ∧
        (s'.allocator i).curr = some p ∧ (s'.slabs p).memory ≤ addr ∧
        addr + size ≤ (s'.slabs p).memory + (s'.slabs p).size ∧ ∀ b ∈ s.live i, Apart addr size b.addr b.size

end Runs

end Granary.Memory
