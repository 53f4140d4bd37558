import Granary.Fragments.Locator

/-!
# Translating and discarding a trace

`basic_block::translate` of `granary/basic_block.cc` and `code_cache::find` of `granary/code_cache.cc`, as far as they use
the allocators and the locators. What the decoder, the mangler and the client decide (sizes and bytes) and what the
allocators find around them are arguments of a call. A call holds the coarse lock of its fragment allocator and is one
step.
-/

namespace Granary.Fragments

open Memory

def emit {ι : Type} (s : BumpState ι) (addr size : Nat) (code : Nat → UInt8) : BumpState ι :=
  { s with bytes := fun a => if addr ≤ a ∧ a < addr + size then code (a - addr) else s.bytes a }

structure BlockStateType where
  size : Nat
  align : Nat
deriving DecidableEq, Repr

/-- The places from which a call of `code_cache::find` calls an allocator. -/
inductive CallSite where
  | blockStaged
  | stubStaged
  | fragmentStaged
  | blockState (block : Nat)
  | fragmentMax
  | fragmentFree
  | fragmentEstimate
  | fragmentTrace
  | stub
  | discardFragment
  | discardStub
  | discardBlock
deriving DecidableEq, Repr

/-- A call of `code_cache::find` for new code, with the sizes of the blocks. `stored` is what `CODE_CACHE->store` returns. -/
structure FindCall (ι κ : Type) where
  cpu : κ
  fragmentAllocator : ι
  traceMaxSize : Nat
  sizes : List Nat
  stubSize : Nat
  code : Nat → UInt8
  stubCode : Nat → UInt8
  blockState : Nat → Nat → UInt8
  stored : Bool
  env : CallSite → BumpEnv

def FindCall.numBytes {ι κ : Type} (call : FindCall ι κ) : Nat := call.sizes.sum

def FindCall.discards {ι κ : Type} (call : FindCall ι κ) : Bool := call.sizes.length = 1 && !call.stored

/-- The fragment allocators `ι`, the allocators of each CPU `κ`, and the locators. -/
structure TranslatorState (ι κ : Type) where
  fragment : BumpState ι
  stub : BumpState κ
  block : BumpState κ
  table : LocatorTable

def TranslatorState.init {ι κ : Type} : TranslatorState ι κ :=
  { fragment := .init, stub := .init, block := .init, table := .init }

inductive TranslatorAbort where
  | fragment (abort : BumpAbort)
  | stub (abort : BumpAbort)
  | block (abort : BumpAbort)
  | locator (abort : LocatorAbort)
deriving DecidableEq, Repr

section Operations

variable {ι κ : Type} [DecidableEq ι] [DecidableEq κ] (r : ExecRegion) (type : BlockStateType) (fuel : Nat)
  (call : FindCall ι κ)

/-! ## `translate` -/

def allocateBlockStates : Nat → BumpState κ → Except BumpAbort (BumpState κ)
  | 0, s => return s
  | block + 1, s => do
      let s ← allocateBlockStates block s
      if type.size = 0 then return s
      else do
        let (state, s) ←
          allocateArray blockAllocatorConfig fuel (call.env (.blockState block)) s call.cpu type.align type.size 1
        return emit s state type.size (call.blockState block)

/-- Allocate the memory for the trace, from where the estimated size would fit. -/
def allocateTrace (s : BumpState ι) : Except BumpAbort (Nat × BumpState ι) := do
  let (_, s) ←
    allocateArray fragmentAllocatorConfig fuel (call.env .fragmentMax) s call.fragmentAllocator 1 1 call.traceMaxSize
  let s ← freeLast fragmentAllocatorConfig fuel (call.env .fragmentFree) s call.fragmentAllocator .keepSlab
  let (_, s) ← allocateStaged fragmentAllocatorConfig fuel (call.env .fragmentEstimate) s call.fragmentAllocator
  allocateArray fragmentAllocatorConfig fuel (call.env .fragmentTrace) s call.fragmentAllocator 1 1 call.numBytes

def allocateStubs (s : BumpState κ) : Except BumpAbort (BumpState κ) :=
  if call.stubSize = 0 then return s
  else do
    let (stubPc, s) ← allocateArray stubAllocatorConfig fuel (call.env .stub) s call.cpu 1 1 call.stubSize
    return emit s stubPc call.stubSize call.stubCode

/-- The assertion of `translate` that each block is found. -/
def findBlocks (table : LocatorTable) : List (Nat × Nat) → Except LocatorAbort Unit
  | [] => return ()
  | b :: bs => do
      let _ ← findBasicBlockInfo r table b.1
      findBlocks table bs

def translate (s : TranslatorState ι κ) : Except TranslatorAbort (EmittedTrace × TranslatorState ι κ) := do
  let (_, block) ← (allocateStaged blockAllocatorConfig fuel (call.env .blockStaged) s.block call.cpu).mapError .block
  let (_, stub) ← (allocateStaged stubAllocatorConfig fuel (call.env .stubStaged) s.stub call.cpu).mapError .stub
  let (_, fragment) ← (allocateStaged fragmentAllocatorConfig fuel (call.env .fragmentStaged) s.fragment
    call.fragmentAllocator).mapError .fragment
  let block ← (allocateBlockStates type fuel call call.sizes.length block).mapError .block
  let (startPc, fragment) ← (allocateTrace fuel call fragment).mapError .fragment
  let stub ← (allocateStubs fuel call stub).mapError .stub
  let fragment := emit fragment startPc call.numBytes call.code
  let trace : EmittedTrace := { startPc, sizes := call.sizes }
  let table ← (storeTraceMetaInfo r s.table trace.traceInfo).mapError .locator
  (findBlocks r table trace.blocks).mapError .locator
  return (trace, { fragment, stub, block, table })

/-! ## `find` -/

def discard (target : Nat) (s : TranslatorState ι κ) : Except TranslatorAbort (TranslatorState ι κ) := do
  let table ← (removeBasicBlockInfo r s.table target).mapError .locator
  let fragment ← (freeLast fragmentAllocatorConfig fuel (call.env .discardFragment) s.fragment call.fragmentAllocator
    .tryFreeSlab).mapError .fragment
  let stub ←
    (freeLast stubAllocatorConfig fuel (call.env .discardStub) s.stub call.cpu .tryFreeSlab).mapError .stub
  let block ←
    (freeLast blockAllocatorConfig fuel (call.env .discardBlock) s.block call.cpu .tryFreeSlab).mapError .block
  return { fragment, stub, block, table }

def find (s : TranslatorState ι κ) : Except TranslatorAbort (TranslatorState ι κ) := do
  let (trace, s) ← translate r type fuel call s
  let _ ← (findBasicBlockInfo r s.table trace.startPc).mapError .locator
  if call.discards then discard r fuel call trace.startPc s else return s

def runFinds : List (FindCall ι κ) → TranslatorState ι κ → Except TranslatorAbort (TranslatorState ι κ)
  | [], s => return s
  | call :: calls, s => do runFinds calls (← find r type fuel call s)

end Operations

/-! ## New memory -/

/-- There is memory for slabs of these sizes, which overlaps neither any slab's nor each other's. -/
structure Supplied {ι : Type} (cfg : AllocatorConfig) (s : BumpState ι) (offers : List (BumpEnv × Nat)) : Prop where
  fresh : ∀ o ∈ offers, s.Fresh cfg o.1 o.2
  apart : offers.Pairwise fun o o' => ∀ p memory p' memory', o.1.fresh = some (p, memory) →
    o'.1.fresh = some (p', memory') → p ≠ p' ∧ Ranges.Apart memory o.2 memory' o'.2

section Conditions

variable {ι κ : Type} (r : ExecRegion) (type : BlockStateType) (call : FindCall ι κ)

def FindCall.fragmentOffers : List (BumpEnv × Nat) :=
  [(call.env .fragmentStaged, slabSizeFor fragmentAllocatorConfig 0),
    (call.env .fragmentMax, slabSizeFor fragmentAllocatorConfig call.traceMaxSize),
    (call.env .fragmentEstimate, slabSizeFor fragmentAllocatorConfig 0),
    (call.env .fragmentTrace, slabSizeFor fragmentAllocatorConfig call.numBytes)]

def FindCall.stubOffers : List (BumpEnv × Nat) :=
  [(call.env .stubStaged, slabSizeFor stubAllocatorConfig 0),
    (call.env .stub, slabSizeFor stubAllocatorConfig call.stubSize)]

def FindCall.blockOffers : List (BumpEnv × Nat) :=
  (call.env .blockStaged, slabSizeFor blockAllocatorConfig 0) ::
    (List.range call.sizes.length).map fun block =>
      (call.env (.blockState block), slabSizeFor blockAllocatorConfig type.size)

/-! ## Runs -/

/-- Neither the estimate of a call nor a slab that it would find on a free list has more pages than its trace. Its memory is
in the code cache. -/
structure FindCall.Snug (s : BumpState ι) : Prop where
  pos : 0 < call.numBytes
  max_pos : 0 < call.traceMaxSize
  wrap : call.numBytes + pageSize ≤ 2 ^ 32
  max_wrap : call.traceMaxSize + pageSize ≤ 2 ^ 32
  estimate : slabSizeFor fragmentAllocatorConfig call.traceMaxSize = slabSizeFor fragmentAllocatorConfig call.numBytes
  recycled : ∀ P ∈ [SlabPlace.free call.fragmentAllocator, .shared], ∀ l, Linked.Chain (nextOf s.slabs) (s.heads P) l →
    ∀ q ∈ l, (s.slabs q).size ≤ slabSizeFor fragmentAllocatorConfig call.numBytes
  supplied : Supplied fragmentAllocatorConfig s call.fragmentOffers
  inRegion : ∀ o ∈ call.fragmentOffers, ∀ p memory, o.1.fresh = some (p, memory) →
    r.start ≤ memory ∧ memory + o.2 ≤ r.wrapperStart

/-- A trace that is taken back is at most a page long, stubs and block states fit into new slabs, and the sizes of blocks can
be packed. -/
structure FindCall.Undoable (s : TranslatorState ι κ) : Prop extends FindCall.Snug r call s.fragment where
  packed : ∀ size ∈ call.sizes, 0 < size ∧ size < 2 ^ 16
  discard_le : call.discards = true → call.numBytes ≤ pageSize
  stub_le : call.stubSize ≤ pageSize
  state_le : type.size ≠ 0 → type.size + max type.align blockAllocatorConfig.minAlign ≤ pageSize
  stubs : Supplied stubAllocatorConfig s.stub call.stubOffers
  blocks : Supplied blockAllocatorConfig s.block (call.blockOffers type)

/-- There is memory for every slab that may be needed, and fuel for the lists of slabs. -/
structure FindCall.Provided (fuel : Nat) (s : TranslatorState ι κ) : Prop where
  offered : ∀ o ∈ call.fragmentOffers ++ call.stubOffers ++ call.blockOffers type, o.1.fresh ≠ none
  fragment_lt : s.fragment.made.length + 4 < fuel
  stub_lt : s.stub.made.length + 2 < fuel
  block_lt : s.block.made.length + call.sizes.length + 1 < fuel

inductive FindRun [DecidableEq ι] [DecidableEq κ] (Meets : FindCall ι κ → TranslatorState ι κ → Prop) :
    TranslatorState ι κ → Prop where
  | init : FindRun Meets .init
  | call {s s' : TranslatorState ι κ} {fuel : Nat} (call : FindCall ι κ) : FindRun Meets s → Meets call s →
      find r type fuel call s = .ok s' → FindRun Meets s'

end Conditions

/-! ## Taking a trace back -/

/-- No assertion failed: there was no memory, or a loop has not ended yet. -/
def TranslatorAbort.Starved : TranslatorAbort → Prop
  | .fragment abort | .stub abort | .block abort => abort = .fault ∨ abort = .running
  | .locator _ => False

def Padded (a b : BumpPointerSlab) : Prop :=
  b.memory = a.memory ∧ b.size = a.size ∧
    (b.index = a.index ∨ 0 < a.index ∧ (b.index = a.index + alignTo (a.memory + a.index) bbAlign ∨ b.index = a.size))

/-- The same traces are stored, the same memory is live, and the fragment slabs are as before, except for padding and a
locator without entries. -/
structure Restored {ι κ : Type} (s s' : TranslatorState ι κ) : Prop where
  fragment : s'.fragment.live = s.fragment.live
  stub : s'.stub.live = s.stub.live
  block : s'.block.live = s.block.live
  slabs : ∀ q ∈ s.fragment.made, Padded (s.fragment.slabs q) (s'.fragment.slabs q)
  curr : ∀ i l, Linked.Chain (nextOf s.fragment.slabs) (s.fragment.allocator i).curr l →
    Linked.Chain (nextOf s'.fragment.slabs) (s'.fragment.allocator i).curr l
  locators : ∀ p < s.table.made, s'.table.locators p = s.table.locators p
  slots : ∀ k, s'.table.slots k = s.table.slots k ∨
    s.table.slots k = none ∧ ∃ p, s'.table.slots k = some p ∧ (s'.table.locators p).fragments = []

end Granary.Fragments
