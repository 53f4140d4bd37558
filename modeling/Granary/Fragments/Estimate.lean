import Granary.Fragments.Translate
import Granary.Instructions.Align

/-!
# Estimating where a trace will be

`basic_block::translate` aligns the instructions of a trace before it allocates memory for it. It looks at the address of
a staged allocation instead, after it made sure that the biggest trace would fit.
-/

namespace Granary.Fragments

open Memory

section Operations

variable {ι κ : Type} [DecidableEq ι] (fuel : Nat) (call : FindCall ι κ)

def estimateTrace (s : BumpState ι) : Except BumpAbort (Nat × Nat × BumpState ι) := do
  let (_, s) ←
    allocateArray fragmentAllocatorConfig fuel (call.env .fragmentMax) s call.fragmentAllocator 1 1 call.traceMaxSize
  let s ← freeLast fragmentAllocatorConfig fuel (call.env .fragmentFree) s call.fragmentAllocator .keepSlab
  let (estimatorAddr, s) ←
    allocateStaged fragmentAllocatorConfig fuel (call.env .fragmentEstimate) s call.fragmentAllocator
  let (startPc, s) ←
    allocateArray fragmentAllocatorConfig fuel (call.env .fragmentTrace) s call.fragmentAllocator 1 1 call.numBytes
  return (estimatorAddr, startPc, s)

/-- The states that fragment allocators can get to. Memory that is allocated may be written. -/
inductive FragmentRun : BumpState ι → Prop where
  | init : FragmentRun .init
  | allocateArray {s s' : BumpState ι} {fuel : Nat} {env : BumpEnv} {i : ι} {length addr : Nat} : FragmentRun s →
      length < 2 ^ 32 → s.Fresh fragmentAllocatorConfig env (slabSizeFor fragmentAllocatorConfig length) →
      Memory.allocateArray fragmentAllocatorConfig fuel env s i 1 1 length = .ok (addr, s') → FragmentRun s'
  | allocateStaged {s s' : BumpState ι} {fuel : Nat} {env : BumpEnv} {i : ι} {addr : Nat} : FragmentRun s →
      s.Fresh fragmentAllocatorConfig env (slabSizeFor fragmentAllocatorConfig 0) →
      Memory.allocateStaged fragmentAllocatorConfig fuel env s i = .ok (addr, s') → FragmentRun s'
  | freeLast {s s' : BumpState ι} {fuel : Nat} {env : BumpEnv} {i : ι} {hint : FreeMemoryHint} : FragmentRun s →
      Memory.freeLast fragmentAllocatorConfig fuel env s i hint = .ok s' → FragmentRun s'
  | write {s : BumpState ι} {i : ι} {b : LiveAllocation} {addr : Nat} {value : UInt8} : FragmentRun s → b ∈ s.live i →
      b.addr ≤ addr → addr < b.addr + b.size → FragmentRun (s.memset addr value 1)

/-- The trace gets its memory, at the same place in a cache line as was estimated. -/
def EstimateMatches (s : BumpState ι) : Prop :=
  ∃ estimatorAddr startPc s', estimateTrace fuel call s = .ok (estimatorAddr, startPc, s') ∧
    estimatorAddr % Instructions.cacheLineSize = startPc % Instructions.cacheLineSize ∧
    ∃ L, s'.WellFormed L ∧ ∃ b ∈ s'.live call.fragmentAllocator, b.addr = startPc ∧ b.size = call.numBytes

end Operations

end Granary.Fragments
