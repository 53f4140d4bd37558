import Granary.Lib.Chain
import Granary.Watchpoints.Address

/-!
# Bounds descriptors

`bound_descriptor::allocate` and `free`. Descriptors are entries of a table, and free ones are in lists, one for each CPU,
that run through the descriptors themselves. Calls are atomic.
-/

namespace Granary.Watchpoints

open Function (update)

open Machine

/-- Where the entries of `DESCRIPTORS` are, which are 16 bytes each. They are valid addresses. -/
structure DescriptorTable (kernel : Bool) where
  base : Word
  fits : base.toNat + 16 * maxNumWatchpoints ≤ 2 ^ 64
  valid : ∀ i : Word, i.toNat < maxNumWatchpoints → isValidAddress kernel (base + 16 * i) = true

inductive BoundAssert where
  /-- `counter_index <= MAX_COUNTER_INDEX` -/
  | maxCounterIndex
  /-- `counter_index <= MAX_NUM_WATCHPOINTS` -/
  | maxNumWatchpoints
  /-- `index < MAX_NUM_WATCHPOINTS` in `access` -/
  | accessIndex
  /-- `is_valid_address(desc)` in `free` -/
  | freeAddress
  /-- `index == index_of(desc)` in `free` -/
  | freeIndex
  /-- `(low_32 + size) > descriptor->upper_bound` in `visit_overflow` -/
  | upperBound
deriving DecidableEq, Repr

def boundCheck (site : BoundAssert) (p : Prop) [Decidable p] : Except BoundAssert Unit :=
  if p then return () else throw site

structure BoundState (Cpu : Type) where
  nextCounterIndex : Word
  freeList : Cpu → Word
  /-- the union of `return_address` and `next_free_descriptor`, at the address of its descriptor -/
  link : Word → Word

namespace DescriptorTable

variable {kernel : Bool} (T : DescriptorTable kernel)

def entry (index : Word) : Word := T.base + 16 * index

def indexOf (desc : Word) : Word := (desc - T.base).sshiftRight 4

def access (index : Word) : Except BoundAssert Word := do
  boundCheck .accessIndex (index.toNat < maxNumWatchpoints)
  return T.entry index

variable {Cpu : Type} [DecidableEq Cpu]

def allocate (c : Cpu) (s : BoundState Cpu) : Except BoundAssert (BoundState Cpu × Option (Word × Word)) :=
  let desc := s.freeList c
  if desc ≠ 0 then do
    let s := { s with freeList := update s.freeList c (s.link desc) }
    let counterIndex := T.indexOf desc
    boundCheck .maxCounterIndex (counterIndex ≤ maxCounterIndex)
    boundCheck .maxNumWatchpoints (counterIndex.toNat ≤ maxNumWatchpoints)
    return (s, some (desc, counterIndex))
  else
    -- `next_counter_index`
    let counterIndex := s.nextCounterIndex
    let s := { s with nextCounterIndex := s.nextCounterIndex + 1 }
    if maxNumWatchpoints < counterIndex.toNat then return (s, none)
    else do
      boundCheck .maxCounterIndex (counterIndex ≤ maxCounterIndex)
      boundCheck .maxNumWatchpoints (counterIndex.toNat ≤ maxNumWatchpoints)
      return (s, some (T.entry counterIndex, counterIndex))

def free (c : Cpu) (desc index : Word) (s : BoundState Cpu) : Except BoundAssert (BoundState Cpu) := do
  boundCheck .freeAddress (isValidAddress kernel desc = true)
  boundCheck .freeIndex (index = T.indexOf desc)
  return { s with
    link := update s.link desc (s.freeList c)
    freeList := update s.freeList c desc }

end DescriptorTable

/-! ## Runs -/

structure BoundSystem (Cpu : Type) where
  state : BoundState Cpu
  live : Word → Option Word

def BoundSystem.init {Cpu : Type} (link : Word → Word) : BoundSystem Cpu where
  state := { nextCounterIndex := 0, freeList := fun _ => 0, link }
  live _ := none

section Runs

variable {kernel : Bool} (T : DescriptorTable kernel) {Cpu : Type} [DecidableEq Cpu]

/-- A call that returns. Only descriptors that are in use are written to or freed. -/
inductive BoundStep : BoundSystem Cpu → BoundSystem Cpu → Prop where
  | allocate {s} (c : Cpu) (state : BoundState Cpu) (desc index : Word) :
      T.allocate c s.state = .ok (state, some (desc, index)) →
      BoundStep s { state, live := update s.live index (some desc) }
  | allocateFails {s} (c : Cpu) (state : BoundState Cpu) : T.allocate c s.state = .ok (state, none) →
      BoundStep s { s with state }
  /-- `desc->return_address = ret_address` in `allocate_and_init` -/
  | setReturnAddress {s} (desc index retAddress : Word) : s.live index = some desc →
      BoundStep s { s with state := { s.state with link := update s.state.link desc retAddress } }
  | free {s} (c : Cpu) (desc index : Word) (state : BoundState Cpu) : s.live index = some desc →
      T.free c desc index s.state = .ok state →
      BoundStep s { state, live := update s.live index none }

inductive BoundReachable : BoundSystem Cpu → Prop where
  | init (link : Word → Word) : BoundReachable (.init link)
  | step {s s'} : BoundReachable s → BoundStep T s s' → BoundReachable s'

/-- A descriptor that is not in use at its own place in the table, or nothing if all of them have been handed out. -/
def GoodAllocate (c : Cpu) (s : BoundSystem Cpu) : Prop :=
  (∃ state desc index, T.allocate c s.state = .ok (state, some (desc, index)) ∧ index.toNat < maxNumWatchpoints ∧
    s.live index = none ∧ T.access index = .ok desc) ∨
  ∃ state, T.allocate c s.state = .ok (state, none) ∧ s.state.freeList c = 0 ∧
    maxNumWatchpoints ≤ s.state.nextCounterIndex.toNat

end Runs

end Granary.Watchpoints
