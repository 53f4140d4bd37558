import Granary.Watchpoints.Address
import Mathlib.Logic.Function.Basic

/-!
# Descriptors of the leak detector

`leak_detector_descriptor` of `leak_detector/descriptor.cc`. Descriptors are found through a table of pointers. Free ones are
in lists, one for each CPU, that run through the storage of the descriptors. Calls are atomic. The memory of watched objects
is apart from all of this, so that `free`, which zeroes it, is without that here. So are `type_id` and
`num_epochs_since_last_access`, which nothing uses.
-/

namespace Granary.Watchpoints

open Function (update)

open Machine

abbrev LeakObjectState := BitVec 8

namespace LeakObjectState

def wasFreed : LeakObjectState := 1#8 <<< 1

def wasAllocatedByApp : LeakObjectState := 1#8 <<< 5

def active : LeakObjectState := 1#8 <<< 6

def reachable : LeakObjectState := 1#8 <<< 7

def isActive (s : LeakObjectState) : Bool := s.getLsbD 6

def isReachable (s : LeakObjectState) : Bool := s.getLsbD 7

end LeakObjectState

/-- `union_` is the storage that `size` and `base_address` share with `index` and `next_free`. -/
structure LeakDescriptor where
  accessedInLastEpoch : Bool
  state : LeakObjectState
  union_ : BitVec 128
deriving DecidableEq

namespace LeakDescriptor

def zero : LeakDescriptor := { accessedInLastEpoch := false, state := 0, union_ := 0 }

variable (d : LeakDescriptor)

def size : BitVec 16 := BitField.get 0 16 d.union_

def baseAddress : BitVec 48 := BitField.get 64 48 d.union_

def index : BitVec 32 := BitField.get 0 32 d.union_

def nextFree : Word := BitField.get 64 64 d.union_

def setSize (size : BitVec 16) : LeakDescriptor := { d with union_ := BitField.put 0 size d.union_ }

def setBaseAddress (base : BitVec 48) : LeakDescriptor := { d with union_ := BitField.put 64 base d.union_ }

def setIndex (index : BitVec 32) : LeakDescriptor := { d with union_ := BitField.put 0 index d.union_ }

def setNextFree (next : Word) : LeakDescriptor := { d with union_ := BitField.put 64 next d.union_ }

def setState (bits : LeakObjectState) : LeakDescriptor := { d with state := d.state ||| bits }

end LeakDescriptor

inductive LeakAssert where
  /-- `counter_index <= MAX_COUNTER_INDEX` in `allocate` -/
  | counterIndex
  /-- `index < MAX_NUM_WATCHPOINTS` in `assign` and `access` -/
  | tableIndex
deriving DecidableEq, Repr

def leakCheck (site : LeakAssert) (p : Prop) [Decidable p] : Except LeakAssert Unit :=
  if p then return () else throw site

structure LeakState (Cpu : Type) where
  nextCounterIndex : Word
  freeList : Cpu → Word
  /-- the descriptors, by their addresses -/
  desc : Word → LeakDescriptor
  /-- `DESCRIPTORS` -/
  descriptors : Word → Word
  executionState : Bool

namespace LeakState

variable {Cpu : Type}

def init (desc : Word → LeakDescriptor) : LeakState Cpu where
  nextCounterIndex := 0
  freeList _ := 0
  desc := desc
  descriptors _ := 0
  executionState := false

def access (index : Word) (s : LeakState Cpu) : Except LeakAssert Word := do
  leakCheck .tableIndex (index.toNat < maxNumWatchpoints)
  return s.descriptors index

def initDesc (desc baseAddress size : Word) (s : LeakState Cpu) : LeakState Cpu :=
  { s with desc := update s.desc desc
             (((s.desc desc).setBaseAddress (baseAddress.setWidth 48)).setSize (size.setWidth 16)) }

def assign (desc index : Word) (s : LeakState Cpu) : Except LeakAssert (LeakState Cpu) := do
  leakCheck .tableIndex (index.toNat < maxNumWatchpoints)
  return { s with
    desc := update s.desc desc
      { s.desc desc with state := (s.desc desc).state ||| LeakObjectState.wasAllocatedByApp }
    descriptors := update s.descriptors index desc }

variable [DecidableEq Cpu]

def allocated (desc counterIndex : Word) (s : LeakState Cpu) :
    Except LeakAssert (LeakState Cpu × Option (Word × Word)) := do
  leakCheck .counterIndex (counterIndex ≤ maxCounterIndex)
  return ({ s with
    desc := update s.desc desc { LeakDescriptor.zero with state := LeakObjectState.active }
    executionState := true }, some (desc, counterIndex))

/-- There is no descriptor when it returns false. `fresh` is what `DESCRIPTOR_ALLOCATOR` would return. -/
def allocate (c : Cpu) (fresh : Word) (s : LeakState Cpu) : Except LeakAssert (LeakState Cpu × Option (Word × Word)) :=
  let desc := s.freeList c
  if desc ≠ 0 then
    allocated desc ((s.desc desc).index.setWidth 64)
      { s with freeList := update s.freeList c (s.desc desc).nextFree }
  else
    -- `next_counter_index`
    let counterIndex := s.nextCounterIndex
    let s := { s with nextCounterIndex := s.nextCounterIndex + 1 }
    if maxCounterIndex < counterIndex then return (s, none)
    else allocated fresh counterIndex s

/-- `descState` is not initialised, apart from the two flags that are set. -/
def free (kernel : Bool) (c : Cpu) (desc index : Word) (descState : LeakObjectState) (s : LeakState Cpu) : LeakState Cpu :=
  if isValidAddress kernel desc then
    let descState := (descState ||| LeakObjectState.wasFreed) &&& ~~~LeakObjectState.active
    let d := ((LeakDescriptor.zero.setIndex (index.setWidth 32)).setState descState).setNextFree (s.freeList c)
    { s with
      desc := update s.desc desc d
      freeList := update s.freeList c desc }
  else s

end LeakState

/-! ## Runs -/

inductive LeakStatus where
  | unused
  | live (index : Word) (assigned : Bool)
  | freed (index : Word)

def LeakStatus.index? : LeakStatus → Option Word
  | unused => none
  | live index _ => some index
  | freed index => some index

structure LeakSystem (Cpu : Type) where
  state : LeakState Cpu
  status : Word → LeakStatus

def LeakSystem.init {Cpu : Type} (desc : Word → LeakDescriptor) : LeakSystem Cpu where
  state := LeakState.init desc
  status _ := .unused

section Runs

variable (kernel : Bool) {Cpu : Type} [DecidableEq Cpu]

def LeakSystem.Fresh (s : LeakSystem Cpu) (desc : Word) : Prop :=
  desc ≠ 0 ∧ isValidAddress kernel desc = true ∧ (s.status desc).index? = none

/-- A call that returns, and how many are calls of `allocate`. Descriptors are initialised, assigned and freed while in use.
-/
inductive LeakStep : LeakSystem Cpu → LeakSystem Cpu → Nat → Prop where
  | allocate {s} (c : Cpu) (fresh : Word) (state : LeakState Cpu) (desc index : Word) : s.Fresh kernel fresh →
      s.state.allocate c fresh = .ok (state, some (desc, index)) →
      LeakStep s { state, status := update s.status desc (.live index false) } 1
  | allocateFails {s} (c : Cpu) (fresh : Word) (state : LeakState Cpu) : s.Fresh kernel fresh →
      s.state.allocate c fresh = .ok (state, none) → LeakStep s { s with state } 1
  | init {s} (desc index baseAddress size : Word) (assigned : Bool) : s.status desc = .live index assigned →
      LeakStep s { s with state := s.state.initDesc desc baseAddress size } 0
  | assign {s} (desc index : Word) (assigned : Bool) (state : LeakState Cpu) : s.status desc = .live index assigned →
      s.state.assign desc index = .ok state →
      LeakStep s { state, status := update s.status desc (.live index true) } 0
  | free {s} (c : Cpu) (desc index : Word) (assigned : Bool) (descState : LeakObjectState) :
      s.status desc = .live index assigned →
      LeakStep s { state := s.state.free kernel c desc index descState
                   status := update s.status desc (.freed index) } 0

/-- Reached with this many calls of `allocate`. -/
inductive LeakReachable : LeakSystem Cpu → Nat → Prop where
  | init (desc : Word → LeakDescriptor) : LeakReachable (.init desc) 0
  | step {s s' n k} : LeakReachable s n → LeakStep kernel s s' k → LeakReachable s' (n + k)

/-- Descriptors in use have indices of their own, and those that are assigned are found at them. -/
structure GoodTable (s : LeakSystem Cpu) : Prop where
  index_le : ∀ d i a, s.status d = .live i a → i ≤ maxCounterIndex
  index_inj : ∀ d d' i a a', s.status d = .live i a → s.status d' = .live i a' → d = d'
  access : ∀ d i, s.status d = .live i true → s.state.access i = .ok d

/-- An allocation returns, and a descriptor that it reuses has the index it was freed with. -/
def GoodReuse (s : LeakSystem Cpu) : Prop :=
  ∀ c fresh, s.Fresh kernel fresh → ∃ state result, s.state.allocate c fresh = .ok (state, result) ∧
    ∀ desc index, result = some (desc, index) → ∀ i, s.status desc = .freed i → index = i

end Runs

end Granary.Watchpoints
