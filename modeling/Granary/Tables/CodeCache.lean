import Granary.Memory.Heap
import Granary.Tables.Slots

/-!
# The CPU-private code cache and the detach tables

`granary/cpu_code_cache.cc` and `granary/detach.cc`. The loops take fuel, and a call whose fuel runs out has not
returned yet. The mixing function is a parameter; `fmix` is the one the code uses.
-/

namespace Granary

open Probing Memory

abbrev AppPc := UInt64

def maxScan : Nat := 8

def minDefaultEntries : Nat := 128

def fmix (k : UInt64) : UInt64 :=
  let k := k ^^^ (k >>> 33)
  let k := k * 0xff51afd7ed558ccd
  let k := k ^^^ (k >>> 33)
  let k := k * 0xc4ceb9fe1a85ec53
  k ^^^ (k >>> 33)

abbrev homeOf (mix : UInt64 → UInt64) (k : AppPc) : Nat := (mix k).toNat

inductive CacheAbort where
  | fault
  | running
deriving DecidableEq, Repr

/-- The entries are allocated by the first `store`, and `bit_mask` is their mask. -/
structure CpuPrivateCodeCache where
  entries : Option (SlotArray AppPc AppPc)
  growing : Bool
deriving DecidableEq

namespace CpuPrivateCodeCache

/-- A zeroed `cpu_state` or `static_data`. -/
def init : CpuPrivateCodeCache := { entries := none, growing := false }

/-- `allocate_memory<cpu_private_code_cache_entry>(num)`: zeroed entries of 16 bytes. The size is an `unsigned`. -/
def allocateEntries (room : HeapRoom) (num : Nat) : Except CacheAbort (SlotArray AppPc AppPc) :=
  if room.serves (16 * num % 2 ^ 32) then return SlotArray.replicate (num - 1) ⟨0, 0⟩ else throw .fault

def grow (mix : UInt64 → UInt64) (fuel : Nat) (room : HeapRoom) (old : SlotArray AppPc AppPc) :
    Except CacheAbort (SlotArray AppPc AppPc) := do
  let oldNumEntries := old.mask + 1
  let newNumEntries := oldNumEntries <<< 1
  let entries ← allocateEntries room newNumEntries
  match rehash (homeOf mix) 0 fuel old.entries entries with
  | none => throw .running
  | some (entries, _) => return entries

/-- `insert`. The insertions of `grow` do not grow the table again. -/
def insert (mix : UInt64 → UInt64) (fuel : Nat) (room : HeapRoom) (entries : SlotArray AppPc AppPc) (growing : Bool)
    (key value : AppPc) (update : Bool) : Except CacheAbort (SlotArray AppPc AppPc × HashStoreState) :=
  match insertSlots (homeOf mix) 0 fuel entries key value update with
  | none => throw .running
  | some (entries, state, scan) => do
      -- resize if we needed to scan too far to insert this element
      if maxScan < scan ∧ growing = false then
        let entries ← grow mix fuel room entries
        return (entries, state)
      else return (entries, state)

def ensureEntries (room : HeapRoom) (c : CpuPrivateCodeCache) : Except CacheAbort (SlotArray AppPc AppPc) :=
  match c.entries with
  | none => allocateEntries room minDefaultEntries
  | some entries => return entries

/-- `store`. It may ask the heap for the first entries and for a doubled table, hence two rooms. -/
def store (mix : UInt64 → UInt64) (fuel : Nat) (room room' : HeapRoom) (c : CpuPrivateCodeCache) (key value : AppPc)
    (policy : HashStorePolicy) : Except CacheAbort (CpuPrivateCodeCache × Bool) := do
  let entries ← ensureEntries room c
  let (entries, state) ← insert mix fuel room' entries c.growing key value (policy = .overwritePrevEntry)
  return ({ c with entries := some entries }, state ≠ .skipped)

/-- The loop of `find`. It looks at no more than `MAX_SCAN` slots. -/
def findSlots (mix : UInt64 → UInt64) (entries : SlotArray AppPc AppPc) (key : AppPc) : AppPc :=
  match probe 0 key entries maxScan (homeOf mix key) 0 with
  | none => 0
  | some (i, _) => if (entries.slot i).key = 0 then 0 else (entries.slot i).value

def find (mix : UInt64 → UInt64) (c : CpuPrivateCodeCache) (key : AppPc) : AppPc :=
  match c.entries with
  | none => 0
  | some entries => findSlots mix entries key

def load (mix : UInt64 → UInt64) (c : CpuPrivateCodeCache) (key : AppPc) : AppPc × Bool :=
  (c.find mix key, 0 ≠ c.find mix key)

end CpuPrivateCodeCache

/-! ## Runs -/

structure CacheCall where
  key : AppPc
  value : AppPc
  policy : HashStorePolicy
  room : HeapRoom
  room' : HeapRoom

def CacheCall.run (mix : UInt64 → UInt64) (fuel : Nat) (call : CacheCall) (c : CpuPrivateCodeCache) :
    Except CacheAbort (CpuPrivateCodeCache × Bool) :=
  c.store mix fuel call.room call.room' call.key call.value call.policy

def CacheCall.Returns (mix : UInt64 → UInt64) (call : CacheCall) (c c' : CpuPrivateCodeCache) : Prop :=
  ∃ fuel r, call.run mix fuel c = .ok (c', r)

def CacheCall.Terminates (mix : UInt64 → UInt64) (call : CacheCall) (c : CpuPrivateCodeCache) : Prop :=
  ∃ fuel, call.run mix fuel c ≠ .error .running

/-- Calls made one after the other on a new cache, all of which returned. -/
inductive CacheRun (mix : UInt64 → UInt64) : List CacheCall → CpuPrivateCodeCache → Prop where
  | nil : CacheRun mix [] .init
  | snoc {calls c c'} (call : CacheCall) : CacheRun mix calls c → call.Returns mix c c' →
      CacheRun mix (calls ++ [call]) c'

def runCalls (mix : UInt64 → UInt64) (fuel : Nat) :
    List CacheCall → CpuPrivateCodeCache → Except CacheAbort CpuPrivateCodeCache
  | [], c => return c
  | call :: calls, c => do
      let (c, _) ← call.run mix fuel c
      runCalls mix fuel calls c

def lastStored (calls : List CacheCall) (q : AppPc) : Option AppPc :=
  (calls.reverse.find? fun call => call.key = q).map CacheCall.value

def CpuPrivateCodeCache.Refines (mix : UInt64 → UInt64) (c : CpuPrivateCodeCache) (calls : List CacheCall) : Prop :=
  ∀ q, c.load mix q = match lastStored calls q with
    | none => (0, false)
    | some v => (v, true)

/-! ## Distances -/

/-- The entries the next store works on: those of the cache, or the first ones. -/
def CpuPrivateCodeCache.slots (c : CpuPrivateCodeCache) : SlotArray AppPc AppPc :=
  c.entries.getD (SlotArray.replicate (minDefaultEntries - 1) ⟨0, 0⟩)

/-- The doubled, empty table that `grow` transfers into. -/
def doubled (S : SlotArray AppPc AppPc) : SlotArray AppPc AppPc :=
  SlotArray.replicate (((S.mask + 1) <<< 1) - 1) ⟨0, 0⟩

/-- How far from their homes the keys of a table land in a doubled one. -/
def transferScans (mix : UInt64 → UInt64) (S : SlotArray AppPc AppPc) : List Nat :=
  match rehash (homeOf mix) 0 ((doubled S).mask + 1) S.entries (doubled S) with
  | none => []
  | some r => r.2

/-- The key lands fewer than `MAX_SCAN` slots from its home, or so far away that the table is doubled and every key lands so
near there. -/
def CacheCall.LandsNear (mix : UInt64 → UInt64) (call : CacheCall) (c : CpuPrivateCodeCache) : Prop :=
  match insertSlots (homeOf mix) 0 (c.slots.mask + 1) c.slots call.key call.value true with
  | none => True
  | some (S, _, scan) => scan < maxScan ∨ maxScan < scan ∧ ∀ s ∈ transferScans mix S, s < maxScan

/-! ## The detach tables -/

inductive RuntimeContext where
  | runningAsApp
  | runningAsHost
deriving DecidableEq, Repr

abbrev DetachHashTable := RuntimeContext → CpuPrivateCodeCache

/-- `find_detach_target`. In the kernel, an address that is not a host address has no detach target as app code. -/
def findDetachTarget (mix : UInt64 → UInt64) (kernel : Bool) (isHostAddress : AppPc → Bool) (tables : DetachHashTable)
    (detachAddr : AppPc) (context : RuntimeContext) : AppPc :=
  if kernel ∧ context = .runningAsApp ∧ isHostAddress detachAddr = false then 0
  else
    let r := (tables context).load mix detachAddr
    if r.2 then r.1 else 0

end Granary
