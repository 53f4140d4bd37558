import Granary.Memory.Heap
import Granary.Tables.Slots

/-!
# The open-addressed hash table

`granary/hash_table.h` and `granary/hash_table.cc`: `hash_table`, with its `find`, `load`, `store` and
`for_each_entry`, and `hash_set` on top of it. Slots come from `global_allocate`, which faults when the heap cannot
serve them.
-/

namespace Granary

open Probing Memory

/-! ## Sizes -/

/-- `load_for`: three quarters of a size. The product with `LOAD_FACTOR` is exact in a `double`. -/
def loadFor (size : Nat) : Nat := size * 3 / 4

def hashTableMaxSizes : List Nat := (List.range 32).map fun i => loadFor (1 <<< i)

def defaultScaleFactor : Nat := 4

def maxScanScaleFactor : Nat := 16

/-- The hash of the keys, the all-zero key, and the sizes in bytes of an entry and of `hash_table_entry_slots`, which ends in
one entry. -/
structure HashTableMeta (K V : Type) where
  hash : K → UInt32
  defaultKey : K
  sizeofEntry : Nat
  sizeofSlots : Nat
  two_le_entry : 2 ≤ sizeofEntry
  entry_lt_slots : sizeofEntry + 4 ≤ sizeofSlots
  slots_lt : sizeofSlots + 2 ^ 32 * sizeofEntry < 2 ^ 64

/-- Why a call does not return: the heap faulted, it read past `HASH_TABLE_MAX_SIZES`, or it loops forever. -/
inductive TableAbort where
  | fault
  | outOfBounds
  | diverges
deriving DecidableEq, Repr

variable {K V : Type} [DecidableEq K] [Inhabited V]

def HashTableMeta.home (M : HashTableMeta K V) (key : K) : Nat := (M.hash key).toNat

/-- `new_trailing_vla` (`granary/utils.h`), with the mask that both callers set. The memory is zeroed, so every key is the
default key. -/
def newTrailingVla (M : HashTableMeta K V) (room : HeapRoom) (arraySize : Nat) : Except TableAbort (SlotArray K V) :=
  let last := (arraySize + 2 ^ 32 - 1) % 2 ^ 32
  if room.serves (M.sizeofSlots + last * M.sizeofEntry) then
    .ok (SlotArray.replicate last ⟨M.defaultKey, default⟩)
  else .error .fault

structure HashTable (K V : Type) where
  numEntries : Nat
  scalingFactor : Nat
  entrySlots : SlotArray K V
  growing : Bool
deriving DecidableEq

namespace HashTable

def new (M : HashTableMeta K V) (room : HeapRoom) : Except TableAbort (HashTable K V) := do
  let slots ← newTrailingVla M room (1 <<< defaultScaleFactor)
  return { numEntries := 0, scalingFactor := defaultScaleFactor, entrySlots := slots, growing := false }

/-- `grow`. Both callers set `growing_` around it, so its insertions do not grow the table again. -/
def grow (M : HashTableMeta K V) (room : HeapRoom) (t : HashTable K V) : Except TableAbort (HashTable K V) := do
  let numOldSlots := (t.entrySlots.mask + 1) % 2 ^ 32
  let numNewSlots := (numOldSlots * 2) % 2 ^ 32
  let newSlots ← newTrailingVla M room numNewSlots
  match rehash M.home M.defaultKey (newSlots.mask + 1) (t.entrySlots.entries.take numOldSlots) newSlots with
  | none => throw .diverges
  | some (slots, _) => return { t with scalingFactor := t.scalingFactor + 1, entrySlots := slots }

def growOnce (M : HashTableMeta K V) (room : HeapRoom) (t : HashTable K V) : Except TableAbort (HashTable K V) := do
  let t ← grow M room { t with growing := true }
  return { t with growing := false }

def insert (M : HashTableMeta K V) (room : HeapRoom) (t : HashTable K V) (key : K) (value : V) (update : Bool) :
    Except TableAbort (HashTable K V × HashStoreState) :=
  match insertSlots M.home M.defaultKey (t.entrySlots.mask + 1) t.entrySlots key value update with
  | none => throw .diverges
  | some (slots, state, scan) => do
      let t := { t with entrySlots := slots }
      -- resize if we needed to scan too far to insert this element
      if maxScanScaleFactor < scan ∧ t.growing = false then
        let t ← growOnce M room t
        return (t, state)
      else return (t, state)

/-- The check at the start of `store`. -/
def growIfLoaded (M : HashTableMeta K V) (room : HeapRoom) (t : HashTable K V) (maxNumEntries : Nat) :
    Except TableAbort (HashTable K V) :=
  if maxNumEntries < t.numEntries then growOnce M room t else return t

/-- `store`. The two growths it can make ask the heap at different times, hence two rooms. -/
def store (M : HashTableMeta K V) (room room' : HeapRoom) (t : HashTable K V) (key : K) (value : V)
    (policy : HashStorePolicy) : Except TableAbort (HashTable K V × Bool) :=
  match hashTableMaxSizes[t.scalingFactor]? with
  | none => throw .outOfBounds
  | some maxNumEntries => do
      let t ← growIfLoaded M room t maxNumEntries
      let (t, state) ← insert M room' t key value (policy = .overwritePrevEntry)
      if state = .storedNew then return ({ t with numEntries := (t.numEntries + 1) % 2 ^ 32 }, true)
      else return (t, state ≠ .skipped)

def find (M : HashTableMeta K V) (t : HashTable K V) (key : K) : Except TableAbort V :=
  match probe M.defaultKey key t.entrySlots (t.entrySlots.mask + 1) (M.home key) 0 with
  | none => throw .diverges
  | some (i, _) =>
    if M.defaultKey = (t.entrySlots.slot i).key then return default else return (t.entrySlots.slot i).value

/-- The arguments of the callback of `for_each_entry`, in the order of its calls. -/
def forEachEntry (M : HashTableMeta K V) (t : HashTable K V) : List (K × V) :=
  let numSlots := (t.entrySlots.mask + 1) % 2 ^ 32
  ((t.entrySlots.entries.take numSlots).filter fun x => M.defaultKey ≠ x.key).map fun x => (x.key, x.value)

end HashTable

/-! ## Runs -/

/-- One call of `store`, with what the heap can serve while it runs. -/
structure StoreCall (K V : Type) where
  key : K
  value : V
  policy : HashStorePolicy
  room : HeapRoom
  room' : HeapRoom

def HashTable.stores (M : HashTableMeta K V) :
    List (StoreCall K V) → HashTable K V → Except TableAbort (HashTable K V × List Bool)
  | [], t => return (t, [])
  | c :: cs, t => do
      let (t, r) ← t.store M c.room c.room' c.key c.value c.policy
      let (t, rs) ← HashTable.stores M cs t
      return (t, r :: rs)

def HashTable.run (M : HashTableMeta K V) (room : HeapRoom) (calls : List (StoreCall K V)) :
    Except TableAbort (HashTable K V × List Bool) := do
  let t ← HashTable.new M room
  t.stores M calls

/-! ## `hash_set` -/

inductive SetOp (K : Type) where
  | add (key : K)
  | remove (key : K)

def SetOp.key : SetOp K → K
  | .add k => k
  | .remove k => k

/-- `add` and `remove` store `true` and `false`, with the default policy. -/
def SetOp.toStore : SetOp K → HeapRoom → HeapRoom → StoreCall K Bool
  | .add k, room, room' => ⟨k, true, .overwritePrevEntry, room, room'⟩
  | .remove k, room, room' => ⟨k, false, .overwritePrevEntry, room, room'⟩

def HashSet.run (M : HashTableMeta K Bool) (room : HeapRoom) (ops : List (SetOp K × HeapRoom × HeapRoom)) :
    Except TableAbort (HashTable K Bool) := do
  let (t, _) ← HashTable.run M room (ops.map fun o => o.1.toStore o.2.1 o.2.2)
  return t

def HashSet.contains (M : HashTableMeta K Bool) (t : HashTable K Bool) (key : K) : Except TableAbort Bool :=
  t.find M key

/-! ## The finite map a table stands for -/

def StoreCall.apply (c : StoreCall K V) (m : K → Option V) : K → Option V :=
  if c.policy = .overwritePrevEntry ∨ m c.key = none then Function.update m c.key (some c.value) else m

def StoreCall.writes (c : StoreCall K V) (m : K → Option V) : Bool :=
  c.policy = .overwritePrevEntry ∨ m c.key = none

def specStores : List (StoreCall K V) → (K → Option V) → (K → Option V)
  | [], m => m
  | c :: cs, m => specStores cs (c.apply m)

def specResults : List (StoreCall K V) → (K → Option V) → List Bool
  | [], _ => []
  | c :: cs, m => c.writes m :: specResults cs (c.apply m)

def specSet : List (SetOp K) → Finset K → Finset K
  | [], s => s
  | .add k :: ops, s => specSet ops (insert k s)
  | .remove k :: ops, s => specSet ops (s.erase k)

end Granary
