import Granary.Lib.Bisect
import Granary.Memory.Exec
import Mathlib.Algebra.Ring.Nat

/-!
# Finding the basic block of a code cache address

`granary/basic_block_info.cc`. Each page of the code cache has a slot in `FRAGMENT_SLABS` for a locator, which records
the traces of the page in the order in which they were stored. The pages that one trace covers share a locator.
-/

namespace Granary.Fragments

open Bisect Memory

def bbAlign : Nat := if fragmentAllocatorConfig.minAlign = 1 then 16 else fragmentAllocatorConfig.minAlign

def maxBbsPerSlab : Nat := fragmentAllocatorConfig.slabSize / bbAlign + 1

/-! ## Traces -/

/-- `num_bytes` is a `uint16_t`. -/
structure BasicBlockInfo where
  startPc : Nat
  numBytes : Nat
deriving DecidableEq, Repr

/-- `num_blocks` is the length of `info`. -/
structure TraceInfo where
  startPc : Nat
  numBytes : Nat
  info : List BasicBlockInfo
deriving DecidableEq, Repr

/-- Where a trace starts, and the sizes of its blocks, which follow each other. -/
structure EmittedTrace where
  startPc : Nat
  sizes : List Nat
deriving DecidableEq, Repr

namespace EmittedTrace

def size (t : EmittedTrace) : Nat := t.sizes.sum

def blocksFrom : Nat → List Nat → List (Nat × Nat)
  | _, [] => []
  | pc, size :: sizes => (pc, size) :: blocksFrom (pc + size) sizes

def blocks (t : EmittedTrace) : List (Nat × Nat) := blocksFrom t.startPc t.sizes

/-- What `basic_block::translate` records of a trace. -/
def traceInfo (t : EmittedTrace) : TraceInfo :=
  { startPc := t.startPc
    numBytes := t.size % 2 ^ 32
    info := t.blocks.map fun b => { startPc := b.1, numBytes := b.2 % 2 ^ 16 } }

end EmittedTrace

/-! ## Locators -/

/-- The assertions of `basic_block_info.cc`, in source order. -/
inductive LocatorAssert where
  | blockInTrace
  | slotEmpty
  | traceHasBlocks
  | roomLeft
  | findLocator
  | findInfo
  | findStart
  | findEnd
  | removeLocator
  | removeIndex
  | removeBlock
  | removeStart
deriving DecidableEq, Repr

inductive LocatorAbort where
  | outOfBounds
  | assertion (site : LocatorAssert)
deriving DecidableEq, Repr

def check (site : LocatorAssert) (p : Prop) [Decidable p] : Except LocatorAbort Unit :=
  if p then return () else throw (.assertion site)

inductive GenericInfoPtr where
  | block (info : BasicBlockInfo)
  | trace (info : TraceInfo)
deriving DecidableEq, Repr

namespace GenericInfoPtr

def startPc : GenericInfoPtr → Nat
  | block info => info.startPc
  | trace info => info.startPc

def endPc : GenericInfoPtr → Nat
  | block info => info.startPc + info.numBytes
  | trace info => info.startPc + info.numBytes

def getBlock (cachePc : Nat) : GenericInfoPtr → Except LocatorAbort BasicBlockInfo
  | block info => return info
  | trace info =>
    match info.info.find? fun b => b.startPc ≤ cachePc ∧ cachePc < b.startPc + b.numBytes with
    | some b => return b
    | none => throw (.assertion .blockInTrace)

end GenericInfoPtr

def searchBasicBlockInfo (array : List GenericInfoPtr) (cachePc : Nat) : Except LocatorAbort (Option BasicBlockInfo) :=
  if array.length = 0 then return none
  else
    match bisect GenericInfoPtr.startPc GenericInfoPtr.endPc array cachePc 0 (array.length - 1) with
    | none => return none
    | some info => some <$> info.getBlock cachePc

/-- The fragments below `next_index`. -/
structure FragmentLocator where
  fragments : List GenericInfoPtr
deriving DecidableEq, Repr

def FragmentLocator.nextIndex (l : FragmentLocator) : Nat := l.fragments.length

/-- `FRAGMENT_SLABS` with the locators it points to, of which `made` are numbered and never freed. -/
structure LocatorTable where
  slots : Nat → Option Nat
  locators : Nat → FragmentLocator
  made : Nat

def LocatorTable.init : LocatorTable := { slots := fun _ => none, locators := fun _ => ⟨[]⟩, made := 0 }

namespace LocatorTable

def setLocator (s : LocatorTable) (p : Nat) (l : FragmentLocator) : LocatorTable :=
  { s with locators := Function.update s.locators p l }

def setSlot (s : LocatorTable) (slab : Nat) (p : Nat) : LocatorTable :=
  { s with slots := Function.update s.slots slab (some p) }

/-- `allocate_memory<fragment_locator>()`. -/
def newLocator (s : LocatorTable) : LocatorTable := { s.setLocator s.made ⟨[]⟩ with made := s.made + 1 }

end LocatorTable

/-- Accesses to `FRAGMENT_SLABS` stay inside of the array. -/
def inBounds (slab : Nat) : Except LocatorAbort Unit :=
  if slab < maxNumFragmentSlabs then return () else throw .outOfBounds

/-! ## Storing -/

def ensureLocator (s : LocatorTable) (slab : Nat) : Nat × LocatorTable :=
  match s.slots slab with
  | some p => (p, s)
  | none => (s.made, s.newLocator.setSlot slab s.made)

/-- Give `count` slots from `next` on the same locator. -/
def spanSlabs (p : Nat) : Nat → Nat → LocatorTable → Except LocatorAbort LocatorTable
  | 0, _, s => return s
  | count + 1, next, s => do
      inBounds next
      check .slotEmpty (s.slots next = none)
      spanSlabs p count (next + 1) (s.setSlot next p)

def TraceInfo.entry (trace : TraceInfo) : GenericInfoPtr :=
  match trace.info with
  | [info] => .block info
  | _ => .trace trace

def endSlab (r : ExecRegion) (trace : TraceInfo) : Nat :=
  r.findFragmentSlab ((trace.startPc + trace.numBytes + 2 ^ 64 - 1) % 2 ^ 64)

/-- The rest of `store_trace_meta_info`, once the locator of the first slot is known. -/
def recordTrace (r : ExecRegion) (s : LocatorTable) (p : Nat) (trace : TraceInfo) :
    Except LocatorAbort LocatorTable := do
  let slab := r.findFragmentSlab trace.startPc
  let s ← spanSlabs p (endSlab r trace - slab) (slab + 1) s
  check .traceHasBlocks (0 < trace.info.length)
  check .roomLeft ((s.locators p).nextIndex < maxBbsPerSlab)
  return s.setLocator p ⟨(s.locators p).fragments ++ [trace.entry]⟩

def storeTraceMetaInfo (r : ExecRegion) (s : LocatorTable) (trace : TraceInfo) : Except LocatorAbort LocatorTable := do
  let slab := r.findFragmentSlab trace.startPc
  inBounds slab
  let (p, s) := ensureLocator s slab
  recordTrace r s p trace

/-! ## Finding and removing -/

def findBasicBlockInfo (r : ExecRegion) (s : LocatorTable) (cachePc : Nat) : Except LocatorAbort BasicBlockInfo := do
  let slab := r.findFragmentSlab cachePc
  inBounds slab
  match s.slots slab with
  | none => throw (.assertion .findLocator)
  | some p =>
    match ← searchBasicBlockInfo (s.locators p).fragments cachePc with
    | none => throw (.assertion .findInfo)
    | some info =>
      check .findStart (info.startPc ≤ cachePc)
      check .findEnd (cachePc < info.startPc + info.numBytes)
      return info

def removeBasicBlockInfo (r : ExecRegion) (s : LocatorTable) (cachePc : Nat) : Except LocatorAbort LocatorTable := do
  let slab := r.findFragmentSlab cachePc
  inBounds slab
  match s.slots slab with
  | none => throw (.assertion .removeLocator)
  | some p =>
    match (s.locators p).fragments.getLast? with
    | none => throw (.assertion .removeIndex)
    | some (.trace _) => throw (.assertion .removeBlock)
    | some (.block info) =>
      check .removeStart (info.startPc ≤ cachePc)
      return s.setLocator p ⟨(s.locators p).fragments.dropLast⟩

/-! ## Histories -/

structure SlabRange where
  base : Nat
  size : Nat
deriving DecidableEq, Repr

/-- The slabs of all fragment allocators: whole pages of the code cache, apart from each other. -/
structure Layout (r : ExecRegion) (layout : List SlabRange) : Prop where
  base_dvd : ∀ g ∈ layout, pageSize ∣ g.base
  size_dvd : ∀ g ∈ layout, pageSize ∣ g.size
  start_le : ∀ g ∈ layout, r.start ≤ g.base
  le_wrapper : ∀ g ∈ layout, g.base + g.size ≤ r.wrapperStart
  apart : ∀ g ∈ layout, ∀ g' ∈ layout, g ≠ g' → Ranges.Apart g.base g.size g'.base g'.size

/-- A trace whose meta-information is stored, with the slab that it is in. -/
structure StoredTrace extends EmittedTrace where
  slab : SlabRange
deriving DecidableEq, Repr

/-- The next trace is in a slab, after the traces that are there. An allocation of no bytes would be a staged one. -/
structure Placed (layout : List SlabRange) (stored : List StoredTrace) (t : StoredTrace) : Prop where
  mem : t.slab ∈ layout
  base_le : t.slab.base ≤ t.startPc
  le_end : t.startPc + t.size ≤ t.slab.base + t.slab.size
  pos : 0 < t.size
  after : ∀ u ∈ stored, u.slab = t.slab → u.startPc + u.size ≤ t.startPc

/-- The locator of the first page has room, no other page of the trace has one, and the sizes of blocks can be packed. -/
structure Storable (r : ExecRegion) (s : LocatorTable) (t : EmittedTrace) : Prop where
  room : ∀ p, s.slots (r.findFragmentSlab t.startPc) = some p → (s.locators p).nextIndex < maxBbsPerSlab
  empty : ∀ i, r.findFragmentSlab t.startPc < i → i ≤ r.findFragmentSlab (t.startPc + t.size - 1) → s.slots i = none
  packed : ∀ size ∈ t.sizes, size < 2 ^ 16

/-- The states of histories, with the traces that are stored in them, the latest one first. -/
inductive LocatorRun (r : ExecRegion) (layout : List SlabRange) : LocatorTable → List StoredTrace → Prop where
  | init : LocatorRun r layout .init []
  | store {s s' stored} (t : StoredTrace) : LocatorRun r layout s stored → Placed layout stored t →
      Storable r s t.toEmittedTrace → storeTraceMetaInfo r s t.traceInfo = .ok s' →
      LocatorRun r layout s' (t :: stored)
  | remove {s s' stored} (t : StoredTrace) : LocatorRun r layout s (t :: stored) → t.sizes.length = 1 →
      removeBasicBlockInfo r s t.startPc = .ok s' → LocatorRun r layout s' stored

def LocatorTable.Finds (s : LocatorTable) (r : ExecRegion) (stored : List StoredTrace) : Prop :=
  ∀ t ∈ stored, ∀ b ∈ t.blocks, ∀ pc, b.1 ≤ pc → pc < b.1 + b.2 →
    findBasicBlockInfo r s pc = .ok { startPc := b.1, numBytes := b.2 }

end Granary.Fragments
