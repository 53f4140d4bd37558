import Granary.Lib.Chain
import Granary.Lib.Ranges
import Mathlib.Data.Fintype.BigOperators
import Mathlib.Data.Nat.Log

/-!
# The global heap

`granary/allocator.cc`: rounding of sizes, `global_allocate` and `global_free`. Any number of threads run these two
functions, and each access to shared memory is one step. `ENABLE_SPLITTING` is `0`, so a failed bump is a fault.
-/

namespace Granary.Memory

open Ranges

/-! ## Constants and sizes -/

def oneMB : Nat := 1048576

def heapSize : Nat := oneMB * 256

def minScale : Nat := 3

def unsignedLongNumBits : Nat := 64

def minObjectSize : Nat := 1 <<< minScale

/-- `__builtin_clzl`, for a positive 64-bit argument. -/
def clzl (x : Nat) : Nat := 63 - Nat.log2 x

def logBase2 (x : Nat) : Nat := (unsignedLongNumBits - 1) - clzl x

def nextPowerOf2 (x : Nat) : Nat := 1 <<< (unsignedLongNumBits - clzl (x - 1))

def allocationSize (size : Nat) : Nat :=
  if minObjectSize > size then minObjectSize
  else
    let highPower := nextPowerOf2 size
    let lowPower := highPower / 2
    if lowPower ≥ size then lowPower else highPower

/-- The index into `FREE_LISTS` that both `global_allocate` and `global_free` compute. -/
def scaleOf (size : Nat) : Nat := logBase2 (allocationSize size) - minScale

/-- `serves size` says whether `global_allocate(size)` returns a block. It never does for a size class that does not fit in
the heap, because of `FAULT_IF(next_heap_index >= HEAP_SIZE)`. -/
structure HeapRoom where
  serves : Nat → Bool
  bounded : ∀ size, serves size = true → allocationSize size < heapSize

/-! ## Threads -/

/-- The requested size is kept, `scale` and the rounded size are computed from it once. -/
inductive Pc where
  | idle
  /-- `if(!FREE_LISTS[scale].head.load())` -/
  | allocHead (size : Nat)
  /-- `HEAP_INDEX.fetch_add(size)` and the check on its result -/
  | allocBump (size : Nat)
  /-- `FREE_LISTS[scale].lock.acquire()` -/
  | allocLock (size : Nat)
  /-- `object = FREE_LISTS[scale].head.load()` -/
  | allocLoad (size : Nat)
  /-- reading `object->next` -/
  | allocNext (size object : Nat)
  /-- `FREE_LISTS[scale].head.store(object->next)` -/
  | allocStore (size object : Nat) (next : Option Nat)
  /-- `FREE_LISTS[scale].lock.release()`, with the object that is then returned, or the race that is lost -/
  | allocUnlock (size : Nat) (object : Option Nat)
  /-- `FREE_LISTS[scale].lock.acquire()` -/
  | freeLock (addr size : Nat)
  /-- `next_free = FREE_LISTS[scale].head.load()` -/
  | freeLoad (addr size : Nat)
  /-- `new_free->next = next_free` -/
  | freeLink (addr size : Nat) (nextFree : Option Nat)
  /-- `FREE_LISTS[scale].head.store(new_free)` -/
  | freeStore (addr size : Nat)
  /-- `FREE_LISTS[scale].lock.release()` -/
  | freeUnlock (size : Nat)
  /-- `FAULT_IF(next_heap_index >= HEAP_SIZE)`, from which a call does not return -/
  | faulted
deriving DecidableEq, Repr

/-- A block the program holds: its address, the size it asked for, and the free list `global_allocate` chose. -/
structure LiveBlock where
  addr : Nat
  size : Nat
  scale : Nat
deriving DecidableEq, Repr

/-- `next` is the word at an address, read as the `next` field of a `free_object`. `demand` adds up the rounded sizes of all
requests. -/
structure HeapState (n : Nat) where
  heapIndex : Nat
  head : Nat → Option Nat
  locked : Nat → Bool
  next : Nat → Option Nat
  pc : Fin n → Pc
  live : List LiveBlock
  demand : Nat

namespace HeapState

variable {n : Nat}

def init (n : Nat) (next : Nat → Option Nat) : HeapState n :=
  { heapIndex := 0, head := fun _ => none, locked := fun _ => false, next, pc := fun _ => .idle, live := [], demand := 0 }

def setPc (s : HeapState n) (t : Fin n) (p : Pc) : HeapState n := { s with pc := Function.update s.pc t p }

def setHead (s : HeapState n) (c : Nat) (a : Option Nat) : HeapState n :=
  { s with head := Function.update s.head c a }

def setLocked (s : HeapState n) (c : Nat) (b : Bool) : HeapState n :=
  { s with locked := Function.update s.locked c b }

def setNext (s : HeapState n) (a : Nat) (w : Option Nat) : HeapState n :=
  { s with next := Function.update s.next a w }

def give (s : HeapState n) (b : LiveBlock) : HeapState n := { s with live := b :: s.live }

end HeapState

def isHeapAddress (heap ptr : Nat) : Bool := heap ≤ ptr ∧ ptr < heap + heapSize

/-- One step of one thread, or a write of the program into a block it holds. `HEAP_INDEX` is a 32-bit counter. -/
inductive HeapStep {n : Nat} (heap : Nat) : HeapState n → HeapState n → Prop where
  | callAllocate {s} (t : Fin n) (size : Nat) : s.pc t = .idle → 0 < size → size < 2 ^ 64 →
      HeapStep heap s { s.setPc t (.allocHead size) with demand := s.demand + allocationSize size }
  | headEmpty {s} (t : Fin n) (size : Nat) : s.pc t = .allocHead size → s.head (scaleOf size) = none →
      HeapStep heap s (s.setPc t (.allocBump size))
  | headFull {s} (t : Fin n) (size a : Nat) : s.pc t = .allocHead size → s.head (scaleOf size) = some a →
      HeapStep heap s (s.setPc t (.allocLock size))
  | bump {s} (t : Fin n) (size : Nat) : s.pc t = .allocBump size → s.heapIndex + allocationSize size < heapSize →
      HeapStep heap s { (s.setPc t .idle).give ⟨heap + s.heapIndex, size, scaleOf size⟩ with
        heapIndex := (s.heapIndex + allocationSize size) % 2 ^ 32 }
  | bumpFault {s} (t : Fin n) (size : Nat) : s.pc t = .allocBump size →
      heapSize ≤ s.heapIndex + allocationSize size →
      HeapStep heap s { s.setPc t .faulted with heapIndex := (s.heapIndex + allocationSize size) % 2 ^ 32 }
  | allocAcquire {s} (t : Fin n) (size : Nat) : s.pc t = .allocLock size → s.locked (scaleOf size) = false →
      HeapStep heap s ((s.setPc t (.allocLoad size)).setLocked (scaleOf size) true)
  | loadEmpty {s} (t : Fin n) (size : Nat) : s.pc t = .allocLoad size → s.head (scaleOf size) = none →
      HeapStep heap s (s.setPc t (.allocUnlock size none))
  | loadObject {s} (t : Fin n) (size a : Nat) : s.pc t = .allocLoad size → s.head (scaleOf size) = some a →
      HeapStep heap s (s.setPc t (.allocNext size a))
  | readNext {s} (t : Fin n) (size a : Nat) : s.pc t = .allocNext size a →
      HeapStep heap s (s.setPc t (.allocStore size a (s.next a)))
  | storeHead {s} (t : Fin n) (size a : Nat) (w : Option Nat) : s.pc t = .allocStore size a w →
      HeapStep heap s ((s.setPc t (.allocUnlock size (some a))).setHead (scaleOf size) w)
  | unlockRetry {s} (t : Fin n) (size : Nat) : s.pc t = .allocUnlock size none →
      HeapStep heap s ((s.setPc t (.allocHead size)).setLocked (scaleOf size) false)
  | unlockReturn {s} (t : Fin n) (size a : Nat) : s.pc t = .allocUnlock size (some a) →
      HeapStep heap s (((s.setPc t .idle).setLocked (scaleOf size) false).give ⟨a, size, scaleOf size⟩)
  | callFree {s} (t : Fin n) (b : LiveBlock) : s.pc t = .idle → b ∈ s.live → isHeapAddress heap b.addr = true →
      HeapStep heap s { s.setPc t (.freeLock b.addr b.size) with live := s.live.erase b }
  | callFreeForeign {s} (t : Fin n) (b : LiveBlock) : s.pc t = .idle → b ∈ s.live →
      isHeapAddress heap b.addr = false → HeapStep heap s { s with live := s.live.erase b }
  | freeAcquire {s} (t : Fin n) (addr size : Nat) : s.pc t = .freeLock addr size → s.locked (scaleOf size) = false →
      HeapStep heap s ((s.setPc t (.freeLoad addr size)).setLocked (scaleOf size) true)
  | freeLoad {s} (t : Fin n) (addr size : Nat) : s.pc t = .freeLoad addr size →
      HeapStep heap s (s.setPc t (.freeLink addr size (s.head (scaleOf size))))
  | freeLink {s} (t : Fin n) (addr size : Nat) (w : Option Nat) : s.pc t = .freeLink addr size w →
      HeapStep heap s ((s.setPc t (.freeStore addr size)).setNext addr w)
  | freeStore {s} (t : Fin n) (addr size : Nat) : s.pc t = .freeStore addr size →
      HeapStep heap s ((s.setPc t (.freeUnlock size)).setHead (scaleOf size) (some addr))
  | freeRelease {s} (t : Fin n) (size : Nat) : s.pc t = .freeUnlock size →
      HeapStep heap s ((s.setPc t .idle).setLocked (scaleOf size) false)
  /-- the program writes to a block it holds -/
  | write {s} (b : LiveBlock) (a : Nat) (w : Option Nat) : b ∈ s.live → b.addr ≤ a → a < b.addr + b.size →
      HeapStep heap s (s.setNext a w)

/-- The states of a run that starts with an empty heap and arbitrary memory contents. -/
inductive HeapReachable {n : Nat} (heap : Nat) : HeapState n → Prop where
  | init (next : Nat → Option Nat) : HeapReachable heap (HeapState.init n next)
  | step {s s'} : HeapReachable heap s → HeapStep heap s s' → HeapReachable heap s'

/-! ## Safety -/

def classSize (scale : Nat) : Nat := 2 ^ (scale + minScale)

/-- A block whose thread is between giving it up or taking it and saying so. -/
def Pc.hand : Pc → Option (Nat × Nat)
  | .allocUnlock size (some a) => some (a, scaleOf size)
  | .freeLock a size => some (a, scaleOf size)
  | .freeLoad a size => some (a, scaleOf size)
  | .freeLink a size _ => some (a, scaleOf size)
  | .freeStore a size => some (a, scaleOf size)
  | _ => none

inductive HeapPart (n : Nat) where
  | live (b : LiveBlock)
  | free (scale addr : Nat)
  | hand (t : Fin n)
  | unbumped

def HeapState.Part {n : Nat} (s : HeapState n) (heap : Nat) (L : Nat → List Nat) : HeapPart n → Nat → Nat → Prop
  | .live b, a, m => b ∈ s.live ∧ a = b.addr ∧ m = classSize b.scale
  | .free c x, a, m => x ∈ L c ∧ a = x ∧ m = classSize c
  | .hand t, a, m => ∃ c, (s.pc t).hand = some (a, c) ∧ m = classSize c
  | .unbumped, a, m => a = heap + s.heapIndex ∧ m = heapSize - s.heapIndex

/-- The parts of the heap are apart and inside it, and what was returned is what was asked for. -/
structure HeapState.Safe {n : Nat} (s : HeapState n) (heap : Nat) (L : Nat → List Nat) : Prop where
  lists : Linked.Lists s.next s.head L
  nodup : s.live.Nodup
  disjoint : ∀ o o' a m b k, o ≠ o' → s.Part heap L o a m → s.Part heap L o' b k → Apart a m b k
  inside : ∀ o a m, s.Part heap L o a m → heap ≤ a ∧ a + m ≤ heap + heapSize
  returned : ∀ b ∈ s.live, 8 ∣ b.addr ∧ b.size ≤ classSize b.scale ∧ scaleOf b.size = b.scale

/-- Whether `global_allocate(size)` would return a block if it ran now, with nothing else running. -/
def HeapState.serves {n : Nat} (s : HeapState n) (size : Nat) : Bool :=
  size ≤ 2 ^ 63 ∧ (s.head (scaleOf size) ≠ none ∨ s.heapIndex + allocationSize size < heapSize)

end Granary.Memory
