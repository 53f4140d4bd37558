import Granary.Watchpoints.LeakDescriptors

/-!
# Scanning for leaks

`leak_policy_scan_callback` of `leak_detector/thread.cc`, which runs in the kernel at the end of each epoch. Objects that were
accessed, and those that watched words in the memory of the kernel point to, are marked as reachable, and so is what watched
words inside of them point to. Memory of objects is a function from addresses to the words that are there, and reading it does
not fault. Of what is printed only the leaked objects are kept.
-/

namespace Granary.Watchpoints

open Function (update)

open Machine

inductive ScanFailure where
  | assertion (site : LeakAssert)
  /-- the recursion goes on for too long, which is no assertion of the code -/
  | running
deriving DecidableEq, Repr

structure ScanState (Cpu : Type) where
  state : LeakState Cpu
  reads : List Word

namespace ScanState

variable {Cpu : Type} (s : ScanState Cpu)

def access (index : Word) : Except ScanFailure Word := (s.state.access index).mapError .assertion

def setDesc (desc : Word) (d : LeakDescriptor) : ScanState Cpu :=
  { s with state := { s.state with desc := update s.state.desc desc d } }

/-- `state.is_reachable = true; desc->state.set_state(state);` where `state` is not initialised otherwise -/
def setReachable (desc : Word) (junk : LeakObjectState) : ScanState Cpu :=
  s.setDesc desc ((s.state.desc desc).setState (junk ||| LeakObjectState.reachable))

def clearAccessed (desc : Word) : ScanState Cpu :=
  s.setDesc desc { s.state.desc desc with accessedInLastEpoch := false }

end ScanState

def LeakDescriptor.base (d : LeakDescriptor) : Word := d.baseAddress.setWidth 64 ||| 0xffff000000000000

/-- The addresses that the loop of `scan_descriptor` reads: its offset is at most `size`. -/
def LeakDescriptor.words (d : LeakDescriptor) : List Word :=
  (List.range (d.size.toNat / 8 + 1)).map fun k => d.base + BitVec.ofNat 64 (8 * k)

section Scan

variable {Cpu : Type} (mem : Word → Word) (junk : Word → LeakObjectState)

/-- Mark a descriptor and scan its object, unless it is marked. The index gives the bits of the local variable. -/
def reach (scan : Word → ScanState Cpu → Except ScanFailure (ScanState Cpu)) (index desc : Word) (s : ScanState Cpu) :
    Except ScanFailure (ScanState Cpu) :=
  if (s.state.desc desc).state.isReachable then return s else scan index (s.setReachable desc (junk index))

/-- The body of the loop of `scan_descriptor`. -/
def scanWord (scan : Word → ScanState Cpu → Except ScanFailure (ScanState Cpu)) (s : ScanState Cpu) (addr : Word) :
    Except ScanFailure (ScanState Cpu) := do
  let val := mem addr
  let s := { s with reads := addr :: s.reads }
  if isWatchedAddress true val then
    let foundIndex := counterIndexOf val
    let foundDesc ← s.access foundIndex
    if isValidAddress true foundDesc then reach junk scan foundIndex foundDesc s else return s
  else return s

def scanDescriptor : Nat → Word → ScanState Cpu → Except ScanFailure (ScanState Cpu)
  | 0, _, _ => throw .running
  | fuel + 1, index, s => do
      let desc ← s.access index
      if isValidAddress true desc then (s.state.desc desc).words.foldlM (scanWord mem junk (scanDescriptor fuel)) s
      else return s

/-- An address that `watchpoint_callback` takes for one of the object: it compares the low 48 bits. -/
def LeakDescriptor.contains (d : LeakDescriptor) (addr : Word) : Bool :=
  let base := d.baseAddress.setWidth 64
  let limit := base + d.size.setWidth 64
  let watchAddr := addr &&& 0xffffffffffff
  base ≤ watchAddr ∧ watchAddr ≤ limit

def watchpointCallback (fuel : Nat) (s : ScanState Cpu) (addr : Word) : Except ScanFailure (ScanState Cpu) := do
  let index := counterIndexOf addr
  let desc ← s.access index
  if desc ≠ 0 then
    if (s.state.desc desc).contains addr then reach junk (scanDescriptor mem junk fuel) index desc s else return s
  else return s

/-- The body of the first loop of `leak_policy_scan_callback`. -/
def scanAccessed (fuel : Nat) (s : ScanState Cpu) (index : Word) : Except ScanFailure (ScanState Cpu) := do
  let desc ← s.access index
  if isValidAddress true desc then
    if (s.state.desc desc).accessedInLastEpoch then
      reach junk (scanDescriptor mem junk fuel) index desc (s.clearAccessed desc)
    else return s
  else return s

/-- `is_watched_address` of `leak_detector/kernel/leakpolicy_scan.c`, for the words that the page walk finds. -/
def isHandedOver (ptr : Word) : Bool := 0x880000000000 < ptr &&& 0xffffffffffff

def tableIndices : List Word := (List.range maxNumWatchpoints).map (BitVec.ofNat 64)

def isLeaked (s : LeakState Cpu) (index : Word) : Bool :=
  let desc := s.descriptors index
  isValidAddress true desc && !(s.desc desc).state.isReachable && (s.desc desc).state.isActive

def leakPolicyScanCallback (fuel : Nat) (kernelWords : List Word) (s : LeakState Cpu) :
    Except ScanFailure (ScanState Cpu × List Word) :=
  if !s.executionState then return ({ state := s, reads := [] }, [])
  else do
    let s : ScanState Cpu := { state := { s with executionState := false }, reads := [] }
    let s ← tableIndices.foldlM (scanAccessed mem junk fuel) s
    let s ← (kernelWords.filter isHandedOver).foldlM (watchpointCallback mem junk fuel) s
    return (s, tableIndices.filter (isLeaked s.state))

end Scan

/-! ## Epochs -/

/-- The objects, with their bases and sizes, and the descriptors that were accessed in this epoch. -/
structure LeakHeap (Cpu : Type) where
  sys : LeakSystem Cpu
  base : Word → Word
  size : Word → Word
  accessed : Word → Bool

namespace LeakHeap

variable {Cpu : Type}

def init (desc : Word → LeakDescriptor) : LeakHeap Cpu where
  sys := .init desc
  base _ := 0
  size _ := 0
  accessed _ := false

variable (h : LeakHeap Cpu)

def IsObject (d i : Word) : Prop := h.sys.status d = .live i true

def InObject (addr : Nat) : Prop :=
  ∃ d i, h.IsObject d i ∧ (h.base d).toNat ≤ addr ∧ addr < (h.base d).toNat + (h.size d).toNat

def word (d : Word) (k : Nat) : Word := h.base d + BitVec.ofNat 64 (8 * k)

/-- The low 48 bits of the word are an address of the object, or the one after it. -/
def Spans (d w : Word) : Prop :=
  (h.base d).setWidth 48 ≤ w.setWidth 48 ∧ (w.setWidth 48).toNat ≤ ((h.base d).setWidth 48).toNat + (h.size d).toNat

end LeakHeap

def Refers (w i : Word) : Prop := isWatchedAddress true w = true ∧ counterIndexOf w = i

section Epochs

variable {Cpu : Type} [DecidableEq Cpu]

/-- What happens between and at the ends of epochs. Watched objects are in the memory of the kernel. -/
inductive HeapStep : LeakHeap Cpu → LeakHeap Cpu → Nat → Prop where
  | watch {h} (c : Cpu) (fresh base size : Word) (state state' : LeakState Cpu) (d i : Word) : h.sys.Fresh true fresh →
      IsCanonical true base → base.toNat + size.toNat ≤ 2 ^ 64 → h.sys.state.allocate c fresh = .ok (state, some (d, i)) →
      (state.initDesc d base size).assign d i = .ok state' →
      HeapStep h { sys := { state := state', status := update h.sys.status d (.live i true) }
                   base := update h.base d base
                   size := update h.size d size
                   accessed := update h.accessed d false } 1
  | watchFails {h} (c : Cpu) (fresh : Word) (state : LeakState Cpu) : h.sys.Fresh true fresh →
      h.sys.state.allocate c fresh = .ok (state, none) → HeapStep h { h with sys := { h.sys with state } } 1
  | free {h} (c : Cpu) (d i : Word) (descState : LeakObjectState) : h.IsObject d i →
      HeapStep h { h with sys := { state := h.sys.state.free true c d i descState
                                   status := update h.sys.status d (.freed i) }
                          accessed := update h.accessed d false } 0
  /-- `granary_access_descriptor_*`, for a watched address whose index has been assigned -/
  | touch {h} (d i : Word) : h.sys.state.access i = .ok d → d ≠ 0 →
      HeapStep h { h with sys := { h.sys with state := { h.sys.state with
                                     desc := update h.sys.state.desc d
                                       { h.sys.state.desc d with accessedInLastEpoch := true } } }
                          accessed := update h.accessed d true } 0
  | scan {h} (mem : Word → Word) (junk : Word → LeakObjectState) (enough : Nat) (kernelWords : List Word)
      (s : ScanState Cpu) (leaked : List Word) :
      (∀ fuel, enough ≤ fuel → leakPolicyScanCallback mem junk fuel kernelWords h.sys.state = .ok (s, leaked)) →
      HeapStep h { h with sys := { h.sys with state := s.state }, accessed := fun _ => false } 0

/-- Reached with this many calls of `allocate`. -/
inductive HeapReachable : LeakHeap Cpu → Nat → Prop where
  | init (desc : Word → LeakDescriptor) : HeapReachable (.init desc) 0
  | step {h h' n k} : HeapReachable h n → HeapStep h h' k → HeapReachable h' (n + k)

end Epochs

/-! ## What a scan should find -/

section Reached

variable {Cpu : Type} (h : LeakHeap Cpu) (mem : Word → Word) (kernelWords : List Word)

/-- Objects that are reachable in this epoch, by their descriptors. -/
inductive Reached : Word → Prop where
  | accessed (d i : Word) : h.IsObject d i → h.accessed d = true → Reached d
  | found (d i w : Word) : h.IsObject d i → w ∈ kernelWords → Refers w i → Reached d
  | stored (d : Word) (k : Nat) (d' i' : Word) : Reached d → 8 * k + 8 ≤ (h.size d).toNat → h.IsObject d' i' →
      Refers (mem (h.word d k)) i' → Reached d'

/-- The scan ends, reads live objects only, and the leaked objects are those that are not reachable. -/
def GoodScan (junk : Word → LeakObjectState) : Prop :=
  ∃ enough, ∀ fuel, enough ≤ fuel → ∃ s leaked,
    leakPolicyScanCallback mem junk fuel kernelWords h.sys.state = .ok (s, leaked) ∧
    (∀ addr ∈ s.reads, ∀ k < 8, h.InObject (addr.toNat + k)) ∧
    ∀ i, i ∈ leaked ↔ ∃ d, h.IsObject d i ∧ ¬Reached h mem kernelWords d

/-- The page walk hands over the word, for the object with this index. -/
def Hands (w i : Word) : Prop := isHandedOver w = true ∧ counterIndexOf w = i

/-- Sizes fit their field, no object has been found reachable or accessed in an earlier epoch, no freed object is accessed,
referred to or taken for what a word in the kernel points to, watched words in the kernel are handed over and point into their
objects, other words there are in no object that their bits name and that is not reachable, and the word at the end of a
reachable object is in live objects and refers to none that is not reachable. -/
structure CleanScan : Prop where
  size : ∀ d i, h.IsObject d i → (h.size d).toNat < 2 ^ 16
  unmarked : ∀ d i, h.IsObject d i → (h.sys.state.desc d).state.isReachable = false
  recent : ∀ d i, h.IsObject d i → (h.sys.state.desc d).accessedInLastEpoch = true → h.accessed d = true
  freed_accessed : ∀ d i, h.sys.status d = .freed i → (h.sys.state.desc d).accessedInLastEpoch = false
  freed_found : ∀ d i, h.sys.status d = .freed i → ∀ w ∈ kernelWords, Hands w i → (h.sys.state.desc d).contains w = false
  freed_stored : ∀ d i, h.sys.status d = .freed i → ∀ d', Reached h mem kernelWords d' →
    ∀ k, 8 * k ≤ (h.size d').toNat → ¬Refers (mem (h.word d' k)) i
  inside : ∀ d i, h.IsObject d i → ∀ w ∈ kernelWords, Refers w i → isHandedOver w = true ∧ h.Spans d w
  unwatched : ∀ d i, h.IsObject d i → ∀ w ∈ kernelWords, isWatchedAddress true w = false → Hands w i → h.Spans d w →
    Reached h mem kernelWords d
  past_inObject : ∀ d, Reached h mem kernelWords d →
    ∀ k < 8, h.InObject ((h.word d ((h.size d).toNat / 8)).toNat + k)
  past_refers : ∀ d, Reached h mem kernelWords d → ∀ d' i', h.IsObject d' i' →
    Refers (mem (h.word d ((h.size d).toNat / 8))) i' → Reached h mem kernelWords d'

/-- A scan after no allocation does nothing, which is right if there are no leaks. -/
def ScanCondition : Prop :=
  if h.sys.state.executionState then CleanScan h mem kernelWords
  else ∀ d i, h.IsObject d i → Reached h mem kernelWords d

end Reached

end Granary.Watchpoints
