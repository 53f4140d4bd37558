import Granary.Watchpoints.Address
import Mathlib.Data.List.Infix
import Mathlib.Logic.Function.Basic

/-!
# The RCU debugger

`rcudbg` follows the read-side critical sections of each thread, and marks pointers that come from `rcu_dereference` with
the id of the section. Events are atomic.
-/

namespace Granary.Watchpoints

open Function (update)

open Machine

/-- A source code location, where `none` is a null pointer. -/
abbrev Carat := Option String

abbrev SectionId := BitVec 14

/-! ## The log -/

inductive LogMessageId where
  | rcuDereferenceUnassignedAddress
  | rcuDereferenceUnassignedValue
  | doubleRcuDereferenceWrongSection
  | doubleRcuDereference
  | rcuAssignToRcuDereferencedPointer
  | rcuAssignWithRcuDereferencedPointer
  | rcuReadSectionAcrossFuncBoundary
  | rcuReadUnlockOutsideOfCriticalSection
  | rcuAssignInCriticalSection
  | rcuDereferenceOutsideOfCriticalSection
  | accessOfLeakedRcuDereferencedPointer
  | accessOfWrongRcuDereferencedPointer
  | accessOfAssignedPointerInCriticalSection
  | writeToDerefPointerInCriticalSection
deriving DecidableEq, Repr

inductive LogArg (Thread : Type) where
  | thread (t : Thread)
  | carat (c : Carat)
  | pointer (p : Word)
deriving DecidableEq, Repr

structure LogMessage (Thread : Type) where
  id : LogMessageId
  args : List (LogArg Thread)
deriving DecidableEq, Repr

def maxNumMessages : Nat := 4096

structure Log (Thread : Type) where
  nextLogOffset : Nat
  messages : Nat → Option (LogMessage Thread)

/-- Every message is at least at the minimal level. What comes when the log is full is lost. -/
def Log.log {Thread : Type} (l : Log Thread) (m : LogMessage Thread) : Log Thread :=
  let index := l.nextLogOffset
  { nextLogOffset := (index + 1) % 2 ^ 64
    messages := if maxNumMessages ≤ index then l.messages else
      update l.messages (index % maxNumMessages) (some m) }

/-! ## Threads and sections -/

structure ThreadState where
  sectionDepth : Nat
  sectionId : SectionId
  sectionCaratBacktrace : Fin 3 → Carat
  sectionCarat : Carat

structure SectionInfo (Thread : Type) where
  lockCarat : Carat
  unlockCarat : Carat
  derefCarat : Carat
  thread : Option Thread

inductive SectionCaratKind where
  | lock
  | unlock
  | deref
deriving DecidableEq, Repr

/-- The search for an id goes on, a nested section does not fit the backtrace, or the assertion of `taint` fails. -/
inductive RcuAbort where
  | running
  | outOfBounds
  | assertion
deriving DecidableEq, Repr

structure RcuState (Thread : Type) where
  nextSectionId : BitVec 32
  sections : SectionId → SectionInfo Thread
  threads : Thread → ThreadState
  unwatchedAndAssignedPointers : BitVec 16 → Bool
  watchedAndAssignedPointers : BitVec 16 → Bool
  log : Log Thread

namespace RcuState

variable {Thread : Type}

def init : RcuState Thread where
  nextSectionId := 1
  sections _ := { lockCarat := none, unlockCarat := none, derefCarat := none, thread := none }
  threads _ := { sectionDepth := 0, sectionId := 0, sectionCaratBacktrace := fun _ => none, sectionCarat := none }
  unwatchedAndAssignedPointers _ := false
  watchedAndAssignedPointers _ := false
  log := { nextLogOffset := 0, messages := fun _ => none }

def setSection (s : RcuState Thread) (id : SectionId) (info : SectionInfo Thread) : RcuState Thread :=
  { s with sections := update s.sections id info }

def getSectionCarat (s : RcuState Thread) (id : SectionId) : SectionCaratKind → Carat
  | .lock => (s.sections id).lockCarat
  | .unlock => (s.sections id).unlockCarat
  | .deref => (s.sections id).derefCarat

def setSectionCarat (s : RcuState Thread) (id : SectionId) (kind : SectionCaratKind) (carat : Carat) : RcuState Thread :=
  match kind with
  | .lock => s.setSection id { s.sections id with lockCarat := carat }
  | .unlock => s.setSection id { s.sections id with unlockCarat := carat }
  | .deref => s.setSection id { s.sections id with derefCarat := carat }

def allocateSectionId (lockCarat : Carat) (thread : Thread) (conflictId : SectionId) :
    Nat → RcuState Thread → Except RcuAbort (RcuState Thread × SectionId)
  | 0, _ => throw .running
  | fuel + 1, s =>
    -- `NEXT_SECTION_ID.fetch_add(1) % MAX_NUM_SECTION_IDS`
    let id : SectionId := s.nextSectionId.setWidth 14
    let s := { s with nextSectionId := s.nextSectionId + 1 }
    if conflictId = id then allocateSectionId lockCarat thread conflictId fuel s
    else if (s.sections id).thread.isSome then allocateSectionId lockCarat thread conflictId fuel s
    else return (s.setSection id { thread := some thread, lockCarat, unlockCarat := "<not unlocked>",
                                   derefCarat := "<no derefs>" }, id)

/-! ## Events -/

section Pointers

variable (kernel : Bool) (getLocationCarat : BitVec 14 → Carat)

/-- The pointer that is read from `derefedPtr` comes back watched. Of `index` only the named fields are written. -/
def eventRcuDereference (t : Thread) (derefedPtr ptr : Word) (dereferenceCarat : Carat) (index : RcudbgCounterIndex)
    (s : RcuState Thread) : Except RcuAbort (RcuState Thread × List (LogMessage Thread) × Word) :=
  let derefAddress : RcudbgWatchedAddress := ptr
  let derefedAddress : RcudbgWatchedAddress := derefedPtr
  let sectionId := (s.threads t).sectionId
  let readLockCarat := (s.threads t).sectionCarat
  let sectionDepth := (s.threads t).sectionDepth
  let outside : List (LogMessage Thread) :=
    if sectionDepth = 0 then
      [⟨.rcuDereferenceOutsideOfCriticalSection, [.thread t, .carat readLockCarat, .carat dereferenceCarat]⟩]
    else []
  let assigned :=
    if isWatchedAddress kernel derefedAddress then s.watchedAndAssignedPointers derefedAddress.shadowOffset
    else s.unwatchedAndAssignedPointers derefedAddress.shadowOffset
  let unassigned : List (LogMessage Thread) :=
    if assigned then []
    else [⟨.rcuDereferenceUnassignedAddress,
      [.pointer derefedAddress, .thread t, .carat dereferenceCarat, .carat readLockCarat]⟩]
  let value : List (LogMessage Thread) :=
    if !isWatchedAddress kernel derefAddress then
      [⟨.rcuDereferenceUnassignedValue,
        [.pointer derefAddress, .thread t, .carat dereferenceCarat, .carat readLockCarat]⟩]
    else if derefAddress.isDeref then
      if derefAddress.readSectionId = sectionId then
        [⟨.doubleRcuDereference, [.thread t, .carat dereferenceCarat, .carat readLockCarat]⟩]
      else
        [⟨.doubleRcuDereferenceWrongSection, [.thread t, .carat dereferenceCarat, .carat readLockCarat,
          .carat (getLocationCarat derefAddress.assignLocationId)]⟩]
    else []
  let index := (index.setIsDeref true).setReadSectionId sectionId
  let s := s.setSectionCarat sectionId .deref dereferenceCarat
  let messages := outside ++ unassigned ++ value
  if sectionDepth = 0 then return (s, messages, ptr)
  else
    match taint kernel ptr index.asUint with
    | some ptr => return (s, messages, ptr)
    | none => throw .assertion

/-- What is stored to `p` comes back. The id is the one that `get_location_id` has for the location. -/
def eventRcuAssignPointer (t : Thread) (p v : Word) (assignCarat : Carat) (locationId : BitVec 14)
    (index : RcudbgCounterIndex) (s : RcuState Thread) :
    Except RcuAbort (RcuState Thread × List (LogMessage Thread) × Word) :=
  let assignPointer : RcudbgWatchedAddress := p
  let assignedPointer : RcudbgWatchedAddress := v
  let inSection : List (LogMessage Thread) :=
    if (s.threads t).sectionDepth ≠ 0 then
      [⟨.rcuAssignInCriticalSection, [.thread t, .carat (s.threads t).sectionCarat, .carat assignCarat]⟩]
    else []
  let (s, target) : RcuState Thread × List (LogMessage Thread) :=
    if isWatchedAddress kernel assignPointer then
      if assignPointer.isDeref then
        (s, [⟨.rcuAssignToRcuDereferencedPointer,
          [.thread t, .carat (s.getSectionCarat assignPointer.readSectionId .deref), .carat assignCarat]⟩])
      else
        ({ s with watchedAndAssignedPointers :=
            update s.watchedAndAssignedPointers assignPointer.shadowOffset true }, [])
    else
      ({ s with unwatchedAndAssignedPointers :=
          update s.unwatchedAndAssignedPointers assignPointer.shadowOffset true }, [])
  let value : List (LogMessage Thread) :=
    if isWatchedAddress kernel assignedPointer && assignedPointer.isDeref then
      [⟨.rcuAssignWithRcuDereferencedPointer,
        [.thread t, .carat (s.getSectionCarat assignedPointer.readSectionId .deref), .carat assignCarat]⟩]
    else []
  let index := (index.setIsDeref false).setAssignLocationId locationId
  match taint kernel v index.asUint with
  | some v => return (s, inSection ++ target ++ value, v)
  | none => throw .assertion

section Access

variable (s : RcuState Thread) (t : Thread) (addr : RcudbgWatchedAddress)

def eventReadThroughRet : List (LogMessage Thread) :=
  [⟨.rcuReadSectionAcrossFuncBoundary, [.thread t, .carat (s.threads t).sectionCarat]⟩]

def accessAssignedPointer : List (LogMessage Thread) :=
  [⟨.accessOfAssignedPointerInCriticalSection,
    [.thread t, .carat (s.threads t).sectionCarat, .carat (getLocationCarat addr.assignLocationId)]⟩]

def writeToDerefPointer : List (LogMessage Thread) :=
  [⟨.writeToDerefPointerInCriticalSection,
    [.thread t, .carat (s.threads t).sectionCarat, .carat (s.getSectionCarat addr.readSectionId .deref)]⟩]

def readFromDerefPointer : List (LogMessage Thread) :=
  let args : List (LogArg Thread) := [.thread t, .carat (s.getSectionCarat addr.readSectionId .unlock),
    .carat (s.getSectionCarat addr.readSectionId .deref)]
  if (s.threads t).sectionDepth = 0 then [⟨.accessOfLeakedRcuDereferencedPointer, args⟩]
  else if (s.threads t).sectionId ≠ addr.readSectionId then [⟨.accessOfWrongRcuDereferencedPointer, args⟩]
  else []

/-- Only accesses of watched addresses are visited, by what `instrumented_access` finds in their highest bit. -/
def visitAccess (isRead : Bool) : List (LogMessage Thread) :=
  if !isWatchedAddress kernel addr then []
  else if addr.isDeref then
    if isRead then readFromDerefPointer s t addr else writeToDerefPointer s t addr
  else accessAssignedPointer getLocationCarat s t addr

end Access

end Pointers

section Locks

variable [DecidableEq Thread]

def setThread (s : RcuState Thread) (t : Thread) (th : ThreadState) : RcuState Thread :=
  { s with threads := update s.threads t th }

def eventRcuReadLock (fuel : Nat) (t : Thread) (carat : Carat) (s : RcuState Thread) :
    Except RcuAbort (RcuState Thread) := do
  let th := s.threads t
  if h : th.sectionDepth < 3 then
    let (s, id) ←
      if th.sectionDepth = 0 then allocateSectionId carat t th.sectionId fuel s else pure (s, th.sectionId)
    let s := s.setThread t
      { sectionDepth := th.sectionDepth + 1
        sectionId := id
        sectionCaratBacktrace := update th.sectionCaratBacktrace ⟨th.sectionDepth, h⟩ carat
        sectionCarat := carat }
    return s.setSectionCarat id .lock carat
  else throw .outOfBounds

def eventRcuReadUnlock (t : Thread) (carat : Carat) (s : RcuState Thread) :
    Except RcuAbort (RcuState Thread × List (LogMessage Thread)) :=
  let th := s.threads t
  if th.sectionDepth = 0 then
    return (s.setThread t { th with sectionCarat := carat },
      [⟨.rcuReadUnlockOutsideOfCriticalSection, [.thread t, .carat th.sectionCarat, .carat carat]⟩])
  else if h : th.sectionDepth < 3 then
    let s := s.setThread t
      { th with
        sectionDepth := th.sectionDepth - 1
        sectionCaratBacktrace := update th.sectionCaratBacktrace ⟨th.sectionDepth, h⟩ carat
        sectionCarat := carat }
    return (s.setSectionCarat th.sectionId .unlock carat, [])
  else throw .outOfBounds

end Locks

end RcuState

/-! ## Runs -/

inductive RcuEvent (Thread : Type) where
  | readLock (t : Thread) (carat : Carat)
  | readUnlock (t : Thread) (carat : Carat)
  | dereference (t : Thread) (derefedPtr ptr : Word) (carat : Carat) (index : RcudbgCounterIndex)
  | assignPointer (t : Thread) (p v : Word) (carat : Carat) (locationId : BitVec 14) (index : RcudbgCounterIndex)
  | readThroughRet (t : Thread)
  | access (t : Thread) (addr : Word) (isRead : Bool)

/-- What is seen of an event: the messages that it logs, and the pointer that it returns or stores. -/
structure RcuResult (Thread : Type) where
  messages : List (LogMessage Thread)
  pointer : Option Word

section Runs

variable {Thread : Type} [DecidableEq Thread] (kernel : Bool) (getLocationCarat : BitVec 14 → Carat) (fuel : Nat)

def RcuState.handle (s : RcuState Thread) : RcuEvent Thread → Except RcuAbort (RcuState Thread × RcuResult Thread)
  | .readLock t carat => do
      let s ← s.eventRcuReadLock fuel t carat
      return (s, ⟨[], none⟩)
  | .readUnlock t carat => do
      let (s, messages) ← s.eventRcuReadUnlock t carat
      return (s, ⟨messages, none⟩)
  | .dereference t derefedPtr ptr carat index => do
      let (s, messages, ptr) ← s.eventRcuDereference kernel getLocationCarat t derefedPtr ptr carat index
      return (s, ⟨messages, some ptr⟩)
  | .assignPointer t p v carat locationId index => do
      let (s, messages, v) ← s.eventRcuAssignPointer kernel t p v carat locationId index
      return (s, ⟨messages, some v⟩)
  | .readThroughRet t => return (s, ⟨s.eventReadThroughRet t, none⟩)
  | .access t addr isRead => return (s, ⟨s.visitAccess kernel getLocationCarat t addr isRead, none⟩)

def RcuState.step (s : RcuState Thread) (e : RcuEvent Thread) : Except RcuAbort (RcuState Thread × RcuResult Thread) := do
  let (s, r) ← s.handle kernel getLocationCarat fuel e
  return ({ s with log := r.messages.foldl Log.log s.log }, r)

def RcuState.run : List (RcuEvent Thread) → RcuState Thread → Except RcuAbort (RcuState Thread)
  | [], s => return s
  | e :: events, s => do
      let (s, _) ← s.step kernel getLocationCarat fuel e
      RcuState.run events s

end Runs

/-! ## What sections there are -/

/-- The outermost sections are numbered from 1, and each thread knows how deep it is and which one it entered last. -/
structure Sections (Thread : Type) where
  entered : Nat
  depth : Thread → Nat
  current : Thread → Nat

namespace Sections

variable {Thread : Type} [DecidableEq Thread]

def init : Sections Thread := { entered := 0, depth := fun _ => 0, current := fun _ => 0 }

def step (a : Sections Thread) : RcuEvent Thread → Sections Thread
  | .readLock t _ =>
    if a.depth t = 0 then
      { entered := a.entered + 1
        depth := update a.depth t 1
        current := update a.current t (a.entered + 1) }
    else { a with depth := update a.depth t (a.depth t + 1) }
  | .readUnlock t _ => { a with depth := update a.depth t (a.depth t - 1) }
  | _ => a

def after (events : List (RcuEvent Thread)) : Sections Thread := events.foldl step init

def Shallow (events : List (RcuEvent Thread)) : Prop := ∀ past, past <+: events → ∀ t, (after past).depth t ≤ 2

def Inside (a : Sections Thread) (t : Thread) (n : Nat) : Prop := a.depth t ≠ 0 ∧ a.current t = n

instance (a : Sections Thread) (t : Thread) (n : Nat) : Decidable (a.Inside t n) := inferInstanceAs (Decidable (_ ∧ _))

/-- There is an id left. The last one is 0, which a thread that has had no id takes for its own. -/
def CanEnter (a : Sections Thread) (t : Thread) : Prop :=
  a.entered + 1 < 2 ^ 14 ∨ a.entered + 1 = 2 ^ 14 ∧ a.current t ≠ 0

end Sections

def RcuResult.Logs {Thread : Type} (r : RcuResult Thread) (id : LogMessageId) : Prop := ∃ m ∈ r.messages, m.id = id

structure Reports {Thread : Type} (a : Sections Thread) (t : Thread) (n : Nat) (r : RcuResult Thread) : Prop where
  leaked : r.Logs .accessOfLeakedRcuDereferencedPointer ↔ a.depth t = 0
  wrong : r.Logs .accessOfWrongRcuDereferencedPointer ↔ ∃ n', n' ≠ n ∧ a.Inside t n'
  neither : ¬ r.Logs .accessOfLeakedRcuDereferencedPointer ∧ ¬ r.Logs .accessOfWrongRcuDereferencedPointer ↔ a.Inside t n

def lockPairs {Thread : Type} (t : Thread) (carat : Carat) (n : Nat) : List (RcuEvent Thread) :=
  (List.replicate n [.readLock t carat, .readUnlock t carat]).flatten

end Granary.Watchpoints
