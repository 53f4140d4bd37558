import Mathlib.Logic.Function.Basic

/-!
# Sets with ids

`atomic_id_set` of `granary/utils.h`. Threads interleave at the loads, stores and compare-exchanges of slots. A
compare-exchange fails only if the slot holds another value, as on x86.
-/

namespace Granary

open Function (update)

variable {T KV : Type} [DecidableEq T] [DecidableEq KV]

/-- A failed compare-exchange overwrites `missing_value`. -/
structure AtomicIdSet (KV : Type) where
  set : Nat → KV
  defaultValue : KV
  missingValue : KV

namespace AtomicIdSet

def init (defaultValue missingValue : KV) : AtomicIdSet KV := { set := fun _ => defaultValue, defaultValue, missingValue }

section Slots

variable (maxItems : Nat)

def get (id : Nat) (s : AtomicIdSet KV) : KV :=
  let val := s.set (id % maxItems)
  if s.missingValue = val then s.defaultValue else val

def remove (id : Nat) (s : AtomicIdSet KV) : AtomicIdSet KV :=
  { s with set := update s.set (id % maxItems) s.missingValue }

/-- The next atomic operation of an `add`: it loads the slot at `index`, or exchanges one of two slots. -/
inductive AddNext where
  | load
  | reuse (lastMissingIndex : Nat)
  | claim
deriving DecidableEq, Repr

structure AddCall (KV : Type) where
  value : KV
  index : Nat
  lastMissing : Option Nat
  next : AddNext
deriving DecidableEq, Repr

def AddCall.start (bits : KV → Nat) (value : KV) : AddCall KV :=
  { value, index := bits value % maxItems, lastMissing := none, next := .load }

def AddCall.loop (c : AddCall KV) (foundValue : KV) : AddCall KV ⊕ Nat :=
  if foundValue ≠ c.value then .inl { c with index := (c.index + 1) % maxItems, next := .load } else .inr c.index

def AddCall.step (c : AddCall KV) (s : AtomicIdSet KV) : AtomicIdSet KV × (AddCall KV ⊕ Nat) :=
  match c.next with
  | .load =>
    let foundValue := s.set c.index
    if s.missingValue = foundValue then (s, AddCall.loop maxItems { c with lastMissing := some c.index } foundValue)
    else if s.defaultValue = foundValue then
      (s, .inl { c with next := c.lastMissing.elim .claim .reuse })
    else (s, c.loop maxItems foundValue)
  | .reuse lastMissingIndex =>
    if s.set lastMissingIndex = s.missingValue then
      ({ s with set := update s.set lastMissingIndex c.value }, .inr c.index)
    else ({ s with missingValue := s.set lastMissingIndex }, .inl { c with next := .claim })
  | .claim =>
    let foundValue := s.set c.index
    if foundValue = s.defaultValue then ({ s with set := update s.set c.index c.value }, .inr c.index)
    else (s, c.loop maxItems foundValue)

end Slots

end AtomicIdSet

/-! ## Interleavings -/

open AtomicIdSet

/-- A set with the calls of `add` that are running. -/
structure IdSystem (T KV : Type) where
  state : AtomicIdSet KV
  calls : T → Option (AddCall KV)
  /-- how many atomic operations a running call has made -/
  ops : T → Nat
  /-- the values and ids of calls that returned, until the id is removed -/
  issued : List (KV × Nat)

inductive IdAction (T KV : Type) where
  | add (t : T) (value : KV)
  | step (t : T)
  | remove (id : Nat)

section System

variable (maxItems : Nat) (bits : KV → Nat) (defaultValue missingValue : KV)

def IdSystem.init : IdSystem T KV :=
  { state := .init defaultValue missingValue, calls := fun _ => none, ops := fun _ => 0, issued := [] }

/-- A thread adds one value at a time, which is none of the values that the set was constructed with. -/
def IdSystem.act (s : IdSystem T KV) : IdAction T KV → Option (IdSystem T KV)
  | .add t value =>
    if s.calls t = none ∧ value ≠ defaultValue ∧ value ≠ missingValue then
      some { s with calls := update s.calls t (some (.start maxItems bits value))
                    ops := update s.ops t 0 }
    else none
  | .step t =>
    (s.calls t).map fun c =>
      match c.step maxItems s.state with
      | (state, .inl c') => { s with state, calls := update s.calls t (some c')
                                     ops := update s.ops t (s.ops t + 1) }
      | (state, .inr id) => { s with state, calls := update s.calls t none
                                     issued := (c.value, id) :: s.issued }
  | .remove id =>
    some { s with state := s.state.remove maxItems id
                  issued := s.issued.filter fun p => p.2 % maxItems ≠ id % maxItems }

inductive IdReachable (ok : IdSystem T KV → IdAction T KV → Prop) : IdSystem T KV → Prop where
  | init : IdReachable ok (.init defaultValue missingValue)
  | act {s s' : IdSystem T KV} {a : IdAction T KV} (h : IdReachable ok s) (hok : ok s a)
      (hact : s.act maxItems bits defaultValue missingValue a = some s') : IdReachable ok s'

/-- When an `add` goes on there is a slot that was never used, and it comes to one without having seen a removed value. -/
def IdSystem.Unhindered (s : IdSystem T KV) : IdAction T KV → Prop
  | .step t => (∃ i < maxItems, s.state.set i = defaultValue) ∧
      ∀ c ∈ s.calls t, c.next = .load → s.state.set c.index = defaultValue → c.lastMissing = none
  | _ => True

/-- Values and ids are in bijection, and calls of `add` end after two operations for each slot. -/
structure IdSystem.Bijective (s : IdSystem T KV) : Prop where
  terminates : ∀ t, (s.calls t).isSome → s.ops t < 2 * maxItems
  resolves : ∀ p ∈ s.issued, s.state.get maxItems p.2 = p.1
  sameId : ∀ p ∈ s.issued, ∀ q ∈ s.issued, p.1 = q.1 → p.2 = q.2

end System

end Granary
