import Mathlib.Algebra.Ring.Nat
import Mathlib.Logic.Function.Basic

/-!
# Encoding of instruction lists

`instruction::encode` and `instruction_list::encode` of `granary/instruction.cc`, and the part of `basic_block::translate` that
encodes a trace and its stubs. A branch to an instruction is encoded with the address that the note of its target has then, so
lists are encoded twice.
-/

namespace Granary.Blocks

abbrev Byte : Type := BitVec 8

/-- Branches are encoded for a displacement, which may be out of their reach. Sizes depend on no addresses. -/
structure Encoder (α ι : Type) where
  id : α → ι
  target : α → Option ι
  size : α → Nat
  plain : α → Nat → List Byte
  branch : α → Int → Option (List Byte)
  plain_length : ∀ x pc, (plain x pc).length = size x
  branch_length : ∀ x displacement bytes, branch x displacement = some bytes → bytes.length = size x
  branch_self : ∀ x, target x ≠ none → (branch x (-(size x : Int))).isSome
  size_pos : ∀ x, target x ≠ none → 0 < size x

structure EncodeState (ι : Type) where
  note : ι → Nat
  mem : Nat → Byte

inductive EncodeFault where
  | notFresh
  | tooLong
  | nullPc
deriving DecidableEq, Repr

def writeBytes (mem : Nat → Byte) (pc : Nat) (bytes : List Byte) (a : Nat) : Byte :=
  if pc ≤ a then bytes[a - pc]?.getD (mem a) else mem a

namespace Encoder

variable {α ι : Type} (E : Encoder α ι)

def encodedSize (xs : List α) : Nat := (xs.map E.size).sum

section Encode

variable [DecidableEq ι]

/-- `instruction::encode`: the address after the instruction, null if a branch is out of reach. -/
def encodeInstr (x : α) (target : Option ι) (pc : Nat) (s : EncodeState ι) : EncodeState ι × Option Nat :=
  let note := Function.update s.note (E.id x) pc
  match target with
  | none => ({ note, mem := writeBytes s.mem pc (E.plain x pc) }, some (pc + E.size x))
  | some t =>
    let targetPc : Int := pc + (note t - note (E.id x))
    match E.branch x (targetPc - (pc + E.size x)) with
    | some bytes => ({ note, mem := writeBytes s.mem pc bytes }, some (pc + bytes.length))
    | none => ({ s with note }, none)

def firstPass : List α → Nat → EncodeState ι → Except EncodeFault (EncodeState ι × Nat)
  | [], pc, s => .ok (s, pc)
  | x :: xs, pc, s =>
    match E.encodeInstr x ((E.target x).map fun _ => E.id x) pc s with
    | (s, some pc) => firstPass xs pc s
    | (_, none) => .error .nullPc

def secondPass : List α → EncodeState ι → EncodeState ι
  | [], s => s
  | x :: xs, s =>
    match E.target x with
    | none => secondPass xs s
    | some t => secondPass xs (E.encodeInstr x (some t) (s.note (E.id x)) s).1

def hasLocalJump (xs : List α) : Bool := xs.any fun x => (E.target x).isSome

def encode (test : Bool) (xs : List α) (startPc maxSize : Nat) (s : EncodeState ι) :
    Except EncodeFault (EncodeState ι × Nat) :=
  if xs.length = 0 then .ok (s, startPc)
  else if test && !(List.range maxSize).all (fun i => s.mem (startPc + i) == 0xcc) then .error .notFresh
  else
    match E.firstPass xs startPc s with
    | .error e => .error e
    | .ok (s, pc) =>
      let s := if E.hasLocalJump xs then E.secondPass xs s else s
      if test && !decide (pc ≤ startPc + maxSize) then .error .tooLong else .ok (s, pc)

/-- `memset` -/
def fill (pc size : Nat) (s : EncodeState ι) : EncodeState ι :=
  { s with mem := writeBytes s.mem pc (List.replicate size 0xcc) }

def encodeTrace (test : Bool) (trace stubs : List α) (startPc stubPc : Nat) (s : EncodeState ι) :
    Except EncodeFault (EncodeState ι × Nat × Nat) :=
  let stubSize := if stubs.length ≠ 0 then E.encodedSize stubs else 0
  if stubSize ≠ 0 then
    match E.encode test stubs stubPc stubSize s with
    | .error e => .error e
    | .ok (s, _) =>
      match E.encode test trace startPc (E.encodedSize trace) s with
      | .error e => .error e
      | .ok (s, pc) =>
        match E.encode test stubs stubPc stubSize (fill stubPc stubSize s) with
        | .error e => .error e
        | .ok (s, stubEnd) => .ok (s, pc, stubEnd)
  else
    match E.encode test trace startPc (E.encodedSize trace) s with
    | .error e => .error e
    | .ok (s, pc) => .ok (s, pc, stubPc)

end Encode

/-! ## What it should do -/

/-- The instruction stands at the address if the list is laid out without gaps. -/
def PlacedAt (pc : Nat) (xs : List α) (x : α) (a : Nat) : Prop :=
  ∃ pre post, xs = pre ++ x :: post ∧ a = pc + E.encodedSize pre

/-- A trace and its stubs, with branches to instructions of both. -/
structure TracePair (E : Encoder α ι) where
  trace : List α
  stubs : List α
  nodup : ((trace ++ stubs).map E.id).Nodup
  targets : ∀ x ∈ trace ++ stubs, ∀ t, E.target x = some t → t ∈ (trace ++ stubs).map E.id
  stub_branches : (∃ x ∈ trace, ∃ t ∈ stubs.map E.id, E.target x = some t) → ∃ y ∈ stubs, E.target y ≠ none

def Holds (mem : Nat → Byte) (a : Nat) (bytes : List Byte) : Prop := ∀ i b, bytes[i]? = some b → mem (a + i) = b

variable {E}

def TracePair.At (p : TracePair E) (startPc stubPc : Nat) (x : α) (a : Nat) : Prop :=
  E.PlacedAt startPc p.trace x a ∨ E.PlacedAt stubPc p.stubs x a

/-- Each instruction stands at its place, and each branch goes to the place of its target if it can. -/
def TracePair.Resolved (p : TracePair E) (startPc stubPc : Nat) (mem : Nat → Byte) : Prop :=
  ∀ x a, p.At startPc stubPc x a →
    (E.target x = none → Holds mem a (E.plain x a)) ∧
      ∀ t, E.target x = some t → ∃ y b, E.id y = t ∧ p.At startPc stubPc y b ∧
        ∀ bytes, E.branch x (b - (a + E.size x)) = some bytes → Holds mem a bytes

structure TracePair.Fresh (p : TracePair E) (startPc stubPc : Nat) (mem : Nat → Byte) : Prop where
  trace : ∀ a, startPc ≤ a → a < startPc + E.encodedSize p.trace → mem a = 0xcc
  stubs : ∀ a, stubPc ≤ a → a < stubPc + E.encodedSize p.stubs → mem a = 0xcc
  disjoint : startPc + E.encodedSize p.trace ≤ stubPc ∨ stubPc + E.encodedSize p.stubs ≤ startPc

end Encoder

end Granary.Blocks
