import Granary.Lib.BitField
import Mathlib.Algebra.Ring.Nat
import Mathlib.Logic.Function.Basic

/-!
# The delay states of a block

`granary/basic_block.cc`. A block in which interrupts are delayed has a state for each of its bytes, of two bits each. They
are written once, from the flags of the encoded instructions, and an interrupt handler finds the range of instructions
around an address in them. The assertions are left out.
-/

namespace Granary.Interrupts

/-! ## State bytes -/

inductive ByteState where
  | native
  | delayBegin
  | delayCont
  | delayEnd
deriving DecidableEq, Repr

namespace ByteState

def code : ByteState → BitVec 2
  | native => 0
  | delayBegin => 1
  | delayCont => 2
  | delayEnd => 3

def ofCode (c : BitVec 2) : ByteState :=
  if c = 0 then native else if c = 1 then delayBegin else if c = 2 then delayCont else delayEnd

def safe : ByteState → Bool
  | native | delayBegin => true
  | delayCont | delayEnd => false

end ByteState

def statesPerByte : Nat := 4

def bitsPerState : Nat := 2

def bitsPerQword : Nat := 64

/-- Memory from the first state byte of a block on, and the positions that were written. -/
structure StateBytes where
  byte : Nat → BitVec 8
  written : List Nat

namespace StateBytes

def write (b : StateBytes) (j : Nat) (v : BitVec 8) : StateBytes :=
  { byte := Function.update b.byte j v, written := j :: b.written }

def getState (b : StateBytes) (i : Nat) : ByteState :=
  .ofCode (BitField.get (2 * (i % statesPerByte)) 2 (b.byte (i / statesPerByte)))

def setState (b : StateBytes) (i : Nat) (state : ByteState) : StateBytes :=
  b.write (i / statesPerByte) (BitField.put (2 * (i % statesPerByte)) state.code (b.byte (i / statesPerByte)))

def fill (b : StateBytes) (i n : Nat) (state : ByteState) : StateBytes :=
  (List.range' i n).foldl (fun b j => b.setState j state) b

def clear (b : StateBytes) (n : Nat) : StateBytes := (List.range n).foldl (fun b j => b.write j 0) b

end StateBytes

/-! ## Initialisation -/

structure Encoded where
  size : Nat
  delayBegin : Bool
  delayEnd : Bool
deriving DecidableEq, Repr

def getInstructionState (i : Encoded) (prevState : ByteState) : ByteState :=
  if i.delayBegin && i.delayEnd then .native
  else if i.delayBegin then .delayBegin
  else if i.delayEnd then .delayEnd
  else
    match prevState with
    | .delayBegin => .delayCont
    | .delayCont => .delayCont
    | _ => .native

def requiresStateBytes (ins : List Encoded) : Bool := ins.any fun i => i.delayBegin || i.delayEnd

structure InitState where
  bytes : StateBytes
  byteOffset : Nat
  prevByteOffset : Nat
  prevState : ByteState
  numDelayedInstructions : Nat
  prevNumDelayedInstructions : Nat

def unsignedPred (x : Nat) : Nat := if x = 0 then 2 ^ 32 - 1 else x - 1

namespace InitState

/-- Count an instruction of a delay region, or start to count anew. -/
def count (s : InitState) (state : ByteState) (size : Nat) : InitState :=
  if state = .native then
    { s with prevNumDelayedInstructions := s.numDelayedInstructions, numDelayedInstructions := 0 }
  else if size ≠ 0 then { s with numDelayedInstructions := s.numDelayedInstructions + 1 }
  else s

/-- Undo the states of the last instruction if it was a region of its own. -/
def clearSingle (s : InitState) : InitState :=
  if s.prevNumDelayedInstructions = 1 then
    { s with bytes := s.bytes.fill s.prevByteOffset (s.byteOffset - s.prevByteOffset) .native }
  else s

def store (s : InitState) (state : ByteState) (size : Nat) : InitState :=
  let bytes := s.bytes.fill s.byteOffset size (if state = .native then .native else .delayCont)
  { s with
    bytes :=
      match state with
      | .delayBegin => bytes.setState s.byteOffset .delayBegin
      | .delayEnd => bytes.setState (unsignedPred (s.byteOffset + size)) .delayEnd
      | _ => bytes }

def advance (s : InitState) (state : ByteState) (size : Nat) : InitState :=
  { s with prevByteOffset := s.byteOffset, byteOffset := s.byteOffset + size, prevState := state }

def step (s : InitState) (i : Encoded) : InitState :=
  let state := getInstructionState i s.prevState
  (((s.count state i.size).clearSingle).store state i.size).advance state i.size

def run (s : InitState) (ins : List Encoded) : InitState := ins.foldl step s

end InitState

def numStateBytes (numBytes : Nat) : Nat :=
  let numInstructionBits := numBytes * bitsPerState
  let numInstructionBits :=
    numInstructionBits +
      if numInstructionBits % bitsPerQword = 0 then 0 else bitsPerQword - numInstructionBits % bitsPerQword
  numInstructionBits / 8

def InitState.start (bytes : StateBytes) : InitState :=
  { bytes := bytes
    byteOffset := 0
    prevByteOffset := 0
    prevState := .native
    numDelayedInstructions := 0
    prevNumDelayedInstructions := 0 }

def initialiseStateBytes (ins : List Encoded) (bytes : StateBytes) (numBytes : Nat) : StateBytes :=
  ((InitState.start (bytes.clear (numStateBytes numBytes))).run ins).bytes

/-! ## Lookup -/

def findEnd (b : StateBytes) (i : Nat) : (n : Nat) → Option Nat
  | 0 => none
  | n + 1 => if b.getState i = .delayEnd then some (i + 1) else findEnd b (i + 1) n

def findBegin (b : StateBytes) : (n : Nat) → Option Nat
  | 0 => none
  | n + 1 => if (b.getState n).safe then some n else findBegin b n

def getInterruptDelayRange (delayStates : Option StateBytes) (startPc : Nat) (numBytes : BitVec 16)
    (currentPc beginPc endPc : Nat) : Bool × Nat × Nat :=
  match delayStates with
  | none => (false, beginPc, endPc)
  | some b =>
    if currentPc = startPc then (false, beginPc, endPc)
    else
      let currentOffset := currentPc - startPc
      if (b.getState currentOffset).safe then (false, 0, 0)
      else
        let endPc := ((findEnd b currentOffset (numBytes.toNat - currentOffset)).map (startPc + ·)).getD endPc
        let beginPc := ((findBegin b currentOffset).map (startPc + ·)).getD beginPc
        (decide (endPc ≠ 0 ∧ beginPc ≠ 0), beginPc, endPc)

/-! ## Blocks -/

/-- The sizes of the instructions of a delay region with at least two. -/
structure DelayRegion where
  first : Nat
  middle : List Nat
  last : Nat
deriving DecidableEq, Repr

/-- An instruction outside of delay regions, a region that is one instruction, or a longer one. -/
inductive Piece where
  | native (size : Nat)
  | single (size : Nat)
  | region (r : DelayRegion)
deriving DecidableEq, Repr

namespace DelayRegion

def sizes (r : DelayRegion) : List Nat := r.first :: r.middle ++ [r.last]

def size (r : DelayRegion) : Nat := r.sizes.sum

def firstSize (r : DelayRegion) : Nat := (r.sizes.find? (· ≠ 0)).getD 0

def encoded (r : DelayRegion) : List Encoded :=
  ⟨r.first, true, false⟩ :: (r.middle.map fun n => ⟨n, false, false⟩) ++ [⟨r.last, false, true⟩]

/-- It begins with an instruction that is not empty, and has another one. -/
def Good (r : DelayRegion) : Prop := r.first ≠ 0 ∧ ∃ n ∈ r.middle ++ [r.last], n ≠ 0

instance (r : DelayRegion) : Decidable r.Good := inferInstanceAs (Decidable (_ ∧ _))

end DelayRegion

namespace Piece

def encoded : Piece → List Encoded
  | native size => [⟨size, false, false⟩]
  | single size => [⟨size, true, true⟩]
  | region r => r.encoded

def size : Piece → Nat
  | native size => size
  | single size => size
  | region r => r.size

end Piece

def blockEncoded (block : List Piece) : List Encoded := block.flatMap Piece.encoded

def blockSize (block : List Piece) : Nat := (block.map Piece.size).sum

/-- The states of a block, in memory that may hold anything before. -/
def delayStates (block : List Piece) (byte : Nat → BitVec 8) : Option StateBytes :=
  if requiresStateBytes (blockEncoded block) then
    some (initialiseStateBytes (blockEncoded block) ⟨byte, []⟩ ((blockSize block + 7) / statesPerByte))
  else none

def Boundary (block : List Piece) (offset : Nat) : Prop :=
  offset < blockSize block ∧
    ∃ before after, blockEncoded block = before ++ after ∧ offset = (before.map Encoded.size).sum

/-- The offset is in the region between `lo` and `hi`, after its first instruction that is not empty. -/
def InRegion (block : List Piece) (offset lo hi : Nat) : Prop :=
  ∃ before r after, block = before ++ .region r :: after ∧ lo = blockSize before ∧ hi = lo + r.size ∧
    lo + r.firstSize ≤ offset ∧ offset < hi

/-- `num_bytes` of the `basic_block_info`, which has 16 bits. -/
def blockNumBytes (block : List Piece) : BitVec 16 := BitVec.ofNat 16 (blockSize block)

def LookupsRight (block : List Piece) : Prop :=
  ∀ (byte : Nat → BitVec 8) (startPc beginPc endPc offset : Nat), 0 < startPc → Boundary block offset →
    (∀ lo hi, InRegion block offset lo hi →
      getInterruptDelayRange (delayStates block byte) startPc (blockNumBytes block) (startPc + offset) beginPc endPc =
        (true, startPc + lo, startPc + hi)) ∧
    ((¬ ∃ lo hi, InRegion block offset lo hi) →
      (getInterruptDelayRange (delayStates block byte) startPc (blockNumBytes block) (startPc + offset) beginPc endPc).1 =
        false)

/-- The lookup gets to the end of every region. -/
def EndsSeen (block : List Piece) : Prop :=
  ∀ before r after, block = before ++ .region r :: after → blockSize before + r.size ≤ (blockNumBytes block).toNat

end Granary.Interrupts
