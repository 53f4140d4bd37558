import Granary.Instructions.Align
import Granary.Interrupts.DelayStates

/-!
# The buffer for the delay states of a trace

`basic_block::translate` allocates the state bytes of all blocks of a trace at once. How many a block gets depends on how
big it can become, and they are written after the trace was aligned and encoded.
-/

namespace Granary.Interrupts

open Instructions

structure DelayFlags where
  delayBegin : Bool
  delayEnd : Bool
deriving DecidableEq, Repr

abbrev BlockIns := Ins DelayFlags

def labelIns : BlockIns where
  body := ⟨false, false⟩
  cti := false
  unconditional := false
  patchable := false
  notTaken := false
  taken := false
  size := 0
  branch h := absurd h Bool.false_ne_true

def labelled (b : List BlockIns) : List BlockIns := labelIns :: b ++ [labelIns]

/-- What `initialise_state_bytes` sees of an instruction. -/
def encodedItem : Item DelayFlags → Encoded
  | .ins i => ⟨i.encodedSize, i.body.delayBegin, i.body.delayEnd⟩
  | x => ⟨x.size, false, false⟩

/-- The instructions that `align` makes of each block, from its start label to before its end label. -/
def alignBlocks (done : List (Item DelayFlags)) (currAlign size : Nat) :
    List (List BlockIns) → Except AlignAssert (List (List (Item DelayFlags)))
  | [] => return []
  | b :: bs => do
      let (out, size₁) ← alignLoop done currAlign size (labelIns :: b)
      let (out', size₂) ← alignLoop out (currAlign + (size₁ - size)) size₁ [labelIns]
      let rest ← alignBlocks out' (currAlign + (size₂ - size)) size₂ bs
      return out.drop done.length :: rest

/-! ## Slices -/

/-- `requires_state_bytes`, from the start label on. -/
def needsStates (b : List BlockIns) : Bool :=
  (labelIns :: b).any fun i => i.body.delayBegin || i.body.delayEnd

/-- `num_state_bytes` of a block. -/
def sliceSize (b : List BlockIns) : Nat :=
  if needsStates b then (estimateMaxSize (labelled b) + 7) / statesPerByte else 0

def slices (offset : Nat) : List (List BlockIns) → List (Nat × Nat)
  | [] => []
  | b :: bs => (offset, sliceSize b) :: slices (offset + sliceSize b) bs

def traceNumStateBytes (bs : List (List BlockIns)) : Nat := (bs.map sliceSize).sum

/-- The positions in its slice that are written for an encoded block. -/
def writtenBytes (items : List (Item DelayFlags)) (byte : Nat → BitVec 8) : List Nat :=
  (initialiseStateBytes (items.map encodedItem) ⟨byte, []⟩ ((totalSize items + 7) / statesPerByte)).written

/-- Each block writes to its own slice only, and has the states of all of its bytes there. -/
structure BufferSafe (bs : List (List BlockIns)) (out : List (List (Item DelayFlags))) : Prop where
  writes : ∀ x ∈ bs.zip out, needsStates x.1 → ∀ byte, ∀ j ∈ writtenBytes x.2 byte, j < sliceSize x.1
  apart : (slices 0 bs).Pairwise fun a b => a.1 + a.2 ≤ b.1
  inside : ∀ a ∈ slices 0 bs, a.1 + a.2 ≤ traceNumStateBytes bs
  covered : ∀ x ∈ bs.zip out, needsStates x.1 → ∀ k < totalSize x.2, k / statesPerByte < sliceSize x.1

/-- A region ends with an empty instruction before which there are only empty ones. -/
def endsAtStart : List BlockIns → Bool
  | [] => false
  | i :: b => i.size == 0 && ((i.body.delayEnd && !i.body.delayBegin) || endsAtStart b)

end Granary.Interrupts
