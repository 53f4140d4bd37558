import Mathlib.Algebra.Ring.Nat
import Mathlib.Tactic.Common

/-!
# Alignment of branches that are patched

`instruction_list_mangler::align` of `granary/mangle.cc`, `insert_nops_after` of `granary/emit_utils.cc` and
`estimate_max_size` of `granary/basic_block.cc`. Sizes are unbounded numbers, as all code is less than 4 GiB in size.
-/

namespace Granary.Instructions

def cacheLineSize : Nat := 64

def rel32OffsetSize : Nat := 4

/-- `body` is all the rest of an instruction, and `size` is its size without branch hints. -/
structure Ins (τ : Type) where
  body : τ
  cti : Bool
  unconditional : Bool
  patchable : Bool
  /-- `PREFIX_JCC_NOT_TAKEN` -/
  notTaken : Bool
  /-- `PREFIX_JCC_TAKEN` -/
  taken : Bool
  size : Nat
  /-- Instructions that are patched are `jmp`, `call` and `jcc` with four bytes of displacement. -/
  branch : patchable → cti ∧ size = if unconditional then 5 else 6

namespace Ins

variable {τ : Type} (i : Ins τ)

def hinted : Bool := i.notTaken || i.taken

def stripHints : Ins τ := { i with notTaken := false, taken := false }

/-- `PREFIX_JCC_NOT_TAKEN` is added -/
def addHint : Ins τ := { i with notTaken := true }

/-- `instr_length`: a branch hint is a byte, and branches without a condition are the same size with and without it. -/
def encodedSize : Nat := if i.hinted ∧ ¬i.unconditional then i.size + 1 else i.size

def opcodeSize : Nat := if i.unconditional then 1 else 2

end Ins

/-- An instruction of the list, or one that `insert_nops_after` makes. -/
inductive Item (τ : Type) where
  | ins (i : Ins τ)
  | nop (size : Nat)
  | jmpShort
  | label

variable {τ : Type}

namespace Item

def size : Item τ → Nat
  | ins i => i.encodedSize
  | nop n => n
  | jmpShort => 2
  | label => 0

def isPatchable : Item τ → Bool
  | ins i => i.patchable
  | _ => false

def original? : Item τ → Option (Ins τ)
  | ins i => some i.stripHints
  | _ => none

def isNop : Item τ → Bool
  | nop _ => true
  | _ => false

end Item

def insertNops : Nat → List (Item τ)
  | 0 => []
  | 1 => [.nop 1]
  | 2 => [.nop 2]
  | 3 => [.nop 3]
  | n + 4 => .jmpShort :: List.replicate (n + 2) (.nop 1) ++ [.label]

inductive AlignAssert where
  | size
  | cti
  | prev
  | forward
deriving DecidableEq, Repr

def alignCheck (site : AlignAssert) (p : Prop) [Decidable p] : Except AlignAssert Unit :=
  if p then return () else throw site

/-- The body of the loop: what is laid out for an instruction, and its size. -/
def alignIns (prev : Bool) (currAlign : Nat) (i : Ins τ) : Except AlignAssert (List (Item τ) × Nat) := do
  let opcodeSize := i.opcodeSize
  let i := if opcodeSize = 2 ∧ i.hinted then i.stripHints else i
  let inSize := i.encodedSize
  if ¬i.patchable then return ([.ins i], inSize)
  alignCheck .size (inSize = opcodeSize + rel32OffsetSize)
  alignCheck .cti i.cti
  let cacheLineOffset := currAlign % cacheLineSize
  if cacheLineOffset + inSize ≤ cacheLineSize then return ([.ins i], inSize)
  let forwardAlign := cacheLineSize - cacheLineOffset
  -- the displacement is already in the next cache line
  if forwardAlign ≤ opcodeSize then return ([.ins i], inSize)
  let forwardAlign := forwardAlign - opcodeSize
  alignCheck .prev prev
  alignCheck .forward (forwardAlign < 8)
  let prefixAlign := if opcodeSize = 2 then 1 else 0
  let forwardAlign := forwardAlign - prefixAlign
  let i := if prefixAlign = 0 then i else i.addHint
  return (insertNops forwardAlign ++ [.ins i], inSize + (forwardAlign + prefixAlign))

def alignLoop (done : List (Item τ)) (currAlign size : Nat) :
    List (Ins τ) → Except AlignAssert (List (Item τ) × Nat)
  | [] => return (done, size)
  | i :: ls => do
      let (items, inSize) ← alignIns (!done.isEmpty) currAlign i
      alignLoop (done ++ items) (currAlign + inSize) (size + inSize) ls

def align (ls : List (Ins τ)) (currAlign : Nat) : Except AlignAssert (List (Item τ) × Nat) :=
  alignLoop [] currAlign 0 ls

def estimateMaxSize (ls : List (Ins τ)) : Nat :=
  (ls.map fun i => i.encodedSize + if i.patchable then 8 else 0).sum

/-! ## Layout -/

def InLine (addr : Nat) : Prop := addr / cacheLineSize = (addr + 3) / cacheLineSize

instance (addr : Nat) : Decidable (InLine addr) := inferInstanceAs (Decidable (_ = _))

def totalSize (ls : List (Item τ)) : Nat := (ls.map Item.size).sum

/-- The displacement of every branch that is patched, its last four bytes, is in one line. -/
def Aligned : Nat → List (Item τ) → Prop
  | _, [] => True
  | addr, x :: ls =>
    (x.isPatchable → InLine (addr + x.size - rel32OffsetSize)) ∧ Aligned (addr + x.size) ls

structure AlignSpec (ls : List (Ins τ)) (currAlign : Nat) (out : List (Item τ)) (size : Nat) : Prop where
  aligned : Aligned currAlign out
  size_eq : size = totalSize out
  size_le : size ≤ estimateMaxSize ls
  /-- Without NOPs and branch hints the instructions are the same. -/
  same : out.filterMap Item.original? = ls.map Ins.stripHints
  nops : ∀ x ∈ out, x.original?.isSome ∨ x.isNop

def FirstInLine (ls : List (Ins τ)) (currAlign : Nat) : Prop :=
  ∀ i ∈ ls.head?, i.patchable → InLine (currAlign + i.opcodeSize)

end Granary.Instructions
