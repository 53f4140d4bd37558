import Granary.DataFlow.DeadRegs
import Granary.Registers.Manager

/-!
# Tables of live registers

The C++ code that `dead_regs.py` generates from the results of the analysis, which looks up the live registers at the end of a
basic block. The offset of the block in its module has been found already.
-/

namespace Granary.DataFlow

open Registers

/-- A block by its offset, and the registers that are live at its end. -/
abbrev Entry := Nat × Mask

/-- Comparisons one after the other, and a comparison that tells two halves apart. -/
inductive SearchCode (α : Type) where
  | checks (bbs : List (Nat × α))
  | branch (pivot : Nat) (first second : SearchCode α)
deriving Repr

def genBinSearch {α : Type} (bbs : List (Nat × α)) : SearchCode α :=
  if h : bbs.length ≤ 4 then .checks bbs
  else
    let split := bbs.length / 2
    .branch (bbs[split - 1]).1 (genBinSearch (bbs.take split)) (genBinSearch (bbs.drop split))
termination_by bbs.length

def SearchCode.run {α : Type} (appOffset : Nat) : SearchCode α → Option α
  | checks bbs => (bbs.find? fun bb => bb.1 = appOffset).map (·.2)
  | branch pivot first second => if pivot ≥ appOffset then first.run appOffset else second.run appOffset

def emitted (results : List Entry) : List Entry := results.filter fun bb => allLive ≠ bb.2

/-- The function that `gen_reg_getter` generates. -/
def getLiveRegistersIn (bbs : List Entry) (appOffset : Nat) : BitVec 32 :=
  match (genBinSearch (bbs.mergeSort fun a b => a.1 ≤ b.1)).run appOffset with
  | some live => live.setWidth 32
  | none => 0

def getLiveRegisters (results : List Entry) (offset : Nat) : Manager :=
  let liveRegsInt := getLiveRegistersIn (emitted results) offset
  if liveRegsInt ≠ 0 then .decode liveRegsInt else .reviveAll

end Granary.DataFlow
