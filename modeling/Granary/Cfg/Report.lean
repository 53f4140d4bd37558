import Granary.Blocks.Pgo
import Mathlib.Algebra.Ring.Nat

/-!
# Reports about basic blocks

`report_bb` of `clients/cfg/report.cc`, which prints what was recorded about a basic block into a buffer. A call of `sprintf`
that would write outside of the buffer has no result, and neither has a read outside of the table of names. How `%p` prints an
address depends on the C library, so this is a parameter. Characters are bytes.
-/

namespace Granary.Cfg

open Blocks

def logBuffSize : Nat := 2048

def jccNames : List String :=
  ["jo", "jno", "jb", "jnb", "jz", "jnz", "jbe", "jnbe", "js", "jns", "jp", "jnp", "jl", "jnl", "jle", "jnle"]

/-- The opcode after decoding. `convert_to_near_rel_common` leaves LOOP and JECXZ alone. -/
def widenIfCti : CondOpcode → CondOpcode
  | .jccShort c => .jcc c
  | op => op

/-- Returns are like instructions that are not CTIs, and an indirect CTI comes with the slots of its targets. -/
inductive ReportedCti where
  | none
  | indirect (isCall : Bool) (indirectTargets : List (Option Nat))
  | call (target : Nat)
  | jump (target : Nat)
  | cond (op : CondOpcode) (target : Nat)

structure ReportedInstr where
  pc : Nat
  nextPc : Nat
  cti : ReportedCti

/-- A block with its accessible instructions. In the kernel, its module and the offset there are printed, too. -/
structure ReportedBlock where
  cacheOffset : Nat
  numBytes : Nat
  allocator : Nat
  numBbsInTrace : Nat
  nativePcStart : Nat
  numExecutions : Nat
  numFallThroughExecutions : Nat
  kernelModule : Option (Nat × String)
  instrs : List ReportedInstr

def decimal (n : Nat) : String := String.ofList (Nat.toDigits 10 n)

/-- `%x` prints an `unsigned`. -/
def hexadecimal (n : Nat) : String := String.ofList (Nat.toDigits 16 (n % 2 ^ 32))

/-- Prints at an index of the buffer, and returns the index of the null character. -/
def sprintf (i : Nat) (text : String) : Option Nat :=
  if i + text.length + 1 ≤ logBuffSize then some (i + text.length) else none

section

variable (pointer : Nat → String) (bb : ReportedBlock)

def headerText : String :=
  "BB(" ++ hexadecimal bb.cacheOffset ++ "," ++ decimal bb.numBytes ++ "," ++ pointer bb.allocator ++ "," ++
    decimal bb.numBbsInTrace ++ "," ++ pointer bb.nativePcStart ++ "," ++ decimal bb.numExecutions ++
    (match bb.kernelModule with
      | some (offset, name) => "," ++ hexadecimal offset ++ "," ++ name
      | none => "") ++
    ")\n"

/-- The lines that are printed for an instruction. -/
def instrTexts (i : ReportedInstr) : Option (List String) :=
  match i.cti with
  | .none => some []
  | .indirect isCall targets =>
    some (((targets.takeWhile Option.isSome).filterMap id).map fun target =>
      (if isCall then "CALL*(" else "JMP*(") ++ pointer i.pc ++ "," ++ pointer target ++ ")\n")
  | .call target => some ["CALL(" ++ pointer target ++ ")\n"]
  | .jump target => some ["JMP(" ++ pointer target ++ ")\n"]
  | .cond op target =>
    (arrayGet jccNames ((widenIfCti op).number - opJo)).toOption.map fun name =>
      ["Jcc(" ++ name ++ "," ++ pointer target ++ "," ++ pointer i.nextPc ++ "," ++
        decimal bb.numFallThroughExecutions ++ ")\n"]

def reportInstr (i : Nat) (instr : ReportedInstr) : Option Nat := do
  (← instrTexts pointer bb instr).foldlM sprintf i

/-- The length of the report. -/
def reportBb : Option Nat := do
  let i ← sprintf 0 (headerText pointer bb)
  let i ← bb.instrs.foldlM (reportInstr pointer bb) i
  if i < logBuffSize then some i else none

def instrSize (instr : ReportedInstr) : Nat := (((instrTexts pointer bb instr).getD []).map String.length).sum

/-- The characters of all lines. -/
def reportSize : Nat := (headerText pointer bb).length + (bb.instrs.map (instrSize pointer bb)).sum

end

end Granary.Cfg
