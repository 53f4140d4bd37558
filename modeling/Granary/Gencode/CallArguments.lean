import Granary.Gencode.CleanCall
import Granary.Lib.Moves
import Granary.Mangle.IndirectBranch

/-!
# Arguments of clean calls

`insert_clean_call_after` of `granary/emit_utils.h`, which saves the argument registers on the stack and then moves the
arguments to them. Arguments that a client computes with its own code are left out.
-/

namespace Granary.Gencode

open Machine
open Mangle (MemOp Segment)

/-- An immediate value, a register of 64 bits, a word in memory, or the address of an instruction. -/
inductive CallArg where
  | imm (v : Word)
  | reg (r : Reg)
  | mem (op : MemOp)
  | instr (addr : Word)

structure CallArgs where
  args : List CallArg
  length_le : args.length ≤ argumentRegisters.length

/-! ## The code -/

/-- What is inserted: instructions, loads, and LEA of the address of an instruction. -/
inductive ArgItem where
  | instr (i : Instr)
  | movLd (dst : Reg) (op : MemOp)
  | leaInstr (dst : Reg) (addr : Word)

/-- One argument of `insert_clean_call_arguments_after`. -/
def CallArg.move (dst : Reg) : CallArg → List ArgItem
  | imm v => [.instr (.movImm dst v)]
  | reg r => if dst ≠ r then [.instr (.mov dst r)] else []
  | mem op => [.movLd dst op]
  | instr addr => [.leaInstr dst addr]

namespace CallArgs

variable (a : CallArgs)

def regs : List Reg := argumentRegisters.take a.args.length

def moves : List (Reg × CallArg) := a.regs.zip a.args

def beforeCall : List ArgItem :=
  a.regs.map (fun r => .instr (.push r)) ++ a.moves.flatMap fun p => p.2.move p.1

end CallArgs

/-! ## Running it -/

section Run

variable (alu : Instr → State → Word) (segBase : Segment → Word)

def ArgItem.exec (s : State) : ArgItem → State
  | instr i => Machine.exec alu i s
  | movLd dst op => s.set dst (s.mem.read (op.addr segBase s.reg))
  | leaInstr dst addr => s.set dst addr

def runArgs (code : List ArgItem) (s : State) : State := code.foldl (ArgItem.exec alu segBase) s

def CallArg.value (mem : Memory) (arg : CallArg) (reg : Reg → Word) : Word :=
  match arg with
  | imm v => v
  | .reg r => reg r
  | .mem op => mem.read (op.addr segBase reg)
  | instr addr => addr

def PassesArguments (a : CallArgs) (s : State) : Prop :=
  ∀ p ∈ a.moves, (runArgs alu segBase a.beforeCall s).reg p.1 = p.2.value segBase s.mem s.reg

end Run

/-! ## Operands that can be passed -/

def CallArg.Mentions (arg : CallArg) (r : Reg) : Prop :=
  match arg with
  | .reg q => r = q
  | .mem (.baseDisp op) => op.base = some r ∨ op.index = some r
  | _ => False

def CallArg.isMem : CallArg → Bool
  | mem _ => true
  | _ => false

/-- The arguments depend neither on `rsp`, nor on registers that earlier arguments change. -/
def CallArgs.Ordered (a : CallArgs) : Prop :=
  ∀ before p after, a.moves = before ++ p :: after → ∀ r, p.2.Mentions r →
    r ≠ .rsp ∧ ∀ q ∈ before, q.1 = r → q.2 = .reg r

def CallArgs.Apart (segBase : Segment → Word) (a : CallArgs) (regs : Reg → Word) : Prop :=
  ∀ op, .mem op ∈ a.args → ∀ k < a.args.length, WordsApart (op.addr segBase regs) (regs .rsp - BitVec.ofNat 64 (8 * (k + 1)))

end Granary.Gencode
