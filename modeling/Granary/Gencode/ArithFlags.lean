import Granary.Lib.Stack

/-!
# Saving the arithmetic flags

`insert_save_arithmetic_flags_after` and `insert_restore_arithmetic_flags_after` of `granary/emit_utils.cc`: the
instructions that they insert before and after code that may change the flags.
-/

namespace Granary.Gencode

open Machine

inductive FlagSaveConstraint where
  | regAhIsDead | regAhIsLive
deriving DecidableEq, Repr

def insertSaveArithmeticFlagsAfter : FlagSaveConstraint → List Machine.Instr
  | .regAhIsLive => [.push .rax, .push .rax, .lahf, .store .rsp 8 .rax, .pop .rax]
  | .regAhIsDead => [.lahf, .push .rax]

def insertRestoreArithmeticFlagsAfter : FlagSaveConstraint → List Machine.Instr
  | .regAhIsLive => [.push .rax, .load .rax .rsp 8, .sahf, .pop .rax, .lea .rsp .rsp 8]
  | .regAhIsDead => [.pop .rax, .sahf]

section Body

variable (alu : Machine.Instr → State → Word) (constraint : FlagSaveConstraint) (body : State → State) (s : State)

def saved : State := run alu (insertSaveArithmeticFlagsAfter constraint) s

/-- The code between leaves the stack pointer and the word on top of the stack as they were. -/
structure Balanced : Prop where
  rsp : (body (saved alu constraint s)).reg .rsp = (saved alu constraint s).reg .rsp
  top : (body (saved alu constraint s)).top = (saved alu constraint s).top

def aroundBody : State :=
  run alu (insertRestoreArithmeticFlagsAfter constraint) (body (saved alu constraint s))

/-- Arithmetic flags, stack pointer and registers that the code between left alone are as they were; `rax` need not be if `ah`
is dead. -/
structure RoundTrip : Prop where
  flags : (aroundBody alu constraint body s).flags &&& arithMask = s.flags &&& arithMask
  rsp : (aroundBody alu constraint body s).reg .rsp = s.reg .rsp
  reg : ∀ q, (q = .rax → constraint = .regAhIsLive) →
    (body (saved alu constraint s)).reg q = (saved alu constraint s).reg q →
      (aroundBody alu constraint body s).reg q = s.reg q

end Body

end Granary.Gencode
