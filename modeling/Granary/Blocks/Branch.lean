import Granary.Lib.X86

/-!
# Conditional branches

The conditional control-transfer instructions that end basic blocks: Jcc, LOOP, LOOPE, LOOPNE and JECXZ.
-/

namespace Granary.Blocks

open Machine

inductive Cond where
  | o | no | b | nb | z | nz | be | nbe | s | ns | p | np | l | nl | le | nle
deriving DecidableEq, Repr

def cf (flags : Word) : Bool := flags.getLsbD 0

def pf (flags : Word) : Bool := flags.getLsbD 2

def Cond.holds (flags : Word) : Cond → Bool
  | o => of flags
  | no => !of flags
  | b => cf flags
  | nb => !cf flags
  | z => zf flags
  | nz => !zf flags
  | be => cf flags || zf flags
  | nbe => !(cf flags || zf flags)
  | s => sf flags
  | ns => !sf flags
  | p => pf flags
  | np => !pf flags
  | l => sf flags != of flags
  | nl => sf flags == of flags
  | le => zf flags || sf flags != of flags
  | nle => !(zf flags || sf flags != of flags)

@[ext] structure CpuState (ρ : Type) where
  rcx : Word
  flags : Word
  rest : ρ

/-! ## Counters -/

def counter (addr32 : Bool) (rcx : Word) : Word := if addr32 then (rcx.setWidth 32).setWidth 64 else rcx

/-- One less. Writes to `ecx` clear the high half of `rcx`. -/
def decrement (addr32 : Bool) (rcx : Word) : Word := counter addr32 (rcx - 1)

inductive LoopKind where
  | loopne | loope | loop | jecxz
deriving DecidableEq, Repr

def LoopKind.exec {ρ : Type} (kind : LoopKind) (addr32 : Bool) (s : CpuState ρ) : CpuState ρ × Bool :=
  let rcx := decrement addr32 s.rcx
  match kind with
  | loopne => ({ s with rcx }, rcx ≠ 0 && !zf s.flags)
  | loope => ({ s with rcx }, rcx ≠ 0 && zf s.flags)
  | loop => ({ s with rcx }, rcx ≠ 0)
  | jecxz => (s, counter addr32 s.rcx = 0)

end Granary.Blocks
