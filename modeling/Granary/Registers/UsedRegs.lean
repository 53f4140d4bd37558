import Granary.Lib.Worklist
import Granary.Registers.Liveness

/-!
# The registers that a function uses

`find_used_regs_in_func` of `granary/emit_utils.cc`, which looks through the basic blocks of a function for the registers
that its instructions write. The registers that it finds are dead in the register manager that it returns.
-/

namespace Granary.Registers

open Machine Relation

/-! ## Code -/

inductive Flow where
  | next
  | swapgs
  /-- RET, RET_FAR, IRET and SYSRET -/
  | ret
  /-- a jump, to nowhere in particular if it is indirect -/
  | jmp (target : Option Nat)
  | jcc (target : Nat)
  | call (target : Option Nat)
  /-- the bytes are no instruction -/
  | invalid
deriving DecidableEq, Repr

/-- The operands are those that the decoder lists, so the write of SYSCALL to `r11` is not in them. -/
structure Decoded where
  flow : Flow
  dsts : List Operand
  length : Nat
  length_pos : 0 < length

def Decoded.ofTail (flow : Flow) (dsts : List Operand) (tail : Nat) : Decoded where
  flow := flow
  dsts := dsts
  length := tail + 1
  length_pos := Nat.succ_pos tail

abbrev Code := Nat → Decoded

/-- `USED_REGS_VISIT_ALL_INSTRUCTIONS` and `USED_REGS_IGNORE_CALLS`. -/
inductive TraversalConstraint where
  | visitAllInstructions | ignoreCalls
deriving DecidableEq, Repr

/-! ## The search -/

namespace RegisterManager

def killOp (rm : RegisterManager) : Operand → RegisterManager
  | .reg r => rm.kill r
  | .baseDisp base index => (rm.kill64 base).kill64 index
  | .other => rm

def killDests (rm : RegisterManager) (i : Decoded) : RegisterManager := i.dsts.foldl killOp rm

def killAll : RegisterManager := { live := forceLive, liveXmm := fun _ => false }

end RegisterManager

inductive SearchExit where
  | returned (used : RegisterManager)
  /-- a loop goes on for too long -/
  | running

abbrev UsedRegs := Worklist.Search Nat RegisterManager

def visitBlock (code : Code) (constraint : TraversalConstraint) : Nat → Nat → UsedRegs → Except SearchExit UsedRegs
  | 0, _, _ => throw .running
  | fuel + 1, bb, s =>
    if bb = 0 then return s
    else
      let i := code bb
      let bb := bb + i.length
      let s := { s with data := s.data.killDests i }
      match i.flow with
      | .ret | .swapgs | .invalid => return s
      | .next => visitBlock code constraint fuel bb s
      | .jmp none => throw (.returned .killAll)
      | .jmp (some target) => return s.add target
      | .jcc target => return (s.add target).add bb
      | .call target =>
        if constraint = .ignoreCalls then visitBlock code constraint fuel bb s
        else
          match target with
          | none => throw (.returned .killAll)
          | some target => visitBlock code constraint fuel bb (s.add target)

/-- The registers that are found, if that takes no more turns of a loop than given. -/
def findUsedRegsInFunc (code : Code) (constraint : TraversalConstraint) (fuel : Nat) (func : Nat) :
    Option RegisterManager :=
  match Worklist.loop .running (visitBlock code constraint fuel) fuel
    { data := .reviveAll, process := [func], seen := [] } with
  | .ok used => some used
  | .error (.returned used) => some used
  | .error .running => none

/-! ## Functions -/

namespace Decoded

/-- Where an instruction at this address goes: to the next one, or along a direct branch or call. -/
def successors (i : Decoded) (pc : Nat) : List Nat :=
  match i.flow with
  | .next | .swapgs => [pc + i.length]
  | .ret | .invalid => []
  | .jmp target => target.toList
  | .jcc target => [target, pc + i.length]
  | .call target => target.toList ++ [pc + i.length]

def goesOn (i : Decoded) (constraint : TraversalConstraint) (pc : Nat) : Option Nat :=
  match i.flow with
  | .next | .call (some _) => some (pc + i.length)
  | .call none => if constraint = .ignoreCalls then some (pc + i.length) else none
  | _ => none

/-- The blocks that the search is to look at because of an instruction. -/
def targets (i : Decoded) (constraint : TraversalConstraint) (pc : Nat) : List Nat :=
  match i.flow with
  | .jmp target => target.toList
  | .jcc target => [target, pc + i.length]
  | .call target => if constraint = .ignoreCalls then [] else target.toList
  | _ => []

def stops (i : Decoded) (constraint : TraversalConstraint) : Bool :=
  match i.flow with
  | .jmp none => true
  | .call none => constraint ≠ .ignoreCalls
  | _ => false

def writes (i : Decoded) (q : Reg) : Bool := i.dsts.any fun
  | .reg r => r.names q
  | _ => false

end Decoded

def RegId.wide (r : RegId) (q : Reg) : Bool := r = .gpr q .w64 || r = .gpr q .w32

def Operand.kills : Operand → Reg → Bool
  | reg r, q => r.wide q
  | baseDisp base index, q => base.wide q || index.wide q
  | other, _ => false

def Decoded.kills (i : Decoded) (q : Reg) : Bool := i.dsts.any (·.kills q)

def Decoded.killsXmm (i : Decoded) (x : Fin 16) : Bool := i.dsts.any (· = .reg (.xmm x))

/-- Finitely many addresses that control does not leave. None of them is null. -/
structure FunctionBody where
  code : Code
  entry : Nat
  pcs : Finset Nat
  entry_mem : entry ∈ pcs
  closed : ∀ pc ∈ pcs, ∀ q ∈ (code pc).successors pc, q ∈ pcs
  null : 0 ∉ pcs

namespace FunctionBody

variable (body : FunctionBody)

/-- The instruction is reached through fall-through, direct branches and direct calls. -/
def Reachable : Nat → Prop := ReflTransGen (fun pc q => q ∈ (body.code pc).successors pc) body.entry

def Followed (constraint : TraversalConstraint) : Nat → Prop :=
  ReflTransGen (fun pc q => q ∈ (body.code pc).targets constraint pc ∨ (body.code pc).goesOn constraint pc = some q)
    body.entry

def GivesUp (constraint : TraversalConstraint) : Prop :=
  ∃ pc, body.Followed constraint pc ∧ (body.code pc).stops constraint = true

structure Finds (constraint : TraversalConstraint) (used : RegisterManager) : Prop where
  rsp : used.live .rsp = true
  gpr : ∀ q, q ≠ .rsp → (used.live q = false ↔
    body.GivesUp constraint ∨ ∃ pc, body.Followed constraint pc ∧ (body.code pc).kills q = true)
  xmm : ∀ x, used.liveXmm x = false ↔
    body.GivesUp constraint ∨ ∃ pc, body.Followed constraint pc ∧ (body.code pc).killsXmm x = true

/-- The search ends, and finds all registers but `rsp` that reachable instructions write. -/
def FindsAll : Prop :=
  ∃ used n, (∀ fuel, n ≤ fuel → findUsedRegsInFunc body.code .visitAllInstructions fuel body.entry = some used) ∧
    ∀ pc, body.Reachable pc → ∀ q, q ≠ .rsp → (body.code pc).writes q = true → used.live q = false

end FunctionBody

end Granary.Registers
