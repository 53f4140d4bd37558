import Granary.Lib.Sse
import Granary.Registers.UsedRegs

/-!
# Clean calls

`generate_clean_callable_address` of `granary/emit_utils.cc`, which generates code that saves registers and flags, aligns the
stack, calls a function, and restores everything. Which registers it saves depends on a search through the function.
-/

namespace Granary.Gencode

open Machine
open Registers (RegisterManager FunctionBody Code findUsedRegsInFunc)

/-! ## Generated code -/

/-- XMM registers are moved between a register and the stack, by MOVAPS only at an aligned address. -/
inductive StubInstr where
  | instr (i : Machine.Instr)
  | andImm (dst : Reg) (imm : Word)
  | storeXmm (aligned : Bool) (disp : Word) (src : Fin 16)
  | loadXmm (aligned : Bool) (dst : Fin 16) (disp : Word)
  | call
  | ret
deriving DecidableEq, Repr

/-- The registers that `register_exit_constaint` lets the function change. -/
inductive ExitConstraint where
  | abiCompatible | unconstrained
deriving DecidableEq, Repr

def argumentRegisters : List Reg := [.rdi, .rsi, .rdx, .rcx, .r8]

namespace CleanCall

section Registers

variable (dead : RegisterManager)

def reviveReg (r : Reg) : RegisterManager := dead.revive (.gpr r .w64)

def killReg (r : Reg) : RegisterManager := dead.kill (.gpr r .w64)

/-- The registers to save. The arguments are looked up in an array of five registers. -/
def deadRegs (constraint : ExitConstraint) (numArgs : Nat) : Option RegisterManager := do
  let dead :=
    match constraint with
    | .abiCompatible => [.r8, .r9, .r10, .r11].foldl killReg (calleeSaved.foldl reviveReg dead)
    | .unconstrained => dead
  let dead ← (List.range numArgs).reverse.foldlM (fun dead i => return reviveReg dead (← argumentRegisters[i]?)) dead
  return (argumentRegisters.drop numArgs).foldl killReg dead

/-- The registers that `get_zombie` returns one after the other. -/
def zombies : List Reg :=
  [.rax, .rcx, .rdx, .rbx, .rsp, .rbp, .rsi, .rdi, .r8, .r9, .r10, .r11, .r12, .r13, .r14, .r15].filter (!dead.live ·)

def xmmZombies : List (Fin 16) := (List.finRange 16).filter (!dead.liveXmm ·)

end Registers

def alignStack : List StubInstr := [.instr (.push .rsp), .instr (.pushMem .rsp 0), .andImm .rsp (-16#64)]

def restoreOldStackAlignment : List StubInstr := [.instr (.load .rsp .rsp 8)]

def slots (regs : List (Fin 16)) : List (Fin 16 × Nat) := regs.zipIdx

def slotDisp (j : Nat) : Word := BitVec.ofNat 64 (16 * j)

/-- What is inserted before the call: the first register is stored last. -/
def saveXmm (aligned : Bool) (regs : List (Fin 16)) : List StubInstr :=
  (if regs = [] then [] else [.instr (.lea .rsp .rsp (-slotDisp regs.length))]) ++
    ((slots regs).map fun p => .storeXmm aligned (slotDisp p.2) p.1).reverse

def restoreXmm (aligned : Bool) (regs : List (Fin 16)) : List StubInstr :=
  ((slots regs).map fun p => .loadXmm aligned p.1 (slotDisp p.2)) ++
    if regs = [] then [] else [.instr (.lea .rsp .rsp (slotDisp regs.length))]

/-- The instructions between those that save the general-purpose registers and those that restore them. -/
def alignedCall (constraint : ExitConstraint) (regs : List (Fin 16)) : List StubInstr :=
  match constraint with
  | .abiCompatible => alignStack ++ saveXmm true regs ++ [.call] ++ restoreXmm true regs ++ restoreOldStackAlignment
  | .unconstrained => saveXmm false regs ++ [.call] ++ restoreXmm false regs

def stub (kernel : Bool) (constraint : ExitConstraint) (dead : RegisterManager) : List StubInstr :=
  [.instr .pushf] ++ (if kernel then [.instr .cli] else []) ++ (zombies dead).map (fun r => .instr (.push r)) ++
    alignedCall constraint (if kernel then [] else xmmZombies dead) ++
    (zombies dead).reverse.map (fun r => .instr (.pop r)) ++ [.instr .popf, .ret]

end CleanCall

/-- The generated code, unless the search takes too many turns or an argument register is behind the end of the array. -/
def generateCleanCallableAddress (kernel : Bool) (code : Code) (fuel func numArgs : Nat) (constraint : ExitConstraint) :
    Option (List StubInstr) := do
  let used ← findUsedRegsInFunc code (if constraint = .abiCompatible then .ignoreCalls else .visitAllInstructions)
    fuel func
  let dead ← CleanCall.deadRegs used constraint numArgs
  return CleanCall.stub kernel constraint dead

/-! ## Running it -/

structure StubState where
  cpu : SseState
  entered : List SseState

namespace StubState

def setState (s : StubState) (t : State) : StubState := { s with cpu := ⟨t, s.cpu.xmm⟩ }

def setXmm (s : StubState) (xmm : Fin 16 → BitVec 128) : StubState := { s with cpu := ⟨s.cpu.toState, xmm⟩ }

end StubState

section Run

variable (alu : Machine.Instr → State → Word) (andFlags : State → Word) (site : Word) (callee : SseState → SseState)

/-- The call is before the address `site`. Nothing comes after a fault or a call that does not return. -/
def StubInstr.exec (s : StubState) : StubInstr → Option StubState
  | .instr i => some (s.setState (Machine.exec alu i s.cpu.toState))
  | .andImm dst imm =>
    let t := s.cpu.set dst (s.cpu.reg dst &&& imm)
    some (s.setState { t with flags := andFlags s.cpu.toState })
  | .storeXmm aligned disp src =>
    let addr := s.cpu.reg .rsp + disp
    if aligned = true ∧ ¬ Aligned16 addr then none
    else some (s.setState { s.cpu.toState with mem := s.cpu.mem.write128 addr (s.cpu.xmm src) })
  | .loadXmm aligned dst disp =>
    let addr := s.cpu.reg .rsp + disp
    if aligned = true ∧ ¬ Aligned16 addr then none
    else some (s.setXmm (Function.update s.cpu.xmm dst (s.cpu.mem.read128 addr)))
  | .call =>
    let entry : SseState := ⟨s.cpu.push site, s.cpu.xmm⟩
    let cpu := callee entry
    if cpu.rip = site then some { cpu, entered := s.entered ++ [entry] } else none
  | .ret => some (s.setState (s.cpu.ret 0))

def runStub (code : List StubInstr) (s : StubState) : Option StubState :=
  code.foldlM (StubInstr.exec alu andFlags site callee) s

def callStub (code : List StubInstr) (returnAddr : Word) (s : SseState) : Option StubState :=
  runStub alu andFlags site callee code { cpu := ⟨s.push returnAddr, s.xmm⟩, entered := [] }

end Run

/-! ## Transparency -/

/-- The registers that a function and the functions that it calls may change. -/
structure Clobbers where
  gpr : Reg → Prop
  xmm : Fin 16 → Prop

/-- The function has returned as the ABI says. It leaves the frame of its caller alone, which is at most 416 bytes. -/
structure ReturnsAbi (clobbers : Clobbers) (s s' : SseState) : Prop where
  rsp : s'.reg .rsp = s.reg .rsp + 8
  rip : s'.rip = s.top
  saved : ∀ r ∈ calleeSaved, s'.reg r = s.reg r
  gpr : ∀ r, r ≠ .rsp → ¬ clobbers.gpr r → s'.reg r = s.reg r
  xmm : ∀ x, ¬ clobbers.xmm x → s'.xmm x = s.xmm x
  frame : ∀ b, (b - (s.reg .rsp + 8)).toNat < 416 → s'.mem b = s.mem b

/-- The stack is aligned where the function is called, which pushes the return address. -/
def EntryAligned (s : SseState) : Prop := Aligned16 (s.reg .rsp + 8)

def ConformsAbi (clobbers : Clobbers) (callee : SseState → SseState) : Prop :=
  ∀ s, EntryAligned s → ReturnsAbi clobbers s (callee s)

/-- The function was called once, and only the registers that hold its arguments may have changed. -/
structure Clean (kernel : Bool) (numArgs : Nat) (returnAddr : Word) (s : SseState) (s' : StubState) : Prop where
  aligned : ∃ entry, s'.entered = [entry] ∧ EntryAligned entry
  rip : s'.cpu.rip = returnAddr
  gpr : ∀ r, r ∉ argumentRegisters.take numArgs → s'.cpu.reg r = s.reg r
  xmm : kernel = false → s'.cpu.xmm = s.xmm
  flags : s'.cpu.flags &&& arithMask = s.flags &&& arithMask

def CleanCall.AllClean (kernel : Bool) (numArgs : Nat) (clobbers : Clobbers) (code : List StubInstr) : Prop :=
  ∀ alu andFlags site callee, ConformsAbi clobbers callee → ∀ returnAddr s, (s.reg .rsp).toNat % 8 = 0 →
    ∃ s', callStub alu andFlags site callee code returnAddr s = some s' ∧ Clean kernel numArgs returnAddr s s'

def CleanCalls (kernel : Bool) (body : FunctionBody) (numArgs : Nat) (clobbers : Clobbers) : Prop :=
  ∃ n, ∀ fuel, n ≤ fuel → ∃ code,
    generateCleanCallableAddress kernel body.code fuel body.entry numArgs .abiCompatible = some code ∧
    CleanCall.AllClean kernel numArgs clobbers code

end Granary.Gencode
