import Granary.Gencode.PrivateStack

/-!
# Stubs of direct branches

The code of `granary/dbl.cc` that a direct branch goes through before it is patched: its stub, the entry routine
`PATCH_INSTRUCTION` and the return address that `patch_instruction` sets. The memory of a state is that of the stacks.
-/

namespace Granary.Gencode

open Machine

/-- `CONFIG_ENV_KERNEL`, and whether this is a test build. -/
structure Build where
  kernel : Bool
  test : Bool
deriving DecidableEq, Repr

def Build.redzoneSize (build : Build) : Nat := if build.kernel then 0 else 128

/-- The dead registers that the entry routine saves, in the order of `get_zombie`. -/
def Build.zombies (build : Build) : List Reg :=
  if build.test then [.rcx, .rdx, .rbx, .rbp, .r8, .r9, .r10, .r11, .r12, .r13, .r14, .r15]
  else [.rcx, .rdx, .r8, .r9, .r10, .r11]

def callIndirectAddressSize : Word := 6

/-- Whether `is_far_away` holds for the target of the entry routine, the target and the return address. -/
structure CallSites where
  farEnter : Bool
  farPatch : Bool
  farExit : Bool
  enterPc : Word
  patchPc : Word
  exitPc : Word
  entered : Word
  exited : Word

section Code

variable (alu : Instr → State → Word)

def insertCall (far : Bool) (target : Word) (callee : State → State) (s : State) : State :=
  callee (if far then exec alu (.movImm .rax target) s else s)

def saveAndRestoreRegisters (regs : List Reg) (body : State → State) (s : State) : State :=
  run alu (regs.reverse.map .pop) (body (run alu (regs.map .push) s))

variable (build : Build) (sites : CallSites) (getPrivateStackTop : State → State)

/-- What is pushed before the stack is switched. `rdi` is the address of the return address. -/
def saveArguments : List Instr :=
  [.push .rdi, .lea .rdi .rsp 8, .pushf] ++ (if build.kernel then [.cli] else []) ++ [.push .rsi, .push .rax]

def patchInstructionEntrypoint (patchInstruction : State → State) (s : State) : State :=
  let s := run alu (saveArguments build) s
  let s := if build.kernel then
      insertCall alu sites.farEnter sites.enterPc (Nesting.callEnter alu getPrivateStackTop sites.entered) s
    else s
  let s := saveAndRestoreRegisters alu build.zombies (insertCall alu sites.farPatch sites.patchPc patchInstruction) s
  let s := if build.kernel then insertCall alu sites.farExit sites.exitPc (Nesting.callExit alu sites.exited) s else s
  let s := run alu [.pop .rax, .pop .rsi, .popf, .pop .rdi] s
  s.ret (BitVec.ofNat 64 build.redzoneSize)

variable (callPc : Word)

def stubCall (patchInstruction : State → State) (s : State) : State :=
  patchInstructionEntrypoint alu build sites getPrivateStackTop patchInstruction (s.push (callPc + callIndirectAddressSize))

/-- The calls of `patch_instruction`, each after the one before went back to the call instruction. -/
def stubCalls : List (State → State) → State → State
  | [], s => s
  | patchInstruction :: patches, s =>
    let s := stubCall alu build sites getPrivateStackTop callPc patchInstruction s
    if s.rip = callPc then stubCalls patches s else s

def shiftRedzone : List Instr := if build.kernel then [] else [.lea .rsp .rsp (-128)]

def dblLookupStub (patches : List (State → State)) (s : State) : State :=
  stubCalls alu build sites getPrivateStackTop callPc patches (run alu (shiftRedzone build) s)

/-! ## Transparency -/

def SparesRedzone (rsp : Word) : List (State → State) → State → Prop
  | [], _ => True
  | patchInstruction :: patches, s =>
    (∀ a, InWord (s.reg .rsp - 8) a → ¬ Below rsp build.redzoneSize a) ∧
      let s := stubCall alu build sites getPrivateStackTop callPc patchInstruction s
      s.rip = callPc → SparesRedzone rsp patches s

end Code

structure Transparent (build : Build) (target : Word) (s s' : State) : Prop where
  reg : s'.reg = s.reg
  flags : s'.flags = s.flags
  rip : s'.rip = target
  redzone : ∀ a, Below (s.reg .rsp) build.redzoneSize a → s'.mem a = s.mem a

/-- `patch_instruction` sets the return address to `value`, follows the ABI, and writes only to that and the `depth` bytes of
stack that it takes. -/
structure PatchReturns (depth : Nat) (value : Word) (patchInstruction : State → State) : Prop where
  rsp : ∀ s, (patchInstruction s).reg .rsp = s.reg .rsp
  saved : ∀ s, ∀ r ∈ calleeSaved, (patchInstruction s).reg r = s.reg r
  value : ∀ s, (patchInstruction s).mem.read (s.reg .rdi) = value
  mem : ∀ s, Only (fun b => Below (s.reg .rsp) depth b ∨ InWord (s.reg .rdi) b) s.mem (patchInstruction s).mem

/-- The routine stays on the stack of the branch, or the words that are pushed before are not on the private stack, which is
big enough. The helper leaves the registers alone that are not saved yet. -/
structure SwitchOk (stack : PrivateCallStack) (getPrivateStackTop : State → State) (depth : Nat) (rsp : Word) : Prop where
  stack : SameWindow (rsp - 56) stack.top ∨
    privateStackSize ≤ stack.offset (rsp - 48) ∧ stack.offset (rsp - 48) + 48 ≤ 2 ^ 64
  fits : 256 + depth ≤ privateStackSize
  regs : ∀ s r, r ≠ .rax → r ≠ .rsi → r ≠ .rdi → (getPrivateStackTop s).reg r = s.reg r

end Granary.Gencode
