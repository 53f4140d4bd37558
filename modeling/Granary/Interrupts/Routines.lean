import Granary.Gencode.DirectBranch

/-!
# Interrupt routines

The routine of an interrupt vector and the common one that it calls, of `emit_interrupt_routine` and
`emit_common_interrupt_routine`, from the state that the CPU enters the vector in to where they resume. The flags of `or` and
`and` are not assumed anything about, except for the zero flag.
-/

namespace Granary.Interrupts

open Machine Gencode

def hasErrorCode (vector : Nat) : Bool :=
  match vector with
  | 8 | 10 | 11 | 12 | 13 | 14 | 17 => true
  | _ => false

/-! ## The frame -/

namespace InterruptStackFrame

/-! Offsets of the fields. The error code comes first, or what is pushed in its place. -/

def instructionPointer : Word := 8
def segmentCs : Word := 16
def flags : Word := 24
def stackPointer : Word := 32
def segmentSs : Word := 40

end InterruptStackFrame

open InterruptStackFrame (instructionPointer segmentCs segmentSs stackPointer)

/-- The address of the frame, if the CPU left the stack pointer there. -/
def isfOf (vector : Nat) (rsp : Word) : Word := if hasErrorCode vector then rsp else rsp - 8

/-- The privilege level of one of the segments is not that of the kernel. -/
def InUserMode (m : Memory) (isf : Word) : Prop := (m.read (isf + segmentCs) ||| m.read (isf + segmentSs)) &&& 3 ≠ 0

instance (m : Memory) (isf : Word) : Decidable (InUserMode m isf) := inferInstanceAs (Decidable (_ ≠ _))

/-! ## Handling -/

/-- Whether `is_far_away` holds for the target of the common routine, the target and the return address. -/
structure HandlerSites where
  farEnter : Bool
  farHandle : Bool
  farExit : Bool
  enterPc : Word
  handlePc : Word
  exitPc : Word
  entered : Word
  exited : Word

structure Routines where
  test : Bool
  sites : HandlerSites
  getPrivateStackTop : State → State
  /-- `handle_interrupt`. -/
  handleInterrupt : State → State
  /-- The original routine of the vector. -/
  originalRoutine : Word
  commonRoutine : Word
  /-- Where the common routine returns to. -/
  returnAddr : Word

section Code

variable (alu : Instr → State → Word) (orFlags andFlags : State → Word) (c : Routines)

/-- The handler runs on the private stack. Its result goes to `rdi`, as the exit clobbers `rax`. -/
def callHandler (s : State) : State :=
  let s := insertCall alu c.sites.farEnter c.sites.enterPc (Nesting.callEnter alu c.getPrivateStackTop c.sites.entered) s
  let s := insertCall alu c.sites.farHandle c.sites.handlePc c.handleInterrupt s
  let s := run alu [.mov .rdi .rax] s
  insertCall alu c.sites.farExit c.sites.exitPc (Nesting.callExit alu c.sites.exited) s

/-- The low bits of `CS` and `SS`. -/
def checkPrivilege (s : State) : State :=
  let s := run alu [.load .rax .rdi segmentCs] s
  let s := { s.set .rax (s.reg .rax ||| s.mem.read (s.reg .rdi + segmentSs)) with flags := orFlags s }
  { s.set .rax (s.reg .rax &&& 3) with flags := setZf (andFlags s) (s.reg .rax &&& 3 = 0) }

/-- The registers that are saved: all but those that `rm.revive` was called for. -/
def savedRegs : List Reg := Build.zombies ⟨true, c.test⟩

/-- The calls, and the comparison with zero. The `xor` is of 32 bits, which clears the whole register. -/
def handle (s : State) : State :=
  let s := saveAndRestoreRegisters alu (savedRegs c) (callHandler alu c) s
  run alu [.xor .rax .rax, .cmp32 .rdi .rax, .pop .rax] s

def returnFromInterrupt (s : State) : State :=
  let s := run alu
    [.pop .rdi, .push .rax, .load .rax .rdi stackPointer,
      .load .rsi .rdi instructionPointer, .store .rax (-8) .rsi,
      .load .rsi .rdi InterruptStackFrame.flags, .store .rax (-16) .rsi,
      .load .rsi .rsp 0, .store .rax (-24) .rsi,
      .lea .rax .rax (-24), .load .rsi .rsp 24, .load .rdi .rsp 32, .mov .rsp .rax, .pop .rax, .popf] s
  s.ret 0

def iretFromInterrupt (s : State) : State := run alu [.lea .rsp .rsp 24, .pop .rsi, .pop .rdi, .lea .rsp .rsp 16] s

inductive CommonExit where
  /-- It returns to its caller. -/
  | back (s : State)
  | iret (s : State)
  /-- It returns from the interrupt by `ret`. -/
  | ret (s : State)

/-- The common routine, up to where it calls the handler or returns. -/
def enterCommon (s : State) : State := checkPrivilege alu orFlags andFlags (run alu [.push .rdi, .push .rax] s)

def commonInterruptRoutine (s : State) : CommonExit :=
  let s := enterCommon alu orFlags andFlags s
  if zf s.flags then
    let s := handle alu c s
    if jl s.flags then .ret (returnFromInterrupt alu s)
    else if zf s.flags then .back ((run alu [.lea .rsp .rsp 8] s).ret 0)
    else .iret (iretFromInterrupt alu s)
  else .back ((run alu [.pop .rax, .lea .rsp .rsp 8] s).ret 0)

inductive Resumed where
  /-- At `rip`. -/
  | jump (s : State)
  /-- With an `iret`. -/
  | iret (s : State)
  /-- The common routine returned to the wrong place. -/
  | lost (s : State)

variable (vector : Nat)

def enterVector (s : State) : State :=
  run alu ([.push .rsp] ++ (if hasErrorCode vector then [] else [.pushMem .rsp 0]) ++
    [.push .rdi, .push .rsi, .lea .rdi .rsp 24, .movImm .rsi (BitVec.ofNat 64 vector), .pushf]) s

def leaveVector (s : State) : State := (run alu [.popf, .pop .rsi, .pop .rdi, .pop .rsp] s).jmp c.originalRoutine

def interruptRoutine (s : State) : Resumed :=
  let s := (enterVector alu vector s).call c.returnAddr c.commonRoutine
  match commonInterruptRoutine alu orFlags andFlags c s with
  | .back s => if s.rip = c.returnAddr then .jump (leaveVector alu c s) else .lost s
  | .iret s => .iret s
  | .ret s => .jump s

def handlerEntry (s : State) : State :=
  let s := (enterVector alu vector s).call c.returnAddr c.commonRoutine
  run alu ((savedRegs c).map .push) (enterCommon alu orFlags andFlags s)

end Code

/-! ## What the routines are for -/

/-- The calls return as functions do, and leave `n` bytes of the stack alone. -/
structure HandlerReturns (n : Nat) (s v : State) : Prop where
  rsp : v.reg .rsp = s.reg .rsp
  saved : ∀ r ∈ calleeSaved, v.reg r = s.reg r
  stack : ∀ b, (b - s.reg .rsp).toNat < n → v.mem b = s.mem b

def routineStack (c : Routines) : Nat := 8 * (savedRegs c).length + 56

/-- `interrupt_handled_state`: `RETURN` is negative, `DEFER` zero, and `IRET` positive. -/
def handledState (v : State) : BitVec 32 := (v.reg .rdi).setWidth 32

structure AtOriginal (c : Routines) (s t : State) : Prop where
  rip : t.rip = c.originalRoutine
  reg : ∀ r, t.reg r = s.reg r
  flags : t.flags = s.flags

/-- About to return with the frame that starts at the instruction pointer. -/
structure AtIret (isf : Word) (s t : State) : Prop where
  rsp : t.reg .rsp = isf + instructionPointer
  reg : ∀ r, r ≠ .rsp → t.reg r = s.reg r

structure AtReturn (m : Memory) (isf : Word) (s t : State) : Prop where
  rip : t.rip = m.read (isf + instructionPointer)
  flags : t.flags = m.read (isf + InterruptStackFrame.flags)
  rsp : t.reg .rsp = m.read (isf + stackPointer)
  reg : ∀ r, r ≠ .rsp → t.reg r = s.reg r

/-- The frame is right below the stack pointer, which the CPU has aligned to 16 bytes before. -/
def DirectlyBelow (isf sp : Word) : Prop := (sp - (isf + 48)).toNat < 16

/-- The three words below the stack pointer are apart from those that are read later: the flags, `rax`, and the arguments. -/
structure ReturnClear (isf sp : Word) : Prop where
  flags : WordsApart (isf + InterruptStackFrame.flags) (sp - 8)
  rax : WordsApart (isf - 48) (sp - 8) ∧ WordsApart (isf - 48) (sp - 16)
  rsi : WordsApart (isf - 24) (sp - 8) ∧ WordsApart (isf - 24) (sp - 16) ∧ WordsApart (isf - 24) (sp - 24)
  rdi : WordsApart (isf - 16) (sp - 8) ∧ WordsApart (isf - 16) (sp - 16) ∧ WordsApart (isf - 16) (sp - 24)

end Granary.Interrupts
