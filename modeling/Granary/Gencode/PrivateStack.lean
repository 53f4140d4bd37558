import Granary.Lib.X86

/-!
# Private stacks

`granary_enter_private_stack` and `granary_exit_private_stack` of `granary/x86/stack.asm`, with the `private_call_stack`
of `granary/state.h`. They are entered with a return address on top of the stack and return by a jump.
-/

namespace Granary.Gencode

open Machine

def privateStackSize : Nat := 24576

structure PrivateCallStack where
  base : Word
  aligned : 4096 ∣ base.toNat
  fits : base.toNat + privateStackSize ≤ 2 ^ 64

namespace PrivateCallStack

def top (stack : PrivateCallStack) : Word := stack.base + BitVec.ofNat 64 privateStackSize

def offset (stack : PrivateCallStack) (a : Word) : Nat := (a - stack.base).toNat

def Inside (stack : PrivateCallStack) (a : Word) : Prop := stack.offset a < privateStackSize

def Outside (stack : PrivateCallStack) (a : Word) : Prop := privateStackSize ≤ stack.offset a ∧ stack.offset a + 8 ≤ 2 ^ 64

instance (stack : PrivateCallStack) (a : Word) : Decidable (stack.Inside a) := inferInstanceAs (Decidable (_ < _))

instance (stack : PrivateCallStack) (a : Word) : Decidable (stack.Outside a) := inferInstanceAs (Decidable (_ ∧ _))

end PrivateCallStack

section Routines

variable (alu : Instr → State → Word) (getPrivateStackTop : State → State)

/-- The high 48 bits of the stack pointer and of the top of the private stack in `rax` are compared. -/
def compareStacks (s : State) : State :=
  let s := run alu [.push .rdi, .push .rsi] s
  let s := getPrivateStackTop s
  run alu [.pop .rsi, .pop .rdi, .push .rax, .xor .rax .rsp, .shr .rax 16, .pop .rax] s

def switchStack (s : State) : State :=
  let s := run alu [.xchg .rsp .rax, .lea .rax .rax 8, .push .rax, .push .rax] s
  s.jmp (s.mem.read (s.reg .rax - 8))

def doNotSwitchStack (s : State) : State :=
  let s := run alu [.pop .rax, .push .rsp, .pushMem .rsp 0] s
  s.jmp (s.reg .rax)

def enterPrivateStack (s : State) : State :=
  let s := compareStacks alu getPrivateStackTop s
  if zf s.flags then doNotSwitchStack alu s else switchStack alu s

def exitPrivateStack (s : State) : State :=
  let s := run alu [.pop .rax, .pop .rsp] s
  s.jmp (s.reg .rax)

end Routines

/-- `granary_get_private_stack_top` returns the top of the stack, and writes only to the `depth` bytes of stack that it takes,
for which the private stack is big enough. -/
structure GetsTop (stack : PrivateCallStack) (depth : Nat) (getPrivateStackTop : State → State) : Prop where
  depth_le : 24 + depth ≤ privateStackSize
  rax : ∀ s, (getPrivateStackTop s).reg .rax = stack.top
  rsp : ∀ s, (getPrivateStackTop s).reg .rsp = s.reg .rsp
  mem : ∀ s, Frame (s.reg .rsp) depth s.mem (getPrivateStackTop s).mem

/-! ## Nested calls -/

/-- Words are pushed and popped again, and the routines are called, with the addresses that the two calls return to. -/
inductive Nesting where
  | done
  | push (value : Word) (body rest : Nesting)
  | enter (entered exited : Word) (body rest : Nesting)
deriving DecidableEq, Repr

namespace Nesting

section Run

variable (alu : Instr → State → Word) (getPrivateStackTop : State → State)

def callEnter (entered : Word) (s : State) : State := enterPrivateStack alu getPrivateStackTop (s.push entered)

def callExit (exited : Word) (s : State) : State := exitPrivateStack alu (s.push exited)

def exec : Nesting → State → State
  | done, s => s
  | push value body rest, s => exec rest ((exec body (s.push value)).drop 8)
  | enter entered exited body rest, s =>
    exec rest (callExit alu exited (exec body (callEnter alu getPrivateStackTop entered s)))

end Run

/-- The bytes of stack that are needed, where the helper needs `depth`. -/
def need (depth : Nat) : Nesting → Nat
  | done => 0
  | push _ body rest => max (8 + need depth body) (need depth rest)
  | enter _ _ body rest => max (max (24 + depth) (16 + max 8 (need depth body))) (need depth rest)

/-- The addresses whose high 48 bits the nested calls compare, if they leave the stack pointer as they should. -/
def compared : Nesting → Word → List Word
  | done, _ => []
  | push _ body rest, rsp => compared body (rsp - 8) ++ compared rest rsp
  | enter _ _ body rest, rsp => (rsp - 16) :: (compared body (rsp - 16) ++ compared rest rsp)

end Nesting

section Safety

variable (alu : Instr → State → Word) (getPrivateStackTop : State → State) (stack : PrivateCallStack)

/-- The stack pointer stays below the live data of the private stack, which is not changed. -/
structure StaysBelow (s s' : State) : Prop where
  rsp : stack.offset (s'.reg .rsp) + 16 ≤ stack.offset (s.reg .rsp)
  live : ∀ a, stack.Inside a → stack.offset (s.reg .rsp) ≤ stack.offset a → s'.mem a = s.mem a

/-- Every call from the private stack is safe and returns, and every exit restores the stack pointer. -/
def Nesting.Safe : Nesting → State → Prop
  | .done, _ => True
  | .push value body rest, s =>
    let s₁ := body.exec alu getPrivateStackTop (s.push value)
    body.Safe (s.push value) ∧ rest.Safe (s₁.drop 8)
  | .enter entered exited body rest, s =>
    let s₁ := callEnter alu getPrivateStackTop entered s
    let s₂ := callExit alu exited (body.exec alu getPrivateStackTop s₁)
    StaysBelow stack s s₁ ∧ s₁.rip = entered ∧ body.Safe s₁ ∧ s₂.reg .rsp = s.reg .rsp ∧ s₂.rip = exited ∧ rest.Safe s₂

/-- The same for a call from a native stack and what happens until the private stack is left again. -/
def SafeSession (entered exited : Word) (body : Nesting) (s : State) : Prop :=
  let s₁ := Nesting.callEnter alu getPrivateStackTop entered s
  let s₂ := Nesting.callExit alu exited (body.exec alu getPrivateStackTop s₁)
  stack.Inside (s₁.reg .rsp) ∧ s₁.rip = entered ∧ body.Safe alu getPrivateStackTop stack s₁ ∧
    s₂.reg .rsp = s.reg .rsp ∧ s₂.rip = exited

end Safety

def SameWindow (a b : Word) : Prop := a >>> 16 = b >>> 16

instance (a b : Word) : Decidable (SameWindow a b) := inferInstanceAs (Decidable (_ = _))

def PrivateCallStack.landing (stack : PrivateCallStack) (rsp : Word) : Word :=
  if SameWindow (rsp - 16) stack.top then rsp - 16 else stack.top - 16

end Granary.Gencode
