import Granary.Lib.X86
import Granary.Watchpoints.Descriptors

/-!
# Bounds checks

`bounds_checkers.asm` and `visit_overflow`. Before an access through a watched register the program calls the routine for
the register and for the size of the access. It compares the low 32 bits of the address with the bounds in the descriptor.
-/

namespace Granary.Watchpoints

open Machine

inductive AccessSize where
  | one | two | four | eight | sixteen
deriving DecidableEq, Repr

def AccessSize.bytes : AccessSize → Nat
  | .one => 1
  | .two => 2
  | .four => 4
  | .eight => 8
  | .sixteen => 16

def AccessSize.word (size : AccessSize) : Word := BitVec.ofNat 64 size.bytes

/-- What `visit_overflow` reports. -/
inductive Violation where
  | underflow | overflow
deriving DecidableEq, Repr

namespace DescriptorTable

variable {kernel : Bool} (T : DescriptorTable kernel)

def lowerBound (mem : Memory) (watchedAddr : Word) : BitVec 32 := mem.read32 (T.entry (counterIndexOf watchedAddr))

def upperBound (mem : Memory) (watchedAddr : Word) : BitVec 32 := mem.read32 (T.entry (counterIndexOf watchedAddr) + 4)

def visitOverflow (mem : Memory) (watchedAddr : Word) (size : BitVec 32) : Except BoundAssert Violation := do
  let descriptor ← T.access (counterIndexOf watchedAddr)
  let low32 := watchedAddr.setWidth 32
  if low32 < mem.read32 descriptor then return .underflow
  else do
    boundCheck .upperBound (mem.read32 (descriptor + 4) < low32 + size)
    return .overflow

end DescriptorTable

/-! ## The routines -/

section Routines

variable {kernel : Bool} (T : DescriptorTable kernel) (alu : Instr → State → Word)

/-- Up to the first jump of `GENERIC_BOUNDS_CHECKER`. -/
def compareLower : List Instr :=
  [.push .rsi, .push .rdx, .push .rax, .lahf, .mov .rdx .rdi, .shr .rdx 49, .shl .rdx 4, .movImm .rsi T.base,
    .add .rsi .rdx, .cmpMem32 .rdi .rsi]

def compareUpper (size : AccessSize) : List Instr :=
  [.load .rsi .rsi 4, .subImm .rsi size.word, .cmp32 .rsi .rdi]

def compareBounds (size : AccessSize) (s : State) : Bool × State :=
  let s := run alu (compareLower T) s
  if jl s.flags then (false, s)
  else
    let s := run alu (compareUpper size) s
    (jge s.flags, s)

def restoreAll : List Instr := [.sahf, .pop .rax, .pop .rdx, .pop .rsi, .pop .rdi]

/-- `granary_detected_overflow` up to the call. -/
def saveScratch : List Instr := [.lea .rdx .rsp 32, .push .rcx, .push .r8, .push .r9, .push .r10, .push .r11]

def restoreScratch : List Instr := [.pop .r11, .pop .r10, .pop .r9, .pop .r8, .pop .rcx]

def granaryDetectedOverflow (visit : State → State) (s : State) : State :=
  (run alu restoreAll (run alu restoreScratch (visit (run alu saveScratch s)))).ret 0

def granaryBoundsCheck (visit : State → State) (size : AccessSize) (s : State) : State :=
  let (within, s) := compareBounds T alu size s
  if within then (run alu restoreAll s).ret 0
  else granaryDetectedOverflow alu visit (run alu [.movImm .rsi size.word] s)

def enterBoundsCheck (reg : Reg) : List Instr := [.push .rdi, .mov .rdi reg]

def granaryBoundsCheckReg (visit : State → State) (reg : Reg) (size : AccessSize) (s : State) : State :=
  granaryBoundsCheck T alu visit size (run alu (enterBoundsCheck reg) s)

def overflowCall (reg : Reg) (size : AccessSize) (s : State) : Option State :=
  let (within, s) := compareBounds T alu size (run alu (enterBoundsCheck reg) s)
  if within then none else some (run alu saveScratch (run alu [.movImm .rsi size.word] s))

end Routines

/-- A handler may change flags and caller-saved registers, and leaves the frame of the routine alone, which is ten words. -/
structure FollowsAbi (visit : State → State) : Prop where
  rsp : ∀ s, (visit s).reg .rsp = s.reg .rsp
  saved : ∀ s, ∀ r ∈ calleeSaved, (visit s).reg r = s.reg r
  frame : ∀ s b, (b - s.reg .rsp).toNat < 80 → (visit s).mem b = s.mem b

/-- The program goes on at the return address as if nothing had been called. -/
structure Invisible (returnAddr : Word) (s s' : State) : Prop where
  reg : s'.reg = s.reg
  rip : s'.rip = returnAddr
  flags : s'.flags &&& arithMask = s.flags &&& arithMask

/-- The bounds are not on the stack that the routines use, eleven words with both return addresses. -/
def BoundsApart {kernel : Bool} (T : DescriptorTable kernel) (watchedAddr rsp : Word) : Prop :=
  ∀ b, (b - T.entry (counterIndexOf watchedAddr)).toNat < 8 → ¬ Below rsp 88 b

/-- An access through a register: the low 32 bits of the address, and the bounds in its descriptor. -/
structure WatchedAccess {kernel : Bool} (T : DescriptorTable kernel) (reg : Reg) (s : State)
    (lower upper addr : BitVec 32) : Prop where
  reg_ne : reg ≠ .rsp
  lower_eq : T.lowerBound s.mem (s.reg reg) = lower
  upper_eq : T.upperBound s.mem (s.reg reg) = upper
  addr_eq : (s.reg reg).setWidth 32 = addr
  apart : BoundsApart T (s.reg reg) (s.reg .rsp)

/-- The handler is called when the access is not within the bounds, and reports the bound that is violated. -/
structure CheckExact {kernel : Bool} (T : DescriptorTable kernel) (alu : Instr → State → Word) (reg : Reg)
    (size : AccessSize) (returnAddr : Word) (s : State) (lower upper addr : BitVec 32) : Prop where
  calls : (overflowCall T alu reg size (s.push returnAddr)).isSome ↔
    ¬ (lower.toNat ≤ addr.toNat ∧ addr.toNat + size.bytes ≤ upper.toNat)
  reports : ∀ s' ∈ overflowCall T alu reg size (s.push returnAddr),
    T.visitOverflow s'.mem (s'.reg .rdi) ((s'.reg .rsi).setWidth 32) =
      .ok (if addr < lower then .underflow else .overflow)

end Granary.Watchpoints
