import Granary.Lib.BitField
import Granary.Lib.Memory
import Mathlib.Logic.Function.Basic

/-!
# x86-64 instructions

The instructions that change registers, flags and the stack, as functions on machine states. Jumps set `rip`, other
instructions leave it alone. Arithmetic leaves flags behind that nothing is assumed about, except for the zero flag.
Comparisons of 32 bits leave exactly the flags of a subtraction.
-/

namespace Machine

inductive Reg where
  | rax | rcx | rdx | rbx | rsp | rbp | rsi | rdi
  | r8 | r9 | r10 | r11 | r12 | r13 | r14 | r15
deriving DecidableEq, Repr

/-- The registers that a function leaves alone, besides `rsp`. -/
def calleeSaved : List Reg := [.rbx, .rbp, .r12, .r13, .r14, .r15]

structure State where
  reg : Reg → Word
  flags : Word
  rip : Word
  mem : Memory

namespace State

def set (s : State) (r : Reg) (v : Word) : State := { s with reg := Function.update s.reg r v }

def push (s : State) (v : Word) : State :=
  { s with reg := Function.update s.reg .rsp (s.reg .rsp - 8), mem := s.mem.write (s.reg .rsp - 8) v }

def top (s : State) : Word := s.mem.read (s.reg .rsp)

/-- Take `n` bytes off the stack. -/
def drop (s : State) (n : Word) : State := s.set .rsp (s.reg .rsp + n)

def jmp (s : State) (target : Word) : State := { s with rip := target }

def call (s : State) (returnAddr target : Word) : State := (s.push returnAddr).jmp target

/-- Return, and take `n` more bytes off the stack. -/
def ret (s : State) (n : Word) : State := (s.drop (8 + n)).jmp s.top

end State

/-! ## Flags -/

def zf (flags : Word) : Bool := flags.getLsbD 6

def setZf (flags : Word) (z : Bool) : Word := if z then flags ||| 0x40 else flags &&& ~~~0x40

@[simp] theorem zf_setZf (z : Bool) : zf (setZf flags z) = z := by
  cases z <;> simp [zf, setZf]

def clearIf (flags : Word) : Word := flags &&& ~~~0x200

def ahMask : Word := 0xd5

def sf (flags : Word) : Bool := flags.getLsbD 7

def of (flags : Word) : Bool := flags.getLsbD 11

def arithMask : Word := ahMask ||| 0x800

def subFlags {w : Nat} (x y : BitVec w) (flags : Word) : Word :=
  let r := x - y
  let flags := BitField.put 0 (BitVec.ofBool (x.ult y)) flags
  let flags := BitField.put 2 (BitVec.ofBool ((List.range 8).countP r.getLsbD % 2 = 0)) flags
  let flags := BitField.put 4 (BitVec.ofBool ((x.setWidth 4).ult (y.setWidth 4))) flags
  let flags := BitField.put 6 (BitVec.ofBool (r = 0)) flags
  let flags := BitField.put 7 (BitVec.ofBool r.msb) flags
  BitField.put 11 (BitVec.ofBool (x.ssubOverflow y)) flags

def jl (flags : Word) : Bool := sf flags != of flags

def jge (flags : Word) : Bool := sf flags == of flags

section SubFlags

variable {w : Nat} (x y : BitVec w) (flags : Word)

@[simp] theorem of_subFlags : of (subFlags x y flags) = x.ssubOverflow y := by
  simp only [of, subFlags]
  rw [BitField.getLsbD_put (by decide), if_pos (by decide)]
  simp

@[simp] theorem sf_subFlags : sf (subFlags x y flags) = (x - y).msb := by
  simp only [sf, subFlags]
  rw [BitField.getLsbD_put (by decide), if_neg (by decide), BitField.getLsbD_put (by decide), if_pos (by decide)]
  simp

@[simp] theorem zf_subFlags : zf (subFlags x y flags) = decide (x - y = 0) := by
  simp only [zf, subFlags]
  rw [BitField.getLsbD_put (by decide), if_neg (by decide), BitField.getLsbD_put (by decide), if_neg (by decide),
    BitField.getLsbD_put (by decide), if_pos (by decide)]
  simp

@[simp] theorem jl_subFlags (x y : BitVec 32) (flags : Word) : jl (subFlags x y flags) = x.slt y := by
  have hx := x.isLt
  have hy := y.isLt
  rw [jl, sf_subFlags, of_subFlags, BitVec.msb_eq_decide, BitVec.slt_eq_decide, BitVec.ssubOverflow, BitVec.toNat_sub,
    BitVec.toInt_eq_toNat_cond, BitVec.toInt_eq_toNat_cond]
  by_cases hxs : 2 * x.toNat < 2 ^ 32 <;> by_cases hys : 2 * y.toNat < 2 ^ 32 <;>
    simp only [hxs, hys, if_true, if_false] <;> grind

@[simp] theorem jge_subFlags (x y : BitVec 32) (flags : Word) : jge (subFlags x y flags) = !x.slt y := by
  rw [← jl_subFlags x y flags, jge, jl, bne, Bool.not_not]

end SubFlags

/-! ## Instructions -/

def byteSwap (v : Word) : Word :=
  v.extractLsb' 0 8 ++ v.extractLsb' 8 8 ++ v.extractLsb' 16 8 ++ v.extractLsb' 24 8 ++ v.extractLsb' 32 8 ++
    v.extractLsb' 40 8 ++ v.extractLsb' 48 8 ++ v.extractLsb' 56 8

theorem getLsbD_byteSwap {i : Nat} (hi : i < 64) : (byteSwap v).getLsbD i = v.getLsbD (56 - 8 * (i / 8) + i % 8) := by
  simp only [byteSwap, BitVec.getLsbD_append, BitVec.getLsbD_extractLsb']
  repeat' split
  all_goals
    rw [decide_eq_true (by omega), Bool.true_and]
    exact congrArg v.getLsbD (by omega)

inductive Instr where
  | push (src : Reg)
  | pushMem (base : Reg) (disp : Word)
  | pop (dst : Reg)
  | pushf
  | popf
  | cli
  | lahf
  | sahf
  | mov (dst src : Reg)
  | movImm (dst : Reg) (imm : Word)
  | load (dst base : Reg) (disp : Word)
  | store (base : Reg) (disp : Word) (src : Reg)
  | lea (dst base : Reg) (disp : Word)
  | leaIndex (dst base index : Reg) (scale : Word)
  | xchg (a b : Reg)
  | xor (dst src : Reg)
  | shl (dst : Reg) (count : Nat)
  | shr (dst : Reg) (count : Nat)
  | add (dst src : Reg)
  | subImm (dst : Reg) (imm : Word)
  | cmp (a b : Reg)
  | cmp32 (a b : Reg)
  | cmpMem32 (a base : Reg)
  | bswap (dst : Reg)
  | or16 (dst : Reg) (imm : BitVec 16)
  | and16 (dst : Reg) (imm : BitVec 16)
deriving DecidableEq, Repr

section Exec

-- the flags that an arithmetic instruction leaves
variable (alu : Instr → State → Word)

def arith (i : Instr) (s : State) (dst : Reg) (result : Word) : State :=
  { s.set dst result with flags := setZf (alu i s) (result = 0) }

def arith16 (i : Instr) (s : State) (dst : Reg) (result : Word) : State :=
  { s.set dst result with flags := setZf (alu i s) (result.setWidth 16 = 0#16) }

def exec (i : Instr) (s : State) : State :=
  match i with
  | .push src => s.push (s.reg src)
  | .pushMem base disp => s.push (s.mem.read (s.reg base + disp))
  | .pop dst => (s.drop 8).set dst s.top
  | .pushf => s.push s.flags
  | .popf => { s.drop 8 with flags := s.top }
  | .cli => { s with flags := clearIf s.flags }
  | .lahf => s.set .rax (s.reg .rax &&& (~~~0xff00 : Word) ||| (s.flags &&& ahMask ||| 2) <<< 8)
  | .sahf => { s with flags := s.flags &&& ~~~ahMask ||| s.reg .rax >>> 8 &&& ahMask }
  | .mov dst src => s.set dst (s.reg src)
  | .movImm dst imm => s.set dst imm
  | .load dst base disp => s.set dst (s.mem.read (s.reg base + disp))
  | .store base disp src => { s with mem := s.mem.write (s.reg base + disp) (s.reg src) }
  | .lea dst base disp => s.set dst (s.reg base + disp)
  | .leaIndex dst base index scale => s.set dst (s.reg base + s.reg index * scale)
  | .xchg a b => (s.set a (s.reg b)).set b (s.reg a)
  | .xor dst src => arith alu i s dst (s.reg dst ^^^ s.reg src)
  | .shl dst count => arith alu i s dst (s.reg dst <<< count)
  | .shr dst count => arith alu i s dst (s.reg dst >>> count)
  | .add dst src => arith alu i s dst (s.reg dst + s.reg src)
  | .subImm dst imm => arith alu i s dst (s.reg dst - imm)
  | .cmp a b => { s with flags := setZf (alu i s) (s.reg a = s.reg b) }
  | .cmp32 a b => { s with flags := subFlags ((s.reg a).setWidth 32) ((s.reg b).setWidth 32) s.flags }
  | .cmpMem32 a base => { s with flags := subFlags ((s.reg a).setWidth 32) (s.mem.read32 (s.reg base)) s.flags }
  | .bswap dst => s.set dst (byteSwap (s.reg dst))
  | .or16 dst imm => arith16 alu i s dst (s.reg dst ||| imm.setWidth 64)
  | .and16 dst imm => arith16 alu i s dst (s.reg dst &&& (~~~0xffff ||| imm.setWidth 64))

def run (code : List Instr) (s : State) : State := code.foldl (fun s i => exec alu i s) s

@[simp] theorem run_nil (s : State) : run alu [] s = s := rfl

@[simp] theorem run_cons (i : Instr) (code : List Instr) (s : State) :
    run alu (i :: code) s = run alu code (exec alu i s) := rfl

theorem run_append (code code' : List Instr) (s : State) :
    run alu (code ++ code') s = run alu code' (run alu code s) := List.foldl_append ..

end Exec

/-! ## Registers and the stack -/

-- What is pushed and popped again cancels.
attribute [simp] BitVec.add_sub_cancel BitVec.sub_add_cancel

section Simp

variable (s : State) (r q : Reg) (v n : Word)

@[simp] theorem set_reg : (s.set r v).reg q = if q = r then v else s.reg q := Function.update_apply ..
@[simp] theorem set_mem : (s.set r v).mem = s.mem := rfl
@[simp] theorem set_flags : (s.set r v).flags = s.flags := rfl
@[simp] theorem push_reg : (s.push v).reg q = if q = .rsp then s.reg .rsp - 8 else s.reg q := Function.update_apply ..
@[simp] theorem push_mem : (s.push v).mem = s.mem.write (s.reg .rsp - 8) v := rfl
@[simp] theorem push_flags : (s.push v).flags = s.flags := rfl
@[simp] theorem push_top : (s.push v).top = v := by simp [State.top]

@[simp] theorem drop_reg : (s.drop n).reg q = if q = .rsp then s.reg .rsp + n else s.reg q := set_reg ..
@[simp] theorem drop_mem : (s.drop n).mem = s.mem := rfl
@[simp] theorem drop_flags : (s.drop n).flags = s.flags := rfl
@[simp] theorem jmp_reg : (s.jmp v).reg = s.reg := rfl
@[simp] theorem jmp_mem : (s.jmp v).mem = s.mem := rfl
@[simp] theorem jmp_flags : (s.jmp v).flags = s.flags := rfl
@[simp] theorem jmp_rip : (s.jmp v).rip = v := rfl

section Arith

variable (alu : Instr → State → Word) (i : Instr)

@[simp] theorem arith_reg : (arith alu i s r v).reg q = if q = r then v else s.reg q := set_reg ..
@[simp] theorem arith_mem : (arith alu i s r v).mem = s.mem := rfl

@[simp] theorem arith16_reg : (arith16 alu i s r v).reg q = if q = r then v else s.reg q := set_reg ..
@[simp] theorem arith16_mem : (arith16 alu i s r v).mem = s.mem := rfl

end Arith

end Simp

end Machine
