import Granary.Lib.BitField
import Granary.Lib.Memory

/-!
# Operands and references to them

An operand is a tagged union, `opnd_t` of the decoder. What the bits of its value mean depends on its kind. A reference to
an operand, `operand_ref` of `granary/instruction.cc`, can be combined with another one of the same instruction.
-/

namespace Granary.Instructions

open Machine

/-- `reg_id_t`, where 0 is no register. -/
abbrev RegByte := BitVec 8

inductive OpndKind where
  | null
  | immedInteger
  | immedFloat
  | pc
  | instr
  | reg
  | baseDisp
  | farPc
  | farInstr
  | relAddr
  | absAddr
  | memInstr
deriving DecidableEq, Repr

structure Opnd where
  kind : OpndKind
  size : BitVec 8
  seg : BitVec 16
  value : BitVec 64
deriving DecidableEq, Repr

namespace Opnd

/-! ## The members of the unions -/

def segment (o : Opnd) : RegByte := BitField.get 0 8 o.seg

def disp (o : Opnd) : BitVec 32 := BitField.get 0 32 o.value

def baseReg (o : Opnd) : RegByte := BitField.get 32 8 o.value

def indexReg (o : Opnd) : RegByte := BitField.get 40 8 o.value

def scale (o : Opnd) : BitVec 4 := BitField.get 48 4 o.value

end Opnd

/-- `opnd_create_far_base_disp`: from the highest bits on, the three flags before the scale are not set. -/
def opndCreateFarBaseDisp (seg base index : RegByte) (scale : BitVec 4) (disp : BitVec 32) (size : BitVec 8) : Opnd where
  kind := .baseDisp
  size := size
  seg := 0#8 ++ seg
  value := 0#12 ++ scale ++ index ++ base ++ disp

/-! ## Memory operands -/

inductive MemOperand where
  | baseDisp (segment base index : RegByte) (scale : BitVec 4) (disp : BitVec 32) (size : BitVec 8)
  | relAddr (segment : RegByte) (addr : Word) (size : BitVec 8)
  | absAddr (segment : RegByte) (addr : Word) (size : BitVec 8)
  | memInstr (instr : Word) (disp : BitVec 16) (size : BitVec 8)
deriving DecidableEq, Repr

def Opnd.memory (o : Opnd) : Option MemOperand :=
  match o.kind with
  | .baseDisp => some (.baseDisp o.segment o.baseReg o.indexReg o.scale o.disp o.size)
  | .relAddr => some (.relAddr o.segment o.value o.size)
  | .absAddr => some (.absAddr o.segment o.value o.size)
  | .memInstr => some (.memInstr o.value o.seg o.size)
  | _ => none

/-- The registers of all widths, the bases of the segments and where the instructions are. -/
structure AddressState where
  reg : RegByte → Word
  segmentBase : RegByte → Word
  encodedAt : Word → Word

def AddressState.regOrZero (s : AddressState) (r : RegByte) : Word := if r = 0 then 0 else s.reg r

def MemOperand.address (s : AddressState) : MemOperand → Word
  | .baseDisp segment base index scale disp _ =>
    s.segmentBase segment + s.regOrZero base + s.regOrZero index * scale.zeroExtend 64 + disp.signExtend 64
  | .relAddr segment addr _ => s.segmentBase segment + addr
  | .absAddr segment addr _ => s.segmentBase segment + addr
  | .memInstr instr disp _ => s.encodedAt instr + disp.signExtend 64

/-! ## References -/

inductive RefKind where
  | source
  | dest
  | sourceDest
  | unknown
deriving DecidableEq, Repr

/-- `instr`, `op` and `op2` are pointers. -/
structure OperandRef where
  instr : Word
  op : Word
  op2 : Word
  kind : RefKind
deriving DecidableEq, Repr

/-- The first `n` bytes are the same. -/
def memcmp {w : Nat} (n : Nat) (x y : BitVec w) : Bool := BitField.get 0 (8 * n) x = BitField.get 0 (8 * n) y

def sizeofSeg : Nat := 2

def canCombine (opnds : Word → Opnd) (ref that : OperandRef) : Bool :=
  ref.instr == that.instr
    && ref.op != that.op
    && ref.op2 == that.op2
    && ref.op2 == 0
    && ref.kind != that.kind
    && ref.op != 0
    && (opnds ref.op).kind == (opnds that.op).kind
    && (opnds ref.op).size == (opnds that.op).size
    && memcmp sizeofSeg (opnds ref.op).seg (opnds that.op).seg
    && memcmp sizeofSeg (opnds ref.op).value (opnds that.op).value

/-! ## Equal operands -/

/-- Two operands are the same memory operand, so they have the same address in every state. -/
def SameMemory (o o' : Opnd) : Prop :=
  ∃ m, o.memory = some m ∧ o'.memory = some m ∧
    ∀ s, o.memory.map (MemOperand.address s) = o'.memory.map (MemOperand.address s)

/-- The bits from the third byte on. Nothing after the scale belongs to a base with a displacement. -/
def Opnd.laterBytes (o : Opnd) : Nat :=
  match o.kind with
  | .baseDisp => (BitField.get 16 36 o.value).toNat
  | _ => (BitField.get 16 48 o.value).toNat

/-! ## The operands of `movs` -/

def segEs : RegByte := 101

def segDs : RegByte := 104

def regRsi : RegByte := 7

def regRdi : RegByte := 8

def dsSeg (segOverride : RegByte) : RegByte := if segOverride = 0 then segDs else segOverride

def decodeX (segOverride : RegByte) (size : BitVec 8) : Opnd :=
  opndCreateFarBaseDisp (dsSeg segOverride) regRsi 0 0 0 size

/-- The operand that `TYPE_Y` decodes to, the destination of `movs`. -/
def decodeY (size : BitVec 8) : Opnd := opndCreateFarBaseDisp segEs regRdi 0 0 0 size

end Granary.Instructions
