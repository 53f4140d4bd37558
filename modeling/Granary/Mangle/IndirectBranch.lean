import Granary.Gencode.IndirectBranch
import Granary.Mangle.FarMemory
import Granary.Mangle.Reach

/-!
# Set-up of indirect branches

`mangle_ibl_lookup` of `granary/mangle.cc`, for a client that changes nothing. A branch to `rsp` is left out. The assertions
that no return is far or has a byte count are in debug builds only.
-/

namespace Granary.Mangle

open Machine
open Registers hiding exec Instr
open Gencode (Build mangleTarget hashTarget saveScratch mangledAddress Arrives)

/-! ## Targets -/

inductive Segment where
  | fs | gs
deriving DecidableEq, Repr

/-- An operand of `BASE_DISP_kind`. The other segments begin at zero. `dispShortAddr` stands for an address-size prefix, with
which the base and the index are 32-bit registers. -/
structure BaseDisp where
  seg : Option Segment
  base : Option Reg
  index : Option Reg
  scale : BitVec 4
  disp : BitVec 32
  encodeZeroDisp : Bool
  forceFullDisp : Bool
  dispShortAddr : Bool
  index_ne_rsp : index ≠ some .rsp

inductive MemOp where
  | baseDisp (op : BaseDisp)
  | relAddr (seg : Option Segment) (addr : Word)

inductive CtiTarget where
  | reg (r : Reg) (ne_rsp : r ≠ .rsp)
  | mem (op : MemOp)

/-- A return pops some more bytes after its target. -/
inductive IndirectCti where
  | call (far : Bool) (target : CtiTarget)
  | jmp (far : Bool) (target : CtiTarget)
  | ret (far : Bool) (bytes : BitVec 16)

def IndirectCti.isFar : IndirectCti → Bool
  | call far _ | jmp far _ | ret far _ => far

namespace BaseDisp

def isAbs (op : BaseDisp) : Bool := op.base.isNone && op.index.isNone

/-- `value.pc` of an operand without base and index: the other fields as they are laid out in the union. -/
def valuePc (op : BaseDisp) : Word :=
  op.disp.setWidth 64 ||| op.scale.setWidth 64 <<< 48 ||| (BitVec.ofBool op.encodeZeroDisp).setWidth 64 <<< 52 |||
    (BitVec.ofBool op.forceFullDisp).setWidth 64 <<< 53 ||| (BitVec.ofBool op.dispShortAddr).setWidth 64 <<< 54

def wrap (op : BaseDisp) (addr : Word) : Word := if op.dispShortAddr then (addr.setWidth 32).setWidth 64 else addr

def addr (op : BaseDisp) (reg : Reg → Word) : Word :=
  op.wrap (op.base.elim 0 reg + op.index.elim 0 (reg · * op.scale.setWidth 64) + op.disp.signExtend 64)

theorem sub_add_add (b c d n : Word) : b - n + c + d = b + c + (d - n) := by
  rw [BitVec.sub_eq_add_neg, BitVec.sub_eq_add_neg]
  ac_rfl

theorem wrap_sub_ne (op : BaseDisp) {n : Nat} (hpos : 0 < n) (hlt : n < 2 ^ 32) (b c d : Word) :
    op.wrap (b - BitVec.ofNat 64 n + c + d) ≠ op.wrap (b + c + d) := by
  rw [sub_add_add, wrap, wrap]
  split
  · intro h
    have hnat := congrArg BitVec.toNat h
    simp only [BitVec.toNat_setWidth, BitVec.toNat_add, BitVec.toNat_sub, BitVec.toNat_ofNat] at hnat
    omega
  · bv_omega

/-- The operand after `stackOffset` bytes were pushed. A base of `esp` is not adjusted. -/
def adjusted (op : BaseDisp) (stackOffset : BitVec 32) : BaseDisp :=
  if op.base = some .rsp ∧ op.dispShortAddr = false then { op with disp := op.disp + stackOffset } else op

end BaseDisp

section Addresses

variable (segBase : Segment → Word)

def MemOp.addr (reg : Reg → Word) : MemOp → Word
  | baseDisp op => op.seg.elim 0 segBase + op.addr reg
  | relAddr seg addr => seg.elim 0 segBase + addr

def CtiTarget.value (s : State) : CtiTarget → Word
  | reg r _ => s.reg r
  | mem op => s.mem.read (op.addr segBase s.reg)

def IndirectCti.target (s : State) : IndirectCti → Word
  | call _ target | jmp _ target => target.value segBase s
  | ret .. => s.top

end Addresses

/-- The state at the target of a branch that is not far. -/
def IndirectCti.native (returnAddr : Word) (s : State) : IndirectCti → State
  | call .. => s.push returnAddr
  | jmp .. => s
  | ret _ bytes => s.drop (8 + bytes.setWidth 64)

/-! ## The code -/

inductive Label where
  | callTarget | doCallCti
deriving DecidableEq, Repr

/-- `movLd` loads to `rdi`, `xchgTop` exchanges `rdi` with the word on the stack, and `jmpInd` is the jump through the table.
-/
inductive Item where
  | instr (i : Instr)
  | movLd (op : MemOp)
  | xchgTop
  | label (l : Label)
  | jmp (l : Label)
  | call (l : Label)
  | jmpInd

def loadTargetShape : Shape where
  opcode := .other
  dsts := [.reg (.gpr .rdi .w64)]
  srcs := [.other]
  always r := r = .rdi
  always_dst r h := by simp [of_decide_eq_true h]
  rep_reads _ hq := absurd hq List.not_mem_nil

def pushRaxShape : Shape where
  opcode := .other
  dsts := [.reg (.gpr .rsp .w64), .baseDisp (.gpr .rsp .w64) .null]
  srcs := [.reg (.gpr .rax .w64), .reg (.gpr .rsp .w64)]
  always r := r = .rsp
  always_dst := pushShape.always_dst
  rep_reads _ hq := absurd hq List.not_mem_nil

def FarCode.load (code : FarCode) : List Item :=
  code.before.map .instr ++ [.instr (.load .rdi code.usedReg 0)] ++ code.after.map .instr

/-- Load the target to `rdi`, from the address it had before `stackOffset` bytes were pushed. -/
def loadTarget (build : Build) (estimatorPc : Word) (stackOffset : BitVec 32) : CtiTarget → List Item
  | .reg r _ => if r = .rdi then [] else [.instr (.mov .rdi r)]
  | .mem (.baseDisp op) =>
    let op := op.adjusted stackOffset
    if op.seg.isNone && op.isAbs && isFarAway op.valuePc estimatorPc then
      [.instr (.movImm .rdi op.valuePc), .instr (.load .rdi .rdi 0)]
    else [.movLd (.baseDisp op)]
  | .mem (.relAddr none addr) =>
    if isFarAway addr estimatorPc then [.instr (.movImm .rdi addr), .instr (.load .rdi .rdi 0)]
    else [.movLd (.relAddr none addr)]
  | .mem (.relAddr (some seg) addr) =>
    -- left as it is, and then mangled like any load from a far operand
    if isFarAway estimatorPc addr then
      (mangleFarMemoryRefs (!build.kernel) (farRegs loadTargetShape pushRaxShape) addr).elim [] FarCode.load
    else [.movLd (.relAddr (some seg) addr)]

def lookupItems (build : Build) (policy : BitVec 16) (jumpTable blockInstr : Word) : List Item :=
  (saveScratch ++ mangleTarget build policy ++ hashTarget jumpTable blockInstr).map .instr

def mangleIblLookup (build : Build) (estimatorPc : Word) (policy : BitVec 16) (jumpTable blockInstr : Word)
    (cti : IndirectCti) : List Item :=
  let lookup := lookupItems build policy jumpTable blockInstr
  match cti with
  | .call _ target =>
    -- the jump around the lookup, and the call back into it
    [.jmp .doCallCti, .label .callTarget] ++
      (.instr (.push .rdi) :: loadTarget build estimatorPc 16 target ++ lookup) ++
      [.jmpInd, .label .doCallCti, .call .callTarget]
  | .jmp _ target => (.instr (.push .rdi) :: loadTarget build estimatorPc 8 target ++ lookup) ++ [.jmpInd]
  | .ret .. => .xchgTop :: lookup ++ [.jmpInd]

/-! ## Execution -/

def findLabel (l : Label) : List Item → Option (List Item)
  | [] => none
  | .label l' :: items => if l' = l then some items else findLabel l items
  | _ :: items => findLabel l items

section Run

variable (alu : Instr → State → Word) (segBase : Segment → Word)

def Item.exec (s : State) : Item → State
  | instr i => Machine.exec alu i s
  | movLd op => s.set .rdi (s.mem.read (op.addr segBase s.reg))
  | xchgTop => { s.set .rdi s.top with mem := s.mem.write (s.reg .rsp) (s.reg .rdi) }
  | _ => s

/-- Execute up to the jump through the table. `addrOf n` is the address where the last `n` items begin. -/
def runItems (addrOf : Nat → Word) (prog : List Item) : Nat → List Item → State → Option State
  | 0, _, _ => none
  | _, [], _ => none
  | _, .jmpInd :: _, s => some s
  | fuel + 1, .jmp l :: _, s => (findLabel l prog).bind fun items => runItems addrOf prog fuel items s
  | fuel + 1, .call l :: items, s =>
    (findLabel l prog).bind fun items' => runItems addrOf prog fuel items' (s.push (addrOf items.length))
  | fuel + 1, item :: items, s => runItems addrOf prog fuel items (item.exec alu segBase s)

end Run

/-! ## Set-up -/

/-- The code reaches the jump with the mangled target and the saved registers. A call has pushed the address after the emitted
call. A far branch loads `cs`, which no instruction of the code does. -/
def SetsUp (alu : Instr → State → Word) (segBase : Segment → Word) (addrOf : Nat → Word) (build : Build) (estimatorPc : Word)
    (policy : BitVec 16) (jumpTable blockInstr : Word) (cti : IndirectCti) (s : State) : Prop :=
  let items := mangleIblLookup build estimatorPc policy jumpTable blockInstr cti
  cti.isFar = false ∧ ∃ fuel s', runItems alu segBase addrOf items fuel items s = some s' ∧
    Arrives (cti.native (addrOf 0) s) (mangledAddress build policy (cti.target segBase s)) blockInstr s' ∧
    ∀ far target, cti = .call far target → s'.mem.read (s'.reg .rsp + 32) = addrOf 0

/-- The load of an operand reads the same address after `offset` bytes were pushed. -/
def MemOp.Kept (segBase : Segment → Word) (estimatorPc : Word) (offset : Nat) : MemOp → Prop
  | baseDisp op => (op.base = some .rsp → op.dispShortAddr = false ∧ op.disp.toInt + offset < 2 ^ 31) ∧
      (op.seg = none → op.isAbs = true → isFarAway op.valuePc estimatorPc = true → op.valuePc = op.addr fun _ => 0)
  | relAddr seg addr => ∀ sg, seg = some sg → isFarAway estimatorPc addr = true → segBase sg = 0

def CtiTarget.Kept (segBase : Segment → Word) (estimatorPc : Word) (pushed : List Word) (regs : Reg → Word) :
    CtiTarget → Prop
  | reg _ _ => True
  | mem op => op.Kept segBase estimatorPc (8 * pushed.length) ∧ ∀ a ∈ pushed, WordsApart (op.addr segBase regs) a

def IndirectCti.Kept (segBase : Segment → Word) (estimatorPc : Word) (regs : Reg → Word) : IndirectCti → Prop
  | call far target => far = false ∧ target.Kept segBase estimatorPc [regs .rsp - 8, regs .rsp - 16] regs
  | jmp far target => far = false ∧ target.Kept segBase estimatorPc [regs .rsp - 8] regs
  | ret far bytes => far = false ∧ bytes = 0

end Granary.Mangle
