import Granary.Blocks.Branch

/-!
# Profile-guided optimisation of branches

`profile_optimise_jcc` of `granary/pgo.cc`. It looks up the most likely target of the conditional branch that ends a block in
a profile of the kernel, and inverts the branch if that is not the instruction after it.
-/

namespace Granary.Blocks

open Machine

structure CtiInfo where
  key : BitVec 32
  value : BitVec 32
deriving DecidableEq, Repr

inductive PgoFault where
  | outOfRange
  | assertion
deriving DecidableEq, Repr

def arrayGet {α : Type} (array : List α) (index : Int) : Except PgoFault α :=
  if 0 ≤ index then
    match array[index.toNat]? with
    | some a => .ok a
    | none => .error .outOfRange
  else .error .outOfRange

def searchFrom (array : List CtiInfo) (searchKey : BitVec 32) (first last : Int) : Except PgoFault (BitVec 32) :=
  let middle := (first + last).tdiv 2
  if _h : first ≤ middle ∧ middle ≤ last then
    match arrayGet array middle with
    | .error e => .error e
    | .ok info =>
      if info.key = searchKey then .ok info.value
      else if info.key < searchKey then searchFrom array searchKey (middle + 1) last
      else searchFrom array searchKey first (middle - 1)
  else .ok 0
termination_by (last + 1 - first).toNat

def search (array : List CtiInfo) (max : Int) (searchKey : BitVec 32) : Except PgoFault (BitVec 32) :=
  searchFrom array searchKey 0 (max - 1)

/-! ## Opcodes -/

inductive CondOpcode where
  | jccShort (c : Cond)
  | jcc (c : Cond)
  | loop (kind : LoopKind)
deriving DecidableEq, Repr

def Cond.index : Cond → Int
  | o => 0
  | no => 1
  | b => 2
  | nb => 3
  | z => 4
  | nz => 5
  | be => 6
  | nbe => 7
  | s => 8
  | ns => 9
  | p => 10
  | np => 11
  | l => 12
  | nl => 13
  | le => 14
  | nle => 15

def opJoShort : Int := 26
def opJo : Int := 152
def opJnle : Int := 167

def CondOpcode.number : CondOpcode → Int
  | jccShort c => opJoShort + c.index
  | jcc c => opJo + c.index
  | loop .loopne => 51
  | loop .loope => 52
  | loop .loop => 53
  | loop .jecxz => 54

def reverseConds : List Cond := [.no, .o, .nb, .b, .nz, .z, .nbe, .be, .ns, .s, .np, .p, .nl, .l, .nle, .le]

def reverseOpcodes : List CondOpcode := reverseConds.map .jcc

def reverseOpcodesShort : List CondOpcode := reverseConds.map .jccShort

def CondOpcode.reverse (opcode : CondOpcode) : Except PgoFault CondOpcode :=
  if opcode.number ≥ opJo ∧ opcode.number ≤ opJnle then arrayGet reverseOpcodes (opcode.number - opJo)
  else arrayGet reverseOpcodesShort (opcode.number - opJoShort)

/-! ## Branches -/

structure Branch where
  opcode : CondOpcode
  addr32 : Bool
  target : Word
deriving DecidableEq, Repr

def Branch.exec {ρ : Type} (b : Branch) (s : CpuState ρ) : CpuState ρ × Bool :=
  match b.opcode with
  | .jccShort c | .jcc c => (s, c.holds s.flags)
  | .loop kind => kind.exec b.addr32 s

def Branch.goes {ρ : Type} (b : Branch) (fallThrough : Word) (s : CpuState ρ) : CpuState ρ × Word :=
  ((b.exec s).1, if (b.exec s).2 then b.target else fallThrough)

def linuxKernelBase : Word := 0xffffffff80000000

def kernelAddr (offset : BitVec 32) : Word := linuxKernelBase + offset.setWidth 64

def blockKey (blockStartPc : Word) : BitVec 32 := (blockStartPc - linuxKernelBase).setWidth 32

/-- The branch and its new fall-through. Assertions are only there in test builds. -/
def profileOptimiseJcc (test : Bool) (profile : List CtiInfo) (b : Branch) (blockStartPc nextPc : Word) :
    Except PgoFault (Branch × Word) :=
  match search profile profile.length (blockKey blockStartPc) with
  | .error e => .error e
  | .ok value =>
    let jccTarget := kernelAddr value
    if linuxKernelBase = jccTarget then .ok (b, nextPc)
    else if jccTarget = nextPc then .ok (b, nextPc)
    else if test ∧ b.target ≠ jccTarget then .error .assertion
    else
      match b.opcode.reverse with
      | .error e => .error e
      | .ok opcode => .ok ({ b with target := nextPc, opcode }, jccTarget)

/-! ## What it should do -/

structure BlockEnd where
  branch : Branch
  nextPc : Word

def BlockEnd.Names (e : BlockEnd) (addr : Word) : Prop := addr = e.branch.target ∨ addr = e.nextPc

structure IsProfile (blocks : Word → Option BlockEnd) (profile : List CtiInfo) : Prop where
  sorted : profile.Pairwise fun a b => a.key ≤ b.key
  names : ∀ info ∈ profile, ∃ e, blocks (kernelAddr info.key) = some e ∧ e.Names (kernelAddr info.value)

def Preserves (test : Bool) (profile : List CtiInfo) (blockStartPc : Word) (e : BlockEnd) : Prop :=
  ∃ b fallThrough, profileOptimiseJcc test profile e.branch blockStartPc e.nextPc = .ok (b, fallThrough) ∧
    ∀ s : CpuState Unit, b.goes fallThrough s = e.branch.goes e.nextPc s

def CondOpcode.isJcc : CondOpcode → Bool
  | loop _ => false
  | _ => true

end Granary.Blocks
