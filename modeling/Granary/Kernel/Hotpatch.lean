import Mathlib.Algebra.Group.Int.Defs
import Mathlib.Algebra.Ring.Nat

/-!
# Hot-patching functions

`granary/kernel/hotpatch.cc`.
-/

namespace Granary.Kernel

/-! ## `duplicate_function` -/

/-- How an instruction depends on where it is. Displacements are from the instruction after it. -/
inductive Form where
  | plain
  | target (short : Bool) (disp : Int)
  | memory (isCti : Bool) (disp : Int)
deriving DecidableEq, Repr

/-- `op` is all of an instruction that does not depend on where it is. -/
structure BodyInstr (α : Type) where
  op : α
  size : Nat
  form : Form
deriving DecidableEq, Repr

def Reaches (short : Bool) (disp : Int) : Prop :=
  if short then -2 ^ 7 ≤ disp ∧ disp < 2 ^ 7 else -2 ^ 31 ≤ disp ∧ disp < 2 ^ 31

instance (short : Bool) (disp : Int) : Decidable (Reaches short disp) := by
  unfold Reaches
  infer_instance

def Inside (base : Int) (len : Nat) (pc : Int) : Prop := base ≤ pc ∧ pc < base + len

instance (base : Int) (len : Nat) (pc : Int) : Decidable (Inside base len pc) := inferInstanceAs (Decidable (_ ∧ _))

section

variable {α σ : Type}

/-- An instruction that cannot be encoded stays as it was copied. -/
def BodyInstr.encode (i : BodyInstr α) (short : Bool) (disp : Int) (form : Form) : BodyInstr α :=
  if Reaches short disp then { i with form := form } else i

/-- The turn of the loop for the instruction at `pc`. -/
def BodyInstr.relocate (addr : Int) (len : Nat) (newAddr pc : Int) (i : BodyInstr α) : BodyInstr α :=
  let newPc := newAddr + (pc - addr)
  match i.form with
  | .plain => i
  | .target short disp =>
    let target := pc + i.size + disp
    let target := if Inside addr len target then newAddr + (target - addr) else target
    let disp := target - (newPc + i.size)
    i.encode short disp (.target short disp)
  -- an indirect CTI
  | .memory true _ => i
  | .memory false disp =>
    let disp := pc + i.size + disp - (newPc + i.size)
    i.encode false disp (.memory false disp)

def bodySize (body : List (BodyInstr α)) : Nat := (body.map BodyInstr.size).sum

def duplicateLoop (addr : Int) (len : Nat) (newAddr : Int) : Int → List (BodyInstr α) → List (BodyInstr α)
  | _, [] => []
  | pc, i :: body => i.relocate addr len newAddr pc :: duplicateLoop addr len newAddr (pc + i.size) body

def duplicateFunction (addr newAddr : Int) (body : List (BodyInstr α)) : List (BodyInstr α) :=
  duplicateLoop addr (bodySize body) newAddr addr body

/-! ## Running a body -/

/-- An instruction of the body, or somewhere else. -/
inductive Place where
  | offset (o : Int)
  | pc (pc : Int)
deriving DecidableEq, Repr

inductive Next where
  | fallThrough
  | branch
  | indirect (pc : Int)

def BodyInstr.address (i : BodyInstr α) (pc : Int) : Option Int :=
  match i.form with
  | .memory _ disp => some (pc + i.size + disp)
  | _ => none

/-- Where a branch goes, from an offset of the body. -/
def BodyInstr.goto (base : Int) (len : Nat) (o : Int) (i : BodyInstr α) : Place :=
  match i.form with
  | .target _ disp =>
    let pc := base + o + i.size + disp
    if Inside base len pc then .offset (pc - base) else .pc pc
  | _ => .offset (o + i.size)

def instrAt : List (BodyInstr α) → Int → Option (BodyInstr α)
  | [], _ => none
  | i :: body, o => if o = 0 then some i else instrAt body (o - i.size)

/-- What instructions do, at an offset and with the address of a memory operand. -/
def Machine (α σ : Type) : Type := α → Int → Option Int → σ → σ × Next

def runBody (exec : Machine α σ) (base : Int) (body : List (BodyInstr α)) : Nat → Place × σ → Place × σ
  | fuel + 1, (.offset o, s) =>
    match instrAt body o with
    | some i =>
      let r := exec i.op o (i.address (base + o)) s
      let place : Place := match r.2 with
        | .fallThrough => .offset (o + i.size)
        | .branch => i.goto base (bodySize body) o
        | .indirect pc => .pc pc
      runBody exec base body fuel (place, r.1)
    | none => (.offset o, s)
  | _, c => c

/-- Whatever instructions do, the copy does the same from every offset on. -/
def Simulates (addr newAddr : Int) (body copy : List (BodyInstr α)) : Prop :=
  ∀ (σ : Type) (exec : Machine α σ) (fuel : Nat) (c : Place × σ),
    runBody exec newAddr copy fuel c = runBody exec addr body fuel c

/-- The operand can be encoded at the new place, and a branch out of the body does not go to the copy. -/
def BodyInstr.Movable (addr : Int) (len : Nat) (newAddr o : Int) (i : BodyInstr α) : Prop :=
  match i.form with
  | .plain => True
  | .target short disp =>
    Inside addr len (addr + o + i.size + disp) ∨
      Reaches short (addr - newAddr + disp) ∧ ¬ Inside newAddr len (addr + o + i.size + disp)
  | .memory isCti disp => isCti = false ∧ Reaches false (addr - newAddr + disp)

/-- The displacement of the instruction could be encoded. -/
def BodyInstr.Encoded (i : BodyInstr α) : Prop :=
  match i.form with
  | .plain => True
  | .target short disp => Reaches short disp
  | .memory _ disp => Reaches false disp

end

end Granary.Kernel
