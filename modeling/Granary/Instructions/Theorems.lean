import Granary.Instructions.Lemmas.Align
import Granary.Instructions.Lemmas.List
import Granary.Instructions.Lemmas.Operand

/-!
# Properties of instruction lists
-/

namespace Granary.Instructions

/-! ## Lists are sequences -/

section Lists

variable {ι α : Type} [DecidableEq ι] [DecidableEq α]

/-- No assertion fails in a run, and afterwards all lists hold the sequences that the operations make. -/
theorem instructionLists_are_sequences {ops : List (ListOp ι α)} (hops : AllowedOps ops (fun _ => []) []) :
    ∃ h, runOps ops ListHeap.init = .ok h ∧ Holds h (applyOps ops fun _ => []) :=
  Sound.init.run hops

end Lists

/-- Two lists: 2, 1, 3 with a fourth instruction put in and taken out again, and 5, 6, of which 6 is cut off. -/
def listOps : List (ListOp Bool Nat) :=
  [.append true 1, .prepend true 2, .insertAfter true (some 1) 3, .insertBefore true (some 1) 4, .remove true (some 4),
    .insertAfter false none 5, .append false 6, .removeTailAt false (some 6), .extend true false, .extend true true,
    .append true 4]

theorem instructionLists_are_sequences_listOps :
    AllowedOps listOps (fun _ => []) [] ∧
      ∃ h, runOps listOps ListHeap.init = .ok h ∧ Holds h (applyOps listOps fun _ => []) := by
  have hops : AllowedOps listOps (fun _ => []) [] := by
    simp [listOps, AllowedOps, ListOp.Allowed, ListOp.apply, ListOp.lost]
  exact ⟨hops, instructionLists_are_sequences hops⟩

/-! ## Branches are aligned -/

/-- A branch that has to be moved needs an instruction in front of it, and that is all that `align` needs. -/
theorem align_spec_iff {τ : Type} (ls : List (Ins τ)) (currAlign : Nat) :
    (∃ out size, align ls currAlign = .ok (out, size) ∧ AlignSpec ls currAlign out size) ↔
      FirstInLine ls currAlign := by
  constructor
  · rintro ⟨out, size, halign, -⟩
    by_contra hfirst
    rw [align_first hfirst] at halign
    cases halign
  · intro hfirst
    exact alignLoop_spec alignSpec_nil (.inr hfirst)

/-- A `jmp` to a stub that is patched later. -/
def patchableJmp : Ins Unit where
  body := ()
  cti := true
  unconditional := true
  patchable := true
  notTaken := false
  taken := false
  size := 5
  branch _ := ⟨rfl, rfl⟩

/-- A list that begins with a branch, four bytes before the end of a line. -/
theorem align_first_jmp : align [patchableJmp] 60 = .error .prev := rfl

/-! ## Combined operands -/

section Operands

open Machine

/-- Two memory operands that can be combined are the same iff they agree after the second byte of their values, which is as
far as they are compared. -/
theorem canCombine_same_iff (opnds : Word → Opnd) (ref that : OperandRef) (hcombine : canCombine opnds ref that = true)
    (hmem : (opnds ref.op).memory.isSome) :
    SameMemory (opnds ref.op) (opnds that.op) ↔ (opnds ref.op).laterBytes = (opnds that.op).laterBytes := by
  obtain ⟨hkind, hsize, hseg, hlow⟩ := canCombine_parts hcombine
  rw [sameMemory_iff hmem]
  exact memory_eq_iff hmem hkind hsize hseg hlow

/-- The two operands of an instruction, behind the pointers 1 and 2. -/
def twoOpnds (o o' : Opnd) : Word → Opnd := fun p => if p = 1 then o else o'

def destRef : OperandRef := { instr := 0x1000, op := 1, op2 := 0, kind := .dest }

def sourceRef : OperandRef := { instr := 0x1000, op := 2, op2 := 0, kind := .source }

/-- `add %rbx, (%rax)` reads and writes one operand. -/
def raxOpnd : Opnd := opndCreateFarBaseDisp 0 1 0 0 0 146

theorem canCombine_same_iff_add : SameMemory (twoOpnds raxOpnd raxOpnd 1) (twoOpnds raxOpnd raxOpnd 2) :=
  (canCombine_same_iff (twoOpnds raxOpnd raxOpnd) destRef sourceRef (by decide) (by decide)).mpr rfl

/-- The operands of `es movsb` can be combined, but one is at `rdi` and the other at `rsi`. -/
theorem canCombine_es_movsb :
    canCombine (twoOpnds (decodeY 142) (decodeX segEs 142)) destRef sourceRef = true ∧
      ¬ SameMemory (decodeY 142) (decodeX segEs 142) ∧
      ∃ s, (decodeY 142).memory.map (MemOperand.address s) ≠ (decodeX segEs 142).memory.map (MemOperand.address s) := by
  refine ⟨by decide, fun h => ?_, ⟨fun r => r.zeroExtend 64, fun _ => 0, fun _ => 0⟩, by decide⟩
  exact absurd ((sameMemory_iff (by decide)).mp h) (by decide)

end Operands

end Granary.Instructions
