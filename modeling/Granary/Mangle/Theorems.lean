import Granary.Mangle.Lemmas.IndirectBranch
import Granary.Mangle.Lemmas.Reach

/-!
# What mangled instructions do
-/

namespace Granary.Mangle

open Machine
open Registers hiding exec Instr
open Gencode (Build)

/-! ## Far pushes and pops -/

/-- The shape of a NOP. -/
def nop : Shape where
  opcode := .nop
  dsts := []
  srcs := []
  always _ := false
  always_dst _ h := absurd h Bool.false_ne_true
  rep_reads _ hq := absurd hq List.not_mem_nil

/-- The shape of `mov rbx, [far]`. -/
def loadRbx : Shape where
  opcode := .other
  dsts := [.reg (.gpr .rbx .w64)]
  srcs := [.other]
  always r := r = .rbx
  always_dst r h := by simp [of_decide_eq_true h]
  rep_reads _ hq := absurd hq List.not_mem_nil

def storeRspShape : Shape where
  opcode := .other
  dsts := [.other]
  srcs := [.reg (.gpr .rsp .w64)]
  always _ := false
  always_dst _ h := absurd h Bool.false_ne_true
  rep_reads _ hq := absurd hq List.not_mem_nil

def storeRsp (a : Word) : Registers.Instr Env where
  opcode := .other
  dsts := [.other]
  srcs := [.reg (.gpr .rsp .w64)]
  eval s :=
    { gprMask := fun _ => 0
      gpr := fun _ => 0
      xmmMask := fun _ => 0
      xmm := fun _ => 0
      rest := s.rest.write a (s.gpr .rsp) }
  nop_eval h := absurd h (by decide)

/-- The set-up of an indirect branch is right exactly when the operand can be kept, and the words pushed before it is loaded
do not overlap it. -/
theorem setsUp_iff (alu : Instr → State → Word) (segBase : Segment → Word) (addrOf : Nat → Word) (build : Build)
    (estimatorPc jumpTable : Word) (cti : IndirectCti) (regs : Reg → Word) :
    (∀ (policy : BitVec 16) (blockInstr : Word) (s : State), s.reg = regs →
        SetsUp alu segBase addrOf build estimatorPc policy jumpTable blockInstr cti s) ↔
      cti.Kept segBase estimatorPc regs := by
  cases cti with
  | call far target =>
    simp only [setsUp_call_iff, IndirectCti.Kept, ← loadValue_call_iff (addrOf 0)]
    exact forall_mangled_iff regs
  | jmp far target =>
    simp only [setsUp_jmp_iff, IndirectCti.Kept, ← loadValue_jmp_iff]
    exact forall_mangled_iff regs
  | ret far bytes =>
    simp only [setsUp_ret_iff, IndirectCti.Kept]
    exact ⟨fun h => h 0 0 { reg := regs, flags := 0, rip := 0, mem := fun _ => 0 } rfl, fun h _ _ _ _ => h⟩

/-- The operand `[rsp - 8]`. -/
def belowTop : BaseDisp where
  seg := none
  base := some .rsp
  index := none
  scale := 0
  disp := -8
  encodeZeroDisp := false
  forceFullDisp := false
  dispShortAddr := false
  index_ne_rsp := nofun

/-- `jmp [rsp - 8]` goes to the value of `rdi`, which was saved over its target. -/
theorem jmp_belowTop :
    (runItems (fun _ s => s.flags) (fun _ => 0) (fun _ => 0)
        (mangleIblLookup { kernel := false, test := false } 0x10000 0 0x20000 0x30000 (.jmp false (.mem (.baseDisp belowTop))))
        20
        (mangleIblLookup { kernel := false, test := false } 0x10000 0 0x20000 0x30000 (.jmp false (.mem (.baseDisp belowTop))))
        (stackState 0x8000 0x4000 fun _ => 0)).map (·.reg .rdi) = some 0x4000 ∧
      (IndirectCti.jmp false (.mem (.baseDisp belowTop))).target (fun _ => 0) (stackState 0x8000 0x4000 fun _ => 0) = 0 ∧
      ¬ SetsUp (fun _ s => s.flags) (fun _ => 0) (fun _ => 0) { kernel := false, test := false } 0x10000 0 0x20000 0x30000
        (.jmp false (.mem (.baseDisp belowTop))) (stackState 0x8000 0x4000 fun _ => 0) := by
  refine ⟨by decide, by decide, fun h => ?_⟩
  exact absurd ((setsUp_jmp_iff _ _ _).mp h).2 (by decide)

/-! ## Relative operands -/

/-- A target that is not far away can be encoded everywhere in the code cache exactly when it is at most 2 GB above its start,
and less than 2 GB below its end. -/
theorem nearEncodable_iff (area : ExecutableArea) (estimatorPc target : Word) :
    NearEncodable area estimatorPc target ↔
      isFarAway estimatorPc target = true ∨
        (-2 ^ 31 + codeCacheSize ≤ (target - area.start).toInt ∧ (target - area.start).toInt ≤ 2 ^ 31) := by
  rw [NearEncodable, forall_encodable_iff]
  cases isFarAway estimatorPc target <;> simp

/-- The code cache at 16 GB. -/
def cacheAt16Gb : ExecutableArea where
  start := 0x400000000
  fits := by decide

/-- A target 3 GB above the code cache is not far away, and no instruction of the cache reaches it. -/
theorem not_encodable_3Gb :
    cacheAt16Gb.Contains 0x400000000 1 ∧ isFarAway 0x400000000 0x4c0000000 = false ∧
      ¬ Encodable (0x400000000 + BitVec.ofNat 64 7) 0x4c0000000 ∧ ¬ NearEncodable cacheAt16Gb 0x400000000 0x4c0000000 := by
  have hfar : ¬ Encodable (0x400000000 + BitVec.ofNat 64 7) 0x4c0000000 := by
    rw [encodable_iff]
    decide
  refine ⟨by decide, by decide, hfar, fun h => hfar ?_⟩
  exact h (by decide) 0x400000000 7 (by decide) (by decide)

end Granary.Mangle
