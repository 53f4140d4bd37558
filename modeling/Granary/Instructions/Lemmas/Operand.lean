import Granary.Instructions.Operand

/-!
# What the comparison of two operands sees
-/

namespace Granary.Instructions

open Machine

variable {opnds : Word → Opnd} {ref that : OperandRef} {o o' : Opnd}

theorem get_eq_of_parts {x y : BitVec 64} {n off k : Nat} (hlow : BitField.get 0 16 x = BitField.get 0 16 y)
    (hrest : BitField.get 16 n x = BitField.get 16 n y) (h : off + k ≤ 16 + n) :
    BitField.get off k x = BitField.get off k y := by
  rw [BitField.get_eq_iff] at *
  intro i hi
  by_cases hlt : off + i < 16
  · simpa using hlow (off + i) hlt
  · have := hrest (off + i - 16) (by omega)
    rwa [show 16 + (off + i - 16) = off + i by omega] at this

theorem canCombine_parts (h : canCombine opnds ref that = true) :
    (opnds ref.op).kind = (opnds that.op).kind ∧ (opnds ref.op).size = (opnds that.op).size ∧
      (opnds ref.op).seg = (opnds that.op).seg ∧
      BitField.get 0 16 (opnds ref.op).value = BitField.get 0 16 (opnds that.op).value := by
  simp only [canCombine, memcmp, sizeofSeg, Bool.and_eq_true] at h
  obtain ⟨⟨⟨⟨_, hkind⟩, hsize⟩, hseg⟩, hvalue⟩ := h
  refine ⟨beq_iff_eq.mp hkind, beq_iff_eq.mp hsize, ?_, of_decide_eq_true hvalue⟩
  simpa [BitField.get] using of_decide_eq_true hseg

theorem sameMemory_iff (hmem : o.memory.isSome) : SameMemory o o' ↔ o'.memory = o.memory := by
  obtain ⟨m, hm⟩ := Option.isSome_iff_exists.mp hmem
  constructor
  · rintro ⟨m, h, h', -⟩
    rw [h, h']
  · intro h
    exact ⟨m, hm, h.trans hm, fun s => by rw [h]⟩

theorem baseDisp_fields_iff {x y : BitVec 64} (hlow : BitField.get 0 16 x = BitField.get 0 16 y) :
    (BitField.get 32 8 x = BitField.get 32 8 y ∧ BitField.get 40 8 x = BitField.get 40 8 y ∧
        BitField.get 48 4 x = BitField.get 48 4 y ∧ BitField.get 0 32 x = BitField.get 0 32 y) ↔
      BitField.get 16 36 x = BitField.get 16 36 y := by
  constructor
  · rintro ⟨hbase, hindex, hscale, hdisp⟩
    rw [BitField.get_eq_iff] at *
    intro i hi
    by_cases h1 : i < 16
    · simpa using hdisp (16 + i) (by omega)
    by_cases h2 : i < 24
    · have := hbase (i - 16) (by omega)
      rwa [show 32 + (i - 16) = 16 + i by omega] at this
    by_cases h3 : i < 32
    · have := hindex (i - 24) (by omega)
      rwa [show 40 + (i - 24) = 16 + i by omega] at this
    · have := hscale (i - 32) (by omega)
      rwa [show 48 + (i - 32) = 16 + i by omega] at this
  · intro hrest
    exact ⟨get_eq_of_parts hlow hrest (by omega), get_eq_of_parts hlow hrest (by omega),
      get_eq_of_parts hlow hrest (by omega), get_eq_of_parts hlow hrest (by omega)⟩

theorem value_eq_iff {x y : BitVec 64} (hlow : BitField.get 0 16 x = BitField.get 0 16 y) :
    x = y ↔ BitField.get 16 48 x = BitField.get 16 48 y := by
  constructor
  · rintro rfl
    rfl
  · intro hrest
    have hall : BitField.get 0 64 x = BitField.get 0 64 y := get_eq_of_parts hlow hrest (by omega)
    simpa [BitField.get] using hall

theorem memory_eq_iff (hmem : o.memory.isSome) (hkind : o.kind = o'.kind) (hsize : o.size = o'.size)
    (hseg : o.seg = o'.seg) (hlow : BitField.get 0 16 o.value = BitField.get 0 16 o'.value) :
    o'.memory = o.memory ↔ o.laterBytes = o'.laterBytes := by
  have hsegment : o.segment = o'.segment := by rw [Opnd.segment, Opnd.segment, hseg]
  rw [eq_comm]
  cases hk : o.kind
  case baseDisp =>
    simp only [Opnd.memory, Opnd.laterBytes, ← hkind, hk, Option.some.injEq, MemOperand.baseDisp.injEq, hsegment, hsize,
      true_and, and_true, Opnd.baseReg, Opnd.indexReg, Opnd.scale, Opnd.disp, BitVec.toNat_inj]
    exact baseDisp_fields_iff hlow
  case relAddr | absAddr | memInstr =>
    simp only [Opnd.memory, Opnd.laterBytes, ← hkind, hk, Option.some.injEq, MemOperand.relAddr.injEq,
      MemOperand.absAddr.injEq, MemOperand.memInstr.injEq, hsegment, hseg, hsize, true_and, and_true, BitVec.toNat_inj]
    exact value_eq_iff hlow
  all_goals simp [Opnd.memory, hk] at hmem

end Granary.Instructions
