import Granary.Policies.Packing

/-!
# Policies and addresses in their bits
-/

namespace Granary.Policies

open BitField (getLsbD_get getLsbD_put)

/-! ## Policies -/

namespace PolicyBits

variable {i : Nat} (bits that : PolicyBits) (constraint : PropertyInheritConstraint)

theorem getLsbD_id : bits.id.getLsbD i = (decide (i < 8) && bits.getLsbD (8 + i)) := getLsbD_get

theorem getLsbD_basePolicy (hi : i < 16) : bits.basePolicy.getLsbD i = (decide (4 ≤ i) && bits.getLsbD i) := by
  simp only [basePolicy, setBeginsFunctionalUnit, setIsIndirectTarget, setIsReturnTarget, setForceAttach]
  rw [getLsbD_put hi, getLsbD_put hi, getLsbD_put hi, getLsbD_put hi]
  by_cases h : 4 ≤ i
  · simp only [h, decide_true, Bool.true_and]
    rw [if_neg (by omega), if_neg (by omega), if_neg (by omega), if_neg (by omega)]
  · simp only [h, decide_false, Bool.false_and, BitVec.ofBool_false]
    repeat' split
    all_goals first | exact BitVec.getLsbD_zero | omega

theorem getLsbD_inheritProperties (hi : i < 16) :
    (bits.inheritProperties that constraint).getLsbD i =
      if 8 ≤ i then bits.getLsbD i
      else that.basePolicy.getLsbD i && !(decide (constraint = .inheritCall) && decide (i = 6)) := by
  simp only [inheritProperties, setId, getLsbD_put hi]
  by_cases h : 8 ≤ i
  · rw [if_pos ⟨h, by omega⟩, if_pos h, getLsbD_id, decide_eq_true (by omega), Bool.true_and, Nat.add_sub_cancel' h]
  · rw [if_neg (by omega), if_neg h]
    cases constraint with
    | inheritCall =>
      simp only [setAccessesUserData, getLsbD_put hi]
      by_cases h6 : i = 6
      · simp [h6]
      · rw [if_neg (by omega)]
        simp [h6]
    | inheritAll | inheritJmp | inheritReturn => simp

theorem inheritProperties_id : (bits.inheritProperties that constraint).id = bits.id := by
  refine BitVec.eq_of_getLsbD_eq fun i hi => ?_
  rw [getLsbD_id, getLsbD_id, getLsbD_inheritProperties bits that constraint (by omega), if_pos (by omega)]

/-! ## Laws of policies -/

theorem basePolicy_basePolicy : bits.basePolicy.basePolicy = bits.basePolicy := by
  refine BitVec.eq_of_getLsbD_eq fun i hi => ?_
  rw [getLsbD_basePolicy _ hi, getLsbD_basePolicy _ hi, ← Bool.and_assoc, Bool.and_self]

theorem get_basePolicy : BitField.get 4 12 bits.basePolicy = BitField.get 4 12 bits := by
  refine BitVec.eq_of_getLsbD_eq fun i hi => ?_
  rw [getLsbD_get, getLsbD_get, getLsbD_basePolicy _ (by omega), decide_eq_true (by omega : 4 ≤ 4 + i),
    Bool.true_and]

theorem inheritProperties_temporary : (bits.inheritProperties that constraint).temporaryProperties = 0 := by
  refine BitVec.eq_of_getLsbD_eq fun i hi => ?_
  rw [temporaryProperties, getLsbD_get, getLsbD_inheritProperties _ _ _ (by omega), if_neg (by omega),
    getLsbD_basePolicy _ (by omega), decide_eq_false (by omega : ¬ 4 ≤ 0 + i)]
  simp

theorem inheritProperties_properties (bits' : PolicyBits) :
    (bits.inheritProperties that constraint).properties = (bits'.inheritProperties that constraint).properties := by
  refine BitVec.eq_of_getLsbD_eq fun i hi => ?_
  simp only [properties, getLsbD_get]
  rw [getLsbD_inheritProperties _ _ _ (by omega), getLsbD_inheritProperties _ _ _ (by omega), if_neg (by omega),
    if_neg (by omega)]

end PolicyBits

/-! ## Mangled addresses -/

namespace MangledBits

variable (kernel : Bool) (addr : BitVec 64) (p : PolicyBits)

theorem policyBits_ofAddress : (ofAddress addr p).policyBits = p := BitField.get_put_self (by decide)

theorem unmangledAddress_ofAddress :
    (ofAddress addr p).unmangledAddress kernel = setPolicyBits (if kernel then 0xffff else 0) addr := by
  refine BitVec.eq_of_getLsbD_eq fun i hi => ?_
  simp only [unmangledAddress, ofAddress, setPolicyBits, getLsbD_put hi]
  split <;> rfl

theorem setPolicyBits_eq_self_iff : setPolicyBits p addr = addr ↔ policyBits addr = p := by
  constructor
  · intro h
    rw [← h]
    exact BitField.get_put_self (by decide)
  · rintro rfl
    refine BitVec.eq_of_getLsbD_eq fun i hi => ?_
    rw [setPolicyBits, getLsbD_put hi]
    split
    · rename_i h
      rw [policyBits, getLsbD_get, decide_eq_true (by omega), Bool.true_and, Nat.add_sub_cancel' h.1]
    · rfl

theorem unmangledAddress_eq_iff : (ofAddress addr p).unmangledAddress kernel = addr ↔ HighBitsOf kernel addr := by
  rw [unmangledAddress_ofAddress, setPolicyBits_eq_self_iff, HighBitsOf, policyBits]

end MangledBits

end Granary.Policies
