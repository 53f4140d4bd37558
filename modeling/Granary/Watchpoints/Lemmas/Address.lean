import Granary.Watchpoints.Address

/-!
# The bits of watched addresses
-/

namespace Granary.Watchpoints

open Machine
open BitVec (twoPow allOnes getLsbD_or getLsbD_and and_twoPow eq_of_getLsbD_eq)

variable {kernel : Bool} {ptr counterIndex : Word} {i : Nat}

/-! ## Bits -/

theorem userOrMask_eq : userOrMask = twoPow 64 48 := by decide

theorem getLsbD_clearIndexMask (hi : i < 64) : clearIndexMask.getLsbD i = decide (i < 48) := by
  rw [show clearIndexMask = (allOnes 48).setWidth 64 by decide, BitVec.getLsbD_setWidth, BitVec.getLsbD_allOnes,
    decide_eq_true hi, Bool.true_and]

theorem getLsbD_maxCounterIndex (hi : i < 64) : maxCounterIndex.getLsbD i = decide (i < 15) := by
  rw [show maxCounterIndex = (allOnes 15).setWidth 64 by decide, BitVec.getLsbD_setWidth, BitVec.getLsbD_allOnes,
    decide_eq_true hi, Bool.true_and]

theorem getLsbD_withCounterIndex (hi : i < 64) :
    (withCounterIndex kernel ptr counterIndex).getLsbD i =
      if i < 48 then ptr.getLsbD i else if i = 48 then !kernel else counterIndex.getLsbD (i - 49) := by
  have hbit : ∀ j, (distinguishingBit kernel).getLsbD j = (decide (j = 0) && !kernel) := by
    intro j
    cases kernel <;> cases j <;> simp [distinguishingBit]
  simp only [withCounterIndex, getLsbD_or, getLsbD_and, getLsbD_clearIndexMask hi, BitVec.getLsbD_shiftLeft,
    getLsbD_maxCounterIndex (show i - 48 - 1 < 64 by omega), hbit, distinguishingBitOffset, numBitsPerAddr,
    numHighOrderBits]
  by_cases hlo : i < 48
  · simp [hlo]
  · by_cases hdist : i = 48
    · simp [hdist]
    · have h₁ : ¬ i - 48 < 1 := by omega
      have h₂ : i - 48 < 64 := by omega
      have h₃ : i - 48 - 1 < 15 := by omega
      have h₄ : i - 48 ≠ 0 := by omega
      simp only [hlo, hdist, hi, h₁, h₂, h₃, h₄, decide_true, decide_false, Bool.and_false, Bool.false_or, Bool.not_false,
        Bool.true_and, Bool.and_true, Bool.or_false, Bool.false_and, ↓reduceIte]
      rfl

theorem isValidAddress_kernel : isValidAddress true ptr = ptr.getLsbD 47 := by
  have h : (1 : Word) &&& ptr >>> 47 = if ptr.getLsbD 47 then 1 else 0 := by
    rw [BitVec.and_comm, show (1 : Word) = twoPow 64 0 by decide, and_twoPow, BitVec.getLsbD_ushiftRight]
    rfl
  simp only [isValidAddress, ↓reduceIte, h]
  cases ptr.getLsbD 47 <;> decide

theorem isWatchedAddress_kernel : isWatchedAddress true ptr = (ptr.getLsbD 47 != ptr.getLsbD 48) := by
  have hmask : userOrMask >>> 1 ||| userOrMask = twoPow 64 47 ||| twoPow 64 48 := by decide
  simp only [isWatchedAddress, ↓reduceIte, hmask, BitVec.and_or_distrib_left, and_twoPow]
  cases ptr.getLsbD 47 <;> cases ptr.getLsbD 48 <;> decide

theorem isWatchedAddress_user : isWatchedAddress false ptr = ptr.getLsbD 48 := by
  simp only [isWatchedAddress, Bool.false_eq_true, ↓reduceIte, userOrMask_eq, and_twoPow]
  cases h : ptr.getLsbD 48 with
  | false => exact decide_eq_false fun hw => absurd hw.2 (by decide)
  | true =>
    refine decide_eq_true ⟨?_, rfl⟩
    rintro rfl
    cases h

theorem isCanonical_iff : IsCanonical kernel ptr ↔ ∀ j, 47 ≤ j → j < 64 → ptr.getLsbD j = kernel := by
  constructor
  · intro h j hlo hhi
    have hj := congrArg (fun x => x.getLsbD (j - 47)) h
    simp only [BitField.getLsbD_get, show j - 47 < 17 by omega, decide_true, Bool.true_and,
      show 47 + (j - 47) = j by omega] at hj
    rw [hj]
    cases kernel with
    | false => exact BitVec.getLsbD_zero
    | true => exact BitVec.getLsbD_allOnes.trans (decide_eq_true (by omega))
  · intro h
    refine eq_of_getLsbD_eq fun j hj => ?_
    rw [BitField.getLsbD_get, h _ (by omega) (by omega), decide_eq_true hj, Bool.true_and]
    cases kernel with
    | false => exact BitVec.getLsbD_zero.symm
    | true => exact (BitVec.getLsbD_allOnes.trans (decide_eq_true hj)).symm

/-! ## Tainting -/

theorem isWatchedAddress_withCounterIndex (h : isValidAddress kernel ptr = true) :
    isWatchedAddress kernel (withCounterIndex kernel ptr counterIndex) = true := by
  cases kernel with
  | false => rw [isWatchedAddress_user, getLsbD_withCounterIndex (by decide)]; rfl
  | true =>
    rw [isValidAddress_kernel] at h
    rw [isWatchedAddress_kernel, getLsbD_withCounterIndex (by decide), getLsbD_withCounterIndex (by decide), h]
    rfl

theorem isValidAddress_withCounterIndex (h : isValidAddress kernel ptr = true) :
    isValidAddress kernel (withCounterIndex kernel ptr counterIndex) = true := by
  cases kernel with
  | false =>
    -- the distinguishing bit makes it large enough
    have hbit : (withCounterIndex false ptr counterIndex).getLsbD 48 = true := getLsbD_withCounterIndex (by decide)
    have hle : 2 ^ 48 ≤ (withCounterIndex false ptr counterIndex).toNat := Nat.ge_two_pow_of_testBit hbit
    simp only [isValidAddress, Bool.false_eq_true, ↓reduceIte, decide_eq_true_eq, BitVec.lt_def]
    exact Nat.lt_of_lt_of_le (by decide) hle
  | true =>
    rw [isValidAddress_kernel] at h ⊢
    rw [getLsbD_withCounterIndex (by decide)]
    exact h

theorem withCounterIndex_withCounterIndex (index : Word) :
    withCounterIndex kernel (withCounterIndex kernel ptr index) counterIndex = withCounterIndex kernel ptr counterIndex := by
  refine eq_of_getLsbD_eq fun j hj => ?_
  simp only [getLsbD_withCounterIndex hj]
  split <;> rfl

theorem taint_of_valid (h : isValidAddress kernel ptr = true) :
    taint kernel ptr counterIndex = some (withCounterIndex kernel ptr counterIndex) := by
  simp [taint, h, isWatchedAddress_withCounterIndex h]

theorem taint_eq : taint kernel ptr counterIndex =
    some (if isValidAddress kernel ptr then withCounterIndex kernel ptr counterIndex else ptr) := by
  cases h : isValidAddress kernel ptr with
  | false => simp [taint, h]
  | true => exact taint_of_valid h

theorem foldlM_taint (h : isValidAddress kernel ptr = true) (indexes : List Word) :
    (indexes ++ [counterIndex]).foldlM (taint kernel) ptr = some (withCounterIndex kernel ptr counterIndex) := by
  induction indexes generalizing ptr with
  | nil => simp [taint_of_valid h]
  | cons index indexes ih =>
    rw [List.cons_append, List.foldlM_cons, taint_of_valid h]
    exact (ih (isValidAddress_withCounterIndex h)).trans (congrArg some (withCounterIndex_withCounterIndex index))

theorem unwatchedAddress_withCounterIndex (h : IsCanonical kernel ptr) :
    unwatchedAddress kernel (withCounterIndex kernel ptr counterIndex) = ptr := by
  rw [isCanonical_iff] at h
  refine eq_of_getLsbD_eq fun j hj => ?_
  cases kernel with
  | false =>
    simp only [unwatchedAddress, Bool.false_eq_true, ↓reduceIte, getLsbD_and, getLsbD_withCounterIndex hj,
      getLsbD_clearIndexMask hj]
    by_cases hlo : j < 48
    · simp [hlo]
    · simp [hlo, h j (by omega) hj]
  | true =>
    simp only [unwatchedAddress, ↓reduceIte, getLsbD_or, BitVec.getLsbD_not, getLsbD_withCounterIndex hj,
      getLsbD_clearIndexMask hj]
    by_cases hlo : j < 48
    · simp [hlo]
    · simp [hlo, hj, h j (by omega) hj]

theorem counterIndexOf_withCounterIndex (h : counterIndex ≤ maxCounterIndex) :
    counterIndexOf (withCounterIndex kernel ptr counterIndex) = counterIndex := by
  have hlt : counterIndex.toNat < 2 ^ 15 := Nat.lt_of_le_of_lt (BitVec.le_def.mp h) (by decide)
  refine eq_of_getLsbD_eq fun j hj => ?_
  simp only [counterIndexOf, BitVec.getLsbD_ushiftRight, distinguishingBitOffset, numBitsPerAddr, numHighOrderBits]
  by_cases hlo : j < 15
  · rw [getLsbD_withCounterIndex (by omega), if_neg (by omega), if_neg (by omega)]
    exact congrArg counterIndex.getLsbD (by omega)
  · rw [BitVec.getLsbD_of_ge _ _ (by omega)]
    exact (Nat.testBit_lt_two_pow (Nat.lt_of_lt_of_le hlt (Nat.pow_le_pow_right (by decide) (by omega)))).symm

/-! ## `rcudbg` -/

theorem isWatchedAddress_of_isCanonical (h : IsCanonical kernel ptr) : isWatchedAddress kernel ptr = false := by
  rw [isCanonical_iff] at h
  cases kernel with
  | false => rw [isWatchedAddress_user, h 48 (by decide) (by decide)]
  | true => rw [isWatchedAddress_kernel, h 47 (by decide) (by decide), h 48 (by decide) (by decide)]; rfl

theorem get_withCounterIndex {off n : Nat} (index : RcudbgCounterIndex) (h : off + n ≤ 15) :
    BitField.get (49 + off) n (withCounterIndex kernel ptr index.asUint) = BitField.get off n index := by
  refine eq_of_getLsbD_eq fun j hj => ?_
  rw [BitField.getLsbD_get, BitField.getLsbD_get, getLsbD_withCounterIndex (by omega), if_neg (by omega),
    if_neg (by omega), show 49 + off + j - 49 = off + j by omega]
  simp [RcudbgCounterIndex.asUint, show off + j < 64 by omega]

theorem RcudbgWatchedAddress.congr {addr addr' : RcudbgWatchedAddress} (h : BitField.get 47 17 addr = BitField.get 47 17 addr') :
    isWatchedAddress kernel addr = isWatchedAddress kernel addr' ∧ addr.readSectionId = addr'.readSectionId ∧
    addr.isDeref = addr'.isDeref := by
  have hbit : ∀ j, 47 ≤ j → j < 64 → addr.getLsbD j = addr'.getLsbD j := by
    intro j hlo hhi
    have hj := congrArg (fun x => x.getLsbD (j - 47)) h
    simpa only [BitField.getLsbD_get, show j - 47 < 17 by omega, decide_true, Bool.true_and,
      show 47 + (j - 47) = j by omega] using hj
  have hfield : ∀ off n, 47 ≤ off → off + n ≤ 64 → BitField.get off n addr = BitField.get off n addr' := by
    intro off n hlo hhi
    refine eq_of_getLsbD_eq fun j hj => ?_
    rw [BitField.getLsbD_get, BitField.getLsbD_get, hbit _ (by omega) (by omega)]
  refine ⟨?_, hfield 49 14 (by decide) (by decide), ?_⟩
  · cases kernel with
    | false => rw [isWatchedAddress_user, isWatchedAddress_user, hbit 48 (by decide) (by decide)]
    | true =>
      rw [isWatchedAddress_kernel, isWatchedAddress_kernel, hbit 47 (by decide) (by decide),
        hbit 48 (by decide) (by decide)]
  · rw [RcudbgWatchedAddress.isDeref, RcudbgWatchedAddress.isDeref, hfield 63 1 (by decide) (by decide)]

theorem rcudbg_withCounterIndex (index : RcudbgCounterIndex) (id : BitVec 14) (b : Bool) :
    let addr : RcudbgWatchedAddress := withCounterIndex kernel ptr ((index.setIsDeref b).setReadSectionId id).asUint
    addr.readSectionId = id ∧ addr.isDeref = b := by
  constructor
  · exact (get_withCounterIndex _ (by decide)).trans (BitField.get_put_self (by decide))
  · have hbit : BitField.get 63 1 (withCounterIndex kernel ptr ((index.setIsDeref b).setReadSectionId id).asUint) =
        BitVec.ofBool b :=
      (get_withCounterIndex _ (by decide)).trans
        ((BitField.get_put_of_disjoint (by decide) (.inr (by decide))).trans (BitField.get_put_self (by decide)))
    rw [RcudbgWatchedAddress.isDeref, hbit]
    cases b <;> decide

theorem toNat_counterIndexOf (w : Word) : (counterIndexOf w).toNat < maxNumWatchpoints := by
  have hlt := w.isLt
  rw [counterIndexOf, BitVec.toNat_ushiftRight, Nat.shiftRight_eq_div_pow]
  exact Nat.div_lt_of_lt_mul hlt

end Granary.Watchpoints
