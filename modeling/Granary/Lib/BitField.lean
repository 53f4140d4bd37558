import Mathlib.Algebra.Group.Nat.Defs

/-!
# Bit fields

Reading and writing some of the bits of a word, as the fields of packed structures are.
-/

namespace BitField

variable {w n k off off' i : Nat} {x : BitVec w} {v : BitVec n}

def get (off n : Nat) (x : BitVec w) : BitVec n := x.extractLsb' off n

/-- Write the `n` bits from `off` on, and leave the other bits alone. -/
def put (off : Nat) (v : BitVec n) (x : BitVec w) : BitVec w :=
  x &&& ~~~((BitVec.allOnes n).setWidth w <<< off) ||| v.setWidth w <<< off

theorem getLsbD_get : (get off n x).getLsbD i = (decide (i < n) && x.getLsbD (off + i)) := by
  simp [get]

theorem getLsbD_put (hi : i < w) :
    (put off v x).getLsbD i = if off ≤ i ∧ i < off + n then v.getLsbD (i - off) else x.getLsbD i := by
  simp only [put, BitVec.getLsbD_or, BitVec.getLsbD_and, BitVec.getLsbD_not, BitVec.getLsbD_shiftLeft,
    BitVec.getLsbD_setWidth, BitVec.getLsbD_allOnes, hi, decide_true, Bool.true_and, Nat.lt_of_le_of_lt (Nat.sub_le i off) hi]
  by_cases hlo : i < off
  · simp [hlo, Nat.not_le.mpr hlo]
  · by_cases hhi : i < off + n
    · have h : i - off < n := by omega
      simp [hlo, Nat.not_lt.mp hlo, hhi, h]
    · have h : ¬ i - off < n := by omega
      simp [hlo, hhi, h, BitVec.getLsbD_of_ge v (i - off) (by omega)]

theorem get_eq_iff {y : BitVec w} : get off n x = get off n y ↔ ∀ i < n, x.getLsbD (off + i) = y.getLsbD (off + i) := by
  constructor
  · intro h i hi
    have := congrArg (BitVec.getLsbD · i) h
    simpa only [getLsbD_get, hi, decide_true, Bool.true_and] using this
  · intro h
    refine BitVec.eq_of_getLsbD_eq fun i hi => ?_
    rw [getLsbD_get, getLsbD_get, h i hi]

theorem get_put_self (h : off + n ≤ w) : get off n (put off v x) = v := by
  refine BitVec.eq_of_getLsbD_eq fun i hi => ?_
  rw [getLsbD_get, getLsbD_put (by omega), if_pos (by omega)]
  simp [hi]

theorem get_put_of_disjoint (h : off' + k ≤ w) (hd : off' + k ≤ off ∨ off + n ≤ off') :
    get off' k (put off v x) = get off' k x := by
  refine BitVec.eq_of_getLsbD_eq fun i hi => ?_
  rw [getLsbD_get, getLsbD_get, getLsbD_put (by omega), if_neg (by omega)]

end BitField
