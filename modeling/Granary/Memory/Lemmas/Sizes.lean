import Granary.Memory.Heap
import Mathlib.Tactic.Ring

/-!
# Size classes

`allocation_size` rounds up to a power of two of at least 8 bytes, and `log_base_2` inverts it.
-/

namespace Granary.Memory

variable {x size : Nat}

theorem shiftLeft_log (hx : x ≤ 2 ^ 64) (h1 : 2 ≤ x) : nextPowerOf2 x = 2 ^ (Nat.log2 (x - 1) + 1) := by
  have hlog : Nat.log2 (x - 1) < 64 := (Nat.log2_lt (by omega)).mpr (by omega)
  simp only [nextPowerOf2, clzl, unsignedLongNumBits, Nat.shiftLeft_eq, Nat.one_mul]
  congr 1
  omega

theorem le_nextPowerOf2 (hx : x ≤ 2 ^ 64) (h1 : 2 ≤ x) : x ≤ nextPowerOf2 x := by
  rw [shiftLeft_log hx h1]
  have := @Nat.lt_log2_self (x - 1)
  omega

theorem allocationSize_small (h : size < 8) : allocationSize size = 8 := by
  simp [allocationSize, minObjectSize, minScale, h]

theorem allocationSize_big (h : 8 ≤ size) (hs : size ≤ 2 ^ 64) : allocationSize size = 2 ^ (Nat.log2 (size - 1) + 1) := by
  have hlow : 2 ^ Nat.log2 (size - 1) ≤ size - 1 := Nat.log2_self_le (by omega)
  have hhalf : 2 ^ (Nat.log2 (size - 1) + 1) / 2 = 2 ^ Nat.log2 (size - 1) := by rw [Nat.pow_succ]; omega
  have hmin : ¬ minObjectSize > size := by simp [minObjectSize, minScale]; omega
  simp only [allocationSize, hmin, ↓reduceIte, shiftLeft_log hs (by omega), hhalf, ge_iff_le,
    ite_eq_right_iff]
  omega

theorem le_allocationSize (hs : size ≤ 2 ^ 64) : size ≤ allocationSize size := by
  rcases Nat.lt_or_ge size 8 with h | h
  · rw [allocationSize_small h]; omega
  · have := le_nextPowerOf2 hs (by omega)
    rwa [shiftLeft_log hs (by omega), ← allocationSize_big h hs] at this

theorem allocationSize_pow (hs : size ≤ 2 ^ 63) : ∃ k, 3 ≤ k ∧ k ≤ 63 ∧ allocationSize size = 2 ^ k := by
  rcases Nat.lt_or_ge size 8 with h | h
  · exact ⟨3, by omega, by omega, allocationSize_small h⟩
  · refine ⟨Nat.log2 (size - 1) + 1, ?_, ?_, allocationSize_big h (by omega)⟩
    · have : 2 ≤ Nat.log2 (size - 1) := (Nat.le_log2 (by omega)).mpr (by omega)
      omega
    · have : Nat.log2 (size - 1) < 63 := (Nat.log2_lt (by omega)).mpr (by omega)
      omega

theorem logBase2_pow {k : Nat} (hk : k ≤ 63) : logBase2 (2 ^ k) = k := by
  simp only [logBase2, clzl, unsignedLongNumBits, Nat.log2_two_pow]
  omega

theorem allocationSize_eq_scale (hs : size ≤ 2 ^ 63) : allocationSize size = 2 ^ (scaleOf size + 3) := by
  obtain ⟨k, h3, h63, hk⟩ := allocationSize_pow hs
  rw [scaleOf, hk, logBase2_pow h63, minScale, Nat.sub_add_cancel h3]

theorem eight_dvd_allocationSize (hs : size ≤ 2 ^ 63) : 8 ∣ allocationSize size := by
  rw [allocationSize_eq_scale hs, Nat.pow_add]
  exact Dvd.intro_left _ rfl

theorem heapSize_eq : heapSize = 2 ^ 28 := by decide

end Granary.Memory
