/-!
# Ranges of addresses

A range is given by its first address and its length.
-/

namespace Ranges

def Apart (a m b n : Nat) : Prop := a + m ≤ b ∨ b + n ≤ a

theorem Apart.symm {a m b n : Nat} (h : Apart a m b n) : Apart b n a m := Or.symm h

theorem Apart.mono {a m b n a' m' b' n' : Nat} (h : Apart a m b n) (ha : a ≤ a') (ham : a' + m' ≤ a + m) (hb : b ≤ b')
    (hbn : b' + n' ≤ b + n) : Apart a' m' b' n' := by
  unfold Apart at *
  omega

end Ranges
