import Mathlib.Logic.Basic

/-!
# Bit sets

Sets of the positions in a word. An element is put in and taken out with a mask that has one bit.
-/

namespace BitSet

variable {w : Nat} (s t : BitVec w) (p q : Fin w)

def has : Bool := s.getLsbD p

def insert : BitVec w := s ||| BitVec.twoPow w p

def erase : BitVec w := s &&& ~~~BitVec.twoPow w p

theorem eq_iff {s t : BitVec w} : s = t ↔ ∀ p, has s p = has t p :=
  ⟨fun h _ => by rw [h], fun h => BitVec.eq_of_getLsbD_eq fun i hi => h ⟨i, hi⟩⟩

@[simp] theorem has_or : has (s ||| t) p = (has s p || has t p) := BitVec.getLsbD_or

@[simp] theorem has_zero : has (0#w) p = false := BitVec.getLsbD_zero

@[simp] theorem has_allOnes : has (BitVec.allOnes w) p = true := by simp [has]

@[simp] theorem has_insert : has (insert s p) q = (has s q || decide (q = p)) := by
  simp [has, insert, Fin.ext_iff, eq_comm]

@[simp] theorem has_erase : has (erase s p) q = (has s q && !decide (q = p)) := by
  simp [has, erase, Fin.ext_iff, eq_comm]

end BitSet
