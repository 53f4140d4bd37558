import Granary.Kernel.Lemmas.Hotpatch

/-!
# Copies of functions run like the functions
-/

namespace Granary.Kernel

/-- The copy simulates the body exactly when each of its instructions can be moved. -/
theorem duplicateFunction_simulates_iff {α : Type} {addr newAddr : Int} {body : List (BodyInstr α)} (hne : newAddr ≠ addr)
    (henc : ∀ i ∈ body, i.Encoded) :
    Simulates addr newAddr body (duplicateFunction addr newAddr body) ↔
      ∀ o i, instrAt body o = some i → i.Movable addr (bodySize body) newAddr o :=
  ⟨fun h _ i hi => movable_of_simulates h hi hne (henc i (mem_of_instrAt hi)), simulates_of_movable hne henc⟩

/-- A short branch to itself, and a call to outside of the body. -/
def callingBody : List (BodyInstr Unit) := [⟨(), 2, .target true (-2)⟩, ⟨(), 5, .target false 100⟩]

theorem duplicateFunction_simulates_calling : Simulates 0 4096 callingBody (duplicateFunction 0 4096 callingBody) := by
  refine (duplicateFunction_simulates_iff (by decide) ?_).mpr fun o i hi => ?_
  · simp [callingBody, BodyInstr.Encoded, Reaches]
  · simp only [callingBody, instrAt] at hi
    split_ifs at hi with h h' <;> cases hi <;>
      simp [BodyInstr.Movable, Reaches, Inside, bodySize, callingBody] <;> omega

/-- A jump through memory loads from another address, and a short branch to outside of the body goes elsewhere. -/
theorem duplicateFunction_differs :
    ¬ Simulates 0 4096 [⟨(), 6, .memory true 100⟩] (duplicateFunction 0 4096 [⟨(), 6, .memory true 100⟩]) ∧
      ¬ Simulates 0 4096 [⟨(), 2, .target true 50⟩] (duplicateFunction 0 4096 [⟨(), 2, .target true 50⟩]) := by
  refine ⟨fun h => ?_, fun h => ?_⟩
  · simpa [BodyInstr.Movable] using movable_of_simulates (o := 0) h rfl (by decide) (show Reaches false 100 by decide)
  · simpa [BodyInstr.Movable, Inside, Reaches, bodySize] using
      movable_of_simulates (o := 0) h rfl (by decide) (show Reaches true 50 by decide)

end Granary.Kernel
