import Granary.Kernel.Hotpatch

/-!
# Copies of functions
-/

namespace Granary.Kernel

attribute [local simp] BodyInstr.address BodyInstr.encode BodyInstr.goto

variable {α σ : Type} {addr newAddr o pc : Int} {len : Nat} {i : BodyInstr α} {body copy : List (BodyInstr α)}

theorem encode_op (short : Bool) (disp : Int) (form : Form) :
    (i.encode short disp form).op = i.op ∧ (i.encode short disp form).size = i.size := by
  unfold BodyInstr.encode
  split <;> exact ⟨rfl, rfl⟩

theorem relocate_op : (i.relocate addr len newAddr pc).op = i.op ∧ (i.relocate addr len newAddr pc).size = i.size := by
  unfold BodyInstr.relocate
  cases i.form with
  | plain => exact ⟨rfl, rfl⟩
  | target => exact encode_op ..
  | memory isCti disp =>
    cases isCti with
    | true => exact ⟨rfl, rfl⟩
    | false => exact encode_op ..

theorem bodySize_duplicateLoop : bodySize (duplicateLoop addr len newAddr pc body) = bodySize body := by
  induction body generalizing pc with
  | nil => rfl
  | cons i body ih =>
    simp only [bodySize, duplicateLoop, List.map_cons, List.sum_cons, relocate_op.2] at ih ⊢
    rw [ih]

theorem instrAt_duplicateLoop :
    instrAt (duplicateLoop addr len newAddr pc body) o = (instrAt body o).map (·.relocate addr len newAddr (pc + o)) := by
  induction body generalizing pc o with
  | nil => rfl
  | cons i body ih =>
    rw [duplicateLoop, instrAt, instrAt, relocate_op.2, ih]
    split
    case isTrue h => rw [h, Int.add_zero, Option.map_some]
    case isFalse h => rw [show pc + i.size + (o - i.size) = pc + o by omega]

/-- The copy of an instruction is the same for the machine exactly when it can be moved. -/
theorem relocate_same_iff (hne : newAddr ≠ addr) (henc : i.Encoded) :
    ((i.relocate addr len newAddr (addr + o)).address (newAddr + o) = i.address (addr + o) ∧
      (i.relocate addr len newAddr (addr + o)).goto newAddr len o = i.goto addr len o) ↔ i.Movable addr len newAddr o := by
  obtain ⟨op, size, form⟩ := i
  have hpc : newAddr + (addr + o - addr) + size = newAddr + o + size := by omega
  cases form with
  | plain => simp [BodyInstr.relocate, BodyInstr.Movable]
  | target short disp =>
    have henc : Reaches short disp := henc
    have hshift : Inside newAddr len (newAddr + o + size + disp) ↔ Inside addr len (addr + o + size + disp) := by
      unfold Inside
      omega
    simp only [BodyInstr.relocate, BodyInstr.Movable, hpc]
    by_cases hin : Inside addr len (addr + o + size + disp)
    · have hdisp : newAddr + (addr + o + size + disp - addr) - (newAddr + o + size) = disp := by omega
      have hoff : newAddr + o + size + disp - newAddr = addr + o + size + disp - addr := by omega
      simp [hin, hdisp, henc, hshift, hoff]
    · have hdisp : addr + o + size + disp - (newAddr + o + size) = addr - newAddr + disp := by omega
      have hkeep : newAddr + o + size + (addr - newAddr + disp) = addr + o + size + disp := by omega
      have hmoved : newAddr + o + size + disp ≠ addr + o + size + disp := by omega
      by_cases hreach : Reaches short (addr - newAddr + disp)
      · by_cases hin' : Inside newAddr len (addr + o + size + disp) <;>
          simp [hin, hin', hdisp, hreach, hkeep]
      · simp [hin, hdisp, hreach, hshift, hmoved]
  | memory isCti disp =>
    have hmoved : newAddr + o + size + disp ≠ addr + o + size + disp := by omega
    cases isCti with
    | true => simp [BodyInstr.relocate, BodyInstr.Movable, hmoved]
    | false =>
      have hdisp : addr + o + size + disp - (newAddr + o + size) = addr - newAddr + disp := by omega
      have hkeep : newAddr + o + size + (addr - newAddr + disp) = addr + o + size + disp := by omega
      simp only [BodyInstr.relocate, BodyInstr.Movable, hpc, hdisp]
      by_cases hreach : Reaches false (addr - newAddr + disp) <;>
        simp [hreach, hkeep, hmoved]

theorem mem_of_instrAt (h : instrAt body o = some i) : i ∈ body := by
  induction body generalizing o with
  | nil => cases h
  | cons j body ih =>
    rw [instrAt] at h
    split at h
    · cases h
      exact List.mem_cons_self
    · exact List.mem_cons_of_mem _ (ih h)

/-- If all instructions can be moved, then the copy runs like the body. -/
theorem simulates_of_movable (hne : newAddr ≠ addr) (henc : ∀ i ∈ body, i.Encoded)
    (hmovable : ∀ o i, instrAt body o = some i → i.Movable addr (bodySize body) newAddr o) :
    Simulates addr newAddr body (duplicateFunction addr newAddr body) := by
  intro σ exec fuel
  induction fuel with
  | zero => exact fun _ => rfl
  | succ fuel ih =>
    rintro ⟨o | pc, s⟩
    · rw [runBody, runBody, duplicateFunction, instrAt_duplicateLoop, bodySize_duplicateLoop, ← duplicateFunction]
      cases hi : instrAt body o with
      | none => rfl
      | some i =>
        obtain ⟨haddr, hgoto⟩ := (relocate_same_iff hne (henc i (mem_of_instrAt hi))).mpr (hmovable o i hi)
        simp only [Option.map_some, relocate_op.1, relocate_op.2, haddr, hgoto]
        exact ih _
    · rfl

/-- A machine that always branches and keeps the address of the last memory operand. -/
def showOperands : Machine α (Option Int) := fun _ _ addr _ => (addr, .branch)

theorem movable_of_simulates (h : Simulates addr newAddr body (duplicateFunction addr newAddr body))
    (hi : instrAt body o = some i) (hne : newAddr ≠ addr) (henc : i.Encoded) : i.Movable addr (bodySize body) newAddr o := by
  have hrun := h (Option Int) showOperands 1 (.offset o, none)
  simp only [runBody, duplicateFunction, instrAt_duplicateLoop, bodySize_duplicateLoop, hi, Option.map_some, showOperands,
    Prod.mk.injEq] at hrun
  exact (relocate_same_iff hne henc).mp hrun.symm

end Granary.Kernel
