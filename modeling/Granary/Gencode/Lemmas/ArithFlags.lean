import Granary.Gencode.ArithFlags

/-!
# What is on the stack between the save and the restore of the flags
-/

namespace Granary.Gencode

open Machine

attribute [local simp] State.top exec insertRestoreArithmeticFlagsAfter
  insertSaveArithmeticFlagsAfter saved

variable (alu : Machine.Instr → State → Word) (constraint : FlagSaveConstraint) (body : State → State) (s : State)

def lahfWord : Word := s.reg .rax &&& (~~~0xff00 : Word) ||| (s.flags &&& ahMask ||| 2) <<< 8

/-! ## The save -/

structure Saved (s' : State) : Prop where
  rsp : s'.reg .rsp = s.reg .rsp - 8
  top : s'.top = lahfWord s
  flags : s'.flags = s.flags
  reg : ∀ q, q ≠ .rsp → (q = .rax → constraint = .regAhIsLive) → s'.reg q = s.reg q

theorem saved_spec : Saved constraint s (saved alu constraint s) := by
  cases constraint with
  | regAhIsLive =>
    -- the second push keeps the value of rax while LAHF uses the register
    refine ⟨?_, ?_, rfl, fun q hq _ => ?_⟩
    · simp
    · simp [lahfWord]
    · by_cases hrax : q = .rax
      · simp [hrax, read_sub_write]
      · simp [hq, hrax]
  | regAhIsDead =>
    refine ⟨?_, ?_, rfl, fun q hq hrax => ?_⟩
    · simp
    · simp [lahfWord]
    · have hne : q ≠ .rax := fun h => absurd (hrax h) (by decide)
      simp [hq, hne]

/-! ## The restore -/

structure Restored (u u' : State) : Prop where
  rsp : u'.reg .rsp = u.reg .rsp + 8
  flags : u'.flags = u.flags &&& ~~~ahMask ||| u.top >>> 8 &&& ahMask
  reg : ∀ q, q ≠ .rsp → (q = .rax → constraint = .regAhIsLive) → u'.reg q = u.reg q

theorem restored_spec (u : State) : Restored constraint u (run alu (insertRestoreArithmeticFlagsAfter constraint) u) := by
  cases constraint with
  | regAhIsLive =>
    refine ⟨?_, ?_, fun q hq _ => ?_⟩
    · simp
    · simp [read_add_write]
    · by_cases hrax : q = .rax
      · simp [hrax]
      · simp [hq, hrax]
  | regAhIsDead =>
    refine ⟨?_, ?_, fun q hq hrax => ?_⟩
    · simp
    · simp
    · have hne : q ≠ .rax := fun h => absurd (hrax h) (by decide)
      simp [hq, hne]

/-! ## Around the body -/

variable {alu constraint body s}

theorem aroundBody_flags (h : Balanced alu constraint body s) :
    (aroundBody alu constraint body s).flags &&& arithMask = s.flags &&& arithMask ↔
      of (body (saved alu constraint s)).flags = of s.flags := by
  have hflags := (restored_spec alu constraint (body (saved alu constraint s))).flags
  rw [h.top, (saved_spec alu constraint s).top] at hflags
  rw [aroundBody, and_arithMask_eq_iff, hflags, sahf_and, of_sahf, lahfWord, lahf_shr]
  exact and_iff_right rfl

theorem aroundBody_rsp (h : Balanced alu constraint body s) : (aroundBody alu constraint body s).reg .rsp = s.reg .rsp := by
  have hrsp := (restored_spec alu constraint (body (saved alu constraint s))).rsp
  rw [h.rsp, (saved_spec alu constraint s).rsp, BitVec.sub_add_cancel] at hrsp
  exact hrsp

theorem aroundBody_reg (h : Balanced alu constraint body s) (q : Reg) (hrax : q = .rax → constraint = .regAhIsLive)
    (hq : (body (saved alu constraint s)).reg q = (saved alu constraint s).reg q) :
    (aroundBody alu constraint body s).reg q = s.reg q := by
  by_cases hrsp : q = .rsp
  · rw [hrsp, aroundBody_rsp h]
  · calc (aroundBody alu constraint body s).reg q
        = (body (saved alu constraint s)).reg q := (restored_spec alu constraint _).reg q hrsp hrax
      _ = (saved alu constraint s).reg q := hq
      _ = s.reg q := (saved_spec alu constraint s).reg q hrsp hrax

end Granary.Gencode
