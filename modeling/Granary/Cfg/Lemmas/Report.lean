import Granary.Cfg.Report

/-!
# Lemmas about the reports about basic blocks
-/

namespace Granary.Cfg

open Blocks List Option

variable {pointer : Nat → String} {bb : ReportedBlock} {i n : Nat}

theorem sprintf_eq_some_iff {text : String} : sprintf i text = some n ↔ n = i + text.length ∧ n < logBuffSize := by
  rw [sprintf]
  by_cases hfits : i + text.length + 1 ≤ logBuffSize
  · rw [if_pos hfits, Option.some.injEq]
    omega
  · rw [if_neg hfits]
    simp only [reduceCtorEq, false_iff]
    omega

theorem foldlM_sprintf_iff (texts : List String) (hi : i < logBuffSize) :
    texts.foldlM sprintf i = some n ↔ n = i + (texts.map String.length).sum ∧ n < logBuffSize := by
  induction texts generalizing i with
  | nil =>
    simp only [foldlM_nil, map_nil, sum_nil, Option.pure_def, Option.some.injEq]
    omega
  | cons text texts ih =>
    simp only [foldlM_cons, bind_eq_bind, bind_eq_some_iff, sprintf_eq_some_iff, map_cons,
      sum_cons]
    constructor
    · rintro ⟨j, ⟨rfl, hj⟩, hrest⟩
      rw [ih hj] at hrest
      omega
    · rintro ⟨rfl, hlt⟩
      have hj : i + text.length < logBuffSize := by omega
      exact ⟨_, ⟨rfl, hj⟩, (ih hj).mpr ⟨by omega, hlt⟩⟩

theorem arrayGet_jccNames (op : CondOpcode) :
    (arrayGet jccNames ((widenIfCti op).number - opJo)).toOption.isSome = true ↔ ∀ kind, op ≠ .loop kind := by
  cases op with
  | jccShort c => cases c <;> simp <;> rfl
  | jcc c => cases c <;> simp <;> rfl
  | loop kind =>
    simp only [ne_eq, CondOpcode.loop.injEq, forall_eq', iff_false]
    cases kind <;> decide

/-- All conditional branches of the block but LOOP and JECXZ have names. -/
theorem instrTexts_isSome (instr : ReportedInstr) :
    (instrTexts pointer bb instr).isSome = true ↔ ∀ kind target, instr.cti ≠ .cond (.loop kind) target := by
  rw [instrTexts]
  cases instr.cti with
  | cond op target =>
    simp only [isSome_map, arrayGet_jccNames, ne_eq, ReportedCti.cond.injEq, not_and]
    exact ⟨fun h kind _ hop => absurd hop (h kind), fun h kind hop => h kind target hop rfl⟩
  | _ => simp

theorem reportInstr_eq_some_iff (instr : ReportedInstr) (hi : i < logBuffSize) :
    reportInstr pointer bb i instr = some n ↔
      (instrTexts pointer bb instr).isSome = true ∧ n = i + instrSize pointer bb instr ∧ n < logBuffSize := by
  rw [reportInstr, instrSize]
  cases instrTexts pointer bb instr with
  | none => simp
  | some texts => simpa using foldlM_sprintf_iff texts hi

theorem foldlM_reportInstr_iff (instrs : List ReportedInstr) (hi : i < logBuffSize) :
    instrs.foldlM (reportInstr pointer bb) i = some n ↔
      (∀ instr ∈ instrs, (instrTexts pointer bb instr).isSome = true) ∧
        n = i + (instrs.map (instrSize pointer bb)).sum ∧ n < logBuffSize := by
  induction instrs generalizing i with
  | nil =>
    simp only [foldlM_nil, map_nil, sum_nil, Option.pure_def, Option.some.injEq, not_mem_nil,
      false_imp_iff, implies_true, true_and]
    omega
  | cons instr instrs ih =>
    simp only [foldlM_cons, bind_eq_bind, bind_eq_some_iff, reportInstr_eq_some_iff instr hi,
      forall_mem_cons, map_cons, sum_cons]
    constructor
    · rintro ⟨j, ⟨hsome, rfl, hj⟩, hrest⟩
      rw [ih hj] at hrest
      exact ⟨⟨hsome, hrest.1⟩, by omega, hrest.2.2⟩
    · rintro ⟨⟨hsome, hall⟩, rfl, hlt⟩
      have hj : i + instrSize pointer bb instr < logBuffSize := by omega
      exact ⟨_, ⟨hsome, rfl, hj⟩, (ih hj).mpr ⟨hall, by omega, hlt⟩⟩

theorem reportBb_eq_some_iff :
    reportBb pointer bb = some n ↔
      (∀ instr ∈ bb.instrs, (instrTexts pointer bb instr).isSome = true) ∧ n = reportSize pointer bb ∧ n < logBuffSize := by
  simp only [reportBb, bind_eq_bind, bind_eq_some_iff, sprintf_eq_some_iff, Nat.zero_add, reportSize]
  generalize (headerText pointer bb).length = size
  constructor
  · rintro ⟨i, ⟨hi, hlt⟩, j, hrest, hlast⟩
    obtain ⟨hall, hj, hjlt⟩ := (foldlM_reportInstr_iff bb.instrs hlt).mp hrest
    rw [if_pos hjlt, Option.some.injEq] at hlast
    exact ⟨hall, by omega, by omega⟩
  · rintro ⟨hall, hn, hlt⟩
    have hi : size < logBuffSize := by omega
    exact ⟨size, ⟨rfl, hi⟩, n, (foldlM_reportInstr_iff bb.instrs hi).mpr ⟨hall, hn, hlt⟩, if_pos hlt⟩

end Granary.Cfg
