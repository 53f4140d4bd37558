import Granary.Cfg.Lemmas.IndirectTargets
import Granary.Cfg.Lemmas.Report

/-!
# Control-flow graphs: theorems
-/

namespace Granary.Cfg

/-! ## Targets of indirect branches -/

/-- The targets of an indirect branch are recorded after each of the calls exactly when there are at most four of them. -/
theorem recorded_iff {α : Type} [DecidableEq α] (calls : List α) :
    (∀ done, done <+: calls → Recorded done) ↔ calls.toFinset.card ≤ 4 := by
  constructor
  · intro hall
    induction calls using List.reverseRecOn with
    | nil => simp
    | append_singleton calls targetAddr ih =>
      have hle := ih fun done hdone => hall done (hdone.trans (List.prefix_append _ _))
      by_contra hcard
      have hunion : (calls ++ [targetAddr]).toFinset = insert targetAddr calls.toFinset := by simp
      rw [hunion] at hcard
      have hnew : targetAddr ∉ calls.toFinset := by
        intro hmem
        rw [Finset.insert_eq_of_mem hmem] at hcard
        exact hcard hle
      rw [Finset.card_insert_of_notMem hnew] at hcard
      exact not_recorded_fifth calls (by omega) (mt List.mem_toFinset.mpr hnew) (hall _ (List.prefix_refl _))
  · intro hcard done hdone
    refine recorded_of_card_le ((Finset.card_le_card fun target hmem => ?_).trans hcard)
    exact List.mem_toFinset.mpr (hdone.subset (List.mem_toFinset.mp hmem))

/-- Of five targets the last one is not recorded. -/
theorem fifth_target_lost : ¬Recorded [1, 2, 3, 4, 5] := not_recorded_fifth [1, 2, 3, 4] rfl (by decide)

/-! ## Reports -/

/-- A report stays inside of its buffer and of the table of names exactly when its text is short enough and the block has no
LOOP and no JECXZ. -/
theorem reportBb_isSome_iff (pointer : Nat → String) (bb : ReportedBlock) :
    (reportBb pointer bb).isSome = true ↔
      reportSize pointer bb < logBuffSize ∧
        ∀ instr ∈ bb.instrs, ∀ kind target, instr.cti ≠ .cond (.loop kind) target := by
  rw [Option.isSome_iff_exists]
  simp only [reportBb_eq_some_iff, instrTexts_isSome]
  constructor
  · rintro ⟨n, hall, rfl, hlt⟩
    exact ⟨hlt, hall⟩
  · rintro ⟨hlt, hall⟩
    exact ⟨_, hall, rfl, hlt⟩

/-- A block that ends in JECXZ, and one that calls through a pointer with many targets. -/
theorem report_out_of_bounds :
    reportBb (fun _ => "0x0") ⟨0, 0, 0, 0, 0, 0, 0, none, [⟨0, 2, .cond (.loop .jecxz) 0⟩]⟩ = none ∧
      reportBb (fun _ => "0x0") ⟨0, 0, 0, 0, 0, 0, 0, none, [⟨0, 2, .indirect true (List.replicate 200 (some 0))⟩]⟩ =
        none := by
  decide +kernel

end Granary.Cfg
