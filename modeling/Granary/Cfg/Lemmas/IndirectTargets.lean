import Granary.Cfg.IndirectTargets
import Mathlib.Data.Finset.Card

/-!
# Lemmas about the targets of indirect branches
-/

namespace Granary.Cfg

open List Finset

variable {α : Type} {targetAddr : α} {targets calls : List α}

def slotsOf (targets : List α) (n : Nat) : List (Option α) := targets.map some ++ List.replicate n none

@[simp] theorem filterMap_slotsOf (n : Nat) : (slotsOf targets n).filterMap id = targets := by
  simp [slotsOf, filterMap_append, filterMap_map]

/-! ## One call -/

variable [DecidableEq α]

theorem addIndirectTarget_of_mem (hmem : targetAddr ∈ targets) (n : Nat) :
    addIndirectTarget targetAddr (slotsOf targets n) = slotsOf targets n := by
  suffices hsearch : searchAndAdd targetAddr (slotsOf targets n) = some (slotsOf targets n) by
    rw [addIndirectTarget, hsearch]
  induction targets with
  | nil => exact absurd hmem List.not_mem_nil
  | cons target rest ih =>
    simp only [slotsOf, List.map_cons, List.cons_append, searchAndAdd] at ih ⊢
    by_cases heq : targetAddr = target
    · rw [if_pos heq]
    · rw [if_neg heq, ih ((List.mem_cons.mp hmem).resolve_left heq), Option.map_some]

theorem addIndirectTarget_of_room (hnew : targetAddr ∉ targets) (n : Nat) :
    addIndirectTarget targetAddr (slotsOf targets (n + 1)) = slotsOf (targets ++ [targetAddr]) n := by
  suffices hsearch : searchAndAdd targetAddr (slotsOf targets (n + 1)) = some (slotsOf (targets ++ [targetAddr]) n) by
    rw [addIndirectTarget, hsearch]
  induction targets with
  | nil => rfl
  | cons target rest ih =>
    obtain ⟨hne, hnot⟩ := List.ne_and_not_mem_of_not_mem_cons hnew
    simp only [slotsOf, List.map_cons, List.cons_append, searchAndAdd] at ih ⊢
    rw [if_neg hne, ih hnot, Option.map_some]

/-- The new slots are all empty: the target for which they were made is not in them. -/
theorem addIndirectTarget_of_full (hnew : targetAddr ∉ targets) (hlt : targets.length * 2 < 2 ^ 32) :
    addIndirectTarget targetAddr (slotsOf targets 0) = slotsOf targets targets.length := by
  have hsearch : searchAndAdd targetAddr (slotsOf targets 0) = none := by
    clear hlt
    induction targets with
    | nil => rfl
    | cons target rest ih =>
      obtain ⟨hne, hnot⟩ := List.ne_and_not_mem_of_not_mem_cons hnew
      simp only [slotsOf, List.map_cons, List.cons_append, searchAndAdd] at ih ⊢
      rw [if_neg hne, ih hnot, Option.map_none]
  have hlen : (slotsOf targets 0).length = targets.length := by simp [slotsOf]
  rw [addIndirectTarget, hsearch]
  simp only [resize, hlen, Nat.mod_eq_of_lt hlt]
  rw [List.take_of_length_le (by omega), show targets.length * 2 - targets.length = targets.length by omega]
  simp [slotsOf]

/-! ## Many calls -/

theorem targetsAfter_append : targetsAfter (calls ++ [targetAddr]) = addIndirectTarget targetAddr (targetsAfter calls) := by
  simp [targetsAfter]

/-- As long as there are no more than four targets, each one gets a slot. -/
theorem targetsAfter_eq (hcard : calls.toFinset.card ≤ 4) :
    ∃ targets : List α, targets.Nodup ∧ targets.toFinset = calls.toFinset ∧
      targetsAfter calls = slotsOf targets (4 - targets.length) := by
  induction calls using List.reverseRecOn with
  | nil => exact ⟨[], nodup_nil, rfl, rfl⟩
  | append_singleton calls targetAddr ih =>
    have hunion : (calls ++ [targetAddr]).toFinset = insert targetAddr calls.toFinset := by simp
    rw [hunion] at hcard ⊢
    have hle : calls.toFinset.card ≤ 4 := (card_le_card (subset_insert _ _)).trans hcard
    obtain ⟨targets, hnodup, hset, hafter⟩ := ih hle
    rw [targetsAfter_append, hafter]
    by_cases hmem : targetAddr ∈ targets
    · have hin : targetAddr ∈ calls.toFinset := hset ▸ mem_toFinset.mpr hmem
      exact ⟨targets, hnodup, by rw [insert_eq_of_mem hin, hset], addIndirectTarget_of_mem hmem _⟩
    · have hnot : targetAddr ∉ calls.toFinset := fun hin => hmem (mem_toFinset.mp (hset ▸ hin))
      rw [card_insert_of_notMem hnot, ← hset, toFinset_card_of_nodup hnodup] at hcard
      refine ⟨targets ++ [targetAddr], nodup_append_comm.mp ?_, by simp [hset], ?_⟩
      · exact nodup_cons.mpr ⟨hmem, hnodup⟩
      · rw [show 4 - targets.length = 3 - targets.length + 1 by omega, addIndirectTarget_of_room hmem,
          length_append, length_singleton, show 4 - (targets.length + 1) = 3 - targets.length by omega]

theorem recorded_of_card_le (hcard : calls.toFinset.card ≤ 4) : Recorded calls := by
  obtain ⟨targets, hnodup, hset, hafter⟩ := targetsAfter_eq hcard
  rw [Recorded, hafter, filterMap_slotsOf]
  exact ⟨hnodup, fun target => by rw [← mem_toFinset, hset, mem_toFinset]⟩

/-- The fifth target is lost. -/
theorem not_recorded_fifth (calls : List α) (hcard : calls.toFinset.card = 4) (hnew : targetAddr ∉ calls) :
    ¬Recorded (calls ++ [targetAddr]) := by
  obtain ⟨targets, hnodup, hset, hafter⟩ := targetsAfter_eq hcard.le
  have hlen : targets.length = 4 := by rw [← toFinset_card_of_nodup hnodup, hset, hcard]
  have hnot : targetAddr ∉ targets := by
    rwa [← mem_toFinset, hset, mem_toFinset]
  rintro ⟨-, hmem⟩
  have hin := (hmem targetAddr).mpr (by simp)
  rw [targetsAfter_append, hafter, hlen, Nat.sub_self, addIndirectTarget_of_full hnot (by rw [hlen]; decide),
    filterMap_slotsOf] at hin
  exact hnot hin

end Granary.Cfg
