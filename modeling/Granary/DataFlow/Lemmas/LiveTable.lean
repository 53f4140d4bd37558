import Granary.DataFlow.LiveTable
import Granary.Registers.Lemmas.Manager

/-!
# Lemmas about tables of live registers
-/

namespace Granary.DataFlow

open Registers List

variable {offset : Nat}

/-! ## Search -/

section

variable {α : Type} {bbs : List (Nat × α)} {value : α}

theorem checks_run_mem (h : (SearchCode.checks bbs).run offset = some value) : (offset, value) ∈ bbs := by
  simp only [SearchCode.run, Option.map_eq_some_iff] at h
  obtain ⟨bb, hbb, rfl⟩ := h
  have hoff : bb.1 = offset := by simpa using find?_some hbb
  rw [← hoff]
  exact mem_of_find?_eq_some hbb

theorem genBinSearch_mem (bbs : List (Nat × α)) (h : (genBinSearch bbs).run offset = some value) : (offset, value) ∈ bbs := by
  fun_induction genBinSearch bbs with
  | case1 bbs _ => exact checks_run_mem h
  | case2 bbs _ split ih₁ ih₂ =>
    simp only [SearchCode.run] at h
    split at h
    · exact mem_of_mem_take (ih₁ h)
    · exact mem_of_mem_drop (ih₂ h)

theorem mem_half (split : Nat) {pivot : Nat × α} (hsorted : bbs.Pairwise fun a b => a.1 ≤ b.1) (hpos : 0 < split)
    (hpivot : bbs[split - 1]? = some pivot) (hmem : offset ∈ bbs.map (·.1)) :
    if pivot.1 ≥ offset then offset ∈ (bbs.take split).map (·.1) else offset ∈ (bbs.drop split).map (·.1) := by
  obtain ⟨hlt, rfl⟩ := List.getElem?_eq_some_iff.mp hpivot
  rw [← List.take_append_drop split bbs, List.map_append, List.mem_append] at hmem
  have hlast : bbs[split - 1] ∈ bbs.take split := List.mem_take_iff_getElem.mpr ⟨split - 1, by omega, rfl⟩
  obtain ⟨-, -, hle⟩ := List.pairwise_append.mp (List.take_append_drop split bbs ▸ hsorted)
  split
  · next hge =>
      refine hmem.elim id fun hdrop => ?_
      obtain ⟨bb, hbb, rfl⟩ := List.mem_map.mp hdrop
      have heq : bbs[split - 1].1 = bb.1 := Nat.le_antisymm (hle _ hlast _ hbb) hge
      exact List.mem_map.mpr ⟨_, hlast, heq⟩
  · next hge =>
      refine hmem.elim (fun htake => ?_) id
      obtain ⟨bb, hbb, rfl⟩ := List.mem_map.mp htake
      obtain ⟨j, hj, rfl⟩ := List.mem_take_iff_getElem.mp hbb
      rcases Nat.lt_or_eq_of_le (show j ≤ split - 1 by omega) with hlt' | rfl
      · exact absurd (List.pairwise_iff_getElem.mp hsorted j (split - 1) _ hlt hlt') hge
      · exact absurd (Nat.le_refl _) hge

theorem genBinSearch_isSome (bbs : List (Nat × α)) (hsorted : bbs.Pairwise fun a b => a.1 ≤ b.1)
    (hmem : offset ∈ bbs.map (·.1)) : ((genBinSearch bbs).run offset).isSome := by
  fun_induction genBinSearch bbs with
  | case1 bbs _ =>
    obtain ⟨bb, hbb, rfl⟩ := mem_map.mp hmem
    simp only [SearchCode.run, Option.isSome_map, find?_isSome]
    exact ⟨bb, hbb, by simp⟩
  | case2 bbs _ split ih₁ ih₂ =>
    have hhalf := mem_half split hsorted (by omega) (getElem?_eq_getElem (by omega)) hmem
    simp only [SearchCode.run]
    split at hhalf
    · next hge =>
        rw [if_pos hge]
        exact ih₁ (hsorted.sublist (take_sublist _ _)) hhalf
    · next hge =>
        rw [if_neg hge]
        exact ih₂ (hsorted.sublist (drop_sublist _ _)) hhalf

theorem mem_unique {value' : α} (hsorted : bbs.Pairwise fun a b => a.1 < b.1) (h : (offset, value) ∈ bbs)
    (h' : (offset, value') ∈ bbs) : value = value' := by
  have hnodup : (bbs.map (·.1)).Nodup := pairwise_map.mpr (hsorted.imp fun hlt => Nat.ne_of_lt hlt)
  exact congrArg Prod.snd (inj_on_of_nodup_map hnodup h h' rfl)

end

variable {bbs results : List Entry} {live : Mask}

theorem getLiveRegistersIn_eq (hmem : offset ∈ bbs.map (·.1)) :
    ∃ live, (offset, live) ∈ bbs ∧ getLiveRegistersIn bbs offset = live.setWidth 32 := by
  let sorted := bbs.mergeSort fun a b => a.1 ≤ b.1
  have hperm : sorted.Perm bbs := mergeSort_perm _ _
  have hsorted : sorted.Pairwise fun a b => a.1 ≤ b.1 := by
    have hle : sorted.Pairwise fun a b => decide (a.1 ≤ b.1) = true :=
      pairwise_mergeSort (fun a b c => by simpa using Nat.le_trans) (fun a b => by simpa using Nat.le_total a.1 b.1) bbs
    simpa using hle
  obtain ⟨live, hlive⟩ := Option.isSome_iff_exists.mp
    (genBinSearch_isSome sorted hsorted ((hperm.map _).mem_iff.mpr hmem))
  refine ⟨live, hperm.mem_iff.mp (genBinSearch_mem sorted hlive), ?_⟩
  simp only [getLiveRegistersIn]
  rw [hlive]

/-! ## Decoding -/

theorem getLsbD_setWidth_mask (live : Mask) (p : Fin 16) : (live.setWidth 32).getLsbD p = BitSet.has live p := by
  have h : p.val < 32 := by omega
  simp [BitSet.has, h]

theorem setWidth_ne_zero (h : BitSet.has live (regPos .rsp) = true) : live.setWidth 32 ≠ 0#32 := by
  intro hzero
  have hbit := getLsbD_setWidth_mask live (regPos .rsp)
  rw [hzero, h, BitVec.getLsbD_zero] at hbit
  exact Bool.noConfusion hbit

theorem decode_setWidth_liveXmm : (Manager.decode (live.setWidth 32)).liveXmm = 0 := by
  rw [BitSet.eq_iff]
  intro p
  rw [Manager.has_decode_liveXmm, BitVec.getLsbD_setWidth, BitVec.getLsbD_of_ge live (16 + p) (by omega)]
  simp

theorem getLiveRegisters_eq (hrsp : ∀ bb ∈ emitted results, BitSet.has bb.2 (regPos .rsp) = true)
    (hmem : offset ∈ (emitted results).map (·.1)) :
    ∃ live, (offset, live) ∈ emitted results ∧ getLiveRegisters results offset = .decode (live.setWidth 32) := by
  obtain ⟨live, hlive, heq⟩ := getLiveRegistersIn_eq hmem
  refine ⟨live, hlive, ?_⟩
  simp only [getLiveRegisters, heq]
  exact if_pos (setWidth_ne_zero (hrsp _ hlive))

/-- A block without an entry of its own has all its registers live. -/
theorem getLiveRegisters_block {β : Type} {blocks : List β} {offset : β → Nat} {live : β → Mask}
    (hoffset : (blocks.map offset).Nodup) (hrsp : ∀ b, BitSet.has (live b) (regPos .rsp) = true) {b : β} (hb : b ∈ blocks) :
    let m := getLiveRegisters (blocks.map fun b => (offset b, live b)) (offset b)
    m = .reviveAll ∨ m = .decode ((live b).setWidth 32) := by
  intro m
  by_cases hmem : offset b ∈ (emitted (blocks.map fun b => (offset b, live b))).map (·.1)
  · right
    have hrsp' : ∀ bb ∈ emitted (blocks.map fun b => (offset b, live b)), BitSet.has bb.2 (regPos .rsp) = true := by
      intro bb hbb
      obtain ⟨c, -, rfl⟩ := mem_map.mp (mem_filter.mp hbb).1
      exact hrsp c
    obtain ⟨l, hl, heq⟩ := getLiveRegisters_eq hrsp' hmem
    obtain ⟨c, hc, hcl⟩ := mem_map.mp (mem_filter.mp hl).1
    obtain ⟨hcb, rfl⟩ := Prod.mk.inj hcl
    obtain rfl : c = b := inj_on_of_nodup_map hoffset hc hb hcb
    exact heq
  · left
    have hzero : getLiveRegistersIn (emitted (blocks.map fun b => (offset b, live b))) (offset b) = 0 := by
      rw [getLiveRegistersIn]
      split
      · next l hl => exact absurd (mem_map_of_mem (mem_mergeSort.mp (genBinSearch_mem _ hl))) hmem
      · rfl
    exact if_neg (not_not.mpr hzero)

end Granary.DataFlow
