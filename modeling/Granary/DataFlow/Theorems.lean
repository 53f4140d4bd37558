import Granary.DataFlow.Lemmas.DeadRegs
import Granary.DataFlow.Lemmas.LiveTable

/-!
# Dead registers: theorems
-/

namespace Granary.DataFlow

open RoundRobin

variable {β : Type} [DecidableEq β]

/-- If exits have no successors inside their functions, then the sweeps end with the greatest solution of the block equations,
and registers that are not live at the end of a block are read on no path before they are written. -/
theorem deadRegs_sound_precise (attrs : β → BasicBlock) (P : DataFlowProblem β)
    (hexit : ∀ b, (attrs b).isFunctionExit → P.cfg.intraSuccessors b = []) :
    ∃ enough, ∀ fuel, enough ≤ fuel → ∃ live, deadRegs attrs P fuel = .ok live ∧ BlockEquations attrs P live ∧
      (∀ live', BlockEquations attrs P live' → ∀ b, Within (live' b) (live b)) ∧
      ∀ b r, r < 16 → (live b).getLsbD r = false → ∀ path, PathFrom P b path → ¬ReadBeforeWritten attrs r path := by
  have hinit : ∀ b ∈ P.keys, Within (P.next (process attrs) (meet attrs) (initial attrs) b) (initial attrs b) := by
    intro b hb
    rw [initial_of_mem_keys hexit hb]
    exact Within.allLive
  refine ⟨potential BitVec.toNat P.keys (initial attrs) + 1, fun fuel hfuel => ?_⟩
  obtain ⟨live, hrun, hsol, hgreatest⟩ := descends.solve_greatest hinit hfuel
  refine ⟨live, hrun, hsol, fun live' hlive' => hgreatest live' hlive' fun b => ?_, fun b r hr hdead path hpath hread => ?_⟩
  · by_cases hb : b ∈ P.keys
    · rw [initial_of_mem_keys hexit hb]
      exact Within.allLive
    · rw [hlive'.boundary b hb]
      exact fun _ => id
  · rw [live_of_readBeforeWritten hsol hpath hr hread] at hdead
    cases hdead

/-- A block that sets `rcx`, a loop that uses it, and an exit. -/
def loopAttrs : Fin 3 → BasicBlock
  | 0 => { isFunctionEntry := true, isFunctionExit := false, numOutgoingJumps := 1, hasOutgoingIndirectJmp := false,
           usedRegs := rcx, entryRegs := 0 }
  | 1 => { isFunctionEntry := false, isFunctionExit := false, numOutgoingJumps := 2, hasOutgoingIndirectJmp := false,
           usedRegs := rcx ||| rdx, entryRegs := rcx }
  | 2 => { isFunctionEntry := false, isFunctionExit := true, numOutgoingJumps := 0, hasOutgoingIndirectJmp := false,
           usedRegs := rax, entryRegs := 0 }

def loopBlocks (id : Int) : Option (Fin 3) :=
  if id = 10 then some 0 else if id = 11 then some 1 else if id = 12 then some 2 else none

def loopProblem : DataFlowProblem (Fin 3) where
  cfg := .parse loopBlocks loopAttrs [.intra 10 11, .intra 11 11, .intra 11 12, .intra 11 13, .intra 12 12]
  includes := fun _ => true

theorem deadRegs_sound_precise_loop :
    (∀ b, (loopAttrs b).isFunctionExit → loopProblem.cfg.intraSuccessors b = []) ∧
      ∃ enough, ∀ fuel, enough ≤ fuel → ∃ live, deadRegs loopAttrs loopProblem fuel = .ok live ∧
        BlockEquations loopAttrs loopProblem live ∧
        (∀ live', BlockEquations loopAttrs loopProblem live' → ∀ b, Within (live' b) (live b)) ∧
        ∀ b r, r < 16 → (live b).getLsbD r = false → ∀ path, PathFrom loopProblem b path →
          ¬ReadBeforeWritten loopAttrs r path :=
  ⟨by decide, deadRegs_sound_precise loopAttrs loopProblem (by decide)⟩

/-- The loop keeps the registers live that it does not use: only `rdx` is dead at the end of the first block. -/
example : ((deadRegs loopAttrs loopProblem 3).toOption.map fun live => live 0) = some (allLive &&& ~~~rdx) := by decide

/-! ## Generated code -/

/-- The search code for a sorted list, with the `return 0` after it, returns the value of an offset of the list, and 0 for
every other offset. -/
theorem genBinSearch_correct {α : Type} [Zero α] (bbs : List (Nat × α)) (hsorted : bbs.Pairwise fun a b => a.1 < b.1)
    (offset : Nat) :
    (∀ value, (offset, value) ∈ bbs → ((genBinSearch bbs).run offset).getD 0 = value) ∧
      (offset ∉ bbs.map (·.1) → ((genBinSearch bbs).run offset).getD 0 = 0) := by
  constructor
  · intro value hmem
    obtain ⟨found, hfound⟩ := Option.isSome_iff_exists.mp
      (genBinSearch_isSome bbs (hsorted.imp Nat.le_of_lt) (List.mem_map_of_mem hmem))
    rw [hfound, Option.getD_some]
    exact mem_unique hsorted (genBinSearch_mem bbs hfound) hmem
  · intro hnot
    cases hrun : (genBinSearch bbs).run offset with
    | none => rfl
    | some found => exact absurd (List.mem_map_of_mem (genBinSearch_mem bbs hrun)) hnot

theorem genBinSearch_correct_five :
    (∀ value, (6, value) ∈ [(1, 10), (2, 20), (4, 40), (6, 60), (7, 70)] →
        ((genBinSearch [(1, 10), (2, 20), (4, 40), (6, 60), (7, 70)]).run 6).getD 0 = value) ∧
      (6 ∉ [(1, 10), (2, 20), (4, 40), (6, 60), (7, 70)].map (·.1) →
        ((genBinSearch [(1, 10), (2, 20), (4, 40), (6, 60), (7, 70)]).run 6).getD 0 = 0) :=
  genBinSearch_correct [(1, 10), (2, 20), (4, 40), (6, 60), (7, 70)] (by decide) 6

/-! ## Encoded registers -/

open Registers

/-- The live registers of a manager are encoded and decoded back exactly when they are in the low halves of the sets. Those of
a block in a generated table are found exactly when they are, and then no XMM register is live. -/
theorem decode_encode_iff (m : Manager) (results : List Entry) (offset : Nat)
    (hrsp : ∀ bb ∈ emitted results, BitSet.has bb.2 (regPos .rsp) = true) (hmem : offset ∈ (emitted results).map (·.1)) :
    ((Manager.decode m.encode).live = m.live ∧ (Manager.decode m.encode).liveXmm = m.liveXmm ↔
        m.lives (.gpr .rsp) = true ∧ Manager.LowOnly m.live ∧ Manager.LowOnly m.liveXmm) ∧
      ∃ live, (offset, live) ∈ emitted results ∧
        ((getLiveRegisters results offset).live = live ↔ Manager.LowOnly live) ∧
        (getLiveRegisters results offset).liveXmm = 0 := by
  constructor
  · rw [Manager.decode_live_eq_iff fun p => Manager.getLsbD_encode_live p, Manager.decode_encode_liveXmm_iff, and_assoc]
    rfl
  · obtain ⟨live, hlive, heq⟩ := getLiveRegisters_eq hrsp hmem
    refine ⟨live, hlive, ?_, heq ▸ decode_setWidth_liveXmm⟩
    rw [heq, Manager.decode_live_eq_iff fun p => getLsbD_setWidth_mask live p, and_iff_right (hrsp _ hlive)]

theorem decode_encode_iff_exit :
    ((Manager.decode Manager.killAll.encode).live = Manager.killAll.live ∧
        (Manager.decode Manager.killAll.encode).liveXmm = Manager.killAll.liveXmm ↔
        Manager.killAll.lives (.gpr .rsp) = true ∧ Manager.LowOnly Manager.killAll.live ∧
          Manager.LowOnly Manager.killAll.liveXmm) ∧
      ∃ live, (0, live) ∈ emitted [(0, liveOnReturn)] ∧
        ((getLiveRegisters [(0, liveOnReturn)] 0).live = live ↔ Manager.LowOnly live) ∧
        (getLiveRegisters [(0, liveOnReturn)] 0).liveXmm = 0 :=
  decode_encode_iff .killAll [(0, liveOnReturn)] 0 (by decide) (by decide)

/-- Half of all live registers are lost, and after a return `r12` to `r15` and all XMM registers. -/
theorem decode_loses_registers :
    (Manager.decode Manager.reviveAll.encode).lives (.gpr .r8) = false ∧
      (Manager.decode Manager.reviveAll.encode).lives (.xmm 8) = false ∧
      Manager.reviveAll.lives (.gpr .r8) = true ∧ Manager.reviveAll.lives (.xmm 8) = true ∧
      emitted [(0, liveOnReturn)] = [(0, liveOnReturn)] ∧ BitSet.has liveOnReturn (regPos .r12) = true ∧
      (Manager.decode (liveOnReturn.setWidth 32)).lives (.gpr .r12) = false ∧
      (getLiveRegisters [(0, liveOnReturn)] 0).lives (.xmm 0) = false := by
  have hfound : ∃ live, (0, live) ∈ emitted [(0, liveOnReturn)] ∧
      getLiveRegisters [(0, liveOnReturn)] 0 = .decode (live.setWidth 32) := getLiveRegisters_eq (by decide) (by decide)
  obtain ⟨live, -, hfound⟩ := hfound
  refine ⟨by decide, by decide, by decide, by decide, by decide, by decide, by decide, ?_⟩
  rw [hfound, Manager.lives, decode_setWidth_liveXmm]
  decide

/-! ## From the analysis to the kernel -/

theorem rsp_live {attrs : β → BasicBlock} {P : DataFlowProblem β} {live : β → Mask} (h : BlockEquations attrs P live) (b : β) :
    BitSet.has (live b) (regPos .rsp) = true := by
  by_cases hb : b ∈ P.keys
  · rw [← h.equation b hb]
    exact (next_getLsbD_iff (edges_ne_nil hb) live (by decide)).mpr (.inr (.inl rfl))
  · rw [h.boundary b hb, initial]
    split <;> decide

/-- What is generated for the blocks of a graph is as good as the analysis, but for `r8` to `r15`: any other register that the
kernel takes for dead at the end of a block is read on no path before it is written. -/
theorem getLiveRegisters_sound (attrs : β → BasicBlock) (P : DataFlowProblem β)
    (hexit : ∀ b, (attrs b).isFunctionExit → P.cfg.intraSuccessors b = []) (blocks : List β) (offset : β → Nat)
    (hoffset : (blocks.map offset).Nodup) :
    ∃ enough, ∀ fuel, enough ≤ fuel → ∃ live, deadRegs attrs P fuel = .ok live ∧ ∀ b ∈ blocks, ∀ r, (regPos r).val < 8 →
      (getLiveRegisters (blocks.map fun b => (offset b, live b)) (offset b)).lives (.gpr r) = false →
        ∀ path, PathFrom P b path → ¬ReadBeforeWritten attrs (regPos r) path := by
  have hinit : ∀ b ∈ P.keys, Within (P.next (process attrs) (meet attrs) (initial attrs) b) (initial attrs b) := by
    intro b hb
    rw [initial_of_mem_keys hexit hb]
    exact Within.allLive
  refine ⟨potential BitVec.toNat P.keys (initial attrs) + 1, fun fuel hfuel => ?_⟩
  obtain ⟨live, hrun, hsol, -⟩ := descends.solve_greatest hinit hfuel
  refine ⟨live, hrun, fun b hb r hr hdead path hpath hread => ?_⟩
  have hlive : BitSet.has (live b) (regPos r) = true := live_of_readBeforeWritten hsol hpath (regPos r).isLt hread
  obtain heq | heq := getLiveRegisters_block hoffset (rsp_live hsol) hb
  · have hall : ∀ p : Fin 16, BitSet.has Manager.reviveAll.live p = true := by decide
    rw [heq, Manager.lives, hall] at hdead
    cases hdead
  · rw [heq, Manager.lives, Manager.has_decode_live, getLsbD_setWidth_mask, hlive, decide_eq_true hr] at hdead
    cases hdead

theorem getLiveRegisters_sound_loop :
    ∃ enough, ∀ fuel, enough ≤ fuel → ∃ live, deadRegs loopAttrs loopProblem fuel = .ok live ∧ ∀ b ∈ List.finRange 3, ∀ r,
      (regPos r).val < 8 →
      (getLiveRegisters ((List.finRange 3).map fun b => (16 * b.val, live b)) (16 * b.val)).lives (.gpr r) = false →
        ∀ path, PathFrom loopProblem b path → ¬ReadBeforeWritten loopAttrs (regPos r) path :=
  getLiveRegisters_sound loopAttrs loopProblem (by decide) (List.finRange 3) (fun b => 16 * b.val) (by decide)

end Granary.DataFlow
