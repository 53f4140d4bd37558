import Granary.Registers.Lemmas.UsedRegs
import Granary.Registers.Lemmas.Zombies
import Granary.Registers.Manager

/-!
# Lemmas about the state of the register manager
-/

namespace Granary.Registers

open Machine

attribute [local simp] Op.touches Operand.anyReg RegId.isGpr RegId.isKilled RegId.tracked

variable {β : Type} {m : Manager} {t : Tracked} {id : RegId} {op : Operand} {i : Instr β}
variable {α : Type} {f : Manager → α → Manager} {live undead : BitVec 16}

theorem regAt_regPos (r : Reg) : regAt (regPos r) = r := by cases r <;> rfl

theorem regPos_regAt (pos : Fin 16) : regPos (regAt pos) = pos := by revert pos; decide

theorem regPos_inj {r q : Reg} : regPos r = regPos q ↔ r = q :=
  ⟨fun h => by rw [← regAt_regPos r, h, regAt_regPos], congrArg regPos⟩

theorem has_forceLiveBits (r : Reg) : BitSet.has Manager.forceLiveBits (regPos r) = forceLive r := by
  cases r <;> decide

namespace Manager

/-! ## Live registers -/

@[simp] theorem liveness_reviveAll : reviveAll.liveness = .reviveAll := by
  simp only [liveness, lives, reviveAll, RegisterManager.reviveAll, BitSet.has_allOnes]

@[simp] theorem liveness_kill64 : (m.kill64 id).liveness = m.liveness.kill64 id := by
  cases id with
  | gpr r w =>
    simp only [kill64, RegisterManager.kill64]
    split
    · simp [liveness, lives, has_forceLiveBits, regPos_inj, Bool.and_comm]
    · rfl
  | _ => rfl

@[simp] theorem liveness_revive64 : (m.revive64 id).liveness = m.liveness.revive64 id := by
  cases id with
  | gpr r w => simp [revive64, RegisterManager.revive64, liveness, lives, regPos_inj, RegId.names, eq_comm]
  | _ => simp [revive64, RegisterManager.revive64, RegId.names]

@[simp] theorem liveness_killXmm : (m.killXmm id).liveness = m.liveness.killXmm id := by
  cases id with
  | xmm x =>
    simp only [killXmm, RegisterManager.killXmm, liveness, lives, BitSet.has_erase]
    congr
    funext y
    by_cases h : y = x <;> simp [h]
  | _ => rfl

@[simp] theorem liveness_reviveXmm : (m.reviveXmm id).liveness = m.liveness.reviveXmm id := by
  cases id with
  | xmm x =>
    simp only [reviveXmm, RegisterManager.reviveXmm, liveness, lives, BitSet.has_insert]
    congr
    funext y
    by_cases h : y = x <;> simp [h]
  | _ => rfl

@[simp] theorem liveness_kill : (m.kill id).liveness = m.liveness.kill id := by
  cases id <;> simp [kill, RegisterManager.kill]

@[simp] theorem liveness_revive : (m.revive id).liveness = m.liveness.revive id := by
  cases id <;> simp [revive, RegisterManager.revive]

@[simp] theorem liveness_killOp : (m.killOp op).liveness = m.liveness.killOp op := by
  cases op <;> simp [killOp, RegisterManager.killOp]

@[simp] theorem liveness_reviveOp : (m.reviveOp op).liveness = m.liveness.reviveOp op := by
  cases op <;> simp [reviveOp, RegisterManager.reviveOp]

theorem liveness_foldl {g : RegisterManager → α → RegisterManager}
    (h : ∀ m a, (f m a).liveness = g m.liveness a) (as : List α) : (as.foldl f m).liveness = as.foldl g m.liveness :=
  (List.foldl_hom liveness fun m a => (h m a).symm).symm

theorem revive64_liveXmm : (m.revive64 id).liveXmm = m.liveXmm := by cases id <;> rfl

def loopSets (acc : Manager × BitVec 16) : RegisterManager × (Reg → Bool) :=
  (acc.1.liveness, fun r => BitSet.has acc.2 (regPos r))

theorem loopSets_visitDest (opcode : Opcode) (acc : Manager × BitVec 16) :
    loopSets (visitDest opcode acc op) = RegisterManager.visitDest opcode (loopSets acc) op := by
  cases op with
  | reg r =>
    simp only [loopSets, visitDest, RegisterManager.visitDest]
    split <;> simp
  | baseDisp base index =>
    have hnone : liveness { acc.1 with live := 0 } = { acc.1.liveness with live := fun _ => false } := by
      simp [liveness, lives]
    have hlive : ∀ r, BitSet.has (({ acc.1 with live := 0 }.revive64 base).revive64 index).live (regPos r) =
        (({ acc.1.liveness with live := fun _ => false }.revive64 base).revive64 index).live r := fun r => by
      rw [← hnone, ← liveness_revive64, ← liveness_revive64]
      rfl
    simp only [loopSets, visitDest, RegisterManager.visitDest, BitSet.has_or, hlive]
    simp only [liveness, lives, revive64_liveXmm]
  | other => rfl

theorem loopSets_foldl (opcode : Opcode) (ops : List Operand) :
    loopSets (ops.foldl (visitDest opcode) (m, forceLiveBits)) =
      ops.foldl (RegisterManager.visitDest opcode) (m.liveness, forceLive) := by
  have hinit : loopSets (m, forceLiveBits) = (m.liveness, forceLive) := by
    simp only [loopSets, has_forceLiveBits]
  rw [← hinit]
  exact (List.foldl_hom loopSets fun acc op => (loopSets_visitDest opcode acc).symm).symm

@[simp] theorem liveness_visitDests : (m.visitDests i).liveness = m.liveness.visitDests i := by
  simp only [visitDests, RegisterManager.visitDests, ← loopSets_foldl]
  split
  · rfl
  · rw [liveness_foldl fun m op => liveness_revive64]
    congr 1
    simp [loopSets, liveness, lives]

@[simp] theorem liveness_visit : (m.visit i).liveness = m.liveness.visit i := by
  simp only [visit, RegisterManager.visit]
  split
  · rfl
  split
  · exact liveness_reviveAll
  · rw [liveness_foldl fun m op => liveness_reviveOp, liveness_visitDests]

/-! ## Registers that were handed out -/

theorem kill64_isZombie : (m.kill64 id).isZombie t = (m.isZombie t && !(id.isGpr && id.isKilled t)) := by
  cases id with
  | gpr r w =>
    simp only [kill64]
    split <;> cases t <;> simp [isZombie, regPos_inj, *]
  | _ => simp [kill64]

theorem revive64_isZombie : (m.revive64 id).isZombie t = (m.isZombie t && !(id.isGpr && id.isRevived t)) := by
  cases id with
  | gpr r w => cases t <;> simp [revive64, isZombie, RegId.isRevived, regPos_inj, eq_comm]
  | _ => simp [revive64]

theorem kill_isZombie : (m.kill id).isZombie t = (m.isZombie t && !id.isKilled t) := by
  cases id with
  | gpr r w => simp [kill, kill64_isZombie]
  | xmm x => cases t <;> simp [kill, killXmm, isZombie, eq_comm]
  | _ => simp [kill, kill64, killXmm]

theorem revive_isZombie : (m.revive id).isZombie t = (m.isZombie t && !id.isRevived t) := by
  cases id with
  | gpr r w => simp [revive, revive64_isZombie]
  | xmm x => cases t <;> simp [revive, reviveXmm, isZombie, RegId.isRevived, eq_comm]
  | _ => simp [revive, revive64, reviveXmm, RegId.isRevived]

theorem killOp_isZombie : (m.killOp op).isZombie t = (m.isZombie t && !op.anyReg (·.isKilled t)) := by
  cases op <;> simp [killOp, kill_isZombie, kill64_isZombie, Bool.and_assoc]

theorem reviveOp_isZombie : (m.reviveOp op).isZombie t = (m.isZombie t && !op.anyReg (·.isRevived t)) := by
  cases op <;> simp [reviveOp, revive_isZombie, revive64_isZombie, Bool.and_assoc]

theorem foldl_isZombie (touches : α → Bool) (h : ∀ m a, (f m a).isZombie t = (m.isZombie t && !touches a)) (as : List α) :
    (as.foldl f m).isZombie t = (m.isZombie t && !as.any touches) := by
  induction as generalizing m with
  | nil => simp
  | cons a as ih => simp [ih, h, Bool.and_assoc]

theorem visitDest_isZombie (opcode : Opcode) (acc : Manager × BitVec 16) :
    (visitDest opcode acc op).1.isZombie t = (acc.1.isZombie t && !Op.visitsDest opcode t op) := by
  cases op with
  | reg r =>
    simp only [visitDest, Op.visitsDest]
    split <;> simp [kill_isZombie, revive_isZombie]
  | baseDisp base index =>
    have hlive : ∀ (m : Manager) live, { m with live := live }.isZombie t = m.isZombie t := fun m live => by
      cases t <;> rfl
    simp [visitDest, Op.visitsDest, hlive, revive64_isZombie, Bool.and_assoc]
  | other => simp [visitDest, Op.visitsDest]

theorem foldl_visitDest_isZombie (opcode : Opcode) (ops : List Operand) (acc : Manager × BitVec 16) :
    (ops.foldl (visitDest opcode) acc).1.isZombie t = (acc.1.isZombie t && !ops.any (Op.visitsDest opcode t)) := by
  induction ops generalizing acc with
  | nil => simp
  | cons op ops ih => simp [ih, visitDest_isZombie, Bool.and_assoc]

theorem visitDests_isZombie (hnop : i.opcode ≠ .nop) :
    (m.visitDests i).isZombie t =
      (m.isZombie t && !(i.dsts.any (Op.visitsDest i.opcode t) || (repRegs i.opcode).any (·.isRevived t))) := by
  have hrep : (repRegs i.opcode).any (fun id => id.isGpr && id.isRevived t) = (repRegs i.opcode).any (·.isRevived t) := by
    cases i.opcode <;> rfl
  have hloop := foldl_visitDest_isZombie (t := t) i.opcode i.dsts (m, forceLiveBits)
  simp only [visitDests, if_neg hnop]
  rw [foldl_isZombie (fun id => id.isGpr && id.isRevived t) (fun _ _ => revive64_isZombie), hrep]
  cases t <;> simp_all [isZombie, Bool.and_assoc]

theorem foldl_killOp_isZombie (ops : List Operand) :
    (ops.foldl killOp m).isZombie t = (m.isZombie t && !ops.any (·.anyReg (·.isKilled t))) :=
  foldl_isZombie (·.anyReg (·.isKilled t)) (fun _ _ => killOp_isZombie) ops

theorem foldl_reviveOp_isZombie (ops : List Operand) :
    (ops.foldl reviveOp m).isZombie t = (m.isZombie t && !ops.any (·.anyReg (·.isRevived t))) :=
  foldl_isZombie (·.anyReg (·.isRevived t)) (fun _ _ => reviveOp_isZombie) ops

theorem killInstr_isZombie : (m.killInstr i).isZombie t = (m.isZombie t && !(Op.killInstr i).touches t) := by
  by_cases hnop : i.opcode = .nop
  · simp [killInstr, hnop]
  · simp [killInstr, hnop, foldl_killOp_isZombie, Bool.and_assoc]

theorem reviveInstr_isZombie : (m.reviveInstr i).isZombie t = (m.isZombie t && !(Op.reviveInstr i).touches t) := by
  by_cases hnop : i.opcode = .nop
  · simp [reviveInstr, hnop]
  · simp [reviveInstr, hnop, foldl_reviveOp_isZombie, Bool.and_assoc]

theorem visit_isZombie : (m.visit i).isZombie t = (m.isZombie t && !(Op.visit i).touches t) := by
  by_cases hnop : i.opcode = .nop
  · simp [visit, hnop]
  by_cases hcti : i.opcode = .cti
  · cases t <;> simp [visit, hcti, isZombie, reviveAll]
  · simp only [visit, if_neg hnop, if_neg hcti, foldl_reviveOp_isZombie, visitDests_isZombie hnop]
    simp [hnop, hcti, Bool.and_assoc]

/-! ## Handing out -/

theorem firstFree_eq_some {pos : Fin 16} (h : firstFree live undead = some pos) :
    BitSet.has live pos = false ∧ BitSet.has undead pos = false := by
  have := List.find?_some h
  simpa using this

theorem firstFree_eq_none (h : firstFree live undead = none) (pos : Fin 16) :
    ¬ (BitSet.has live pos = false ∧ BitSet.has undead pos = false) := by
  have := List.find?_eq_none.mp h pos (List.mem_finRange pos)
  simpa using this

theorem getZombie_cases (m : Manager) :
    (∃ r, m.getZombie = (.gpr r .w64, { m with undead := BitSet.insert m.undead (regPos r) }) ∧
      m.lives (.gpr r) = false ∧ m.isZombie (.gpr r) = false) ∨
    m.getZombie = (.null, m) ∧ ∀ r, ¬ (m.lives (.gpr r) = false ∧ m.isZombie (.gpr r) = false) := by
  cases h : firstFree m.live m.undead with
  | none => exact .inr ⟨by simp [getZombie, h], fun r => firstFree_eq_none h (regPos r)⟩
  | some pos =>
    refine .inl ⟨regAt pos, by simp [getZombie, h, regPos_regAt], ?_⟩
    simpa [lives, isZombie, regPos_regAt] using firstFree_eq_some h

theorem getXmmZombie_cases (m : Manager) :
    (∃ x, m.getXmmZombie = (.xmm x, { m with undeadXmm := BitSet.insert m.undeadXmm x }) ∧
      m.lives (.xmm x) = false ∧ m.isZombie (.xmm x) = false) ∨
    m.getXmmZombie = (.null, m) ∧ ∀ x, ¬ (m.lives (.xmm x) = false ∧ m.isZombie (.xmm x) = false) := by
  cases h : firstFree m.liveXmm m.undeadXmm with
  | none => exact .inr ⟨by simp [getXmmZombie, h], fun x => firstFree_eq_none h x⟩
  | some x => exact .inl ⟨x, by simp [getXmmZombie, h], firstFree_eq_some h⟩

theorem isUndead_gpr (r : Reg) (w : Width) : m.isUndead (.gpr r w) = some (m.lives (.gpr r) || m.isZombie (.gpr r)) := by
  simp [isUndead, lives, isZombie]

theorem isUndead_xmm (x : Fin 16) : m.isUndead (.xmm x) = some (m.lives (.xmm x) || m.isZombie (.gpr (regAt x))) := by
  simp [isUndead, lives, isZombie, regPos_regAt]

/-! ## Encoding -/

theorem getLsbD_ff (p : Fin 16) : (0xff : BitVec 32).getLsbD p = decide (p.val < 8) := by
  revert p
  decide

theorem has_decode_live (bitmask : BitVec 32) (p : Fin 16) :
    BitSet.has (decode bitmask).live p = (bitmask.getLsbD p && decide (p.val < 8) || BitSet.has forceLiveBits p) := by
  simp only [decode, BitSet.has_or]
  simp only [BitSet.has, BitVec.getLsbD_setWidth, BitVec.getLsbD_and, getLsbD_ff, p.isLt, decide_true, Bool.true_and]

theorem has_decode_liveXmm (bitmask : BitVec 32) (p : Fin 16) :
    BitSet.has (decode bitmask).liveXmm p = (bitmask.getLsbD (16 + p) && decide (p.val < 8)) := by
  simp only [decode, BitSet.has, BitVec.getLsbD_setWidth, BitVec.getLsbD_and, BitVec.getLsbD_ushiftRight, getLsbD_ff, p.isLt,
    decide_true, Bool.true_and]

theorem getLsbD_encode_live (p : Fin 16) : m.encode.getLsbD p = BitSet.has m.live p := by
  have hp := p.isLt
  simp only [encode, BitSet.has, BitVec.getLsbD_or, BitVec.getLsbD_shiftLeft, BitVec.getLsbD_setWidth]
  have h : p.val < 32 := by omega
  simp [h, hp]

theorem getLsbD_encode_liveXmm (p : Fin 16) : m.encode.getLsbD (16 + p) = BitSet.has m.liveXmm p := by
  have hp := p.isLt
  simp only [encode, BitSet.has, BitVec.getLsbD_or, BitVec.getLsbD_shiftLeft, BitVec.getLsbD_setWidth]
  have h : p.val < 32 := by omega
  have h' : 16 + p.val < 32 := by omega
  simp [h, h']

theorem has_forceLiveBits_eq (p : Fin 16) : BitSet.has forceLiveBits p = decide (p = regPos .rsp) := by
  revert p
  decide

theorem decode_live_eq_iff {bitmask : BitVec 32} (h : ∀ p : Fin 16, bitmask.getLsbD p = BitSet.has live p) :
    (decode bitmask).live = live ↔ BitSet.has live (regPos .rsp) = true ∧ LowOnly live := by
  rw [BitSet.eq_iff]
  simp only [has_decode_live, h, has_forceLiveBits_eq]
  constructor
  · intro heq
    refine ⟨by simpa using (heq (regPos .rsp)).symm, fun p hp => ?_⟩
    have hne : p ≠ regPos .rsp := by
      rintro rfl
      exact absurd hp (by decide)
    simpa [hne, Nat.not_lt.mpr hp] using (heq p).symm
  · rintro ⟨hrsp, hlow⟩ p
    by_cases hp : p = regPos .rsp
    · simp [hp, hrsp]
    · by_cases hlt : p.val < 8
      · simp [hp, hlt]
      · simp [hp, hlt, hlow p (Nat.not_lt.mp hlt)]

theorem decode_encode_liveXmm_iff : (decode m.encode).liveXmm = m.liveXmm ↔ LowOnly m.liveXmm := by
  rw [BitSet.eq_iff]
  simp only [has_decode_liveXmm, getLsbD_encode_liveXmm]
  refine forall_congr' fun p => ?_
  by_cases hlt : p.val < 8
  · simp [hlt, Nat.not_le.mpr hlt]
  · simp only [hlt, decide_false, Bool.and_false]
    exact ⟨fun h _ => h.symm, fun h => (h (Nat.not_lt.mp hlt)).symm⟩

end Manager

/-! ## Steps -/

theorem Op.step_isZombie (op : Op β) :
    (op.step m).2.isZombie t = (!op.touches t && (decide ((op.step m).1.tracked = some t) || m.isZombie t)) := by
  cases op with
  | kill r => simp [step, touches, Manager.kill_isZombie, Bool.and_comm]
  | killOp op => simp [step, touches, Manager.killOp_isZombie, Bool.and_comm]
  | killInstr i => simp [step, Manager.killInstr_isZombie, Bool.and_comm]
  | revive r => simp [step, touches, Manager.revive_isZombie, Bool.and_comm]
  | reviveOp op => simp [step, touches, Manager.reviveOp_isZombie, Bool.and_comm]
  | reviveInstr i => simp [step, Manager.reviveInstr_isZombie, Bool.and_comm]
  | killAll => cases t <;> simp [step, touches, Manager.isZombie, Manager.killAll]
  | reviveAll => cases t <;> simp [step, touches, Manager.isZombie, Manager.reviveAll]
  | visit i => simp [step, Manager.visit_isZombie, Bool.and_comm]
  | getZombie =>
    obtain ⟨r, hr, -⟩ | ⟨hr, -⟩ := m.getZombie_cases
    · cases t <;> simp [step, touches, hr, Manager.isZombie, regPos_inj, Bool.or_comm, eq_comm]
    · simp [step, touches, hr]
  | getXmmZombie =>
    obtain ⟨x, hx, -⟩ | ⟨hx, -⟩ := m.getXmmZombie_cases
    · cases t <;> simp [step, touches, hx, Manager.isZombie, Bool.or_comm, eq_comm]
    · simp [step, touches, hx]

section Rsp

open RegisterManager

theorem killAll_rsp : Manager.killAll.lives (.gpr .rsp) = true := by decide

theorem reviveAll_rsp : Manager.reviveAll.lives (.gpr .rsp) = true := by decide

theorem lives_rsp : m.lives (.gpr .rsp) = m.liveness.live .rsp := rfl

theorem foldl_killOp_rsp (ops : List Operand) (m : Manager) (h : m.lives (.gpr .rsp) = true) :
    (ops.foldl Manager.killOp m).lives (.gpr .rsp) = true := by
  induction ops generalizing m with
  | nil => exact h
  | cons op ops ih =>
    refine ih _ ?_
    rw [lives_rsp, Manager.liveness_killOp]
    exact killOp_rsp h op

theorem foldl_reviveOp_rsp (ops : List Operand) (h : m.lives (.gpr .rsp) = true) :
    (ops.foldl Manager.reviveOp m).lives (.gpr .rsp) = true := by
  rw [lives_rsp, Manager.liveness_foldl fun _ _ => Manager.liveness_reviveOp, foldl_reviveOp_live, ← lives_rsp, h, Bool.true_or]

theorem visit_rsp (h : m.lives (.gpr .rsp) = true) : (m.visit i).lives (.gpr .rsp) = true := by
  rw [lives_rsp, Manager.liveness_visit]
  by_cases hnop : i.opcode = .nop
  · rwa [visit, if_pos hnop]
  by_cases hcti : i.opcode = .cti
  · rw [visit, if_neg hnop, if_pos hcti]
    rfl
  · simp [visit_live hnop hcti, forceLive]

theorem Op.step_rsp (op : Op β) (h : m.lives (.gpr .rsp) = true) : (op.step m).2.lives (.gpr .rsp) = true := by
  cases op with
  | kill r => exact foldl_killOp_rsp [.reg r] m h
  | killOp op => exact foldl_killOp_rsp [op] m h
  | killInstr i =>
    simp only [step, Manager.killInstr]
    split
    · exact h
    · exact foldl_killOp_rsp _ _ (foldl_killOp_rsp _ _ h)
  | revive r => exact foldl_reviveOp_rsp [.reg r] h
  | reviveOp op => exact foldl_reviveOp_rsp [op] h
  | reviveInstr i =>
    simp only [step, Manager.reviveInstr]
    split
    · exact h
    · exact foldl_reviveOp_rsp _ (foldl_reviveOp_rsp _ h)
  | killAll => exact killAll_rsp
  | reviveAll => exact reviveAll_rsp
  | visit i => exact visit_rsp h
  | getZombie =>
    obtain ⟨r, hr, -⟩ | ⟨hr, -⟩ := m.getZombie_cases
    · simpa [step, hr, Manager.lives] using h
    · simpa [step, hr] using h
  | getXmmZombie =>
    obtain ⟨x, hx, -⟩ | ⟨hx, -⟩ := m.getXmmZombie_cases
    · simpa [step, hx, Manager.lives] using h
    · simpa [step, hx] using h

end Rsp

/-! ## Runs -/

namespace History

variable (ops : List (Op β))

theorem run_append_singleton (op : Op β) : run (ops ++ [op]) = (run ops).next op := by
  simp [run, List.foldl_append]

theorem run_rsp : (run ops).manager.lives (.gpr .rsp) = true := by
  induction ops using List.reverseRecOn with
  | nil => exact reviveAll_rsp
  | append_singleton ops op ih =>
    rw [run_append_singleton]
    exact op.step_rsp ih

/-- The bits are those of the registers that were handed out and not touched since. -/
theorem run_isZombie (t : Tracked) : (run ops).manager.isZombie t = (run ops).handedOut t := by
  induction ops using List.reverseRecOn with
  | nil => cases t <;> simp [run, init, handedOut, outIn, Manager.isZombie, Manager.reviveAll]
  | append_singleton ops op ih =>
    rw [run_append_singleton, next, handedOut, outIn, Op.step_isZombie, ih]
    rfl

theorem free_iff : (run ops).Free t ↔ (run ops).manager.lives t = false ∧ (run ops).manager.isZombie t = false := by
  rw [Free, run_isZombie]

theorem run_getZombie :
    (∃ r, (run ops).manager.getZombie.1 = .gpr r .w64 ∧ (run ops).Free (.gpr r)) ∨
      (run ops).manager.getZombie.1 = .null ∧ ∀ r, ¬ (run ops).Free (.gpr r) := by
  simp only [free_iff]
  obtain ⟨r, hr, hfree⟩ | ⟨hr, hnone⟩ := (run ops).manager.getZombie_cases
  · exact .inl ⟨r, by rw [hr], hfree⟩
  · exact .inr ⟨by rw [hr], hnone⟩

theorem run_getXmmZombie :
    (∃ x, (run ops).manager.getXmmZombie.1 = .xmm x ∧ (run ops).Free (.xmm x)) ∨
      (run ops).manager.getXmmZombie.1 = .null ∧ ∀ x, ¬ (run ops).Free (.xmm x) := by
  simp only [free_iff]
  obtain ⟨x, hx, hfree⟩ | ⟨hx, hnone⟩ := (run ops).manager.getXmmZombie_cases
  · exact .inl ⟨x, by rw [hx], hfree⟩
  · exact .inr ⟨by rw [hx], hnone⟩

theorem run_isUndead_xmm_iff (x : Fin 16) :
    (run ops).manager.isUndead (.xmm x) = some ((run ops).manager.lives (.xmm x) || (run ops).handedOut (.xmm x)) ↔
      (run ops).manager.lives (.xmm x) = true ∨ (run ops).handedOut (.xmm x) = (run ops).handedOut (.gpr (regAt x)) := by
  rw [Manager.isUndead_xmm, ← run_isZombie, ← run_isZombie]
  cases (run ops).manager.lives (.xmm x) with
  | false => simp [eq_comm]
  | true => simp

end History

end Granary.Registers
