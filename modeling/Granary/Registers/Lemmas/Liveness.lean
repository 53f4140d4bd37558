import Granary.Registers.Liveness

/-!
# What a visit kills and revives

A visit says for each register whether it is live before the instruction, from whether it is live after it. A register
that it kills is one of the instruction's destinations.
-/

namespace Granary.Registers

open Function (update update_of_ne)

open Machine List

variable {β : Type} {rm : RegisterManager} {i : Instr β} {q : Reg} {x : Fin 16}
variable {opcode : Opcode} {w : Nat} {s s' : RegState β}

/-! ## Single registers -/

def Operand.overwrites (op : Operand) (q : Reg) : Bool := op = .reg (.gpr q .w64) || op = .reg (.gpr q .w32)

namespace RegisterManager

theorem kill_live (hq : q ≠ .rsp) (r : RegId) : (rm.kill r).live q = (rm.live q && !(Operand.reg r).overwrites q) := by
  cases r with
  | gpr r w =>
    by_cases hr : q = r
    · subst hr
      cases w <;> simp [kill, kill64, Operand.overwrites, forceLive, hq]
    · have hr' : r ≠ q := fun h => hr h.symm
      cases w <;> simp [kill, kill64, Operand.overwrites, forceLive, hq, hr, hr']
  | _ => simp [kill, kill64, killXmm, Operand.overwrites]

theorem kill_liveXmm (r : RegId) : (rm.kill r).liveXmm x = (rm.liveXmm x && !decide (r = .xmm x)) := by
  cases r with
  | xmm y =>
    by_cases hy : x = y
    · simp [kill, killXmm, hy]
    · have hy' : y ≠ x := fun h => hy h.symm
      simp [kill, killXmm, update_of_ne hy, hy']
  | gpr r w => cases w <;> simp [kill, kill64]
  | _ => simp [kill, kill64, killXmm]

theorem revive_live (r : RegId) : (rm.revive r).live q = (rm.live q || r.names q) := by
  cases r <;> simp [revive, revive64, reviveXmm, RegId.names]

theorem revive_liveXmm (r : RegId) : (rm.revive r).liveXmm x = (rm.liveXmm x || decide (r = .xmm x)) := by
  cases r with
  | xmm y =>
    by_cases hy : x = y
    · simp [revive, reviveXmm, hy]
    · have hy' : y ≠ x := fun h => hy h.symm
      simp [revive, reviveXmm, update_of_ne hy, hy']
  | _ => simp [revive, revive64, reviveXmm]

theorem reviveOp_live (op : Operand) : (rm.reviveOp op).live q = (rm.live q || op.mentions q) := by
  cases op with
  | reg r => exact revive_live r
  | baseDisp base index => simp [reviveOp, revive64, Operand.mentions, Operand.addresses, Bool.or_assoc]
  | other => simp [reviveOp, Operand.mentions, Operand.addresses]

theorem reviveOp_liveXmm (op : Operand) : (rm.reviveOp op).liveXmm x = (rm.liveXmm x || decide (op = .reg (.xmm x))) := by
  cases op with
  | reg r => simpa [reviveOp] using revive_liveXmm r
  | baseDisp base index => simp [reviveOp, revive64]
  | other => simp [reviveOp]

/-! ## Lists of operands -/

theorem foldl_reviveOp_live (ops : List Operand) :
    (ops.foldl reviveOp rm).live q = (rm.live q || ops.any (·.mentions q)) := by
  induction ops generalizing rm with
  | nil => simp
  | cons op ops ih => simp [ih, reviveOp_live, Bool.or_assoc]

theorem foldl_reviveOp_liveXmm (ops : List Operand) :
    (ops.foldl reviveOp rm).liveXmm x = (rm.liveXmm x || decide (.reg (.xmm x) ∈ ops)) := by
  induction ops generalizing rm with
  | nil => simp
  | cons op ops ih =>
    rw [List.foldl_cons, ih, reviveOp_liveXmm, Bool.or_assoc]
    congr 1
    by_cases hop : op = .reg (.xmm x) <;> simp [hop, eq_comm]

theorem foldl_revive64_live (rs : List RegId) : (rs.foldl revive64 rm).live q = (rm.live q || rs.any (·.names q)) := by
  induction rs generalizing rm with
  | nil => simp
  | cons r rs ih => simp [ih, revive64, Bool.or_assoc]

theorem foldl_revive64_liveXmm (rs : List RegId) : (rs.foldl revive64 rm).liveXmm = rm.liveXmm := by
  induction rs generalizing rm with
  | nil => rfl
  | cons r rs ih => exact ih

theorem foldl_visitDest_mustLive (ops : List Operand) (acc : RegisterManager × (Reg → Bool)) :
    (ops.foldl (visitDest opcode) acc).2 q = (acc.2 q || ops.any (·.addresses q)) := by
  induction ops generalizing acc with
  | nil => simp
  | cons op ops ih =>
    rw [List.foldl_cons, ih]
    cases op <;> simp [visitDest, Operand.addresses, revive64, Bool.or_assoc]

theorem foldl_visitDest_live (hop : ¬ (opcode = .bsr ∨ opcode = .bsf)) (hq : q ≠ .rsp) (ops : List Operand)
    (acc : RegisterManager × (Reg → Bool)) :
    (ops.foldl (visitDest opcode) acc).1.live q = (acc.1.live q && !ops.any (·.overwrites q)) := by
  induction ops generalizing acc with
  | nil => simp
  | cons op ops ih =>
    rw [List.foldl_cons, ih]
    cases op with
    | reg r => simp [visitDest, hop, kill_live hq, Bool.and_assoc]
    | baseDisp base index | other => simp [visitDest, Operand.overwrites]

theorem foldl_visitDest_liveXmm (hop : ¬ (opcode = .bsr ∨ opcode = .bsf)) (ops : List Operand)
    (acc : RegisterManager × (Reg → Bool)) :
    (ops.foldl (visitDest opcode) acc).1.liveXmm x = (acc.1.liveXmm x && !decide (.reg (.xmm x) ∈ ops)) := by
  induction ops generalizing acc with
  | nil => simp
  | cons op ops ih =>
    rw [List.foldl_cons, ih]
    cases op with
    | reg r =>
      simp only [visitDest, hop, if_false, kill_liveXmm, Bool.and_assoc]
      congr 1
      by_cases hr : r = .xmm x <;> simp [hr, eq_comm]
    | baseDisp base index => simp [visitDest]
    | other => simp [visitDest]

theorem foldl_visitDest_mono (hop : opcode = .bsr ∨ opcode = .bsf) (ops : List Operand)
    (acc : RegisterManager × (Reg → Bool)) :
    (acc.1.live q = true → (ops.foldl (visitDest opcode) acc).1.live q = true) ∧
      (acc.1.liveXmm x = true → (ops.foldl (visitDest opcode) acc).1.liveXmm x = true) := by
  induction ops generalizing acc with
  | nil => exact ⟨id, id⟩
  | cons op ops ih =>
    rw [foldl_cons]
    refine ⟨fun h => (ih _).1 ?_, fun h => (ih _).2 ?_⟩
    · cases op <;> simp [visitDest, hop, revive_live, h]
    · cases op <;> simp [visitDest, hop, revive_liveXmm, h]

/-! ## Instructions -/

section Visit

variable (hnop : i.opcode ≠ .nop) (hcti : i.opcode ≠ .cti)
include hnop hcti

theorem visit_live : (rm.visit i).live q =
    ((i.dsts.foldl (visitDest i.opcode) (rm, forceLive)).1.live q || forceLive q || i.dsts.any (·.addresses q) ||
      (repRegs i.opcode).any (·.names q) || i.srcs.any (·.mentions q)) := by
  rw [visit, if_neg hnop, if_neg hcti, foldl_reviveOp_live, visitDests, if_neg hnop]
  simp [foldl_revive64_live, foldl_visitDest_mustLive, Bool.or_assoc]

theorem visit_liveXmm : (rm.visit i).liveXmm x =
    ((i.dsts.foldl (visitDest i.opcode) (rm, forceLive)).1.liveXmm x || decide (.reg (.xmm x) ∈ i.srcs)) := by
  rw [visit, if_neg hnop, if_neg hcti, foldl_reviveOp_liveXmm, visitDests, if_neg hnop]
  simp [foldl_revive64_liveXmm]

theorem visit_live_of_reads (h : ReadsGpr i.dsts i.srcs q) : (rm.visit i).live q = true := by
  rw [visit_live hnop hcti]
  rcases h with ⟨op, hop, hq⟩ | ⟨op, hop, hq⟩
  · have hany : i.srcs.any (·.mentions q) = true := any_eq_true.mpr ⟨op, hop, hq⟩
    rw [hany, Bool.or_true]
  · have hany : i.dsts.any (·.addresses q) = true := any_eq_true.mpr ⟨op, hop, hq⟩
    simp [hany]

theorem visit_liveXmm_of_mem (h : .reg (.xmm x) ∈ i.srcs) : (rm.visit i).liveXmm x = true := by
  rw [visit_liveXmm hnop hcti]
  simp [h]

end Visit

theorem overwrites_iff (ops : List Operand) :
    ops.any (·.overwrites q) = true ↔ .reg (.gpr q .w64) ∈ ops ∨ .reg (.gpr q .w32) ∈ ops := by
  simp only [any_eq_true, Operand.overwrites, Bool.or_eq_true, decide_eq_true_eq]
  constructor
  · rintro ⟨op, hop, rfl | rfl⟩
    · exact .inl hop
    · exact .inr hop
  · rintro (h | h)
    · exact ⟨_, h, .inl rfl⟩
    · exact ⟨_, h, .inr rfl⟩

theorem opcode_cases (h : i.opcode ≠ .nop) (h' : i.opcode ≠ .cti) (h'' : ¬ (i.opcode = .bsr ∨ i.opcode = .bsf)) :
    i.opcode ∉ [.nop, .cti, .bsf, .bsr] := by
  simp only [List.mem_cons, List.not_mem_nil, or_false, not_or]
  exact ⟨h, h', fun hb => h'' (.inr hb), fun hb => h'' (.inl hb)⟩

theorem killsGpr_of_dead (hlive : rm.live q = true) (hdead : (rm.visit i).live q = false) : i.KillsGpr q := by
  have hnop : i.opcode ≠ .nop := fun h => by simp [visit, h, hlive] at hdead
  have hcti : i.opcode ≠ .cti := fun h => by simp [visit, h, reviveAll] at hdead
  rw [visit_live hnop hcti] at hdead
  simp only [Bool.or_eq_false_iff] at hdead
  obtain ⟨⟨⟨⟨hdsts, hrsp⟩, haddr⟩, hrep⟩, hsrcs⟩ := hdead
  have hq : q ≠ .rsp := by simpa [forceLive] using hrsp
  have hop : ¬ (i.opcode = .bsr ∨ i.opcode = .bsf) := fun h => by
    rw [(foldl_visitDest_mono (x := 0) h i.dsts (rm, forceLive)).1 hlive] at hdsts
    cases hdsts
  rw [foldl_visitDest_live hop hq, hlive] at hdsts
  refine ⟨opcode_cases hnop hcti hop, (overwrites_iff i.dsts).mp (by simpa using hdsts), hq, ?_, ?_⟩
  · rintro (⟨op, hmem, h⟩ | ⟨op, hmem, h⟩)
    · exact any_eq_false.mp hsrcs op hmem h
    · exact any_eq_false.mp haddr op hmem h
  · exact fun r hr => by simpa using any_eq_false.mp hrep r hr

theorem killsXmm_of_dead (hlive : rm.liveXmm x = true) (hdead : (rm.visit i).liveXmm x = false) : i.KillsXmm x := by
  have hnop : i.opcode ≠ .nop := fun h => by simp [visit, h, hlive] at hdead
  have hcti : i.opcode ≠ .cti := fun h => by simp [visit, h, reviveAll] at hdead
  rw [visit_liveXmm hnop hcti, Bool.or_eq_false_iff] at hdead
  obtain ⟨hdsts, hsrcs⟩ := hdead
  have hop : ¬ (i.opcode = .bsr ∨ i.opcode = .bsf) := fun h => by
    rw [(foldl_visitDest_mono (q := .rax) h i.dsts (rm, forceLive)).2 hlive] at hdsts
    cases hdsts
  rw [foldl_visitDest_liveXmm hop, hlive] at hdsts
  exact ⟨opcode_cases hnop hcti hop, by simpa using hdsts, by simpa using hsrcs⟩

theorem dead_of_killsGpr (h : i.KillsGpr q) : (rm.visit i).live q = false := by
  obtain ⟨hop, hdst, hq, hreads, hrep⟩ := h
  simp only [List.mem_cons, List.not_mem_nil, or_false, not_or] at hop
  obtain ⟨hnop, hcti, hbsf, hbsr⟩ := hop
  rw [visit_live hnop hcti, foldl_visitDest_live (not_or.mpr ⟨hbsr, hbsf⟩) hq, (overwrites_iff i.dsts).mpr hdst]
  have haddr : i.dsts.any (·.addresses q) = false :=
    List.any_eq_false.mpr fun op hmem h => hreads (.inr ⟨op, hmem, h⟩)
  have hsrcs : i.srcs.any (·.mentions q) = false := List.any_eq_false.mpr fun op hmem h => hreads (.inl ⟨op, hmem, h⟩)
  have hrep' : (repRegs i.opcode).any (·.names q) = false := List.any_eq_false.mpr fun r hr => by simp [hrep r hr]
  simp [haddr, hsrcs, hrep', forceLive, hq]

theorem dead_of_killsXmm (h : i.KillsXmm x) : (rm.visit i).liveXmm x = false := by
  obtain ⟨hop, hdst, hsrc⟩ := h
  simp only [List.mem_cons, List.not_mem_nil, or_false, not_or] at hop
  obtain ⟨hnop, hcti, hbsf, hbsr⟩ := hop
  rw [visit_liveXmm hnop hcti, foldl_visitDest_liveXmm (not_or.mpr ⟨hbsr, hbsf⟩)]
  simp [hdst, hsrc]

end RegisterManager

/-! ## Executions -/

theorem merge_allOnes (old value : BitVec w) : merge old (BitVec.allOnes w) value = value := by
  simp [merge]

theorem agreeOn_reviveAll (h : AgreeOn .reviveAll s s') : s = s' :=
  RegState.ext (funext fun r => h.gpr r rfl) (funext fun x => h.xmm x rfl) h.rest

theorem AgreeOn.exec (hreads : i.ReadsListed) (hi : i.WritesWhole) (h : AgreeOn (rm.visit i) s s') :
    AgreeOn rm (i.exec s) (i.exec s') := by
  by_cases hnop : i.opcode = .nop
  · rw [RegisterManager.visit, if_pos hnop] at h
    rwa [Instr.exec, Instr.exec, i.nop_eval hnop, i.nop_eval hnop]
  by_cases hcti : i.opcode = .cti
  · rw [RegisterManager.visit, if_neg hnop, if_pos hcti] at h
    rw [agreeOn_reviveAll h]
    exact ⟨fun _ _ => rfl, fun _ _ => rfl, rfl⟩
  have heval : i.eval s = i.eval s' := hreads hcti s s' h.rest
    (fun r hr => h.gpr r (RegisterManager.visit_live_of_reads hnop hcti hr))
    fun x hx => h.xmm x (RegisterManager.visit_liveXmm_of_mem hnop hcti hx)
  refine ⟨fun r hr => ?_, fun x hx => ?_, by rw [Instr.exec, Instr.exec, heval]; rfl⟩
  · cases hv : (rm.visit i).live r with
    | true => simp [Instr.exec, Effect.apply, heval, h.gpr r hv]
    | false =>
      have hmask := hi.gpr r (RegisterManager.killsGpr_of_dead hr hv) s'
      simp only [Instr.exec, Effect.apply, heval, hmask, merge_allOnes]
  · cases hv : (rm.visit i).liveXmm x with
    | true => simp [Instr.exec, Effect.apply, heval, h.xmm x hv]
    | false =>
      have hmask := hi.xmm x (RegisterManager.killsXmm_of_dead hx hv) s'
      simp only [Instr.exec, Effect.apply, heval, hmask, merge_allOnes]

theorem exec_eq_of_agreeOn {seq : List (Instr β)} (hseq : ∀ i ∈ seq, i.ReadsListed ∧ i.WritesWhole)
    (h : AgreeOn (.before seq) s s') : exec seq s = exec seq s' := by
  induction seq generalizing s s' with
  | nil => exact agreeOn_reviveAll h
  | cons i seq ih =>
    obtain ⟨hreads, hwhole⟩ := hseq i (.head _)
    exact ih (fun j hj => hseq j (.tail _ hj)) (AgreeOn.exec hreads hwhole h)

theorem mask_eq_allOnes {mask : BitVec w} (value : BitVec w)
    (h : ∀ old old' : BitVec w, merge old mask value = merge old' mask value) : mask = BitVec.allOnes w := by
  apply BitVec.eq_of_getLsbD_eq
  intro j hj
  have hbit := congrArg (BitVec.getLsbD · j) (h (BitVec.allOnes w) 0#w)
  cases hm : mask.getLsbD j with
  | true => simp [hj]
  | false =>
    rw [BitVec.getLsbD_eq_getElem hj] at hm
    simp [merge, hj, hm] at hbit

theorem gprMask_of_sound (hreads : i.ReadsListed) (h : SoundLiveness [i]) {r : Reg} (hr : i.KillsGpr r)
    (s : RegState β) : (i.eval s).gprMask r = BitVec.allOnes 64 := by
  have heval : ∀ a, i.eval { s with gpr := update s.gpr r a } = i.eval s := fun a => by
    refine hreads (fun hcti => hr.1 (by simp [hcti])) _ _ rfl (fun q hq => ?_) fun _ _ => rfl
    have hne : q ≠ r := fun he => hr.2.2.2.1 (he ▸ hq)
    exact update_of_ne hne _ _
  refine mask_eq_allOnes ((i.eval s).gpr r) fun a b => ?_
  have hagree : AgreeOn (.before [i]) { s with gpr := update s.gpr r a } { s with gpr := update s.gpr r b } := by
    refine ⟨fun q hq => ?_, fun _ _ => rfl, rfl⟩
    have hne : q ≠ r := fun he => by
      rw [he] at hq
      exact absurd (hq.symm.trans (RegisterManager.dead_of_killsGpr hr)) (by decide)
    simp [update_of_ne hne]
  have heq := congrArg (RegState.gpr · r) (h [] [i] rfl _ _ hagree)
  simpa [exec, Instr.exec, Effect.apply, heval] using heq

theorem xmmMask_of_sound (hreads : i.ReadsListed) (h : SoundLiveness [i]) {x : Fin 16} (hx : i.KillsXmm x)
    (s : RegState β) : (i.eval s).xmmMask x = BitVec.allOnes 128 := by
  have heval : ∀ a, i.eval { s with xmm := update s.xmm x a } = i.eval s := fun a => by
    refine hreads (fun hcti => hx.1 (by simp [hcti])) _ _ rfl (fun _ _ => rfl) fun y hy => ?_
    have hne : y ≠ x := fun he => hx.2.2 (he ▸ hy)
    exact update_of_ne hne _ _
  refine mask_eq_allOnes ((i.eval s).xmm x) fun a b => ?_
  have hagree : AgreeOn (.before [i]) { s with xmm := update s.xmm x a } { s with xmm := update s.xmm x b } := by
    refine ⟨fun _ _ => rfl, fun y hy => ?_, rfl⟩
    have hne : y ≠ x := fun he => by
      rw [he] at hy
      exact absurd (hy.symm.trans (RegisterManager.dead_of_killsXmm hx)) (by decide)
    simp [update_of_ne hne]
  have heq := congrArg (RegState.xmm · x) (h [] [i] rfl _ _ hagree)
  simpa [exec, Instr.exec, Effect.apply, heval] using heq

end Granary.Registers
