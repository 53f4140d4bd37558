import Granary.Gencode.Lemmas.CleanCall
import Granary.Gencode.SaveRegions
import Granary.Registers.Lemmas.Manager

/-!
# Lemmas about regions with saved registers
-/

namespace Granary.Gencode

open Machine
open Registers (Manager RegId Tracked Width regIndex regPos regAt gprs)

/-! ## Handing out registers -/

def freeList (live undead : BitVec 16) : List (Fin 16) := (List.finRange 16).filter fun pos => !BitSet.has (live ||| undead) pos

variable {live undead : BitVec 16} {m : Manager} (regs : SavedRegs)

theorem firstFree_eq_head? : Manager.firstFree live undead = (freeList live undead).head? := (List.head?_filter ..).symm

theorem freeList_length : (freeList live undead).length ≤ 16 := by
  have h := List.length_filter_le (fun pos => !BitSet.has (live ||| undead) pos) (List.finRange 16)
  rwa [List.length_finRange] at h

theorem freeList_insert {pos : Fin 16} {rest : List (Fin 16)} (h : freeList live undead = pos :: rest) :
    freeList live (BitSet.insert undead pos) = rest := by
  have hnodup : (freeList live undead).Nodup := (List.nodup_finRange 16).filter _
  have hfilter : freeList live (BitSet.insert undead pos) = (freeList live undead).filter (· ≠ pos) := by
    rw [freeList, freeList, List.filter_filter]
    refine List.filter_congr fun q _ => ?_
    by_cases hq : q = pos <;> simp [hq]
  rw [h, List.nodup_cons] at hnodup
  rw [hfilter, h, List.filter_cons_of_neg (by simp), List.filter_eq_self]
  intro q hq
  have hne : q ≠ pos := fun he => hnodup.1 (he ▸ hq)
  simpa using hne

structure HandsOut {α : Type} (next : Manager → Option (α × Manager)) (free : Manager → List α) : Prop where
  nil : ∀ m, free m = [] → next m = none
  cons : ∀ m r rest, free m = r :: rest → ∃ m', next m = some (r, m') ∧ free m' = rest

theorem HandsOut.drain_eq {α σ : Type} {next : Manager → Option (α × Manager)} {free : Manager → List α}
    (h : HandsOut next free) (body : σ → α → σ) {turns : Nat} {m : Manager} (hturns : (free m).length < turns) (acc : σ) :
    drain next body turns m acc = some ((free m).foldl body acc) := by
  induction turns generalizing m acc with
  | zero => cases hturns
  | succ turns ih =>
    cases hfree : free m with
    | nil => simp [drain, h.nil m hfree]
    | cons r rest =>
      obtain ⟨m', hnext, hrest⟩ := h.cons m r rest hfree
      rw [hfree, List.length_cons] at hturns
      simp only [drain, hnext, List.foldl_cons]
      rw [ih (by rw [hrest]; omega), hrest]

theorem handsOut_zombies : HandsOut nextZombie fun m => (freeList m.live m.undead).map regAt where
  nil m h := by
    rw [List.map_eq_nil_iff] at h
    simp [nextZombie, Manager.getZombie, firstFree_eq_head?, h]
  cons m r rest h := by
    obtain ⟨pos, tail, hfree, rfl, rfl⟩ := List.map_eq_cons_iff.mp h
    refine ⟨{ m with undead := BitSet.insert m.undead pos }, ?_, ?_⟩
    · simp [nextZombie, Manager.getZombie, firstFree_eq_head?, hfree]
    · rw [freeList_insert hfree]

theorem handsOut_xmmZombies : HandsOut nextXmmZombie fun m => freeList m.liveXmm m.undeadXmm where
  nil m h := by simp [nextXmmZombie, Manager.getXmmZombie, firstFree_eq_head?, h]
  cons m x rest h := by
    refine ⟨{ m with undeadXmm := BitSet.insert m.undeadXmm x }, ?_, freeList_insert h⟩
    simp [nextXmmZombie, Manager.getXmmZombie, firstFree_eq_head?, h]

namespace SavedRegs

theorem gprList_eq : regs.gprList = (freeList regs.manager.live regs.manager.undead).map regAt := by
  have hgprs : gprs = (List.finRange 16).map regAt := by decide
  rw [gprList, hgprs, List.filter_map, freeList]
  congr 1
  refine List.filter_congr fun pos _ => ?_
  simp [Free, Manager.lives, Manager.isZombie, Registers.regPos_regAt]

theorem xmmList_eq : regs.xmmList = freeList regs.manager.liveXmm regs.manager.undeadXmm := by
  refine List.filter_congr fun x _ => ?_
  rw [Bool.eq_iff_iff, decide_eq_true_iff]
  simp [Free, Manager.lives, Manager.isZombie]

theorem rsp_not_mem : .rsp ∉ regs.gprList := by
  intro h
  have hfree := (List.mem_filter.mp h).2
  simp [Free, regs.rsp_live] at hfree

theorem gprList_length : regs.gprList.length ≤ 16 := by
  rw [gprList_eq, List.length_map]
  exact freeList_length

theorem xmmList_length : regs.xmmList.length ≤ 16 := by
  rw [xmmList_eq]
  exact freeList_length

theorem drain_gprs {σ : Type} (body : σ → Reg → σ) (acc : σ) :
    drain nextZombie body maxTurns regs.manager acc = some (regs.gprList.foldl body acc) := by
  rw [gprList_eq]
  exact handsOut_zombies.drain_eq body (by rw [List.length_map]; exact Nat.lt_succ_of_le freeList_length) acc

theorem drain_xmms {σ : Type} (body : σ → Fin 16 → σ) (acc : σ) :
    drain nextXmmZombie body maxTurns regs.manager acc = some (regs.xmmList.foldl body acc) := by
  rw [xmmList_eq]
  exact handsOut_xmmZombies.drain_eq body (Nat.lt_succ_of_le freeList_length) acc

/-! ## The code -/

theorem saveRegisters_eq (c : Cursor) :
    regs.saveRegisters c = some { c with before := c.before ++ regs.gprList.map fun r => .instr (.push r) } := by
  rw [saveRegisters, drain_gprs]
  induction regs.gprList generalizing c with
  | nil => simp
  | cons r rs ih =>
    rw [List.foldl_cons, ih]
    simp [Cursor.insertAfter]

theorem restoreRegisters_eq (c : Cursor) :
    regs.restoreRegisters c = some { c with before := c.before ++ regs.gprList.reverse.map fun r => .instr (.pop r) } := by
  have hfold : ∀ (rs : List Reg) (window : List StubInstr),
      rs.foldl (fun window r => .instr (.pop r) :: window) window = rs.reverse.map (fun r => .instr (.pop r)) ++ window := by
    intro rs
    induction rs with
    | nil => simp
    | cons r rs ih => simp [ih]
  rw [restoreRegisters, drain_gprs, hfold]
  simp

theorem saveAndRestoreRegisters_eq (c : Cursor) :
    regs.saveAndRestoreRegisters c =
      some (c.insertAround (regs.gprList.map fun r => .instr (.push r))
        (regs.gprList.reverse.map fun r => .instr (.pop r))) := by
  rw [saveAndRestoreRegisters, drain_gprs]
  induction regs.gprList generalizing c with
  | nil => simp [Cursor.insertAround]
  | cons r rs ih =>
    rw [List.foldl_cons, ih]
    simp [Cursor.insertAfter, Cursor.insertNext, Cursor.insertAround]

theorem slotDisp_succ (k : Nat) : CleanCall.slotDisp k + 16 = CleanCall.slotDisp (k + 1) := by
  unfold CleanCall.slotDisp
  bv_omega

theorem foldl_xmmWindow (aligned : Bool) (xs : List (Fin 16)) (top bottom : List StubInstr) (k : Nat) :
    xs.foldl (XmmWindow.insert aligned) ⟨top, bottom, CleanCall.slotDisp k⟩ =
      { top := ((xs.zipIdx k).map fun p => .storeXmm aligned (CleanCall.slotDisp p.2) p.1).reverse ++ top
        bottom := bottom ++ (xs.zipIdx k).map fun p => .loadXmm aligned p.1 (CleanCall.slotDisp p.2)
        disp := CleanCall.slotDisp (k + xs.length) } := by
  induction xs generalizing top bottom k with
  | nil => simp
  | cons x xs ih =>
    rw [List.foldl_cons, XmmWindow.insert, slotDisp_succ, ih]
    simp [Nat.add_assoc, Nat.add_comm 1]

theorem saveAndRestoreXmmRegisters_eq (aligned : Bool) (c : Cursor) :
    regs.saveAndRestoreXmmRegisters aligned c =
      some (c.insertAround (CleanCall.saveXmm aligned regs.xmmList) (CleanCall.restoreXmm aligned regs.xmmList)) := by
  have hzero : (0 : Word) = CleanCall.slotDisp 0 := rfl
  have hlen := regs.xmmList_length
  have hdisp : CleanCall.slotDisp regs.xmmList.length ≠ 0 ↔ regs.xmmList ≠ [] := by
    rw [← List.length_pos_iff_ne_nil]
    unfold CleanCall.slotDisp
    constructor <;> intro h <;> bv_omega
  rw [saveAndRestoreXmmRegisters, drain_xmms, hzero, foldl_xmmWindow]
  simp only [Nat.zero_add, Option.map_some, List.append_nil, List.nil_append]
  rw [← hzero]
  by_cases hregs : regs.xmmList = []
  · simp [hregs, CleanCall.slotDisp, CleanCall.saveXmm, CleanCall.restoreXmm, CleanCall.slots]
  · rw [if_pos (hdisp.mpr hregs), CleanCall.saveXmm, CleanCall.restoreXmm, if_neg hregs, if_neg hregs]
    rfl

/-! ## Balance -/

end SavedRegs

section Flags

variable (alu : Instr → State → Word) (rs : List Reg) (s : State)

theorem run_push_flags : (run alu (rs.map .push) s).flags = s.flags := by
  induction rs generalizing s with
  | nil => rfl
  | cons r rs ih => exact ih _

theorem run_pop_flags : (run alu (rs.map .pop) s).flags = s.flags := by
  induction rs generalizing s with
  | nil => rfl
  | cons r rs ih => exact ih _

end Flags

theorem balances_gprs {rs : List Reg} (hrsp : .rsp ∉ rs) (hlen : rs.length ≤ 16) :
    Balances (fun _ => True) rs [] (rs.map fun r => .instr (.push r)) (rs.reverse.map fun r => .instr (.pop r)) := by
  intro alu andFlags site callee s _
  have hpush : rs.map (fun r => StubInstr.instr (.push r)) = (rs.map Instr.push).map .instr := by simp
  have hpop : rs.reverse.map (fun r => StubInstr.instr (.pop r)) = (rs.reverse.map Instr.pop).map .instr := by simp
  rw [hpush, hpop]
  obtain ⟨hpushed, hreg, hmem⟩ := run_push alu rs s.cpu.toState
  refine ⟨s.setState (run alu (rs.map .push) s.cpu.toState), CleanCall.runStub_instrs ..,
    ⟨hpushed, hreg, rfl, run_push_flags alu rs _, hmem⟩, fun v hv => ?_⟩
  obtain ⟨hvrsp, hvmem⟩ := hv
  have hbelow : ∀ b, Below (s.cpu.reg .rsp) (8 * rs.length) b →
      v.cpu.mem b = (run alu (rs.map .push) s.cpu.toState).mem b := fun b hb => by
    refine hvmem b ?_
    change (b - (run alu (rs.map .push) s.cpu.toState).reg .rsp).toNat < 8 * rs.length + 0
    rw [hpushed]
    unfold Below at hb
    bv_omega
  obtain ⟨hrsp', hsaved, hother, hmem'⟩ := run_pop alu hrsp (by omega) hvrsp hbelow
  exact ⟨v.setState (run alu (rs.reverse.map .pop) v.cpu.toState), CleanCall.runStub_instrs .., hrsp', hsaved,
    fun x hx => absurd hx List.not_mem_nil, hother, fun x _ => rfl, run_pop_flags alu _ _, hmem'⟩

theorem balances_xmms {xs : List (Fin 16)} (hlen : xs.length ≤ 16) (aligned : Bool) :
    Balances (fun s => aligned = true → Aligned16 (s.cpu.reg .rsp)) [] xs (CleanCall.saveXmm aligned xs)
      (CleanCall.restoreXmm aligned xs) := by
  intro alu andFlags site callee s ha
  obtain ⟨t, hrun, hrsp, hreg, hmem, hflags, hsaved⟩ := CleanCall.runStub_saveXmm alu andFlags site callee hlen aligned ha
  have harea : saveArea [] xs = 16 * xs.length := by simp [saveArea]
  refine ⟨s.setState t, hrun, ⟨by rw [harea]; exact hrsp, hreg, rfl, hflags, by rw [harea]; exact hmem⟩, fun v hv => ?_⟩
  obtain ⟨hvrsp, hvmem⟩ := hv
  rw [harea] at hvmem
  change v.cpu.reg .rsp = t.reg .rsp at hvrsp
  have hal : aligned = true → Aligned16 (v.cpu.reg .rsp) := fun h => by
    have hs := ha h
    rw [hvrsp, hrsp]
    unfold Aligned16 at hs ⊢
    unfold CleanCall.slotDisp
    bv_omega
  have honly : Only (fun b => ¬ (b - t.reg .rsp).toNat < 16 * xs.length) t.mem v.cpu.mem := fun b hb => hvmem b (not_not.mp hb)
  have hvalue : ∀ p ∈ CleanCall.slots xs, v.cpu.mem.read128 (slot (v.cpu.reg .rsp) p.2) = s.cpu.xmm p.1 := fun p hp => by
    have hlt := CleanCall.mem_slots hp
    rw [hvrsp, honly.read128_eq (by omega) fun b hb hnot => hnot ?_]
    · exact hsaved p hp
    · unfold InSlot at hb
      omega
  obtain ⟨xmm, hrun', hloaded, hother⟩ := CleanCall.runStub_restoreXmm alu andFlags site callee aligned hal hvalue
  refine ⟨_, hrun', ?_, fun r hr => absurd hr List.not_mem_nil, hloaded, fun r _ hr => ?_, hother, rfl, rfl⟩
  · change (v.cpu.set .rsp _).reg .rsp = _
    rw [set_reg, if_pos rfl, hvrsp, hrsp, BitVec.sub_add_cancel]
  · change (v.cpu.set .rsp _).reg r = _
    rw [set_reg, if_neg hr]

/-! ## Layout -/

theorem read_pushedWords {reg : Reg → Word} {rs : List Reg} {k : Nat} {r : Reg} (hr : rs[k]? = some r)
    (hlen : rs.length ≤ 16) (sp : Word) (mem : Memory) :
    (mem.writes (pushedWords reg rs sp)).read (sp - BitVec.ofNat 64 (8 * (k + 1))) = reg r := by
  induction rs generalizing k sp mem with
  | nil => cases hr
  | cons q rs ih =>
    rw [List.length_cons] at hlen
    cases k with
    | zero =>
      cases hr
      have hapart : ∀ w ∈ pushedWords reg rs (sp - 8), WordsApart (sp - 8) w.1 := by
        rw [forall_pushedWords_iff (P := WordsApart (sp - 8))]
        intro k hk
        unfold WordsApart
        bv_omega
      exact (writes_read hapart _).trans (read_write_self ..)
    | succ k =>
      have hsub : sp - BitVec.ofNat 64 (8 * (k + 1 + 1)) = sp - 8 - BitVec.ofNat 64 (8 * (k + 1)) := by bv_omega
      rw [hsub]
      exact ih hr (by omega) (sp - 8) _

theorem gprList_allGprs (liveXmm undeadXmm : BitVec 16) : (SavedRegs.allGprs liveXmm undeadXmm).gprList =
    [.rax, .rcx, .rdx, .rbx, .rbp, .rsi, .rdi, .r8, .r9, .r10, .r11, .r12, .r13, .r14, .r15] := by
  rw [SavedRegs.gprList_eq]
  change (freeList Manager.forceLiveBits 0).map regAt = _
  decide

theorem machineStateIndex_eq {r : Reg} (hr : r ≠ .rsp) :
    ∃ k < 15,
      ([.rax, .rcx, .rdx, .rbx, .rbp, .rsi, .rdi, .r8, .r9, .r10, .r11, .r12, .r13, .r14, .r15] : List Reg)[k]? = some r ∧
      machineStateIndex r = 14 - k := by
  revert hr
  cases r <;> decide

theorem layout_allGprs (andFlags : State → Word) (site : Word) (callee : SseState → SseState)
    (liveXmm undeadXmm : BitVec 16) (s : StubState) :
    ∃ t, runStub alu andFlags site callee ((SavedRegs.allGprs liveXmm undeadXmm).gprList.map fun r => .instr (.push r)) s =
        some t ∧
      ∀ r, r ≠ .rsp → t.cpu.mem.read (t.cpu.reg .rsp + BitVec.ofNat 64 (8 * machineStateIndex r)) = s.cpu.reg r := by
  rw [gprList_allGprs]
  generalize hrs : ([.rax, .rcx, .rdx, .rbx, .rbp, .rsi, .rdi, .r8, .r9, .r10, .r11, .r12, .r13, .r14, .r15] : List Reg) = rs
  have hlen : rs.length = 15 := by rw [← hrs]; rfl
  have hrsp : .rsp ∉ rs := by rw [← hrs]; decide
  have hpush : rs.map (fun r => StubInstr.instr (.push r)) = (rs.map Instr.push).map .instr := by simp
  refine ⟨s.setState (run alu (rs.map .push) s.cpu.toState), by rw [hpush]; exact CleanCall.runStub_instrs .., fun r hr => ?_⟩
  obtain ⟨k, hk, hget, hindex⟩ := machineStateIndex_eq hr
  rw [hrs] at hget
  change (run alu (rs.map .push) s.cpu.toState).mem.read ((run alu (rs.map .push) s.cpu.toState).reg .rsp + _) = _
  have haddr : s.cpu.reg .rsp - BitVec.ofNat 64 (8 * 15) + BitVec.ofNat 64 (8 * (14 - k)) =
      s.cpu.reg .rsp - BitVec.ofNat 64 (8 * (k + 1)) := by bv_omega
  rw [(run_push alu rs s.cpu.toState).rsp, run_push_mem alu hrsp, hlen, hindex, haddr]
  exact read_pushedWords hget (by omega) _ _

end Granary.Gencode
