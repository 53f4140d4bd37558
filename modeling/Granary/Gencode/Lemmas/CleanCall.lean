import Granary.Gencode.CleanCall
import Granary.Lib.Stack
import Granary.Registers.Lemmas.UsedRegs

/-!
# What clean calls save and restore

The registers to save, and the parts of the generated code, from the inside out: the XMM registers, the aligned call and the
general-purpose registers.
-/

namespace Granary.Gencode

open Machine
open Registers (RegisterManager FunctionBody)

variable {x : Fin 16} {ps : List (Fin 16 × Nat)} {aligned : Bool} {value : Fin 16 → BitVec 128} {gprs : List Reg}
  {xmms : List (Fin 16)} {body : FunctionBody}

namespace CleanCall

/-! ## The registers to save -/

variable {dead used : RegisterManager} {numArgs : Nat} {q r : Reg} {rs : List Reg}

theorem reviveReg_live : (reviveReg dead r).live q = (dead.live q || decide (q = r)) := by
  rw [reviveReg, RegisterManager.revive_live, Registers.RegId.names, decide_eq_decide.mpr eq_comm]

theorem foldl_reviveReg_live : (rs.foldl reviveReg dead).live q = (dead.live q || decide (q ∈ rs)) := by
  induction rs generalizing dead with
  | nil => simp
  | cons r rs ih => simp [ih, reviveReg_live, Bool.or_assoc]

theorem killReg_live (hq : q ≠ .rsp) : (killReg dead r).live q = (dead.live q && decide (q ≠ r)) := by
  rw [killReg, RegisterManager.kill_live hq]
  by_cases h : q = r <;> simp [Registers.Operand.overwrites, h, eq_comm]

theorem foldl_killReg_live (hq : q ≠ .rsp) : (rs.foldl killReg dead).live q = (dead.live q && decide (q ∉ rs)) := by
  induction rs generalizing dead with
  | nil => simp
  | cons r rs ih => simp [ih, killReg_live hq, Bool.and_assoc]

theorem foldl_killReg_rsp (h : dead.live .rsp = true) : (rs.foldl killReg dead).live .rsp = true := by
  induction rs generalizing dead with
  | nil => exact h
  | cons r rs ih => exact ih (RegisterManager.kill64_rsp h (.gpr r .w64))

theorem foldl_killReg_liveXmm : (rs.foldl killReg dead).liveXmm = dead.liveXmm := by
  induction rs generalizing dead with
  | nil => rfl
  | cons r rs ih => exact ih.trans (RegisterManager.kill64_liveXmm _)

theorem foldl_reviveReg_liveXmm : (rs.foldl reviveReg dead).liveXmm = dead.liveXmm := by
  induction rs generalizing dead with
  | nil => rfl
  | cons r rs ih => exact ih

theorem foldlM_reviveReg (h : numArgs ≤ 5) :
    (List.range numArgs).reverse.foldlM (fun dead i => return reviveReg dead (← argumentRegisters[i]?)) dead =
      some ((argumentRegisters.take numArgs).reverse.foldl reviveReg dead) := by
  have hcases : numArgs = 0 ∨ numArgs = 1 ∨ numArgs = 2 ∨ numArgs = 3 ∨ numArgs = 4 ∨ numArgs = 5 := by omega
  rcases hcases with rfl | rfl | rfl | rfl | rfl | rfl <;> rfl

theorem deadRegs_eq_none (h : 5 < numArgs) : deadRegs used .abiCompatible numArgs = none := by
  obtain ⟨n, rfl⟩ : ∃ n, numArgs = n + 1 := ⟨numArgs - 1, by omega⟩
  have hlen : argumentRegisters.length ≤ n := Nat.le_of_lt_succ h
  rw [deadRegs, List.range_succ, List.reverse_append, List.reverse_singleton, List.singleton_append, List.foldlM_cons,
    List.getElem?_eq_none hlen]
  rfl

structure Saves (used : RegisterManager) (numArgs : Nat) (dead : RegisterManager) : Prop where
  rsp : dead.live .rsp = true
  rax : dead.live .rax = used.live .rax
  arg : ∀ r, r ≠ .rsp → r ∉ argumentRegisters.take numArgs → dead.live r = true → r ∈ calleeSaved ∨ r = .rax
  xmm : dead.liveXmm = used.liveXmm

theorem deadRegs_eq_some (h : numArgs ≤ 5) (hrsp : used.live .rsp = true) :
    ∃ dead, deadRegs used .abiCompatible numArgs = some dead ∧ Saves used numArgs dead := by
  refine ⟨(argumentRegisters.drop numArgs).foldl killReg ((argumentRegisters.take numArgs).reverse.foldl reviveReg
    ([.r8, .r9, .r10, .r11].foldl killReg (calleeSaved.foldl reviveReg used))), ?_, ?_, ?_, fun r hr harg hlive => ?_, ?_⟩
  · rw [deadRegs, foldlM_reviveReg h]
    rfl
  · refine foldl_killReg_rsp ?_
    rw [foldl_reviveReg_live, foldl_killReg_rsp (by rw [foldl_reviveReg_live, hrsp, Bool.true_or]), Bool.true_or]
  · have hrax : .rax ∉ argumentRegisters := by decide
    have htake : .rax ∉ (argumentRegisters.take numArgs).reverse := fun hm =>
      hrax (List.mem_of_mem_take (List.mem_reverse.mp hm))
    have hdrop : .rax ∉ argumentRegisters.drop numArgs := fun hm => hrax (List.mem_of_mem_drop hm)
    rw [foldl_killReg_live (by decide), foldl_reviveReg_live, foldl_killReg_live (by decide), foldl_reviveReg_live]
    simp [htake, hdrop, calleeSaved]
  · rw [foldl_killReg_live hr, foldl_reviveReg_live, foldl_killReg_live hr] at hlive
    simp only [List.mem_reverse, harg, decide_false, Bool.or_false, Bool.and_eq_true, decide_eq_true_eq] at hlive
    obtain ⟨⟨-, hscratch⟩, hdrop⟩ := hlive
    have hnot : r ∉ argumentRegisters := by
      rw [← List.take_append_drop numArgs argumentRegisters, List.mem_append, not_or]
      exact ⟨harg, hdrop⟩
    revert hr hscratch hnot
    cases r <;> decide
  · rw [foldl_killReg_liveXmm, foldl_reviveReg_liveXmm, foldl_killReg_liveXmm, foldl_reviveReg_liveXmm]

theorem mem_zombies : r ∈ zombies dead ↔ dead.live r = false := by
  rw [zombies, List.mem_filter, Bool.not_eq_true']
  refine and_iff_right ?_
  cases r <;> decide

theorem mem_xmmZombies : x ∈ xmmZombies dead ↔ dead.liveXmm x = false := by
  rw [xmmZombies, List.mem_filter, Bool.not_eq_true']
  exact and_iff_right (List.mem_finRange x)

theorem length_zombies (h : dead.live .rsp = true) : (zombies dead).length ≤ 15 := by
  have hsub : (zombies dead).length ≤
      ([.rax, .rcx, .rdx, .rbx, .rbp, .rsi, .rdi, .r8, .r9, .r10, .r11, .r12, .r13, .r14, .r15] : List Reg).length := by
    have hfilter : zombies dead = List.filter (!dead.live ·)
        [.rax, .rcx, .rdx, .rbx, .rbp, .rsi, .rdi, .r8, .r9, .r10, .r11, .r12, .r13, .r14, .r15] := by
      simp [zombies, List.filter_cons, h]
    rw [hfilter]
    exact List.length_filter_le ..
  exact hsub

theorem length_xmmZombies : (xmmZombies dead).length ≤ 16 := by
  have h := List.length_filter_le (!dead.liveXmm ·) (List.finRange 16)
  rwa [List.length_finRange] at h

/-! ## Parts of the code -/

section Run

variable (alu : Machine.Instr → State → Word) (andFlags : State → Word) (site : Word) (callee : SseState → SseState)

theorem runStub_append {code code' : List StubInstr} {s s' : StubState}
    (h : runStub alu andFlags site callee code s = some s') :
    runStub alu andFlags site callee (code ++ code') s = runStub alu andFlags site callee code' s' := by
  rw [runStub, List.foldlM_append]
  exact congrArg (· >>= _) h

theorem runStub_singleton (i : StubInstr) (s : StubState) :
    runStub alu andFlags site callee [i] s = StubInstr.exec alu andFlags site callee s i := by
  rw [runStub, List.foldlM_cons]
  exact bind_pure _

theorem runStub_instrs (is : List Machine.Instr) (s : StubState) :
    runStub alu andFlags site callee (is.map .instr) s =
      some (s.setState (run alu is s.cpu.toState)) := by
  induction is generalizing s with
  | nil => rfl
  | cons i is ih => exact ih _

variable {s : StubState}

theorem runStub_stores (hlt : ∀ p ∈ ps, p.2 < 16) (hnd : (ps.map (·.2)).Nodup)
    (ha : aligned = true → Aligned16 (s.cpu.reg .rsp)) :
    ∃ mem, runStub alu andFlags site callee (ps.map fun p => .storeXmm aligned (slotDisp p.2) p.1).reverse s =
        some (s.setState { s.cpu.toState with mem }) ∧
      Only (fun b => ∃ p ∈ ps, InSlot (s.cpu.reg .rsp) p.2 b) s.cpu.mem mem ∧
      ∀ p ∈ ps, mem.read128 (slot (s.cpu.reg .rsp) p.2) = s.cpu.xmm p.1 := by
  induction ps with
  | nil => exact ⟨s.cpu.mem, rfl, .refl _ _, by simp⟩
  | cons p ps ih =>
    rw [List.forall_mem_cons] at hlt
    rw [List.map_cons, List.nodup_cons] at hnd
    obtain ⟨mem, hrun, honly, hread⟩ := ih hlt.2 hnd.2
    refine ⟨mem.write128 (slot (s.cpu.reg .rsp) p.2) (s.cpu.xmm p.1), ?_, ?_, ?_⟩
    · rw [List.map_cons, List.reverse_cons, runStub_append alu andFlags site callee hrun]
      have hslot : aligned = true → Aligned16 (s.cpu.reg .rsp + slotDisp p.2) := fun h => (ha h).slot p.2
      rw [runStub_singleton]
      exact if_neg fun h => h.2 (hslot h.1)
    · refine (honly.mono fun b hb => ?_).trans ((only_write128 hlt.1).mono fun b hb => ?_)
      · exact hb.imp fun q hq => ⟨List.mem_cons_of_mem _ hq.1, hq.2⟩
      · exact ⟨p, List.mem_cons_self, hb⟩
    · rw [List.forall_mem_cons]
      refine ⟨read128_write128_self .., fun q hq => ?_⟩
      rw [(only_write128 hlt.1).read128_eq (hlt.2 q hq) fun b hb hb' => ?_, hread q hq]
      -- the slots are different
      exact hnd.1 (List.mem_map.mpr ⟨q, hq, hb.symm.trans hb'⟩)

theorem runStub_loads
    (ha : aligned = true → Aligned16 (s.cpu.reg .rsp))
    (hvalue : ∀ p ∈ ps, s.cpu.mem.read128 (slot (s.cpu.reg .rsp) p.2) = value p.1) :
    ∃ xmm, runStub alu andFlags site callee (ps.map fun p => .loadXmm aligned p.1 (slotDisp p.2)) s = some (s.setXmm xmm) ∧
      (∀ x ∈ ps.map (·.1), xmm x = value x) ∧ ∀ x, x ∉ ps.map (·.1) → xmm x = s.cpu.xmm x := by
  induction ps generalizing s with
  | nil => exact ⟨s.cpu.xmm, rfl, by simp, fun _ _ => rfl⟩
  | cons p ps ih =>
    rw [List.forall_mem_cons] at hvalue
    have hslot : aligned = true → Aligned16 (s.cpu.reg .rsp + slotDisp p.2) := fun h => (ha h).slot p.2
    have hread : s.cpu.mem.read128 (s.cpu.reg .rsp + slotDisp p.2) = value p.1 := hvalue.1
    have hstep : runStub alu andFlags site callee [.loadXmm aligned p.1 (slotDisp p.2)] s =
        some (s.setXmm (Function.update s.cpu.xmm p.1 (value p.1))) := by
      rw [runStub_singleton, StubInstr.exec, if_neg fun h => h.2 (hslot h.1), hread]
    obtain ⟨xmm, hrun, hloaded, hother⟩ :=
      ih (s := s.setXmm (Function.update s.cpu.xmm p.1 (value p.1))) ha hvalue.2
    refine ⟨xmm, (runStub_append alu andFlags site callee hstep).trans hrun, fun x hx => ?_, fun x hx => ?_⟩
    · by_cases hps : x ∈ ps.map (·.1)
      · exact hloaded x hps
      · obtain rfl : x = p.1 := (List.mem_cons.mp hx).resolve_right hps
        exact (hother _ hps).trans (Function.update_self ..)
    · rw [List.map_cons, List.mem_cons, not_or] at hx
      exact (hother x hx.2).trans (Function.update_of_ne hx.1 ..)

structure StackAligned (s t : State) : Prop where
  rsp : t.reg .rsp = s.reg .rsp - 16 ∨ t.reg .rsp = s.reg .rsp - 24
  aligned : Aligned16 (t.reg .rsp)
  reg : ∀ r, r ≠ .rsp → t.reg r = s.reg r
  mem : Frame (s.reg .rsp) 16 s.mem t.mem
  saved : t.mem.read (t.reg .rsp + 8) = s.reg .rsp

theorem runStub_alignStack (h8 : (s.cpu.reg .rsp).toNat % 8 = 0) :
    ∃ t, runStub alu andFlags site callee alignStack s = some (s.setState t) ∧ StackAligned s.cpu.toState t := by
  generalize hrsp : s.cpu.reg .rsp = rsp at h8
  have hpushes : run alu [.push .rsp, .pushMem .rsp 0] s.cpu.toState = (s.cpu.push rsp).push rsp := by
    simp [exec, hrsp]
  have hrun := runStub_instrs alu andFlags site callee [.push .rsp, .pushMem .rsp 0] s
  rw [hpushes] at hrun
  have hsub : rsp - 8 - 8 = rsp - 16 := by bv_omega
  have hcases := and_neg_sixteen_cases (a := rsp - 16) (by bv_omega)
  refine ⟨{ ((s.cpu.push rsp).push rsp).set .rsp ((rsp - 16) &&& -16#64) with
    flags := andFlags ((s.cpu.push rsp).push rsp) }, ?_, ?_⟩
  · refine (runStub_append alu andFlags site callee hrun).trans ?_
    rw [runStub_singleton, StubInstr.exec]
    simp only [StubState.setState, push_reg, reduceIte, hrsp, hsub]
  · refine ⟨?_, ?_, fun r hr => ?_, ?_, ?_⟩ <;> simp only [set_reg, set_mem, push_reg, push_mem, reduceIte, hrsp, hsub]
    · rcases hcases with h | h
      · exact .inl h
      · refine .inr (h.trans ?_)
        bv_omega
    · exact aligned16_and _
    · rw [if_neg hr, if_neg hr, if_neg hr]
    · exact (frame_write rsp _ _ |>.mono (by decide)).trans (hsub ▸ frame_write (rsp - 8) _ _ |>.lower (by decide))
    · rcases hcases with h | h
      · -- the first of the two words
        have haddr : rsp - 16 + 8 = rsp - 8 := by bv_omega
        rw [h, haddr, (only_write).read_eq fun b hb => ?_, read_write_self]
        unfold InWord at hb ⊢
        bv_omega
      · have haddr : rsp - 16 - 8 + 8 = rsp - 16 := by bv_omega
        rw [h, haddr, read_write_self]

variable {regs : List (Fin 16)}

theorem mem_slots {p : Fin 16 × Nat} (hp : p ∈ slots regs) : p.2 < regs.length := by
  obtain ⟨-, hlt, -⟩ := List.mem_zipIdx hp
  simpa using hlt

theorem slots_map_snd (regs : List (Fin 16)) : ((slots regs).map (·.2)).Nodup := by
  rw [slots, List.zipIdx_map_snd]
  exact List.nodup_range'

theorem slots_map_fst (regs : List (Fin 16)) : (slots regs).map (·.1) = regs := List.zipIdx_map_fst ..

structure XmmSaved (regs : List (Fin 16)) (s : SseState) (t : State) : Prop where
  rsp : t.reg .rsp = s.reg .rsp - slotDisp regs.length
  reg : ∀ r, r ≠ .rsp → t.reg r = s.reg r
  mem : Frame (s.reg .rsp) (16 * regs.length) s.mem t.mem
  flags : t.flags = s.flags
  saved : ∀ p ∈ slots regs, t.mem.read128 (slot (t.reg .rsp) p.2) = s.xmm p.1

theorem runStub_saveXmm (hlen : regs.length ≤ 16) (aligned : Bool)
    (ha : aligned = true → Aligned16 (s.cpu.reg .rsp)) :
    ∃ t, runStub alu andFlags site callee (saveXmm aligned regs) s = some (s.setState t) ∧ XmmSaved regs s.cpu t := by
  by_cases hregs : regs = []
  · subst hregs
    refine ⟨s.cpu.toState, rfl, ?_, fun _ _ => rfl, .refl _ _ _, rfl, by simp [slots]⟩
    simp [slotDisp]
  · have hrun := runStub_instrs alu andFlags site callee [.lea .rsp .rsp (-slotDisp regs.length)] s
    have hrsp : (exec alu (.lea .rsp .rsp (-slotDisp regs.length)) s.cpu.toState).reg .rsp =
        s.cpu.reg .rsp - slotDisp regs.length := by
      rw [exec, set_reg, if_pos rfl, BitVec.sub_eq_add_neg]
    have hal : aligned = true → Aligned16 (s.cpu.reg .rsp - slotDisp regs.length) := fun h => by
      have ha := ha h
      unfold Aligned16 at ha ⊢
      unfold slotDisp
      bv_omega
    obtain ⟨mem, hstores, honly, hread⟩ := runStub_stores alu andFlags site callee
      (fun p hp => Nat.lt_of_lt_of_le (mem_slots hp) hlen) (slots_map_snd regs)
      (s := s.setState (exec alu (.lea .rsp .rsp (-slotDisp regs.length)) s.cpu.toState)) (by rwa [← hrsp] at hal)
    refine ⟨{ exec alu (.lea .rsp .rsp (-slotDisp regs.length)) s.cpu.toState with mem }, ?_, hrsp, fun r hr => ?_, ?_, rfl,
      hread⟩
    · rw [saveXmm, if_neg hregs]
      exact (runStub_append alu andFlags site callee hrun).trans hstores
    · exact (set_reg ..).trans (if_neg hr)
    · refine honly.mono ?_
      rintro b ⟨p, hp, hb⟩
      have hlt := mem_slots hp
      change InSlot ((exec alu (.lea .rsp .rsp (-slotDisp regs.length)) s.cpu.toState).reg .rsp) p.2 b at hb
      rw [hrsp] at hb
      unfold InSlot slotDisp at hb
      unfold Below
      bv_omega

theorem runStub_restoreXmm (aligned : Bool)
    (ha : aligned = true → Aligned16 (s.cpu.reg .rsp))
    (hvalue : ∀ p ∈ slots regs, s.cpu.mem.read128 (slot (s.cpu.reg .rsp) p.2) = value p.1) :
    ∃ xmm, runStub alu andFlags site callee (restoreXmm aligned regs) s =
        some ((s.setXmm xmm).setState (s.cpu.set .rsp (s.cpu.reg .rsp + slotDisp regs.length))) ∧
      (∀ x ∈ regs, xmm x = value x) ∧ ∀ x, x ∉ regs → xmm x = s.cpu.xmm x := by
  obtain ⟨xmm, hloads, hloaded, hother⟩ := runStub_loads alu andFlags site callee ha hvalue
  rw [slots_map_fst] at hloaded hother
  refine ⟨xmm, ?_, hloaded, hother⟩
  rw [restoreXmm, runStub_append alu andFlags site callee hloads]
  by_cases hregs : regs = []
  · subst hregs
    have hset : s.cpu.set .rsp (s.cpu.reg .rsp + slotDisp 0) = s.cpu.toState := by simp [State.set, slotDisp]
    rw [List.length_nil, hset, if_pos rfl]
    rfl
  · rw [if_neg hregs, runStub_singleton]
    rfl

/-! ## The aligned call -/

/-- The function was called with an aligned stack; XMM registers, stack pointer and frame are as before. -/
structure CalledOnce (callee : SseState → SseState) (regs : List (Fin 16)) (entry : SseState) (s s' : StubState) :
    Prop where
  entered : s'.entered = s.entered ++ [entry]
  aligned : EntryAligned entry
  entry_reg : ∀ r, r ≠ .rsp → entry.reg r = s.cpu.reg r
  entry_xmm : entry.xmm = s.cpu.xmm
  rsp : s'.cpu.reg .rsp = s.cpu.reg .rsp
  reg : ∀ r, r ≠ .rsp → s'.cpu.reg r = (callee entry).reg r
  savedXmm : ∀ x ∈ regs, s'.cpu.xmm x = s.cpu.xmm x
  otherXmm : ∀ x, x ∉ regs → s'.cpu.xmm x = (callee entry).xmm x
  mem : ∀ b, (b - s.cpu.reg .rsp).toNat < 136 → s'.cpu.mem b = s.cpu.mem b

variable {callee} in
theorem runStub_alignedCall {clobbers : Clobbers} (hcallee : ConformsAbi clobbers callee)
    (hlen : regs.length ≤ 16) (h8 : (s.cpu.reg .rsp).toNat % 8 = 0) :
    ∃ entry s', runStub alu andFlags site callee (alignedCall .abiCompatible regs) s = some s' ∧
      CalledOnce callee regs entry s s' := by
  obtain ⟨t₁, hrun₁, halign⟩ := runStub_alignStack alu andFlags site callee h8
  obtain ⟨t₂, hrun₂, hsave⟩ := runStub_saveXmm alu andFlags site callee hlen true (s := s.setState t₁) fun _ => halign.aligned
  obtain ⟨hrsp₁, hal₁, hreg₁, hmem₁, hsaved₁⟩ := halign
  obtain ⟨hrsp₂, hreg₂, hmem₂, -, hsaved₂⟩ := hsave
  change t₂.reg .rsp = t₁.reg .rsp - slotDisp regs.length at hrsp₂
  change Frame (t₁.reg .rsp) _ t₁.mem t₂.mem at hmem₂
  generalize hbase : t₂.reg .rsp = base at hrsp₂ hsaved₂
  generalize htop : t₁.reg .rsp = top at hrsp₁ hal₁ hsaved₁ hrsp₂ hmem₂
  generalize hrsp : s.cpu.reg .rsp = rsp at hrsp₁ hmem₁ hsaved₁
  have hal₂ : Aligned16 base := by
    unfold Aligned16 at hal₁ ⊢
    unfold slotDisp at hrsp₂
    bv_omega
  -- the call
  obtain ⟨entry, hentry⟩ : ∃ entry : SseState, entry = ⟨t₂.push site, s.cpu.xmm⟩ := ⟨_, rfl⟩
  have hentryRsp : entry.reg .rsp = base - 8 := by simp [hentry, hbase]
  have hentryAl : EntryAligned entry := by
    rw [EntryAligned, hentryRsp, BitVec.sub_add_cancel]
    exact hal₂
  obtain ⟨hrsp₃, hrip₃, -, -, -, hframe₃⟩ := hcallee entry hentryAl
  rw [hentryRsp, BitVec.sub_add_cancel] at hrsp₃ hframe₃
  have hsite : (callee entry).rip = site := by rw [hrip₃, hentry, push_top]
  have hrun₃ : runStub alu andFlags site callee [.call] ((s.setState t₁).setState t₂) =
      some { cpu := callee entry, entered := s.entered ++ [entry] } := by
    rw [runStub_singleton]
    exact (if_pos (hentry ▸ hsite)).trans (hentry ▸ rfl)
  have hmem₃ : Only (fun b => ¬ (b - base).toNat < 416) t₂.mem (callee entry).mem := by
    intro b hb
    rw [hframe₃ b (not_not.mp hb), hentry]
    refine only_write b fun hword => hb fun hlt => ?_
    rw [hbase] at hword
    unfold InWord at hword
    bv_omega
  -- the XMM registers
  have hvalue : ∀ p ∈ slots regs, (callee entry).mem.read128 (slot ((callee entry).reg .rsp) p.2) = s.cpu.xmm p.1 := by
    intro p hp
    have hlt := mem_slots hp
    rw [hrsp₃, hmem₃.read128_eq (by omega) fun b hb hnot => hnot ?_]
    · exact hsaved₂ p hp
    · unfold InSlot at hb
      omega
  obtain ⟨xmm, hrun₄, hsaved₄, hother₄⟩ := runStub_restoreXmm alu andFlags site callee true
    (s := { cpu := callee entry, entered := s.entered ++ [entry] }) (fun _ => hrsp₃.symm ▸ hal₂) hvalue
  -- the old stack pointer
  have hback : (callee entry).reg .rsp + slotDisp regs.length = top := by rw [hrsp₃, hrsp₂, BitVec.sub_add_cancel]
  have hdisp : (slotDisp regs.length).toNat = 16 * regs.length := by
    unfold slotDisp
    bv_omega
  have hold : (callee entry).mem.read (top + 8) = rsp := by
    rw [hmem₃.read_eq fun b hb hnot => hnot ?_, hmem₂.read_eq ?_, hsaved₁]
    · bv_omega
    · unfold InWord at hb
      bv_omega
  simp only [hback] at hrun₄
  have hrun := (runStub_append alu andFlags site callee ((runStub_append alu andFlags site callee
    ((runStub_append alu andFlags site callee ((runStub_append alu andFlags site callee hrun₁).trans hrun₂)).trans
      hrun₃)).trans hrun₄)).trans (runStub_instrs alu andFlags site callee [.load .rsp .rsp 8] _)
  refine ⟨entry, _, hrun, rfl, hentryAl, fun r hr => ?_, ?_, ?_, fun r hr => ?_, hsaved₄, hother₄, fun b hb => ?_⟩
  · have hpush : entry.reg r = t₂.reg r := by simp [hentry, hr]
    exact hpush.trans ((hreg₂ r hr).trans (hreg₁ r hr))
  · rw [hentry]
  · simpa [StubState.setState, exec, hrsp] using hold
  · simp [StubState.setState, exec, hr]
  · -- the frame is above the words that the stub pushes from here on
    have hfar : (b - base).toNat < 416 ∧ ¬ Below top (16 * regs.length) b ∧ ¬ Below rsp 16 b := by
      rw [hrsp] at hb
      unfold Below
      rcases hrsp₁ with h | h <;> bv_omega
    change (callee entry).mem b = s.cpu.mem b
    rw [hmem₃ b (not_not.mpr hfar.1), hmem₂ b hfar.2.1, hmem₁ b hfar.2.2]

/-! ## The whole stub -/

def saveFlags (kernel : Bool) : List Machine.Instr := [.pushf] ++ if kernel then [.cli] else []

theorem stub_eq (constraint : ExitConstraint) :
    stub kernel constraint dead =
      (saveFlags kernel ++ (zombies dead).map Instr.push).map .instr ++
        alignedCall constraint (if kernel then [] else xmmZombies dead) ++
        ((zombies dead).reverse.map Instr.pop ++ [Instr.popf]).map .instr ++ [.ret] := by
  cases kernel <;> simp [stub, saveFlags, Function.comp_def]

section Frame

variable (kernel : Bool) (returnAddr : Word) (regs : List Reg) (s : State)

structure FlagsSaved (returnAddr : Word) (s t : State) : Prop where
  rsp : t.reg .rsp = s.reg .rsp - 16
  reg : ∀ r, r ≠ .rsp → t.reg r = s.reg r
  flags : t.mem.read (s.reg .rsp - 16) = s.flags
  ret : t.mem.read (s.reg .rsp - 8) = returnAddr

theorem run_saveFlags : FlagsSaved returnAddr s (run alu (saveFlags kernel) (s.push returnAddr)) := by
  have hsub : s.reg .rsp - 8 - 8 = s.reg .rsp - 16 := by bv_omega
  have hmem : (run alu (saveFlags kernel) (s.push returnAddr)).mem =
      (s.mem.write (s.reg .rsp - 8) returnAddr).write (s.reg .rsp - 16) s.flags := by
    rw [← hsub]
    cases kernel <;> simp [saveFlags, exec]
  refine ⟨?_, fun r hr => ?_, ?_, ?_⟩
  · rw [← hsub]
    cases kernel <;> simp [saveFlags, exec]
  · cases kernel <;> simp [saveFlags, exec, hr]
  · rw [hmem, read_write_self]
  · rw [hmem, (only_write).read_eq fun b hb => ?_, read_write_self]
    unfold InWord at hb ⊢
    bv_omega

theorem run_prologue :
    let t := run alu (saveFlags kernel ++ regs.map .push) (s.push returnAddr)
    t.reg .rsp = s.reg .rsp - 16 - BitVec.ofNat 64 (8 * regs.length) ∧ ∀ r, r ≠ .rsp → t.reg r = s.reg r := by
  have hflags := run_saveFlags alu kernel returnAddr s
  have hpushed := run_push alu regs (run alu (saveFlags kernel) (s.push returnAddr))
  rw [run_append]
  exact ⟨hpushed.rsp.trans (by rw [hflags.rsp]), fun r hr => (hpushed.reg r hr).trans (hflags.reg r hr)⟩

/-- The stub has returned to its caller, and has restored the flags and the registers that it pushed. -/
structure Restored (regs : List Reg) (returnAddr : Word) (s v w : State) : Prop where
  rsp : w.reg .rsp = s.reg .rsp
  rip : w.rip = returnAddr
  flags : w.flags = s.flags
  saved : ∀ r ∈ regs, w.reg r = s.reg r
  other : ∀ r, r ≠ .rsp → r ∉ regs → w.reg r = v.reg r

variable {regs} in
theorem run_epilogue (hregs : .rsp ∉ regs) (hlen : regs.length ≤ 15) (v : State)
    (hrsp : v.reg .rsp = (run alu (saveFlags kernel ++ regs.map .push) (s.push returnAddr)).reg .rsp)
    (hmem : ∀ b, (b - v.reg .rsp).toNat < 136 →
      v.mem b = (run alu (saveFlags kernel ++ regs.map .push) (s.push returnAddr)).mem b) :
    Restored regs returnAddr s v ((run alu (regs.reverse.map .pop ++ [.popf]) v).ret 0) := by
  have hrsp' := hrsp.trans (run_prologue alu kernel returnAddr regs s).1
  obtain ⟨hrsp₁, hreg₁, hflags₁, hret₁⟩ := run_saveFlags alu kernel returnAddr s
  rw [run_append] at hrsp hmem
  generalize run alu (saveFlags kernel) (s.push returnAddr) = s₁ at hrsp hmem hrsp₁ hreg₁ hflags₁ hret₁
  have hpushed := (run_push alu regs s₁).mem
  rw [hrsp₁] at hpushed
  obtain ⟨hrsp₂, hsaved₂, hother₂, hmem₂⟩ := run_pop alu hregs (by omega) hrsp fun b hb => hmem b (by
    rw [hrsp₁] at hb
    unfold Below at hb
    bv_omega)
  generalize run alu (regs.map .push) s₁ = pushed at hmem hpushed
  -- the flags and the return address are above what was pushed
  have hread : ∀ a, a = s.reg .rsp - 16 ∨ a = s.reg .rsp - 8 → v.mem.read a = s₁.mem.read a := by
    intro a ha
    have hv : v.mem.read a = pushed.mem.read a := by
      refine Only.read_eq (P := fun b => ¬ (b - v.reg .rsp).toNat < 136) (fun b hb => hmem b (not_not.mp hb))
        fun b hb hnot => hnot ?_
      unfold InWord at hb
      bv_omega
    rw [hv, hpushed.read_eq (by bv_omega)]
  rw [run_append]
  generalize run alu (regs.reverse.map .pop) v = w at hrsp₂ hsaved₂ hother₂ hmem₂
  rw [hrsp₁] at hrsp₂
  have hlast : ∀ r, r ≠ .rsp → ((run alu [.popf] w).ret 0).reg r = w.reg r := by
    intro r hr
    simp [exec, State.ret, hr]
  refine ⟨?_, ?_, ?_, fun r hr => ?_, fun r hr hnot => ?_⟩
  · have hend : ((run alu [.popf] w).ret 0).reg .rsp = s.reg .rsp - 16 + 8 + (8 + 0) := by
      simp [exec, State.ret, hrsp₂]
    rw [hend]
    bv_omega
  · calc w.mem.read ((w.drop 8).reg .rsp) = v.mem.read (s.reg .rsp - 8) := by
          rw [drop_reg, if_pos rfl, hrsp₂, hmem₂]
          exact congrArg _ (by bv_omega)
      _ = returnAddr := (hread _ (.inr rfl)).trans hret₁
  · calc w.mem.read (w.reg .rsp) = v.mem.read (s.reg .rsp - 16) := by rw [hrsp₂, hmem₂]
      _ = s.flags := (hread _ (.inl rfl)).trans hflags₁
  · have hne : r ≠ .rsp := fun h => hregs (h ▸ hr)
    exact (hlast r hne).trans ((hsaved₂ r hr).trans (hreg₁ r hne))
  · exact (hlast r hr).trans (hother₂ r hnot hr)

end Frame

/-- The call of the stub is over: the state in which the function was entered, and what became of the registers. -/
structure StubReturned (callee : SseState → SseState) (dead : RegisterManager) (regs : List (Fin 16)) (returnAddr : Word)
    (entry s : SseState) (s' : StubState) : Prop where
  entered : s'.entered = [entry]
  aligned : EntryAligned entry
  entry_reg : ∀ r, r ≠ .rsp → entry.reg r = s.reg r
  entry_xmm : entry.xmm = s.xmm
  rip : s'.cpu.rip = returnAddr
  rsp : s'.cpu.reg .rsp = s.reg .rsp
  flags : s'.cpu.flags = s.flags
  saved : ∀ r, dead.live r = false → s'.cpu.reg r = s.reg r
  other : ∀ r, r ≠ .rsp → dead.live r = true → s'.cpu.reg r = (callee entry).reg r
  savedXmm : ∀ x ∈ regs, s'.cpu.xmm x = s.xmm x
  otherXmm : ∀ x, x ∉ regs → s'.cpu.xmm x = (callee entry).xmm x

variable {callee} in
theorem callStub_stub {clobbers : Clobbers} (hcallee : ConformsAbi clobbers callee) (kernel : Bool)
    (hlive : dead.live .rsp = true) (returnAddr : Word) {s : SseState} (h8 : (s.reg .rsp).toNat % 8 = 0) :
    ∃ entry s', callStub alu andFlags site callee (stub kernel .abiCompatible dead) returnAddr s = some s' ∧
      StubReturned callee dead (if kernel then [] else xmmZombies dead) returnAddr entry s s' := by
  have hlen := length_zombies hlive
  have hzombies : Reg.rsp ∉ zombies dead := by
    rw [mem_zombies, hlive]
    decide
  have hxmm : (if kernel then [] else xmmZombies dead).length ≤ 16 := by
    cases kernel
    · exact length_xmmZombies
    · exact Nat.zero_le _
  have hprologue := runStub_instrs alu andFlags site callee (saveFlags kernel ++ (zombies dead).map .push)
    { cpu := ⟨s.push returnAddr, s.xmm⟩, entered := [] }
  have hstart := run_prologue alu kernel returnAddr (zombies dead) s.toState
  have hepilogue := run_epilogue alu kernel returnAddr s.toState hzombies hlen
  generalize run alu (saveFlags kernel ++ (zombies dead).map .push) (s.push returnAddr) = t at hprologue hstart hepilogue
  obtain ⟨entry, s₃, hcall, hcalled⟩ := runStub_alignedCall alu andFlags site hcallee hxmm
    (s := { cpu := ⟨t, s.xmm⟩, entered := [] }) (by
      change (t.reg .rsp).toNat % 8 = 0
      rw [hstart.1]
      bv_omega)
  obtain ⟨hrsp, hrip, hflags, hsaved, hother⟩ := hepilogue _ hcalled.rsp fun b hb => hcalled.mem b (hcalled.rsp ▸ hb)
  have hrun : callStub alu andFlags site callee (stub kernel .abiCompatible dead) returnAddr s =
      some (s₃.setState ((run alu ((zombies dead).reverse.map .pop ++ [.popf]) s₃.cpu.toState).ret 0)) := by
    rw [callStub, stub_eq]
    refine (runStub_append alu andFlags site callee ((runStub_append alu andFlags site callee
      ((runStub_append alu andFlags site callee hprologue).trans hcall)).trans
      (runStub_instrs alu andFlags site callee _ s₃))).trans ?_
    rw [runStub_singleton]
    rfl
  generalize run alu ((zombies dead).reverse.map .pop ++ [.popf]) s₃.cpu.toState = w at hrun hrsp hrip hflags hsaved hother
  refine ⟨entry, s₃.setState (w.ret 0), hrun, hcalled.entered, hcalled.aligned, ?_, hcalled.entry_xmm, hrip, hrsp, hflags,
    fun r hr => hsaved r (mem_zombies.mpr hr), fun r hr hr' => ?_, hcalled.savedXmm,
    hcalled.otherXmm⟩
  · exact fun r hr => (hcalled.entry_reg r hr).trans (hstart.2 r hr)
  · have hnot : r ∉ zombies dead := by
      rw [mem_zombies, hr']
      decide
    exact (hother r hr hnot).trans (hcalled.reg r hr)

end Run

/-! ## Clean calls -/

variable {kernel : Bool} {clobbers : Clobbers} {callee : SseState → SseState} {returnAddr : Word}
  {entry s : SseState} {s' : StubState}

theorem StubReturned.clean (h : StubReturned callee dead (if kernel then [] else xmmZombies dead) returnAddr entry s s')
    (hcallee : ConformsAbi clobbers callee) (hsaves : Saves used numArgs dead)
    (hrax : clobbers.gpr .rax → used.live .rax = false)
    (hxmm : kernel = false → ∀ x, clobbers.xmm x → used.liveXmm x = false) : Clean kernel numArgs returnAddr s s' := by
  have hret := hcallee entry h.aligned
  refine ⟨⟨entry, h.entered, h.aligned⟩, h.rip, fun r harg => ?_, fun hk => funext fun x => ?_, by rw [h.flags]⟩
  · by_cases hrsp : r = .rsp
    · rw [hrsp, h.rsp]
    cases hlive : dead.live r with
    | false => exact h.saved r hlive
    | true =>
      rw [h.other r hrsp hlive, ← h.entry_reg r hrsp]
      rcases hsaves.arg r hrsp harg hlive with hsaved | rfl
      · exact hret.saved r hsaved
      · refine hret.gpr .rax hrsp fun hclob => ?_
        exact Bool.false_ne_true ((hrax hclob).symm.trans (hsaves.rax.symm.trans hlive))
  · subst hk
    rw [if_neg Bool.false_ne_true] at h
    by_cases hx : x ∈ xmmZombies dead
    · exact h.savedXmm x hx
    · rw [h.otherXmm x hx, ← h.entry_xmm]
      refine hret.xmm x fun hclob => hx (mem_xmmZombies.mpr ?_)
      rw [hsaves.xmm, hxmm rfl x hclob]

def complement (gprs : List Reg) (xmms : List (Fin 16)) (s : SseState) : SseState where
  __ := s
  reg r := if r ∈ gprs then ~~~ s.reg r else (s.ret 0).reg r
  rip := s.top
  xmm x := if x ∈ xmms then ~~~ s.xmm x else s.xmm x

theorem conformsAbi_complement (hgprs : ∀ r ∈ gprs, clobbers.gpr r ∧ r ≠ .rsp ∧ r ∉ calleeSaved)
    (hxmms : ∀ x ∈ xmms, clobbers.xmm x) :
    ConformsAbi clobbers (complement gprs xmms) := by
  intro s _
  have hret : ∀ r, r ≠ .rsp → (s.ret 0).reg r = s.reg r := by
    intro r hr
    simp [State.ret, hr]
  refine ⟨?_, rfl, fun r hr => ?_, fun r hr hnot => ?_, fun x hnot => ?_, fun _ _ => rfl⟩
  · refine (if_neg fun h => (hgprs _ h).2.1 rfl).trans ?_
    simp [State.ret]
  · have hne : r ≠ .rsp := by
      rintro rfl
      revert hr
      decide
    exact (if_neg fun h => (hgprs r h).2.2 hr).trans (hret r hne)
  · exact (if_neg fun h => hnot (hgprs r h).1).trans (hret r hr)
  · exact if_neg fun h => hnot (hxmms x h)

theorem not_eq_self {w : Nat} (hw : 0 < w) (v : BitVec w) : ~~~ v ≠ v := by
  intro h
  have hbit := congrArg (BitVec.getLsbD · 0) h
  simp [hw] at hbit

theorem allClean_stub (hsaves : Saves used numArgs dead) (hrax : clobbers.gpr .rax → used.live .rax = false)
    (hxmm : kernel = false → ∀ x, clobbers.xmm x → used.liveXmm x = false) :
    AllClean kernel numArgs clobbers (stub kernel .abiCompatible dead) := by
  intro alu andFlags site callee hcallee returnAddr s h8
  obtain ⟨entry, s', hrun, hret⟩ := callStub_stub alu andFlags site hcallee kernel hsaves.rsp returnAddr h8
  exact ⟨s', hrun, hret.clean hcallee hsaves hrax hxmm⟩

section

variable (h : AllClean kernel numArgs clobbers (stub kernel .abiCompatible dead)) (hsaves : Saves used numArgs dead)

include h hsaves

theorem AllClean.complement (hcallee : ConformsAbi clobbers (complement gprs xmms)) :
    ∃ entry s s', StubReturned (CleanCall.complement gprs xmms) dead (if kernel then [] else xmmZombies dead) 0 entry s s' ∧
      Clean kernel numArgs 0 s s' := by
  have h8 : ((0 : Word)).toNat % 8 = 0 := rfl
  obtain ⟨s', hrun, hclean⟩ := h (fun _ _ => 0) (fun _ => 0) 0 _ hcallee 0
    ⟨{ reg := fun _ => 0, flags := 0, rip := 0, mem := fun _ => 0 }, fun _ => 0⟩ h8
  obtain ⟨entry, s'', hrun', hret⟩ := callStub_stub (fun _ _ => 0) (fun _ => 0) 0 hcallee kernel hsaves.rsp 0
    (s := ⟨{ reg := fun _ => 0, flags := 0, rip := 0, mem := fun _ => 0 }, fun _ => 0⟩) h8
  obtain rfl : s'' = s' := Option.some.inj (hrun'.symm.trans hrun)
  exact ⟨entry, _, s'', hret, hclean⟩

theorem AllClean.rax (hclob : clobbers.gpr .rax) : used.live .rax = false := by
  rw [← hsaves.rax, ← Bool.not_eq_true]
  intro hlive
  have hcallee : ConformsAbi clobbers (CleanCall.complement [.rax] []) :=
    conformsAbi_complement (by simp [hclob, calleeSaved]) (by simp)
  obtain ⟨entry, s, s', hret, hclean⟩ := h.complement hsaves hcallee
  have hnotArg : .rax ∉ argumentRegisters.take numArgs := fun hm =>
    absurd (List.mem_of_mem_take hm) (by decide)
  have hsame : ~~~ entry.reg .rax = entry.reg .rax := by
    calc ~~~ entry.reg .rax = s'.cpu.reg .rax := (hret.other .rax (by decide) hlive).symm
      _ = s.reg .rax := hclean.gpr .rax hnotArg
      _ = entry.reg .rax := (hret.entry_reg .rax (by decide)).symm
  exact not_eq_self (by decide) _ hsame

end

theorem AllClean.xmm (h : AllClean false numArgs clobbers (stub false .abiCompatible dead))
    (hsaves : Saves used numArgs dead) (hclob : clobbers.xmm x) : used.liveXmm x = false := by
  rw [← hsaves.xmm, ← mem_xmmZombies]
  by_contra hlive
  have hcallee : ConformsAbi clobbers (CleanCall.complement [] [x]) :=
    conformsAbi_complement (by simp) (by simp [hclob])
  obtain ⟨entry, s, s', hret, hclean⟩ := h.complement hsaves hcallee
  rw [if_neg Bool.false_ne_true] at hret
  have hsame : ~~~ entry.xmm x = entry.xmm x := by
    calc ~~~ entry.xmm x = (CleanCall.complement [] [x] entry).xmm x := (if_pos List.mem_cons_self).symm
      _ = s'.cpu.xmm x := (hret.otherXmm x hlive).symm
      _ = entry.xmm x := by rw [hclean.xmm rfl, hret.entry_xmm]
  exact not_eq_self (by decide) _ hsame

theorem generateCleanCallableAddress_eq {fuel : Nat}
    (hused : Registers.findUsedRegsInFunc body.code .ignoreCalls fuel body.entry = some used) :
    generateCleanCallableAddress kernel body.code fuel body.entry numArgs .abiCompatible =
      (deadRegs used .abiCompatible numArgs).map (stub kernel .abiCompatible) := by
  rw [generateCleanCallableAddress, if_pos rfl, hused]
  exact bind_pure_comp (m := Option) ..

theorem cleanCalls_iff_finds (hfinds : body.Finds .ignoreCalls used) :
    CleanCalls kernel body numArgs clobbers ↔
      numArgs ≤ 5 ∧ (clobbers.gpr .rax → used.live .rax = false) ∧
        (kernel = false → ∀ x, clobbers.xmm x → used.liveXmm x = false) := by
  obtain ⟨used', n, hused, hfinds'⟩ := body.exists_finds .ignoreCalls
  obtain rfl := hfinds.unique hfinds'
  constructor
  · rintro ⟨n', h⟩
    obtain ⟨code, hcode, hclean⟩ := h (max n n') (Nat.le_max_right ..)
    rw [generateCleanCallableAddress_eq (hused _ (Nat.le_max_left ..))] at hcode
    have hargs : numArgs ≤ 5 := by
      by_contra hgt
      rw [deadRegs_eq_none (Nat.lt_of_not_le hgt)] at hcode
      cases hcode
    obtain ⟨dead, hdead, hsaves⟩ := deadRegs_eq_some hargs hfinds.rsp
    rw [hdead] at hcode
    obtain rfl := Option.some.inj hcode
    refine ⟨hargs, hclean.rax hsaves, fun hk x hclob => ?_⟩
    subst hk
    exact hclean.xmm hsaves hclob
  · rintro ⟨hargs, hrax, hxmm⟩
    obtain ⟨dead, hdead, hsaves⟩ := deadRegs_eq_some hargs hfinds.rsp
    refine ⟨n, fun fuel hfuel => ⟨stub kernel .abiCompatible dead, ?_, allClean_stub hsaves hrax hxmm⟩⟩
    rw [generateCleanCallableAddress_eq (hused fuel hfuel), hdead]
    rfl

end CleanCall

end Granary.Gencode
