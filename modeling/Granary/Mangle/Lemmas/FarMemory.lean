import Granary.Mangle.FarMemory
import Granary.Registers.Lemmas.Zombies

/-!
# Far pushes and pops

The registers that are chosen, and what the code does with them.
-/

namespace Granary.Mangle

open Machine
open Registers hiding exec Instr

variable {alu : Instr → State → Word} {shape next : Shape} {addr : Word} {r q : Reg} {s : State}
variable {code : List Instr} {rsp : Word}

/-! ## Registers -/

theorem dead_iff (hcti : shape.opcode ≠ .cti) :
    (((RegisterManager.reviveAll.visit (next.plain : Registers.Instr Unit)).visit (shape.plain : Registers.Instr Unit)).live r =
      false ∧ false = false) ↔ shape.DeadBefore next r := by
  rw [and_iff_left rfl, Shape.visit_live_eq_false_iff hcti, Shape.kills_iff, Shape.DeadBefore]

theorem deadReg_eq_some_iff (hcti : shape.opcode ≠ .cti) : deadReg shape next = some r ↔ First (shape.DeadBefore next) r := by
  rw [deadReg, RegisterManager.getZombie_eq_some_iff]
  exact First.congr fun q => dead_iff hcti

theorem deadReg_eq_none_iff (hcti : shape.opcode ≠ .cti) : deadReg shape next = none ↔ ∀ r, ¬ shape.DeadBefore next r := by
  rw [deadReg, RegisterManager.getZombie_eq_none_iff]
  exact forall_congr' fun q => not_congr (dead_iff hcti)

theorem spillManager_dead {dead : Option Reg} (hq : q ≠ .rsp) (h : ¬ shape.Mentions q) :
    (spillManager shape dead).live q = false := by
  rw [spillManager, RegisterManager.kill_live hq, Bool.and_eq_false_iff]
  left
  by_cases hnop : shape.opcode = .nop
  · simp [RegisterManager.reviveInstr, hnop, RegisterManager.killAll, forceLive, hq]
  · have hmentions : (shape.dsts ++ shape.srcs).any (·.mentions q) = false :=
      List.any_eq_false.mpr fun op hop hm => h ⟨hnop, op, hop, hm⟩
    rw [RegisterManager.reviveInstr_live _ hnop, Shape.plain_dsts, Shape.plain_srcs, hmentions]
    simp [RegisterManager.killAll, forceLive, hq]

structure StackOnly (shape : Shape) : Prop where
  opcode : shape.opcode = .other
  kills : ∀ r, ¬ shape.Kills r
  revives : ∀ r, shape.Revives r → r = .rsp
  mentions : ∀ r, shape.Mentions r → r = .rsp

theorem stackOnly_pushShape : StackOnly pushShape where
  opcode := rfl
  kills r h := h.ne_rsp (by simpa [pushShape] using h.2.1)
  revives r h := by
    cases r with
    | rsp => rfl
    | _ => simp [Shape.Revives, pushShape, ReadsGpr, Operand.mentions, Operand.addresses, RegId.names, repRegs] at h
  mentions r h := by
    cases r with
    | rsp => rfl
    | _ => simp [Shape.Mentions, pushShape, Operand.mentions, Operand.addresses, RegId.names] at h

theorem stackOnly_popShape : StackOnly popShape where
  opcode := rfl
  kills r h := h.ne_rsp (by simpa [popShape] using h.2.1)
  revives r h := by
    cases r with
    | rsp => rfl
    | _ => simp [Shape.Revives, popShape, ReadsGpr, Operand.mentions, Operand.addresses, RegId.names, repRegs] at h
  mentions r h := by
    cases r with
    | rsp => rfl
    | _ => simp [Shape.Mentions, popShape, Operand.mentions, Operand.addresses, RegId.names] at h

theorem StackOnly.farRegs (h : StackOnly shape) (next : Shape) :
    (∃ r, First next.Kills r ∧ Mangle.farRegs shape next = ⟨true, some r, some .rax⟩) ∨
      (∀ r, ¬ next.Kills r) ∧ Mangle.farRegs shape next = ⟨false, some .rcx, some .rax⟩ := by
  have hcti : shape.opcode ≠ .cti := by simp [h.opcode]
  have hdead : ∀ r, shape.DeadBefore next r ↔ next.Kills r := by
    intro r
    rw [Shape.DeadBefore, or_iff_right (h.kills r), and_iff_left_iff_imp]
    exact fun hk hr => hk.ne_rsp (h.revives r hr)
  have hspill : ∀ dead q, q ≠ .rsp → (spillManager shape dead).live q = false := by
    intro dead q hq
    exact spillManager_dead hq fun hm => hq (h.mentions q hm)
  have hrax : ∀ dead, (spillManager shape dead).getZombie (fun _ => false) = (some .rax, fun q => decide (q = .rax)) := by
    intro dead
    have hfirst : First (fun q => (spillManager shape dead).live q = false ∧ (fun _ => false) q = false) .rax :=
      ⟨⟨hspill dead .rax (by decide), rfl⟩, [], _, rfl, by simp⟩
    simpa using RegisterManager.getZombie_of_first hfirst
  cases hd : deadReg shape next with
  | some r =>
    refine .inl ⟨r, (First.congr hdead).mp ((deadReg_eq_some_iff hcti).mp hd), ?_⟩
    simp [Mangle.farRegs, hd, hrax]
  | none =>
    have hrcx : ((spillManager shape none).getZombie fun q => decide (q = .rax)).1 = some .rcx :=
      RegisterManager.getZombie_eq_some_iff.mpr ⟨⟨hspill none .rcx (by decide), rfl⟩, [.rax], _, rfl, by simp⟩
    refine .inr ⟨fun r hk => (deadReg_eq_none_iff hcti).mp hd r ((hdead r).mpr hk), ?_⟩
    simp [Mangle.farRegs, hd, hrax, hrcx]

/-! ## `push` -/

theorem farPushed_dead_iff (hr : r ≠ .rsp) :
    FarPushed next addr s (run alu [.movImm r addr, .pushMem r 0] s) ↔ (next.Needs r → s.reg r = addr) := by
  have hr' : Reg.rsp ≠ r := Ne.symm hr
  constructor
  · intro h hneeds
    simpa [exec, hr] using (h.live r hr hneeds).symm
  · intro h
    refine ⟨by simp [exec, hr'], by simp [exec], fun q hq hneeds => ?_, by simp [exec], ?_⟩
    · by_cases hqr : q = r
      · subst hqr
        simp [exec, hq, h hneeds]
      · simp [exec, hq, hqr]
    · simpa [exec, hr'] using (frame_write (s.reg .rsp) s.mem (s.mem.read addr)).mono (show 8 ≤ 16 by decide)

def spillPush (r : Reg) (addr : Word) : List Instr :=
  [.lea .rsp .rsp (-8), .push r, .movImm r addr, .load r r 0, .store .rsp 8 r, .pop r]

theorem exec_lea_sub : exec alu (.lea .rsp .rsp (-8)) s = s.set .rsp (s.reg .rsp - 8) := by
  rw [exec, BitVec.sub_eq_add_neg]

theorem spillPush_mem (hr : r ≠ .rsp) : (run alu (spillPush r addr) s).mem =
    (s.mem.write (s.reg .rsp - 8 - 8) (s.reg r)).write (s.reg .rsp - 8)
      ((s.mem.write (s.reg .rsp - 8 - 8) (s.reg r)).read addr) := by
  rw [spillPush, run_cons, exec_lea_sub]
  simp [exec, hr, Ne.symm hr]

theorem spillPush_reg (hr : r ≠ .rsp) (hq : q ≠ .rsp) : (run alu (spillPush r addr) s).reg q = s.reg q := by
  rw [spillPush, run_cons, exec_lea_sub]
  by_cases hqr : q = r
  · simp [exec, State.top, hqr, hr, Ne.symm hr, read_sub_write]
  · simp [exec, hqr, hq]

theorem spillPush_rsp (hr : r ≠ .rsp) : (run alu (spillPush r addr) s).reg .rsp = s.reg .rsp - 8 := by
  rw [spillPush, run_cons, exec_lea_sub]
  simp [exec, Ne.symm hr]

theorem farPushed_spill_iff (hr : r ≠ .rsp) :
    FarPushed next addr s (run alu (spillPush r addr) s) ↔
      (s.mem.write (s.reg .rsp - 8 - 8) (s.reg r)).read addr = s.mem.read addr := by
  have htop : (run alu (spillPush r addr) s).top = (s.mem.write (s.reg .rsp - 8 - 8) (s.reg r)).read addr := by
    rw [State.top, spillPush_rsp hr, spillPush_mem hr, read_write_self]
  constructor
  · intro h
    rw [← htop, h.value]
  · intro h
    have hsaved : Frame (s.reg .rsp) 16 s.mem (s.mem.write (s.reg .rsp - 8 - 8) (s.reg r)) :=
      (frame_write (s.reg .rsp - 8) s.mem (s.reg r)).lower (show (8 : Word).toNat + 8 ≤ 16 by decide)
    refine ⟨spillPush_rsp hr, htop.trans h, fun q hq _ => spillPush_reg hr hq, rfl, ?_⟩
    rw [spillPush_mem hr]
    exact hsaved.trans ((frame_write (s.reg .rsp) _ _).mono (show 8 ≤ 16 by decide))

def stackState (rsp v : Word) (m : Memory) : State :=
  { reg := fun q => if q = .rsp then rsp else v, flags := 2, rip := 0, mem := m }

@[simp] theorem stackState_rsp (v : Word) (m : Memory) : (stackState rsp v m).reg .rsp = rsp := rfl
@[simp] theorem stackState_mem (v : Word) (m : Memory) : (stackState rsp v m).mem = m := rfl

theorem stackState_reg (v : Word) (m : Memory) (hr : r ≠ .rsp) : (stackState rsp v m).reg r = v := if_neg hr

theorem farPushes_iff_of_code (h : mangleFarMemoryPush (farRegs pushShape next) addr = some code) :
    FarPushes alu next 0 addr s ↔ FarPushed next addr s (run alu code s) := by
  simp [FarPushes, h]

theorem farPushes_dead_iff (hkills : next.Kills r) (hregs : farRegs pushShape next = ⟨true, some r, some .rax⟩) :
    (∀ s : State, s.reg .rsp = rsp → FarPushes alu next 0 addr s) ↔ next.always r = true := by
  have hcode : mangleFarMemoryPush (farRegs pushShape next) addr = some [.movImm r addr, .pushMem r 0] := by
    simp [hregs, mangleFarMemoryPush]
  simp only [farPushes_iff_of_code hcode, farPushed_dead_iff hkills.ne_rsp]
  constructor
  · intro h
    by_contra halways
    have hreg := h (stackState rsp (addr + 1) fun _ => 0) rfl fun hneeds => halways hneeds.2
    rw [stackState_reg _ _ hkills.ne_rsp] at hreg
    bv_omega
  · intro halways s _ hneeds
    exact absurd ⟨hkills, halways⟩ hneeds

theorem farPushes_spill_iff (hregs : farRegs pushShape next = ⟨false, some .rcx, some .rax⟩) :
    (∀ s : State, s.reg .rsp = rsp → FarPushes alu next 0 addr s) ↔ WordsApart addr (rsp - 16) := by
  have hcode : mangleFarMemoryPush (farRegs pushShape next) addr = some (spillPush .rax addr) := by
    simp [hregs, mangleFarMemoryPush, spillPush]
  have hslot : rsp - 8 - 8 = rsp - 16 := by bv_omega
  simp only [farPushes_iff_of_code hcode, farPushed_spill_iff (show Reg.rax ≠ .rsp by decide)]
  constructor
  · intro h
    by_contra hoverlap
    have hread := h (stackState rsp (BitVec.allOnes 64) fun _ => 0) rfl
    rw [stackState_rsp, stackState_mem, stackState_reg _ _ (by decide), hslot] at hread
    exact read_write_overlap hoverlap (hread.trans (by simp [Memory.read]))
  · intro hapart s hrsp
    rw [hrsp, hslot, hapart.read_write]

/-! ## `pop` -/

section Pop

def deadPop (v a : Reg) (addr : Word) : List Instr := [.pop v, .push a, .movImm a addr, .store a 0 v, .pop a]

def spillPop (v a : Reg) (addr : Word) : List Instr :=
  [.push v, .push a, .movImm a addr, .load v .rsp 16, .store a 0 v, .lea .rsp .rsp 8, .pop v, .pop a]

variable {v a : Reg}

theorem deadPop_mem (hv : v ≠ .rsp) (ha : a ≠ .rsp) (hva : v ≠ a) : (run alu (deadPop v a addr) s).mem =
    (s.mem.write (s.reg .rsp) (s.reg a)).write addr s.top := by
  simp [deadPop, exec, hv, ha, hva, Ne.symm hv, Ne.symm hva]

theorem deadPop_reg (hq : q ≠ .rsp) (hqv : q ≠ v) (hqa : q ≠ a) : (run alu (deadPop v a addr) s).reg q = s.reg q := by
  simp [deadPop, exec, hq, hqv, hqa]

theorem deadPop_rsp (hv : v ≠ .rsp) (ha : a ≠ .rsp) : (run alu (deadPop v a addr) s).reg .rsp = s.reg .rsp + 8 := by
  simp [deadPop, exec, Ne.symm hv, Ne.symm ha]

theorem deadPop_value (hv : v ≠ .rsp) (hva : v ≠ a) : (run alu (deadPop v a addr) s).reg v = s.top := by
  simp [deadPop, exec, hv, hva]

theorem deadPop_spilled (hv : v ≠ .rsp) (ha : a ≠ .rsp) (hva : v ≠ a) : (run alu (deadPop v a addr) s).reg a =
    ((s.mem.write (s.reg .rsp) (s.reg a)).write addr s.top).read (s.reg .rsp) := by
  simp [deadPop, exec, State.top, hv, ha, hva, Ne.symm hv, Ne.symm ha, Ne.symm hva]

theorem farPopped_dead_iff (hv : v ≠ .rsp) (ha : a ≠ .rsp) (hva : v ≠ a) :
    FarPopped next addr s (run alu (deadPop v a addr) s) ↔ (next.Needs v → s.reg v = s.top) ∧
      (next.Needs a → ((s.mem.write (s.reg .rsp) (s.reg a)).write addr s.top).read (s.reg .rsp) = s.reg a) := by
  constructor
  · intro h
    refine ⟨fun hneeds => ?_, fun hneeds => ?_⟩
    · rw [← h.live v hv hneeds, deadPop_value hv hva]
    · rw [← deadPop_spilled hv ha hva, h.live a ha hneeds]
  · rintro ⟨hvalue, hspilled⟩
    refine ⟨deadPop_rsp hv ha, ?_, fun q hq hneeds => ?_, rfl, ?_⟩
    · rw [deadPop_mem hv ha hva, read_write_self]
    · by_cases hqv : q = v
      · subst hqv
        rw [deadPop_value hv hva, hvalue hneeds]
      · by_cases hqa : q = a
        · subst hqa
          rw [deadPop_spilled hv ha hva, hspilled hneeds]
        · exact deadPop_reg hq hqv hqa
    · have hslot : ∀ b, InWord (s.reg .rsp) b → InWord addr b ∨ Below (s.reg .rsp + 8) 24 b := by
        intro b hb
        right
        unfold InWord at hb
        unfold Below
        bv_omega
      rw [deadPop_mem hv ha hva]
      exact ((only_write).mono hslot).trans ((only_write).mono fun b => .inl)

theorem deadPop_same (ha : a ≠ .rsp) : (run alu (deadPop a a addr) s).mem.read addr = addr := by
  simp [deadPop, exec, Ne.symm ha]

theorem spillPop_reg (hv : v ≠ .rsp) (ha : a ≠ .rsp) (hva : v ≠ a) : (run alu (spillPop v a addr) s).reg a =
    (s.mem.write addr s.top).read (s.reg .rsp) := by
  have hload : (s.reg .rsp - 8#64 - 8#64 + 16#64 : Word) = s.reg .rsp := by bv_omega
  have hsaved : Frame (s.reg .rsp) 16 s.mem ((s.mem.write (s.reg .rsp - 8) (s.reg v)).write (s.reg .rsp - 8 - 8) (s.reg a)) :=
    (frame_write (s.reg .rsp - 8) _ (s.reg a)).push (show 8 + 8 ≤ 16 by decide)
  have htop : ((s.mem.write (s.reg .rsp - 8) (s.reg v)).write (s.reg .rsp - 8 - 8) (s.reg a)).read (s.reg .rsp) = s.top :=
    hsaved.read_eq (by bv_omega)
  have hread := Frame.read_eq (hsaved.write addr s.top) (show (s.reg .rsp - s.reg .rsp).toNat + 8 + 16 ≤ 2 ^ 64 by bv_omega)
  rw [← hread, ← htop]
  simp [spillPop, exec, State.top, ha, Ne.symm hv, Ne.symm ha, Ne.symm hva, hload]

theorem farPops_iff_of_code (h : mangleFarMemoryPop (farRegs popShape next) addr = some code) :
    FarPops alu next 0 addr s ↔ FarPopped next addr s (run alu code s) := by
  simp [FarPops, h]

theorem not_farPops_rax (hregs : farRegs popShape next = ⟨true, some .rax, some .rax⟩) :
    ¬ ∀ s : State, s.reg .rsp = rsp → FarPops alu next 0 addr s := by
  have hcode : mangleFarMemoryPop (farRegs popShape next) addr = some (deadPop .rax .rax addr) := by
    simp [hregs, mangleFarMemoryPop, deadPop]
  intro h
  have hvalue := ((farPops_iff_of_code hcode).mp (h (stackState rsp 0 (Memory.write (fun _ => 0) rsp (addr + 1))) rfl)).value
  rw [deadPop_same (by decide), State.top, stackState_rsp, stackState_mem, read_write_self] at hvalue
  bv_omega

theorem farPops_dead_iff (hfirst : First next.Kills r) (hrax : r ≠ .rax)
    (hregs : farRegs popShape next = ⟨true, some r, some .rax⟩) :
    (∀ s : State, s.reg .rsp = rsp → FarPops alu next 0 addr s) ↔ next.always r = true ∧ WordsApart addr rsp := by
  have hcode : mangleFarMemoryPop (farRegs popShape next) addr = some (deadPop r .rax addr) := by
    simp [hregs, mangleFarMemoryPop, deadPop]
  have hr := hfirst.1.ne_rsp
  have hneeds : next.Needs .rax := fun hkills => hfirst.not_rax hrax hkills.1
  simp only [farPops_iff_of_code hcode, farPopped_dead_iff hr (show Reg.rax ≠ .rsp by decide) hrax]
  constructor
  · intro h
    constructor
    · by_contra halways
      have hreg := (h (stackState rsp 1 fun _ => 0) rfl).1 fun hneeds => halways hneeds.2
      rw [stackState_reg _ _ hr] at hreg
      simp [State.top, Memory.read] at hreg
    · by_contra hoverlap
      have hread := (h (stackState rsp 0 (Memory.write (fun _ => 0) rsp (BitVec.allOnes 64))) rfl).2 hneeds
      rw [State.top, stackState_rsp, stackState_mem, stackState_reg _ _ (by decide), write_write, zero_write,
        read_write_self] at hread
      exact read_write_overlap (fun hapart => hoverlap hapart.symm) hread
  · rintro ⟨halways, hapart⟩ s hrsp
    refine ⟨fun hneeds => absurd ⟨hfirst.1, halways⟩ hneeds, fun _ => ?_⟩
    rw [hrsp, WordsApart.read_write hapart.symm, read_write_self]

theorem not_farPops_spill (hnone : ∀ r, ¬ next.Kills r) (hregs : farRegs popShape next = ⟨false, some .rcx, some .rax⟩) :
    ¬ ∀ s : State, s.reg .rsp = rsp → FarPops alu next 0 addr s := by
  have hcode : mangleFarMemoryPop (farRegs popShape next) addr = some (spillPop .rcx .rax addr) := by
    simp [hregs, mangleFarMemoryPop, spillPop]
  intro h
  have hlive := ((farPops_iff_of_code hcode).mp (h (stackState rsp 1 fun _ => 0) rfl)).live .rax (by decide)
    fun hkills => hnone .rax hkills.1
  rw [spillPop_reg (by decide) (by decide) (by decide), stackState_rsp, stackState_reg _ _ (by decide)] at hlive
  simp [State.top, Memory.read, Memory.write] at hlive

end Pop

end Granary.Mangle
