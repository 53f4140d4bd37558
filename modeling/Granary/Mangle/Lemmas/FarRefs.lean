import Granary.Mangle.Lemmas.FarMemory

/-!
# Far operands of other instructions
-/

namespace Granary.Mangle

open Function (update update_comm update_idem update_of_ne update_self)

open Machine
open Registers hiding exec Instr

variable {alu : Instr → State → Word} {user : Bool} {shape next : Shape} {addr : Word} {r q : Reg}
variable {far : Word → Registers.Instr Env} {i : Registers.Instr Env} {s t : RegState Env} {a v : Word}

/-! ## States that differ in a word -/

theorem sameOutside_refl : SameOutside a s s := ⟨rfl, rfl, rfl, Only.refl _ _⟩

theorem sameOutside_write : SameOutside a { s with rest := s.rest.write a v } s :=
  ⟨rfl, rfl, rfl, only_write⟩

theorem Avoids.exec (h : Avoids i a s) (v : Word) :
    i.exec { s with rest := s.rest.write a v } = { i.exec s with rest := (i.exec s).rest.write a v } := by
  rw [Registers.Instr.exec, h v]
  rfl

/-! ## A dead register -/

def deadCode (r : Reg) (addr : Word) : FarCode := { before := [.movImm r addr], usedReg := r, after := [] }

theorem deadCode_exec : (deadCode r addr).exec alu far s = (far addr).exec { s with gpr := update s.gpr r addr } := by
  have hbefore : onState (run alu (deadCode r addr).before) s = { s with gpr := update s.gpr r addr } := rfl
  simp only [FarCode.exec, hbefore]
  rw [show (deadCode r addr).usedReg = r from rfl, update_self]
  rfl

theorem not_reads_of_deadBefore (h : shape.DeadBefore next r) : shape.opcode = .nop ∨ ¬ ReadsGpr shape.dsts shape.srcs r := by
  rcases h with hkills | ⟨-, hrevives⟩
  · exact .inr hkills.2.2.2.1
  · by_cases hnop : shape.opcode = .nop
    · exact .inl hnop
    · exact .inr fun hreads => hrevives ⟨hnop, .inr (.inl hreads)⟩

theorem not_nop_of_always (h : shape.always r = true) : shape.opcode ≠ .nop := fun hnop =>
  (shape.always_dst r h).1 (by simp [hnop])

theorem deadCode_same (hcti : shape.opcode ≠ .cti) (hdead : shape.DeadBefore next r)
    (h : shape.always r = true ∨ next.Kills r ∧ next.always r = true) (hfar : ∀ a, (far a).HasShape shape)
    (hi : i.HasShape next) : i.exec ((deadCode r addr).exec alu far s) = i.exec ((far addr).exec s) := by
  have hreads := not_reads_of_deadBefore hdead
  rw [deadCode_exec]
  rcases h with halways | ⟨hkills, halways⟩
  · rw [(hfar addr).exec_update_always hcti (hreads.resolve_left (not_nop_of_always halways)) halways]
  · obtain ⟨w, hw⟩ := (hfar addr).exec_update (s := s) (v := addr) hcti hreads
    rw [hw, hi.exec_update_always (fun h => hkills.1 (by simp [h])) hkills.2.2.2.1 halways]

/-! ## A spilled register -/

def spillCode (user : Bool) (r : Reg) (addr : Word) : FarCode where
  before := (if user then [.lea .rsp .rsp (-128)] else []) ++ [.push r, .movImm r addr]
  usedReg := r
  after := .pop r :: if user then [.lea .rsp .rsp 128] else []

theorem spillCode_before (hr : r ≠ .rsp) : onState (run alu (spillCode user r addr).before) s =
    { s with
      gpr := update (update s.gpr .rsp (slot user s)) r addr
      rest := s.rest.write (slot user s) (s.gpr r) } := by
  cases user with
  | true =>
    have hslot : s.gpr .rsp + (-128) - 8 = slot true s := by rw [slot, if_pos rfl, BitVec.sub_eq_add_neg (s.gpr .rsp) 128]
    simp only [onState, spillCode, if_true, List.cons_append, List.nil_append, run_cons, run_nil, exec, State.set, State.push,
      update_self, update_of_ne hr, update_idem, hslot, Env.write]
  | false =>
    have hslot : s.gpr .rsp - 8 = slot false s := by simp [slot]
    simp only [onState, spillCode, Bool.false_eq_true, if_false, List.nil_append, run_cons, run_nil, exec, State.set,
      State.push, hslot, Env.write]

theorem spillCode_after (hr : r ≠ .rsp) : onState (run alu (spillCode user r addr).after) s =
    { s with
      gpr := update (update s.gpr .rsp (s.gpr .rsp + 8 + if user then 128 else 0)) r
        (s.rest.mem.read (s.gpr .rsp)) } := by
  cases user with
  | true =>
    simp [onState, spillCode, exec, State.set, State.drop, State.top, update_of_ne (Ne.symm hr), update_comm hr]
  | false =>
    have hzero : s.gpr .rsp + 8 + 0 = s.gpr .rsp + 8 := BitVec.add_zero _
    simp [onState, spillCode, exec, State.set, State.drop, State.top]

theorem spillCode_exec (hcti : shape.opcode ≠ .cti) (hrsp : ¬ shape.Mentions .rsp) (hr : r ≠ .rsp)
    (hmentions : ¬ shape.Mentions r) (hfar : ∀ a, (far a).HasShape shape) (havoids : Avoids (far addr) (slot user s) s) :
    (spillCode user r addr).exec alu far s =
      { (far addr).exec s with rest := ((far addr).exec s).rest.write (slot user s) (s.gpr r) } := by
  have hrestored : slot user s + 8 + (if user then 128 else 0) = ((far addr).exec s).gpr .rsp := by
    rw [(hfar addr).exec_gpr_of_not_mentions hcti hrsp, slot]
    bv_omega
  have hexec := (hfar addr).exec_update_of_not_mentions (v := addr) hcti hmentions
    (s := { s with
      gpr := update s.gpr .rsp (slot user s)
      rest := s.rest.write (slot user s) (s.gpr r) })
  have hexec' := (hfar addr).exec_update_of_not_mentions (v := slot user s) hcti hrsp
    (s := { s with rest := s.rest.write (slot user s) (s.gpr r) })
  simp only [FarCode.exec, spillCode_before hr]
  rw [show (spillCode user r addr).usedReg = r from rfl, update_self, hexec, hexec', havoids.exec, spillCode_after hr]
  refine RegState.ext (funext fun q => ?_) rfl rfl
  by_cases hq : q = r
  · subst hq
    simp [Ne.symm hr, Env.write, (hfar addr).exec_gpr_of_not_mentions hcti hmentions]
  · by_cases hqrsp : q = .rsp
    · subst hqrsp
      simpa [hq] using hrestored
    · simp [hq, hqrsp]

/-! ## Instructions that show a difference -/

def probe (d : Shape) (hnop : d.opcode ≠ .nop) (mask : Reg → Word) (flags : RegState Env → Word) : Registers.Instr Env where
  __ := d
  eval s :=
    { gprMask := fun r => if d.always r then BitVec.allOnes 64 else mask r
      gpr := fun _ => 0
      xmmMask := fun _ => 0#128
      xmm := fun _ => 0
      rest := { s.rest with flags := flags s } }
  nop_eval h := absurd h hnop

section Probe

variable {d : Shape} {hnop : d.opcode ≠ .nop} {mask : Reg → Word} {flags : RegState Env → Word}

theorem hasShape_probe (hmask : ∀ r, mask r &&& ~~~writable d.dsts r = 0)
    (hflags : d.opcode ≠ .cti → ∀ s r v, ¬ ReadsGpr d.dsts d.srcs r → flags { s with gpr := update s.gpr r v } = flags s) :
    (probe d hnop mask flags).HasShape d where
  opcode_eq := rfl
  dsts_eq := rfl
  srcs_eq := rfl
  whole r h s := if_pos h
  within r s := by
    by_cases h : d.always r = true
    · rw [d.writable_of_always h, BitVec.not_allOnes]
      exact BitVec.and_zero
    · simpa [probe, h] using hmask r
  eval_update hcti hreads := by simp only [probe, hflags hcti _ _ _ hreads]

theorem avoids_probe (h : ∀ s a v, flags { s with rest := s.rest.write a v } = flags s) (a : Word) (s : RegState Env) :
    Avoids (probe d hnop mask flags) a s := by
  intro v
  simp only [probe, h]
  rfl

theorem avoids_plain (d : Shape) (a : Word) (s : RegState Env) : Avoids (d.plain : Registers.Instr Env) a s := fun _ => rfl

end Probe

def reveal (d : Shape) (q : Reg) (hnop : d.opcode ≠ .nop) : Registers.Instr Env :=
  probe d hnop (fun _ => 0) fun s => s.gpr q

theorem hasShape_reveal {hnop : shape.opcode ≠ .nop} (hq : shape.opcode ≠ .cti → ReadsGpr shape.dsts shape.srcs q) :
    (reveal shape q hnop).HasShape shape := by
  refine hasShape_probe (fun _ => BitVec.zero_and) fun hcti s r v hreads => ?_
  have hne : q ≠ r := fun h => hreads (h ▸ hq hcti)
  exact update_of_ne hne _ _

def clearRsp (d : Shape) (hnop : d.opcode ≠ .nop) : Registers.Instr Env :=
  probe d hnop (fun r => if r = .rsp then writable d.dsts r else 0) fun s => s.rest.flags

theorem kills_of_always (hr : r ≠ .rsp) (halways : next.always r = true) (hcti : next.opcode ≠ .cti)
    (hreads : ¬ ReadsGpr next.dsts next.srcs r) : next.Kills r := by
  obtain ⟨hop, hdst⟩ := next.always_dst r halways
  refine ⟨?_, hdst, hr, hreads, fun q hq => Bool.eq_false_iff.mpr fun hn => hreads (next.rep_reads q hq r hn)⟩
  rw [Shape.plain_opcode]
  simp only [List.mem_cons, List.not_mem_nil, or_false, not_or] at hop ⊢
  exact ⟨hop.1, hcti, hop.2⟩

theorem exists_visible (hr : r ≠ .rsp) (h : next.Needs r) :
    ∃ i : Registers.Instr Env, i.HasShape next ∧ (∀ a s, Avoids i a s) ∧
      ∀ a s s', SameOutside a (i.exec s) (i.exec s') → s.gpr r = s'.gpr r := by
  by_cases halways : next.always r = true
  · have hreads : next.opcode ≠ .cti → ReadsGpr next.dsts next.srcs r := fun hcti =>
      Classical.byContradiction fun hreads => h ⟨kills_of_always hr halways hcti hreads, halways⟩
    exact ⟨reveal next r (not_nop_of_always halways), hasShape_reveal hreads,
      avoids_probe fun _ _ _ => rfl, fun _ _ _ hsame => hsame.flags⟩
  · refine ⟨next.plain, next.hasShape_plain, avoids_plain next, fun a s s' hsame => ?_⟩
    have hgpr := congrFun hsame.gpr r
    simpa [Registers.Instr.exec, Effect.apply, Shape.plain, halways] using hgpr

/-! ## Failures -/

def plainState (rsp v : Word) : RegState Env :=
  { gpr := fun q => if q = .rsp then rsp else v, xmm := fun _ => 0, rest := { flags := 0, mem := fun _ => 0 } }

theorem deadCode_differs (hr : r ≠ .rsp) (halways : ¬ shape.always r = true) (hneeds : next.Needs r) :
    ∃ far : Word → Registers.Instr Env, (∀ a, (far a).HasShape shape) ∧ ∃ i : Registers.Instr Env, i.HasShape next ∧
      ∃ s, ¬ SameOutside (slot user s) (i.exec ((deadCode r addr).exec alu far s)) (i.exec ((far addr).exec s)) := by
  obtain ⟨i, hi, -, hvisible⟩ := exists_visible hr hneeds
  refine ⟨fun _ => shape.plain, fun _ => shape.hasShape_plain, i, hi, plainState 0 (addr + 1), fun hsame => ?_⟩
  have hgpr := hvisible _ _ _ hsame
  rw [deadCode_exec] at hgpr
  simp only [Registers.Instr.exec, Effect.apply, Shape.plain, halways, Bool.false_eq_true, if_false, merge_zero,
    update_self, plainState, hr] at hgpr
  bv_omega

theorem not_revives_of_not_mentions (hr : r ≠ .rsp) (h : ¬ shape.Mentions r) : ¬ shape.Revives r := by
  rintro ⟨hnop, hrsp | hreads | ⟨q, hq, hn⟩ | ⟨-, op, hop, hpart⟩⟩
  · exact hr hrsp
  · exact Shape.not_reads_of_not_mentions hnop h hreads
  · exact Shape.not_reads_of_not_mentions hnop h (shape.rep_reads q hq r hn)
  · refine h ⟨hnop, op, List.mem_append_left _ hop, ?_⟩
    cases op <;> simp_all [Operand.mentions, Operand.isPartOf]

theorem needs_of_not_deadBefore (hr : r ≠ .rsp) (h : ¬ shape.Mentions r) (hdead : ¬ shape.DeadBefore next r) :
    next.Needs r := fun hkills => hdead (.inr ⟨hkills.1, not_revives_of_not_mentions hr h⟩)

theorem slot_ne : slot user s ≠ s.gpr .rsp := by
  cases user <;> simp only [slot, if_true, Bool.false_eq_true, if_false] <;> bv_omega

/-- Some instructions of the two shapes tell the code with the spilled register from the one that it replaces. -/
def SpillDiffers (alu : Instr → State → Word) (user : Bool) (shape next : Shape) (addr : Word) (r : Reg) : Prop :=
  ∃ far : Word → Registers.Instr Env, (∀ a, (far a).HasShape shape) ∧ ∃ i : Registers.Instr Env, i.HasShape next ∧
    ∃ s, Avoids (far addr) (slot user s) s ∧ Avoids i (slot user s) ((far addr).exec s) ∧
      ¬ SameOutside (slot user s) (i.exec ((spillCode user r addr).exec alu far s)) (i.exec ((far addr).exec s))

theorem spillCode_differs_of_reads (hnop : shape.opcode ≠ .nop) (hreads : ReadsGpr shape.dsts shape.srcs .rsp) (hr : r ≠ .rsp) :
    SpillDiffers alu user shape next addr r := by
  refine ⟨fun _ => reveal shape .rsp hnop, fun _ => hasShape_reveal fun _ => hreads, next.plain, next.hasShape_plain,
    plainState 0 0, avoids_probe (fun _ _ _ => rfl) _ _, avoids_plain _ _ _, fun hsame => ?_⟩
  have hflags := hsame.flags
  simp only [FarCode.exec, spillCode_before hr, spillCode_after hr] at hflags
  have hslot : slot user (plainState 0 0) = (plainState 0 0).gpr .rsp := by
    simpa [Registers.Instr.exec, Effect.apply, Shape.plain, reveal, probe, Ne.symm hr] using hflags
  exact slot_ne hslot

theorem hasShape_clearRsp (hnop : shape.opcode ≠ .nop) : (clearRsp shape hnop).HasShape shape := by
  refine hasShape_probe (fun r => ?_) fun _ _ _ _ _ => rfl
  split
  · exact BitVec.and_not_self _
  · exact BitVec.zero_and

theorem clearRsp_rsp (hnop : shape.opcode ≠ .nop) :
    ((clearRsp shape hnop).exec s).gpr .rsp = s.gpr .rsp &&& ~~~writable shape.dsts .rsp := by
  have hmask : ((clearRsp shape hnop).eval s).gprMask .rsp = writable shape.dsts .rsp := by
    by_cases halways : shape.always .rsp = true
    · simp [clearRsp, probe, halways, shape.writable_of_always halways]
    · simp [clearRsp, probe, halways]
  simp only [Registers.Instr.exec, Effect.apply, hmask]
  simp [merge, clearRsp, probe]

theorem slot_and_not_writable {w : Width} (hop : .reg (.gpr .rsp w) ∈ shape.dsts) :
    slot user (plainState 0 v) &&& ~~~writable shape.dsts .rsp ≠ slot user (plainState 0 v) := by
  have hcovers := mask_and_writable (r := .rsp) hop
  rw [Operand.mask, if_pos rfl] at hcovers
  have hslot : slot user (plainState 0 v) = if user then 0xffffffffffffff78 else 0xfffffffffffffff8 := by
    cases user <;> simp [slot, plainState]
  obtain ⟨k, hmask, hset⟩ : ∃ k, w.mask.getLsbD k = true ∧ (slot user (plainState 0 v)).getLsbD k = true := by
    rw [hslot]
    cases w with
    | w8High => exact ⟨8, rfl, by cases user <;> rfl⟩
    | w64 | w32 | w16 | w8 => exact ⟨3, rfl, by cases user <;> rfl⟩
  intro heq
  have hwritten := congrArg (BitVec.getLsbD · k) hcovers
  have hkept := congrArg (BitVec.getLsbD · k) heq
  simp only [BitVec.getLsbD_and, BitVec.getLsbD_not, hmask, hset, Bool.true_and] at hwritten hkept
  simp [hwritten] at hkept

theorem spillCode_differs_of_writes (hcti : shape.opcode ≠ .cti) (hnop : shape.opcode ≠ .nop) {w : Width}
    (hop : .reg (.gpr .rsp w) ∈ shape.dsts) (hr : r ≠ .rsp) (hmentions : ¬ shape.Mentions r) (hneeds : next.Needs r) :
    SpillDiffers alu user shape next addr r := by
  obtain ⟨i, hi, havoids, hvisible⟩ := exists_visible hr hneeds
  refine ⟨fun _ => clearRsp shape hnop, fun _ => hasShape_clearRsp hnop, i, hi, plainState 0 (BitVec.allOnes 64),
    avoids_probe (fun _ _ _ => rfl) _ _, havoids _ _, fun hsame => ?_⟩
  have hgpr := hvisible _ _ _ hsame
  simp only [FarCode.exec, spillCode_before hr, spillCode_after hr, update_self, clearRsp_rsp,
    (hasShape_clearRsp hnop).exec_gpr_of_not_mentions hcti hmentions, update_of_ne (Ne.symm hr)] at hgpr
  rw [show (plainState 0 (BitVec.allOnes 64)).gpr r = BitVec.allOnes 64 from if_neg hr] at hgpr
  exact read_write_ne_allOnes (slot_and_not_writable hop) hgpr

/-! ## The register that is chosen -/

theorem farRegs_of_first (hcti : shape.opcode ≠ .cti) (h : First (shape.DeadBefore next) r) :
    (farRegs shape next).firstRegIsDead = true ∧
      mangleFarMemoryRefs user (farRegs shape next) addr = some (deadCode r addr) := by
  have hdead := (deadReg_eq_some_iff hcti).mpr h
  simp [farRegs, hdead, mangleFarMemoryRefs, deadCode]

theorem spillManager_none_iff : (spillManager shape none).live q = false ↔ q ≠ .rsp ∧ ¬ shape.Mentions q := by
  refine ⟨fun (hdead : (RegisterManager.killAll.reviveInstr (shape.plain : Registers.Instr Unit)).live q = false) => ?_,
    fun h => spillManager_dead h.1 h.2⟩
  by_cases hnop : shape.opcode = .nop
  · have hrsp : q ≠ .rsp := by simpa [RegisterManager.reviveInstr, hnop, RegisterManager.killAll, forceLive] using hdead
    exact ⟨hrsp, fun hm => hm.1 hnop⟩
  · rw [RegisterManager.reviveInstr_live _ hnop, Bool.or_eq_false_iff] at hdead
    refine ⟨by simpa [RegisterManager.killAll, forceLive] using hdead.1, ?_⟩
    rintro ⟨-, op, hop, hm⟩
    exact Bool.false_ne_true (hdead.2.symm.trans (List.any_eq_true.mpr ⟨op, hop, hm⟩))

theorem farRegs_of_none (hcti : shape.opcode ≠ .cti) (hnone : ∀ r, ¬ shape.DeadBefore next r) :
    (farRegs shape next).firstRegIsDead = false ∧
      ((∃ r, r ≠ .rsp ∧ ¬ shape.Mentions r ∧
          mangleFarMemoryRefs user (farRegs shape next) addr = some (spillCode user r addr)) ∨
        (∀ r, r ≠ .rsp → shape.Mentions r) ∧ mangleFarMemoryRefs user (farRegs shape next) addr = none) := by
  have hdead := (deadReg_eq_none_iff hcti).mpr hnone
  refine ⟨by simp [farRegs, hdead], ?_⟩
  cases hspill : ((spillManager shape none).getZombie fun _ => false).1 with
  | some r =>
    obtain ⟨⟨hlive, -⟩, -⟩ := RegisterManager.getZombie_eq_some_iff.mp hspill
    obtain ⟨hr, hmentions⟩ := spillManager_none_iff.mp hlive
    exact .inl ⟨r, hr, hmentions, by simp [farRegs, hdead, hspill, mangleFarMemoryRefs, spillCode]⟩
  | none =>
    have hall := RegisterManager.getZombie_eq_none_iff.mp hspill
    refine .inr ⟨fun r hr => Classical.byContradiction fun hm => hall r ⟨spillManager_none_iff.mpr ⟨hr, hm⟩, rfl⟩, ?_⟩
    simp [farRegs, hdead, hspill, mangleFarMemoryRefs]

/-! ## Both paths -/

theorem DeadBefore.ne_rsp (h : shape.DeadBefore next r) : r ≠ .rsp := by
  rcases h with hkills | ⟨hkills, -⟩ <;> exact hkills.ne_rsp

theorem rewritesFar_iff_of_code {code : FarCode} (h : mangleFarMemoryRefs user (farRegs shape next) addr = some code) :
    RewritesFar alu user shape next 0 addr ↔ ∀ far : Word → Registers.Instr Env, (∀ a, (far a).HasShape shape) →
      ∀ i : Registers.Instr Env, i.HasShape next → ∀ s : RegState Env, ((farRegs shape next).firstRegIsDead = false →
          Avoids (far addr) (slot user s) s ∧ Avoids i (slot user s) ((far addr).exec s)) →
        SameOutside (slot user s) (i.exec (code.exec alu far s)) (i.exec ((far addr).exec s)) := by
  simp [RewritesFar, h]

theorem rewritesFar_dead_iff (hcti : shape.opcode ≠ .cti) (hfirst : First (shape.DeadBefore next) r) :
    RewritesFar alu user shape next 0 addr ↔ shape.always r = true ∨ next.Kills r ∧ next.always r = true := by
  obtain ⟨hdead, hcode⟩ := farRegs_of_first hcti hfirst
  rw [rewritesFar_iff_of_code hcode]
  constructor
  · intro h
    by_contra hneither
    rw [not_or] at hneither
    obtain ⟨far, hfar, i, hi, s, hdiffers⟩ := deadCode_differs
      (DeadBefore.ne_rsp hfirst.1) hneither.1 hneither.2
    exact hdiffers (h far hfar i hi s fun hfalse => absurd (hdead.symm.trans hfalse) (by decide))
  · intro h far hfar i hi s _
    rw [deadCode_same hcti hfirst.1 h hfar hi]
    exact sameOutside_refl

theorem spillCode_differs (hcti : shape.opcode ≠ .cti) (hrsp : shape.Mentions .rsp) (hr : r ≠ .rsp)
    (hmentions : ¬ shape.Mentions r) (hneeds : next.Needs r) : SpillDiffers alu user shape next addr r := by
  obtain ⟨hnop, op, hop, hm⟩ := hrsp
  rcases List.mem_append.mp hop with hdst | hsrc
  · match op, hm with
    | .reg (.gpr q w), hm =>
      obtain rfl : q = .rsp := of_decide_eq_true hm
      exact spillCode_differs_of_writes hcti hnop hdst hr hmentions hneeds
    | .baseDisp base index, hm => exact spillCode_differs_of_reads hnop (.inr ⟨_, hdst, hm⟩) hr
  · exact spillCode_differs_of_reads hnop (.inl ⟨op, hsrc, hm⟩) hr

theorem rewritesFar_spill_iff (hcti : shape.opcode ≠ .cti) (hnone : ∀ r, ¬ shape.DeadBefore next r) :
    RewritesFar alu user shape next 0 addr ↔ (∃ r, r ≠ .rsp ∧ ¬ shape.Mentions r) ∧ ¬ shape.Mentions .rsp := by
  obtain ⟨hdead, ⟨r, hr, hmentions, hcode⟩ | ⟨hall, hcode⟩⟩ := farRegs_of_none hcti hnone
  · rw [and_iff_right ⟨r, hr, hmentions⟩, rewritesFar_iff_of_code hcode]
    constructor
    · intro h hrsp
      obtain ⟨far, hfar, i, hi, s, havoids, havoids', hdiffers⟩ := spillCode_differs hcti hrsp hr
        hmentions (needs_of_not_deadBefore hr hmentions (hnone r))
      exact hdiffers (h far hfar i hi s fun _ => ⟨havoids, havoids'⟩)
    · intro hrsp far hfar i hi s havoids
      rw [spillCode_exec hcti hrsp hr hmentions hfar (havoids hdead).1, (havoids hdead).2.exec]
      exact sameOutside_write
  · refine iff_of_false ?_ fun ⟨⟨r, hr, hm⟩, _⟩ => hm (hall r hr)
    rintro ⟨code, hsome, -⟩
    exact absurd (hcode.symm.trans hsome) (by simp)

end Granary.Mangle
