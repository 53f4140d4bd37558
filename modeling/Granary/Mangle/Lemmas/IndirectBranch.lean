import Granary.Gencode.Lemmas.IndirectBranch
import Granary.Mangle.IndirectBranch
import Granary.Mangle.Lemmas.FarRefs

/-!
# The code before the jump through the table
-/

namespace Granary.Mangle

open Machine
open BitVec (ofNat toNat_add toNat_ofNat)
open Registers hiding exec Instr
open Gencode (Build mangleTarget hashTarget saveScratch mangledAddress Arrives)

variable {alu : Instr → State → Word} {segBase : Segment → Word} {addrOf : Nat → Word} {build : Build}
variable {estimatorPc jumpTable blockInstr : Word} {policy : BitVec 16} {cti : IndirectCti} {s s' : State}
variable {ops prog items : List Item} {fuel : Nat}

/-! ## Execution -/

def Item.isOp : Item → Bool
  | .instr _ | .movLd _ | .xchgTop => true
  | _ => false

def execOps (alu : Instr → State → Word) (segBase : Segment → Word) (ops : List Item) (s : State) : State :=
  ops.foldl (fun s item => item.exec alu segBase s) s

theorem execOps_cons (op : Item) : execOps alu segBase (op :: ops) s = execOps alu segBase ops (op.exec alu segBase s) := rfl

theorem execOps_append (ops' : List Item) :
    execOps alu segBase (ops ++ ops') s = execOps alu segBase ops' (execOps alu segBase ops s) := List.foldl_append ..

theorem findLabel_ops {l : Label} (hops : ∀ item ∈ ops, item.isOp = true) (items : List Item) :
    findLabel l (ops ++ items) = findLabel l items := by
  induction ops with
  | nil => rfl
  | cons op ops ih =>
    have hrest := ih fun item hitem => hops item (List.mem_cons_of_mem _ hitem)
    have hop := hops op List.mem_cons_self
    cases op <;> first | exact hrest | exact absurd hop Bool.false_ne_true

theorem runItems_ops (hops : ∀ item ∈ ops, item.isOp = true) (fuel : Nat) (items : List Item) (s : State) :
    runItems alu segBase addrOf prog (fuel + ops.length) (ops ++ items) s =
      runItems alu segBase addrOf prog fuel items (execOps alu segBase ops s) := by
  induction ops generalizing s with
  | nil => rfl
  | cons op ops ih =>
    have hrest := ih (fun item hitem => hops item (List.mem_cons_of_mem _ hitem)) (op.exec alu segBase s)
    have hop := hops op List.mem_cons_self
    cases op <;> first | exact hrest | exact absurd hop Bool.false_ne_true

theorem runItems_mono (h : runItems alu segBase addrOf prog fuel items s = some s')
    (k : Nat) : runItems alu segBase addrOf prog (fuel + k) items s = some s' := by
  induction fuel generalizing items s with
  | zero => simp [runItems] at h
  | succ fuel ih =>
    rw [Nat.add_right_comm]
    match items with
    | [] => simp [runItems] at h
    | .jmpInd :: _ => simpa [runItems] using h
    | .jmp l :: _ | .call l :: _ =>
      simp only [runItems, Option.bind_eq_some_iff] at h ⊢
      obtain ⟨items', hfind, hrun⟩ := h
      exact ⟨items', hfind, ih hrun⟩
    | .instr _ :: _ => exact ih h
    | .movLd _ :: _ => exact ih h
    | .xchgTop :: _ => exact ih h
    | .label _ :: _ => exact ih h

theorem runItems_unique {fuel' : Nat} {t : State} (h : runItems alu segBase addrOf prog fuel items s = some s')
    (h' : runItems alu segBase addrOf prog fuel' items s = some t) : s' = t := by
  have hsum := runItems_mono h fuel'
  rw [Nat.add_comm, runItems_mono h' fuel] at hsum
  exact (Option.some.inj hsum).symm

/-! ## Loads of the target -/

def loadAddr (segBase : Segment → Word) (estimatorPc : Word) (stackOffset : BitVec 32) (reg : Reg → Word) : MemOp → Word
  | .baseDisp op =>
    let op := op.adjusted stackOffset
    if op.seg.isNone && op.isAbs && isFarAway op.valuePc estimatorPc then op.valuePc else (MemOp.baseDisp op).addr segBase reg
  | .relAddr none addr => addr
  | .relAddr (some seg) addr => if isFarAway estimatorPc addr then addr else segBase seg + addr

def loadValue (segBase : Segment → Word) (estimatorPc : Word) (stackOffset : BitVec 32) (s : State) : CtiTarget → Word
  | .reg r _ => s.reg r
  | .mem op => s.mem.read (loadAddr segBase estimatorPc stackOffset s.reg op)

theorem far_load (addr : Word) :
    execOps alu segBase [.instr (.movImm .rdi addr), .instr (.load .rdi .rdi 0)] s = s.set .rdi (s.mem.read addr) := by
  simp [execOps, Item.exec, exec, State.set]

theorem loadTarget_far (user : Bool) (addr : Word) :
    (mangleFarMemoryRefs user (farRegs loadTargetShape pushRaxShape) addr).elim [] FarCode.load =
      [.instr (.movImm .rdi addr), .instr (.load .rdi .rdi 0)] := by
  have hdead : deadReg loadTargetShape pushRaxShape = some .rdi := by decide
  simp [farRegs, hdead, mangleFarMemoryRefs, FarCode.load]

theorem loadTarget_exec (stackOffset : BitVec 32) (target : CtiTarget) :
    execOps alu segBase (loadTarget build estimatorPc stackOffset target) s =
      s.set .rdi (loadValue segBase estimatorPc stackOffset s target) := by
  match target with
  | .reg r _ =>
    by_cases hr : r = .rdi
    · subst hr
      simp [loadTarget, execOps, loadValue, State.set]
    · simp [loadTarget, hr, execOps, Item.exec, exec, loadValue]
  | .mem (.baseDisp op) =>
    simp only [loadTarget, loadValue, loadAddr]
    split
    · exact far_load _
    · rfl
  | .mem (.relAddr none addr) =>
    simp only [loadTarget, loadValue, loadAddr]
    split
    · exact far_load addr
    · simp [execOps, Item.exec, MemOp.addr]
  | .mem (.relAddr (some seg) addr) =>
    simp only [loadTarget, loadValue, loadAddr, loadTarget_far]
    split
    · exact far_load addr
    · rfl

theorem loadTarget_isOp (stackOffset : BitVec 32) (target : CtiTarget) :
    ∀ item ∈ loadTarget build estimatorPc stackOffset target, item.isOp = true := by
  match target with
  | .reg r _ | .mem (.baseDisp op) | .mem (.relAddr none addr) =>
    simp only [loadTarget]
    split <;> simp [Item.isOp]
  | .mem (.relAddr (some seg) addr) =>
    simp only [loadTarget, loadTarget_far]
    split <;> simp [Item.isOp]

/-! ## Addresses -/

theorem signExtend_add_iff {n : Nat} (hn : n < 2 ^ 31) (d : BitVec 32) :
    (d + ofNat 32 n).signExtend 64 = d.signExtend 64 + ofNat 64 n ↔ d.toInt + n < 2 ^ 31 := by
  have hd := d.isLt
  rw [← BitVec.toNat_inj, toNat_add, BitVec.toNat_signExtend, BitVec.toNat_signExtend, BitVec.toNat_setWidth,
    BitVec.toNat_setWidth, BitVec.msb_eq_decide, BitVec.msb_eq_decide, toNat_add, toNat_ofNat,
    toNat_ofNat, BitVec.toInt_eq_toNat_cond]
  simp only [decide_eq_true_eq]
  split <;> split <;> split <;> omega

theorem shifted_sum_iff (b c x y n : Word) : b - n + c + y = b + c + x ↔ y = x + n := by
  have hmove : y - n = x ↔ y = x + n := by
    constructor <;> intro h <;> bv_omega
  rw [BaseDisp.sub_add_add, BitVec.add_right_inj, hmove]

def pushedRegs (regs : Reg → Word) (offset : Nat) : Reg → Word :=
  Function.update regs .rsp (regs .rsp - ofNat 64 offset)

theorem pushedRegs_of_ne (regs : Reg → Word) (offset : Nat) {r : Reg} (h : r ≠ .rsp) : pushedRegs regs offset r = regs r :=
  Function.update_of_ne h _ _

theorem BaseDisp.index_pushedRegs (op : BaseDisp) (regs : Reg → Word) (offset : Nat) :
    op.index.elim 0 (pushedRegs regs offset · * op.scale.setWidth 64) = op.index.elim 0 (regs · * op.scale.setWidth 64) := by
  cases hi : op.index with
  | none => rfl
  | some q => simp [pushedRegs_of_ne _ _ (fun hq => op.index_ne_rsp (hi.trans (congrArg some hq)))]

theorem BaseDisp.addr_pushedRegs {op : BaseDisp} (hbase : op.base ≠ some .rsp) (regs : Reg → Word) (offset : Nat) :
    op.addr (pushedRegs regs offset) = op.addr regs := by
  have hsame : op.base.elim 0 (pushedRegs regs offset) = op.base.elim 0 regs := by
    cases hb : op.base with
    | none => rfl
    | some q => exact pushedRegs_of_ne _ _ fun hq => hbase (hb.trans (congrArg some hq))
  rw [addr, addr, hsame, index_pushedRegs]

theorem BaseDisp.addr_pushedRegs_rsp {op : BaseDisp} (hbase : op.base = some .rsp) (regs : Reg → Word) (offset : Nat) :
    op.addr (pushedRegs regs offset) = op.wrap
      (regs .rsp - ofNat 64 offset + op.index.elim 0 (regs · * op.scale.setWidth 64) + op.disp.signExtend 64) := by
  rw [addr, index_pushedRegs, hbase, Option.elim_some, pushedRegs, Function.update_self]

theorem BaseDisp.adjusted_addr_iff {op : BaseDisp} (hbase : op.base = some .rsp) {offset : Nat} (hpos : 0 < offset)
    (hoffset : offset < 2 ^ 31) (regs : Reg → Word) :
    (op.adjusted (ofNat 32 offset)).addr (pushedRegs regs offset) = op.addr regs ↔
      op.dispShortAddr = false ∧ op.disp.toInt + offset < 2 ^ 31 := by
  cases hshort : op.dispShortAddr with
  | false =>
    have hadjusted : op.adjusted (ofNat 32 offset) = { op with disp := op.disp + ofNat 32 offset } :=
      if_pos ⟨hbase, hshort⟩
    rw [hadjusted, addr_pushedRegs_rsp (by exact hbase), addr, hbase, wrap, wrap, hshort]
    exact (shifted_sum_iff ..).trans ((signExtend_add_iff hoffset op.disp).trans (and_iff_right rfl).symm)
  | true =>
    have hadjusted : op.adjusted (ofNat 32 offset) = op := if_neg fun h => by simp [hshort] at h
    rw [hadjusted, addr_pushedRegs_rsp hbase, addr, hbase]
    exact iff_of_false (op.wrap_sub_ne hpos (by omega) _ _ _) (by simp)

theorem loadAddr_eq_iff {offset : Nat} (hpos : 0 < offset) (hoffset : offset < 2 ^ 31) (regs : Reg → Word) (op : MemOp) :
    loadAddr segBase estimatorPc (ofNat 32 offset) (pushedRegs regs offset) op = op.addr segBase regs ↔
      op.Kept segBase estimatorPc offset := by
  match op with
  | .baseDisp op =>
    by_cases hbase : op.base = some .rsp
    · have hload : loadAddr segBase estimatorPc (ofNat 32 offset) (pushedRegs regs offset) (.baseDisp op) =
          op.seg.elim 0 segBase + (op.adjusted (ofNat 32 offset)).addr (pushedRegs regs offset) := by
        cases hshort : op.dispShortAddr <;> simp [loadAddr, BaseDisp.adjusted, BaseDisp.isAbs, hbase, hshort, MemOp.addr]
      have habs : op.isAbs = false := by simp [BaseDisp.isAbs, hbase]
      rw [hload, MemOp.addr, BitVec.add_right_inj, BaseDisp.adjusted_addr_iff hbase hpos hoffset]
      simp [MemOp.Kept, hbase, habs]
    · have hadjusted : op.adjusted (ofNat 32 offset) = op := if_neg fun h => hbase h.1
      simp only [loadAddr, hadjusted, MemOp.Kept, MemOp.addr, BaseDisp.addr_pushedRegs hbase]
      split
      · rename_i hcond
        obtain ⟨⟨hseg, habs⟩, hfar⟩ : (op.seg.isNone = true ∧ op.isAbs = true) ∧ isFarAway op.valuePc estimatorPc = true := by
          simpa only [Bool.and_eq_true] using hcond
        obtain ⟨hnone, hnone'⟩ : op.base = none ∧ op.index = none := by simpa [BaseDisp.isAbs] using habs
        have hseg' : op.seg = none := Option.isNone_iff_eq_none.mp hseg
        simp [hnone, hnone', hseg', habs, hfar, BaseDisp.addr]
      · rename_i hcond
        refine iff_of_true rfl ⟨fun h => absurd h hbase, fun hseg habs hfar => absurd ?_ hcond⟩
        simp [hseg, habs, hfar]
  | .relAddr none addr => simp [loadAddr, MemOp.addr, MemOp.Kept]
  | .relAddr (some seg) addr =>
    by_cases hfar : isFarAway estimatorPc addr = true
    · simp only [loadAddr, if_pos hfar, MemOp.addr, Option.elim_some, MemOp.Kept, Option.some.injEq]
      constructor
      · rintro h _ rfl _
        bv_omega
      · intro h
        rw [h seg rfl hfar]
        exact (BitVec.zero_add _).symm
    · simp [loadAddr, hfar, MemOp.addr, MemOp.Kept]

/-! ## The whole code -/

def branchOps (build : Build) (estimatorPc : Word) (policy : BitVec 16) (jumpTable blockInstr : Word)
    (stackOffset : BitVec 32) (target : CtiTarget) : List Item :=
  .instr (.push .rdi) :: loadTarget build estimatorPc stackOffset target ++ lookupItems build policy jumpTable blockInstr

theorem lookupItems_isOp : ∀ item ∈ lookupItems build policy jumpTable blockInstr, item.isOp = true := by
  intro item hitem
  obtain ⟨i, _, rfl⟩ := List.mem_map.mp hitem
  rfl

theorem branchOps_isOp (stackOffset : BitVec 32) (target : CtiTarget) :
    ∀ item ∈ branchOps build estimatorPc policy jumpTable blockInstr stackOffset target, item.isOp = true := by
  intro item hitem
  rcases List.mem_append.mp hitem with hload | hlookup
  · rcases List.mem_cons.mp hload with rfl | hload
    · rfl
    · exact loadTarget_isOp _ _ item hload
  · exact lookupItems_isOp item hlookup

theorem lookupItems_exec : execOps alu segBase (lookupItems build policy jumpTable blockInstr) s =
    run alu (saveScratch ++ mangleTarget build policy ++ hashTarget jumpTable blockInstr) s := by
  rw [execOps, lookupItems, List.foldl_map]
  rfl

theorem branchOps_exec (stackOffset : BitVec 32) (target : CtiTarget) (s : State) :
    execOps alu segBase (branchOps build estimatorPc policy jumpTable blockInstr stackOffset target) s =
      run alu (saveScratch ++ mangleTarget build policy ++ hashTarget jumpTable blockInstr)
        (Gencode.loadTarget alu (.branch (loadValue segBase estimatorPc stackOffset (s.push (s.reg .rdi)) target)) s) := by
  rw [branchOps, execOps_append, execOps_cons, loadTarget_exec, lookupItems_exec]
  rfl

theorem lookup_arrives (alu : Instr → State → Word) (build : Build) (policy : BitVec 16) (jumpTable blockInstr : Word)
    (kind : Gencode.IblEntryKind) (s : State) :
    Arrives (kind.native s) (mangledAddress build policy (kind.target s)) blockInstr
      (run alu (saveScratch ++ mangleTarget build policy ++ hashTarget jumpTable blockInstr)
        (Gencode.loadTarget alu kind s)) := by
  have h := (Gencode.iblLookupStub_arrives alu (.init jumpTable 0) build kind policy blockInstr s).1
  simp only [Gencode.iblLookupStub, Gencode.Ibl.init] at h
  generalize run alu _ _ = t at h ⊢
  exact ⟨h.rsp, h.rdi, h.rsi, h.reg, h.savedFlags, h.savedRsi, h.savedRax, h.savedRdi⟩

theorem lookup_frame (v : Word) (s : State) :
    Frame (s.reg .rsp) 32 s.mem (run alu (saveScratch ++ mangleTarget build policy ++ hashTarget jumpTable blockInstr)
      (Gencode.loadTarget alu (.branch v) s)).mem := by
  have hsave := Gencode.saveScratch_spec alu (Gencode.loadTarget alu (.branch v) s)
  rw [run_append, run_append, (Gencode.hashTarget_spec alu jumpTable blockInstr _).2.2.2,
    (Gencode.mangleTarget_spec alu build policy _).2.2]
  have hmem := hsave.mem
  rw [(Gencode.loadTarget_spec alu (.branch v) s).rsp] at hmem
  exact Frame.push hmem (by decide)

theorem forall_mangledAddress_iff {a b : Word} :
    (∀ policy, mangledAddress build policy a = mangledAddress build policy b) ↔ a = b := by
  have hput : ∀ x : Word, Policies.MangledBits.setPolicyBits (Policies.MangledBits.policyBits x) x = x := by
    intro x
    refine BitVec.eq_of_getLsbD_eq fun i hi => ?_
    rw [Policies.MangledBits.setPolicyBits, BitField.getLsbD_put hi]
    split
    · rw [Gencode.getLsbD_policyBits (by omega) hi]
    · rfl
  have hid : ∃ policy, ∀ x, mangledAddress build policy x = x := by
    cases hk : build.kernel with
    | true =>
      refine ⟨BitVec.allOnes 16, fun x => ?_⟩
      rw [Gencode.mangledAddress_eq, if_pos hk, BitVec.and_allOnes, hput]
    | false =>
      refine ⟨0#16, fun x => ?_⟩
      rw [Gencode.mangledAddress_eq, if_neg (by simp [hk]), BitVec.or_zero, hput]
  obtain ⟨policy, hpolicy⟩ := hid
  constructor
  · intro h
    rw [← hpolicy a, h policy, hpolicy b]
  · rintro rfl _
    rfl

theorem forall_mangled_iff {far : Bool} {f g : State → Word} (regs : Reg → Word) :
    (∀ (policy : BitVec 16) (_ : Word) (s : State), s.reg = regs →
        far = false ∧ mangledAddress build policy (f s) = mangledAddress build policy (g s)) ↔
      far = false ∧ ∀ s : State, s.reg = regs → f s = g s := by
  constructor
  · intro h
    refine ⟨(h 0 0 { reg := regs, flags := 0, rip := 0, mem := fun _ => 0 } rfl).1, fun s hs => ?_⟩
    exact forall_mangledAddress_iff.mp fun policy => (h policy 0 s hs).2
  · rintro ⟨hfar, h⟩ policy _ s hs
    exact ⟨hfar, by rw [h s hs]⟩

theorem setsUp_jmp_iff (far : Bool) (target : CtiTarget) (s : State) :
    SetsUp alu segBase addrOf build estimatorPc policy jumpTable blockInstr (.jmp far target) s ↔
      far = false ∧ mangledAddress build policy (loadValue segBase estimatorPc 8 (s.push (s.reg .rdi)) target) =
        mangledAddress build policy (target.value segBase s) := by
  have hrun : runItems alu segBase addrOf (mangleIblLookup build estimatorPc policy jumpTable blockInstr (.jmp far target))
      (1 + (branchOps build estimatorPc policy jumpTable blockInstr 8 target).length)
      (mangleIblLookup build estimatorPc policy jumpTable blockInstr (.jmp far target)) s =
      some (execOps alu segBase (branchOps build estimatorPc policy jumpTable blockInstr 8 target) s) :=
    runItems_ops (branchOps_isOp 8 target) 1 [.jmpInd] s
  have harrives := lookup_arrives alu build policy jumpTable blockInstr
    (.branch (loadValue segBase estimatorPc 8 (s.push (s.reg .rdi)) target)) s
  rw [branchOps_exec] at hrun
  constructor
  · rintro ⟨hfar, fuel, s', hs', h, -⟩
    rw [runItems_unique hrun hs'] at harrives
    exact ⟨hfar, harrives.rdi.symm.trans h.rdi⟩
  · rintro ⟨hfar, h⟩
    refine ⟨hfar, _, _, hrun, ?_, fun _ _ h => by simp at h⟩
    rw [IndirectCti.target, ← h]
    exact harrives

theorem runItems_call (hops : ∀ item ∈ ops, item.isOp = true) (s : State) :
    let prog := [.jmp .doCallCti, .label .callTarget] ++ ops ++ [.jmpInd, .label .doCallCti, .call .callTarget]
    runItems alu segBase addrOf prog (1 + ops.length + 1 + 1) prog s =
      some (execOps alu segBase ops (s.push (addrOf 0))) := by
  intro prog
  have hdo : findLabel .doCallCti prog = some [.call .callTarget] :=
    findLabel_ops hops [.jmpInd, .label .doCallCti, .call .callTarget]
  have htarget : findLabel .callTarget prog = some (ops ++ [.jmpInd, .label .doCallCti, .call .callTarget]) := rfl
  have hjmp : runItems alu segBase addrOf prog (1 + ops.length + 1 + 1) prog s =
      (findLabel .doCallCti prog).bind fun items => runItems alu segBase addrOf prog (1 + ops.length + 1) items s := rfl
  rw [hjmp, hdo, Option.bind_some, runItems, htarget, Option.bind_some, runItems_ops hops 1]
  rfl

theorem setsUp_call_iff (far : Bool) (target : CtiTarget) (s : State) :
    SetsUp alu segBase addrOf build estimatorPc policy jumpTable blockInstr (.call far target) s ↔
      far = false ∧ mangledAddress build policy
          (loadValue segBase estimatorPc 16 ((s.push (addrOf 0)).push ((s.push (addrOf 0)).reg .rdi)) target) =
        mangledAddress build policy (target.value segBase s) := by
  have hrun : runItems alu segBase addrOf (mangleIblLookup build estimatorPc policy jumpTable blockInstr (.call far target))
      (1 + (branchOps build estimatorPc policy jumpTable blockInstr 16 target).length + 1 + 1)
      (mangleIblLookup build estimatorPc policy jumpTable blockInstr (.call far target)) s =
      some (execOps alu segBase (branchOps build estimatorPc policy jumpTable blockInstr 16 target) (s.push (addrOf 0))) :=
    runItems_call (branchOps_isOp 16 target) s
  rw [branchOps_exec] at hrun
  generalize hv : loadValue segBase estimatorPc 16 ((s.push (addrOf 0)).push ((s.push (addrOf 0)).reg .rdi)) target = v at hrun
  have harrives := lookup_arrives alu build policy jumpTable blockInstr (.branch v) (s.push (addrOf 0))
  have hreturn : ∀ s' : State, s'.reg .rsp = (s.push (addrOf 0)).reg .rsp - 32 →
      Frame ((s.push (addrOf 0)).reg .rsp) 32 (s.push (addrOf 0)).mem s'.mem →
      s'.mem.read (s'.reg .rsp + 32) = addrOf 0 := by
    intro s' hrsp hframe
    rw [hrsp, BitVec.sub_add_cancel, hframe.read_eq (by rw [BitVec.sub_self]; decide)]
    exact push_top s (addrOf 0)
  constructor
  · rintro ⟨hfar, fuel, s', hs', h, -⟩
    rw [runItems_unique hrun hs'] at harrives
    exact ⟨hfar, harrives.rdi.symm.trans h.rdi⟩
  · rintro ⟨hfar, h⟩
    refine ⟨hfar, _, _, hrun, ?_, fun _ _ _ => hreturn _ harrives.rsp (lookup_frame v _)⟩
    rw [IndirectCti.target, ← h]
    exact harrives

theorem setsUp_ret_iff (far : Bool) (bytes : BitVec 16) (s : State) :
    SetsUp alu segBase addrOf build estimatorPc policy jumpTable blockInstr (.ret far bytes) s ↔ far = false ∧ bytes = 0 := by
  have hops : ∀ item ∈ Item.xchgTop :: lookupItems build policy jumpTable blockInstr, item.isOp = true := by
    intro item hitem
    rcases List.mem_cons.mp hitem with rfl | hitem
    · rfl
    · exact lookupItems_isOp item hitem
  have hrun : runItems alu segBase addrOf (mangleIblLookup build estimatorPc policy jumpTable blockInstr (.ret far bytes))
      (1 + (Item.xchgTop :: lookupItems build policy jumpTable blockInstr).length)
      (mangleIblLookup build estimatorPc policy jumpTable blockInstr (.ret far bytes)) s =
      some (execOps alu segBase (.xchgTop :: lookupItems build policy jumpTable blockInstr) s) :=
    runItems_ops hops 1 [.jmpInd] s
  rw [execOps_cons, lookupItems_exec] at hrun
  have harrives : Arrives (s.drop 8) _ blockInstr (run alu _ (Item.exec alu segBase s .xchgTop)) :=
    lookup_arrives alu build policy jumpTable blockInstr .ret s
  constructor
  · rintro ⟨hfar, fuel, s', hs', h, -⟩
    -- the code drops the target only
    rw [runItems_unique hrun hs'] at harrives
    have hrsp := harrives.rsp.symm.trans h.rsp
    simp only [IndirectCti.native, State.drop, State.set, Function.update_self] at hrsp
    exact ⟨hfar, by bv_omega⟩
  · rintro ⟨hfar, rfl⟩
    exact ⟨hfar, _, _, hrun, harrives, fun _ _ h => by simp at h⟩

/-! ## Which targets are loaded -/

theorem loadValue_iff (ws : List (Word × Word)) (hpos : 0 < 8 * ws.length) (hlen : 8 * ws.length < 2 ^ 31)
    (target : CtiTarget) {regs : Reg → Word}
    {push : State → State} (hreg : ∀ s : State, s.reg = regs → (push s).reg = pushedRegs regs (8 * ws.length))
    (hmem : ∀ s : State, s.reg = regs → (push s).mem = s.mem.writes ws) :
    (∀ s : State, s.reg = regs →
        loadValue segBase estimatorPc (ofNat 32 (8 * ws.length)) (push s) target = target.value segBase s) ↔
      target.Kept segBase estimatorPc (ws.map Prod.fst) regs := by
  match target with
  | .reg r hr =>
    refine iff_of_true (fun s hs => ?_) trivial
    rw [loadValue, hreg s hs, pushedRegs_of_ne _ _ hr, CtiTarget.value, hs]
  | .mem op =>
    have hread : (∀ s : State, s.reg = regs →
          loadValue segBase estimatorPc (ofNat 32 (8 * ws.length)) (push s) (.mem op) =
            CtiTarget.value segBase s (.mem op)) ↔
        ∀ m : Memory, (m.writes ws).read
            (loadAddr segBase estimatorPc (ofNat 32 (8 * ws.length)) (pushedRegs regs (8 * ws.length)) op) =
          m.read (op.addr segBase regs) := by
      constructor
      · intro h m
        have hs := h { reg := regs, flags := 0, rip := 0, mem := m } rfl
        rwa [loadValue, hreg _ rfl, hmem _ rfl] at hs
      · intro h s hs
        rw [loadValue, hreg s hs, hmem s hs, h, CtiTarget.value, hs]
    rw [hread, forall_writes_read_iff, loadAddr_eq_iff hpos hlen, CtiTarget.Kept, List.length_map]
    simp

theorem loadValue_jmp_iff (target : CtiTarget) (regs : Reg → Word) :
    (∀ s : State, s.reg = regs → loadValue segBase estimatorPc 8 (s.push (s.reg .rdi)) target = target.value segBase s) ↔
      target.Kept segBase estimatorPc [regs .rsp - 8] regs := by
  refine loadValue_iff [(regs .rsp - 8, regs .rdi)] (Nat.zero_lt_succ 7) (show 8 * 1 < 2 ^ 31 by decide) target ?_ ?_
  · rintro s rfl
    rfl
  · rintro s rfl
    rfl

theorem loadValue_call_iff (returnAddr : Word) (target : CtiTarget) (regs : Reg → Word) :
    (∀ s : State, s.reg = regs → loadValue segBase estimatorPc 16
        ((s.push returnAddr).push ((s.push returnAddr).reg .rdi)) target = target.value segBase s) ↔
      target.Kept segBase estimatorPc [regs .rsp - 8, regs .rsp - 16] regs := by
  have hslot : regs .rsp - 8 - 8 = regs .rsp - 16 := BitVec.sub_sub _ 8 8
  refine loadValue_iff [(regs .rsp - 8, returnAddr), (regs .rsp - 16, regs .rdi)] (Nat.zero_lt_succ 15)
    (show 8 * 2 < 2 ^ 31 by decide) target ?_ ?_
  · rintro s rfl
    simp only [State.push, Function.update_self, Function.update_idem]
    exact congrArg _ hslot
  · rintro s rfl
    simp only [State.push, Function.update_self]
    rw [hslot]
    rfl

end Granary.Mangle
