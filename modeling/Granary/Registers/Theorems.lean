import Granary.Registers.Lemmas.Manager

/-!
# What register liveness, the search for used registers and the register manager guarantee
-/

namespace Granary.Registers

open Machine

/-- An instruction that writes no register. -/
def noEffect {β : Type} (rest : β) : Effect β :=
  { gprMask := fun _ => 0, gpr := fun _ => 0, xmmMask := fun _ => 0, xmm := fun _ => 0, rest }

def movEaxEbx : Instr Memory where
  opcode := .other
  dsts := [.reg (.gpr .rax .w32)]
  srcs := [.reg (.gpr .rbx .w32)]
  eval s := { noEffect s.rest with
    gprMask := Function.update (fun _ => 0) .rax (BitVec.allOnes 64)
    gpr := Function.update (fun _ => 0) .rax (((s.gpr .rbx).setWidth 32).setWidth 64) }
  nop_eval := nofun

def movssXmm0Xmm1 : Instr Memory where
  opcode := .other
  dsts := [.reg (.xmm 0)]
  srcs := [.reg (.xmm 1)]
  eval s := { noEffect s.rest with
    xmmMask := Function.update (fun _ => 0) 0 0xffffffff
    xmm := Function.update (fun _ => 0) 0 (s.xmm 1) }
  nop_eval := nofun

def repLodsq : Instr Memory where
  opcode := .repLods
  dsts := [.reg (.gpr .rax .w64), .reg (.gpr .rsi .w64), .reg (.gpr .rcx .w64)]
  srcs := [.baseDisp (.gpr .rsi .w64) .null, .reg (.gpr .rsi .w64), .reg (.gpr .rcx .w64)]
  eval s := { noEffect s.rest with
    gprMask := fun r => if r = .rsi ∨ r = .rcx ∨ r = .rax ∧ s.gpr .rcx ≠ 0 then BitVec.allOnes 64 else 0
    gpr := fun r => if r = .rax then s.rest.read (s.gpr .rsi + 8 * (s.gpr .rcx - 1))
      else if r = .rsi then s.gpr .rsi + 8 * s.gpr .rcx else 0 }
  nop_eval := nofun

/-- The search always ends. It finds all written registers exactly if it gives up at an indirect branch, or each of them is a
destination of 32 or 64 bits, or in the address of a destination, of an instruction before any SWAPGS. -/
theorem findsAll_iff (body : FunctionBody) :
    body.FindsAll ↔
      body.GivesUp .visitAllInstructions ∨
        ∀ pc, body.Reachable pc → ∀ q, q ≠ .rsp → (body.code pc).writes q = true →
          ∃ pc', body.Followed .visitAllInstructions pc' ∧ (body.code pc').kills q = true := by
  obtain ⟨used, n, -, hfinds⟩ := body.exists_finds .visitAllInstructions
  rw [FunctionBody.findsAll_iff_forall hfinds]
  constructor
  · intro hall
    by_cases hgives : body.GivesUp .visitAllInstructions
    · exact .inl hgives
    · refine .inr fun pc hpc q hq hwrites => ?_
      exact ((hfinds.gpr q hq).mp (hall pc hpc q hq hwrites)).resolve_left hgives
  · rintro (hgives | hkilled) pc hpc q hq hwrites
    · exact (hfinds.gpr q hq).mpr (.inl hgives)
    · exact (hfinds.gpr q hq).mpr (.inr (hkilled pc hpc q hq hwrites))

/-- `mov ecx, 2; again: mov rax, rcx; loop again; ret`, where LOOP also writes `rcx`. -/
def loopBody : FunctionBody where
  code pc :=
    if pc = 1 then .ofTail .next [.reg (.gpr .rcx .w32)] 4
    else if pc = 6 then .ofTail .next [.reg (.gpr .rax .w64)] 2
    else if pc = 9 then .ofTail (.jcc 6) [.reg (.gpr .rcx .w64)] 1
    else .ofTail .ret [.reg (.gpr .rsp .w64)] 0
  entry := 1
  pcs := {1, 6, 9, 11}
  entry_mem := by decide
  closed := by decide
  null := by decide

def movAlBody : FunctionBody where
  code pc :=
    if pc = 1 then .ofTail .next [.reg (.gpr .rax .w8)] 1
    else .ofTail .ret [.reg (.gpr .rsp .w64)] 0
  entry := 1
  pcs := {1, 3}
  entry_mem := by decide
  closed := by decide
  null := by decide

/-- `swapgs; mov rax, rcx; ret` -/
def swapgsBody : FunctionBody where
  code pc :=
    if pc = 1 then .ofTail .swapgs [] 2
    else if pc = 4 then .ofTail .next [.reg (.gpr .rax .w64)] 2
    else .ofTail .ret [.reg (.gpr .rsp .w64)] 0
  entry := 1
  pcs := {1, 4, 7}
  entry_mem := by decide
  closed := by decide
  null := by decide

theorem findsAll_loopBody : loopBody.FindsAll := by
  refine (findsAll_iff loopBody).mpr (.inr fun pc hpc q hq hwrites => ?_)
  have hmem : pc = 1 ∨ pc = 6 ∨ pc = 9 ∨ pc = 11 := by simpa [loopBody] using FunctionBody.reachable_mem hpc
  have hregs : q = .rcx ∨ q = .rax := by
    rcases hmem with rfl | rfl | rfl | rfl <;> cases q <;>
      first | decide | exact absurd rfl hq | exact absurd hwrites (by decide)
  rcases hregs with rfl | rfl
  · exact ⟨1, .refl, by decide⟩
  · exact ⟨6, .single (.inr rfl), by decide⟩

/-- Writes of 8 bits and what comes after SWAPGS are not found. -/
theorem not_findsAll_partial : ¬ movAlBody.FindsAll ∧ ¬ swapgsBody.FindsAll := by
  constructor
  · have hkills : ∀ pc ∈ movAlBody.pcs,
        (movAlBody.code pc).stops .visitAllInstructions = false ∧ (movAlBody.code pc).kills .rax = false := by decide
    exact FunctionBody.not_findsAll 1 .rax .refl (by decide) (by decide)
      fun pc hpc => hkills pc (FunctionBody.followed_mem hpc)
  · have hstays : ∀ pc, swapgsBody.Followed .visitAllInstructions pc → pc = 1 := by
      intro pc hpc
      induction hpc with
      | refl => rfl
      | tail _ hq ih =>
        subst ih
        exact absurd hq (by simp [swapgsBody, Decoded.ofTail, Decoded.targets, Decoded.goesOn])
    refine FunctionBody.not_findsAll 4 .rax (.single (by decide)) (by decide) (by decide) fun pc hpc => ?_
    rw [hstays pc hpc]
    decide

/-! ## The register manager -/

/-- After every history the manager does what it should, exactly when each XMM register that is not live was handed out iff
the general-purpose register at the same position was. -/
theorem sound_run_iff {β : Type} (ops : List (Op β)) :
    (History.run ops).Sound ↔
      ∀ x, (History.run ops).manager.lives (.xmm x) = true ∨
        (History.run ops).handedOut (.xmm x) = (History.run ops).handedOut (.gpr (regAt x)) := by
  constructor
  · intro h x
    exact (History.run_isUndead_xmm_iff ops x).mp (h.undead _ _ rfl)
  · intro h
    refine ⟨History.run_rsp ops, History.run_getZombie ops, History.run_getXmmZombie ops, fun id t ht => ?_⟩
    cases id with
    | gpr r w =>
      cases ht
      rw [Manager.isUndead_gpr, History.run_isZombie]
    | xmm x =>
      cases ht
      exact (History.run_isUndead_xmm_iff ops x).mpr (h x)
    | null | mmx | other => cases ht

/-- A general-purpose register that is handed out makes an XMM register undead, and one that is handed out is not. -/
theorem not_sound_xmm :
    (History.run [.killAll, .getZombie] : History Unit).manager.isUndead (.xmm 0) = some true ∧
      (History.run [.killAll, .getZombie] : History Unit).Free (.xmm 0) ∧
      (History.run [.killAll, .getXmmZombie] : History Unit).manager.isUndead (.xmm 0) = some false ∧
      (History.run [.killAll, .getXmmZombie] : History Unit).handedOut (.xmm 0) = true ∧
      ¬ (History.run [.killAll, .getXmmZombie] : History Unit).Sound := by
  refine ⟨by decide, by decide, by decide, by decide, fun h => ?_⟩
  exact absurd (h.undead (.xmm 0) (.xmm 0) rfl) (by decide)

end Granary.Registers
