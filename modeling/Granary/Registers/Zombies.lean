import Granary.Registers.UsedRegs

/-!
# Choosing registers

`get_zombie` of `granary/register.cc`, which hands out registers that are not live, and what it can tell from the decoded
form of an instruction.
-/

namespace Granary.Registers

open Machine

def gprs : List Reg :=
  [.rax, .rcx, .rdx, .rbx, .rsp, .rbp, .rsi, .rdi, .r8, .r9, .r10, .r11, .r12, .r13, .r14, .r15]

def First (P : Reg → Prop) (r : Reg) : Prop := P r ∧ ∃ before after, gprs = before ++ r :: after ∧ ∀ q ∈ before, ¬ P q

def Operand.isPartOf : Operand → Reg → Bool
  | reg r, q => r.names q
  | _, _ => false

namespace RegisterManager

def reviveInstr {β : Type} (rm : RegisterManager) (i : Instr β) : RegisterManager :=
  if i.opcode = .nop then rm else i.srcs.foldl reviveOp (i.dsts.foldl reviveOp rm)

def getZombie (rm : RegisterManager) (undead : Reg → Bool) : Option Reg × (Reg → Bool) :=
  match gprs.find? fun r => !(rm.live r || undead r) with
  | none => (none, undead)
  | some r => (some r, fun q => undead q || q = r)

end RegisterManager

/-! ## Decoded instructions -/

/-- The bits that change when this part of a register is written. A 32-bit write also clears the high half. -/
def Width.mask : Width → BitVec 64
  | .w64 | .w32 => BitVec.allOnes 64
  | .w16 => 0xffff
  | .w8 => 0xff
  | .w8High => 0xff00

def Operand.mask : Operand → Reg → BitVec 64
  | reg (.gpr q w), r => if q = r then w.mask else 0
  | _, _ => 0

def writable (dsts : List Operand) (r : Reg) : BitVec 64 := dsts.foldr (fun op mask => op.mask r ||| mask) 0

/-- What the decoder says, and which registers are overwritten in every state and not read without being listed as read. BSF
and BSR may leave their destination alone. -/
structure Shape where
  opcode : Opcode
  dsts : List Operand
  srcs : List Operand
  always : Reg → Bool
  always_dst : ∀ r, always r = true →
    opcode ∉ [.nop, .bsf, .bsr] ∧ (.reg (.gpr r .w64) ∈ dsts ∨ .reg (.gpr r .w32) ∈ dsts)
  -- the counter and the pointers of a string operation are listed as sources
  rep_reads : ∀ q ∈ repRegs opcode, ∀ r, q.names r = true → ReadsGpr dsts srcs r

@[simp] theorem merge_zero {w : Nat} (old value : BitVec w) : merge old 0#w value = old := by
  rw [merge, BitVec.not_zero, BitVec.and_allOnes, BitVec.and_zero, BitVec.or_zero]

namespace Shape

def plain {β : Type} (d : Shape) : Instr β where
  opcode := d.opcode
  dsts := d.dsts
  srcs := d.srcs
  eval s :=
    { gprMask := fun r => if d.always r then BitVec.allOnes 64 else 0#64
      gpr := fun _ => 0
      xmmMask := fun _ => 0#128
      xmm := fun _ => 0
      rest := s.rest }
  nop_eval hnop s := by
    have halways : ∀ r, d.always r = false := fun r => Bool.eq_false_iff.mpr fun h => (d.always_dst r h).1 (by simp [hnop])
    simp [Effect.apply, halways]

@[simp] theorem plain_opcode {β : Type} (d : Shape) : (d.plain : Instr β).opcode = d.opcode := rfl
@[simp] theorem plain_dsts {β : Type} (d : Shape) : (d.plain : Instr β).dsts = d.dsts := rfl
@[simp] theorem plain_srcs {β : Type} (d : Shape) : (d.plain : Instr β).srcs = d.srcs := rfl

/-- The register manager takes the register for dead before the instruction, whatever comes after it. -/
def Kills (d : Shape) (r : Reg) : Prop := (d.plain : Instr Unit).KillsGpr r

/-- The register manager takes the register for live before the instruction, whatever comes after it. -/
def Revives (d : Shape) (r : Reg) : Prop :=
  d.opcode ≠ .nop ∧ (r = .rsp ∨ ReadsGpr d.dsts d.srcs r ∨ (∃ q ∈ repRegs d.opcode, q.names r = true) ∨
    (d.opcode = .bsr ∨ d.opcode = .bsf) ∧ ∃ op ∈ d.dsts, op.isPartOf r = true)

def Mentions (d : Shape) (r : Reg) : Prop := d.opcode ≠ .nop ∧ ∃ op ∈ d.dsts ++ d.srcs, op.mentions r = true

def DeadBefore (d next : Shape) (r : Reg) : Prop := d.Kills r ∨ next.Kills r ∧ ¬ d.Revives r

/-- The value of the register may matter when the instruction is executed. -/
def Needs (d : Shape) (r : Reg) : Prop := ¬ (d.Kills r ∧ d.always r = true)

end Shape

/-- An instruction that writes at most the registers that it lists, and reads no general-purpose register that it does not
list. -/
structure Instr.HasShape {β : Type} (i : Instr β) (d : Shape) : Prop where
  opcode_eq : i.opcode = d.opcode
  dsts_eq : i.dsts = d.dsts
  srcs_eq : i.srcs = d.srcs
  whole : ∀ r, d.always r = true → ∀ s, (i.eval s).gprMask r = BitVec.allOnes 64
  within : ∀ r s, (i.eval s).gprMask r &&& ~~~writable d.dsts r = 0
  eval_update : ∀ {s : RegState β} {r : Reg} {v : BitVec 64}, d.opcode ≠ .cti → ¬ ReadsGpr d.dsts d.srcs r →
    i.eval { s with gpr := Function.update s.gpr r v } = i.eval s

end Granary.Registers
