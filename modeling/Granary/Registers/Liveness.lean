import Granary.Lib.X86

/-!
# Register liveness

The `register_manager` of `granary/register.cc` as it visits instructions backwards, and the instructions it visits: their
operands as the decoder lists them, and their effect on the registers. The sets of zombies do not matter for liveness.
-/

namespace Granary.Registers

open Machine

/-! ## Operands -/

inductive Width where
  | w64 | w32 | w16 | w8 | w8High
deriving DecidableEq, Repr

/-- A `reg_id_t`. The segment, debug, control and floating point registers are `other`. -/
inductive RegId where
  | null
  | gpr (r : Reg) (w : Width)
  | mmx (i : Fin 8)
  | xmm (x : Fin 16)
  | other (id : Nat)
deriving DecidableEq, Repr

def RegId.names : RegId → Reg → Bool
  | gpr r _, q => r = q
  | _, _ => false

/-- The operands that matter here: registers, and memory at a base and an index. -/
inductive Operand where
  | reg (r : RegId)
  | baseDisp (base index : RegId)
  | other
deriving DecidableEq, Repr

namespace Operand

def addresses : Operand → Reg → Bool
  | baseDisp base index, q => base.names q || index.names q
  | _, _ => false

/-- The operand is the register, or is at an address that is computed from it. -/
def mentions : Operand → Reg → Bool
  | reg r, q => r.names q
  | op, q => op.addresses q

end Operand

/-- The opcodes that `visit` and `visit_dests` treat in their own way. -/
inductive Opcode where
  | nop | cti | bsf | bsr
  | repIns | repStos | repScas | repneScas | repOuts | repLods | repMovs | repCmps | repneCmps
  | other
deriving DecidableEq, Repr

/-! ## Instructions -/

/-- The registers, and all else that instructions read and write. -/
@[ext] structure RegState (β : Type) where
  gpr : Reg → BitVec 64
  xmm : Fin 16 → BitVec 128
  rest : β

/-- The bits of a register that are written, and the others as they were. -/
def merge {w : Nat} (old mask value : BitVec w) : BitVec w := old &&& ~~~mask ||| value &&& mask

/-- For each register which of its bits are written, and to what value. A 32-bit write also clears the high half. -/
structure Effect (β : Type) where
  gprMask : Reg → BitVec 64
  gpr : Reg → BitVec 64
  xmmMask : Fin 16 → BitVec 128
  xmm : Fin 16 → BitVec 128
  rest : β

def Effect.apply {β : Type} (e : Effect β) (s : RegState β) : RegState β :=
  { gpr := fun r => merge (s.gpr r) (e.gprMask r) (e.gpr r)
    xmm := fun x => merge (s.xmm x) (e.xmmMask x) (e.xmm x)
    rest := e.rest }

/-- An instruction reads the register as a source or to compute an address. -/
def ReadsGpr (dsts srcs : List Operand) (r : Reg) : Prop := (∃ op ∈ srcs, op.mentions r) ∨ ∃ op ∈ dsts, op.addresses r

structure Instr (β : Type) where
  opcode : Opcode
  dsts : List Operand
  srcs : List Operand
  eval : RegState β → Effect β
  nop_eval : opcode = .nop → ∀ s, (eval s).apply s = s

variable {β : Type}

def Instr.exec (i : Instr β) (s : RegState β) : RegState β := (i.eval s).apply s

def exec (seq : List (Instr β)) (s : RegState β) : RegState β := seq.foldl (fun s i => i.exec s) s

/-! ## The register manager -/

structure RegisterManager where
  live : Reg → Bool
  liveXmm : Fin 16 → Bool

def forceLive (r : Reg) : Bool := r = .rsp

namespace RegisterManager

def reviveAll : RegisterManager := { live := fun _ => true, liveXmm := fun _ => true }

def kill64 (rm : RegisterManager) : RegId → RegisterManager
  | .gpr r w =>
    if w = .w64 ∨ w = .w32 then { rm with live := fun q => q ≠ r && rm.live q || forceLive q } else rm
  | _ => rm

def revive64 (rm : RegisterManager) (r : RegId) : RegisterManager := { rm with live := fun q => rm.live q || r.names q }

def killXmm (rm : RegisterManager) : RegId → RegisterManager
  | .xmm x => { rm with liveXmm := Function.update rm.liveXmm x false }
  | _ => rm

def reviveXmm (rm : RegisterManager) : RegId → RegisterManager
  | .xmm x => { rm with liveXmm := Function.update rm.liveXmm x true }
  | _ => rm

def kill (rm : RegisterManager) : RegId → RegisterManager
  | r@(.null) | r@(.gpr ..) => rm.kill64 r
  | r => rm.killXmm r

def revive (rm : RegisterManager) : RegId → RegisterManager
  | r@(.null) | r@(.gpr ..) => rm.revive64 r
  | r => rm.reviveXmm r

def reviveOp (rm : RegisterManager) : Operand → RegisterManager
  | .reg r => rm.revive r
  | .baseDisp base index => (rm.revive64 base).revive64 index
  | .other => rm

def visitDest (opcode : Opcode) (acc : RegisterManager × (Reg → Bool)) : Operand → RegisterManager × (Reg → Bool)
  | .reg r => (if opcode = .bsr ∨ opcode = .bsf then acc.1.revive r else acc.1.kill r, acc.2)
  | .baseDisp base index =>
    let live := (({ acc.1 with live := fun _ => false }.revive64 base).revive64 index).live
    (acc.1, fun q => acc.2 q || live q)
  | .other => acc

end RegisterManager

/-- The registers that `visit_dests` revives for a string operation with a prefix. -/
def repRegs : Opcode → List RegId
  | .repIns | .repStos | .repScas | .repneScas => [.gpr .rdi .w64, .gpr .rcx .w64]
  | .repOuts | .repLods => [.gpr .rsi .w64, .gpr .rcx .w64]
  | .repMovs | .repCmps | .repneCmps => [.gpr .rsi .w64, .gpr .rdi .w64, .gpr .rcx .w64]
  | _ => []

namespace RegisterManager

def visitDests (rm : RegisterManager) (i : Instr β) : RegisterManager :=
  if i.opcode = .nop then rm
  else
    let (rm, mustLive) := i.dsts.foldl (visitDest i.opcode) (rm, forceLive)
    let rm := { rm with live := fun q => rm.live q || mustLive q }
    (repRegs i.opcode).foldl revive64 rm

def visit (rm : RegisterManager) (i : Instr β) : RegisterManager :=
  if i.opcode = .nop then rm
  else if i.opcode = .cti then reviveAll
  else i.srcs.foldl reviveOp (rm.visitDests i)

def before (seq : List (Instr β)) : RegisterManager := seq.foldr (fun i rm => rm.visit i) reviveAll

end RegisterManager

/-! ## Soundness -/

structure AgreeOn (rm : RegisterManager) (s s' : RegState β) : Prop where
  gpr : ∀ r, rm.live r = true → s.gpr r = s'.gpr r
  xmm : ∀ x, rm.liveXmm x = true → s.xmm x = s'.xmm x
  rest : s.rest = s'.rest

/-- From every point of the sequence, states that differ only in registers that are dead there end in the same state. -/
def SoundLiveness (seq : List (Instr β)) : Prop :=
  ∀ done todo, seq = done ++ todo → ∀ s s', AgreeOn (.before todo) s s' → exec todo s = exec todo s'

/-- What an instruction does depends only on the registers that it lists as read, and on the rest of the state. CPUID, which
reads `ecx`, is not like this, nor is what reads XMM registers as parts of YMM registers or saves them all. -/
def Instr.ReadsListed (i : Instr β) : Prop :=
  i.opcode ≠ .cti → ∀ s s', s.rest = s'.rest → (∀ r, ReadsGpr i.dsts i.srcs r → s.gpr r = s'.gpr r) →
    (∀ x, .reg (.xmm x) ∈ i.srcs → s.xmm x = s'.xmm x) → i.eval s = i.eval s'

/-- The register is a destination of 32 or 64 bits that the instruction does not list as read. -/
def Instr.KillsGpr (i : Instr β) (r : Reg) : Prop :=
  i.opcode ∉ [.nop, .cti, .bsf, .bsr] ∧ (.reg (.gpr r .w64) ∈ i.dsts ∨ .reg (.gpr r .w32) ∈ i.dsts) ∧ r ≠ .rsp ∧
    ¬ ReadsGpr i.dsts i.srcs r ∧ ∀ q ∈ repRegs i.opcode, q.names r = false

def Instr.KillsXmm (i : Instr β) (x : Fin 16) : Prop :=
  i.opcode ∉ [.nop, .cti, .bsf, .bsr] ∧ .reg (.xmm x) ∈ i.dsts ∧ .reg (.xmm x) ∉ i.srcs

structure Instr.WritesWhole (i : Instr β) : Prop where
  gpr : ∀ r, i.KillsGpr r → ∀ s, (i.eval s).gprMask r = BitVec.allOnes 64
  xmm : ∀ x, i.KillsXmm x → ∀ s, (i.eval s).xmmMask x = BitVec.allOnes 128

end Granary.Registers
