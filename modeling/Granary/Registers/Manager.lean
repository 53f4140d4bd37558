import Granary.Lib.BitSet
import Granary.Registers.Zombies

/-!
# The state of the register manager

The four bit sets of the `register_manager` of `granary/register.cc`: the registers that are live, and those that were handed
out. Together with the history of the operations on it they say which registers can be handed out next.
-/

namespace Granary.Registers

open Machine

def regIndex : Reg → Nat
  | .rax => 0
  | .rcx => 1
  | .rdx => 2
  | .rbx => 3
  | .rsp => 4
  | .rbp => 5
  | .rsi => 6
  | .rdi => 7
  | .r8 => 8
  | .r9 => 9
  | .r10 => 10
  | .r11 => 11
  | .r12 => 12
  | .r13 => 13
  | .r14 => 14
  | .r15 => 15

theorem regIndex_lt (r : Reg) : regIndex r < 16 := by cases r <;> decide

def regPos (r : Reg) : Fin 16 := ⟨regIndex r, regIndex_lt r⟩

def regAt (pos : Fin 16) : Reg := gprs.get pos

inductive Tracked where
  | gpr (r : Reg)
  | xmm (x : Fin 16)
deriving DecidableEq, Repr

@[ext] structure Manager where
  live : BitVec 16
  undead : BitVec 16
  liveXmm : BitVec 16
  undeadXmm : BitVec 16
deriving DecidableEq, Repr

/-! ## Operations -/

namespace Manager

def forceLiveBits : BitVec 16 := 1#16 <<< 4

def killAll : Manager := { live := forceLiveBits, undead := 0, liveXmm := 0, undeadXmm := 0 }

def reviveAll : Manager :=
  { live := BitVec.allOnes 16, undead := 0, liveXmm := BitVec.allOnes 16, undeadXmm := 0 }

def kill64 (m : Manager) : RegId → Manager
  | .gpr r w =>
    if w = .w64 ∨ w = .w32 then
      { m with undead := BitSet.erase m.undead (regPos r), live := BitSet.erase m.live (regPos r) ||| forceLiveBits }
    else m
  | _ => m

def revive64 (m : Manager) : RegId → Manager
  | .gpr r _ => { m with undead := BitSet.erase m.undead (regPos r), live := BitSet.insert m.live (regPos r) }
  | _ => m

def killXmm (m : Manager) : RegId → Manager
  | .xmm x => { m with undeadXmm := BitSet.erase m.undeadXmm x, liveXmm := BitSet.erase m.liveXmm x }
  | _ => m

def reviveXmm (m : Manager) : RegId → Manager
  | .xmm x => { m with undeadXmm := BitSet.erase m.undeadXmm x, liveXmm := BitSet.insert m.liveXmm x }
  | _ => m

def kill (m : Manager) : RegId → Manager
  | r@(.null) | r@(.gpr ..) => m.kill64 r
  | r => m.killXmm r

def revive (m : Manager) : RegId → Manager
  | r@(.null) | r@(.gpr ..) => m.revive64 r
  | r => m.reviveXmm r

def killOp (m : Manager) : Operand → Manager
  | .reg r => m.kill r
  | .baseDisp base index => (m.kill64 base).kill64 index
  | .other => m

def reviveOp (m : Manager) : Operand → Manager
  | .reg r => m.revive r
  | .baseDisp base index => (m.revive64 base).revive64 index
  | .other => m

variable {β : Type}

def killInstr (m : Manager) (i : Instr β) : Manager :=
  if i.opcode = .nop then m else i.srcs.foldl killOp (i.dsts.foldl killOp m)

def reviveInstr (m : Manager) (i : Instr β) : Manager :=
  if i.opcode = .nop then m else i.srcs.foldl reviveOp (i.dsts.foldl reviveOp m)

def visitDest (opcode : Opcode) (acc : Manager × BitVec 16) : Operand → Manager × BitVec 16
  | .reg r => (if opcode = .bsr ∨ opcode = .bsf then acc.1.revive r else acc.1.kill r, acc.2)
  | .baseDisp base index =>
    let m := ({ acc.1 with live := 0 }.revive64 base).revive64 index
    ({ m with live := acc.1.live }, acc.2 ||| m.live)
  | .other => acc

def visitDests (m : Manager) (i : Instr β) : Manager :=
  if i.opcode = .nop then m
  else
    let (m, mustLive) := i.dsts.foldl (visitDest i.opcode) (m, forceLiveBits)
    let m := { m with live := m.live ||| mustLive }
    (repRegs i.opcode).foldl revive64 m

def visit (m : Manager) (i : Instr β) : Manager :=
  if i.opcode = .nop then m
  else if i.opcode = .cti then reviveAll
  else i.srcs.foldl reviveOp (m.visitDests i)

def firstFree (live undead : BitVec 16) : Option (Fin 16) :=
  (List.finRange 16).find? fun pos => !BitSet.has (live ||| undead) pos

def getZombie (m : Manager) : RegId × Manager :=
  match firstFree m.live m.undead with
  | none => (.null, m)
  | some pos => (.gpr (regAt pos) .w64, { m with undead := BitSet.insert m.undead pos })

def getXmmZombie (m : Manager) : RegId × Manager :=
  match firstFree m.liveXmm m.undeadXmm with
  | none => (.null, m)
  | some pos => (.xmm pos, { m with undeadXmm := BitSet.insert m.undeadXmm pos })

/-- The other registers fault, or are looked up behind the end of `REG_TO_REG64`. -/
def isUndead (m : Manager) : RegId → Option Bool
  | .null => some false
  | .gpr r _ => some (BitSet.has (m.live ||| m.undead) (regPos r))
  | .xmm x => some (BitSet.has (m.liveXmm ||| m.undead) x)
  | .mmx _ | .other _ => none

def encode (m : Manager) : BitVec 32 := m.liveXmm.setWidth 32 <<< 16 ||| m.live.setWidth 32

def decode (bitmask : BitVec 32) : Manager :=
  { undead := 0
    undeadXmm := 0
    live := (bitmask &&& 0xff).setWidth 16 ||| forceLiveBits
    liveXmm := (bitmask >>> 16 &&& 0xff).setWidth 16 }

/-! ## Bits of a register -/

def lives (m : Manager) : Tracked → Bool
  | .gpr r => BitSet.has m.live (regPos r)
  | .xmm x => BitSet.has m.liveXmm x

def isZombie (m : Manager) : Tracked → Bool
  | .gpr r => BitSet.has m.undead (regPos r)
  | .xmm x => BitSet.has m.undeadXmm x

/-- None of the registers `r8` to `r15`, or `xmm8` to `xmm15`, is in the set. -/
def LowOnly (regs : BitVec 16) : Prop := ∀ p : Fin 16, 8 ≤ p.val → BitSet.has regs p = false

def liveness (m : Manager) : RegisterManager :=
  { live := fun r => m.lives (.gpr r), liveXmm := fun x => m.lives (.xmm x) }

end Manager

/-! ## Histories -/

def RegId.tracked : RegId → Option Tracked
  | gpr r _ => some (.gpr r)
  | xmm x => some (.xmm x)
  | _ => none

def RegId.isKilled (id : RegId) (t : Tracked) : Bool :=
  match id with
  | gpr r w => (w = .w64 ∨ w = .w32) ∧ t = .gpr r
  | id => id.tracked = some t

def RegId.isRevived (id : RegId) (t : Tracked) : Bool := id.tracked = some t

def RegId.isGpr : RegId → Bool
  | gpr .. => true
  | _ => false

/-- A register of the operand has the property. Those of an address are general-purpose registers. -/
def Operand.anyReg (f : RegId → Bool) : Operand → Bool
  | reg r => f r
  | baseDisp base index => base.isGpr && f base || index.isGpr && f index
  | other => false

inductive Op (β : Type) where
  | kill (r : RegId)
  | killOp (op : Operand)
  | killInstr (i : Instr β)
  | revive (r : RegId)
  | reviveOp (op : Operand)
  | reviveInstr (i : Instr β)
  | killAll
  | reviveAll
  | visit (i : Instr β)
  | getZombie
  | getXmmZombie

namespace Op

variable {β : Type}

/-- The register that is handed out, if any, and the manager after the operation. -/
def step (m : Manager) : Op β → RegId × Manager
  | kill r => (.null, m.kill r)
  | killOp op => (.null, m.killOp op)
  | killInstr i => (.null, m.killInstr i)
  | revive r => (.null, m.revive r)
  | reviveOp op => (.null, m.reviveOp op)
  | reviveInstr i => (.null, m.reviveInstr i)
  | killAll => (.null, .killAll)
  | reviveAll => (.null, .reviveAll)
  | visit i => (.null, m.visit i)
  | getZombie => m.getZombie
  | getXmmZombie => m.getXmmZombie

/-- The destination is killed, or revived in an address or by an instruction that may leave it alone. -/
def visitsDest (opcode : Opcode) (t : Tracked) : Operand → Bool
  | .reg r => if opcode = .bsr ∨ opcode = .bsf then r.isRevived t else r.isKilled t
  | op => op.anyReg (·.isRevived t)

def touches (t : Tracked) : Op β → Bool
  | kill r => r.isKilled t
  | killOp op => op.anyReg (·.isKilled t)
  | killInstr i => i.opcode ≠ .nop && (i.dsts ++ i.srcs).any (·.anyReg (·.isKilled t))
  | revive r => r.isRevived t
  | reviveOp op => op.anyReg (·.isRevived t)
  | reviveInstr i => i.opcode ≠ .nop && (i.dsts ++ i.srcs).any (·.anyReg (·.isRevived t))
  | killAll | reviveAll => true
  | visit i =>
    i.opcode ≠ .nop &&
      (i.opcode = .cti || i.dsts.any (visitsDest i.opcode t) || (repRegs i.opcode).any (·.isRevived t) ||
        i.srcs.any (·.anyReg (·.isRevived t)))
  | getZombie | getXmmZombie => false

end Op

/-- A manager after operations, with the registers that they handed out, the last one first. -/
structure History (β : Type) where
  manager : Manager
  events : List (Op β × RegId)

namespace History

variable {β : Type}

def init : History β := { manager := .reviveAll, events := [] }

def next (h : History β) (op : Op β) : History β :=
  { manager := (op.step h.manager).2, events := (op, (op.step h.manager).1) :: h.events }

def run (ops : List (Op β)) : History β := ops.foldl next init

/-- The register was handed out after it was last killed or revived. -/
def outIn (t : Tracked) : List (Op β × RegId) → Bool
  | [] => false
  | (op, id) :: events => !op.touches t && (id.tracked = some t || outIn t events)

def handedOut (h : History β) (t : Tracked) : Bool := outIn t h.events

def Free (h : History β) (t : Tracked) : Prop := h.manager.lives t = false ∧ h.handedOut t = false

instance (h : History β) (t : Tracked) : Decidable (h.Free t) := inferInstanceAs (Decidable (_ ∧ _))

structure Sound (h : History β) : Prop where
  rsp : h.manager.lives (.gpr .rsp) = true
  zombie : (∃ r, h.manager.getZombie.1 = .gpr r .w64 ∧ h.Free (.gpr r)) ∨
    h.manager.getZombie.1 = .null ∧ ∀ r, ¬ h.Free (.gpr r)
  xmmZombie : (∃ x, h.manager.getXmmZombie.1 = .xmm x ∧ h.Free (.xmm x)) ∨
    h.manager.getXmmZombie.1 = .null ∧ ∀ x, ¬ h.Free (.xmm x)
  undead : ∀ id t, id.tracked = some t → h.manager.isUndead id = some (h.manager.lives t || h.handedOut t)

end History

end Granary.Registers
