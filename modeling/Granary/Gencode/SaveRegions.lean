import Granary.Gencode.CleanCall
import Granary.Registers.Manager

/-!
# Regions with saved registers

`save_registers`, `restore_registers`, `save_and_restore_registers` and `save_and_restore_xmm_registers` of
`granary/emit_utils.cc`, which save the registers that a register manager hands out around code that is put between, and
`simple_machine_state` of `granary/register.h`, which that code can find them with.
-/

namespace Granary.Gencode

open Machine
open Registers (Manager RegId Tracked Width regIndex)

/-! ## Instruction lists -/

/-- A place in an instruction list: the instructions up to `in`, and those after it. Labels are left out. -/
structure Cursor where
  before : List StubInstr
  after : List StubInstr

namespace Cursor

variable (c : Cursor)

def insertAfter (i : StubInstr) : Cursor := { c with before := c.before ++ [i] }

def insertNext (i : StubInstr) : Cursor := { c with after := i :: c.after }

def insertAround (top bottom : List StubInstr) : Cursor := { before := c.before ++ top, after := bottom ++ c.after }

end Cursor

/-! ## Registers -/

structure SavedRegs where
  manager : Manager
  rsp_live : manager.lives (.gpr .rsp) = true

def nextZombie (m : Manager) : Option (Reg × Manager) :=
  match m.getZombie with
  | (.gpr r _, m) => some (r, m)
  | _ => none

def nextXmmZombie (m : Manager) : Option (Fin 16 × Manager) :=
  match m.getXmmZombie with
  | (.xmm x, m) => some (x, m)
  | _ => none

/-- A loop until there are no more registers, if it takes no more turns than given. -/
def drain {α σ : Type} (next : Manager → Option (α × Manager)) (body : σ → α → σ) : Nat → Manager → σ → Option σ
  | 0, _, _ => none
  | turns + 1, m, acc =>
    match next m with
    | none => some acc
    | some (r, m) => drain next body turns m (body acc r)

/-- There are 16 registers, and a turn to find that all are handed out. -/
def maxTurns : Nat := 17

def SavedRegs.saveRegisters (regs : SavedRegs) (c : Cursor) : Option Cursor :=
  drain nextZombie (fun c r => c.insertAfter (.instr (.push r))) maxTurns regs.manager c

/-- The instructions are inserted before the label that is put after `in`, and before each other. -/
def SavedRegs.restoreRegisters (regs : SavedRegs) (c : Cursor) : Option Cursor :=
  (drain nextZombie (fun window r => .instr (.pop r) :: window) maxTurns regs.manager []).map fun window =>
    { c with before := c.before ++ window }

def SavedRegs.saveAndRestoreRegisters (regs : SavedRegs) (c : Cursor) : Option Cursor :=
  drain nextZombie (fun c r => (c.insertAfter (.instr (.push r))).insertNext (.instr (.pop r))) maxTurns regs.manager c

structure XmmWindow where
  top : List StubInstr
  bottom : List StubInstr
  disp : Word

def XmmWindow.insert (aligned : Bool) (w : XmmWindow) (x : Fin 16) : XmmWindow :=
  { top := .storeXmm aligned w.disp x :: w.top
    bottom := w.bottom ++ [.loadXmm aligned x w.disp]
    disp := w.disp + 16 }

def SavedRegs.saveAndRestoreXmmRegisters (regs : SavedRegs) (aligned : Bool) (c : Cursor) : Option Cursor :=
  (drain nextXmmZombie (XmmWindow.insert aligned) maxTurns regs.manager ⟨[], [], 0⟩).map fun w =>
    if w.disp ≠ 0 then
      c.insertAround (.instr (.lea .rsp .rsp (-w.disp)) :: w.top) (w.bottom ++ [.instr (.lea .rsp .rsp w.disp)])
    else c.insertAround w.top w.bottom

theorem forceLiveBits_rsp : BitSet.has Manager.forceLiveBits (Registers.regPos .rsp) = true := by decide

namespace SavedRegs

variable (regs : SavedRegs)

def Free (t : Tracked) : Prop := regs.manager.lives t = false ∧ regs.manager.isZombie t = false

instance (t : Tracked) : Decidable (regs.Free t) := inferInstanceAs (Decidable (_ ∧ _))

def gprList : List Reg := Registers.gprs.filter fun r => regs.Free (.gpr r)

def xmmList : List (Fin 16) := (List.finRange 16).filter fun x => regs.Free (.xmm x)

/-- All general-purpose registers but `rsp` are to be saved. -/
def allGprs (liveXmm undeadXmm : BitVec 16) : SavedRegs where
  manager := { live := Manager.forceLiveBits, undead := 0, liveXmm, undeadXmm }
  rsp_live := forceLiveBits_rsp

end SavedRegs

def machineStateIndex (r : Reg) : Nat :=
  -- the ids start at one
  let id := regIndex r + 1
  15 - if regIndex .rsp + 1 < id then id - 1 else id

/-! ## Balanced regions -/

structure EntersRegion (area : Nat) (s t : StubState) : Prop where
  rsp : t.cpu.reg .rsp = s.cpu.reg .rsp - BitVec.ofNat 64 area
  gpr : ∀ r, r ≠ .rsp → t.cpu.reg r = s.cpu.reg r
  xmm : t.cpu.xmm = s.cpu.xmm
  flags : t.cpu.flags = s.cpu.flags
  mem : Frame (s.cpu.reg .rsp) area s.cpu.mem t.cpu.mem

/-- The state `w` after the region, which was entered in the state `s` and whose code ended in the state `v`. -/
structure LeavesRegion (gprs : List Reg) (xmms : List (Fin 16)) (s v w : StubState) : Prop where
  rsp : w.cpu.reg .rsp = s.cpu.reg .rsp
  savedGpr : ∀ r ∈ gprs, w.cpu.reg r = s.cpu.reg r
  savedXmm : ∀ x ∈ xmms, w.cpu.xmm x = s.cpu.xmm x
  otherGpr : ∀ r, r ∉ gprs → r ≠ .rsp → w.cpu.reg r = v.cpu.reg r
  otherXmm : ∀ x, x ∉ xmms → w.cpu.xmm x = v.cpu.xmm x
  flags : w.cpu.flags = v.cpu.flags
  mem : w.cpu.mem = v.cpu.mem

/-- The code between leaves the stack pointer and the saved registers alone. -/
structure KeepsArea (area : Nat) (t v : StubState) : Prop where
  rsp : v.cpu.reg .rsp = t.cpu.reg .rsp
  mem : ∀ b, (b - t.cpu.reg .rsp).toNat < area → v.cpu.mem b = t.cpu.mem b

def saveArea (gprs : List Reg) (xmms : List (Fin 16)) : Nat := 8 * gprs.length + 16 * xmms.length

/-- Registers are saved and restored, whatever code is between, if the state is right for that. -/
def Balances (ok : StubState → Prop) (gprs : List Reg) (xmms : List (Fin 16)) (save restore : List StubInstr) : Prop :=
  ∀ alu andFlags site callee s, ok s →
    ∃ t, runStub alu andFlags site callee save s = some t ∧ EntersRegion (saveArea gprs xmms) s t ∧
      ∀ v, KeepsArea (saveArea gprs xmms) t v →
        ∃ w, runStub alu andFlags site callee restore v = some w ∧ LeavesRegion gprs xmms s v w

end Granary.Gencode
