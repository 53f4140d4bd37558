import Granary.Registers.Zombies

/-!
# Far memory operands

`mangle_far_memory_refs` of `granary/mangle.cc`. An instruction with a rip-relative operand that cannot be reached from the
code cache gets at the operand through a register: one that a look at this and the next instruction finds dead, or one
that is spilled. The end of an instruction list is like a NOP here, as neither changes what is live. The operand may be in a
segment, whose base is `base`; it is zero without an override by `fs` or `gs`.
-/

namespace Granary.Mangle

open Machine Registers

/-! ## Registers -/

/-- `first_reg_is_dead`, `dead_reg_id` and `spill_reg_id`. There is no register if all are taken. -/
structure FarRegs where
  firstRegIsDead : Bool
  deadReg : Option Reg
  spillReg : Option Reg
deriving DecidableEq

def deadReg (shape next : Shape) : Option Reg :=
  let rm := RegisterManager.reviveAll.visit (next.plain : Registers.Instr Unit)
  let rm := rm.visit (shape.plain : Registers.Instr Unit)
  (rm.getZombie fun _ => false).1

/-- The register manager with only those registers live that the instruction has for operands, and `rsp`. -/
def spillManager (shape : Shape) (dead : Option Reg) : RegisterManager :=
  (RegisterManager.killAll.reviveInstr (shape.plain : Registers.Instr Unit)).kill (dead.elim .null (.gpr · .w64))

def farRegs (shape next : Shape) : FarRegs :=
  let dead := deadReg shape next
  let rm := spillManager shape dead
  let spill := rm.getZombie fun _ => false
  if dead.isSome then { firstRegIsDead := true, deadReg := dead, spillReg := spill.1 }
  else { firstRegIsDead := false, deadReg := (rm.getZombie spill.2).1, spillReg := spill.1 }

/-! ## `push` and `pop` -/

def pushShape : Shape where
  opcode := .other
  dsts := [.reg (.gpr .rsp .w64), .baseDisp (.gpr .rsp .w64) .null]
  srcs := [.other, .reg (.gpr .rsp .w64)]
  always r := r = .rsp
  always_dst r h := by simp [of_decide_eq_true h]
  rep_reads _ hq := absurd hq List.not_mem_nil

def popShape : Shape where
  opcode := .other
  dsts := [.other, .reg (.gpr .rsp .w64)]
  srcs := [.reg (.gpr .rsp .w64), .baseDisp (.gpr .rsp .w64) .null]
  always r := r = .rsp
  always_dst r h := by simp [of_decide_eq_true h]
  rep_reads _ hq := absurd hq List.not_mem_nil

def mangleFarMemoryPush (regs : FarRegs) (addr : Word) : Option (List Machine.Instr) :=
  if regs.firstRegIsDead then do
    let regAddr ← regs.deadReg
    return [.movImm regAddr addr, .pushMem regAddr 0]
  else do
    let regAddr ← regs.spillReg
    return [.lea .rsp .rsp (-8), .push regAddr, .movImm regAddr addr, .load regAddr regAddr 0, .store .rsp 8 regAddr,
      .pop regAddr]

def mangleFarMemoryPop (regs : FarRegs) (addr : Word) : Option (List Machine.Instr) := do
  let regValue ← regs.deadReg
  let regAddr ← regs.spillReg
  if regs.firstRegIsDead then
    return [.pop regValue, .push regAddr, .movImm regAddr addr, .store regAddr 0 regValue, .pop regAddr]
  else
    return [.push regValue, .push regAddr, .movImm regAddr addr, .load regValue .rsp 16, .store regAddr 0 regValue,
      -- each of these was inserted right after the store
      .lea .rsp .rsp 8, .pop regValue, .pop regAddr]

/-- The word at `far` has been pushed. -/
structure FarPushed (next : Shape) (far : Word) (s s' : State) : Prop where
  rsp : s'.reg .rsp = s.reg .rsp - 8
  value : s'.top = s.mem.read far
  live : ∀ r, r ≠ .rsp → next.Needs r → s'.reg r = s.reg r
  flags : s'.flags = s.flags
  mem : Frame (s.reg .rsp) 16 s.mem s'.mem

structure FarPopped (next : Shape) (far : Word) (s s' : State) : Prop where
  rsp : s'.reg .rsp = s.reg .rsp + 8
  value : s'.mem.read far = s.top
  live : ∀ r, r ≠ .rsp → next.Needs r → s'.reg r = s.reg r
  flags : s'.flags = s.flags
  mem : Only (fun b => InWord far b ∨ Below (s.reg .rsp + 8) 24 b) s.mem s'.mem

section Properties

variable (alu : Machine.Instr → State → Word) (next : Shape) (base addr : Word)

def FarPushes (s : State) : Prop :=
  ∃ code, mangleFarMemoryPush (farRegs pushShape next) addr = some code ∧ FarPushed next (base + addr) s (run alu code s)

def FarPops (s : State) : Prop :=
  ∃ code, mangleFarMemoryPop (farRegs popShape next) addr = some code ∧ FarPopped next (base + addr) s (run alu code s)

end Properties

/-! ## Other instructions -/

structure Env where
  flags : Word
  mem : Memory

def onState (f : State → State) (s : RegState Env) : RegState Env :=
  let t := f { reg := s.gpr, flags := s.rest.flags, rip := 0, mem := s.rest.mem }
  { gpr := t.reg, xmm := s.xmm, rest := { flags := t.flags, mem := t.mem } }

/-- The instruction with its operand at the address in a register, and what comes before and after it. -/
structure FarCode where
  before : List Machine.Instr
  usedReg : Reg
  after : List Machine.Instr
deriving DecidableEq

def mangleFarMemoryRefs (user : Bool) (regs : FarRegs) (addr : Word) : Option FarCode :=
  if regs.firstRegIsDead then do
    let usedReg ← regs.deadReg
    return { before := [.movImm usedReg addr], usedReg, after := [] }
  else do
    let usedReg ← regs.spillReg
    return {
      before := (if user then [.lea .rsp .rsp (-128)] else []) ++ [.push usedReg, .movImm usedReg addr]
      usedReg
      after := .pop usedReg :: if user then [.lea .rsp .rsp 128] else [] }

def FarCode.exec (alu : Machine.Instr → State → Word) (code : FarCode) (far : Word → Registers.Instr Env)
    (s : RegState Env) : RegState Env :=
  let s := onState (run alu code.before) s
  onState (run alu code.after) ((far (s.gpr code.usedReg)).exec s)

def slot (user : Bool) (s : RegState Env) : Word := s.gpr .rsp - (if user then 128 else 0) - 8

def Env.write (e : Env) (a v : Word) : Env := { e with mem := e.mem.write a v }

/-- The instruction neither depends on the word at the address nor changes it. -/
def Avoids (i : Registers.Instr Env) (a : Word) (s : RegState Env) : Prop :=
  ∀ v, i.eval { s with rest := s.rest.write a v } = { i.eval s with rest := (i.eval s).rest.write a v }

structure SameOutside (a : Word) (s s' : RegState Env) : Prop where
  gpr : s.gpr = s'.gpr
  xmm : s.xmm = s'.xmm
  flags : s.rest.flags = s'.rest.flags
  mem : Only (InWord a) s'.rest.mem s.rest.mem

/-- The rewritten instruction has the same effect, when the next instruction follows. A register is spilled in states in which
neither instruction accesses the word where it is saved. -/
def RewritesFar (alu : Machine.Instr → State → Word) (user : Bool) (shape next : Shape) (base addr : Word) : Prop :=
  ∃ code, mangleFarMemoryRefs user (farRegs shape next) addr = some code ∧
    ∀ far : Word → Registers.Instr Env, (∀ a, (far a).HasShape shape) →
    ∀ i : Registers.Instr Env, i.HasShape next → ∀ s : RegState Env,
      ((farRegs shape next).firstRegIsDead = false →
        Avoids (far (base + addr)) (slot user s) s ∧ Avoids i (slot user s) ((far (base + addr)).exec s)) →
      SameOutside (slot user s) (i.exec (code.exec alu far s)) (i.exec ((far (base + addr)).exec s))

end Granary.Mangle
