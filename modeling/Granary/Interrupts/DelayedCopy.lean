import Granary.Lib.Code
import Granary.Lib.X86
import Mathlib.Algebra.Ring.Nat

/-!
# Copies of delay regions

An interrupt in a delay region is delayed until the region has run to its end. The rest of the region runs in a private copy
with interrupts disabled: `cli` and `sti` are left out, and `popf` is made to leave the interrupt flag clear. The branches
of the copy are then redirected into it.
-/

namespace Granary.Interrupts

/-- The instructions of a delay region. Nothing is assumed about the meaning of `ι`. -/
inductive RegionOp (ι : Type) where
  | plain (i : ι)
  | cli
  | sti
  | popf
  /-- A jump or conditional jump to an address. -/
  | branch (i : ι) (target : Nat)
  /-- A return or an indirect control-flow instruction. -/
  | away (i : ι)
deriving DecidableEq, Repr

def RegionOp.isCti {ι : Type} : RegionOp ι → Bool
  | .branch .. | .away _ => true
  | _ => false

structure RegionIns (ι : Type) where
  pc : Nat
  size : Nat
  op : RegionOp ι
deriving DecidableEq, Repr

def Decoded {ι : Type} (pc : Nat) : List (RegionIns ι) → Prop
  | [] => True
  | x :: code => x.pc = pc ∧ 0 < x.size ∧ Decoded (pc + x.size) code

instance {ι : Type} : ∀ (pc : Nat) (code : List (RegionIns ι)), Decidable (Decoded pc code)
  | _, [] => .isTrue trivial
  | pc, x :: code =>
    have := instDecidableDecoded (pc + x.size) code
    inferInstanceAs (Decidable (x.pc = pc ∧ 0 < x.size ∧ Decoded (pc + x.size) code))

structure Region (ι : Type) where
  begin : Nat
  code : List (RegionIns ι)
  decoded : Decoded begin code

namespace Region

variable {ι : Type} (r : Region ι)

def pcs : List Nat := r.code.map RegionIns.pc

def Contained : Prop := ∀ x ∈ r.code, ∀ i target, x.op = .branch i target → target ∈ r.pcs

end Region

/-! ## The copy -/

/-- Which instruction of the copy it is. The first one made from an instruction is part 0. -/
inductive CopyId where
  | delayIn
  | part (pc n : Nat)
deriving DecidableEq, Repr

inductive CopyTarget where
  | pc (pc : Nat)
  | instr (i : CopyId)
deriving DecidableEq, Repr

inductive CopyOp (ι : Type) where
  | label
  | pushRax
  /-- Load the mask that clears the interrupt flag into `rax`. -/
  | movMask
  /-- Mask the flags on the stack. -/
  | andMask
  | popRax
  | plain (i : ι)
  | cli
  | sti
  | popf
  | branch (i : ι) (target : CopyTarget)
  | away (i : ι)
deriving DecidableEq, Repr

structure CopyIns (ι : Type) where
  id : CopyId
  pc : Option Nat
  op : CopyOp ι
deriving DecidableEq, Repr

section Copy

variable {ι : Type}

def CopyOp.isCti : CopyOp ι → Bool
  | .branch .. | .away _ => true
  | _ => false

def RegionOp.toCopy : RegionOp ι → CopyOp ι
  | .plain i => .plain i
  | .cli => .cli
  | .sti => .sti
  | .popf => .popf
  | .branch i target => .branch i (.pc target)
  | .away i => .away i

def mangleDelayedInstruction (x : RegionIns ι) : List (CopyIns ι) :=
  match x.op with
  | .cli | .sti => [⟨.part x.pc 0, x.pc, .label⟩]
  | .popf =>
    [⟨.part x.pc 0, x.pc, .label⟩, ⟨.part x.pc 1, none, .pushRax⟩, ⟨.part x.pc 2, none, .movMask⟩,
      ⟨.part x.pc 3, none, .andMask⟩, ⟨.part x.pc 4, none, .popRax⟩, ⟨.part x.pc 5, none, .popf⟩]
  | op => [⟨.part x.pc 0, x.pc, op.toCopy⟩]

def delayIn (ip pc : Nat) : List (CopyIns ι) := if ip = pc then [⟨.delayIn, none, .label⟩] else []

/-- The first loop: the instructions that are appended, and the number of control-flow instructions. -/
def appendDelayed (ip : Nat) : List (RegionIns ι) → List (CopyIns ι) × Nat
  | [] => ([], 0)
  | x :: code =>
    let (ls, numCtis) := appendDelayed ip code
    (delayIn ip x.pc ++ mangleDelayedInstruction x ++ ls, if x.op.isCti then numCtis + 1 else numCtis)

inductive CopyFault where
  | target (pc : Nat)
deriving DecidableEq, Repr

def mangleCti (ls : List (CopyIns ι)) (cti : CopyIns ι) : Except CopyFault (CopyIns ι) :=
  match cti.op with
  | .branch i (.pc target) =>
    match ls.find? (fun y => y.pc = some target) with
    | some y => .ok { cti with op := .branch i (.instr y.id) }
    | none => .error (.target target)
  | _ => .ok cti

/-- The second loop. The number of control-flow instructions counts down with every instruction. -/
def redirectCtis (ls : List (CopyIns ι)) : Nat → List (CopyIns ι) → Except CopyFault (List (CopyIns ι))
  | 0, rest => .ok rest
  | _, [] => .ok []
  | n + 1, y :: rest => do
      let y ← if y.op.isCti then mangleCti ls y else .ok y
      let rest ← redirectCtis ls n rest
      return y :: rest

def emitDelayedInterrupt (ip : Nat) (code : List (RegionIns ι)) : Except CopyFault (List (CopyIns ι)) :=
  let (ls, numCtis) := appendDelayed ip code
  redirectCtis ls numCtis ls

end Copy

/-! ## Runs -/

inductive RegionEvent (ι : Type) where
  | plain (i : ι)
  | popf
  | branch (i : ι)
  | away (i : ι)

/-- What has been done, the latest first. `masked` says that the flags on top of the stack have theirs clear. -/
structure RegionState (ι : Type) where
  done : List (RegionEvent ι)
  interrupts : Bool
  masked : Bool

inductive RegionExit (ι : Type) where
  | away (i : ι)
  | original (pc : Nat)

/-- Whether a branch is taken, and the interrupt flag that `popf` finds. -/
structure Outcomes (ι : Type) where
  taken : List (RegionEvent ι) → ι → Bool
  popped : List (RegionEvent ι) → Bool

section Languages

variable {ι : Type} (o : Outcomes ι)

def regionLanguage : Code.Language (RegionIns ι) Nat (RegionState ι) (RegionExit ι) where
  id := RegionIns.pc
  exec x s :=
    match x.op with
    | .plain i => ({ s with done := .plain i :: s.done }, .fall)
    | .cli | .sti => (s, .fall)
    | .popf => (⟨.popf :: s.done, false, false⟩, .fall)
    | .branch i target =>
      ({ s with done := .branch i :: s.done }, if o.taken s.done i then .goto target else .fall)
    | .away i => ({ s with done := .away i :: s.done }, .leave (.away i))

def CopyTarget.next : CopyTarget → Code.Next CopyId (RegionExit ι)
  | .pc target => .leave (.original target)
  | .instr i => .goto i

def copyLanguage : Code.Language (CopyIns ι) CopyId (RegionState ι) (RegionExit ι) where
  id := CopyIns.id
  exec y s :=
    match y.op with
    | .label | .pushRax | .movMask | .popRax => (s, .fall)
    | .andMask => ({ s with masked := true }, .fall)
    | .plain i => ({ s with done := .plain i :: s.done }, .fall)
    | .cli => ({ s with interrupts := false }, .fall)
    | .sti => ({ s with interrupts := true }, .fall)
    | .popf => (⟨.popf :: s.done, !s.masked && o.popped s.done, false⟩, .fall)
    | .branch i target =>
      ({ s with done := .branch i :: s.done }, if o.taken s.done i then target.next else .fall)
    | .away i => ({ s with done := .away i :: s.done }, .leave (.away i))

/-! ## What a copy is for -/

variable {o}

/-- The same was done, with interrupts disabled, and both go on, are at their ends, or left in the same way. -/
inductive SameProgress : Code.Config (RegionIns ι) Nat (RegionState ι) (RegionExit ι) →
    Code.Config (CopyIns ι) CopyId (RegionState ι) (RegionExit ι) → Prop where
  | run {rest : List (RegionIns ι)} {rest' : List (CopyIns ι)} {s : RegionState ι} (h : rest = [] ↔ rest' = [])
      (hs : s.interrupts = false) : SameProgress (.run rest s) (.run rest' s)
  | left {e : RegionExit ι} {s : RegionState ι} (hs : s.interrupts = false) : SameProgress (.left e s) (.left e s)

/-- Every branch of the copy goes to the copy of its original target. -/
def Closed (code : List (RegionIns ι)) (copy : List (CopyIns ι)) : Prop :=
  ∀ y ∈ copy, ∀ i target, y.op = .branch i target →
    ∃ x ∈ code, ∃ original, x.op = .branch i original ∧ y.pc = some x.pc ∧ target = .instr (.part original 0)

def Resumes (ip : Nat) (code : List (RegionIns ι)) (copy : List (CopyIns ι)) : Prop :=
  ∀ (o : Outcomes ι) (done : List (RegionEvent ι)) (n : Nat), ∃ m ≥ n, SameProgress
    (((regionLanguage o).step code)^[n] ((regionLanguage o).goto code ip ⟨done, false, false⟩))
    (((copyLanguage o).step copy)^[m] ((copyLanguage o).goto copy .delayIn ⟨done, false, false⟩))

end Languages

/-! ## The flags that are popped -/

def maskedPopf (alu : Machine.Instr → Machine.State → Machine.Word) (andFlags : Machine.Word) (s : Machine.State) :
    Machine.State :=
  let s := Machine.run alu [.push .rax, .movImm .rax (~~~0x200)] s
  let address := s.reg .rsp + 8
  let s := { s with mem := s.mem.write address (s.mem.read address &&& s.reg .rax), flags := andFlags }
  Machine.run alu [.pop .rax, .popf] s

/-! ## Positions -/

def RegionOp.copySize {ι : Type} : RegionOp ι → Nat
  | .popf => 6
  | _ => 1

/-- How many instructions of the copy are before that of the instruction at `pc`, which has these before it. -/
def itemsBefore {ι : Type} (ip : Nat) (before : List (RegionIns ι)) (pc : Nat) : Nat :=
  (before.map fun x => x.op.copySize).sum + if ip ≤ pc then 1 else 0

end Granary.Interrupts
