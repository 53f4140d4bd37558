import Granary.Gencode.DirectBranch
import Granary.Policies.Packing

/-!
# Lookups of indirect branches

The code of `granary/ibl.cc`: the stub of an indirect branch, the exit routines that its jump table chains together, and
the routine at the end of each chain that looks a target up in the code cache. The code that `mangle_ibl_lookup` of
`granary/mangle.cc` puts before the stub is here too.
-/

namespace Granary.Gencode

open Machine
open Policies (PolicyBits MangledBits)

def numIblJumpTableEntries : Nat := 2048

def iblHash (addr : Word) : Nat := (addr.setWidth 16 >>> 5).toNat

/-! ## Exit routines -/

/-- The address that an exit routine is for, where it jumps on a hit and on a miss. -/
structure ExitRoutine where
  mangledTargetPc : Word
  instrumentedTargetPc : Word
  prevTarget : Word
deriving DecidableEq, Repr

/-- The jump table, the encoded exit routines, and `GLOBAL_CODE_CACHE_ROUTINE`. Entries are known by their addresses. -/
structure Ibl where
  jumpTable : Word
  entry : Word → Word
  code : Word → Option ExitRoutine
  globalCodeCacheRoutine : Word

def Ibl.entryAddr (ibl : Ibl) (index : Nat) : Word := ibl.jumpTable + BitVec.ofNat 64 index * 8

def Ibl.init (jumpTable globalCodeCacheRoutine : Word) : Ibl :=
  { jumpTable, entry := fun _ => globalCodeCacheRoutine, code := fun _ => none, globalCodeCacheRoutine }

/-- A call of `ibl_exit_routine`, with the address that the routine is allocated at. -/
structure Install where
  mangledTargetPc : Word
  instrumentedTargetPc : Word
  routine : Word
deriving DecidableEq, Repr

def iblExitRoutine (ibl : Ibl) (i : Install) : Ibl :=
  let index := iblHash i.mangledTargetPc
  let prevTarget := ibl.entry (ibl.entryAddr index)
  { ibl with
    code := Function.update ibl.code i.routine
      (some { mangledTargetPc := i.mangledTargetPc, instrumentedTargetPc := i.instrumentedTargetPc, prevTarget })
    entry := Function.update ibl.entry (ibl.entryAddr index) i.routine }

section Code

variable (alu : Instr → State → Word)

namespace ExitRoutine

def check (r : ExitRoutine) (s : State) : State := run alu [.movImm .rax r.mangledTargetPc, .cmp .rax .rdi] s

def hitFromCodeCacheFind (r : ExitRoutine) (s : State) : State := (run alu [.pop .rdi] s).jmp r.instrumentedTargetPc

def hit (r : ExitRoutine) (s : State) : State :=
  hitFromCodeCacheFind alu r (run alu [.pop .rax, .sahf, .pop .rsi, .pop .rax] s)

def miss (r : ExitRoutine) (s : State) : State := s.jmp r.prevTarget

end ExitRoutine

/-- The states on arrival at each routine, until one hits or is not an exit routine. -/
def Ibl.follow (ibl : Ibl) : Nat → State → List State
  | 0, s => [s]
  | fuel + 1, s =>
    match ibl.code s.rip with
    | none => [s]
    | some r =>
      let s₁ := r.check alu s
      if zf s₁.flags then [s] else s :: ibl.follow fuel (r.miss s₁)

/-! ## The stub -/

/-- The target is an operand of a call or a jump, or the return address on the stack. -/
inductive IblEntryKind where
  | branch (target : Word)
  | ret
deriving DecidableEq, Repr

def loadTarget (kind : IblEntryKind) (s : State) : State :=
  match kind with
  | .branch target => exec alu (.movImm .rdi target) (exec alu (.push .rdi) s)
  | .ret => { s.set .rdi s.top with mem := s.mem.write (s.reg .rsp) (s.reg .rdi) }

def saveScratch : List Instr := [.push .rax, .push .rsi, .lahf, .push .rax]

def bswap16 (v : BitVec 16) : BitVec 16 := v.extractLsb' 0 8 ++ v.extractLsb' 8 8

def mangleTarget (build : Build) (policy : BitVec 16) : List Instr :=
  [.bswap .rdi, if build.kernel then .and16 .rdi (bswap16 policy) else .or16 .rdi (bswap16 policy), .bswap .rdi]

def hashTarget (jumpTable blockInstr : Word) : List Instr :=
  [.movImm .rsi jumpTable, .mov .rax .rdi, .shl .rax 48, .shr .rax 53, .leaIndex .rax .rsi .rax 8, .movImm .rsi blockInstr]

def iblLookupStub (ibl : Ibl) (build : Build) (kind : IblEntryKind) (policy : BitVec 16) (blockInstr : Word) (s : State) :
    State :=
  let s := run alu (saveScratch ++ mangleTarget build policy ++ hashTarget ibl.jumpTable blockInstr) (loadTarget alu kind s)
  s.jmp (ibl.entry (s.reg .rax))

end Code

/-! ## Arrival -/

def IblEntryKind.native (kind : IblEntryKind) (s : State) : State :=
  match kind with
  | .branch _ => s
  | .ret => s.drop 8

def IblEntryKind.target (kind : IblEntryKind) (s : State) : Word :=
  match kind with
  | .branch target => target
  | .ret => s.top

def mangledAddress (build : Build) (policy : BitVec 16) (addr : Word) : Word :=
  byteSwap (if build.kernel then byteSwap addr &&& (~~~0xffff ||| (bswap16 policy).setWidth 64)
    else byteSwap addr ||| (bswap16 policy).setWidth 64)

/-- The stub finds the address that `mangled_address` makes of the target, and the entry that `ibl_exit_routine` changes for
it. -/
structure IblAgrees (alu : Instr → State → Word) (ibl : Ibl) (build : Build) (policy : PolicyBits)
    (blockInstr : Word) (s : State) : Prop where
  value : (run alu (mangleTarget build policy) s).reg .rdi = MangledBits.ofAddress (s.reg .rdi) policy
  index : (run alu (mangleTarget build policy ++ hashTarget ibl.jumpTable blockInstr) s).reg .rax =
    ibl.entryAddr (iblHash (MangledBits.ofAddress (s.reg .rdi) policy))
  index_lt : iblHash (MangledBits.ofAddress (s.reg .rdi) policy) < numIblJumpTableEntries
  entry : ∀ i : Install, i.mangledTargetPc = MangledBits.ofAddress (s.reg .rdi) policy →
    (iblExitRoutine ibl i).entry
      ((run alu (mangleTarget build policy ++ hashTarget ibl.jumpTable blockInstr) s).reg .rax) = i.routine

/-- The address is in `rdi`, the source in `rsi`, and the saved flags, `rsi`, `rax` and `rdi` are on the stack. -/
structure Arrives (native : State) (mangled source : Word) (s : State) : Prop where
  rsp : s.reg .rsp = native.reg .rsp - 32
  rdi : s.reg .rdi = mangled
  rsi : s.reg .rsi = source
  reg : ∀ r, r ≠ .rax → r ≠ .rsi → r ≠ .rdi → r ≠ .rsp → s.reg r = native.reg r
  savedFlags : s.mem.read (s.reg .rsp) >>> 8 &&& ahMask = native.flags &&& ahMask
  savedRsi : s.mem.read (s.reg .rsp + 8) = native.reg .rsi
  savedRax : s.mem.read (s.reg .rsp + 16) = native.reg .rax
  savedRdi : s.mem.read (s.reg .rsp + 24) = native.reg .rdi

structure TakenTo (native : State) (target : Word) (s : State) : Prop where
  reg : s.reg = native.reg
  flags : s.flags &&& ahMask = native.flags &&& ahMask
  rip : s.rip = target

def mostRecent (installs : List Install) (mangled : Word) : Option Install :=
  installs.reverse.find? (·.mangledTargetPc = mangled)

end Granary.Gencode
