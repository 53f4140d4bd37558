import Granary.Blocks.Branch
import Granary.Lib.Code

/-!
# Translation of loop instructions

`translate_loops` of `granary/basic_block.cc`. LOOP, LOOPE, LOOPNE and JECXZ only reach targets that are close, so they are
made to jump to a jump. If configured, string instructions with a REP prefix are expanded into loops.
-/

namespace Granary.Blocks

open Machine

/-! ## String instructions -/

inductive StringOp where
  | ins | outs | movs | stos | lods | cmps | scas
deriving DecidableEq, Repr

def StringOp.isCompare : StringOp → Bool
  | cmps | scas => true
  | _ => false

inductive Segment where
  | es | cs | ss | ds | fs | gs
deriving DecidableEq, Repr

inductive PrefixByte where
  | rep
  | repne
  | opSize
  | addrSize
  | segment (s : Segment)
  | rex (w : Bool)
deriving DecidableEq, Repr

/-- The bytes of a string instruction: its prefixes and its opcode, for bytes or for words. -/
structure Encoding where
  prefixes : List PrefixByte
  op : StringOp
  bytes : Bool
deriving DecidableEq, Repr

inductive Rep where
  | rep | repne
deriving DecidableEq, Repr

structure Prefixes where
  rep : Option Rep := none
  opSize : Bool := false
  addr32 : Bool := false
  segment : Option Segment := none
  rexW : Bool := false
deriving DecidableEq, Repr

def Prefixes.read (p : Prefixes) : PrefixByte → Prefixes
  | .rep => { p with rep := some .rep, rexW := false }
  | .repne => { p with rep := some .repne, rexW := false }
  | .opSize => { p with opSize := true, rexW := false }
  | .addrSize => { p with addr32 := true, rexW := false }
  | .segment s => { p with segment := some s, rexW := false }
  | .rex w => { p with rexW := w }

structure Element where
  op : StringOp
  size : Nat
  addr32 : Bool
  segment : Option Segment
deriving DecidableEq, Repr

structure StringInstr where
  rep : Option Rep
  element : Element
deriving DecidableEq, Repr

def Prefixes.size (p : Prefixes) : StringOp → Nat
  | .ins | .outs => if p.opSize ∧ !p.rexW then 2 else 4
  | _ => if p.rexW then 8 else if p.opSize then 2 else 4

def Encoding.decode (e : Encoding) : StringInstr :=
  let p := e.prefixes.foldl Prefixes.read {}
  { rep := p.rep
    element := { op := e.op, size := if e.bytes then 1 else p.size e.op, addr32 := p.addr32, segment := p.segment } }

def PrefixByte.isRep : PrefixByte → Bool
  | rep | repne => true
  | _ => false

/-- A string instruction with one REP prefix. Only comparisons have the other one. -/
structure RepEncoding extends Encoding where
  one_rep : prefixes.countP PrefixByte.isRep = 1
  repne : .repne ∈ prefixes → op.isCompare = true

def Encoding.startsWithRep (e : Encoding) : Bool :=
  match e.prefixes with
  | [] => false
  | p :: _ => p.isRep

/-- What string instructions do to the flags and the rest of the state. -/
def StringSemantics (ρ : Type) : Type := Element → Word → ρ → Word × ρ

section Exec

variable {ρ : Type} (sem : StringSemantics ρ)

def Element.exec (x : Element) (s : CpuState ρ) : CpuState ρ :=
  { s with flags := (sem x s.flags s.rest).1, rest := (sem x s.flags s.rest).2 }

/-- Comparisons are only repeated while they are equal, or while they are not. -/
def Rep.stops (r : Rep) (op : StringOp) (flags : Word) : Bool :=
  op.isCompare &&
    match r with
    | rep => !zf flags
    | repne => zf flags

def Element.iteration (x : Element) (s : CpuState ρ) : CpuState ρ := { x.exec sem s with rcx := decrement x.addr32 s.rcx }

def Element.repeated (x : Element) (r : Rep) : Nat → CpuState ρ → CpuState ρ
  | 0, s => s
  | n + 1, s =>
    let s := x.iteration sem s
    if r.stops x.op s.flags then s else repeated x r n s

def StringInstr.exec (x : StringInstr) (s : CpuState ρ) : CpuState ρ :=
  match x.rep with
  | none => x.element.exec sem s
  | some r => x.element.repeated sem r (counter x.element.addr32 s.rcx).toNat s

end Exec

/-! ## Instructions -/

inductive Target (ι : Type) where
  | pc (addr : Word)
  | instr (i : ι)
deriving DecidableEq, Repr

/-- Other instructions change the state, and go on after themselves or leave the list. -/
inductive Insn (ι ρ : Type) where
  | label
  | jmp (target : Target ι)
  | jcc (c : Cond) (target : Target ι)
  | loop (kind : LoopKind) (addr32 : Bool) (target : Target ι)
  | leaCounter (addr32 : Bool)
  | string (e : Encoding)
  | other (exec : CpuState ρ → CpuState ρ × Option Word)

structure Instr (ι ρ : Type) where
  id : ι
  insn : Insn ι ρ

section Language

variable {ι ρ : Type} (sem : StringSemantics ρ)

def Target.next : Target ι → Code.Next ι Word
  | pc addr => .leave addr
  | instr i => .goto i

def Target.nextIf (target : Target ι) : Bool → Code.Next ι Word
  | true => target.next
  | false => .fall

def Insn.exec : Insn ι ρ → CpuState ρ → CpuState ρ × Code.Next ι Word
  | label, s => (s, .fall)
  | jmp target, s => (s, target.next)
  | jcc c target, s => (s, target.nextIf (c.holds s.flags))
  | loop kind addr32 target, s => ((kind.exec addr32 s).1, target.nextIf (kind.exec addr32 s).2)
  | leaCounter addr32, s => ({ s with rcx := decrement addr32 s.rcx }, .fall)
  | string e, s => (e.decode.exec sem s, .fall)
  | other exec, s =>
    match exec s with
    | (s, none) => (s, .fall)
    | (s, some pc) => (s, .leave pc)

def language (ι : Type) : Code.Language (Instr ι ρ) ι (CpuState ρ) Word where
  id := Instr.id
  exec x := x.insn.exec sem

end Language

/-! ## Insertions -/

section Insert

variable {κ ρ : Type} [DecidableEq κ]

def insertBefore (i : κ) (x : Instr κ ρ) : List (Instr κ ρ) → List (Instr κ ρ)
  | [] => []
  | y :: ls => if y.id = i then x :: y :: ls else y :: insertBefore i x ls

def insertAfter (i : κ) (x : Instr κ ρ) : List (Instr κ ρ) → List (Instr κ ρ)
  | [] => []
  | y :: ls => if y.id = i then y :: x :: ls else y :: insertAfter i x ls

def replaceWith (i : κ) (insn : Insn κ ρ) : List (Instr κ ρ) → List (Instr κ ρ)
  | [] => []
  | y :: ls => if y.id = i then { y with insn } :: ls else y :: replaceWith i insn ls

end Insert

/-- The instructions that are added for a loop or a string instruction. -/
inductive Role where
  | jmpTryLoop | doLoop | jmpTarget | tryLoop
  | trySkip | jmpDoInstr | done | doInstr | lea | again | tryDone | tryStop | after
deriving DecidableEq, Repr

inductive Id (ι : Type) where
  | old (i : ι)
  | new (i : ι) (role : Role)
deriving DecidableEq

section Translate

variable {ι ρ : Type} [DecidableEq ι]

def Target.old : Target ι → Target (Id ι)
  | pc addr => .pc addr
  | instr i => .instr (.old i)

def Insn.old : Insn ι ρ → Insn (Id ι) ρ
  | label => .label
  | jmp target => .jmp target.old
  | jcc c target => .jcc c target.old
  | loop kind addr32 target => .loop kind addr32 target.old
  | leaCounter addr32 => .leaCounter addr32
  | string e => .string e
  | other exec => .other exec

def Instr.old (x : Instr ι ρ) : Instr (Id ι) ρ := ⟨.old x.id, x.insn.old⟩

def jmpNew (i : ι) (role : Role) : Insn (Id ι) ρ := .jmp (.instr (.new i role))

def repJrcxz (i : ι) (role : Role) (addr32 : Bool) : Insn (Id ι) ρ := .loop .jecxz addr32 (.instr (.new i role))

def translateLoop (i : ι) (kind : LoopKind) (addr32 : Bool) (target : Target (Id ι)) (ls : List (Instr (Id ι) ρ)) :
    List (Instr (Id ι) ρ) :=
  let ls := insertBefore (.old i) ⟨.new i .tryLoop, .label⟩ ls
  let ls := insertBefore (.new i .tryLoop) ⟨.new i .jmpTryLoop, jmpNew i .tryLoop⟩ ls
  let ls := insertBefore (.new i .tryLoop) ⟨.new i .doLoop, .label⟩ ls
  let ls := insertBefore (.new i .tryLoop) ⟨.new i .jmpTarget, .jmp target⟩ ls
  replaceWith (.old i) (.loop kind addr32 (.instr (.new i .doLoop))) ls

def commonRepTail (i : ι) (e : Encoding) (ls : List (Instr (Id ι) ρ)) : List (Instr (Id ι) ρ) :=
  replaceWith (.old i) (.string { e with prefixes := e.prefixes.tail }) ls

def insertTrySkip (i : ι) (addr32 : Bool) (ls : List (Instr (Id ι) ρ)) : List (Instr (Id ι) ρ) :=
  let ls := insertBefore (.old i) ⟨.new i .trySkip, repJrcxz i .done addr32⟩ ls
  let ls := insertBefore (.old i) ⟨.new i .jmpDoInstr, jmpNew i .doInstr⟩ ls
  let ls := insertBefore (.old i) ⟨.new i .done, jmpNew i .after⟩ ls
  insertBefore (.old i) ⟨.new i .doInstr, .label⟩ ls

def translateRep (i : ι) (e : Encoding) (ls : List (Instr (Id ι) ρ)) : List (Instr (Id ι) ρ) :=
  let addr32 := e.decode.element.addr32
  let ls := insertTrySkip i addr32 ls
  let ls := insertAfter (.old i) ⟨.new i .after, .label⟩ ls
  let ls := insertBefore (.new i .after) ⟨.new i .lea, .leaCounter addr32⟩ ls
  let ls := insertBefore (.new i .after) ⟨.new i .again, jmpNew i .trySkip⟩ ls
  commonRepTail i e ls

def Rep.jcc : Rep → Cond
  | rep => .nz
  | repne => .z

def translateRepCompare (i : ι) (r : Rep) (e : Encoding) (ls : List (Instr (Id ι) ρ)) : List (Instr (Id ι) ρ) :=
  let addr32 := e.decode.element.addr32
  let ls := insertTrySkip i addr32 ls
  let ls := insertAfter (.old i) ⟨.new i .after, .label⟩ ls
  let ls := insertBefore (.new i .after) ⟨.new i .lea, .leaCounter addr32⟩ ls
  let ls := insertBefore (.new i .after) ⟨.new i .tryDone, repJrcxz i .after addr32⟩ ls
  let ls := insertBefore (.new i .after) ⟨.new i .tryStop, .jcc r.jcc (.instr (.new i .after))⟩ ls
  let ls := insertBefore (.new i .after) ⟨.new i .again, jmpNew i .doInstr⟩ ls
  commonRepTail i e ls

def translateInstr (preMangleRep : Bool) (ls : List (Instr (Id ι) ρ)) (x : Instr ι ρ) : List (Instr (Id ι) ρ) :=
  match x.insn with
  | .loop kind addr32 target => translateLoop x.id kind addr32 target.old ls
  | .string e =>
    match preMangleRep, e.decode.rep with
    | true, some r => if e.op.isCompare then translateRepCompare x.id r e ls else translateRep x.id e ls
    | _, _ => ls
  | _ => ls

def translateLoops (preMangleRep : Bool) (ls : List (Instr ι ρ)) : List (Instr (Id ι) ρ) :=
  ls.foldl (translateInstr preMangleRep) (ls.map Instr.old)

end Translate

/-! ## What it should do -/

structure InstrList (ι ρ : Type) where
  instrs : List (Instr ι ρ)
  nodup : (instrs.map Instr.id).Nodup

/-- In every list, the loop for the instruction ends after it, in the state the instruction ends in. -/
def Encoding.Expanded (e : Encoding) : Prop :=
  ∀ (ρ : Type) (sem : StringSemantics ρ) (i : Nat) (pre post : List (Instr Nat ρ)),
    ((pre ++ ⟨i, .string e⟩ :: post).map Instr.id).Nodup → ∀ s,
      (language sem (Id Nat)).Reaches (translateLoops true (pre ++ ⟨i, .string e⟩ :: post))
        ((language sem (Id Nat)).goto (translateLoops true (pre ++ ⟨i, .string e⟩ :: post)) (.new i .trySkip) s)
        (.run (translateLoops true post) (e.decode.exec sem s))

end Granary.Blocks
