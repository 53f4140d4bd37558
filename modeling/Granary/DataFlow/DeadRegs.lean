import Mathlib.Data.List.Nodup
import Granary.Lib.RoundRobin

/-!
# Dead registers at the ends of basic blocks

The scripts `parser.py`, `data_flow.py` and `dead_regs.py` of `clients/cfg/scripts`. Control-flow graphs are read from edges
between basic blocks, and a backward data flow problem on the edges inside functions finds the registers that are live at the
end of each block. Integers of the scripts are bit sets of the 16 general-purpose registers; all operations on them are
bitwise, and `meet` keeps the low 16 bits.
-/

namespace Granary.DataFlow

open RoundRobin

abbrev Mask := BitVec 16

structure BasicBlock where
  isFunctionEntry : Bool
  isFunctionExit : Bool
  numOutgoingJumps : Int
  hasOutgoingIndirectJmp : Bool
  usedRegs : Mask
  entryRegs : Mask
deriving DecidableEq, Repr

/-! ## `parser.py` -/

/-- The edges inside functions. Dictionaries and sets are lists in the order of iteration. -/
structure ControlFlowGraph (β : Type) where
  sources : List β
  intraSuccessors : β → List β
  nodup : ∀ b, (intraSuccessors b).Nodup
  mem_sources : ∀ b, intraSuccessors b ≠ [] → b ∈ sources

section Parse

variable {β : Type} [DecidableEq β]

inductive EdgeLine where
  | intra (sourceId destId : Int)
  | inter (sourceId destId : Int)

namespace ControlFlowGraph

def empty : ControlFlowGraph β where
  sources := []
  intraSuccessors := fun _ => []
  nodup := fun _ => List.nodup_nil
  mem_sources := fun _ h => absurd rfl h

def addIntra (G : ControlFlowGraph β) (source dest : β) : ControlFlowGraph β where
  sources := G.sources.insert source
  intraSuccessors := Function.update G.intraSuccessors source ((G.intraSuccessors source).insert dest)
  nodup := by
    intro b
    rcases eq_or_ne b source with rfl | hb
    · rw [Function.update_self]
      exact (G.nodup b).insert
    · rw [Function.update_of_ne hb]
      exact G.nodup b
  mem_sources := by
    intro b hne
    rcases eq_or_ne b source with rfl | hb
    · exact List.mem_insert_self
    · rw [Function.update_of_ne hb] at hne
      exact List.mem_insert_of_mem (G.mem_sources b hne)

def parseEdge (basicBlocks : Int → Option β) (attrs : β → BasicBlock) (G : ControlFlowGraph β) :
    EdgeLine → ControlFlowGraph β
  | .inter _ _ => G
  | .intra sourceId destId =>
    match basicBlocks sourceId, basicBlocks destId with
    | some source, some dest =>
      if source = dest ∧ (attrs source).isFunctionExit then G
      -- a tail call
      else if (attrs dest).isFunctionEntry then G
      else G.addIntra source dest
    | _, _ => G

def parse (basicBlocks : Int → Option β) (attrs : β → BasicBlock) (lines : List EdgeLine) : ControlFlowGraph β :=
  lines.foldl (parseEdge basicBlocks attrs) empty

end ControlFlowGraph

end Parse

/-! ## `data_flow.py` -/

structure DataFlowProblem (β : Type) where
  cfg : ControlFlowGraph β
  includes : β → Bool

namespace DataFlowProblem

variable {β L : Type} [DecidableEq β] [DecidableEq L] (P : DataFlowProblem β)

/-- The edges of tail callers are added once more, which changes nothing. -/
def edges (b : β) : List β := if P.includes b then (P.cfg.intraSuccessors b).filter P.includes else []

def keys : List β := P.cfg.sources.filter fun b => P.edges b ≠ []

def next (process : β → L → L) (meet : β → L → List L → L) (results : β → L) (b : β) : L :=
  meet b (results b) ((P.edges b).map fun target => process target (results target))

/-- Blocks without edges have no results, and are given their initial values here. -/
def run (initial : β → L) (process : β → L → L) (meet : β → L → List L → L) (check : L → L → Bool) (fuel : Nat) :
    Except Failure (β → L) :=
  solve (P.next process meet) check P.keys fuel initial

end DataFlowProblem

/-! ## `dead_regs.py` -/

def allLive : Mask := BitVec.allOnes 16

def rax : Mask := 1#16 <<< 0
def rcx : Mask := 1#16 <<< 1
def rdx : Mask := 1#16 <<< 2
def rbx : Mask := 1#16 <<< 3
def rsp : Mask := 1#16 <<< 4
def rbp : Mask := 1#16 <<< 5
def rsi : Mask := 1#16 <<< 6
def rdi : Mask := 1#16 <<< 7
def r8 : Mask := 1#16 <<< 8
def r9 : Mask := 1#16 <<< 9
def r10 : Mask := 1#16 <<< 10
def r11 : Mask := 1#16 <<< 11
def r12 : Mask := 1#16 <<< 12
def r13 : Mask := 1#16 <<< 13
def r14 : Mask := 1#16 <<< 14
def r15 : Mask := 1#16 <<< 15

def forceLive : Mask := rsp

def liveOnReturn : Mask := rax ||| rdx ||| rbx ||| rsp ||| rbp ||| r12 ||| r13 ||| r14 ||| r15

section DeadRegs

variable {β : Type} [DecidableEq β] (attrs : β → BasicBlock)

def initial (b : β) : Mask := if (attrs b).isFunctionExit then liveOnReturn else allLive

def process (b : β) (liveAtEnd : Mask) : Mask :=
  ~~~(((attrs b).usedRegs &&& (attrs b).entryRegs) ||| (~~~(attrs b).usedRegs &&& liveAtEnd))

def meetTwoDead (aDead bDead : Mask) : Mask := aDead &&& bDead

/-- The operator `is` on a counted and a parsed integer: only those up to 256 are shared. -/
def isSame (count : Nat) (parsed : Int) : Bool := count = parsed ∧ count ≤ 256

def meet (b : β) (_oldLive : Mask) (incomingDead : List Mask) : Mask :=
  if (attrs b).hasOutgoingIndirectJmp ∨ ¬isSame incomingDead.length (attrs b).numOutgoingJumps then allLive
  else
    match incomingDead with
    -- `reduce` fails here, but keys have edges
    | [] => allLive
    | dead :: rest => forceLive ||| (allLive &&& ~~~(rest.foldl meetTwoDead dead))

def check (oldLive newLive : Mask) : Bool := newLive.toNat ≤ oldLive.toNat

def deadRegs (P : DataFlowProblem β) (fuel : Nat) : Except Failure (β → Mask) :=
  P.run (initial attrs) (process attrs) (meet attrs) check fuel

/-! ## Meaning of the results -/

def BlockEquations (P : DataFlowProblem β) (live : β → Mask) : Prop :=
  Solution (P.next (process attrs) (meet attrs)) P.keys (initial attrs) live

def Within (a b : Mask) : Prop := ∀ r, a.getLsbD r = true → b.getLsbD r = true

/-- A block that uses a register reads it first if the register is live on entry, and writes it first if not. -/
def ReadBeforeWritten (r : Nat) : List β → Prop
  | [] => False
  | b :: path =>
    if (attrs b).usedRegs.getLsbD r then (attrs b).entryRegs.getLsbD r = true else ReadBeforeWritten r path

def PathFrom (P : DataFlowProblem β) (b : β) (path : List β) : Prop := List.IsChain (fun x y => y ∈ P.edges x) (b :: path)

end DeadRegs

end Granary.DataFlow
