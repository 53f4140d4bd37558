import Granary.Lib.Code
import Granary.Lib.X86

/-!
# Places where the arithmetic flags are dead

`find_arith_flags_dead_after` of `granary/emit_utils.cc` looks for an instruction before which the arithmetic flags may be
changed. The control-flow-graph client puts an increment there.
-/

namespace Granary.Blocks

open Machine

/-! ## Instructions -/

inductive Flag where
  | cf | pf | af | zf | sf | of
deriving DecidableEq, Repr

/-- The bit of `EFLAGS_READ_*`. The one of `EFLAGS_WRITE_*` is 11 after it. -/
def Flag.bit : Flag → Nat
  | cf => 0
  | pf => 1
  | af => 2
  | zf => 3
  | sf => 4
  | of => 8

def eflagsReadAll : BitVec 32 := 0x7ff
def eflagsWriteAll : BitVec 32 := 0x3ff800

inductive JumpTarget where
  | pc
  | farPc
  | instr (i : Nat)
  | indirect
deriving DecidableEq, Repr

/-- Conditional branches go to an address or to an instruction of the list. -/
inductive Kind where
  | call
  | ret
  | jump (target : JumpTarget)
  | cbr (target : Option Nat)
  | other
deriving DecidableEq, Repr

def Kind.isJump : Kind → Bool
  | jump _ => true
  | _ => false

def Kind.isUnconditional : Kind → Bool
  | call | ret | jump _ => true
  | _ => false

/-- What the decoder says about the flags, and which arithmetic flags are read and always written. CMC is left out, whose read
of the carry flag the decoder does not list. -/
structure FlagInstr where
  id : Nat
  kind : Kind
  eflags : BitVec 32
  reads : Flag → Bool
  overwrites : Flag → Bool
  reads_eflags : ∀ f, reads f = true → eflags.getLsbD f.bit = true
  overwrites_eflags : ∀ f, overwrites f = true → eflags.getLsbD (f.bit + 11) = true
  reads_unconditional : kind.isUnconditional = true → ∀ f, reads f = false
  writes_jump : kind.isJump = true → eflags &&& eflagsWriteAll = 0

/-! ## The search -/

def findFrom (user redzoneSafe : Bool) : List FlagInstr → Option (List FlagInstr) × Bool
  | [] => (none, redzoneSafe)
  | x :: rest =>
    if x.kind = .call ∨ x.kind = .ret then (some (x :: rest), if user then true else redzoneSafe)
    else if x.kind.isJump ∧ x.kind ≠ .jump .pc then (some (x :: rest), redzoneSafe)
    else
      match x.kind with
      | .cbr _ => (none, redzoneSafe)
      | _ =>
        if x.eflags &&& eflagsWriteAll = 0 ∨ x.eflags &&& eflagsReadAll ≠ 0 then findFrom user redzoneSafe rest
        else (some (x :: rest), redzoneSafe)

/-- The list from the instruction that is found on, and whether the red zone is safe there. -/
def findArithFlagsDeadAfter (user : Bool) (ls : List FlagInstr) : Option (List FlagInstr) × Bool :=
  findFrom user (if user then false else true) ls

/-! ## What it should find -/

/-- Where an instruction may go. Ways out are marked with whether they keep the flags: calls, returns and indirect jumps do
not. -/
def FlagInstr.MayGo (x : FlagInstr) : Code.Next Nat (Bool × Word) → Prop
  | .fall => x.kind = .other ∨ ∃ target, x.kind = .cbr target
  | .goto i => x.kind = .jump (.instr i) ∨ x.kind = .cbr (some i)
  | .leave (true, _) => x.kind = .jump .pc ∨ x.kind = .jump .farPc ∨ x.kind = .cbr none
  | .leave (false, _) => x.kind = .call ∨ x.kind = .ret ∨ x.kind = .jump .indirect

def findInstr (i : Nat) : List FlagInstr → Option (List FlagInstr)
  | [] => none
  | x :: ls => if x.id = i then some (x :: ls) else findInstr i ls

inductive MayRead (outside : Flag → Prop) (ls : List FlagInstr) (f : Flag) : List FlagInstr → Prop where
  | nil (h : outside f) : MayRead outside ls f []
  | reads {x : FlagInstr} {rest : List FlagInstr} (h : x.reads f = true) : MayRead outside ls f (x :: rest)
  | fall {x : FlagInstr} {rest : List FlagInstr} (hkeeps : x.overwrites f = false) (hgo : x.MayGo .fall)
      (h : MayRead outside ls f rest) : MayRead outside ls f (x :: rest)
  | goto {x : FlagInstr} {rest rest' : List FlagInstr} {i : Nat} (hkeeps : x.overwrites f = false) (hgo : x.MayGo (.goto i))
      (hfind : findInstr i ls = some rest') (h : MayRead outside ls f rest') : MayRead outside ls f (x :: rest)
  | missing {x : FlagInstr} {rest : List FlagInstr} {i : Nat} (hkeeps : x.overwrites f = false) (hgo : x.MayGo (.goto i))
      (hfind : findInstr i ls = none) (h : outside f) : MayRead outside ls f (x :: rest)
  | leave {x : FlagInstr} {rest : List FlagInstr} {pc : Word} (hkeeps : x.overwrites f = false)
      (hgo : x.MayGo (.leave (true, pc))) (h : outside f) : MayRead outside ls f (x :: rest)

def FlagsDead (outside : Flag → Prop) (ls rest : List FlagInstr) : Prop := ∀ f, ¬ MayRead outside ls f rest

def FlagInstr.Stops (x : FlagInstr) : Prop :=
  match x.kind with
  | .call | .ret => True
  | .jump target => target ≠ .pc
  | .cbr _ => False
  | .other => x.eflags &&& eflagsWriteAll ≠ 0 ∧ x.eflags &&& eflagsReadAll = 0

def FlagInstr.Kills (outside : Flag → Prop) (x : FlagInstr) : Prop :=
  match x.kind with
  | .call | .ret | .jump .indirect => True
  | .jump (.instr i) => i = x.id
  | .jump _ => ∀ f, ¬ outside f
  | _ => ∀ f, x.overwrites f = true

/-! ## Runs -/

abbrev FlagState : Type := Flag → Bool

/-- What instructions do, with a state apart from the flags, depending only on the flags that are read. -/
structure FlagSemantics (δ : Type) where
  exec : FlagInstr → δ × FlagState → (δ × FlagState) × Code.Next Nat (Bool × Word)
  mayGo : ∀ (x : FlagInstr) s, x.MayGo (exec x s).2
  data_eq : ∀ (x : FlagInstr) d flags flags', (∀ f, x.reads f = true → flags f = flags' f) →
    (exec x (d, flags)).1.1 = (exec x (d, flags')).1.1 ∧ (exec x (d, flags)).2 = (exec x (d, flags')).2
  flag_eq : ∀ (x : FlagInstr) d flags flags' f, (∀ f, x.reads f = true → flags f = flags' f) →
    (x.overwrites f = true ∨ flags f = flags' f) → (exec x (d, flags)).1.2 f = (exec x (d, flags')).1.2 f

def FlagSemantics.language {δ : Type} (sem : FlagSemantics δ) : Code.Language FlagInstr Nat (δ × FlagState) (Bool × Word) where
  id := FlagInstr.id
  exec := sem.exec

inductive SameButDead {δ : Type} (outside : Flag → Prop) (ls : List FlagInstr) :
    Code.Config FlagInstr Nat (δ × FlagState) (Bool × Word) → Code.Config FlagInstr Nat (δ × FlagState) (Bool × Word) →
      Prop where
  | run {rest : List FlagInstr} {d : δ} {flags flags' : FlagState} (h : ∀ f, MayRead outside ls f rest → flags f = flags' f) :
      SameButDead outside ls (.run rest (d, flags)) (.run rest (d, flags'))
  | left {keeps : Bool} {pc : Word} {d : δ} {flags flags' : FlagState}
      (h : keeps = true → ∀ f, outside f → flags f = flags' f) :
      SameButDead outside ls (.left (keeps, pc) (d, flags)) (.left (keeps, pc) (d, flags'))
  | missing {i : Nat} {d : δ} {flags flags' : FlagState} (h : ∀ f, outside f → flags f = flags' f) :
      SameButDead outside ls (.missing i (d, flags)) (.missing i (d, flags'))

end Granary.Blocks
