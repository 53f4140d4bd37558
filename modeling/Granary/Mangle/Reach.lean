import Granary.Lib.Memory
import Mathlib.Algebra.Group.Int.Defs

/-!
# Reach of relative operands

`is_far_away` of `granary/emit_utils.h`, by which `granary/mangle.cc` decides whether a target can stay relative to `rip`, and
the code cache of `granary/allocator.cc` from where it has to be reached.
-/

namespace Granary.Mangle

open Machine

def isFarAway (p q : Word) : Bool :=
  let diff := p - q
  (4294967296 : Word).sle (if diff.slt 0 then -diff else diff)

def codeCacheSize : Nat := 100 * 1048576

structure ExecutableArea where
  start : Word
  fits : start.toNat + codeCacheSize ≤ 2 ^ 64

namespace ExecutableArea

def Contains (area : ExecutableArea) (pc : Word) (size : Nat) : Prop :=
  area.start.toNat ≤ pc.toNat ∧ pc.toNat + size ≤ area.start.toNat + codeCacheSize

instance (area : ExecutableArea) (pc : Word) (size : Nat) : Decidable (area.Contains pc size) :=
  inferInstanceAs (Decidable (_ ∧ _))

end ExecutableArea

def Encodable (endPc target : Word) : Prop := ∃ disp : BitVec 32, endPc + disp.signExtend 64 = target

def NearEncodable (area : ExecutableArea) (estimatorPc target : Word) : Prop :=
  isFarAway estimatorPc target = false →
    ∀ (pc : Word) (size : Nat), 0 < size → area.Contains pc size → Encodable (pc + BitVec.ofNat 64 size) target

end Granary.Mangle
