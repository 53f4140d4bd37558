import Granary.Lib.BitField
import Granary.Policies.Policy

/-!
# The bits of policies and mangled addresses

The unions of `granary/policy.h`: a policy as 16 bits, with the operations of `instrumentation_policy` on them, and a
mangled address as 64 bits, the high 16 of which are those of a policy.
-/

namespace Granary.Policies

/-! ## Policies -/

abbrev PolicyBits := BitVec 16

namespace PolicyBits

def setBeginsFunctionalUnit (val : Bool) (bits : PolicyBits) : PolicyBits := BitField.put 0 (BitVec.ofBool val) bits

def setIsIndirectTarget (val : Bool) (bits : PolicyBits) : PolicyBits := BitField.put 1 (BitVec.ofBool val) bits

def setIsReturnTarget (val : Bool) (bits : PolicyBits) : PolicyBits := BitField.put 2 (BitVec.ofBool val) bits

def setForceAttach (val : Bool) (bits : PolicyBits) : PolicyBits := BitField.put 3 (BitVec.ofBool val) bits

def setAccessesUserData (val : Bool) (bits : PolicyBits) : PolicyBits := BitField.put 6 (BitVec.ofBool val) bits

def id (bits : PolicyBits) : BitVec 8 := BitField.get 8 8 bits

def setId (id : BitVec 8) (bits : PolicyBits) : PolicyBits := BitField.put 8 id bits

def basePolicy (bits : PolicyBits) : PolicyBits :=
  bits |> setBeginsFunctionalUnit false |> setIsIndirectTarget false |> setIsReturnTarget false |> setForceAttach false

def inheritProperties (bits that : PolicyBits) (constraint : PropertyInheritConstraint) : PolicyBits :=
  let id := bits.id
  let that := that.basePolicy
  let bits :=
    match constraint with
    | .inheritAll | .inheritJmp | .inheritReturn => 0 ||| that
    | .inheritCall => setAccessesUserData false (0 ||| that)
  setId id bits

def inheritFrom (bits : PolicyBits) (chain : List (PolicyBits × PropertyInheritConstraint)) : PolicyBits :=
  chain.foldl (fun bits x => bits.inheritProperties x.1 x.2) bits

def temporaryProperties (bits : PolicyBits) : BitVec 4 := BitField.get 0 4 bits

def properties (bits : PolicyBits) : BitVec 8 := BitField.get 0 8 bits

end PolicyBits

/-! ## Mangled addresses -/

abbrev MangledBits := BitVec 64

namespace MangledBits

def policyBits (addr : MangledBits) : PolicyBits := BitField.get 48 16 addr

def setPolicyBits (bits : PolicyBits) (addr : MangledBits) : MangledBits := BitField.put 48 bits addr

def ofAddress (addr : BitVec 64) (policy : PolicyBits) : MangledBits := setPolicyBits policy addr

def unmangledAddress (kernel : Bool) (addr : MangledBits) : BitVec 64 :=
  setPolicyBits (if kernel then 0xffff else 0) addr

end MangledBits

def HighBitsOf (kernel : Bool) (addr : BitVec 64) : Prop := BitField.get 48 16 addr = if kernel then 0xffff else 0

structure PolicyLaws (kernel : Bool) (addr : BitVec 64) (p q : PolicyBits) (constraint : PropertyInheritConstraint) :
    Prop where
  unmangled : (MangledBits.ofAddress addr p).unmangledAddress kernel = addr
  policy : (MangledBits.ofAddress addr p).policyBits = p
  base_idem : p.basePolicy.basePolicy = p.basePolicy
  base_other : BitField.get 4 12 p.basePolicy = BitField.get 4 12 p
  inherit_id : (p.inheritProperties q constraint).id = p.id
  inherit_temporary : (p.inheritProperties q constraint).temporaryProperties = 0
  /-- only the last policy matters -/
  inherit_chain : ∀ (p' : PolicyBits) chain,
    ((p.inheritFrom chain).inheritProperties q constraint).properties = (p'.inheritProperties q constraint).properties

end Granary.Policies
