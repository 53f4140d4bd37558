import Granary.Tables.CodeCache

/-!
# Instrumentation policies

`granary/policy.h` and `granary/policy.cc`: the properties of a policy, how the target of a branch inherits them, mangled
addresses, and how `policy_for` hands out ids.
-/

namespace Granary.Policies

open Function (update)

/-- `instrumentation_policy`: four temporary properties, four inherited ones, and the id. -/
structure InstrumentationPolicy where
  beginsFunctionalUnit : Bool
  isIndirectTarget : Bool
  isReturnTarget : Bool
  forceAttach : Bool
  isInXmmContext : Bool
  isInHostContext : Bool
  accessesUserData : Bool
  canDirectReturn : Bool
  id : BitVec 8
deriving DecidableEq, Repr

inductive PropertyInheritConstraint where
  | inheritAll
  | inheritCall
  | inheritJmp
  | inheritReturn
deriving DecidableEq, Repr

namespace InstrumentationPolicy

def fromId (id : Nat) : InstrumentationPolicy :=
  { beginsFunctionalUnit := false, isIndirectTarget := false, isReturnTarget := false, forceAttach := false,
    isInXmmContext := false, isInHostContext := false, accessesUserData := false, canDirectReturn := false,
    id := BitVec.ofNat 8 id }

def basePolicy (p : InstrumentationPolicy) : InstrumentationPolicy :=
  { p with beginsFunctionalUnit := false, isIndirectTarget := false, isReturnTarget := false, forceAttach := false }

/-- `operator!`. -/
def isMissing (p : InstrumentationPolicy) : Bool := p.id = 0#8

def context (p : InstrumentationPolicy) : RuntimeContext :=
  if p.isInHostContext then .runningAsHost else .runningAsApp

def canDetach (p : InstrumentationPolicy) : Bool := !p.forceAttach

def inheritProperties (p that : InstrumentationPolicy) (constraint : PropertyInheritConstraint) :
    InstrumentationPolicy :=
  match constraint with
  | .inheritAll | .inheritJmp | .inheritReturn => { that.basePolicy with id := p.id }
  | .inheritCall => { that.basePolicy with accessesUserData := false, id := p.id }

end InstrumentationPolicy

/-- An address and, in its high 16 bits, a policy. Addresses are canonical, so that `unmangled_address` gets them back. -/
structure MangledAddress where
  addr : AppPc
  policy : InstrumentationPolicy
deriving DecidableEq, Repr

/-! ## `policy_for` -/

def maxNumPolicyIds : Nat := 2 ^ 8

/-- `NEXT_POLICY_ID`, the `POLICY_ID` of each type of policy, and the visitors that were stored for each id. -/
structure PolicyRegistry (T : Type) where
  nextPolicyId : Nat
  policyId : T → Nat
  appVisitors : Nat → Option T
  hostVisitors : Nat → Option T
  interruptVisitors : Nat → Option T
  autoVisitHost : Nat → Bool

namespace PolicyRegistry

variable {T : Type} [DecidableEq T]

/-- The static state. The code starts counting at `0`. -/
def init (nextPolicyId : Nat) : PolicyRegistry T :=
  { nextPolicyId, policyId := fun _ => 0, appVisitors := fun _ => none, hostVisitors := fun _ => none,
    interruptVisitors := fun _ => none, autoVisitHost := fun _ => false }

/-- `init_policy`. An id that is not below `MAX_NUM_POLICY_IDS` is outside of the arrays of visitors. -/
def initPolicy (autoInstrumentHost : T → Bool) (s : PolicyRegistry T) (t : T) : Option (Nat × PolicyRegistry T) :=
  let policyId := s.nextPolicyId
  if policyId < maxNumPolicyIds then
    some (policyId, { s with
      nextPolicyId := (s.nextPolicyId + 1) % 2 ^ 32
      autoVisitHost := update s.autoVisitHost policyId (autoInstrumentHost t)
      appVisitors := update s.appVisitors policyId (some t)
      hostVisitors := update s.hostVisitors policyId (some t)
      interruptVisitors := update s.interruptVisitors policyId (some t) })
  else none

def policyFor (autoInstrumentHost : T → Bool) (s : PolicyRegistry T) (t : T) :
    Option (InstrumentationPolicy × PolicyRegistry T) :=
  if s.policyId t = 0 then do
    let (id, s) ← s.initPolicy autoInstrumentHost t
    return (.fromId id, { s with policyId := update s.policyId t id })
  else return (.fromId (s.policyId t), s)

/-- Conversions one after the other, and the policies that they gave. -/
def run (autoInstrumentHost : T → Bool) :
    List T → PolicyRegistry T → Option (List InstrumentationPolicy × PolicyRegistry T)
  | [], s => return ([], s)
  | t :: ts, s => do
      let (p, s) ← s.policyFor autoInstrumentHost t
      let (ps, s) ← run autoInstrumentHost ts s
      return (p :: ps, s)

/-- The ids that were given to the types of policy `ts` name the types. -/
structure Identifies (ts : List T) (ps : List InstrumentationPolicy) (s : PolicyRegistry T) : Prop where
  length_eq : ps.length = ts.length
  /-- one id for each type, and one type for each id -/
  unique : ∀ x ∈ ts.zip ps, ∀ y ∈ ts.zip ps, x.1 = y.1 ↔ x.2.id = y.2.id
  initialised : ∀ p ∈ ps, p.isMissing = false
  visitors : ∀ x ∈ ts.zip ps, x.2.id.toNat < maxNumPolicyIds ∧ s.appVisitors x.2.id.toNat = some x.1 ∧
    s.hostVisitors x.2.id.toNat = some x.1 ∧ s.interruptVisitors x.2.id.toNat = some x.1

end PolicyRegistry

end Granary.Policies
