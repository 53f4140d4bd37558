import Granary.Policies.Policy

/-!
# Mangling control transfers

`mangle_cti` and `mangle_direct_cti` of `granary/mangle.cc`: the policy of the target of a branch, and where a direct
branch is sent. How the branch is encoded is left out, as are the stubs.
-/

namespace Granary.Policies

/-- The build, and what is asked of an address. `wholeKernel` is `GRANARY_WHOLE_KERNEL`. -/
structure Environment where
  kernel : Bool
  wholeKernel : Bool
  autoVisitHost : BitVec 8 → Bool
  kernelHostAddress : AppPc → Bool
  isCodeCacheAddress : AppPc → Bool
  isWrapperAddress : AppPc → Bool
  isGencodeAddress : AppPc → Bool
  mix : UInt64 → UInt64
  detachTables : DetachHashTable

namespace Environment

variable (env : Environment)

def instrumentHost : Bool := !env.kernel || env.wholeKernel

def findDetachTarget (pc : AppPc) (context : RuntimeContext) : AppPc :=
  Granary.findDetachTarget env.mix env.kernel env.kernelHostAddress env.detachTables pc context

def isHostAddress (pc : AppPc) : Bool :=
  if env.kernel then env.kernelHostAddress pc else env.findDetachTarget pc .runningAsApp ≠ 0

def isHostAutoInstrumented (p : InstrumentationPolicy) : Bool := env.instrumentHost || env.autoVisitHost p.id

def isGranaryAddress (pc : AppPc) : Bool :=
  env.isCodeCacheAddress pc || env.isWrapperAddress pc || env.isGencodeAddress pc

/-- `return_address_in_code_cache`. With `CONFIG_OPTIMISE_DIRECT_RETURN`, as in the kernel, it has no effect. -/
def returnAddressInCodeCache (p : InstrumentationPolicy) (val : Bool) : InstrumentationPolicy :=
  if env.kernel then p else { p with canDirectReturn := val }

end Environment

inductive CtiTarget where
  | pc (pc : AppPc)
  | indirect
  | label
deriving DecidableEq, Repr

inductive CtiKind where
  | call
  | jmp
  | conditional
  | ret
  | iret
deriving DecidableEq, Repr

/-- A control transfer instruction, with the policy that the client set. -/
structure Cti where
  kind : CtiKind
  target : CtiTarget
  policy : InstrumentationPolicy
deriving DecidableEq, Repr

/-- What `detach_target_pc` was set to, with the reason. `none` is `nullptr`. -/
inductive Redirect where
  | none
  | kept (pc : AppPc)
  | detached (pc : AppPc)
  | native (pc : AppPc)
  | translated (pc : AppPc)
deriving DecidableEq, Repr

def Redirect.orElse (r : Redirect) (reason : AppPc → Redirect) (pc : AppPc) : Redirect :=
  match r with
  | .none => if pc = 0 then .none else reason pc
  | r => r

inductive MangledCti where
  | unchanged
  | redirected (target : Redirect)
  | dblLookup (am : MangledAddress)
  | iblLookup (policy : InstrumentationPolicy)
deriving DecidableEq, Repr

section Mangle

-- `policy` is the policy of the mangler, and `lookup` is `code_cache::lookup`, with `0` for code that is not there
variable (env : Environment) (policy : InstrumentationPolicy) (lookup : MangledAddress → AppPc)

def mangleDirectCti (targetPc : AppPc) (targetPolicy : InstrumentationPolicy) : MangledCti :=
  -- keep the target as it is
  let r := if env.isGranaryAddress targetPc then Redirect.none.orElse .kept targetPc else .none
  -- the first detach check, before the context is converted
  let r := if targetPolicy.canDetach then r.orElse .detached (env.findDetachTarget targetPc targetPolicy.context) else r
  let am : MangledAddress := ⟨targetPc, targetPolicy⟩
  let (r, am) :=
    if r = .none ∧ policy.isInHostContext = false ∧ env.isHostAddress targetPc then
      if env.isHostAutoInstrumented policy then
        (r, ({ addr := targetPc, policy := { targetPolicy with isInHostContext := true } } : MangledAddress))
      else (r.orElse .native targetPc, am)
    else (r, am)
  -- the second one, in the context of the target
  let r := r.orElse .detached (env.findDetachTarget targetPc am.policy.context)
  let r := r.orElse .translated (lookup am)
  if r = .none then .dblLookup am else .redirected r

def targetPolicy (kind : CtiKind) (inPolicy : InstrumentationPolicy) : InstrumentationPolicy :=
  let p := if inPolicy.isMissing then policy else inPolicy
  let p := { p with beginsFunctionalUnit := false }
  if kind = .call then
    { env.returnAddressInCodeCache (p.inheritProperties policy .inheritCall) true with beginsFunctionalUnit := true }
  else { p.inheritProperties policy .inheritJmp with beginsFunctionalUnit := false }

def mangleCti (cti : Cti) : MangledCti :=
  match cti.kind with
  | .iret => .unchanged
  | .ret =>
    let p := if cti.policy.isMissing then policy else cti.policy
    let p := { p with beginsFunctionalUnit := false }
    let p := { p.inheritProperties policy .inheritReturn with
      isReturnTarget := true, isIndirectTarget := false, isInHostContext := false }
    let p := env.returnAddressInCodeCache p false
    -- with direct returns, and for a return address in the code cache, the return is left alone
    if env.kernel || policy.canDirectReturn then .unchanged else .iblLookup p
  | kind =>
    let p := targetPolicy env policy kind cti.policy
    match cti.target with
    | .pc targetPc =>
      mangleDirectCti env policy lookup targetPc { p with isReturnTarget := false, isIndirectTarget := false }
    | .indirect =>
      let p := { p with isReturnTarget := false, isIndirectTarget := true, beginsFunctionalUnit := true }
      .iblLookup (if env.isHostAutoInstrumented p then { p with isInHostContext := true } else p)
    | .label => .unchanged

end Mangle

def MangledCti.IsDetached : MangledCti → Prop
  | .redirected (.detached _) | .redirected (.native _) => True
  | _ => False

def DetachTablesBuilt (mix : UInt64 → UInt64) (tables : DetachHashTable) : Prop :=
  ∀ context, ∃ calls, CacheRun mix calls (tables context) ∧ ∀ call ∈ calls, call.key ≠ 0

end Granary.Policies
