import Granary.Policies.Mangle
import Mathlib.Data.Prod.Lex
import Mathlib.Logic.Function.Basic

/-!
# Finding code in the code cache

`code_cache::find` of `granary/code_cache.cc`, as a sequence of steps on the table and on the code that was encoded. An
operation on the table is one step, and so is what is done under the lock of the indirect branch lookup. What is
translated is given as a choice: where the block and the other blocks of its trace were placed, and where an exit of the
indirect branch lookup was placed.
-/

namespace Granary.Policies

open Function (update)

namespace MangledAddress

/-- The key is for the target of an indirect branch or a return, and leads to an exit of the indirect branch lookup. -/
def isIndirect (am : MangledAddress) : Bool := am.policy.isIndirectTarget || am.policy.isReturnTarget

def converted (env : Environment) (am : MangledAddress) : InstrumentationPolicy :=
  { am.policy with isInHostContext := env.kernel && env.isHostAddress am.addr }

def base (env : Environment) (am : MangledAddress) : MangledAddress := { am with policy := (am.converted env).basePolicy }

end MangledAddress

/-- What was encoded at an address: a block for a native address and a policy, or an exit for a key. -/
inductive Code where
  | translation (am : MangledAddress)
  | exit (am : MangledAddress) (target : Redirect)
deriving DecidableEq, Repr

structure CodeCache where
  table : MangledAddress → Option AppPc
  code : AppPc → Option Code

namespace CodeCache

def init : CodeCache := { table := fun _ => none, code := fun _ => none }

def put (m : CodeCache) (am : MangledAddress) (pc : AppPc) : CodeCache :=
  { m with table := update m.table am (some pc) }

def encode (m : CodeCache) (pc : AppPc) (code : Code) : CodeCache :=
  { m with code := update m.code pc (some code) }

def free (m : CodeCache) (pc : AppPc) : CodeCache := { m with code := update m.code pc none }

def lookup (m : CodeCache) (am : MangledAddress) : AppPc := (m.table am).getD 0

end CodeCache

structure InnerBlock where
  am : MangledAddress
  pc : AppPc
deriving DecidableEq, Repr

structure Choice where
  head : AppPc
  inner : List InnerBlock
  exitPc : AppPc

inductive FindPc where
  /-- `CODE_CACHE->load(addr.as_address, target_addr)` -/
  | load (am : MangledAddress)
  /-- `CODE_CACHE->load(base_addr.as_address, target_addr)` -/
  | loadBase (am : MangledAddress)
  /-- `find_detach_target(app_target_addr, policy.context())` -/
  | findDetach (am : MangledAddress)
  /-- `basic_block::translate`, until everything is encoded -/
  | translate (am : MangledAddress)
  /-- `code_cache::add` for the inner blocks of the trace -/
  | publish (am : MangledAddress) (head : AppPc) (inner : List InnerBlock)
  /-- `CODE_CACHE->store(base_addr.as_address, target_addr, HASH_KEEP_PREV_ENTRY)` -/
  | storeKeep (am : MangledAddress) (head : AppPc)
  /-- `CODE_CACHE->store(base_addr.as_address, target_addr, HASH_OVERWRITE_PREV_ENTRY)` -/
  | storeOverwrite (am : MangledAddress) (head : AppPc)
  /-- `free_last` of the block -/
  | discard (am : MangledAddress) (head : AppPc)
  /-- `CODE_CACHE->load(base_addr.as_address, target_addr)` after it -/
  | reload (am : MangledAddress) (head : AppPc)
  /-- from `ibl_lock` to `ibl_unlock` -/
  | exit (am : MangledAddress) (target : Redirect)
  /-- `target_addr` is returned, which a lookup has found or is for one of these reasons -/
  | returned (am : MangledAddress) (target : Redirect)
deriving DecidableEq, Repr

section Step

variable (env : Environment)

/-- The address is found, and an indirect branch needs an exit that leads to it. -/
def finish (am : MangledAddress) (target : Redirect) : FindPc :=
  if am.isIndirect then .exit am target else .returned am target

def detachTarget (am : MangledAddress) : Redirect :=
  if am.policy.canDetach then
    let r := Redirect.none.orElse .detached (env.findDetachTarget am.addr (am.converted env).context)
    -- host code that is reached from application code, which is not auto-instrumented
    if !env.instrumentHost && !am.policy.isInHostContext && (am.converted env).isInHostContext then
      r.orElse .native am.addr
    else r
  else .none

def FindPc.step (choice : Choice) (m : CodeCache) : FindPc → CodeCache × FindPc
  | .load am =>
    match m.table am with
    | some pc => (m, .returned am (.translated pc))
    | none =>
      -- a return address into the code cache that was copied
      if env.isGranaryAddress am.addr && am.addr ≠ 0 then (m, finish am (.kept am.addr))
      else if am.base env ≠ am then (m, .loadBase am)
      else (m, .findDetach am)
  | .loadBase am =>
    match m.table (am.base env) with
    | some pc => (m, finish am (.translated pc))
    | none => (m, .findDetach am)
  | .findDetach am =>
    match detachTarget env am with
    | .none => (m, .translate am)
    | target => (m, finish am target)
  | .translate am =>
    let m := m.encode choice.head (.translation (am.base env))
    let m := choice.inner.foldl (fun m b => m.encode b.pc (.translation b.am)) m
    (m, if choice.inner = [] then .storeKeep am choice.head else .publish am choice.head choice.inner)
  | .publish am head [] => (m, .storeOverwrite am head)
  | .publish am head (b :: inner) => (m.put b.am b.pc, .publish am head inner)
  | .storeKeep am head =>
    match m.table (am.base env) with
    | none => (m.put (am.base env) head, finish am (.translated head))
    | some _ => (m, .discard am head)
  | .storeOverwrite am head => (m.put (am.base env) head, finish am (.translated head))
  | .discard am head => (m.free head, .reload am head)
  | .reload am head => (m, finish am (.translated ((m.table (am.base env)).getD head)))
  | .exit am target =>
    let m := m.encode choice.exitPc (.exit am target)
    match m.table am with
    | none => (m.put am choice.exitPc, .returned am (.translated choice.exitPc))
    | some pc => (m, .returned am (.translated pc))
  | .returned am target => (m, .returned am target)

/-! ## Calls of any number of CPUs -/

/-- New code is placed where there is none, in the code cache, and blocks are apart. Inner blocks have policies without
temporary properties. -/
def Choice.Fits (choice : Choice) (m : CodeCache) : FindPc → Prop
  | .translate _ =>
    (choice.head :: choice.inner.map InnerBlock.pc).Nodup ∧
    (∀ pc ∈ choice.head :: choice.inner.map InnerBlock.pc,
      m.code pc = none ∧ pc ≠ 0 ∧ env.isCodeCacheAddress pc = true) ∧
    ∀ b ∈ choice.inner, b.am.policy.basePolicy = b.am.policy
  | .exit _ _ => m.code choice.exitPc = none ∧ choice.exitPc ≠ 0 ∧
      (env.isCodeCacheAddress choice.exitPc || env.isGencodeAddress choice.exitPc) = true
  | _ => True

structure FindState (Cpu : Type) where
  cache : CodeCache
  pc : Cpu → Option FindPc

variable {Cpu : Type} [DecidableEq Cpu]

def FindState.init : FindState Cpu := { cache := .init, pc := fun _ => none }

-- what is looked up, and what gets into traces
variable (calls : MangledAddress → Prop) (blocks : InnerBlock → Prop)

inductive FindStep : FindState Cpu → FindState Cpu → Prop where
  | enter {s} (c : Cpu) (am : MangledAddress) : s.pc c = none → calls am →
      FindStep s { s with pc := update s.pc c (some (.load am)) }
  | step {s} (c : Cpu) (p : FindPc) (choice : Choice) : s.pc c = some p → choice.Fits env s.cache p →
      (∀ b ∈ choice.inner, blocks b) →
      FindStep s { cache := (p.step env choice s.cache).1
                   pc := update s.pc c (some (p.step env choice s.cache).2) }
  | leave {s} (c : Cpu) (am : MangledAddress) (target : Redirect) : s.pc c = some (.returned am target) →
      FindStep s { s with pc := update s.pc c none }

inductive FindReachable : FindState Cpu → Prop where
  | init : FindReachable .init
  | step {s s'} : FindReachable s → FindStep env calls blocks s s' → FindReachable s'

end Step

/-- How far a call is from its end. Only the entering of inner blocks is repeated. -/
def FindPc.rank : FindPc → Nat ×ₗ Nat
  | .load _ => toLex (7, 0)
  | .loadBase _ => toLex (6, 0)
  | .findDetach _ => toLex (5, 0)
  | .translate _ => toLex (4, 0)
  | .publish _ _ inner => toLex (3, inner.length + 1)
  | .storeKeep _ _ => toLex (3, 2)
  | .storeOverwrite _ _ => toLex (3, 0)
  | .discard _ _ => toLex (3, 1)
  | .reload _ _ => toLex (3, 0)
  | .exit _ _ => toLex (1, 0)
  | .returned _ _ => toLex (0, 0)

section Safe

variable (env : Environment)

/-- The translation under the base policy, one of Granary's own addresses, or where to detach to, for host code maybe that
itself. -/
def CodeCache.Proper (m : CodeCache) (am : MangledAddress) : Redirect → Prop
  | .none => False
  | .translated pc => m.code pc = some (.translation (am.base env))
  | .kept pc => env.isGranaryAddress am.addr = true ∧ pc = am.addr
  | .detached pc => am.policy.canDetach = true ∧ pc = env.findDetachTarget am.addr (am.converted env).context ∧ pc ≠ 0
  | .native pc => env.kernel = true ∧ env.instrumentHost = false ∧ am.policy.canDetach = true ∧
      am.policy.isInHostContext = false ∧ env.isHostAddress am.addr = true ∧ pc = am.addr

def CodeCache.Published (m : CodeCache) (am : MangledAddress) (pc : AppPc) : Prop :=
  if am.isIndirect then ∃ target, m.code pc = some (.exit am target) ∧ m.Proper env am target
  else m.code pc = some (.translation am) ∧ am.policy.basePolicy = am.policy

def CodeCache.Answers (m : CodeCache) (am : MangledAddress) (target : Redirect) : Prop :=
  (∃ pc, target = .translated pc ∧ m.Published env am pc) ∨ am.isIndirect = false ∧ m.Proper env am target

/-- Nothing in the table leads to this address, neither directly nor through an exit. -/
def CodeCache.Unreferenced (m : CodeCache) (pc : AppPc) : Prop :=
  (∀ am, m.table am ≠ some pc) ∧ ∀ exitPc am, m.code exitPc ≠ some (.exit am (.translated pc))

/-- What concurrent calls of `find` guarantee. -/
structure FindSafe {Cpu : Type} (s : FindState Cpu) : Prop where
  answers : ∀ c am target, s.pc c = some (.returned am target) → s.cache.Answers env am target
  published : ∀ am pc, s.cache.table am = some pc → s.cache.Published env am pc
  /-- code is in the code cache, or with the gencode -/
  placed : ∀ pc, s.cache.code pc ≠ none → (env.isCodeCacheAddress pc || env.isGencodeAddress pc) = true
  /-- a block that lost the race is in nobody's way -/
  lost : ∀ c am head, s.pc c = some (.discard am head) →
    s.cache.Unreferenced head ∧ s.cache.table (am.base env) ≠ none
  /-- and the call goes on with the block that won -/
  winner : ∀ c am head, s.pc c = some (.reload am head) → ∃ pc, s.cache.table (am.base env) = some pc ∧
    ∀ choice, ((FindPc.reload am head).step env choice s.cache).2 = finish am (.translated pc)
  /-- every step brings a call closer to its end -/
  progress : ∀ c p, s.pc c = some p → (∃ am target, p = .returned am target) ∨
    ∀ choice, (p.step env choice s.cache).2.rank < p.rank

def MangledAddress.registered (env : Environment) (am : MangledAddress) : AppPc :=
  env.findDetachTarget am.addr (am.converted env).context

structure MangledAddress.Detachable (env : Environment) (am : MangledAddress) : Prop where
  canDetach : am.policy.canDetach = true
  registered : am.registered env ≠ 0
  native : env.isGranaryAddress am.addr = false

def CodeCache.DetachesTo (m : CodeCache) (am : MangledAddress) (target : Redirect) (pc : AppPc) : Prop :=
  target = .detached pc ∨ ∃ exitPc, target = .translated exitPc ∧ m.code exitPc = some (.exit am (.detached pc))

structure FindState.Detaches {Cpu : Type} (am : MangledAddress) (s : FindState Cpu) : Prop where
  returned : ∀ c target, s.pc c = some (.returned am target) → s.cache.DetachesTo am target (am.registered env)
  progress : ∀ c p, s.pc c = some p → (∃ am target, p = .returned am target) ∨
    ∀ choice, (p.step env choice s.cache).2.rank < p.rank

end Safe

/-! ## Computing runs -/

inductive FindAction (Cpu : Type) where
  | enter (c : Cpu) (am : MangledAddress)
  | step (c : Cpu) (choice : Choice)
  | leave (c : Cpu)

instance (env : Environment) (choice : Choice) (m : CodeCache) (p : FindPc) : Decidable (choice.Fits env m p) :=
  match p with
  | .translate _ =>
    -- look at the blocks of the trace, and not at all addresses
    letI : Decidable (∀ pc ∈ choice.head :: choice.inner.map InnerBlock.pc,
        m.code pc = none ∧ pc ≠ 0 ∧ env.isCodeCacheAddress pc = true) := List.decidableBAll _ _
    inferInstanceAs (Decidable (_ ∧ _))
  | .exit _ _ => inferInstanceAs (Decidable (_ ∧ _))
  | .load _ | .loadBase _ | .findDetach _ | .publish _ _ _ | .storeKeep _ _ | .storeOverwrite _ _ | .discard _ _
  | .reload _ _ | .returned _ _ => inferInstanceAs (Decidable True)

def FindState.act {Cpu : Type} [DecidableEq Cpu] (env : Environment) (s : FindState Cpu) :
    FindAction Cpu → Option (FindState Cpu)
  | .enter c am => if s.pc c = none then some { s with pc := update s.pc c (some (.load am)) } else none
  | .step c choice => do
      let p ← s.pc c
      if choice.Fits env s.cache p then
        some { cache := (p.step env choice s.cache).1
               pc := update s.pc c (some (p.step env choice s.cache).2) }
      else none
  | .leave c =>
    match s.pc c with
    | some (.returned _ _) => some { s with pc := update s.pc c none }
    | _ => none

end Granary.Policies
