import Granary.Policies.Mangle
import Granary.Tables.Lemmas.CodeCache

/-!
# Where a direct branch is sent

The target of a call or jump takes every property from the policy of its block, so that nothing is left of a
`force_attach` that the client has set.
-/

namespace Granary.Policies

variable {env : Environment} {policy inPolicy tp : InstrumentationPolicy} {lookup : MangledAddress → AppPc} {pc : AppPc}
  {kind : CtiKind} {r : Redirect} {reason : AppPc → Redirect} {c : PropertyInheritConstraint} {val : Bool}

@[simp] theorem Redirect.orElse_zero : r.orElse reason 0 = r := by cases r <;> rfl

@[simp] theorem Redirect.orElse_of_ne_none (h : r ≠ .none) : r.orElse reason pc = r := by
  cases r with
  | none => exact absurd rfl h
  | _ => rfl

theorem Redirect.none_orElse (h : pc ≠ 0) : Redirect.none.orElse reason pc = reason pc := if_neg h

/-! ## The policy of the target -/

theorem context_eq_app_iff {p : InstrumentationPolicy} : p.context = .runningAsApp ↔ p.isInHostContext = false := by
  unfold InstrumentationPolicy.context
  cases p.isInHostContext <;> simp

@[simp] theorem inheritProperties_forceAttach : (policy.inheritProperties tp c).forceAttach = false := by cases c <;> rfl

@[simp] theorem inheritProperties_isInHostContext :
    (policy.inheritProperties tp c).isInHostContext = tp.isInHostContext := by cases c <;> rfl

@[simp] theorem returnAddressInCodeCache_forceAttach :
    (env.returnAddressInCodeCache tp val).forceAttach = tp.forceAttach := by
  unfold Environment.returnAddressInCodeCache
  split <;> rfl

@[simp] theorem returnAddressInCodeCache_isInHostContext :
    (env.returnAddressInCodeCache tp val).isInHostContext = tp.isInHostContext := by
  unfold Environment.returnAddressInCodeCache
  split <;> rfl

@[simp] theorem targetPolicy_forceAttach : (targetPolicy env policy kind inPolicy).forceAttach = false := by
  by_cases hkind : kind = .call <;> simp [targetPolicy, hkind]

variable (env policy kind inPolicy) in
@[simp] theorem targetPolicy_isInHostContext :
    (targetPolicy env policy kind inPolicy).isInHostContext = policy.isInHostContext := by
  by_cases hkind : kind = .call <;> simp [targetPolicy, hkind]

theorem mangleCti_pc (hret : kind ≠ .ret) (hiret : kind ≠ .iret) :
    mangleCti env policy lookup { kind, target := .pc pc, policy := inPolicy } =
      mangleDirectCti env policy lookup pc
        { targetPolicy env policy kind inPolicy with isReturnTarget := false, isIndirectTarget := false } := by
  cases kind with
  | ret => exact absurd rfl hret
  | iret => exact absurd rfl hiret
  | _ => rfl

/-! ## The detach tables -/

theorem DetachTablesBuilt.load_zero {mix : UInt64 → UInt64} {tables : DetachHashTable} (h : DetachTablesBuilt mix tables)
    (context : RuntimeContext) : ((tables context).load mix 0).2 = false := by
  obtain ⟨calls, hrun, hkeys⟩ := h context
  have hfind := CpuPrivateCodeCache.find_zero (hrun.spec hkeys).inv
  simp [CpuPrivateCodeCache.load, hfind]

theorem findDetachTarget_zero (h : DetachTablesBuilt env.mix env.detachTables) (context : RuntimeContext) :
    env.findDetachTarget 0 context = 0 := by
  unfold Environment.findDetachTarget Granary.findDetachTarget
  split
  · rfl
  · simp only [h.load_zero, Bool.false_eq_true, ↓reduceIte]

theorem findDetachTarget_app (hk : env.kernel = true) (hpc : env.kernelHostAddress pc = false) :
    env.findDetachTarget pc .runningAsApp = 0 := if_pos ⟨hk, rfl, hpc⟩

theorem findDetachTarget_of_load {v : AppPc} {context : RuntimeContext}
    (h : ¬ (env.kernel = true ∧ context = .runningAsApp ∧ env.kernelHostAddress pc = false))
    (hload : (env.detachTables context).load env.mix pc = (v, true)) : env.findDetachTarget pc context = v := by
  unfold Environment.findDetachTarget Granary.findDetachTarget
  rw [if_neg h]
  simp only [hload, ↓reduceIte]

/-! ## Direct branches -/

theorem mangleDirectCti_kept (hpc : pc ≠ 0) (h : env.isGranaryAddress pc = true) :
    ¬ (mangleDirectCti env policy lookup pc tp).IsDetached := by
  simp [mangleDirectCti, h, Redirect.none_orElse hpc, MangledCti.IsDetached]

theorem not_isDetached_translated {r : Redirect} (pc : AppPc) (hr : r = .none ∨ r = .kept pc) (v : AppPc) (am : MangledAddress) :
    ¬ (if r.orElse .translated v = .none then MangledCti.dblLookup am
      else .redirected (r.orElse .translated v)).IsDetached := by
  rcases hr with rfl | rfl
  · by_cases hv : v = 0
    · rw [hv, Redirect.orElse_zero, if_pos rfl]
      exact id
    · rw [Redirect.none_orElse hv, if_neg nofun]
      exact id
  · exact id

theorem mangleDirectCti_zero (h : DetachTablesBuilt env.mix env.detachTables) :
    ¬ (mangleDirectCti env policy lookup 0 tp).IsDetached := by
  simp only [mangleDirectCti, findDetachTarget_zero h, Redirect.orElse_zero, ite_self, true_and]
  split
  · split <;> exact not_isDetached_translated 0 (.inl rfl) _ _
  · exact not_isDetached_translated 0 (.inl rfl) _ _

theorem mangleDirectCti_none (hfind : env.findDetachTarget pc tp.context = 0) (hhost : env.isHostAddress pc = false) :
    ¬ (mangleDirectCti env policy lookup pc tp).IsDetached := by
  have hkept : Redirect.none.orElse .kept pc = .none ∨ Redirect.none.orElse .kept pc = .kept pc := ite_eq_or_eq _ _ _
  simp only [mangleDirectCti, hfind, hhost, Redirect.orElse_zero, ite_self, Bool.false_eq_true, and_false, ↓reduceIte]
  refine not_isDetached_translated pc ?_ _ _
  split
  · exact hkept
  · exact .inl rfl

theorem mangleDirectCti_isDetached (hg : env.isGranaryAddress pc = false) (hd : tp.forceAttach = false)
    (hne : env.findDetachTarget pc tp.context ≠ 0) : (mangleDirectCti env policy lookup pc tp).IsDetached := by
  simp [mangleDirectCti, hg, InstrumentationPolicy.canDetach, hd, Redirect.none_orElse hne, MangledCti.IsDetached]

end Granary.Policies
