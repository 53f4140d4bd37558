import Granary.Policies.Lemmas.Find

/-!
# Direct branches to translated code

`find` enters translations under base policies in the context of their address. The key with which a direct branch is
looked up keeps the mark of a call, and the context of the block with the branch.
-/

namespace Granary.Policies

variable {env : Environment} {policy inPolicy tp : InstrumentationPolicy} {m : CodeCache} {am k : MangledAddress}
  {lookup : MangledAddress → AppPc} {kind : CtiKind} {pc targetPc : AppPc}

/-! ## The key of a branch -/

theorem targetPolicy_temporary :
    targetPolicy env policy kind inPolicy =
      { (targetPolicy env policy kind inPolicy).basePolicy with beginsFunctionalUnit := decide (kind = .call) } := by
  by_cases hkind : kind = .call
  · simp only [targetPolicy, hkind, if_true, Environment.returnAddressInCodeCache]
    split <;> rfl
  · simp only [targetPolicy, hkind, if_false]
    rfl

theorem key_eq_base_iff (host : Bool) :
    (⟨targetPc, { targetPolicy env policy kind inPolicy with
      isReturnTarget := false, isIndirectTarget := false, isInHostContext := host }⟩ : MangledAddress) =
        MangledAddress.base env ⟨targetPc, targetPolicy env policy kind inPolicy⟩ ↔
      kind ≠ .call ∧ host = (env.kernel && env.isHostAddress targetPc) := by
  rw [targetPolicy_temporary]
  simp [MangledAddress.base, MangledAddress.converted, InstrumentationPolicy.basePolicy]

/-! ## The lookup -/

theorem CodeCache.Sound.lookup_eq_iff (hm : m.Sound env) (hbase : m.table (am.base env) = some pc)
    (hk : k.isIndirect = false) : m.lookup k = pc ↔ k = am.base env := by
  have hcode := hm.base_translation hbase
  have hpc : pc ≠ 0 := (hm.placed pc (by rw [hcode]; nofun)).1
  constructor
  · intro hlookup
    cases htable : m.table k with
    | none =>
      rw [CodeCache.lookup, htable] at hlookup
      exact absurd hlookup.symm hpc
    | some a =>
      rw [CodeCache.lookup, htable, Option.getD_some] at hlookup
      subst hlookup
      have hpub := hm.published k a htable
      rw [CodeCache.Published, if_neg (by simp [hk]), hcode] at hpub
      cases hpub.1
      rfl
  · rintro rfl
    rw [CodeCache.lookup, hbase, Option.getD_some]

theorem translated_iff (hpc : pc ≠ 0) (am : MangledAddress) (v : AppPc) :
    (if Redirect.none.orElse .translated v = .none then MangledCti.dblLookup am
      else .redirected (Redirect.none.orElse .translated v)) = .redirected (.translated pc) ↔ v = pc := by
  by_cases hv : v = 0
  · rw [hv, Redirect.orElse_zero, if_pos rfl]
    exact iff_of_false nofun (Ne.symm hpc)
  · rw [Redirect.none_orElse hv, if_neg nofun]
    simp

section Undetached

variable (hnative : env.isGranaryAddress targetPc = false) (hdetach : ∀ context, env.findDetachTarget targetPc context = 0)
  (hpc : pc ≠ 0)

include hnative hdetach hpc

theorem mangleDirectCti_kept_context (h : policy.isInHostContext = false → env.isHostAddress targetPc = false) :
    mangleDirectCti env policy lookup targetPc tp = .redirected (.translated pc) ↔ lookup ⟨targetPc, tp⟩ = pc := by
  have hcond : ¬ (policy.isInHostContext = false ∧ env.isHostAddress targetPc = true) := fun hc => by
    rw [h hc.1] at hc
    cases hc.2
  simp only [mangleDirectCti, hnative, hdetach, Redirect.orElse_zero, ite_self, Bool.false_eq_true, ↓reduceIte, true_and,
    hcond]
  exact translated_iff hpc _ _

theorem mangleDirectCti_host (happ : policy.isInHostContext = false) (hhost : env.isHostAddress targetPc = true) :
    mangleDirectCti env policy lookup targetPc tp = .redirected (.translated pc) ↔
      if env.isHostAutoInstrumented policy then lookup ⟨targetPc, { tp with isInHostContext := true }⟩ = pc
      else targetPc = 0 ∧ lookup ⟨targetPc, tp⟩ = pc := by
  simp only [mangleDirectCti, hnative, hdetach, Redirect.orElse_zero, ite_self, Bool.false_eq_true, ↓reduceIte, true_and,
    happ, hhost]
  cases env.isHostAutoInstrumented policy with
  | true => exact translated_iff hpc _ _
  | false =>
    by_cases h0 : targetPc = 0
    · simp only [h0, Bool.false_eq_true, ↓reduceIte, Redirect.orElse_zero, true_and]
      exact translated_iff hpc _ _
    · simp [h0, Redirect.none_orElse]

end Undetached

end Granary.Policies
