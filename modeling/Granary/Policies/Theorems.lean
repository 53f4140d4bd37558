import Granary.Policies.Lemmas.Detach
import Granary.Policies.Lemmas.Link
import Granary.Policies.Lemmas.Packing
import Granary.Policies.Lemmas.Policy
import Granary.Tables.Theorems

/-!
# Policies

What ids of policies stand for, which branches can be kept from detaching, and what calls of `find` come back with.
-/

namespace Granary.Policies

/-! ## `policy_for` -/

/-- Ids name the types of policies exactly when the counter does not start at the value for no id, as in the code, and there
are enough ids. -/
theorem policyFor_identifies_iff {T : Type} [DecidableEq T] (auto : T → Bool) (n : Nat) (ts : List T) :
    (∃ ps s, PolicyRegistry.run auto ts (.init n) = some (ps, s) ∧ PolicyRegistry.Identifies ts ps s) ↔
      ts = [] ∨ 0 < n ∧ n + ts.toFinset.card ≤ maxNumPolicyIds := by
  cases ts with
  | nil =>
    refine iff_of_true ⟨[], _, rfl, rfl, ?_, ?_, ?_⟩ (.inl rfl) <;> intro _ h <;> cases h
  | cons t ts =>
    simp only [reduceCtorEq, false_or]
    rcases Nat.eq_zero_or_pos n with rfl | hn
    · -- the first id is the one that means none
      refine iff_of_false ?_ (fun h => absurd h.1 (Nat.lt_irrefl 0))
      rintro ⟨ps, s, hrun, hids⟩
      have hfirst : ((PolicyRegistry.init 0 : PolicyRegistry T).policyFor auto t).map Prod.fst = some (.fromId 0) := rfl
      obtain ⟨⟨p, s₁⟩, hfor, rfl⟩ := Option.map_eq_some_iff.mp hfirst
      simp only [PolicyRegistry.run, hfor, Option.bind_eq_bind, Option.bind_some] at hrun
      obtain ⟨⟨ps', s₂⟩, _, hps⟩ := Option.bind_eq_some_iff.mp hrun
      cases hps
      exact absurd (hids.initialised (.fromId 0) List.mem_cons_self) (by decide)
    · simp only [hn, true_and]
      by_cases hle : n ≤ maxNumPolicyIds
      · have hnum := PolicyRegistry.Numbered.init (T := T) hn hle
        by_cases hcard : n + (t :: ts).toFinset.card ≤ maxNumPolicyIds
        · obtain ⟨seen, s, hrun, hnum', hmem, _⟩ := hnum.run_some auto (t :: ts) (by simpa using hcard)
          exact iff_of_true ⟨_, s, hrun, hnum'.identifies fun u hu => hmem u (by simpa using hu)⟩ hcard
        · have hnone := hnum.run_none auto (t :: ts) (by simpa using hcard)
          refine iff_of_false ?_ hcard
          rintro ⟨_, _, hrun, _⟩
          cases hnone.symm.trans hrun
      · have hnone : PolicyRegistry.run auto (t :: ts) (.init n) = none := by
          have hlt : ¬ n < maxNumPolicyIds := by omega
          simp [PolicyRegistry.run, PolicyRegistry.policyFor, PolicyRegistry.initPolicy, PolicyRegistry.init, hlt]
        refine iff_of_false ?_ (by omega)
        rintro ⟨_, _, hrun, _⟩
        cases hnone.symm.trans hrun

/-- The first type of policy gets the id that stands for no policy, and another one the next time. -/
theorem policyFor_first_id_changes :
    (PolicyRegistry.run (fun _ => false) [(), ()] (.init 0)).map Prod.fst = some [.fromId 0, .fromId 1] ∧
    (InstrumentationPolicy.fromId 0).isMissing = true := by decide

/-! ## Bits of policies -/

/-- The laws of policies and mangled addresses hold exactly for the addresses whose high bits are those of the build. -/
theorem policyLaws_iff (kernel : Bool) (addr : BitVec 64) (p q : PolicyBits) (constraint : PropertyInheritConstraint) :
    PolicyLaws kernel addr p q constraint ↔ HighBitsOf kernel addr := by
  constructor
  · intro h
    exact (MangledBits.unmangledAddress_eq_iff kernel addr p).mp h.unmangled
  · intro h
    exact
      { unmangled := (MangledBits.unmangledAddress_eq_iff kernel addr p).mpr h
        policy := MangledBits.policyBits_ofAddress addr p
        base_idem := p.basePolicy_basePolicy
        base_other := p.get_basePolicy
        inherit_id := p.inheritProperties_id q constraint
        inherit_temporary := p.inheritProperties_temporary q constraint
        inherit_chain := fun p' chain => (p.inheritFrom chain).inheritProperties_properties q constraint p' }

/-- An address of the kernel's half, in user space. -/
theorem not_policyLaws_high_half :
    BitField.get 47 17 (0xffffffffff600000 : BitVec 64) = BitVec.allOnes 17 ∧
      (MangledBits.ofAddress 0xffffffffff600000 0x0100).unmangledAddress false = 0x0000ffffff600000 ∧
      ¬ PolicyLaws false 0xffffffffff600000 0x0100 0 .inheritAll := by
  refine ⟨by decide, by decide, fun h => ?_⟩
  exact absurd h.unmangled (by decide)

/-! ## `force_attach` -/

/-- A branch is kept from detaching, whatever the detach tables hold, only where they are never looked at: there is no target,
it is code of Granary's, or module code of the kernel that is reached from module code. -/
theorem mangleCti_honours_forceAttach_iff (env : Environment) (policy inPolicy : InstrumentationPolicy)
    (lookup : MangledAddress → AppPc) (kind : CtiKind) (pc : AppPc) (hret : kind ≠ .ret) (hiret : kind ≠ .iret) :
    (∀ tables, DetachTablesBuilt env.mix tables →
      ¬ (mangleCti { env with detachTables := tables } policy lookup
        { kind, target := .pc pc, policy := { inPolicy with forceAttach := true } }).IsDetached) ↔
      pc = 0 ∨ env.isGranaryAddress pc = true ∨
        env.kernel = true ∧ policy.isInHostContext = false ∧ env.kernelHostAddress pc = false := by
  simp only [mangleCti_pc hret hiret]
  constructor
  · intro h
    by_contra hcond
    obtain ⟨hpc, hg, hmodule⟩ : pc ≠ 0 ∧ env.isGranaryAddress pc ≠ true ∧
        ¬ (env.kernel = true ∧ policy.isInHostContext = false ∧ env.kernelHostAddress pc = false) := by
      simpa only [not_or] using hcond
    -- a table with a detach target for this address
    obtain ⟨calls, c, hrun, hkeys, hload⟩ :=
      CacheRun.exists_load wholeHeap (by decide) hpc (show (1 : AppPc) ≠ 0 by decide)
    refine h (fun _ => c) (fun _ => ⟨calls, hrun, hkeys⟩) ?_
    have hfind : Environment.findDetachTarget { env with detachTables := fun _ => c } pc policy.context = 1 :=
      findDetachTarget_of_load (fun hn => hmodule ⟨hn.1, context_eq_app_iff.mp hn.2.1, hn.2.2⟩) hload
    have hctx : ∀ p : InstrumentationPolicy, p.isInHostContext = policy.isInHostContext → p.context = policy.context :=
      fun p hp => by rw [InstrumentationPolicy.context, InstrumentationPolicy.context, hp]
    refine mangleDirectCti_isDetached (Bool.eq_false_iff.mpr hg) (by simp) ?_
    rw [hctx _ (by simp), hfind]
    decide
  · rintro (rfl | hg | ⟨hk, happ, hmodule⟩) tables hbuilt
    · exact mangleDirectCti_zero hbuilt
    · by_cases hpc : pc = 0
      · subst hpc
        exact mangleDirectCti_zero hbuilt
      · exact mangleDirectCti_kept hpc hg
    · refine mangleDirectCti_none ?_ ?_
      · rw [context_eq_app_iff.mpr (by simpa using happ)]
        exact findDetachTarget_app hk hmodule
      · rw [Environment.isHostAddress, if_pos hk]
        exact hmodule

/-- User space, without detach targets. -/
def userEnv : Environment where
  kernel := false
  wholeKernel := false
  autoVisitHost _ := false
  kernelHostAddress _ := false
  isCodeCacheAddress _ := false
  isWrapperAddress _ := false
  isGencodeAddress _ := false
  mix := fmix
  detachTables _ := .init

def forcedCall : Cti where
  kind := .call
  target := .pc 64
  policy := { InstrumentationPolicy.fromId 1 with forceAttach := true }

theorem mangleCti_honours_forceAttach_iff_module :
    (forcedCall.kind ≠ .ret ∧ forcedCall.kind ≠ .iret) ∧ ∀ tables, DetachTablesBuilt fmix tables →
      ¬ (mangleCti { userEnv with kernel := true, detachTables := tables } (.fromId 1) (fun _ => 0) forcedCall).IsDetached :=
  ⟨by decide, (mangleCti_honours_forceAttach_iff { userEnv with kernel := true } (.fromId 1) (.fromId 1) (fun _ => 0) .call
    64 nofun nofun).mpr (.inr (.inr ⟨rfl, rfl, rfl⟩))⟩

/-- It goes to the detach target nevertheless. -/
theorem mangleCti_drops_forceAttach :
    ∃ tables, DetachTablesBuilt fmix tables ∧
      mangleCti { userEnv with detachTables := tables } (.fromId 1) (fun _ => 0) forcedCall =
        .redirected (.detached 65) := by
  have hmangle : (runCalls fmix 1 (storeKeys [64]) .init).toOption.any (fun c =>
      mangleCti { userEnv with detachTables := fun _ => c } (.fromId 1) (fun _ => 0) forcedCall =
        .redirected (.detached 65)) = true := by decide +kernel
  obtain ⟨c, hrun, hc⟩ := CacheRun.exists_of_runCalls hmangle
  exact ⟨fun _ => c, fun _ => ⟨storeKeys [64], hrun, by decide⟩, of_decide_eq_true hc⟩

/-! ## `code_cache::find` -/

/-- However calls of `find` interleave, each ends and finds a translation for its key, one of Granary's own addresses, or a
way to detach. What is in the table leads to one of these, and stays there. -/
theorem findSafe_of_reachable (env : Environment) {Cpu : Type} [DecidableEq Cpu] (calls : MangledAddress → Prop)
    (blocks : InnerBlock → Prop) (s : FindState Cpu) (h : FindReachable env calls blocks s) : FindSafe env s ∧
    ∀ s', FindStep env calls blocks s s' → ∀ am, s.cache.table am ≠ none → s'.cache.table am ≠ none :=
  ⟨h.inv.safe, fun _ hs _ ham => h.inv.table_ne_none hs ham⟩

/-- User space, with a code cache and a detach target for one address. -/
def cacheEnv : Environment :=
  { userEnv with
    isCodeCacheAddress := fun pc => 1000 ≤ pc
    detachTables := fun _ => (runCalls fmix 1 (storeKeys [64]) .init).toOption.getD .init }

def placedAt (pc : AppPc) : Choice := { head := pc, inner := [], exitPc := pc }

/-- Two CPUs translate the same block, and the second one is too late. -/
def raceActions : List (FindAction Bool) :=
  let am : MangledAddress := ⟨128, .fromId 1⟩
  [.enter false am, .enter true am, .step false (placedAt 1000), .step true (placedAt 2000),
    .step false (placedAt 1000), .step true (placedAt 2000), .step false (placedAt 1000), .step true (placedAt 2000),
    .step false (placedAt 1000), .step true (placedAt 2000), .step true (placedAt 2000), .step true (placedAt 2000)]

theorem findSafe_of_reachable_race :
    ∃ s, FindReachable cacheEnv (fun _ => True) (fun _ => True) s ∧
      s.pc true = some (.returned ⟨128, .fromId 1⟩ (.translated 1000)) ∧ s.cache.code 2000 = none ∧ FindSafe cacheEnv s := by
  have hrun : (raceActions.foldlM (FindState.act cacheEnv) .init).any (fun s =>
      s.pc true = some (.returned ⟨128, .fromId 1⟩ (.translated 1000)) ∧ s.cache.code 2000 = none) = true := by
    decide +kernel
  obtain ⟨s, hs, hp⟩ := Option.any_eq_true _ _ |>.mp hrun
  have hreach : FindReachable cacheEnv (fun _ => True) (fun _ => True) s :=
    .of_acts .init hs (fun _ _ _ => trivial) fun _ _ _ _ _ => trivial
  obtain ⟨hpc, hcode⟩ := of_decide_eq_true hp
  exact ⟨s, hreach, hpc, hcode, (findSafe_of_reachable cacheEnv _ _ s hreach).1⟩

def hostEnv : Environment := { userEnv with kernel := true, kernelHostAddress := fun pc => pc = 64 }

/-- What is returned for host code is the host code: it is neither code of Granary's nor a registered detach target. -/
theorem find_returns_host_code :
    ∃ s : FindState Unit, FindReachable hostEnv (fun _ => True) (fun _ => True) s ∧
      s.pc () = some (.returned ⟨64, .fromId 1⟩ (.native 64)) ∧ hostEnv.isGranaryAddress 64 = false ∧
      ∀ pc context, hostEnv.findDetachTarget pc context ≠ 64 := by
  have hrun : ((.enter () ⟨64, .fromId 1⟩ :: List.replicate 3 (.step () (placedAt 0))).foldlM
      (FindState.act hostEnv) .init).any (fun s =>
        s.pc () = some (.returned ⟨64, .fromId 1⟩ (.native 64))) = true := by decide +kernel
  obtain ⟨s, hs, hp⟩ := Option.any_eq_true _ _ |>.mp hrun
  refine ⟨s, .of_acts .init hs (fun _ _ _ => trivial) fun _ _ _ _ _ => trivial, of_decide_eq_true hp, rfl, ?_⟩
  intro pc context
  have hload : ∀ key, CpuPrivateCodeCache.init.load fmix key = (0, false) := fun _ => rfl
  cases context <;> simp [Environment.findDetachTarget, findDetachTarget, hostEnv, userEnv, hload]

/-- After any two histories, a key that can detach leads to the same detach target, if no call with its base key could not
detach and no trace took in its block. -/
theorem find_detaches_after_both (env : Environment) {Cpu : Type} [DecidableEq Cpu] (am : MangledAddress)
    (ham : am.Detachable env) (s₁ s₂ : FindState Cpu)
    (h₁ : FindReachable env (fun k => k.base env = am.base env → k.policy.canDetach = true)
      (fun b => b.am ≠ am ∧ b.am ≠ am.base env) s₁)
    (h₂ : FindReachable env (fun k => k.base env = am.base env → k.policy.canDetach = true)
      (fun b => b.am ≠ am ∧ b.am ≠ am.base env) s₂) : s₁.Detaches env am ∧ s₂.Detaches env am :=
  ⟨⟨fun c _ hc => (h₁.detachInv ham).avoids c _ hc rfl, h₁.inv.safe.progress⟩,
    ⟨fun c _ hc => (h₂.detachInv ham).avoids c _ hc rfl, h₂.inv.safe.progress⟩⟩

/-- A call from beginning to end, which may translate a block to this place. -/
def callActions (am : MangledAddress) (pc : AppPc) (steps : Nat) : List (FindAction Unit) :=
  .enter () am :: List.replicate steps (.step () (placedAt pc)) ++ [.leave ()]

def detachCall : List (FindAction Unit) := .enter () ⟨64, .fromId 1⟩ :: List.replicate 3 (.step () (placedAt 2000))

theorem find_detaches_after_both_other_key :
    ∃ s₁ s₂ : FindState Unit,
      detachCall.foldlM (FindState.act cacheEnv) .init = some s₁ ∧
      (callActions ⟨128, .fromId 1⟩ 1000 4 ++ detachCall).foldlM (FindState.act cacheEnv) .init = some s₂ ∧
      s₁.Detaches cacheEnv ⟨64, .fromId 1⟩ ∧ s₂.Detaches cacheEnv ⟨64, .fromId 1⟩ := by
  have ham : MangledAddress.Detachable cacheEnv ⟨64, .fromId 1⟩ := ⟨rfl, by decide +kernel, by decide +kernel⟩
  have hrun₁ : (detachCall.foldlM (FindState.act cacheEnv) .init).isSome = true := by decide +kernel
  have hrun₂ : ((callActions ⟨128, .fromId 1⟩ 1000 4 ++ detachCall).foldlM (FindState.act cacheEnv) .init).isSome = true := by
    decide +kernel
  obtain ⟨s₁, hs₁⟩ := Option.isSome_iff_exists.mp hrun₁
  obtain ⟨s₂, hs₂⟩ := Option.isSome_iff_exists.mp hrun₂
  refine ⟨s₁, s₂, hs₁, hs₂, find_detaches_after_both cacheEnv _ ham s₁ s₂ (.of_acts .init hs₁ ?_ ?_)
    (.of_acts .init hs₂ ?_ ?_)⟩
  all_goals simp [detachCall, callActions, placedAt, InstrumentationPolicy.fromId, InstrumentationPolicy.canDetach]

/-- A call that must stay attached leaves its translation where the next call finds it, which does not detach then. -/
theorem find_detach_depends_on_history : cacheEnv.findDetachTarget 64 .runningAsApp = 65 ∧
    (detachCall.foldlM (FindState.act cacheEnv) .init).map (·.pc ()) =
      some (some (.returned ⟨64, .fromId 1⟩ (.detached 65))) ∧
    ((callActions ⟨64, { InstrumentationPolicy.fromId 1 with forceAttach := true }⟩ 1000 5 ++ detachCall).foldlM
      (FindState.act cacheEnv) .init).map (·.pc ()) =
        some (some (.returned ⟨64, .fromId 1⟩ (.translated 1000))) := by decide +kernel

/-! ## Linking -/

/-- A direct branch to translated native code without a detach entry is linked to the translation exactly if it is no call,
and its block is in the context of the target or may switch to it. -/
theorem mangleCti_links_iff (env : Environment) {Cpu : Type} [DecidableEq Cpu] (calls : MangledAddress → Prop)
    (blocks : InnerBlock → Prop) (s : FindState Cpu) (h : FindReachable env calls blocks s)
    (policy inPolicy : InstrumentationPolicy) (kind : CtiKind) (hret : kind ≠ .ret) (hiret : kind ≠ .iret)
    (targetPc pc : AppPc) (hnative : env.isGranaryAddress targetPc = false)
    (hdetach : ∀ context, env.findDetachTarget targetPc context = 0)
    (hstored : s.cache.table (MangledAddress.base env ⟨targetPc, targetPolicy env policy kind inPolicy⟩) = some pc) :
    mangleCti env policy s.cache.lookup { kind, target := .pc targetPc, policy := inPolicy } =
        .redirected (.translated pc) ↔
      kind ≠ .call ∧ (policy.isInHostContext = true → env.kernel = true ∧ env.isHostAddress targetPc = true) ∧
        (policy.isInHostContext = false → env.isHostAddress targetPc = true →
          env.isHostAutoInstrumented policy = true) := by
  have hsound := h.inv.sound
  have hcode := hsound.base_translation hstored
  have hpc : pc ≠ 0 := (hsound.placed pc (by rw [hcode]; nofun)).1
  -- host code has a detach entry in user space
  have hkernel : env.isHostAddress targetPc = true → env.kernel = true := by
    unfold Environment.isHostAddress
    cases env.kernel <;> simp [hdetach]
  have hkey := fun host => hsound.lookup_eq_iff hstored
    (k := ⟨targetPc, { targetPolicy env policy kind inPolicy with
      isReturnTarget := false, isIndirectTarget := false, isInHostContext := host }⟩) rfl
  simp only [key_eq_base_iff] at hkey
  have hsame : { targetPolicy env policy kind inPolicy with isReturnTarget := false, isIndirectTarget := false } =
      { targetPolicy env policy kind inPolicy with
        isReturnTarget := false, isIndirectTarget := false, isInHostContext := policy.isInHostContext } := by
    rw [← targetPolicy_isInHostContext env policy inPolicy kind]
  rw [mangleCti_pc hret hiret]
  cases hhost : policy.isInHostContext with
  | true =>
    rw [mangleDirectCti_kept_context hnative hdetach hpc (by simp [hhost]), hsame, hkey, hhost]
    simp
  | false =>
    cases haddr : env.isHostAddress targetPc with
    | false =>
      rw [mangleDirectCti_kept_context hnative hdetach hpc (by simp [haddr]), hsame, hkey, hhost, haddr]
      simp
    | true =>
      rw [mangleDirectCti_host hnative hdetach hpc hhost haddr, hkey, hsame, hkey, hhost, haddr, hkernel haddr]
      cases env.isHostAutoInstrumented policy <;> simp

/-- A block that jumps or calls to native code that was translated before. -/
def linkedBranch (kind : CtiKind) : Cti := { kind, target := .pc 128, policy := .fromId 1 }

theorem mangleCti_links_iff_jmp :
    ∃ s : FindState Unit, FindReachable cacheEnv (fun _ => True) (fun _ => True) s ∧
      mangleCti cacheEnv (.fromId 1) s.cache.lookup (linkedBranch .jmp) = .redirected (.translated 1000) := by
  have hrun : ((callActions ⟨128, .fromId 1⟩ 1000 4).foldlM (FindState.act cacheEnv) .init).any (fun s =>
      s.cache.table ⟨128, .fromId 1⟩ = some 1000) = true := by decide +kernel
  obtain ⟨s, hs, htable⟩ := Option.any_eq_true _ _ |>.mp hrun
  have hreach : FindReachable cacheEnv (fun _ => True) (fun _ => True) s :=
    .of_acts .init hs (fun _ _ _ => trivial) fun _ _ _ _ _ => trivial
  have hdetach : ∀ context, cacheEnv.findDetachTarget 128 context = 0 := by
    intro context
    cases context <;> decide +kernel
  refine ⟨s, hreach, (mangleCti_links_iff cacheEnv _ _ s hreach (.fromId 1) (.fromId 1) .jmp nofun nofun 128 1000
    (by decide) hdetach (of_decide_eq_true htable)).mpr ⟨by decide, ?_, ?_⟩⟩
  · intro hhost
    cases hhost
  · intro _ hhost
    exact absurd hhost (by decide +kernel)

def calledKey : MangledAddress := ⟨128, targetPolicy cacheEnv (.fromId 1) .call (.fromId 1)⟩

/-- A call is sent to a new stub, although `find` has translated its target. -/
theorem call_not_linked :
    ∃ s : FindState Unit, FindReachable cacheEnv (fun _ => True) (fun _ => True) s ∧
      s.cache.table (calledKey.base cacheEnv) = some 1000 ∧
      mangleCti cacheEnv (.fromId 1) s.cache.lookup (linkedBranch .call) = .dblLookup calledKey := by
  have hrun : ((callActions calledKey 1000 5).foldlM (FindState.act cacheEnv) .init).any (fun s =>
      s.cache.table (calledKey.base cacheEnv) = some 1000 ∧
      mangleCti cacheEnv (.fromId 1) s.cache.lookup (linkedBranch .call) = .dblLookup calledKey) = true := by
    decide +kernel
  obtain ⟨s, hs, hp⟩ := Option.any_eq_true _ _ |>.mp hrun
  obtain ⟨htable, hcall⟩ := of_decide_eq_true hp
  exact ⟨s, .of_acts .init hs (fun _ _ _ => trivial) fun _ _ _ _ _ => trivial, htable, hcall⟩

end Granary.Policies
