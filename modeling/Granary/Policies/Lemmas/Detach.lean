import Granary.Policies.Lemmas.Find

/-!
# Detaching and what was translated before

As long as nobody attaches to an address by force or takes it into a trace, there is no translation of it, and calls that
may detach get to its detach target.
-/

namespace Granary.Policies

variable {env : Environment} {m m' : CodeCache} {am k : MangledAddress} {target : Redirect} {p q : FindPc} {choice : Choice}

theorem registered_congr (h : k.base env = am.base env) : k.registered env = am.registered env := by
  have haddr : (k.base env).addr = (am.base env).addr := congrArg _ h
  have hctx : (k.base env).policy.context = (am.base env).policy.context := by rw [h]
  have hfind : env.findDetachTarget (k.base env).addr (k.base env).policy.context =
      env.findDetachTarget (am.base env).addr (am.base env).policy.context := by rw [haddr, hctx]
  exact hfind

theorem detachTarget_of_registered (hcan : k.policy.canDetach = true) (h0 : k.registered env ≠ 0) :
    detachTarget env k = .detached (k.registered env) := by
  unfold MangledAddress.registered at h0 ⊢
  simp only [detachTarget, hcan, ↓reduceIte, Redirect.none_orElse h0]
  exact ite_self _

/-! ## What calls know -/

def FindPc.Avoids (env : Environment) (am : MangledAddress) (m : CodeCache) : FindPc → Prop
  | .load k | .loadBase k | .findDetach k => k.base env = am.base env → k.policy.canDetach = true
  | .translate k | .storeKeep k _ | .storeOverwrite k _ | .discard k _ | .reload k _ => k.base env ≠ am.base env
  | .publish k _ inner => k.base env ≠ am.base env ∧ ∀ b ∈ inner, b.am ≠ am ∧ b.am ≠ am.base env
  | .exit k target => k = am → target = .detached (am.registered env)
  | .returned k target => k = am → m.DetachesTo am target (am.registered env)

structure CodeCache.Untranslated (env : Environment) (am : MangledAddress) (m : CodeCache) : Prop where
  base : m.table (am.base env) = none
  entry : ∀ pc, m.table am = some pc → m.code pc = some (.exit am (.detached (am.registered env)))

theorem finish_avoids (h : k = am → target = .detached (am.registered env)) : (finish k target).Avoids env am m := by
  unfold finish
  split
  · exact h
  · exact fun he => .inl (h he)

theorem finish_avoids_of_ne (h : k.base env ≠ am.base env) : (finish k target).Avoids env am m :=
  finish_avoids fun he => (h (congrArg _ he)).elim

theorem FindPc.Avoids.mono (h : p.Avoids env am m)
    (hcode : ∀ pc code, p.Relies pc → m.code pc = some code → m'.code pc = some code) : p.Avoids env am m' := by
  cases p with
  | returned k target =>
    intro hk
    rcases h hk with h | ⟨pc, rfl, hc⟩
    · exact .inl h
    · exact .inr ⟨pc, rfl, hcode pc _ rfl hc⟩
  | _ => exact h

theorem CodeCache.Untranslated.put (h : m.Untranslated env am) (hk : k ≠ am) (hb : k ≠ am.base env) {pc : AppPc} :
    (m.put k pc).Untranslated env am :=
  ⟨by rw [CodeCache.put_table_of_ne hb.symm]; exact h.base,
    fun a ha => h.entry a (by rwa [CodeCache.put_table_of_ne hk.symm] at ha)⟩

theorem CodeCache.Untranslated.mono {lost : AppPc → Prop} (h : m.Untranslated env am) (he : m.Evolves lost m')
    (ht : m'.table = m.table) : m'.Untranslated env am := by
  refine ⟨by rw [ht]; exact h.base, fun pc hpc => ?_⟩
  rw [ht] at hpc
  exact (he.code pc _ (h.entry pc hpc)).resolve_right fun hl => hl.2.1 am hpc

theorem foldl_encode_table (inner : List InnerBlock) (m : CodeCache) :
    (inner.foldl (fun m b => m.encode b.pc (.translation b.am)) m).table = m.table := by
  induction inner generalizing m with
  | nil => rfl
  | cons b inner ih => exact ih _

/-! ## Steps -/

theorem FindPc.step_avoids (ham : am.Detachable env) (hm : m.Sound env) (hk : p.Knows env m) (hf : choice.Fits env m p)
    (hu : m.Untranslated env am) (hp : p.Avoids env am m) (hb : ∀ b ∈ choice.inner, b.am ≠ am ∧ b.am ≠ am.base env) :
    (p.step env choice m).1.Untranslated env am ∧ (p.step env choice m).2.Avoids env am (p.step env choice m).1 := by
  have hev := (FindPc.step_callStep hm hk hf).evolves
  -- a base address that is not the one of `am` is not `am` either
  have hbase : ∀ {k : MangledAddress}, k.base env ≠ am.base env → k.base env ≠ am := fun hne he => by
    rw [← he] at hne
    exact hne rfl
  cases p with
  | load k =>
    simp only [FindPc.step]
    cases ht : m.table k with
    | some pc =>
      refine ⟨hu, fun hkm => .inr ⟨pc, rfl, hu.entry pc ?_⟩⟩
      rw [← hkm, ht]
    | none =>
      dsimp only
      split
      · rename_i hg
        refine ⟨hu, finish_avoids fun hkm => ?_⟩
        rw [Bool.and_eq_true, hkm, ham.native] at hg
        cases hg.1
      · split
        · exact ⟨hu, hp⟩
        · exact ⟨hu, hp⟩
  | loadBase k =>
    simp only [FindPc.step]
    cases ht : m.table (k.base env) with
    | some pc =>
      refine ⟨hu, finish_avoids_of_ne fun he => ?_⟩
      rw [he, hu.base] at ht
      cases ht
    | none => exact ⟨hu, hp⟩
  | findDetach k =>
    have hdetach : k.base env = am.base env → detachTarget env k = .detached (am.registered env) := fun he => by
      rw [← registered_congr he]
      refine detachTarget_of_registered (hp he) ?_
      rw [registered_congr he]
      exact ham.registered
    simp only [FindPc.step]
    cases hd : detachTarget env k with
    | none =>
      refine ⟨hu, fun he => ?_⟩
      cases hd.symm.trans (hdetach he)
    | _ => exact ⟨hu, finish_avoids fun he => hd.symm.trans (hdetach (congrArg _ he))⟩
  | translate k =>
    refine ⟨hu.mono hev (foldl_encode_table _ _), ?_⟩
    · simp only [FindPc.step]
      split
      · exact hp
      · exact ⟨hp, hb⟩
  | publish k head inner =>
    cases inner with
    | nil => exact ⟨hu, hp.1⟩
    | cons b inner =>
      have hne := hp.2 b List.mem_cons_self
      exact ⟨hu.put hne.1 hne.2, hp.1, fun b' hb' => hp.2 b' (List.mem_cons_of_mem _ hb')⟩
  | storeKeep k head =>
    simp only [FindPc.step]
    cases ht : m.table (k.base env) with
    | none => exact ⟨hu.put (hbase hp) hp, finish_avoids_of_ne hp⟩
    | some pc => exact ⟨hu, hp⟩
  | storeOverwrite k head => exact ⟨hu.put (hbase hp) hp, finish_avoids_of_ne hp⟩
  | discard k head => exact ⟨hu.mono hev rfl, hp⟩
  | reload k head => exact ⟨hu, finish_avoids_of_ne hp⟩
  | exit k target =>
    have hne : k ≠ am.base env := fun he => by
      have hi := hk.1
      rw [he] at hi
      cases hi
    have hu₁ : (m.encode choice.exitPc (.exit k target)).Untranslated env am :=
      hu.mono (CodeCache.evolves_encode hf.1) rfl
    simp only [FindPc.step]
    cases ht : (m.encode choice.exitPc (.exit k target)).table k with
    | none =>
      by_cases hkm : k = am
      · subst hkm
        have hcode : ((m.encode choice.exitPc (.exit k target)).put k choice.exitPc).code choice.exitPc =
            some (.exit k (.detached (k.registered env))) := by
          rw [← hp rfl]
          exact CodeCache.encode_code_self
        refine ⟨⟨?_, fun pc hpc => ?_⟩, fun _ => .inr ⟨_, rfl, hcode⟩⟩
        · rw [CodeCache.put_table_of_ne hne.symm]
          exact hu₁.base
        · rw [CodeCache.put_table_self, Option.some.injEq] at hpc
          rw [← hpc]
          exact hcode
      · exact ⟨hu₁.put hkm hne, fun he => (hkm he).elim⟩
    | some pc =>
      refine ⟨hu₁, fun hkm => .inr ⟨pc, rfl, hu₁.entry pc ?_⟩⟩
      rw [← hkm, ht]
  | returned k target => exact ⟨hu, hp⟩

section Runs

variable {Cpu : Type} [DecidableEq Cpu] {s s' : FindState Cpu} {calls : MangledAddress → Prop} {blocks : InnerBlock → Prop}

structure DetachInv (env : Environment) (am : MangledAddress) (s : FindState Cpu) : Prop extends FindInv env s where
  untranslated : s.cache.Untranslated env am
  avoids : ∀ c p, s.pc c = some p → p.Avoids env am s.cache

theorem update_eq_some {f : Cpu → Option FindPc} {c d : Cpu} {p' : Option FindPc}
    (h : Function.update f c p' d = some q) : p' = some q ∨ d ≠ c ∧ f d = some q := by
  by_cases hd : d = c
  · rw [hd, Function.update_self] at h
    exact .inl h
  · rw [Function.update_of_ne hd] at h
    exact .inr ⟨hd, h⟩

theorem DetachInv.step (ham : am.Detachable env) (h : DetachInv env am s)
    (hs : FindStep env (fun k => k.base env = am.base env → k.policy.canDetach = true)
      (fun b => b.am ≠ am ∧ b.am ≠ am.base env) s s') : DetachInv env am s' := by
  have hinv := hs.inv h.toFindInv
  cases hs with
  | enter c k hc hk =>
    refine ⟨hinv, h.untranslated, fun d p hp => ?_⟩
    rcases update_eq_some hp with hp | ⟨_, hp⟩
    · cases hp
      exact hk
    · exact h.avoids d p hp
  | step c p choice hc hf hb =>
    have hcall := FindPc.step_callStep h.sound (h.knows c p hc) hf
    obtain ⟨hu, hp'⟩ := FindPc.step_avoids ham h.sound (h.knows c p hc) hf h.untranslated (h.avoids c p hc) hb
    refine ⟨hinv, hu, fun d q hq => ?_⟩
    rcases update_eq_some hq with hq | ⟨hd, hq⟩
    · cases hq
      exact hp'
    · refine (h.avoids d q hq).mono fun pc code hr hcode => (hcall.evolves.code pc code hcode).resolve_right fun hl => ?_
      obtain ⟨⟨r, hr', ho⟩, _⟩ := hl
      cases hr'
      exact h.apart c d p q pc (Ne.symm hd) hc hq ho hr
  | leave c k target hc =>
    refine ⟨hinv, h.untranslated, fun d p hp => ?_⟩
    rcases update_eq_some hp with hp | ⟨_, hp⟩
    · cases hp
    · exact h.avoids d p hp

theorem FindReachable.detachInv (ham : am.Detachable env)
    (h : FindReachable env (fun k => k.base env = am.base env → k.policy.canDetach = true)
      (fun b => b.am ≠ am ∧ b.am ≠ am.base env) s) : DetachInv env am s := by
  induction h with
  | init => exact ⟨findInv_init, ⟨rfl, fun _ h => (nomatch h)⟩, fun _ _ h => (nomatch h)⟩
  | step _ hs ih => exact ih.step ham hs

/-! ## Computing runs -/

theorem FindReachable.of_act {a : FindAction Cpu} (h : FindReachable env calls blocks s) (hs : s.act env a = some s')
    (hcalls : ∀ c k, a = .enter c k → calls k) (hblocks : ∀ c choice, a = .step c choice → ∀ b ∈ choice.inner, blocks b) :
    FindReachable env calls blocks s' := by
  refine h.step ?_
  cases a with
  | enter c k =>
    simp only [FindState.act] at hs
    split at hs
    · cases hs
      exact .enter c k ‹_› (hcalls c k rfl)
    · cases hs
  | step c choice =>
    obtain ⟨p, hp, hs⟩ := Option.bind_eq_some_iff.mp hs
    split at hs
    · cases hs
      exact .step c p choice hp ‹_› (hblocks c choice rfl)
    · cases hs
  | leave c =>
    simp only [FindState.act] at hs
    split at hs
    · cases hs
      exact .leave c _ _ ‹_›
    · cases hs

theorem FindReachable.of_acts {acts : List (FindAction Cpu)} (h : FindReachable env calls blocks s)
    (hs : acts.foldlM (FindState.act env) s = some s') (hcalls : ∀ c k, .enter c k ∈ acts → calls k)
    (hblocks : ∀ c choice, .step c choice ∈ acts → ∀ b ∈ choice.inner, blocks b) : FindReachable env calls blocks s' := by
  induction acts generalizing s with
  | nil =>
    cases hs
    exact h
  | cons a acts ih =>
    obtain ⟨s₁, h₁, hs⟩ := Option.bind_eq_some_iff.mp hs
    refine ih (h.of_act h₁ (fun c k ha => ?_) fun c choice ha => ?_) hs
      (fun c k hmem => hcalls c k (List.mem_cons_of_mem _ hmem))
      fun c choice hmem => hblocks c choice (List.mem_cons_of_mem _ hmem)
    · exact hcalls c k (ha ▸ List.mem_cons_self)
    · exact hblocks c choice (ha ▸ List.mem_cons_self)

end Runs

end Granary.Policies
