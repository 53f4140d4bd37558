import Granary.Policies.Find
import Granary.Policies.Lemmas.Mangle

/-!
# An invariant of concurrent lookups

A call relies on the code at some addresses. Code is only taken back by the call that has placed it, while nothing else
leads to it, so that what the other calls rely on stays.
-/

namespace Granary.Policies

open Function (update update_of_ne update_self)

variable {env : Environment} {m m' : CodeCache} {am : MangledAddress} {target : Redirect} {pc : AppPc} {p q : FindPc}
  {choice : Choice}
variable {code : Code} {a : AppPc}

/-! ## Changes of the code cache -/

@[simp] theorem CodeCache.put_table_self : (m.put am pc).table am = some pc := update_self ..

theorem CodeCache.put_table_of_ne {k : MangledAddress} (h : k ≠ am) : (m.put am pc).table k = m.table k :=
  update_of_ne h _ _

@[simp] theorem CodeCache.encode_code_self : (m.encode pc code).code pc = some code :=
  update_self ..

theorem CodeCache.encode_code_of_ne (h : a ≠ pc) : (m.encode pc code).code a = m.code a :=
  update_of_ne h _ _

@[simp] theorem CodeCache.free_code_self : (m.free pc).code pc = none := update_self ..

theorem CodeCache.free_code_of_ne (h : a ≠ pc) : (m.free pc).code a = m.code a := update_of_ne h _ _

/-! ## Base addresses -/

@[simp] theorem base_basePolicy : (am.base env).policy.basePolicy = (am.base env).policy := rfl

theorem isIndirect_of_basePolicy (h : am.policy.basePolicy = am.policy) : am.isIndirect = false := by
  unfold MangledAddress.isIndirect
  rw [← h]
  rfl

theorem CodeCache.published_of_base (h : am.policy.basePolicy = am.policy) :
    m.Published env am pc ↔ m.code pc = some (.translation am) := by
  rw [CodeCache.Published, if_neg (by simp [isIndirect_of_basePolicy h]), and_iff_left h]

/-! ## What calls rely on -/

def FindPc.Relies : FindPc → AppPc → Prop
  | .publish _ head inner, pc => pc = head ∨ ∃ b ∈ inner, pc = b.pc
  | .storeKeep _ head, pc | .storeOverwrite _ head, pc | .discard _ head, pc => pc = head
  | .exit _ (.translated a), pc | .returned _ (.translated a), pc => pc = a
  | _, _ => False

def FindPc.Owns : FindPc → AppPc → Prop
  | .storeKeep _ head, pc | .discard _ head, pc => pc = head
  | _, _ => False

def FindPc.Knows (env : Environment) (m : CodeCache) : FindPc → Prop
  | .publish am head inner => m.code head = some (.translation (am.base env)) ∧
      ∀ b ∈ inner, m.code b.pc = some (.translation b.am) ∧ b.am.policy.basePolicy = b.am.policy
  | .storeKeep am head => m.code head = some (.translation (am.base env)) ∧ m.Unreferenced head
  | .storeOverwrite am head => m.code head = some (.translation (am.base env))
  | .discard am head => m.code head = some (.translation (am.base env)) ∧ m.Unreferenced head ∧
      m.table (am.base env) ≠ none
  | .reload am _ => m.table (am.base env) ≠ none
  | .exit am target => am.isIndirect = true ∧ m.Proper env am target
  | .returned am target => m.Answers env am target
  | _ => True

structure CodeCache.Sound (env : Environment) (m : CodeCache) : Prop where
  published : ∀ am pc, m.table am = some pc → m.Published env am pc
  exits : ∀ pc am target, m.code pc = some (.exit am target) → m.Proper env am target
  placed : ∀ pc, m.code pc ≠ none → pc ≠ 0 ∧ (env.isCodeCacheAddress pc || env.isGencodeAddress pc) = true

theorem CodeCache.Published.code_ne_none (h : m.Published env am pc) : m.code pc ≠ none := by
  unfold CodeCache.Published at h
  split at h
  · obtain ⟨_, hc, _⟩ := h
    rw [hc]
    nofun
  · rw [h.1]
    nofun

theorem FindPc.Knows.code_ne_none (h : p.Knows env m) (hr : p.Relies pc) : m.code pc ≠ none := by
  have hsome : ∀ {c : Code}, m.code pc = some c → m.code pc ≠ none := fun hc hn => nomatch hc.symm.trans hn
  cases p with
  | publish am head inner =>
    rcases hr with rfl | ⟨b, hb, rfl⟩
    · exact hsome h.1
    · exact hsome (h.2 b hb).1
  | storeKeep am head =>
    cases hr
    exact hsome h.1
  | storeOverwrite am head =>
    cases hr
    exact hsome h
  | discard am head =>
    cases hr
    exact hsome h.1
  | exit am target =>
    cases target with
    | translated a =>
      cases hr
      exact hsome h.2
    | _ => exact hr.elim
  | returned am target =>
    cases target with
    | translated a =>
      cases hr
      rcases h with ⟨_, he, hp⟩ | ⟨_, hp⟩
      · cases he
        exact hp.code_ne_none
      · exact hsome hp
    | _ => exact hr.elim
  | _ => exact hr.elim

theorem FindPc.Owns.relies (h : p.Owns pc) : p.Relies pc := by
  cases p with
  | storeKeep | discard => exact h
  | _ => exact h.elim

/-! ## What stays -/

structure CodeCache.Evolves (lost : AppPc → Prop) (m m' : CodeCache) : Prop where
  code : ∀ pc code, m.code pc = some code → m'.code pc = some code ∨ lost pc ∧ m.Unreferenced pc
  table : ∀ am, m.table am ≠ none → m'.table am ≠ none

section Evolves

variable {lost : AppPc → Prop}

theorem CodeCache.Proper.mono (h : m.Proper env am target) (he : m.Evolves lost m')
    (ht : ∀ a, target = .translated a → ¬ (lost a ∧ m.Unreferenced a)) : m'.Proper env am target := by
  cases target with
  | translated a => exact (he.code a _ h).resolve_right (ht a rfl)
  | _ => exact h

theorem CodeCache.Published.mono (h : m.Published env am pc) (he : m.Evolves lost m')
    (hpc : ¬ (lost pc ∧ m.Unreferenced pc)) : m'.Published env am pc := by
  unfold CodeCache.Published at h ⊢
  split
  · rename_i hi
    rw [if_pos hi] at h
    obtain ⟨target, hc, hp⟩ := h
    refine ⟨target, (he.code pc _ hc).resolve_right hpc, hp.mono he fun a ha hl => ?_⟩
    subst ha
    exact hl.2.2 pc am hc
  · rename_i hi
    rw [if_neg hi] at h
    exact ⟨(he.code pc _ h.1).resolve_right hpc, h.2⟩

theorem FindPc.Knows.mono (h : p.Knows env m) (he : m.Evolves lost m') (hrel : ∀ pc, p.Relies pc → ¬ lost pc)
    (hown : ∀ pc, p.Owns pc → m'.Unreferenced pc) : p.Knows env m' := by
  have hcode : ∀ pc code, p.Relies pc → m.code pc = some code → m'.code pc = some code := fun pc code hr hc =>
    (he.code pc code hc).resolve_right fun hl => hrel pc hr hl.1
  cases p with
  | publish am head inner =>
    exact ⟨hcode head _ (.inl rfl) h.1, fun b hb => ⟨hcode b.pc _ (.inr ⟨b, hb, rfl⟩) (h.2 b hb).1, (h.2 b hb).2⟩⟩
  | storeKeep am head => exact ⟨hcode head _ rfl h.1, hown head rfl⟩
  | storeOverwrite am head => exact hcode head _ rfl h
  | discard am head => exact ⟨hcode head _ rfl h.1, hown head rfl, he.table _ h.2.2⟩
  | reload am head => exact he.table _ h
  | exit am target =>
    refine ⟨h.1, h.2.mono he fun a ha hl => ?_⟩
    subst ha
    exact hrel a rfl hl.1
  | returned am target =>
    rcases h with ⟨a, rfl, hp⟩ | ⟨hi, hp⟩
    · exact .inl ⟨a, rfl, hp.mono he fun hl => hrel a rfl hl.1⟩
    · refine .inr ⟨hi, hp.mono he fun a ha hl => ?_⟩
      subst ha
      exact hrel a rfl hl.1
  | _ => trivial

end Evolves

/-! ## One step of one call -/

structure CallStep (env : Environment) (m m' : CodeCache) (p : Option FindPc) (p' : Option FindPc) : Prop where
  evolves : m.Evolves (fun pc => ∃ q, p = some q ∧ q.Owns pc) m'
  /-- new entries are for code that is new or was placed by the call -/
  entries : ∀ am pc, m'.table am = some pc → m.table am = some pc ∨ m.code pc = none ∨ ∃ q, p = some q ∧ q.Relies pc
  exits : ∀ pc am a, m'.code pc = some (.exit am (.translated a)) →
    m.code pc = some (.exit am (.translated a)) ∨ ∃ q, p = some q ∧ q.Relies a
  relies : ∀ q pc, p' = some q → q.Relies pc →
    m.code pc = none ∨ (∃ am, m.table am = some pc) ∨ ∃ q, p = some q ∧ q.Relies pc
  owns : ∀ q pc, p' = some q → q.Owns pc → m.code pc = none ∨ ∃ q, p = some q ∧ q.Owns pc
  knows : ∀ q, p' = some q → q.Knows env m'
  sound : m'.Sound env

structure FindInv {Cpu : Type} (env : Environment) (s : FindState Cpu) : Prop where
  sound : s.cache.Sound env
  knows : ∀ c p, s.pc c = some p → p.Knows env s.cache
  apart : ∀ c d p q pc, c ≠ d → s.pc c = some p → s.pc d = some q → p.Owns pc → ¬ q.Relies pc

/-! ## Every step is of this kind -/

theorem CodeCache.Evolves.refl (lost : AppPc → Prop) (m : CodeCache) : m.Evolves lost m :=
  ⟨fun _ _ => .inl, fun _ => id⟩

theorem CallStep.stay (hm : m.Sound env) {p p' : Option FindPc} (hknows : ∀ q, p' = some q → q.Knows env m)
    (hrel : ∀ q pc, p' = some q → q.Relies pc → (∃ am, m.table am = some pc) ∨ ∃ q, p = some q ∧ q.Relies pc)
    (hown : ∀ q pc, p' = some q → q.Owns pc → ∃ q, p = some q ∧ q.Owns pc) : CallStep env m m p p' :=
  ⟨.refl _ m, fun _ _ => .inl, fun _ _ _ => .inl, fun q pc hq hr => .inr (hrel q pc hq hr),
    fun q pc hq ho => .inr (hown q pc hq ho), hknows, hm⟩

theorem CallStep.of_some (hev : m.Evolves p.Owns m')
    (hentries : ∀ am pc, m'.table am = some pc → m.table am = some pc ∨ m.code pc = none ∨ p.Relies pc)
    (hexits : ∀ pc am a, m'.code pc = some (.exit am (.translated a)) →
      m.code pc = some (.exit am (.translated a)) ∨ p.Relies a)
    (hrel : ∀ pc, q.Relies pc → m.code pc = none ∨ (∃ am, m.table am = some pc) ∨ p.Relies pc)
    (hown : ∀ pc, q.Owns pc → m.code pc = none ∨ p.Owns pc) (hknows : q.Knows env m') (hm : m'.Sound env) :
    CallStep env m m' (some p) (some q) := by
  have hsome : ∀ {P : FindPc → Prop}, P p → ∃ r, some p = some r ∧ P r := fun h => ⟨p, rfl, h⟩
  refine ⟨⟨fun pc c hc => (hev.code pc c hc).imp_right (.imp_left hsome), hev.table⟩,
    fun am pc ht => (hentries am pc ht).imp_right (.imp_right hsome), fun pc am a hx => (hexits pc am a hx).imp_right hsome,
    ?_, ?_, ?_, hm⟩
  · rintro _ pc ⟨⟩ hr
    exact (hrel pc hr).imp_right (.imp_right hsome)
  · rintro _ pc ⟨⟩ ho
    exact (hown pc ho).imp_right hsome
  · rintro _ ⟨⟩
    exact hknows

theorem CallStep.remain (hm : m.Sound env) (hknows : q.Knows env m)
    (hrel : ∀ pc, q.Relies pc → (∃ am, m.table am = some pc) ∨ p.Relies pc) (hown : ∀ pc, q.Owns pc → p.Owns pc) :
    CallStep env m m (some p) (some q) :=
  .of_some (.refl _ m) (fun _ _ => .inl) (fun _ _ _ => .inl) (fun pc hr => .inr (hrel pc hr)) (fun pc ho => .inr (hown pc ho))
    hknows hm

theorem finish_relies (h : (finish am target).Relies pc) : target = .translated pc := by
  unfold finish at h
  split at h
  all_goals
    cases target with
    | translated a => exact congrArg _ (Eq.symm h)
    | _ => exact h.elim

theorem finish_not_owns : ¬ (finish am target).Owns pc := by
  unfold finish
  split <;> exact id

theorem finish_knows (h : m.Proper env am target) : (finish am target).Knows env m := by
  unfold finish
  split
  · exact ⟨‹_›, h⟩
  · exact .inr ⟨Bool.eq_false_iff.mpr ‹_›, h⟩

theorem CallStep.found (hm : m.Sound env) (hp : m.Proper env am target)
    (ht : ∀ a, target = .translated a → (∃ am, m.table am = some a) ∨ p.Relies a) :
    CallStep env m m (some p) (some (finish am target)) :=
  .remain hm (finish_knows hp) (fun pc hr => ht pc (finish_relies hr)) fun _ ho => (finish_not_owns ho).elim

theorem CallStep.goto (hm : m.Sound env) (q : FindPc) (hq : q.Knows env m) (hr : ∀ pc, ¬ q.Relies pc) (p : Option FindPc) :
    CallStep env m m p (some q) := by
  refine .stay hm (fun _ h => ?_) (fun _ pc h hr' => ?_) fun _ pc h ho => ?_
  · cases h
    exact hq
  · cases h
    exact (hr pc hr').elim
  · cases h
    exact (hr pc ho.relies).elim

theorem CodeCache.Sound.base_translation (hm : m.Sound env) (h : m.table (am.base env) = some pc) :
    m.code pc = some (.translation (am.base env)) :=
  (CodeCache.published_of_base base_basePolicy).mp (hm.published _ _ h)

theorem detachTarget_cases :
    detachTarget env am = .none ∨ am.policy.canDetach = true ∧
      (detachTarget env am = .detached (env.findDetachTarget am.addr (am.converted env).context) ∧
          env.findDetachTarget am.addr (am.converted env).context ≠ 0 ∨
        detachTarget env am = .native am.addr ∧ env.kernel = true ∧ env.instrumentHost = false ∧
          am.policy.isInHostContext = false ∧ env.isHostAddress am.addr = true) := by
  unfold detachTarget
  split
  · refine or_iff_not_imp_left.mpr fun hne => ⟨‹_›, ?_⟩
    by_cases h0 : env.findDetachTarget am.addr (am.converted env).context = 0
    · simp only [h0, Redirect.orElse_zero] at hne ⊢
      split
      · rename_i hnative
        rw [if_pos hnative] at hne
        have haddr : am.addr ≠ 0 := fun he => hne (by rw [he, Redirect.orElse_zero])
        rw [Redirect.none_orElse haddr]
        simpa [MangledAddress.converted, and_assoc, and_left_comm] using hnative
      · rename_i hnative
        exact (hne (if_neg hnative)).elim
    · left
      rw [Redirect.none_orElse h0]
      exact ⟨ite_self _, h0⟩
  · exact .inl rfl

theorem CallStep.put (hm : m.Sound env) (hpub : m.Published env am pc) (hr : p.Relies pc)
    (hq : q.Knows env (m.put am pc)) (hrel : ∀ a, q.Relies a → p.Relies a) (hown : ∀ a, ¬ q.Owns a) :
    CallStep env m (m.put am pc) (some p) (some q) := by
  have htable : ∀ k a, (m.put am pc).table k = some a → m.table k = some a ∨ k = am ∧ a = pc := by
    intro k a hk
    by_cases hkm : k = am
    · subst hkm
      rw [CodeCache.put_table_self, Option.some.injEq] at hk
      exact .inr ⟨rfl, hk.symm⟩
    · rw [CodeCache.put_table_of_ne hkm] at hk
      exact .inl hk
  refine .of_some ⟨fun _ _ => .inl, fun k hk => ?_⟩ (fun k a hk => ?_) (fun _ _ _ => .inl)
    (fun a ha => .inr (.inr (hrel a ha))) (fun a ha => (hown a ha).elim) hq ⟨fun k a hk => ?_, hm.exits, hm.placed⟩
  · by_cases hkm : k = am
    · rw [hkm, CodeCache.put_table_self]
      nofun
    · rwa [CodeCache.put_table_of_ne hkm]
  · rcases htable k a hk with hk | ⟨_, rfl⟩
    · exact .inl hk
    · exact .inr (.inr hr)
  · rcases htable k a hk with hk | ⟨rfl, rfl⟩
    · exact hm.published k a hk
    · exact hpub

/-! ### New code -/

theorem CodeCache.evolves_encode (hn : m.code pc = none) : m.Evolves (fun _ => False) (m.encode pc code) := by
  refine ⟨fun a c hc => .inl ?_, fun _ => id⟩
  have ha : a ≠ pc := fun he => nomatch (he ▸ hc).symm.trans hn
  rwa [CodeCache.encode_code_of_ne ha]

theorem CodeCache.Sound.encode (hm : m.Sound env) (hn : m.code pc = none)
    (hplace : pc ≠ 0 ∧ (env.isCodeCacheAddress pc || env.isGencodeAddress pc) = true)
    (hexit : ∀ am target, code = .exit am target → m.Proper env am target) : (m.encode pc code).Sound env := by
  have he : m.Evolves (fun _ => False) (m.encode pc code) := CodeCache.evolves_encode hn
  have hcode : ∀ a, (m.encode pc code).code a = m.code a ∨ a = pc ∧ (m.encode pc code).code a = some code := by
    intro a
    by_cases ha : a = pc
    · exact .inr ⟨ha, by rw [ha, CodeCache.encode_code_self]⟩
    · exact .inl (CodeCache.encode_code_of_ne ha)
  refine ⟨fun k a hk => (hm.published k a hk).mono he fun h => h.1, fun a k target hc => ?_, fun a hc => ?_⟩
  · refine CodeCache.Proper.mono ?_ he fun _ _ h => h.1
    rcases hcode a with h | ⟨rfl, h⟩
    · exact hm.exits a k target (h ▸ hc)
    · exact hexit k target (Option.some.inj (h.symm.trans hc))
  · rcases hcode a with h | ⟨rfl, h⟩
    · exact hm.placed a (h ▸ hc)
    · exact hplace

structure CodeCache.Encoded (env : Environment) (m : CodeCache) (inner : List InnerBlock) (m' : CodeCache) : Prop where
  sound : m'.Sound env
  evolves : m.Evolves (fun _ => False) m'
  table : m'.table = m.table
  blocks : ∀ b ∈ inner, m'.code b.pc = some (.translation b.am)
  others : ∀ pc, pc ∉ inner.map InnerBlock.pc → m'.code pc = m.code pc

theorem CodeCache.Sound.encodeAll {inner : List InnerBlock} (hm : m.Sound env) (hnd : (inner.map InnerBlock.pc).Nodup)
    (hfresh : ∀ b ∈ inner, m.code b.pc = none ∧ b.pc ≠ 0 ∧ env.isCodeCacheAddress b.pc = true) :
    m.Encoded env inner (inner.foldl (fun m b => m.encode b.pc (.translation b.am)) m) := by
  induction inner generalizing m with
  | nil => exact ⟨hm, .refl _ m, rfl, fun _ hb => (nomatch hb), fun _ _ => rfl⟩
  | cons b inner ih =>
    rw [List.map_cons, List.nodup_cons] at hnd
    obtain ⟨hn, h0, hplace⟩ := hfresh b List.mem_cons_self
    have hm₁ : (m.encode b.pc (.translation b.am)).Sound env :=
      hm.encode hn ⟨h0, by rw [hplace]; rfl⟩ fun _ _ he => nomatch he
    have hne : ∀ b' ∈ inner, b'.pc ≠ b.pc := fun b' hb' he => hnd.1 (he ▸ List.mem_map_of_mem hb')
    have h := ih hm₁ hnd.2 fun b' hb' => by
      rw [CodeCache.encode_code_of_ne (hne b' hb')]
      exact hfresh b' (List.mem_cons_of_mem _ hb')
    refine ⟨h.sound, ⟨fun a c hc => ?_, fun am ht => ?_⟩, h.table, fun b' hb' => ?_, fun a ha => ?_⟩
    · rcases (CodeCache.evolves_encode hn).code a c hc with hc | hc
      · exact h.evolves.code a c hc |>.imp_right fun hl => hl.1.elim
      · exact hc.1.elim
    · exact h.evolves.table am ht
    · rcases List.mem_cons.mp hb' with rfl | hb'
      · rw [List.foldl_cons, h.others _ hnd.1, CodeCache.encode_code_self]
      · exact h.blocks b' hb'
    · rw [List.map_cons, List.mem_cons, not_or] at ha
      rw [List.foldl_cons, h.others a ha.2, CodeCache.encode_code_of_ne ha.1]

theorem CodeCache.Sound.unreferenced (hm : m.Sound env) (hn : m.code pc = none) : m.Unreferenced pc :=
  ⟨fun am ht => (hm.published am pc ht).code_ne_none hn, fun a am hx => nomatch (hm.exits a am _ hx).symm.trans hn⟩

/-! ### The steps of `find` -/

theorem translate_callStep (hm : m.Sound env) (hf : choice.Fits env m (.translate am)) :
    CallStep env m ((FindPc.translate am).step env choice m).1 (some (.translate am))
      (some ((FindPc.translate am).step env choice m).2) := by
  obtain ⟨hnd, hfresh, hbase⟩ := hf
  rw [List.nodup_cons] at hnd
  obtain ⟨hn, h0, hplace⟩ := hfresh choice.head List.mem_cons_self
  have hne : ∀ b ∈ choice.inner, b.pc ≠ choice.head := fun b hb he => hnd.1 (he ▸ List.mem_map_of_mem hb)
  have hinner : ∀ b ∈ choice.inner, m.code b.pc = none ∧ b.pc ≠ 0 ∧ env.isCodeCacheAddress b.pc = true :=
    fun b hb => hfresh b.pc (List.mem_cons_of_mem _ (List.mem_map_of_mem hb))
  have hm₁ : (m.encode choice.head (.translation (am.base env))).Sound env :=
    hm.encode hn ⟨h0, by rw [hplace]; rfl⟩ fun _ _ he => nomatch he
  have h := hm₁.encodeAll hnd.2 fun b hb => by
    rw [CodeCache.encode_code_of_ne (hne b hb)]
    exact hinner b hb
  simp only [FindPc.step]
  generalize choice.inner.foldl (fun m b => m.encode b.pc (.translation b.am))
    (m.encode choice.head (.translation (am.base env))) = m' at h ⊢
  have hhead : m'.code choice.head = some (.translation (am.base env)) := by
    rw [h.others _ hnd.1, CodeCache.encode_code_self]
  have hexits : ∀ pc k target, m'.code pc = some (.exit k target) → m.code pc = some (.exit k target) := by
    intro pc k target hc
    by_cases hpc : pc ∈ choice.inner.map InnerBlock.pc
    · obtain ⟨b, hb, rfl⟩ := List.mem_map.mp hpc
      exact nomatch (h.blocks b hb).symm.trans hc
    · rw [h.others pc hpc] at hc
      by_cases hh : pc = choice.head
      · rw [hh, CodeCache.encode_code_self] at hc
        cases hc
      · rwa [CodeCache.encode_code_of_ne hh] at hc
  -- whatever the next step is, it relies on new code only
  have hcall : ∀ q : FindPc, q.Knows env m' → (∀ pc, q.Relies pc → m.code pc = none) →
      CallStep env m m' (some (.translate am)) (some q) := by
    intro q hk hr
    refine .of_some ⟨fun pc c hc => .inl ?_, fun k hk => ?_⟩ (fun k pc hk => .inl ?_) (fun pc k a hx => .inl (hexits pc k _ hx))
      (fun pc hr' => .inl (hr pc hr')) (fun pc ho => .inl (hr pc ho.relies)) hk h.sound
    · have hc₁ : (m.encode choice.head (.translation (am.base env))).code pc = some c :=
        ((CodeCache.evolves_encode hn).code pc c hc).resolve_right fun hl => hl.1
      exact (h.evolves.code pc c hc₁).resolve_right fun hl => hl.1
    · rw [h.table]
      exact hk
    · rw [h.table] at hk
      exact hk
  split
  · refine hcall _ ⟨hhead, fun k ht => ?_, fun a k hx => ?_⟩ fun pc hr => hr ▸ hn
    · rw [h.table] at ht
      exact (hm.unreferenced hn).1 k ht
    · exact (hm.unreferenced hn).2 a k (hexits a k _ hx)
  · refine hcall _ ⟨hhead, fun b hb => ⟨h.blocks b hb, hbase b hb⟩⟩ fun pc hr => ?_
    rcases hr with rfl | ⟨b, hb, rfl⟩
    · exact hn
    · exact (hinner b hb).1

theorem discard_callStep {head : AppPc} (hm : m.Sound env) (hk : (FindPc.discard am head).Knows env m) :
    CallStep env m (m.free head) (some (.discard am head)) (some (.reload am head)) := by
  obtain ⟨_, hun, htable⟩ := hk
  have hev : m.Evolves (FindPc.discard am head).Owns (m.free head) := by
    refine ⟨fun pc c hc => ?_, fun _ => id⟩
    by_cases hpc : pc = head
    · exact .inr ⟨hpc, hpc ▸ hun⟩
    · exact .inl (by rwa [CodeCache.free_code_of_ne hpc])
  have hcode : ∀ pc c, (m.free head).code pc = some c → m.code pc = some c ∧ pc ≠ head := by
    intro pc c hc
    have hpc : pc ≠ head := fun he => by
      rw [he, CodeCache.free_code_self] at hc
      cases hc
    exact ⟨by rwa [CodeCache.free_code_of_ne hpc] at hc, hpc⟩
  refine .of_some hev (fun _ _ => .inl) (fun pc k a hx => .inl (hcode pc _ hx).1) (fun _ => False.elim)
    (fun _ => False.elim) htable ⟨fun k pc ht => ?_, fun pc k target hx => ?_, fun pc hc => ?_⟩
  · exact (hm.published k pc ht).mono hev fun ⟨ho, _⟩ => hun.1 k (ho ▸ ht)
  · obtain ⟨hc, _⟩ := hcode pc _ hx
    refine (hm.exits pc k target hc).mono hev fun a ha ⟨ho, _⟩ => ?_
    subst ha
    exact hun.2 pc k (ho ▸ hc)
  · obtain ⟨c, hc⟩ := Option.ne_none_iff_exists'.mp hc
    exact hm.placed pc (by rw [(hcode pc c hc).1]; nofun)

theorem exit_callStep (hm : m.Sound env) (hk : (FindPc.exit am target).Knows env m)
    (hf : choice.Fits env m (.exit am target)) :
    CallStep env m ((FindPc.exit am target).step env choice m).1 (some (.exit am target))
      (some ((FindPc.exit am target).step env choice m).2) := by
  obtain ⟨hn, hplace⟩ := hf
  obtain ⟨hi, hproper⟩ := hk
  have he : m.Evolves (fun _ => False) (m.encode choice.exitPc (.exit am target)) := CodeCache.evolves_encode hn
  have hm₁ : (m.encode choice.exitPc (.exit am target)).Sound env := hm.encode hn hplace fun k t hc => by
    cases hc
    exact hproper
  have hproper₁ : (m.encode choice.exitPc (.exit am target)).Proper env am target :=
    hproper.mono he fun _ _ h => h.1
  have hpub : (m.encode choice.exitPc (.exit am target)).Published env am choice.exitPc := by
    rw [CodeCache.Published, if_pos hi]
    exact ⟨target, CodeCache.encode_code_self, hproper₁⟩
  have hexits : ∀ pc k a, (m.encode choice.exitPc (.exit am target)).code pc = some (.exit k (.translated a)) →
      m.code pc = some (.exit k (.translated a)) ∨ (FindPc.exit am target).Relies a := by
    intro pc k a hx
    by_cases hpc : pc = choice.exitPc
    · rw [hpc, CodeCache.encode_code_self] at hx
      cases hx
      exact .inr rfl
    · exact .inl (by rwa [CodeCache.encode_code_of_ne hpc] at hx)
  simp only [FindPc.step]
  cases ht : (m.encode choice.exitPc (.exit am target)).table am with
  | none =>
    have hput := CallStep.put (p := .returned am (.translated choice.exitPc)) (q := .returned am (.translated choice.exitPc))
      hm₁ hpub rfl (.inl ⟨_, rfl, hpub⟩) (fun _ => id) fun _ => id
    refine .of_some ⟨fun pc c hc => .inl ?_, hput.evolves.table⟩ (fun k pc hk => ?_) hexits (fun pc hr => .inl (hr ▸ hn))
      (fun _ => False.elim) (hput.knows _ rfl) hput.sound
    · exact (he.code pc c hc).resolve_right fun hl => hl.1
    · by_cases hkm : k = am
      · subst hkm
        rw [CodeCache.put_table_self, Option.some.injEq] at hk
        exact .inr (.inl (hk ▸ hn))
      · rw [CodeCache.put_table_of_ne hkm] at hk
        exact .inl hk
  | some pc =>
    refine .of_some ⟨fun pc c hc => .inl ?_, fun _ => id⟩ (fun _ _ => .inl) hexits
      (fun a hr => .inr (.inl ⟨am, hr ▸ ht⟩)) (fun _ => False.elim) (.inl ⟨pc, rfl, hm₁.published am pc ht⟩) hm₁
    exact (he.code pc c hc).resolve_right fun hl => hl.1

theorem FindPc.step_callStep (hm : m.Sound env) (hk : p.Knows env m) (hf : choice.Fits env m p) :
    CallStep env m (p.step env choice m).1 (some p) (some (p.step env choice m).2) := by
  cases p with
  | load am =>
    simp only [FindPc.step]
    cases ht : m.table am with
    | some pc =>
      exact .remain hm (.inl ⟨pc, rfl, hm.published am pc ht⟩) (fun a hr => .inl ⟨am, hr ▸ ht⟩) fun _ => False.elim
    | none =>
      dsimp only
      split
      · rename_i hg
        rw [Bool.and_eq_true] at hg
        exact .found hm ⟨hg.1, rfl⟩ nofun
      · split
        · exact .goto hm (.loadBase am) trivial (fun _ => id) _
        · exact .goto hm (.findDetach am) trivial (fun _ => id) _
  | loadBase am =>
    simp only [FindPc.step]
    cases ht : m.table (am.base env) with
    | some pc =>
      refine .found hm (hm.base_translation ht) fun a ha => .inl ⟨am.base env, ?_⟩
      cases ha
      exact ht
    | none => exact .goto hm (.findDetach am) trivial (fun _ => id) _
  | findDetach am =>
    simp only [FindPc.step]
    rcases detachTarget_cases with hd | ⟨hcan, ⟨hd, h0⟩ | ⟨hd, hnative⟩⟩
    · rw [hd]
      exact .goto hm (.translate am) trivial (fun _ => id) _
    · rw [hd]
      exact .found hm ⟨hcan, rfl, h0⟩ nofun
    · rw [hd]
      exact .found hm ⟨hnative.1, hnative.2.1, hcan, hnative.2.2.1, hnative.2.2.2, rfl⟩ nofun
  | translate am => exact translate_callStep hm hf
  | publish am head inner =>
    cases inner with
    | nil => exact .remain hm hk.1 (fun _ hr => .inr (.inl hr)) fun _ => False.elim
    | cons b inner =>
      obtain ⟨hhead, hblocks⟩ := hk
      have hb := hblocks b List.mem_cons_self
      refine .put hm ((CodeCache.published_of_base hb.2).mpr hb.1) (.inr ⟨b, List.mem_cons_self, rfl⟩)
        ⟨hhead, fun b' hb' => hblocks b' (List.mem_cons_of_mem _ hb')⟩ (fun a ha => ?_) fun _ => id
      exact ha.imp_right fun ⟨b', hb', he⟩ => ⟨b', List.mem_cons_of_mem _ hb', he⟩
  | storeKeep am head =>
    obtain ⟨hc, hun⟩ := hk
    simp only [FindPc.step]
    cases ht : m.table (am.base env) with
    | none =>
      refine .put hm ((CodeCache.published_of_base base_basePolicy).mpr hc) rfl (finish_knows hc)
        (fun a ha => ?_) fun _ => finish_not_owns
      cases finish_relies ha
      rfl
    | some pc => exact .remain hm ⟨hc, hun, by rw [ht]; nofun⟩ (fun _ => .inr) fun _ => id
  | storeOverwrite am head =>
    refine .put hm ((CodeCache.published_of_base base_basePolicy).mpr hk) rfl (finish_knows hk)
      (fun a ha => ?_) fun _ => finish_not_owns
    cases finish_relies ha
    rfl
  | discard am head => exact discard_callStep hm hk
  | reload am head =>
    obtain ⟨pc, ht⟩ := Option.ne_none_iff_exists'.mp hk
    simp only [FindPc.step, ht, Option.getD_some]
    refine .found hm (hm.base_translation ht) fun a ha => .inl ⟨am.base env, ?_⟩
    cases ha
    exact ht
  | exit am target => exact exit_callStep hm hk hf
  | returned am target => exact .remain hm hk (fun _ => .inr) fun _ => id

section Steps

variable {Cpu : Type} [DecidableEq Cpu] {s s' : FindState Cpu} {c : Cpu} {p' : Option FindPc}
  {calls : MangledAddress → Prop} {blocks : InnerBlock → Prop}

theorem FindInv.callStep (h : FindInv env s) (hs : CallStep env s.cache s'.cache (s.pc c) p')
    (hpc : s'.pc = update s.pc c p') : FindInv env s' := by
  have hself : s'.pc c = p' := by rw [hpc, update_self]
  have hother : ∀ d, d ≠ c → s'.pc d = s.pc d := fun d hd => by rw [hpc, update_of_ne hd]
  -- what another call owns is neither relied on by this one, nor entered in the table by it
  have hown : ∀ d q pc, d ≠ c → s.pc d = some q → q.Owns pc → s.cache.code pc ≠ none ∧ s.cache.Unreferenced pc ∧
      ∀ r, s.pc c = some r → ¬ r.Relies pc := by
    intro d q pc hd hq ho
    have hk := h.knows d q hq
    refine ⟨hk.code_ne_none ho.relies, ?_, fun r hr => h.apart d c q r pc hd hq hr ho⟩
    cases q with
    | storeKeep | discard =>
      cases ho
      first
        | exact hk.2
        | exact hk.2.1
    | _ => exact ho.elim
  refine ⟨hs.sound, fun d q hq => ?_, fun d e q r pc hde hq hr ho hrel => ?_⟩
  · by_cases hd : d = c
    · rw [hd, hself] at hq
      exact hs.knows q hq
    · rw [hother d hd] at hq
      refine (h.knows d q hq).mono hs.evolves (fun pc hr ⟨r, hc, ho⟩ => ?_) fun pc ho => ?_
      · exact h.apart c d r q pc (Ne.symm hd) hc hq ho hr
      · obtain ⟨hlive, hun, hnot⟩ := hown d q pc hd hq ho
        refine ⟨fun am ht => ?_, fun a am hx => ?_⟩
        · rcases hs.entries am pc ht with ht | hn | ⟨r, hr, hrel⟩
          · exact hun.1 am ht
          · exact hlive hn
          · exact hnot r hr hrel
        · rcases hs.exits a am pc hx with hx | ⟨r, hr, hrel⟩
          · exact hun.2 a am hx
          · exact hnot r hr hrel
  · by_cases hd : d = c
    · subst hd
      rw [hself] at hq
      rw [hother e (Ne.symm hde)] at hr
      rcases hs.owns q pc hq ho with hn | ⟨q', hq', ho'⟩
      · exact (h.knows e r hr).code_ne_none hrel hn
      · exact h.apart d e q' r pc hde hq' hr ho' hrel
    · rw [hother d hd] at hq
      obtain ⟨hlive, hun, hnot⟩ := hown d q pc hd hq ho
      by_cases he : e = c
      · subst he
        rw [hself] at hr
        rcases hs.relies r pc hr hrel with hn | ⟨am, ht⟩ | ⟨r', hr', hrel'⟩
        · exact hlive hn
        · exact hun.1 am ht
        · exact hnot r' hr' hrel'
      · rw [hother e he] at hr
        exact h.apart d e q r pc hde hq hr ho hrel

theorem FindStep.inv (h : FindInv env s) (hs : FindStep env calls blocks s s') : FindInv env s' := by
  cases hs with
  | enter c am hc => exact h.callStep (.goto h.sound (.load am) trivial (fun _ => id) _) rfl
  | step c p choice hc hf =>
    refine h.callStep ?_ rfl
    rw [hc]
    exact FindPc.step_callStep h.sound (h.knows c p hc) hf
  | leave c am target hc =>
    have hstay : CallStep env s.cache s.cache (s.pc c) none :=
      .stay h.sound (fun _ hq => nomatch hq) (fun _ _ hq => nomatch hq) fun _ _ hq => nomatch hq
    exact h.callStep hstay rfl

omit [DecidableEq Cpu] in
theorem findInv_init : FindInv env (.init : FindState Cpu) :=
  ⟨⟨fun _ _ ht => (nomatch ht), fun _ _ _ hx => (nomatch hx), fun _ hc => (hc rfl).elim⟩,
    fun _ _ hc => (nomatch hc), fun _ _ _ _ _ _ hc => (nomatch hc)⟩

theorem FindReachable.inv (h : FindReachable env calls blocks s) : FindInv env s := by
  induction h with
  | init => exact findInv_init
  | step _ hs ih => exact hs.inv ih

theorem FindInv.table_ne_none (h : FindInv env s) (hs : FindStep env calls blocks s s') (ham : s.cache.table am ≠ none) :
    s'.cache.table am ≠ none := by
  cases hs with
  | enter => exact ham
  | step c p choice hc hf => exact (FindPc.step_callStep h.sound (h.knows c p hc) hf).evolves.table am ham
  | leave => exact ham

end Steps

/-! ## Every call ends -/

theorem finish_rank : (finish am target).rank < toLex (3, 0) := by
  unfold finish
  split
  · exact (by decide : toLex (1, 0) < toLex (3, 0))
  · exact (by decide : toLex (0, 0) < toLex (3, 0))

theorem FindPc.rank_step (hp : ∀ am target, p ≠ .returned am target) : (p.step env choice m).2.rank < p.rank := by
  have hlow : ∀ am target (n : Nat ×ₗ Nat), toLex (3, 0) ≤ n → (finish am target).rank < n := fun am target n hn =>
    lt_of_lt_of_le (finish_rank) hn
  cases p with
  | load am =>
    simp only [FindPc.step]
    cases m.table am with
    | some pc => exact (by decide : toLex (0, 0) < toLex (7, 0))
    | none =>
      dsimp only
      split
      · exact hlow _ _ _ (by decide : toLex (3, 0) ≤ toLex (7, 0))
      · split
        · exact (by decide : toLex (6, 0) < toLex (7, 0))
        · exact (by decide : toLex (5, 0) < toLex (7, 0))
  | loadBase am =>
    simp only [FindPc.step]
    cases m.table (am.base env) with
    | some pc => exact hlow _ _ _ (by decide : toLex (3, 0) ≤ toLex (6, 0))
    | none => exact (by decide : toLex (5, 0) < toLex (6, 0))
  | findDetach am =>
    simp only [FindPc.step]
    cases detachTarget env am with
    | none => exact (by decide : toLex (4, 0) < toLex (5, 0))
    | _ => exact hlow _ _ _ (by decide : toLex (3, 0) ≤ toLex (5, 0))
  | translate am =>
    simp only [FindPc.step]
    split
    · exact (by decide : toLex (3, 2) < toLex (4, 0))
    · exact Prod.Lex.left _ _ (by decide)
  | publish am head inner =>
    cases inner with
    | nil => exact (by decide : toLex (3, 0) < toLex (3, 1))
    | cons b inner => exact Prod.Lex.right _ (Nat.lt_succ_self _)
  | storeKeep am head =>
    simp only [FindPc.step]
    cases m.table (am.base env) with
    | none => exact hlow _ _ _ (by decide : toLex (3, 0) ≤ toLex (3, 2))
    | some pc => exact (by decide : toLex (3, 1) < toLex (3, 2))
  | storeOverwrite am head | reload am head => exact hlow _ _ _ (le_refl (toLex (3, 0)))
  | discard am head => exact (by decide : toLex (3, 0) < toLex (3, 1))
  | exit am target =>
    simp only [FindPc.step]
    split <;> exact (by decide : toLex (0, 0) < toLex (1, 0))
  | returned am target => exact (hp am target rfl).elim

theorem FindInv.safe {Cpu : Type} {s : FindState Cpu} (h : FindInv env s) : FindSafe env s where
  answers c am target hc := h.knows c _ hc
  published := h.sound.published
  placed pc hc := (h.sound.placed pc hc).2
  lost c am head hc := (h.knows c _ hc).2
  winner c am head hc := by
    obtain ⟨pc, ht⟩ := Option.ne_none_iff_exists'.mp (h.knows c _ hc)
    exact ⟨pc, ht, fun choice => by simp only [FindPc.step, ht, Option.getD_some]⟩
  progress c p hc := by
    refine or_iff_not_imp_left.mpr fun hn choice => FindPc.rank_step fun am target he => hn ⟨am, target, he⟩

end Granary.Policies
