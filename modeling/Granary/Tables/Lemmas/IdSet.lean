import Granary.Lib.Probing
import Granary.Tables.IdSet

/-!
# Runs of a set with ids

Slots that are used are never free again. So a call of `add` that has passed a slot will not find its value there later,
and a value that is stored is found on the way from its home.
-/

namespace Granary

open Function (update update_of_ne update_self)

open AtomicIdSet

variable {T KV : Type} {maxItems : Nat} {bits : KV → Nat} {defaultValue missingValue : KV}
variable {c : AddCall KV} {t : T}

/-! ## Slots -/

section Slots

variable {set set' : Nat → KV} {value : KV} {k : Nat}

def Passed (maxItems : Nat) (bits : KV → Nat) (defaultValue : KV) (set : Nat → KV) (value : KV) (k : Nat) : Prop :=
  ∀ j < k, set ((bits value + j) % maxItems) ≠ defaultValue ∧ set ((bits value + j) % maxItems) ≠ value

def Kept (defaultValue missingValue : KV) (set set' : Nat → KV) : Prop :=
  ∀ i, set i ≠ defaultValue → set' i = set i ∨ set' i = missingValue

section

variable (h : Passed maxItems bits defaultValue set value k)

include h

theorem Passed.kept (hkept : Kept defaultValue missingValue set set')
    (hdm : defaultValue ≠ missingValue) (hvalue : value ≠ missingValue) : Passed maxItems bits defaultValue set' value k := by
  intro j hj
  rcases hkept _ (h j hj).1 with heq | heq
  · rw [heq]
    exact h j hj
  · rw [heq]
    exact ⟨hdm.symm, hvalue.symm⟩

theorem Passed.succ
    (hd : set ((bits value + k) % maxItems) ≠ defaultValue) (hv : set ((bits value + k) % maxItems) ≠ value) :
    Passed maxItems bits defaultValue set value (k + 1) := by
  intro j hj
  rcases Nat.lt_succ_iff_lt_or_eq.mp hj with hlt | rfl
  · exact h j hlt
  · exact ⟨hd, hv⟩

theorem Passed.lt (hfree : ∃ i < maxItems, set i = defaultValue) :
    k < maxItems := by
  obtain ⟨i, hi, hset⟩ := hfree
  obtain ⟨j, hj, hmod⟩ := Probing.exists_add_mod_eq (Nat.zero_lt_of_lt hi) (bits value) i
  rw [Nat.mod_eq_of_lt hi] at hmod
  by_contra hk
  exact (h j (by omega)).1 (by rw [hmod, hset])

end

theorem kept_refl : Kept defaultValue missingValue set set := fun _ _ => .inl rfl

theorem kept_remove (i : Nat) : Kept defaultValue missingValue set (update set i missingValue) := by
  intro j _
  by_cases hj : j = i
  · subst hj
    exact .inr (update_self ..)
  · exact .inl (update_of_ne hj ..)

end Slots

/-! ## The invariant -/

structure CallInv (maxItems : Nat) (bits : KV → Nat) (defaultValue missingValue : KV) (set : Nat → KV)
    (c : AddCall KV) (ops : Nat) : Prop where
  value_ne : c.value ≠ defaultValue ∧ c.value ≠ missingValue
  next : c.next = .load ∨ c.next = .claim
  passed : ∃ k < maxItems, c.index = (bits c.value + k) % maxItems ∧
    Passed maxItems bits defaultValue set c.value k ∧ ops ≤ 2 * k + (if c.next = .load then 0 else 1)

structure IdInv (maxItems : Nat) (bits : KV → Nat) (defaultValue missingValue : KV) (s : IdSystem T KV) : Prop where
  default_eq : s.state.defaultValue = defaultValue
  missing_eq : s.state.missingValue = missingValue
  calls : ∀ t c, s.calls t = some c → CallInv maxItems bits defaultValue missingValue s.state.set c (s.ops t)
  placed : ∀ i < maxItems, s.state.set i ≠ defaultValue → s.state.set i ≠ missingValue → ∃ k,
    i = (bits (s.state.set i) + k) % maxItems ∧ Passed maxItems bits defaultValue s.state.set (s.state.set i) k
  issued : ∀ p ∈ s.issued, p.2 < maxItems ∧ s.state.set p.2 = p.1 ∧ p.1 ≠ defaultValue ∧ p.1 ≠ missingValue

section Kept

variable {s s' : IdSystem T KV} (hdm : defaultValue ≠ missingValue)

include hdm

theorem CallInv.kept {set set' : Nat → KV} {ops : Nat}
    (h : CallInv maxItems bits defaultValue missingValue set c ops) (hkept : Kept defaultValue missingValue set set') :
    CallInv maxItems bits defaultValue missingValue set' c ops := by
  obtain ⟨k, hk, hindex, hpassed, hops⟩ := h.passed
  exact ⟨h.value_ne, h.next, k, hk, hindex, hpassed.kept hkept hdm h.value_ne.2, hops⟩

theorem IdInv.of_kept (h : IdInv maxItems bits defaultValue missingValue s)
    (hdefault : s'.state.defaultValue = s.state.defaultValue) (hmissing : s'.state.missingValue = s.state.missingValue)
    (hkept : Kept defaultValue missingValue s.state.set s'.state.set)
    (hcalls : ∀ t c, s'.calls t = some c → s.calls t = some c ∧ s'.ops t = s.ops t ∨
      CallInv maxItems bits defaultValue missingValue s'.state.set c (s'.ops t))
    (hnew : ∀ i < maxItems, s.state.set i = defaultValue → s'.state.set i ≠ defaultValue →
      s'.state.set i ≠ missingValue → ∃ k, i = (bits (s'.state.set i) + k) % maxItems ∧
        Passed maxItems bits defaultValue s'.state.set (s'.state.set i) k)
    (hissued : ∀ p ∈ s'.issued, p.2 < maxItems ∧ s'.state.set p.2 = p.1 ∧ p.1 ≠ defaultValue ∧ p.1 ≠ missingValue) :
    IdInv maxItems bits defaultValue missingValue s' where
  default_eq := hdefault.trans h.default_eq
  missing_eq := hmissing.trans h.missing_eq
  calls := by
    intro t c hc
    rcases hcalls t c hc with ⟨hold, hops⟩ | hnew
    · rw [hops]
      exact (h.calls t c hold).kept hdm hkept
    · exact hnew
  placed := by
    intro i hi hd hm
    by_cases hfree : s.state.set i = defaultValue
    · exact hnew i hi hfree hd hm
    · have hset : s'.state.set i = s.state.set i := (hkept i hfree).resolve_right hm
      rw [hset] at hm ⊢
      obtain ⟨k, hk, hpassed⟩ := h.placed i hi hfree hm
      exact ⟨k, hk, hpassed.kept hkept hdm hm⟩
  issued := hissued

omit hdm in
theorem IdInv.unique (h : IdInv maxItems bits defaultValue missingValue s) {i j : Nat} (hi : i < maxItems)
    (hj : j < maxItems) (hd : s.state.set i ≠ defaultValue) (hm : s.state.set i ≠ missingValue)
    (heq : s.state.set i = s.state.set j) : i = j := by
  obtain ⟨k, hk, hpassed⟩ := h.placed i hi hd hm
  obtain ⟨l, hl, hpassed'⟩ := h.placed j hj (heq ▸ hd) (heq ▸ hm)
  rw [← heq] at hl hpassed'
  rcases Nat.lt_trichotomy k l with hlt | rfl | hlt
  · exact absurd (by rw [← hk]) (hpassed' k hlt).2
  · rw [hk, hl]
  · exact absurd (by rw [← hl, ← heq]) (hpassed l hlt).2

end Kept

/-! ## Actions -/

section Actions

variable [DecidableEq T] {s s' : IdSystem T KV}

theorem calls_update {calls : T → Option (AddCall KV)} {ops : T → Nat} {call : Option (AddCall KV)} {n : Nat}
    {P : AddCall KV → Nat → Prop} (h : ∀ c, call = some c → P c n) :
    ∀ u c, update calls t call u = some c →
      calls u = some c ∧ update ops t n u = ops u ∨ P c (update ops t n u) := by
  intro u c hc
  by_cases hu : u = t
  · subst hu
    rw [update_self] at hc ⊢
    exact .inr (h c hc)
  · rw [update_of_ne hu] at hc ⊢
    exact .inl ⟨hc, rfl⟩

variable [DecidableEq KV]

theorem AddCall.step_cases (maxItems : Nat) {s : AtomicIdSet KV} (hnext : c.next = .load ∨ c.next = .claim)
    (hvalue : c.value ≠ s.missingValue) (hdm : s.defaultValue ≠ s.missingValue)
    (hok : c.next = .load → s.set c.index = s.defaultValue → c.lastMissing = none) :
    (c.next = .load ∧ c.step maxItems s = (s, .inl { c with next := .claim })) ∨
    (∃ last, s.set c.index ≠ s.defaultValue ∧ s.set c.index ≠ c.value ∧ c.step maxItems s =
      (s, .inl { c with index := (c.index + 1) % maxItems, lastMissing := last, next := .load })) ∨
    (s.set c.index = c.value ∧ c.step maxItems s = (s, .inr c.index)) ∨
    (s.set c.index = s.defaultValue ∧
      c.step maxItems s = ({ s with set := update s.set c.index c.value }, .inr c.index)) := by
  rcases hnext with hload | hclaim
  · by_cases hmissing : s.missingValue = s.set c.index
    · refine .inr (.inl ⟨some c.index, ?_, ?_, ?_⟩)
      · rw [← hmissing]
        exact hdm.symm
      · rw [← hmissing]
        exact hvalue.symm
      · simp [AddCall.step, hload, AddCall.loop, ← hmissing, hvalue.symm]
    by_cases hdefault : s.defaultValue = s.set c.index
    · refine .inl ⟨hload, ?_⟩
      simp [AddCall.step, hload, if_neg hmissing, if_pos hdefault, hok hload hdefault.symm, Option.elim]
    by_cases hfound : s.set c.index = c.value
    · refine .inr (.inr (.inl ⟨hfound, ?_⟩))
      rw [hfound] at hmissing hdefault
      simp [AddCall.step, hload, AddCall.loop, hfound, hmissing, hdefault]
    · refine .inr (.inl ⟨c.lastMissing, fun he => hdefault he.symm, hfound, ?_⟩)
      simp [AddCall.step, hload, if_neg hmissing, if_neg hdefault, AddCall.loop, hfound]
  · by_cases hdefault : s.set c.index = s.defaultValue
    · refine .inr (.inr (.inr ⟨hdefault, ?_⟩))
      simp [AddCall.step, hclaim, if_pos hdefault]
    by_cases hfound : s.set c.index = c.value
    · refine .inr (.inr (.inl ⟨hfound, ?_⟩))
      rw [hfound] at hdefault
      simp [AddCall.step, hclaim, AddCall.loop, hfound, hdefault]
    · refine .inr (.inl ⟨c.lastMissing, hdefault, hfound, ?_⟩)
      simp [AddCall.step, hclaim, if_neg hdefault, AddCall.loop, hfound]

variable (hdm : defaultValue ≠ missingValue)

include hdm

theorem IdInv.add (h : IdInv maxItems bits defaultValue missingValue s) (hN : 0 < maxItems) {value : KV}
    (hact : s.act maxItems bits defaultValue missingValue (.add t value) = some s') :
    IdInv maxItems bits defaultValue missingValue s' := by
  simp only [IdSystem.act, Option.ite_none_right_eq_some, Option.some.injEq] at hact
  obtain ⟨⟨-, hvalue⟩, rfl⟩ := hact
  refine h.of_kept hdm rfl rfl (kept_refl) (calls_update ?_) (fun i _ hfree hd => absurd hfree hd) h.issued
  rintro c ⟨⟩
  exact ⟨hvalue, .inl rfl, 0, hN, rfl, fun j hj => absurd hj (Nat.not_lt_zero j), Nat.le_refl 0⟩

theorem IdInv.remove (h : IdInv maxItems bits defaultValue missingValue s) {id : Nat}
    (hact : s.act maxItems bits defaultValue missingValue (.remove id) = some s') :
    IdInv maxItems bits defaultValue missingValue s' := by
  simp only [IdSystem.act, Option.some.injEq] at hact
  subst hact
  have hset : (s.state.remove maxItems id).set = update s.state.set (id % maxItems) missingValue := by
    rw [AtomicIdSet.remove, h.missing_eq]
  refine h.of_kept hdm rfl rfl ?_ (fun u c hc => .inl ⟨hc, rfl⟩) (fun i _ hfree hd hm => ?_) (fun p hp => ?_)
  · change Kept _ _ s.state.set (s.state.remove maxItems id).set
    rw [hset]
    exact kept_remove _
  · change (s.state.remove maxItems id).set i ≠ _ at hd hm
    rw [hset] at hd hm
    by_cases hi : i = id % maxItems
    · rw [hi, update_self] at hm
      exact absurd rfl hm
    · rw [update_of_ne hi] at hd
      exact absurd hfree hd
  · rw [List.mem_filter, decide_eq_true_eq] at hp
    obtain ⟨hlt, hp'⟩ := h.issued p hp.1
    refine ⟨hlt, ?_⟩
    have hne : p.2 ≠ id % maxItems := fun he => hp.2 (by rw [Nat.mod_eq_of_lt hlt, he])
    change (s.state.remove maxItems id).set p.2 = _ ∧ _
    rwa [hset, update_of_ne hne]

omit [DecidableEq KV] in
theorem IdInv.returns (h : IdInv maxItems bits defaultValue missingValue s) (hc : s.calls t = some c)
    {state : AtomicIdSet KV} (hdefault : state.defaultValue = s.state.defaultValue)
    (hmissing : state.missingValue = s.state.missingValue)
    (hset : ∀ i, i ≠ c.index → state.set i = s.state.set i) (hvalue : state.set c.index = c.value)
    (hold : s.state.set c.index = defaultValue ∨ s.state.set c.index = c.value) :
    IdInv maxItems bits defaultValue missingValue
      { s with state, calls := update s.calls t none, issued := (c.value, c.index) :: s.issued } := by
  have hcall := h.calls t c hc
  obtain ⟨k, hk, hindex, hpassed, hops⟩ := hcall.passed
  have hkept : Kept defaultValue missingValue s.state.set state.set := by
    intro i hi
    by_cases hic : i = c.index
    · subst hic
      exact .inl (by rw [hvalue, hold.resolve_left hi])
    · exact .inl (hset i hic)
  refine h.of_kept hdm hdefault hmissing hkept (fun u c' hu => ?_) (fun i hi hfree hd hm => ?_) (fun p hp => ?_)
  · by_cases hut : u = t
    · subst hut
      change update s.calls u none u = some c' at hu
      rw [update_self] at hu
      cases hu
    · change update s.calls t none u = some c' at hu
      rw [update_of_ne hut] at hu
      exact .inl ⟨hu, rfl⟩
  · have hic : i = c.index := by
      by_contra hne
      exact hd ((hset i hne).trans hfree)
    subst hic
    change ∃ k, _ = (bits (state.set c.index) + k) % maxItems ∧
      Passed maxItems bits defaultValue state.set (state.set c.index) k
    rw [hvalue]
    exact ⟨k, hindex, hpassed.kept hkept hdm hcall.value_ne.2⟩
  · rcases List.mem_cons.mp hp with rfl | hp
    · refine ⟨?_, hvalue, hcall.value_ne⟩
      change c.index < maxItems
      rw [hindex]
      exact Nat.mod_lt _ (Nat.zero_lt_of_lt hk)
    · obtain ⟨hlt, heq, hne⟩ := h.issued p hp
      refine ⟨hlt, ?_, hne⟩
      have hd : s.state.set p.2 ≠ defaultValue := by
        rw [heq]
        exact hne.1
      by_cases hpc : p.2 = c.index
      · rw [hpc] at heq hd ⊢
        exact hvalue.trans ((hold.resolve_left hd).symm.trans heq)
      · exact (hset p.2 hpc).trans heq

theorem IdInv.step (h : IdInv maxItems bits defaultValue missingValue s) (hok : s.Unhindered maxItems defaultValue (.step t))
    (hact : s.act maxItems bits defaultValue missingValue (.step t) = some s') :
    IdInv maxItems bits defaultValue missingValue s' := by
  obtain ⟨hfree, hfirst⟩ := hok
  simp only [IdSystem.act, Option.map_eq_some_iff] at hact
  obtain ⟨c, hc, rfl⟩ := hact
  have hcall := h.calls t c hc
  obtain ⟨k, hk, hindex, hpassed, hops⟩ := hcall.passed
  have hcases := AddCall.step_cases maxItems (s := s.state) hcall.next
    (by rw [h.missing_eq]; exact hcall.value_ne.2) (by rw [h.default_eq, h.missing_eq]; exact hdm)
    (by rw [h.default_eq]; exact hfirst c hc)
  rw [h.default_eq] at hcases
  rcases hcases with ⟨hload, hstep⟩ | ⟨last, hd, hv, hstep⟩ | ⟨hfound, hstep⟩ | ⟨hclaim, hstep⟩
  · simp only [hstep]
    refine h.of_kept hdm rfl rfl (kept_refl) (calls_update ?_) (fun i _ hfree hd => absurd hfree hd) h.issued
    rintro c' ⟨⟩
    rw [if_pos hload] at hops
    exact ⟨hcall.value_ne, .inr rfl, k, hk, hindex, hpassed, Nat.succ_le_succ hops⟩
  · simp only [hstep]
    refine h.of_kept hdm rfl rfl (kept_refl) (calls_update ?_) (fun i _ hfree hd => absurd hfree hd) h.issued
    rintro c' ⟨⟩
    rw [hindex] at hd hv
    have hpassed' := hpassed.succ hd hv
    refine ⟨hcall.value_ne, .inl rfl, k + 1, hpassed'.lt hfree, ?_, hpassed', ?_⟩
    · change (c.index + 1) % maxItems = _
      rw [hindex, Nat.mod_add_mod, Nat.add_assoc]
    · change s.ops t + 1 ≤ 2 * (k + 1) + 0
      split at hops <;> omega
  · simp only [hstep]
    exact h.returns hdm hc rfl rfl (fun _ _ => rfl) hfound (.inr hfound)
  · simp only [hstep]
    exact h.returns hdm hc h.default_eq.symm rfl (fun i hi => update_of_ne hi ..) (update_self ..) (.inl hclaim)

theorem IdReachable.inv (hN : 0 < maxItems)
    (h : IdReachable maxItems bits defaultValue missingValue (IdSystem.Unhindered maxItems defaultValue) s) :
    IdInv maxItems bits defaultValue missingValue s := by
  induction h with
  | init =>
    refine ⟨rfl, rfl, fun t c hc => ?_, fun i _ hd => absurd rfl hd, fun p hp => ?_⟩
    · cases hc
    · cases hp
  | @act s s' a _ hok hact ih =>
    cases a with
    | add t value => exact ih.add hdm hN hact
    | step t => exact ih.step hdm hok hact
    | remove id => exact ih.remove hdm hact

end Actions

/-! ## Running actions -/

section Run

variable [DecidableEq T] [DecidableEq KV] {ok : IdSystem T KV → IdAction T KV → Prop}

def IdSystem.run (maxItems : Nat) (bits : KV → Nat) (defaultValue missingValue : KV) (actions : List (IdAction T KV))
    (s : IdSystem T KV) : Option (IdSystem T KV) :=
  actions.foldlM (fun s a => s.act maxItems bits defaultValue missingValue a) s

theorem IdReachable.run (hok : ∀ s a, ok s a) {s : IdSystem T KV}
    (h : IdReachable maxItems bits defaultValue missingValue ok s) (actions : List (IdAction T KV)) {s' : IdSystem T KV}
    (hrun : s.run maxItems bits defaultValue missingValue actions = some s') :
    IdReachable maxItems bits defaultValue missingValue ok s' := by
  induction actions generalizing s with
  | nil =>
    cases hrun
    exact h
  | cons a actions ih =>
    simp only [IdSystem.run, List.foldlM_cons, Option.bind_eq_bind, Option.bind_eq_some_iff] at hrun
    obtain ⟨s₁, hact, hrest⟩ := hrun
    exact ih (h.act (hok s a) hact) hrest

end Run

end Granary
