import Granary.Tables.CodeCache

/-!
# When a code cache answers like a map

`find` looks at `MAX_SCAN` slots, but `insert` only doubles the table after passing more than `MAX_SCAN` slots, and
does not look at the distance at all while it re-inserts. `Near` says that every stored key is close enough to its
home to be found. A store keeps that exactly when `CacheCall.LandsNear` holds before it.
-/

namespace Granary

open Probing Memory

variable {mix : UInt64 → UInt64} {S S' : SlotArray AppPc AppPc} {c c' : CpuPrivateCodeCache} {call : CacheCall}
variable {fuel fuel' : Nat} {update : Bool} {q v : AppPc} {calls calls' : List CacheCall} {c₁ c₂ : CpuPrivateCodeCache}

/-! ## The loops do not depend on the fuel -/

section Fuel

variable {κ ν : Type} [DecidableEq κ] {home : κ → Nat} {nil : κ} {T T' : SlotArray κ ν}

theorem insertSlots_full {key : κ} {value : ν} {r : SlotArray κ ν × HashStoreState × Nat}
    (hT : T.IsRing) (h : insertSlots home nil fuel T key value update = some r)
    (hfuel : T.mask + 1 ≤ fuel') : insertSlots home nil fuel' T key value update = some r := by
  cases hp : probe nil key T fuel (home key) 0 with
  | none => simp [insertSlots, hp] at h
  | some p =>
    have hp' : probe nil key T fuel' (home key) 0 = some p := by
      cases hq : probe nil key T (T.mask + 1) (home key) 0 with
      | none => rw [probe_none_forever hT hq] at hp; cases hp
      | some q => rw [probe_mono hT hfuel hq, probe_det hT hp hq]
    simpa only [insertSlots, hp, hp'] using h

theorem rehash_full {old : List (Entry κ ν)} {r : SlotArray κ ν × List Nat} (hT : T.IsRing)
    (hP : Placed home nil T) (h : rehash home nil fuel old T = some r) (hfuel : T.mask + 1 ≤ fuel') :
    rehash home nil fuel' old T = some r := by
  induction old generalizing T r with
  | nil => exact h
  | cons x xs ih =>
    simp only [rehash] at h ⊢
    by_cases hx : nil = x.key
    · rw [if_pos hx] at h ⊢
      exact ih hT hP h hfuel
    · rw [if_neg hx] at h ⊢
      cases hi : insertSlots home nil fuel T x.key x.value true with
      | none => rw [hi] at h; cases h
      | some q =>
        obtain ⟨T₁, st, scan⟩ := q
        have hI := insertSlots_cases hT hP (fun he => hx he.symm) hi
        rw [hi] at h
        rw [insertSlots_full hT hi hfuel]
        simp only [Option.map_eq_some_iff] at h ⊢
        obtain ⟨r', hr', rfl⟩ := h
        refine ⟨r', ih (hI.isRing hT) ?_ hr' (by rw [hI.mask_eq]; exact hfuel), rfl⟩
        exact hI.placed hT hP (fun he => hx he.symm)

end Fuel

/-! ## The invariant of a cache -/

def CpuPrivateCodeCache.Inv (mix : UInt64 → UInt64) (c : CpuPrivateCodeCache) : Prop :=
  c.growing = false ∧ ∀ S, c.entries = some S → S.IsRing ∧ Placed (homeOf mix) 0 S

def CpuPrivateCodeCache.lookup (c : CpuPrivateCodeCache) (q : AppPc) : Option AppPc :=
  c.entries.bind fun S => S.lookup q

theorem doubled_isRing (hS : S.IsRing) : (doubled S).IsRing := by
  obtain ⟨k, hk⟩ := hS
  refine ⟨k + 1, ?_⟩
  simp only [doubled, SlotArray.replicate_mask, hk, Nat.shiftLeft_eq, Nat.pow_succ]
  have := Nat.two_pow_pos k
  omega

theorem CpuPrivateCodeCache.Inv.slots (h : c.Inv mix) : c.slots.IsRing ∧ Placed (homeOf mix) 0 c.slots := by
  cases he : c.entries with
  | none =>
    simp only [CpuPrivateCodeCache.slots, he, Option.getD_none]
    exact ⟨⟨7, rfl⟩, Placed.replicate _ _ _⟩
  | some S =>
    simp only [CpuPrivateCodeCache.slots, he, Option.getD_some]
    exact h.2 S he

theorem CpuPrivateCodeCache.slots_lookup (hq : q ≠ 0) : c.slots.lookup q = c.lookup q := by
  cases he : c.entries with
  | none =>
    simp only [CpuPrivateCodeCache.slots, CpuPrivateCodeCache.lookup, he, Option.getD_none, Option.bind_none,
      SlotArray.lookup, Option.map_eq_none_iff, List.find?_eq_none]
    intro x hx
    rw [(List.mem_replicate.mp hx).2]
    simpa using hq.symm
  | some S => simp [CpuPrivateCodeCache.slots, CpuPrivateCodeCache.lookup, he]

theorem CpuPrivateCodeCache.slots_mem (c : CpuPrivateCodeCache) (hS : c.entries = some S) (i : Nat) :
    c.slots.slot i ∈ S.entries := by
  simp only [CpuPrivateCodeCache.slots, hS, Option.getD_some]
  exact SlotArray.slot_mem i

theorem rehash_doubled (hS : S.IsRing) (hP : Placed (homeOf mix) 0 S) :
    ∃ S' scans, rehash (homeOf mix) 0 ((doubled S).mask + 1) S.entries (doubled S) = some (S', scans) ∧
      Rehashed (homeOf mix) 0 ((doubled S).mask + 1) S.entries (doubled S) S' scans ∧ S'.IsRing ∧
      ∀ q ≠ 0, S'.lookup q = S.lookup q := by
  have hmask : S.mask ≤ (doubled S).mask := by
    simp only [doubled, SlotArray.replicate_mask, Nat.shiftLeft_eq]
    omega
  obtain ⟨S', scans, hre, hR, hm, _, hl⟩ := rehash_grow (Nat.le_refl _) hS hP (doubled_isRing hS) hmask
  obtain ⟨k, hk⟩ := doubled_isRing hS
  exact ⟨S', scans, hre, hR, ⟨k, by rw [hm]; exact hk⟩, hl⟩

/-! ## `store` -/

inductive CacheStored (mix : UInt64 → UInt64) (call : CacheCall) (c : CpuPrivateCodeCache) :
    CpuPrivateCodeCache → Prop where
  | kept {S' st scan} :
      insertSlots (homeOf mix) 0 (c.slots.mask + 1) c.slots call.key call.value
        (call.policy = .overwritePrevEntry) = some (S', st, scan) →
      scan ≤ maxScan → CacheStored mix call c { c with entries := some S' }
  | grew {S₁ S' st scan scans} :
      insertSlots (homeOf mix) 0 (c.slots.mask + 1) c.slots call.key call.value
        (call.policy = .overwritePrevEntry) = some (S₁, st, scan) →
      maxScan < scan → rehash (homeOf mix) 0 ((doubled S₁).mask + 1) S₁.entries (doubled S₁) = some (S', scans) →
      CacheStored mix call c { c with entries := some S' }

theorem CpuPrivateCodeCache.ensureEntries_cases (room : HeapRoom) (c : CpuPrivateCodeCache) :
    c.ensureEntries room = .error .fault ∨ c.ensureEntries room = .ok c.slots := by
  cases he : c.entries with
  | none =>
    simp only [ensureEntries, he, allocateEntries, CpuPrivateCodeCache.slots, Option.getD_none]
    split
    · exact Or.inr rfl
    · exact Or.inl rfl
  | some S =>
    simp only [ensureEntries, he, CpuPrivateCodeCache.slots, Option.getD_some]
    exact Or.inr rfl

theorem CpuPrivateCodeCache.grow_cases (fuel : Nat) (room : HeapRoom) (S : SlotArray AppPc AppPc) :
    CpuPrivateCodeCache.grow mix fuel room S = .error .fault ∨
      CpuPrivateCodeCache.grow mix fuel room S =
        match rehash (homeOf mix) 0 fuel S.entries (doubled S) with
        | none => .error .running
        | some r => .ok r.1 := by
  simp only [grow, allocateEntries]
  split
  · refine Or.inr ?_
    rw [pure_bind]
    unfold doubled
    cases rehash (homeOf mix) 0 fuel S.entries _ <;> rfl
  · exact Or.inl rfl

theorem CacheCall.Returns.cases (h : c.Inv mix) (hk : call.key ≠ 0) (hr : call.Returns mix c c') :
    CacheStored mix call c c' := by
  obtain ⟨fuel, r, hr⟩ := hr
  obtain ⟨hS, hP⟩ := h.slots
  simp only [CacheCall.run, CpuPrivateCodeCache.store] at hr
  rcases c.ensureEntries_cases call.room with he | he
  · rw [he] at hr; cases hr
  rw [he] at hr
  simp only [bind, Except.bind, CpuPrivateCodeCache.insert] at hr
  cases hi : insertSlots (homeOf mix) 0 fuel c.slots call.key call.value
      (decide (call.policy = .overwritePrevEntry)) with
  | none => rw [hi] at hr; cases hr
  | some q =>
    obtain ⟨S₁, st, scan⟩ := q
    have hI := insertSlots_cases hS hP hk hi
    have hfull := insertSlots_full hS hi (Nat.le_refl _)
    rw [hi] at hr
    simp only [h.1, and_true] at hr
    by_cases hscan : maxScan < scan
    · rw [if_pos hscan] at hr
      rcases CpuPrivateCodeCache.grow_cases fuel call.room' S₁ with hg | hg
      · rw [hg] at hr; cases hr
      · rw [hg] at hr
        cases hre : rehash (homeOf mix) 0 fuel S₁.entries (doubled S₁) with
        | none => rw [hre] at hr; cases hr
        | some q =>
          obtain ⟨S', scans⟩ := q
          have hre' := rehash_full (doubled_isRing (hI.isRing hS)) (Placed.replicate _ _ _) hre (Nat.le_refl _)
          rw [hre] at hr
          cases hr
          rw [← h.1]
          exact .grew hfull hscan hre'
    · rw [if_neg hscan] at hr
      cases hr
      rw [← h.1]
      exact .kept hfull (by omega)

/-! ## Distances -/

def Near (mix : UInt64 → UInt64) (S : SlotArray AppPc AppPc) : Prop :=
  ∀ q ≠ 0, ∀ v, S.lookup q = some v →
    ∃ i d, probe 0 q S (S.mask + 1) (homeOf mix q) 0 = some (i, d) ∧ d < maxScan

theorem near_inserted_iff {key value : AppPc} {scan : Nat} {st : HashStoreState} (hS : S.IsRing)
    (hP : Placed (homeOf mix) 0 S) (hk : key ≠ 0) (hN : Near mix S)
    (hI : Inserted (homeOf mix) 0 (S.mask + 1) S key value update scan S' st) : Near mix S' ↔ scan < maxScan := by
  have hlk : ∃ w, S'.lookup key = some w := by
    rw [hI.lookup_key hS hP hk]
    split
    · exact ⟨_, rfl⟩
    · split <;> exact ⟨_, rfl⟩
  obtain ⟨w, hw⟩ := hlk
  obtain ⟨i, hi⟩ := hI.probe_key hS hP hk
  constructor
  · intro hN'
    obtain ⟨j, d, hp, hd⟩ := hN' key hk w hw
    rw [hI.mask_eq, hi] at hp
    cases hp
    exact hd
  · intro hscan q hq v hv
    by_cases hqk : q = key
    · subst hqk
      exact ⟨i, scan, by rw [hI.mask_eq, hi], hscan⟩
    · rw [hI.lookup_of_ne hS hP hk hq hqk] at hv
      obtain ⟨j, d, hp, hd⟩ := hN q hq v hv
      exact ⟨j, d, by rw [hI.mask_eq, hI.probe_of_ne hS hP hk hq hqk hv, hp], hd⟩

theorem near_rehashed_iff {m : Nat} {scans : List Nat} (hS : S.IsRing) (hP : Placed (homeOf mix) 0 S)
    (hl : ∀ q ≠ 0, S'.lookup q = S.lookup q)
    (hR : Rehashed (homeOf mix) 0 (m + 1) S.entries (SlotArray.replicate m ⟨0, 0⟩) S' scans) :
    Near mix S' ↔ ∀ s ∈ scans, s < maxScan := by
  have hmask : S'.mask = m := hR.mask_eq
  have hscans := hR.scans_eq
  constructor
  · intro hN s hs
    have hs' : some s ∈ scans.map some := List.mem_map_of_mem hs
    rw [← hscans, List.mem_map] at hs'
    obtain ⟨x, hx, hxs⟩ := hs'
    obtain ⟨hx, hxk⟩ := List.mem_filter.mp hx
    have hxk : x.key ≠ 0 := by simpa using hxk
    obtain ⟨i, hi⟩ := hS.mem_iff.mp hx
    have hv : S'.lookup x.key = some x.value := by
      rw [hl _ hxk, hP.lookup_eq_some_iff hS hxk]
      exact ⟨i, hi⟩
    obtain ⟨j, d, hp, hd⟩ := hN x.key hxk x.value hv
    rw [hmask] at hp
    rw [hp] at hxs
    cases hxs
    exact hd
  · intro hs q hq v hv
    rw [hl q hq, hP.lookup_eq_some_iff hS hq] at hv
    obtain ⟨i, hi⟩ := hv
    have hmem : (⟨q, v⟩ : Entry AppPc AppPc) ∈ S.entries.filter (fun x => decide (x.key ≠ 0)) := by
      rw [List.mem_filter]
      exact ⟨hS.mem_iff.mpr ⟨i, hi⟩, by simpa using hq⟩
    have hp := List.mem_map_of_mem (f := fun x => (probe 0 x.key S' (m + 1) (homeOf mix x.key) 0).map Prod.snd) hmem
    rw [hscans, List.mem_map] at hp
    obtain ⟨d, hd, hp⟩ := hp
    obtain ⟨r, hr, rfl⟩ := Option.map_eq_some_iff.mp hp.symm
    exact ⟨r.1, r.2, by rw [hmask, hr], hs _ hd⟩

/-! ## One store -/

structure StoredIn (mix : UInt64 → UInt64) (call : CacheCall) (c c' : CpuPrivateCodeCache) : Prop where
  inv : c'.Inv mix
  entries_isSome : c'.entries.isSome
  lookup_key : c'.lookup call.key = match c.lookup call.key with
    | none => some call.value
    | some w => if call.policy = .overwritePrevEntry then some call.value else some w
  lookup_of_ne : ∀ q ≠ 0, q ≠ call.key → c'.lookup q = c.lookup q
  near_iff : call.policy = .overwritePrevEntry → Near mix c.slots → (Near mix c'.slots ↔ call.LandsNear mix c)

theorem CacheCall.Returns.storedIn (h : c.Inv mix) (hk : call.key ≠ 0) (hr : call.Returns mix c c') :
    StoredIn mix call c c' := by
  obtain ⟨hS, hP⟩ := h.slots
  have hslots : ∀ T : SlotArray AppPc AppPc, ({ c with entries := some T } : CpuPrivateCodeCache).slots = T :=
    fun _ => rfl
  cases hr.cases h hk with
  | @kept S' st scan hi hscan =>
    have hI := insertSlots_cases hS hP hk hi
    refine ⟨⟨h.1, ?_⟩, rfl, ?_, ?_, ?_⟩
    · rintro T ⟨⟩
      exact ⟨hI.isRing hS, hI.placed hS hP hk⟩
    · rw [← CpuPrivateCodeCache.slots_lookup hk, ← CpuPrivateCodeCache.slots_lookup hk, hslots,
        hI.lookup_key hS hP hk]
      cases c.slots.lookup call.key <;> simp
    · intro q hq hqk
      rw [← CpuPrivateCodeCache.slots_lookup hq, ← CpuPrivateCodeCache.slots_lookup hq, hslots,
        hI.lookup_of_ne hS hP hk hq hqk]
    · intro hpol hN
      rw [hslots, near_inserted_iff hS hP hk hN hI, CacheCall.LandsNear]
      rw [hpol, decide_eq_true rfl] at hi
      rw [hi]
      constructor
      · exact Or.inl
      · rintro (hlt | ⟨hlt, _⟩)
        · exact hlt
        · omega
  | @grew S₁ S' st scan scans hi hscan hre =>
    have hI := insertSlots_cases hS hP hk hi
    have hS₁ := hI.isRing hS
    have hP₁ := hI.placed hS hP hk
    obtain ⟨T, scans', hre', hR, hTr, hl⟩ := rehash_doubled hS₁ hP₁
    rw [hre] at hre'
    cases hre'
    refine ⟨⟨h.1, ?_⟩, rfl, ?_, ?_, ?_⟩
    · rintro U ⟨⟩
      exact ⟨hTr, hR.placed⟩
    · rw [← CpuPrivateCodeCache.slots_lookup hk, ← CpuPrivateCodeCache.slots_lookup hk, hslots, hl _ hk,
        hI.lookup_key hS hP hk]
      cases c.slots.lookup call.key <;> simp
    · intro q hq hqk
      rw [← CpuPrivateCodeCache.slots_lookup hq, ← CpuPrivateCodeCache.slots_lookup hq, hslots, hl _ hq,
        hI.lookup_of_ne hS hP hk hq hqk]
    · intro hpol _
      rw [hpol, decide_eq_true rfl] at hi
      rw [hslots, near_rehashed_iff hS₁ hP₁ hl hR, CacheCall.LandsNear, hi]
      simp only [transferScans, hre]
      constructor
      · exact fun hs => Or.inr ⟨hscan, hs⟩
      · rintro (hlt | ⟨_, hs⟩)
        · omega
        · exact hs

/-! ## `find` -/

theorem CpuPrivateCodeCache.find_eq (c : CpuPrivateCodeCache) (q : AppPc) : c.find mix q = findSlots mix c.slots q := by
  cases he : c.entries with
  | none =>
    simp only [find, he, CpuPrivateCodeCache.slots, Option.getD_none, findSlots, SlotArray.slot_replicate,
      ↓reduceIte]
    split <;> rfl
  | some S => simp only [find, he, CpuPrivateCodeCache.slots, Option.getD_some]

theorem CpuPrivateCodeCache.find_zero (h : c.Inv mix) : c.find mix 0 = 0 := by
  rw [find_eq, findSlots]
  split
  · rfl
  · rename_i i d hp
    rw [if_pos]
    exact or_self_iff.mp (probe_stop h.slots.1 hp)

theorem CpuPrivateCodeCache.find_of_lookup_eq_none (h : c.Inv mix) (hq : q ≠ 0)
    (hl : c.slots.lookup q = none) : c.find mix q = 0 := by
  rw [find_eq, findSlots]
  split
  · rfl
  · rename_i i d hp
    rw [h.slots.2.lookup_of_probe h.slots.1 hq hp] at hl
    split
    · rfl
    · rename_i hn
      rw [if_neg hn] at hl
      cases hl

theorem CpuPrivateCodeCache.find_of_lookup (h : c.Inv mix) (hq : q ≠ 0) (hv : v ≠ 0) (hl : c.slots.lookup q = some v) :
    c.find mix q = v ↔ ∃ i d, probe 0 q c.slots (c.slots.mask + 1) (homeOf mix q) 0 = some (i, d) ∧ d < maxScan := by
  obtain ⟨hS, hP⟩ := h.slots
  obtain ⟨j, hj⟩ := (hP.lookup_eq_some_iff hS hq).mp hl
  have hjk : (c.slots.slot j).key = q := by rw [hj]
  obtain ⟨d, hd⟩ := hP.probe_of_slot hS (by rw [hjk]; exact hq) 0
  rw [hjk, Nat.zero_add] at hd
  obtain ⟨d', _, _, hs, hstop, hfirst⟩ := probe_eq_some hS hd
  rw [Nat.zero_add] at hs
  subst hs
  rw [find_eq, findSlots]
  constructor
  · intro hf
    refine ⟨_, _, hd, ?_⟩
    by_contra hge
    rw [(probe_eq_none_iff hS).mpr fun e he => hfirst e (by omega)] at hf
    exact hv hf.symm
  · rintro ⟨i, e, he, hlt⟩
    rw [hd] at he
    cases he
    rw [probe_of_first hS hlt hstop hfirst]
    have hjv : (c.slots.slot ((homeOf mix q + d) &&& c.slots.mask)) = ⟨q, v⟩ := by
      have := hP.lookup_of_probe hS hq (probe_of_first hS hlt hstop hfirst)
      rw [hl] at this
      rcases probe_stop hS (probe_of_first hS hlt hstop hfirst) with hn | hn
      · rw [if_pos hn] at this
        cases this
      · rw [if_neg (by rw [hn]; exact hq), Option.some.injEq] at this
        cases hx : c.slots.slot ((homeOf mix q + d) &&& c.slots.mask)
        simp only [hx] at hn this
        rw [hn, this]
    simp only [hjv, if_neg hq]

/-! ## Runs -/

structure CacheRun.Spec (mix : UInt64 → UInt64) (calls : List CacheCall) (c : CpuPrivateCodeCache) : Prop where
  inv : c.Inv mix
  lookup_eq : (∀ call ∈ calls, call.policy = .overwritePrevEntry) → ∀ q ≠ 0, c.lookup q = lastStored calls q

theorem lastStored_snoc : lastStored (calls ++ [call]) q = if call.key = q then some call.value else lastStored calls q := by
  simp only [lastStored, List.reverse_append, List.reverse_singleton, List.singleton_append, List.find?_cons]
  by_cases h : call.key = q
  · simp [h]
  · simp [h]

theorem CpuPrivateCodeCache.init_inv : CpuPrivateCodeCache.init.Inv mix := ⟨rfl, fun _ h => by cases h⟩

theorem CacheRun.spec (h : CacheRun mix calls c) (hk : ∀ call ∈ calls, call.key ≠ 0) : CacheRun.Spec mix calls c := by
  induction h with
  | nil => exact ⟨CpuPrivateCodeCache.init_inv, fun _ _ _ => rfl⟩
  | @snoc calls c c' call _ hret ih =>
    have ih := ih fun d hd => hk d (List.mem_append_left _ hd)
    have hst := hret.storedIn ih.inv (hk call (by simp))
    refine ⟨hst.inv, fun hpol q hq => ?_⟩
    rw [lastStored_snoc]
    by_cases hqk : call.key = q
    · subst hqk
      rw [if_pos rfl, hst.lookup_key, hpol call (by simp)]
      cases c.lookup call.key <;> simp
    · rw [if_neg hqk, hst.lookup_of_ne q hq (fun he => hqk he.symm)]
      exact ih.lookup_eq (fun d hd => hpol d (List.mem_append_left _ hd)) q hq

theorem CacheCall.Returns.det (h : c.Inv mix) (hk : call.key ≠ 0)
    (h₁ : call.Returns mix c c₁) (h₂ : call.Returns mix c c₂) : c₁ = c₂ := by
  cases h₁.cases h hk with
  | kept hi₁ hscan₁ =>
    cases h₂.cases h hk with
    | kept hi₂ _ => rw [hi₁] at hi₂; cases hi₂; rfl
    | grew hi₂ hscan₂ _ => rw [hi₁] at hi₂; cases hi₂; omega
  | grew hi₁ hscan₁ hre₁ =>
    cases h₂.cases h hk with
    | kept hi₂ hscan₂ => rw [hi₁] at hi₂; cases hi₂; omega
    | grew hi₂ _ hre₂ => rw [hi₁] at hi₂; cases hi₂; rw [hre₁] at hre₂; cases hre₂; rfl

theorem CacheRun.snoc_inv (h : CacheRun mix (calls ++ [call]) c') : ∃ c, CacheRun mix calls c ∧ call.Returns mix c c' := by
  generalize hl : calls ++ [call] = l at h
  cases h with
  | nil => simp at hl
  | snoc call' hrun hret =>
    obtain ⟨rfl, hcall⟩ := List.append_inj' hl rfl
    cases hcall
    exact ⟨_, hrun, hret⟩

theorem CacheRun.of_prefix (h : CacheRun mix calls c) (hp : calls' <+: calls) : ∃ c', CacheRun mix calls' c' := by
  induction h with
  | nil =>
    cases List.prefix_nil.mp hp
    exact ⟨_, CacheRun.nil⟩
  | snoc call hrun hret ih =>
    rcases List.prefix_concat_iff.mp hp with rfl | hp
    · exact ⟨_, .snoc call hrun hret⟩
    · exact ih hp

theorem CacheRun.det (h₁ : CacheRun mix calls c₁)
    (h₂ : CacheRun mix calls c₂) (hk : ∀ call ∈ calls, call.key ≠ 0) : c₁ = c₂ := by
  induction h₁ generalizing c₂ with
  | nil =>
    generalize hl : ([] : List CacheCall) = l at h₂
    cases h₂ with
    | nil => rfl
    | snoc => simp at hl
  | @snoc calls _ _ call hrun hret ih =>
    obtain ⟨c', hrun', hret'⟩ := h₂.snoc_inv
    have hk' : ∀ d ∈ calls, d.key ≠ 0 := fun d hd => hk d (List.mem_append_left _ hd)
    cases ih hrun' hk'
    exact hret.det (hrun.spec hk').inv (hk call (by simp)) hret'

theorem CacheRun.of_runCalls (h : CacheRun mix calls c)
    (hr : runCalls mix fuel calls' c = .ok c') : CacheRun mix (calls ++ calls') c' := by
  induction calls' generalizing calls c with
  | nil =>
    cases hr
    simpa using h
  | cons call calls' ih =>
    simp only [runCalls, bind, Except.bind] at hr
    split at hr
    · cases hr
    · rename_i r hrun
      have := ih (h.snoc call ⟨fuel, r.2, hrun⟩) hr
      simpa using this

theorem CacheRun.exists_of_runCalls {p : CpuPrivateCodeCache → Bool}
    (h : (runCalls mix fuel calls .init).toOption.any p = true) : ∃ c, CacheRun mix calls c ∧ p c = true := by
  cases hr : runCalls mix fuel calls .init with
  | error e => rw [hr] at h; cases h
  | ok c =>
    rw [hr] at h
    exact ⟨c, CacheRun.of_runCalls .nil hr, h⟩

theorem refines_iff_near (h : CacheRun.Spec mix calls c) (hpol : ∀ call ∈ calls, call.policy = .overwritePrevEntry)
    (hnn : ∀ call ∈ calls, call.key ≠ 0 ∧ call.value ≠ 0) : c.Refines mix calls ↔ Near mix c.slots := by
  have hlast : ∀ q v, lastStored calls q = some v → v ≠ 0 ∧ q ≠ 0 := by
    intro q v hv
    obtain ⟨d, hd, rfl⟩ := Option.map_eq_some_iff.mp hv
    have hmem := List.mem_reverse.mp (List.mem_of_find?_eq_some hd)
    have hdq : d.key = q := by simpa using List.find?_some hd
    exact ⟨(hnn d hmem).2, hdq ▸ (hnn d hmem).1⟩
  constructor
  · intro href q hq v hv
    have hl : lastStored calls q = some v := by
      rw [← h.lookup_eq hpol q hq, ← CpuPrivateCodeCache.slots_lookup hq, hv]
    refine (CpuPrivateCodeCache.find_of_lookup h.inv hq (hlast q v hl).1 hv).mp ?_
    have := href q
    rw [hl] at this
    exact congrArg Prod.fst this
  · intro hN q
    cases hl : lastStored calls q with
    | none =>
      have hf : c.find mix q = 0 := by
        by_cases hq : q = 0
        · subst hq
          exact CpuPrivateCodeCache.find_zero h.inv
        · apply CpuPrivateCodeCache.find_of_lookup_eq_none h.inv hq
          rw [CpuPrivateCodeCache.slots_lookup hq, h.lookup_eq hpol q hq, hl]
      simp [CpuPrivateCodeCache.load, hf]
    | some v =>
      obtain ⟨hv, hq⟩ := hlast q v hl
      have hsl : c.slots.lookup q = some v := by
        rw [CpuPrivateCodeCache.slots_lookup hq, h.lookup_eq hpol q hq, hl]
      have hf := (CpuPrivateCodeCache.find_of_lookup h.inv hq hv hsl).mpr (hN q hq v hsl)
      simp [CpuPrivateCodeCache.load, hf, hv.symm]

theorem CacheRun.exists_load (room : HeapRoom)
    (hroom : room.serves (16 * minDefaultEntries % 2 ^ 32) = true) {k : AppPc} (hk : k ≠ 0) (hv : v ≠ 0) :
    ∃ calls c, CacheRun mix calls c ∧ (∀ call ∈ calls, call.key ≠ 0) ∧ c.load mix k = (v, true) := by
  let call : CacheCall := { key := k, value := v, policy := .overwritePrevEntry, room, room' := room }
  let empty : SlotArray AppPc AppPc := SlotArray.replicate (minDefaultEntries - 1) ⟨0, 0⟩
  let stored := empty.put (homeOf mix k &&& empty.mask) ⟨k, v⟩
  have hinsert : ∀ fuel, insertSlots (homeOf mix) 0 (fuel + 1) empty k v true = some (stored, .storedNew, 0) := by
    intro fuel
    have hstop : Stops 0 k (empty.slot (homeOf mix k)) := .inl (by rw [SlotArray.slot_replicate])
    simp only [insertSlots, probe, if_pos hstop]
    rw [if_pos (by rw [SlotArray.slot_replicate])]
  have hstore : CpuPrivateCodeCache.insert mix 1 room empty false k v true = .ok (stored, .storedNew) := by
    simp only [CpuPrivateCodeCache.insert, hinsert 0]
    rfl
  have hret : call.Returns mix .init { entries := some stored, growing := false } := by
    refine ⟨1, true, ?_⟩
    simp only [CacheCall.run, CpuPrivateCodeCache.store, CpuPrivateCodeCache.ensureEntries, CpuPrivateCodeCache.init,
      CpuPrivateCodeCache.allocateEntries, call, hroom, ↓reduceIte, pure_bind, decide_true]
    exact congrArg (· >>= _) hstore
  have hrun : CacheRun mix [call] { entries := some stored, growing := false } := .snoc call .nil hret
  have hkeys : ∀ d ∈ [call], d.key ≠ 0 := by simpa [call] using hk
  have hempty : Near mix CpuPrivateCodeCache.init.slots := fun q hq w hw => by
    rw [CpuPrivateCodeCache.slots_lookup hq] at hw
    cases hw
  have hlands : call.LandsNear mix .init := by
    have hslots : insertSlots (homeOf mix) 0 (CpuPrivateCodeCache.init.slots.mask + 1) CpuPrivateCodeCache.init.slots k v
        true = some (stored, .storedNew, 0) := hinsert _
    simp only [CacheCall.LandsNear, call, hslots]
    exact .inl (by decide)
  have hnear := ((hret.storedIn CpuPrivateCodeCache.init_inv hk).near_iff rfl hempty).mpr hlands
  have href := (refines_iff_near (hrun.spec hkeys) (by simp [call]) (by simpa [call] using ⟨hk, hv⟩)).mpr hnear k
  exact ⟨[call], _, hrun, hkeys, href.trans (by simp [lastStored, call])⟩

/-! ## Termination -/

theorem insertSlots_terminates_iff (hS : S.IsRing) (key value : AppPc) (update : Bool) :
    (∃ fuel r, insertSlots (homeOf mix) 0 fuel S key value update = some r) ↔ ∃ i, Stops 0 key (S.slot i) := by
  constructor
  · rintro ⟨fuel, r, hr⟩
    cases hp : probe 0 key S fuel (homeOf mix key) 0 with
    | none => simp [insertSlots, hp] at hr
    | some p => exact ⟨p.1, probe_stop hS hp⟩
  · rintro ⟨i, hi⟩
    cases hp : probe 0 key S (S.mask + 1) (homeOf mix key) 0 with
    | none =>
      obtain ⟨d, hd, hdi⟩ := hS.exists_step (homeOf mix key) i
      refine absurd ?_ ((probe_eq_none_iff hS).mp hp d hd)
      rwa [SlotArray.slot_congr hdi]
    | some p =>
      obtain ⟨S', st, h⟩ := insertSlots_isSome value update hp
      exact ⟨_, _, h⟩

theorem CacheCall.terminates_iff (h : c.Inv mix) (hk : call.key ≠ 0) :
    call.Terminates mix c ↔ (c.entries = none ∨ ∃ i, Stops 0 call.key (c.slots.slot i)) := by
  obtain ⟨hS, hP⟩ := h.slots
  constructor
  · rintro ⟨fuel, hrun⟩
    by_contra hno
    push Not at hno
    obtain ⟨S, hSe⟩ := Option.ne_none_iff_exists'.mp hno.1
    have hens : c.ensureEntries call.room = .ok c.slots := by
      simp only [CpuPrivateCodeCache.ensureEntries, CpuPrivateCodeCache.slots, hSe, Option.getD_some]
      rfl
    apply hrun
    have hins : insertSlots (homeOf mix) 0 fuel c.slots call.key call.value
        (decide (call.policy = .overwritePrevEntry)) = none := by
      rw [Option.eq_none_iff_forall_ne_some]
      intro r hr
      obtain ⟨i, hi⟩ := (insertSlots_terminates_iff hS _ _ _).mp ⟨fuel, r, hr⟩
      exact hno.2 i hi
    simp only [CacheCall.run, CpuPrivateCodeCache.store, hens, bind, Except.bind, CpuPrivateCodeCache.insert, hins]
    rfl
  · intro hroom
    have hstop : ∃ i, Stops 0 call.key (c.slots.slot i) := by
      rcases hroom with hn | hs
      · exact ⟨0, Or.inl (by simp [CpuPrivateCodeCache.slots, hn])⟩
      · exact hs
    obtain ⟨fuel, ⟨S₁, st, scan⟩, hi⟩ :=
      (insertSlots_terminates_iff hS _ call.value (decide (call.policy = .overwritePrevEntry))).mpr hstop
    have hI := insertSlots_cases hS hP hk hi
    obtain ⟨S', scans, hre, _⟩ := rehash_doubled (hI.isRing hS) (hI.placed hS hP hk)
    -- enough for the transfer, so enough for the first insertion
    refine ⟨(doubled S₁).mask + 1, ?_⟩
    have hle : c.slots.mask + 1 ≤ (doubled S₁).mask + 1 := by
      simp only [doubled, SlotArray.replicate_mask, Nat.shiftLeft_eq, hI.mask_eq]
      omega
    have hfull := insertSlots_full hS hi hle
    simp only [CacheCall.run, CpuPrivateCodeCache.store]
    rcases c.ensureEntries_cases call.room with he | he
    · rw [he]; simp [bind, Except.bind]
    · rw [he]
      simp only [bind, Except.bind, CpuPrivateCodeCache.insert, hfull]
      by_cases hgrow : maxScan < scan ∧ c.growing = false
      · rw [if_pos hgrow]
        rcases CpuPrivateCodeCache.grow_cases ((doubled S₁).mask + 1) call.room' S₁ with hg | hg
        · rw [hg]; simp
        · rw [hg, hre]; simp [pure, Except.pure]
      · rw [if_neg hgrow]; simp [pure, Except.pure]

end Granary
