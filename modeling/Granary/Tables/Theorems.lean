import Granary.Tables.Lemmas.CodeCache
import Granary.Tables.Lemmas.HashTable
import Granary.Tables.Lemmas.IdSet

/-!
# What the hash tables guarantee
-/

namespace Granary

open Probing Memory

def wholeHeap : HeapRoom :=
  { serves := fun size => decide (allocationSize size < heapSize), bounded := fun _ h => of_decide_eq_true h }

/-! ## `hash_table` -/

section HashTable

variable {K V : Type} [DecidableEq K] [Inhabited V]

/-- The table is the finite map, and a `hash_set` the finite set, of the calls made on it. The only call that does not return
is one that faults because the heap cannot serve the slots it asks for. -/
theorem hashTable_refines_map :
    (∀ (M : HashTableMeta K V) (room : HeapRoom) (calls : List (StoreCall K V)),
      (∀ c ∈ calls, c.key ≠ M.defaultKey) →
      match HashTable.run M room calls with
      | .error e => e = .fault
      | .ok (t, results) =>
        results = specResults calls (fun _ => none) ∧
        (∀ q, q ≠ M.defaultKey → t.find M q = .ok ((specStores calls (fun _ => none) q).getD default)) ∧
        ((t.forEachEntry M).map Prod.fst).Nodup ∧
        ∀ q v, (q, v) ∈ t.forEachEntry M ↔ specStores calls (fun _ => none) q = some v) ∧
    ∀ (M : HashTableMeta K Bool) (room : HeapRoom) (ops : List (SetOp K × HeapRoom × HeapRoom)),
      (∀ o ∈ ops, o.1.key ≠ M.defaultKey) →
      match HashSet.run M room ops with
      | .error e => e = .fault
      | .ok t => ∀ q, q ≠ M.defaultKey → HashSet.contains M t q = .ok (decide (q ∈ specSet (ops.map Prod.fst) ∅)) := by
  constructor
  · intro M room calls hk
    rcases HashTable.run_cases room hk with he | ⟨t, he, h, hl⟩
    · rw [he]
    · rw [he]
      refine ⟨rfl, fun q hq => ?_, HashTable.forEachEntry_nodup h, fun q v => ?_⟩
      · rw [HashTable.find_eq h hq, hl q hq]
      · rw [HashTable.mem_forEachEntry h]
        by_cases hq : q = M.defaultKey
        · simp [hq, specStores_nil hk]
        · simp [hq, hl q hq]
  · intro M room ops hk
    have hk' : ∀ c ∈ ops.map (fun o => o.1.toStore o.2.1 o.2.2), c.key ≠ M.defaultKey := by
      intro c hc
      obtain ⟨⟨op, room, room'⟩, ho, rfl⟩ := List.mem_map.mp hc
      have := hk _ ho
      cases op <;> exact this
    simp only [HashSet.run]
    rcases HashTable.run_cases room hk' with he | ⟨t, he, h, hl⟩
    · rw [he]; rfl
    · rw [he]
      intro q hq
      rw [HashSet.contains, HashTable.find_eq h hq, hl q hq]
      congr 1
      exact specStores_set ops _ _ (by simp) q

/-- Keys that all hash to the last slot of the first table. -/
def collidingMeta : HashTableMeta Nat Nat :=
  { hash := fun _ => 15
    defaultKey := 0
    sizeofEntry := 16
    sizeofSlots := 24
    two_le_entry := by decide
    entry_lt_slots := by decide
    slots_lt := by decide }

def collidingCalls : List (StoreCall Nat Nat) :=
  [⟨1, 10, .overwritePrevEntry, wholeHeap, wholeHeap⟩, ⟨2, 20, .keepPrevEntry, wholeHeap, wholeHeap⟩,
    ⟨1, 11, .keepPrevEntry, wholeHeap, wholeHeap⟩, ⟨2, 21, .overwritePrevEntry, wholeHeap, wholeHeap⟩]

theorem hashTable_refines_map_colliding :
    (HashTable.run collidingMeta wholeHeap collidingCalls).toOption.map Prod.snd = some [true, true, false, true] ∧
    (match HashTable.run collidingMeta wholeHeap collidingCalls with
      | .error e => e = .fault
      | .ok (t, _) => ∀ q, q ≠ 0 →
          t.find collidingMeta q = .ok ((specStores collidingCalls (fun _ => none) q).getD default)) := by
  refine ⟨by decide +kernel, ?_⟩
  have h := hashTable_refines_map.1 collidingMeta wholeHeap collidingCalls (by decide)
  split
  · rename_i e he
    rw [he] at h
    exact h
  · rename_i t results he
    rw [he] at h
    exact h.2.1

/-- Between calls, `num_entries` counts the occupied slots, there are `2 ^ scaling_factor` slots of which one is free, and
`scaling_factor` is an index of `HASH_TABLE_MAX_SIZES`: the heap faults before the table outgrows it. -/
theorem hashTable_size_invariant (M : HashTableMeta K V) (room : HeapRoom) (calls : List (StoreCall K V))
    (hk : ∀ c ∈ calls, c.key ≠ M.defaultKey) :
    match HashTable.run M room calls with
    | .error e => e = .fault
    | .ok (t, _) =>
      t.numEntries = t.entrySlots.occupied M.defaultKey ∧
      t.entrySlots.mask + 1 = 2 ^ t.scalingFactor ∧
      t.numEntries < t.entrySlots.mask + 1 ∧
      t.scalingFactor < hashTableMaxSizes.length := by
  rcases HashTable.run_cases room hk with he | ⟨t, he, h, _⟩
  · rw [he]
  · rw [he]
    have hlt := h.lt_27
    have hlen : hashTableMaxSizes.length = 32 := by decide
    exact ⟨h.count, h.size_eq, h.numEntries_lt, by omega⟩

theorem hashTable_size_invariant_colliding : (∀ c ∈ collidingCalls, c.key ≠ collidingMeta.defaultKey) ∧
    match HashTable.run collidingMeta wholeHeap collidingCalls with
    | .error e => e = .fault
    | .ok (t, _) =>
      t.numEntries = t.entrySlots.occupied 0 ∧ t.entrySlots.mask + 1 = 2 ^ t.scalingFactor ∧
      t.numEntries < t.entrySlots.mask + 1 ∧ t.scalingFactor < hashTableMaxSizes.length :=
  ⟨by decide, hashTable_size_invariant collidingMeta wholeHeap collidingCalls (by decide)⟩

end HashTable

/-! ## `cpu_private_code_cache` -/

/-- The cache answers like the map of the calls after each of them, exactly when each of them lands near. -/
theorem codeCache_refines_map_iff (mix : UInt64 → UInt64) (calls : List CacheCall) (c : CpuPrivateCodeCache)
    (hrun : CacheRun mix calls c) (hpol : ∀ call ∈ calls, call.policy = .overwritePrevEntry)
    (hnn : ∀ call ∈ calls, call.key ≠ 0 ∧ call.value ≠ 0) :
    (∀ calls' c', calls' <+: calls → CacheRun mix calls' c' → c'.Refines mix calls') ↔
      ∀ calls' c' call, calls' ++ [call] <+: calls → CacheRun mix calls' c' → call.LandsNear mix c' := by
  -- what is known of a prefix of the calls
  have hspec : ∀ {calls' c'}, calls' <+: calls → CacheRun mix calls' c' →
      CacheRun.Spec mix calls' c' ∧ (c'.Refines mix calls' ↔ Near mix c'.slots) := by
    intro calls' c' hp hr
    have hs := hr.spec fun d hd => (hnn d (hp.subset hd)).1
    exact ⟨hs, refines_iff_near hs (fun d hd => hpol d (hp.subset hd)) fun d hd => hnn d (hp.subset hd)⟩
  constructor
  · intro href calls' c' call hp hr
    obtain ⟨c₂, hr₂⟩ := hrun.of_prefix hp
    obtain ⟨c₁, hr₁, hret⟩ := hr₂.snoc_inv
    have hp' : calls' <+: calls := (List.prefix_append _ _).trans hp
    have hmem : call ∈ calls := hp.subset (by simp)
    cases hr₁.det hr fun d hd => (hnn d (hp'.subset hd)).1
    have hst := hret.storedIn (hspec hp' hr).1.inv (hnn call hmem).1
    have hN := (hspec hp' hr).2.mp (href _ _ hp' hr)
    exact (hst.near_iff (hpol call hmem) hN).mp ((hspec hp hr₂).2.mp (href _ _ hp hr₂))
  · intro hnear calls' c' hp hr
    induction hr with
    | nil =>
      refine (hspec hp .nil).2.mpr ?_
      intro q hq v hv
      rw [CpuPrivateCodeCache.slots_lookup hq] at hv
      cases hv
    | snoc call hr hret ih =>
      have hp' := (List.prefix_append _ _).trans hp
      have hmem : call ∈ calls := hp.subset (by simp)
      have hst := hret.storedIn (hspec hp' hr).1.inv (hnn call hmem).1
      have hN := (hspec hp' hr).2.mp (ih hp')
      exact (hspec hp (.snoc call hr hret)).2.mpr
        ((hst.near_iff (hpol call hmem) hN).mpr (hnear _ _ call hp hr))

/-- Store these keys, each with the value `key + 1`. -/
def storeKeys (keys : List AppPc) : List CacheCall :=
  keys.map fun k =>
    { key := k, value := k + 1, policy := .overwritePrevEntry, room := wholeHeap, room' := wholeHeap }

def crowdedKeys : List AppPc := [64, 65, 87, 91, 119, 136, 151, 284, 314]

/-- The ninth key is stored eight slots from its home, where `find` does not look. -/
theorem codeCache_loses_ninth_key : (∀ call ∈ storeKeys crowdedKeys, call.key ≠ 0 ∧ call.value ≠ 0) ∧
    ∃ c, CacheRun fmix (storeKeys crowdedKeys) c ∧
      lastStored (storeKeys crowdedKeys) 314 = some 315 ∧ c.load fmix 314 = (0, false) := by
  have hload : (runCalls fmix 128 (storeKeys crowdedKeys) .init).toOption.any
      (fun c => c.load fmix 314 = (0, false)) = true := by decide +kernel
  obtain ⟨c, hrun, hc⟩ := CacheRun.exists_of_runCalls hload
  exact ⟨by decide, c, hrun, by decide, of_decide_eq_true hc⟩

theorem exists_crowded : ∃ c, CacheRun fmix (storeKeys crowdedKeys) c := by
  have hok : (runCalls fmix 128 (storeKeys crowdedKeys) .init).toOption.any (fun _ => true) = true := by
    decide +kernel
  obtain ⟨c, hrun, _⟩ := CacheRun.exists_of_runCalls hok
  exact ⟨c, hrun⟩

theorem codeCache_refines_map_iff_crowded :
    ∃ c, CacheRun fmix (storeKeys crowdedKeys) c ∧
      ((∀ calls' c', calls' <+: storeKeys crowdedKeys → CacheRun fmix calls' c' → c'.Refines fmix calls') ↔
        ∀ calls' c' call, calls' ++ [call] <+: storeKeys crowdedKeys → CacheRun fmix calls' c' →
          call.LandsNear fmix c') := by
  obtain ⟨c, hrun⟩ := exists_crowded
  exact ⟨c, hrun, codeCache_refines_map_iff fmix _ c hrun (by decide) (by decide)⟩

/-- A store ends exactly when it allocates the table, or finds a slot that is free or already holds the key. -/
theorem codeCache_store_terminates_iff (mix : UInt64 → UInt64) (calls : List CacheCall) (c : CpuPrivateCodeCache)
    (hrun : CacheRun mix calls c) (hk : ∀ call ∈ calls, call.key ≠ 0) (call : CacheCall) (hc : call.key ≠ 0) :
    call.Terminates mix c ↔
      (c.entries = none ∨ ∃ S, c.entries = some S ∧ ∃ x ∈ S.entries, x.key = 0 ∨ x.key = call.key) := by
  have hinv := (hrun.spec hk).inv
  rw [CacheCall.terminates_iff hinv hc]
  cases he : c.entries with
  | none => simp
  | some S =>
    have hslots : c.slots = S := by simp [CpuPrivateCodeCache.slots, he]
    have hS : S.IsRing := (hinv.2 S he).1
    simp only [reduceCtorEq, false_or, Option.some.injEq, exists_eq_left', hslots]
    constructor
    · rintro ⟨i, hi⟩
      exact ⟨_, SlotArray.slot_mem i, hi⟩
    · rintro ⟨x, hx, hstop⟩
      obtain ⟨i, rfl⟩ := hS.mem_iff.mp hx
      exact ⟨i, hstop⟩

theorem codeCache_store_terminates_iff_crowded :
    ∃ c, CacheRun fmix (storeKeys crowdedKeys) c ∧ ∀ call : CacheCall, call.key = 5 →
      (call.Terminates fmix c ↔
        (c.entries = none ∨ ∃ S, c.entries = some S ∧ ∃ x ∈ S.entries, x.key = 0 ∨ x.key = call.key)) := by
  obtain ⟨c, hrun⟩ := exists_crowded
  exact ⟨c, hrun, fun call hcall =>
    codeCache_store_terminates_iff fmix _ c hrun (by decide) call (by rw [hcall]; decide)⟩

/-- One key for each of the 128 home slots. -/
def spreadKeys : List AppPc :=
  [170, 407, 77, 229, 139, 106, 102, 8, 369, 96, 295, 116, 185, 10, 50, 33, 113, 70, 147, 48, 124, 43, 126,
   363, 375, 19, 112, 76, 14, 95, 199, 29, 135, 1079, 81, 66, 58, 350, 175, 46, 123, 31, 222, 120, 1, 15, 367,
   294, 30, 49, 172, 47, 18, 12, 17, 22, 276, 237, 335, 166, 618, 68, 64, 165, 211, 45, 616, 152, 11, 13, 71,
   233, 272, 228, 82, 73, 42, 94, 3, 57, 198, 78, 28, 41, 156, 9, 61, 72, 209, 318, 59, 44, 36, 7, 224, 109,
   85, 189, 100, 93, 56, 423, 20, 2, 177, 37, 89, 69, 27, 141, 26, 493, 79, 52, 254, 6, 98, 4, 121, 97, 201,
   40, 34, 171, 240, 32, 344, 183]

/-- Keys that never collide fill the table without growing it, and then no store of another key ends. -/
theorem codeCache_full_diverges :
    ∃ c, CacheRun fmix (storeKeys spreadKeys) c ∧ 0 ∉ spreadKeys ∧
      ∀ call : CacheCall, call.key = 5 → ¬ call.Terminates fmix c := by
  have hfull : (runCalls fmix 128 (storeKeys spreadKeys) .init).toOption.any (fun c =>
      c.entries.any fun S => S.entries.all fun x => x.key ≠ 0 ∧ x.key ≠ 5) = true := by decide +kernel
  have hkeys : ∀ call ∈ storeKeys spreadKeys, call.key ≠ 0 := by decide +kernel
  obtain ⟨c, hrun, hc⟩ := CacheRun.exists_of_runCalls hfull
  refine ⟨c, hrun, by decide +kernel, fun call hcall hterm => ?_⟩
  obtain ⟨S, hS, hall⟩ : ∃ S, c.entries = some S ∧ ∀ x ∈ S.entries, x.key ≠ 0 ∧ x.key ≠ 5 := by
    simpa [Option.any_eq_true, List.all_eq_true] using hc
  rcases (CacheCall.terminates_iff (hrun.spec hkeys).inv (by rw [hcall]; decide)).mp hterm with hn | ⟨i, hi⟩
  · rw [hS] at hn; cases hn
  · have hx := hall _ (c.slots_mem hS i)
    rcases hi with hi | hi
    · exact hx.1 hi
    · exact hx.2 (hi.trans hcall)

/-! ## `atomic_id_set` -/

/-- In every interleaving in which `add` finds free slots, and not behind removed values, the ids that it returned are in
bijection with their values. -/
theorem idSet_bijective {T KV : Type} [DecidableEq T] [DecidableEq KV] (maxItems : Nat) (bits : KV → Nat)
    (defaultValue missingValue : KV) (hN : 0 < maxItems) (hdm : defaultValue ≠ missingValue) (s : IdSystem T KV)
    (h : IdReachable maxItems bits defaultValue missingValue (IdSystem.Unhindered maxItems defaultValue) s) :
    s.Bijective maxItems := by
  have hinv := h.inv hdm hN
  refine ⟨fun t ht => ?_, fun p hp => ?_, fun p hp q hq hpq => ?_⟩
  · obtain ⟨c, hc⟩ := Option.isSome_iff_exists.mp ht
    obtain ⟨k, hk, _, _, hops⟩ := (hinv.calls t c hc).passed
    split at hops <;> omega
  · obtain ⟨hlt, heq, _, hm⟩ := hinv.issued p hp
    rw [AtomicIdSet.get, Nat.mod_eq_of_lt hlt, heq, hinv.missing_eq]
    exact if_neg hm.symm
  · obtain ⟨hp', hpset, hd, hm⟩ := hinv.issued p hp
    obtain ⟨hq', hqset, _⟩ := hinv.issued q hq
    rw [← hpset] at hd hm
    exact hinv.unique hp' hq' hd hm (by rw [hpset, hqset, hpq])

/-- Two threads add values that collide, and both find the first slot free. -/
theorem idSet_bijective_two_threads : ∃ s : IdSystem Bool Nat, s.issued = [(3, 0), (7, 3)] ∧ s.Bijective 4 := by
  have hstart : IdReachable 4 id 0 100 (IdSystem.Unhindered 4 0) (.init 0 100 : IdSystem Bool Nat) := .init
  have hadds := (hstart.act (a := .add false 7) trivial rfl).act (a := .add true 3) trivial rfl
  have hload := hadds.act (a := .step false) ⟨⟨1, by decide, rfl⟩, by rintro c ⟨⟩ - -; rfl⟩ rfl
  have hload' := hload.act (a := .step true) ⟨⟨1, by decide, rfl⟩, by rintro c ⟨⟩ - -; rfl⟩ rfl
  have hclaim := hload'.act (a := .step false) ⟨⟨1, by decide, rfl⟩, by rintro c ⟨⟩ - -; rfl⟩ rfl
  have hlost := hclaim.act (a := .step true) ⟨⟨1, by decide, rfl⟩, by rintro c ⟨⟩ - -; rfl⟩ rfl
  have hnext := hlost.act (a := .step true) ⟨⟨1, by decide, rfl⟩, by rintro c ⟨⟩ - -; rfl⟩ rfl
  have hclaim' := hnext.act (a := .step true) ⟨⟨1, by decide, rfl⟩, by rintro c ⟨⟩ - -; rfl⟩ rfl
  exact ⟨_, rfl, idSet_bijective 4 id 0 100 (by decide) (by decide) _ hclaim'⟩

/-- Add 1 and 5, which collide, remove 1, and add 9 in its place. -/
def reuseActions : List (IdAction Unit Nat) :=
  [.add () 1, .step (), .step (), .add () 5, .step (), .step (), .step (), .remove 1, .add () 9, .step (), .step (),
    .step (), .step ()]

/-- The id that is returned for 9 is that of a free slot. -/
theorem idSet_reuse_wrong_id :
    ∃ s : IdSystem Unit Nat, IdReachable 4 id 0 100 (fun _ _ => True) s ∧ (9, 3) ∈ s.issued ∧ s.state.get 4 3 = 0 := by
  have hrun : ((IdSystem.init 0 100).run 4 id 0 100 reuseActions).any
      (fun s => decide ((9, 3) ∈ s.issued) && s.state.get 4 3 == 0) = true := by decide
  obtain ⟨s, hs, hp⟩ := (Option.any_eq_true _ _).mp hrun
  rw [Bool.and_eq_true, decide_eq_true_eq, beq_iff_eq] at hp
  exact ⟨s, IdReachable.init.run (fun _ _ => trivial) _ hs, hp⟩

/-- When all slots were used and one value was removed, `add` of another value goes round forever. -/
theorem idSet_add_diverges (n : Nat) :
    ∃ s : IdSystem Unit Nat, IdReachable 1 id 0 100 (fun _ _ => True) s ∧ s.issued = [] ∧ s.state.set 0 = 100 ∧
      s.state.missingValue = 100 ∧ s.ops () = n ∧
      ∃ last, s.calls () = some { value := 2, index := 0, lastMissing := last, next := .load } := by
  induction n with
  | zero =>
    refine ⟨_, IdReachable.init.run (fun _ _ => trivial) [.add () 1, .step (), .step (), .remove 0, .add () 2] rfl,
      rfl, rfl, rfl, rfl, none, rfl⟩
  | succ n ih =>
    obtain ⟨s, hs, hissued, hset, hmissing, hops, last, hc⟩ := ih
    have hstep : AtomicIdSet.AddCall.step 1 { value := 2, index := 0, lastMissing := last, next := .load } s.state =
        (s.state, .inl { value := 2, index := 0, lastMissing := some 0, next := .load }) := by
      simp [AtomicIdSet.AddCall.step, AtomicIdSet.AddCall.loop, hset, hmissing]
    have hact : s.act 1 id 0 100 (.step ()) = some
        { s with calls := Function.update s.calls () (some { value := 2, index := 0, lastMissing := some 0, next := .load })
                 ops := Function.update s.ops () (s.ops () + 1) } := by
      simp only [IdSystem.act, hc, Option.map_some, hstep]
    refine ⟨_, hs.act trivial hact, hissued, hset, hmissing, ?_, some 0, by rfl⟩
    exact congrArg (· + 1) hops

end Granary
