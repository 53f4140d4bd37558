import Granary.Memory.Lemmas.Sizes
import Granary.Tables.HashTable

/-!
# The hash table keeps its invariant

`HashTable.Shape` is what holds at every call of `insert` and `grow`: the slots form a ring of `2 ^ scaling_factor`
slots in which every stored key can be reached. `HashTable.Inv` adds what holds between calls of `store`.
-/

namespace Granary

open Probing Memory

variable {K V : Type} {M : HashTableMeta K V}
variable {t : HashTable K V} {s : Nat} {m : K → Option V} {nil q : K} {calls : List (StoreCall K V)}

structure HashTable.Shape (M : HashTableMeta K V) (t : HashTable K V) : Prop where
  size_eq : t.entrySlots.mask + 1 = 2 ^ t.scalingFactor
  placed : Placed M.home M.defaultKey t.entrySlots
  four_le : 4 ≤ t.scalingFactor
  lt_27 : t.scalingFactor < 27

structure HashTable.Inv [DecidableEq K] (M : HashTableMeta K V) (t : HashTable K V) : Prop extends HashTable.Shape M t where
  idle : t.growing = false
  count : t.numEntries = t.entrySlots.occupied M.defaultKey
  load : t.numEntries ≤ loadFor (2 ^ t.scalingFactor) + 1

abbrev HashTable.lookup [DecidableEq K] (t : HashTable K V) (key : K) : Option V := t.entrySlots.lookup key

theorem HashTable.Shape.isRing (h : t.Shape M) : t.entrySlots.IsRing := ⟨_, h.size_eq⟩

theorem two_pow_lt_of_scale (h : s < 27) : 2 ^ s ≤ 2 ^ 26 := Nat.pow_le_pow_right (by omega) (by omega)

theorem HashTable.Shape.mask_lt (h : t.Shape M) : t.entrySlots.mask + 1 ≤ 2 ^ 26 := by
  rw [h.size_eq]; exact two_pow_lt_of_scale h.lt_27

/-! ## Allocating slots -/

theorem newTrailingVla_cases [Inhabited V] (room : HeapRoom) {k : Nat} (hk : k ≤ 32) :
    newTrailingVla M room (2 ^ k % 2 ^ 32) = .error .fault ∨
      k < 27 ∧ newTrailingVla M room (2 ^ k % 2 ^ 32) = .ok (SlotArray.replicate (2 ^ k - 1) ⟨M.defaultKey, default⟩) := by
  have hlast : (2 ^ k % 2 ^ 32 + 2 ^ 32 - 1) % 2 ^ 32 = 2 ^ k - 1 := by
    rcases Nat.lt_or_eq_of_le hk with h | rfl
    · have hlt : 2 ^ k < 2 ^ 32 := Nat.pow_lt_pow_right (by omega) h
      have hpos : 0 < 2 ^ k := Nat.two_pow_pos k
      rw [Nat.mod_eq_of_lt hlt]
      omega
    · omega
  simp only [newTrailingVla, hlast]
  cases hs : room.serves (M.sizeofSlots + (2 ^ k - 1) * M.sizeofEntry) with
  | false => exact Or.inl rfl
  | true =>
    refine Or.inr ⟨?_, rfl⟩
    have hle : 2 ^ k ≤ 2 ^ 32 := Nat.pow_le_pow_right (by omega) hk
    have hmul : (2 ^ k - 1) * M.sizeofEntry ≤ 2 ^ 32 * M.sizeofEntry := Nat.mul_le_mul_right _ (by omega)
    have htwo : (2 ^ k - 1) * 2 ≤ (2 ^ k - 1) * M.sizeofEntry := Nat.mul_le_mul_left _ M.two_le_entry
    have hslots := M.slots_lt
    have hneed := le_allocationSize (show M.sizeofSlots + (2 ^ k - 1) * M.sizeofEntry ≤ 2 ^ 64 by omega)
    have hroom := room.bounded _ hs
    have he := M.entry_lt_slots
    rw [heapSize_eq] at hroom
    have hpow : 2 ^ k < 2 ^ 27 := by omega
    exact (Nat.pow_lt_pow_iff_right (by omega)).mp hpow

/-! ## `grow` -/

variable [DecidableEq K] [Inhabited V]

structure HashTable.Grown (M : HashTableMeta K V) (t t' : HashTable K V) : Prop where
  shape : t'.Shape M
  scale_eq : t'.scalingFactor = t.scalingFactor + 1
  numEntries_eq : t'.numEntries = t.numEntries
  growing_eq : t'.growing = t.growing
  occupied_eq : t'.entrySlots.occupied M.defaultKey = t.entrySlots.occupied M.defaultKey
  lookup_eq : ∀ k, k ≠ M.defaultKey → t'.lookup k = t.lookup k

theorem HashTable.grow_cases (room : HeapRoom) (h : t.Shape M) :
    t.grow M room = .error .fault ∨ ∃ t', t.grow M room = .ok t' ∧ t.Grown M t' := by
  have hmask := h.mask_lt
  have hold : (t.entrySlots.mask + 1) % 2 ^ 32 = t.entrySlots.mask + 1 := Nat.mod_eq_of_lt (by omega)
  have hnew : (t.entrySlots.mask + 1) * 2 = 2 ^ (t.scalingFactor + 1) := by rw [h.size_eq, Nat.pow_succ]
  have htake : t.entrySlots.entries.take (t.entrySlots.mask + 1) = t.entrySlots.entries := by
    rw [← t.entrySlots.length_eq, List.take_length]
  have hlt := h.lt_27
  simp only [grow, hold, hnew, htake]
  rcases newTrailingVla_cases (M := M) room (k := t.scalingFactor + 1) (by omega) with he | ⟨hk, he⟩
  · exact Or.inl (by simp only [he]; rfl)
  · right
    have hpos : 0 < 2 ^ (t.scalingFactor + 1) := Nat.two_pow_pos _
    have hring : (SlotArray.replicate (2 ^ (t.scalingFactor + 1) - 1)
        (⟨M.defaultKey, default⟩ : Entry K V)).IsRing :=
      ⟨t.scalingFactor + 1, by simp only [SlotArray.replicate_mask]; omega⟩
    obtain ⟨S', scans, hr, hR, hm, hocc, hl⟩ :=
      rehash_grow (Nat.le_refl _) h.isRing h.placed hring (by rw [← hnew]; omega)
    refine ⟨{ t with scalingFactor := t.scalingFactor + 1, entrySlots := S' }, ?_, ?_⟩
    · simp only [he, bind, Except.bind, SlotArray.replicate_mask, hr]
      rfl
    · have hfour := h.four_le
      exact ⟨⟨by simp only [hm]; omega, hR.placed, by simp only; omega, hk⟩, rfl, rfl, rfl, hocc, hl⟩

theorem HashTable.growOnce_cases (room : HeapRoom) (h : t.Shape M) (hg : t.growing = false) :
    t.growOnce M room = .error .fault ∨ ∃ t', t.growOnce M room = .ok t' ∧ t.Grown M t' := by
  have h' : HashTable.Shape M { t with growing := true } := ⟨h.size_eq, h.placed, h.four_le, h.lt_27⟩
  rcases HashTable.grow_cases room h' with he | ⟨t', he, hG⟩
  · exact Or.inl (by simp only [growOnce, he]; rfl)
  · refine Or.inr ⟨{ t' with growing := false }, by simp only [growOnce, he]; rfl, ?_⟩
    have hs := hG.shape
    exact ⟨⟨hs.size_eq, hs.placed, hs.four_le, hs.lt_27⟩, hG.scale_eq, hG.numEntries_eq, hg.symm, hG.occupied_eq,
      hG.lookup_eq⟩

/-! ## `insert` -/

structure HashTable.InsertedIn (M : HashTableMeta K V) (t t' : HashTable K V) (key : K) (value : V) (update : Bool)
    (state : HashStoreState) : Prop where
  shape : t'.Shape M
  scale_le : t.scalingFactor ≤ t'.scalingFactor
  numEntries_eq : t'.numEntries = t.numEntries
  idle : t'.growing = false
  occupied_eq : t'.entrySlots.occupied M.defaultKey =
    t.entrySlots.occupied M.defaultKey + if state = .storedNew then 1 else 0
  state_eq : state = match t.lookup key with
    | none => .storedNew
    | some _ => if update then .storedOverwrite else .skipped
  lookup_key : t'.lookup key = match t.lookup key with
    | none => some value
    | some w => if update then some value else some w
  lookup_of_ne : ∀ k, k ≠ M.defaultKey → k ≠ key → t'.lookup k = t.lookup k

theorem HashTable.insert_cases (room : HeapRoom) (h : t.Shape M) (hg : t.growing = false)
    (hfree : t.entrySlots.occupied M.defaultKey < t.entrySlots.mask + 1) {key : K} (hk : key ≠ M.defaultKey)
    (value : V) (update : Bool) :
    t.insert M room key value update = .error .fault ∨
      ∃ t' state, t.insert M room key value update = .ok (t', state) ∧ t.InsertedIn M t' key value update state := by
  obtain ⟨⟨i, scan⟩, hp⟩ := probe_isSome_of_occupied_lt key h.isRing hfree (M.home key) 0
  obtain ⟨S', state, hi⟩ := insertSlots_isSome value update hp
  have hI := insertSlots_cases h.isRing h.placed hk hi
  have hshape : HashTable.Shape M { t with entrySlots := S' } :=
    ⟨by simp only [hI.mask_eq]; exact h.size_eq, hI.placed h.isRing h.placed hk, h.four_le, h.lt_27⟩
  have hin : t.InsertedIn M { t with entrySlots := S' } key value update state :=
    ⟨hshape, Nat.le_refl _, rfl, hg, hI.occupied_eq hk, hI.state_eq, hI.lookup_key h.isRing h.placed hk,
      fun k hkn hne => hI.lookup_of_ne h.isRing h.placed hk hkn hne⟩
  simp only [insert, hi]
  by_cases hscan : maxScanScaleFactor < scan ∧ t.growing = false
  · rw [if_pos hscan]
    rcases HashTable.growOnce_cases room hshape hg with he | ⟨t', he, hG⟩
    · exact Or.inl (by rw [he]; rfl)
    · refine Or.inr ⟨t', state, by rw [he]; rfl, ?_⟩
      exact ⟨hG.shape, by rw [hG.scale_eq]; exact Nat.le_succ _, hG.numEntries_eq, hG.growing_eq.trans hg,
        hG.occupied_eq.trans hin.occupied_eq, hin.state_eq, (hG.lookup_eq key hk).trans hin.lookup_key,
        fun k hkn hne => (hG.lookup_eq k hkn).trans (hin.lookup_of_ne k hkn hne)⟩
  · rw [if_neg hscan]
    exact Or.inr ⟨_, _, rfl, hin⟩

/-! ## `store` -/

theorem hashTableMaxSizes_get (h : s < 27) : hashTableMaxSizes[s]? = some (loadFor (2 ^ s)) := by
  simp [hashTableMaxSizes, Nat.shiftLeft_eq, show s < 32 by omega]

theorem loadFor_lt (h : 4 ≤ s) : loadFor (2 ^ s) + 1 < 2 ^ s := by
  have : 2 ^ 4 ≤ 2 ^ s := Nat.pow_le_pow_right (by omega) h
  simp only [loadFor]
  omega

theorem loadFor_succ (h : 4 ≤ s) : loadFor (2 ^ s) + 1 ≤ loadFor (2 ^ (s + 1)) := by
  have : 2 ^ 4 ≤ 2 ^ s := Nat.pow_le_pow_right (by omega) h
  simp only [loadFor, Nat.pow_succ]
  omega

theorem loadFor_mono {s' : Nat} (h : s ≤ s') : loadFor (2 ^ s) ≤ loadFor (2 ^ s') := by
  have : 2 ^ s ≤ 2 ^ s' := Nat.pow_le_pow_right (by omega) h
  simp only [loadFor]
  omega

theorem HashTable.growIfLoaded_cases (room : HeapRoom) (h : t.Inv M) :
    t.growIfLoaded M room (loadFor (2 ^ t.scalingFactor)) = .error .fault ∨
      ∃ t', t.growIfLoaded M room (loadFor (2 ^ t.scalingFactor)) = .ok t' ∧ t'.Inv M ∧
        t'.numEntries ≤ loadFor (2 ^ t'.scalingFactor) ∧ ∀ k, k ≠ M.defaultKey → t'.lookup k = t.lookup k := by
  have hload := h.load
  by_cases hlt : loadFor (2 ^ t.scalingFactor) < t.numEntries
  · simp only [growIfLoaded, hlt, ↓reduceIte]
    rcases HashTable.growOnce_cases room h.toShape h.idle with he | ⟨t', he, hG⟩
    · exact Or.inl he
    · have hsucc := loadFor_succ h.four_le
      have hle : t'.numEntries ≤ loadFor (2 ^ t'.scalingFactor) := by rw [hG.numEntries_eq, hG.scale_eq]; omega
      refine Or.inr ⟨t', he, ⟨hG.shape, hG.growing_eq.trans h.idle, ?_, by omega⟩, hle, hG.lookup_eq⟩
      rw [hG.numEntries_eq, hG.occupied_eq, h.count]
  · simp only [growIfLoaded, hlt, ↓reduceIte]
    exact Or.inr ⟨t, rfl, h, by omega, fun _ _ => rfl⟩

theorem HashTable.store_cases (h : t.Inv M) (c : StoreCall K V) (hk : c.key ≠ M.defaultKey) :
    t.store M c.room c.room' c.key c.value c.policy = .error .fault ∨
      ∃ t', t.store M c.room c.room' c.key c.value c.policy = .ok (t', c.writes t.lookup) ∧ t'.Inv M ∧
        ∀ k, k ≠ M.defaultKey → t'.lookup k = c.apply t.lookup k := by
  simp only [store, hashTableMaxSizes_get h.lt_27]
  rcases HashTable.growIfLoaded_cases c.room h with he | ⟨t₁, he, h₁, hle, hl₁⟩
  · exact Or.inl (by rw [he]; rfl)
  rw [he]
  have hfree : t₁.entrySlots.occupied M.defaultKey < t₁.entrySlots.mask + 1 := by
    have := loadFor_lt h₁.four_le
    rw [← h₁.count, h₁.size_eq]
    omega
  rcases HashTable.insert_cases c.room' h₁.toShape h₁.idle hfree hk c.value (c.policy = .overwritePrevEntry) with
    he' | ⟨t₂, state, he', hI⟩
  · exact Or.inl (by simp only [bind, Except.bind, he'])
  right
  have hmono := loadFor_mono hI.scale_le
  have hmask := hI.shape.mask_lt
  have hlookup : ∀ k, k ≠ M.defaultKey → t₂.lookup k = c.apply t.lookup k := by
    intro k hkn
    rw [StoreCall.apply, ← hl₁ c.key hk]
    by_cases hkk : k = c.key
    · subst hkk
      rw [hI.lookup_key]
      cases hv : t₁.lookup c.key with
      | none => simp
      | some w => by_cases hp : c.policy = .overwritePrevEntry <;> simp [hp, hv, ← hl₁ c.key hk]
    · rw [hI.lookup_of_ne k hkn hkk, hl₁ k hkn]
      split <;> simp [Function.update, hkk]
  have hwrites : c.writes t.lookup = decide (state ≠ .skipped) := by
    rw [hI.state_eq, StoreCall.writes, ← hl₁ c.key hk]
    cases hv : t₁.lookup c.key with
    | none => simp
    | some w => by_cases hp : c.policy = .overwritePrevEntry <;> simp [hp]
  have hocc := hI.occupied_eq
  by_cases hst : state = .storedNew
  · have hnum : (t₂.numEntries + 1) % 2 ^ 32 = t₁.numEntries + 1 := by
      rw [hI.numEntries_eq, h₁.count]
      have := h₁.toShape.mask_lt
      exact Nat.mod_eq_of_lt (by omega)
    rw [if_pos hst, ← h₁.count] at hocc
    refine ⟨{ t₂ with numEntries := (t₂.numEntries + 1) % 2 ^ 32 }, ?_, ?_, hlookup⟩
    · simp only [bind, Except.bind, he', hst, ↓reduceIte, hwrites]
      rfl
    · have hs := hI.shape
      exact ⟨⟨hs.size_eq, hs.placed, hs.four_le, hs.lt_27⟩, hI.idle, by simp only [hnum]; exact hocc.symm,
        by simp only [hnum]; omega⟩
  · rw [if_neg hst, Nat.add_zero, ← h₁.count] at hocc
    refine ⟨t₂, ?_, ⟨hI.shape, hI.idle, ?_, ?_⟩, hlookup⟩
    · simp only [bind, Except.bind, he', hst, ↓reduceIte, hwrites]
      rfl
    · rw [hI.numEntries_eq, hocc]
    · rw [hI.numEntries_eq]; omega

/-! ## Runs -/

theorem HashTable.new_cases (M : HashTableMeta K V) (room : HeapRoom) :
    HashTable.new M room = .error .fault ∨
      ∃ t, HashTable.new M room = .ok t ∧ t.Inv M ∧ ∀ k, k ≠ M.defaultKey → t.lookup k = none := by
  have hcap : (1 <<< defaultScaleFactor : Nat) = 2 ^ 4 % 2 ^ 32 := by decide
  simp only [HashTable.new, hcap]
  rcases newTrailingVla_cases (M := M) room (k := 4) (by omega) with he | ⟨_, he⟩
  · exact Or.inl (by rw [he]; rfl)
  · have hscale : 4 ≤ defaultScaleFactor ∧ defaultScaleFactor < 27 := by decide
    refine Or.inr ⟨_, by rw [he]; rfl, ⟨⟨rfl, Placed.replicate _ _ _, hscale.1, hscale.2⟩, rfl, ?_, ?_⟩, ?_⟩
    · simp [SlotArray.occupied, SlotArray.replicate]
    · simp only; omega
    · intro k hk
      simp only [HashTable.lookup, SlotArray.lookup, Option.map_eq_none_iff, List.find?_eq_none]
      intro x hx
      rw [(List.mem_replicate.mp hx).2]
      simpa using hk.symm

omit [Inhabited V] in
theorem StoreCall.apply_congr {c : StoreCall K V} {m' : K → Option V} {k : K}
    (hm : ∀ k, k ≠ nil → m k = m' k) (hc : c.key ≠ nil) (hk : k ≠ nil) : c.apply m k = c.apply m' k := by
  simp only [StoreCall.apply, hm c.key hc]
  split
  · by_cases hkk : k = c.key
    · simp [hkk]
    · simp [Function.update, hkk, hm k hk]
  · exact hm k hk

theorem HashTable.stores_cases (hk : ∀ c ∈ calls, c.key ≠ M.defaultKey) (h : t.Inv M)
    (hm : ∀ k, k ≠ M.defaultKey → t.lookup k = m k) :
    t.stores M calls = .error .fault ∨ ∃ t', t.stores M calls = .ok (t', specResults calls m) ∧ t'.Inv M ∧
      ∀ k, k ≠ M.defaultKey → t'.lookup k = specStores calls m k := by
  induction calls generalizing t m with
  | nil => exact Or.inr ⟨t, rfl, h, hm⟩
  | cons c cs ih =>
    have hc := hk c (by simp)
    rcases HashTable.store_cases h c hc with he | ⟨t₁, he, h₁, hl₁⟩
    · exact Or.inl (by simp only [HashTable.stores, he]; rfl)
    · have hw : c.writes t.lookup = c.writes m := by simp only [StoreCall.writes, hm c.key hc]
      have hm₁ : ∀ k, k ≠ M.defaultKey → t₁.lookup k = c.apply m k := fun k hkn =>
        (hl₁ k hkn).trans (StoreCall.apply_congr hm hc hkn)
      rcases ih (fun c' hc' => hk c' (by simp [hc'])) h₁ hm₁ with he' | ⟨t', he', h', hl'⟩
      · exact Or.inl (by simp only [HashTable.stores, he, bind, Except.bind, he'])
      · refine Or.inr ⟨t', ?_, h', hl'⟩
        simp only [HashTable.stores, he, bind, Except.bind, he', hw, specResults]
        rfl

theorem HashTable.run_cases (room : HeapRoom) (hk : ∀ c ∈ calls, c.key ≠ M.defaultKey) :
    HashTable.run M room calls = .error .fault ∨
      ∃ t, HashTable.run M room calls = .ok (t, specResults calls fun _ => none) ∧ t.Inv M ∧
        ∀ k, k ≠ M.defaultKey → t.lookup k = specStores calls (fun _ => none) k := by
  rcases HashTable.new_cases M room with he | ⟨t, he, h, hl⟩
  · exact Or.inl (by simp only [HashTable.run, he]; rfl)
  · simp only [HashTable.run, he]
    exact HashTable.stores_cases hk h hl

/-! ## Reading a table -/

omit [Inhabited V] in
theorem HashTable.Inv.numEntries_lt (h : t.Inv M) : t.numEntries < t.entrySlots.mask + 1 := by
  have := loadFor_lt h.four_le
  have := h.load
  rw [h.size_eq]
  omega

theorem HashTable.find_eq (h : t.Inv M) (hq : q ≠ M.defaultKey) : t.find M q = .ok ((t.lookup q).getD default) := by
  have hfree : t.entrySlots.occupied M.defaultKey < t.entrySlots.mask + 1 := h.count ▸ h.numEntries_lt
  obtain ⟨⟨i, scan⟩, hp⟩ := probe_isSome_of_occupied_lt q h.isRing hfree (M.home q) 0
  simp only [find, hp, h.placed.lookup_of_probe h.isRing hq hp]
  by_cases hn : (t.entrySlots.slot i).key = M.defaultKey
  · rw [if_pos hn.symm, if_pos hn]; rfl
  · rw [if_neg (fun he => hn he.symm), if_neg hn]; rfl

section

omit [Inhabited V]

theorem HashTable.forEachEntry_eq (h : t.Inv M) :
    t.forEachEntry M = (t.entrySlots.entries.filter fun x => x.key ≠ M.defaultKey).map fun x => (x.key, x.value) := by
  have hmask := h.toShape.mask_lt
  have hnum : (t.entrySlots.mask + 1) % 2 ^ 32 = t.entrySlots.entries.length := by
    rw [t.entrySlots.length_eq]; exact Nat.mod_eq_of_lt (by omega)
  simp only [forEachEntry, hnum, List.take_length, ne_comm]

theorem HashTable.forEachEntry_nodup (h : t.Inv M) : ((t.forEachEntry M).map Prod.fst).Nodup := by
  have := Placed.occupiedKeys_nodup h.isRing h.placed
  rw [HashTable.forEachEntry_eq h, List.map_map]
  exact this

theorem HashTable.mem_forEachEntry (h : t.Inv M) {v : V} :
    (q, v) ∈ t.forEachEntry M ↔ q ≠ M.defaultKey ∧ t.lookup q = some v := by
  simp only [HashTable.forEachEntry_eq h, List.mem_map, List.mem_filter, decide_eq_true_eq, Prod.mk.injEq]
  constructor
  · rintro ⟨x, ⟨hx, hn⟩, rfl, rfl⟩
    refine ⟨hn, (h.placed.lookup_eq_some_iff h.isRing hn).mpr ?_⟩
    exact h.isRing.mem_iff.mp hx
  · rintro ⟨hq, hl⟩
    obtain ⟨i, hi⟩ := (h.placed.lookup_eq_some_iff h.isRing hq).mp hl
    exact ⟨⟨q, v⟩, ⟨h.isRing.mem_iff.mpr ⟨i, hi⟩, hq⟩, rfl, rfl⟩

theorem specStores_nil (hk : ∀ c ∈ calls, c.key ≠ nil) : specStores calls m nil = m nil := by
  induction calls generalizing m with
  | nil => rfl
  | cons c cs ih =>
    have hc := hk c (by simp)
    rw [specStores, ih (fun c' hc' => hk c' (by simp [hc']))]
    simp only [StoreCall.apply]
    split
    · simp [Function.update, hc.symm]
    · rfl

end

/-! ## `hash_set` -/

omit [Inhabited V] in
theorem specStores_set (ops : List (SetOp K × HeapRoom × HeapRoom)) (m : K → Option Bool) (s : Finset K)
    (hs : ∀ k, (m k).getD false = decide (k ∈ s)) (k : K) :
    (specStores (ops.map fun o => o.1.toStore o.2.1 o.2.2) m k).getD false =
      decide (k ∈ specSet (ops.map Prod.fst) s) := by
  induction ops generalizing m s with
  | nil => exact hs k
  | cons o ops ih =>
    obtain ⟨op, room, room'⟩ := o
    cases op with
    | add key | remove key =>
      refine ih _ _ fun k' => ?_
      by_cases hkk : k' = key <;> simp [StoreCall.apply, SetOp.toStore, Function.update_apply, hkk, hs]

end Granary
