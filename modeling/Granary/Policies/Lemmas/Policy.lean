import Granary.Policies.Policy
import Mathlib.Data.Finset.Card
import Mathlib.Data.Finset.Dedup

/-!
# Ids of policies

The types that have an id have consecutive ones, in the order of their first conversions. As `0` stands for no id, this
needs a counter that does not start at `0`.
-/

namespace Granary.Policies

open List Finset

open Function (update update_of_ne update_self)

namespace PolicyRegistry

variable {T : Type} [DecidableEq T] {auto : T → Bool} {n : Nat} {seen : List T} {s : PolicyRegistry T}

structure Numbered (n : Nat) (seen : List T) (s : PolicyRegistry T) : Prop where
  pos : 0 < n
  nodup : seen.Nodup
  bound : n + seen.length ≤ maxNumPolicyIds
  next : s.nextPolicyId = n + seen.length
  policyId : ∀ t, s.policyId t = if t ∈ seen then n + seen.idxOf t else 0
  visitors : ∀ t ∈ seen, s.appVisitors (s.policyId t) = some t ∧ s.hostVisitors (s.policyId t) = some t ∧
    s.interruptVisitors (s.policyId t) = some t

def assigned (auto : T → Bool) (s : PolicyRegistry T) (t : T) : PolicyRegistry T where
  nextPolicyId := (s.nextPolicyId + 1) % 2 ^ 32
  policyId := update s.policyId t s.nextPolicyId
  appVisitors := update s.appVisitors s.nextPolicyId (some t)
  hostVisitors := update s.hostVisitors s.nextPolicyId (some t)
  interruptVisitors := update s.interruptVisitors s.nextPolicyId (some t)
  autoVisitHost := update s.autoVisitHost s.nextPolicyId (auto t)

namespace Numbered

theorem init (hn : 0 < n) (hle : n ≤ maxNumPolicyIds) : Numbered n ([] : List T) (.init n) where
  pos := hn
  nodup := nodup_nil
  bound := hle
  next := rfl
  policyId t := by simp [PolicyRegistry.init]
  visitors := nofun

section

variable (h : Numbered n seen s)
include h

theorem policyId_of_mem {t : T} (ht : t ∈ seen) : s.policyId t = n + seen.idxOf t := by
  rw [h.policyId, if_pos ht]

theorem policyId_lt {t : T} (ht : t ∈ seen) : s.policyId t < n + seen.length := by
  have hlt := idxOf_lt_length_of_mem ht
  rw [h.policyId_of_mem ht]
  omega

theorem policyId_inj {t u : T} (ht : t ∈ seen) (hu : u ∈ seen) : s.policyId t = s.policyId u ↔ t = u := by
  rw [h.policyId_of_mem ht, h.policyId_of_mem hu, Nat.add_left_cancel_iff]
  exact idxOf_inj ht

theorem policyFor_mem {t : T} (ht : t ∈ seen) : s.policyFor auto t = some (.fromId (s.policyId t), s) := by
  have hne : s.policyId t ≠ 0 := by
    have hpos := h.pos
    rw [h.policyId_of_mem ht]
    omega
  rw [policyFor, if_neg hne]
  rfl

theorem policyFor_new (auto : T → Bool) {t : T} (ht : t ∉ seen) (hlt : n + seen.length < maxNumPolicyIds) :
    s.policyFor auto t = some (.fromId ((assigned auto s t).policyId t), assigned auto s t) := by
  have hid : s.policyId t = 0 := by rw [h.policyId, if_neg ht]
  have hnext : s.nextPolicyId < maxNumPolicyIds := h.next ▸ hlt
  simp [policyFor, initPolicy, assigned, hid, hnext]

theorem assign (auto : T → Bool) {t : T} (ht : t ∉ seen)
    (hlt : n + seen.length < maxNumPolicyIds) : Numbered n (seen ++ [t]) (assigned auto s t) := by
  -- the ids of `seen` are smaller than the new one
  have hne : ∀ u ∈ seen, s.policyId u ≠ s.nextPolicyId := fun u hu => by
    have := h.policyId_lt hu
    rw [h.next]
    omega
  refine ⟨h.pos, h.nodup.append (List.nodup_singleton t) (by simpa using ht), ?_, ?_, fun u => ?_, fun u hu => ?_⟩
  · rw [List.length_append, List.length_singleton]
    omega
  · have hnext : s.nextPolicyId < 256 := h.next ▸ hlt
    rw [List.length_append, List.length_singleton, ← Nat.add_assoc, ← h.next]
    exact Nat.mod_eq_of_lt (by omega)
  · by_cases hu : u = t
    · subst hu
      simp only [assigned]
      rw [update_self, if_pos (by simp), List.idxOf_append_of_notMem ht, h.next]
      simp
    · simp only [assigned]
      rw [update_of_ne hu, h.policyId]
      simp only [List.mem_append, List.mem_singleton, hu, or_false]
      split
      · rename_i hmem
        rw [List.idxOf_append_of_mem hmem]
      · rfl
  · simp only [assigned]
    rcases List.mem_append.mp hu with hu | hu
    · have hut : u ≠ t := fun he => ht (he ▸ hu)
      simp only [update_of_ne hut, update_of_ne (hne u hu)]
      exact h.visitors u hu
    · rw [List.mem_singleton.mp hu]
      simp

theorem policyFor_none {t : T} (ht : t ∉ seen) (hle : maxNumPolicyIds ≤ n + seen.length) : s.policyFor auto t = none := by
  have hid : s.policyId t = 0 := by rw [h.policyId, if_neg ht]
  have hnext : ¬ s.nextPolicyId < maxNumPolicyIds := by rw [h.next]; omega
  simp [policyFor, initPolicy, hid, hnext]

end

/-! ## Runs -/

theorem run_some (h : Numbered n seen s) (auto : T → Bool) (ts : List T)
    (hle : n + (seen.toFinset ∪ ts.toFinset).card ≤ maxNumPolicyIds) :
    ∃ seen' s', run auto ts s = some (ts.map fun t => .fromId (s'.policyId t), s') ∧ Numbered n seen' s' ∧
      (∀ t ∈ seen ++ ts, t ∈ seen') ∧ ∀ t ∈ seen, s'.policyId t = s.policyId t := by
  induction ts generalizing seen s with
  | nil => exact ⟨seen, s, rfl, h, by simp, fun _ _ => rfl⟩
  | cons t ts ih =>
    have hunion : seen.toFinset ∪ (t :: ts).toFinset = insert t (seen.toFinset ∪ ts.toFinset) := by
      rw [toFinset_cons, union_insert]
    rw [hunion] at hle
    by_cases ht : t ∈ seen
    · rw [insert_eq_of_mem (mem_union_left _ (mem_toFinset.mpr ht))] at hle
      obtain ⟨seen', s', hrun, h', hmem, hkeep⟩ := ih h hle
      refine ⟨seen', s', ?_, h', fun u hu => ?_, hkeep⟩
      · simp [run, h.policyFor_mem ht, hrun, hkeep t ht]
      · refine hmem u ?_
        rcases mem_append.mp hu with hu | hu
        · exact mem_append_left _ hu
        · rcases mem_cons.mp hu with rfl | hu
          · exact mem_append_left _ ht
          · exact mem_append_right _ hu
    · -- the new type needs an id of its own
      have hlt : n + seen.length < maxNumPolicyIds := by
        have hsub : insert t seen.toFinset ⊆ insert t (seen.toFinset ∪ ts.toFinset) :=
          insert_subset_insert t subset_union_left
        have hcard := card_le_card hsub
        rw [card_insert_of_notMem (by simpa using ht), toFinset_card_of_nodup h.nodup] at hcard
        omega
      have hfor := h.policyFor_new auto ht hlt
      have h₁ := h.assign auto ht hlt
      have hle' : n + ((seen ++ [t]).toFinset ∪ ts.toFinset).card ≤ maxNumPolicyIds := by
        rwa [toFinset_append, toFinset_cons, toFinset_nil, insert_empty_eq, union_right_comm,
          union_singleton]
      obtain ⟨seen', s', hrun, h', hmem, hkeep⟩ := ih h₁ hle'
      refine ⟨seen', s', ?_, h', fun u hu => hmem u (by simpa using hu), fun u hu => ?_⟩
      · simp [run, hfor, hrun, hkeep t (by simp)]
      · rw [hkeep u (mem_append_left _ hu), h₁.policyId, h.policyId, if_pos hu,
          if_pos (mem_append_left _ hu), idxOf_append_of_mem hu]

theorem run_none (h : Numbered n seen s) (auto : T → Bool) (ts : List T)
    (hlt : maxNumPolicyIds < n + (seen.toFinset ∪ ts.toFinset).card) : run auto ts s = none := by
  induction ts generalizing seen s with
  | nil =>
    have hle := h.bound
    rw [toFinset_nil, union_empty, toFinset_card_of_nodup h.nodup] at hlt
    omega
  | cons t ts ih =>
    have hunion : seen.toFinset ∪ (t :: ts).toFinset = insert t (seen.toFinset ∪ ts.toFinset) := by
      rw [toFinset_cons, union_insert]
    rw [hunion] at hlt
    by_cases ht : t ∈ seen
    · rw [insert_eq_of_mem (mem_union_left _ (mem_toFinset.mpr ht))] at hlt
      simp [run, h.policyFor_mem ht, ih h hlt]
    · by_cases hb : n + seen.length < maxNumPolicyIds
      · have hfor := h.policyFor_new auto ht hb
        have h₁ := h.assign auto ht hb
        have hlt' : maxNumPolicyIds < n + ((seen ++ [t]).toFinset ∪ ts.toFinset).card := by
          rwa [toFinset_append, toFinset_cons, toFinset_nil, insert_empty_eq,
            union_right_comm, union_singleton]
        simp [run, hfor, ih h₁ hlt']
      · simp [run, h.policyFor_none ht (by omega)]

end Numbered

theorem fromId_id_toNat {id : Nat} (h : id < maxNumPolicyIds) : (InstrumentationPolicy.fromId id).id.toNat = id :=
  Nat.mod_eq_of_lt h

theorem Numbered.identifies {seen : List T} (h : Numbered n seen s) {ts : List T} (hts : ∀ t ∈ ts, t ∈ seen) :
    Identifies ts (ts.map fun t => .fromId (s.policyId t)) s := by
  have hzip : ∀ x ∈ ts.zip (ts.map fun t => InstrumentationPolicy.fromId (s.policyId t)),
      x.1 ∈ seen ∧ x.2 = .fromId (s.policyId x.1) := by
    intro x hx
    have hmap : (ts.map id).zip (ts.map fun t => InstrumentationPolicy.fromId (s.policyId t)) = _ := zip_map'
    rw [map_id] at hmap
    rw [hmap, List.mem_map] at hx
    obtain ⟨t, ht, rfl⟩ := hx
    exact ⟨hts t ht, rfl⟩
  have hid : ∀ t ∈ seen, (InstrumentationPolicy.fromId (s.policyId t)).id.toNat = s.policyId t := fun t ht =>
    fromId_id_toNat (Nat.lt_of_lt_of_le (h.policyId_lt ht) h.bound)
  refine ⟨length_map _, fun x hx y hy => ?_, fun p hp => ?_, fun x hx => ?_⟩
  · obtain ⟨hx, hx'⟩ := hzip x hx
    obtain ⟨hy, hy'⟩ := hzip y hy
    rw [hx', hy', ← h.policyId_inj hx hy, ← BitVec.toNat_inj, hid _ hx, hid _ hy]
  · obtain ⟨t, ht, rfl⟩ := mem_map.mp hp
    have hpos := h.pos
    have hval := hid t (hts t ht)
    rw [h.policyId_of_mem (hts t ht)] at hval
    refine decide_eq_false fun h0 => ?_
    rw [h.policyId_of_mem (hts t ht)] at h0
    rw [h0] at hval
    change 0 = _ at hval
    omega
  · obtain ⟨hx, hx'⟩ := hzip x hx
    rw [hx', hid _ hx]
    exact ⟨Nat.lt_of_lt_of_le (h.policyId_lt hx) h.bound, h.visitors _ hx⟩

end PolicyRegistry

end Granary.Policies
