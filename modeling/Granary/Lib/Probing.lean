import Mathlib.Data.List.Basic
import Mathlib.Data.Nat.Bitwise
import Mathlib.Tactic.Common

/-!
# Linear probing in a ring of slots

A slot array has `mask + 1` slots, and an index is brought into range by masking it. A slot whose key is `nil` is
empty. A probe for a key walks the ring from the key's home slot and stops at the first slot that is empty or holds
the key. `Placed` is the invariant of open addressing: between the home of a stored key and its slot, no slot would
have stopped the probe.
-/

namespace Probing

variable {κ ν : Type}
variable {j base scan fuel' : Nat} {r : Nat × Nat} {v : ν} {k : κ}

structure Entry (κ ν : Type) where
  key : κ
  value : ν
deriving DecidableEq, Repr

structure SlotArray (κ ν : Type) where
  mask : Nat
  entries : List (Entry κ ν)
  length_eq : entries.length = mask + 1
deriving DecidableEq

namespace SlotArray

def slot (S : SlotArray κ ν) (i : Nat) : Entry κ ν :=
  S.entries.get ⟨i &&& S.mask, by rw [S.length_eq]; exact Nat.lt_succ_of_le Nat.and_le_right⟩

def put (S : SlotArray κ ν) (i : Nat) (x : Entry κ ν) : SlotArray κ ν :=
  { S with
    entries := S.entries.set (i &&& S.mask) x
    length_eq := by rw [List.length_set, S.length_eq] }

def replicate (mask : Nat) (x : Entry κ ν) : SlotArray κ ν :=
  { mask, entries := List.replicate (mask + 1) x, length_eq := List.length_replicate }

def lookup [DecidableEq κ] (S : SlotArray κ ν) (k : κ) : Option ν :=
  (S.entries.find? (fun x => x.key = k)).map Entry.value

def occupied [DecidableEq κ] (nil : κ) (S : SlotArray κ ν) : Nat := S.entries.countP (fun x => x.key ≠ nil)

def IsRing (S : SlotArray κ ν) : Prop := ∃ k, S.mask + 1 = 2 ^ k

end SlotArray

def Stops (nil key : κ) (x : Entry κ ν) : Prop := x.key = nil ∨ x.key = key

instance [DecidableEq κ] (nil key : κ) (x : Entry κ ν) : Decidable (Stops nil key x) :=
  inferInstanceAs (Decidable (_ ∨ _))

/-- The slot where the probe loop stopped, after at most `fuel` slots, with the number of slots it passed. -/
def probe [DecidableEq κ] (nil key : κ) (S : SlotArray κ ν) : Nat → Nat → Nat → Option (Nat × Nat)
  | 0, _, _ => none
  | fuel + 1, base, scan =>
    if Stops nil key (S.slot base) then some (base &&& S.mask, scan)
    else probe nil key S fuel ((base &&& S.mask) + 1) (scan + 1)

/-- Every stored key is reachable from its home: no slot on the way to it stops a probe for it. -/
def Placed (home : κ → Nat) (nil : κ) (S : SlotArray κ ν) : Prop :=
  ∀ i, (S.slot i).key ≠ nil → ∃ d, (home (S.slot i).key + d) &&& S.mask = i &&& S.mask ∧
    ∀ c < d, ¬ Stops nil (S.slot i).key (S.slot (home (S.slot i).key + c))

variable {nil : κ} {home : κ → Nat} {S : SlotArray κ ν}

/-! ## Indices -/

theorem exists_add_mod_eq {n : Nat} (hn : 0 < n) (h i : Nat) : ∃ d < n, (h + d) % n = i % n := by
  refine ⟨(i + n - h % n) % n, Nat.mod_lt _ hn, ?_⟩
  rw [Nat.add_mod_mod]
  have hlt : h % n < n := Nat.mod_lt _ hn
  have hsplit := Nat.mod_add_div h n
  have : h + (i + n - h % n) = i + n * (h / n + 1) := by
    rw [Nat.mul_add]; omega
  rw [this, Nat.add_mul_mod_self_left]

namespace SlotArray

theorem IsRing.land (hS : S.IsRing) (i : Nat) : i &&& S.mask = i % (S.mask + 1) := by
  obtain ⟨k, hk⟩ := hS
  have hm : S.mask = 2 ^ k - 1 := by omega
  rw [hk, hm, Nat.and_two_pow_sub_one_eq_mod]

theorem slot_congr {i : Nat} (h : i &&& S.mask = j &&& S.mask) : S.slot i = S.slot j := by
  simp only [slot, h]

theorem slot_land (i : Nat) : S.slot (i &&& S.mask) = S.slot i :=
  slot_congr (by rw [Nat.and_assoc, Nat.and_self])

theorem IsRing.slot_add (hS : S.IsRing) (i c : Nat) : S.slot ((i &&& S.mask) + c) = S.slot (i + c) := by
  apply slot_congr
  rw [hS.land, hS.land, hS.land, Nat.mod_add_mod]

theorem IsRing.slot_period (hS : S.IsRing) (i d : Nat) : S.slot (i + d) = S.slot (i + d % (S.mask + 1)) := by
  apply slot_congr
  rw [hS.land, hS.land, Nat.add_mod_mod]

theorem IsRing.exists_step (hS : S.IsRing) (h i : Nat) : ∃ d < S.mask + 1, (h + d) &&& S.mask = i &&& S.mask := by
  obtain ⟨d, hd, hmod⟩ := exists_add_mod_eq (Nat.succ_pos S.mask) h i
  exact ⟨d, hd, by rw [hS.land, hS.land, hmod]⟩

theorem slot_mem (i : Nat) : S.slot i ∈ S.entries := List.get_mem _ _

theorem IsRing.mem_iff (hS : S.IsRing) {x : Entry κ ν} : x ∈ S.entries ↔ ∃ i, S.slot i = x := by
  constructor
  · intro hx
    obtain ⟨⟨i, hi⟩, rfl⟩ := List.mem_iff_get.mp hx
    refine ⟨i, ?_⟩
    have hm : i &&& S.mask = i := by
      rw [hS.land]; exact Nat.mod_eq_of_lt (by rw [← S.length_eq]; exact hi)
    simp only [slot, hm]
  · rintro ⟨i, rfl⟩
    exact slot_mem i

@[simp] theorem put_mask (i : Nat) (x : Entry κ ν) : (S.put i x).mask = S.mask := rfl

theorem IsRing.put (hS : S.IsRing) (i : Nat) (x : Entry κ ν) : (S.put i x).IsRing := hS

theorem slot_put (i j : Nat) (x : Entry κ ν) : (S.put i x).slot j = if j &&& S.mask = i &&& S.mask then x else S.slot j := by
  simp only [slot, SlotArray.put, List.get_eq_getElem]
  by_cases h : j &&& S.mask = i &&& S.mask
  · simp [h]
  · rw [List.getElem_set_ne (fun he => h he.symm)]
    simp [h]

@[simp] theorem replicate_mask (m : Nat) (x : Entry κ ν) : (replicate m x).mask = m := rfl

@[simp] theorem slot_replicate (m i : Nat) (x : Entry κ ν) : (replicate m x).slot i = x := by
  simp [slot, replicate]

end SlotArray

/-! ## The probe loop -/

section Probe

variable [DecidableEq κ] {key : κ}

section

variable (hS : S.IsRing)

include hS

theorem probe_eq_none_iff {fuel : Nat} :
    probe nil key S fuel base scan = none ↔ ∀ d < fuel, ¬ Stops nil key (S.slot (base + d)) := by
  induction fuel generalizing base scan with
  | zero => simp [probe]
  | succ fuel ih =>
    simp only [probe]
    by_cases hb : Stops nil key (S.slot base)
    · simp only [hb, ↓reduceIte, reduceCtorEq, false_iff]
      exact fun h => h 0 (by omega) hb
    · simp only [hb, ↓reduceIte, ih, Nat.add_assoc, hS.slot_add]
      constructor
      · intro h d hd
        cases d with
        | zero => exact hb
        | succ d => rw [Nat.add_comm d 1]; exact h d (by omega)
      · intro h d hd
        rw [Nat.add_comm 1 d]; exact h (d + 1) (by omega)

theorem probe_eq_some {fuel i s : Nat} (h : probe nil key S fuel base scan = some (i, s)) :
    ∃ d < fuel, i = (base + d) &&& S.mask ∧ s = scan + d ∧ Stops nil key (S.slot (base + d)) ∧
      ∀ c < d, ¬ Stops nil key (S.slot (base + c)) := by
  induction fuel generalizing base scan with
  | zero => simp [probe] at h
  | succ fuel ih =>
    simp only [probe] at h
    by_cases hb : Stops nil key (S.slot base)
    · simp only [hb, ↓reduceIte, Option.some.injEq, Prod.mk.injEq] at h
      obtain ⟨rfl, rfl⟩ := h
      exact ⟨0, by omega, rfl, rfl, hb, by simp⟩
    · simp only [hb, ↓reduceIte] at h
      obtain ⟨d, hd, hi, hs, hstop, hfirst⟩ := ih h
      rw [Nat.add_assoc, hS.slot_add] at hstop
      have hshift : base + (1 + d) = base + (d + 1) := by omega
      refine ⟨d + 1, by omega, ?_, by omega, hshift ▸ hstop, ?_⟩
      · rw [hi, hS.land, hS.land, hS.land, Nat.add_assoc, Nat.mod_add_mod, hshift]
      · intro c hc
        cases c with
        | zero => exact hb
        | succ c =>
          have := hfirst c (by omega)
          rwa [Nat.add_assoc, hS.slot_add, Nat.add_comm 1 c] at this

theorem probe_of_first {fuel d : Nat} (hd : d < fuel)
    (hstop : Stops nil key (S.slot (base + d))) (hfirst : ∀ c < d, ¬ Stops nil key (S.slot (base + c))) :
    probe nil key S fuel base scan = some ((base + d) &&& S.mask, scan + d) := by
  cases hp : probe nil key S fuel base scan with
  | none => exact absurd hstop ((probe_eq_none_iff hS).mp hp d hd)
  | some r =>
    obtain ⟨i, s⟩ := r
    obtain ⟨d', _, hi, hs, hstop', hfirst'⟩ := probe_eq_some hS hp
    have hdd : d' = d := by
      rcases Nat.lt_trichotomy d' d with hlt | heq | hlt
      · exact absurd hstop' (hfirst d' hlt)
      · exact heq
      · exact absurd hstop (hfirst' d hlt)
    rw [hi, hs, hdd]

theorem probe_det {fuel : Nat} {r' : Nat × Nat}
    (h : probe nil key S fuel base scan = some r) (h' : probe nil key S fuel' base scan = some r') : r = r' := by
  obtain ⟨d, hd, hi, hs, hstop, hfirst⟩ := probe_eq_some hS h
  obtain ⟨d', hd', hi', hs', hstop', hfirst'⟩ := probe_eq_some hS h'
  have h₁ : probe nil key S (max fuel fuel') base scan = _ :=
    probe_of_first hS (Nat.lt_of_lt_of_le hd (Nat.le_max_left fuel fuel')) hstop hfirst
  have h₂ : probe nil key S (max fuel fuel') base scan = _ :=
    probe_of_first hS (Nat.lt_of_lt_of_le hd' (Nat.le_max_right fuel fuel')) hstop' hfirst'
  rw [h₁, ← hi, ← hs, ← hi', ← hs'] at h₂
  exact Option.some.inj h₂

theorem probe_mono {fuel : Nat} (hle : fuel ≤ fuel')
    (h : probe nil key S fuel base scan = some r) : probe nil key S fuel' base scan = some r := by
  obtain ⟨d, hd, hi, hs, hstop, hfirst⟩ := probe_eq_some hS h
  rw [probe_of_first hS (Nat.lt_of_lt_of_le hd hle) hstop hfirst, ← hi, ← hs]

theorem probe_none_forever (h : probe nil key S (S.mask + 1) base scan = none) :
    probe nil key S fuel base scan = none := by
  rw [probe_eq_none_iff hS] at h ⊢
  intro d _
  rw [hS.slot_period]
  exact h _ (Nat.mod_lt _ (by omega))

theorem probe_isSome_of_empty {i : Nat} (hi : (S.slot i).key = nil) :
    ∃ r, probe nil key S (S.mask + 1) base scan = some r := by
  obtain ⟨d, hd, hdi⟩ := hS.exists_step base i
  rw [← Option.isSome_iff_exists, Option.isSome_iff_ne_none, ne_eq, probe_eq_none_iff hS]
  intro h
  exact h d hd (Or.inl (by rw [SlotArray.slot_congr hdi]; exact hi))

end

theorem exists_empty_of_occupied_lt (h : S.occupied nil < S.mask + 1) : ∃ x ∈ S.entries, x.key = nil := by
  by_contra hno
  push Not at hno
  have : S.occupied nil = S.entries.length := by
    rw [SlotArray.occupied, List.countP_eq_length]
    simpa using hno
  rw [this, S.length_eq] at h
  omega

theorem probe_isSome_of_occupied_lt (key : κ) (hS : S.IsRing) (h : S.occupied nil < S.mask + 1) (base scan : Nat) :
    ∃ r, probe nil key S (S.mask + 1) base scan = some r := by
  obtain ⟨x, hx, hxn⟩ := exists_empty_of_occupied_lt h
  obtain ⟨i, rfl⟩ := hS.mem_iff.mp hx
  exact probe_isSome_of_empty hS hxn

end Probe

/-! ## The invariant of open addressing -/

theorem Placed.replicate (home : κ → Nat) (m : Nat) (v : ν) : Placed home nil (SlotArray.replicate m ⟨nil, v⟩) := by
  intro i hi
  simp at hi

theorem Placed.unique (hP : Placed home nil S) {i : Nat} (hi : (S.slot i).key ≠ nil)
    (hij : (S.slot i).key = (S.slot j).key) : i &&& S.mask = j &&& S.mask := by
  obtain ⟨d, hd, hfirst⟩ := hP i hi
  obtain ⟨d', hd', hfirst'⟩ := hP j (hij ▸ hi)
  rw [← hij] at hd' hfirst'
  rcases Nat.lt_trichotomy d d' with hlt | heq | hlt
  · exact absurd (Or.inr (by rw [SlotArray.slot_congr hd])) (hfirst' d hlt)
  · rw [← hd, ← hd', heq]
  · exact absurd (Or.inr (by rw [SlotArray.slot_congr hd', ← hij])) (hfirst d' hlt)

section Lookup

variable [DecidableEq κ] {key : κ}

section

variable (hS : S.IsRing) (hP : Placed home nil S)

include hS hP

theorem Placed.lookup_eq_some_iff (hk : key ≠ nil) :
    S.lookup key = some v ↔ ∃ i, S.slot i = ⟨key, v⟩ := by
  rw [← hS.mem_iff, SlotArray.lookup, Option.map_eq_some_iff]
  constructor
  · rintro ⟨x, hx, rfl⟩
    have hkey : x.key = key := by simpa using List.find?_some hx
    rw [← hkey]
    exact List.mem_of_find?_eq_some hx
  · intro hmem
    cases hf : S.entries.find? (fun x => x.key = key) with
    | none => simpa using List.find?_eq_none.mp hf _ hmem
    | some x =>
      have hkey : x.key = key := by simpa using List.find?_some hf
      obtain ⟨i, hi⟩ := hS.mem_iff.mp (List.mem_of_find?_eq_some hf)
      obtain ⟨j, hj⟩ := hS.mem_iff.mp hmem
      have hslot : S.slot i = S.slot j :=
        SlotArray.slot_congr (hP.unique (by rw [hi, hkey]; exact hk) (by rw [hi, hj, hkey]))
      rw [hi, hj] at hslot
      exact ⟨x, rfl, by rw [hslot]⟩

theorem Placed.probe_of_slot {i : Nat} (hi : (S.slot i).key ≠ nil) (scan : Nat) :
    ∃ d, probe nil (S.slot i).key S (S.mask + 1) (home (S.slot i).key) scan = some (i &&& S.mask, scan + d) := by
  obtain ⟨d, hd, hfirst⟩ := hP i hi
  have hstop : Stops nil (S.slot i).key (S.slot (home (S.slot i).key + d)) :=
    Or.inr (by rw [SlotArray.slot_congr hd])
  have hlt : d < S.mask + 1 := by
    by_contra hge
    refine hfirst (d % (S.mask + 1)) ?_ (by rw [← hS.slot_period]; exact hstop)
    exact Nat.lt_of_lt_of_le (Nat.mod_lt _ (by omega)) (by omega)
  refine ⟨d, ?_⟩
  rw [probe_of_first hS hlt hstop hfirst, hd]

theorem Placed.lookup_of_probe (hk : key ≠ nil) {fuel i s : Nat}
    (h : probe nil key S fuel (home key) 0 = some (i, s)) :
    S.lookup key = if (S.slot i).key = nil then none else some (S.slot i).value := by
  obtain ⟨d, _, hi, _, hstop, hfirst⟩ := probe_eq_some hS h
  have hslot : S.slot i = S.slot (home key + d) := by rw [hi, SlotArray.slot_land]
  by_cases hn : (S.slot i).key = nil
  · rw [if_pos hn, Option.eq_none_iff_forall_ne_some]
    intro v hv
    obtain ⟨j, hj⟩ := (hP.lookup_eq_some_iff hS hk).mp hv
    obtain ⟨d', hd', hfirst'⟩ := hP j (by rw [hj]; exact hk)
    simp only [hj] at hd' hfirst'
    -- the probe for the stored key would have stopped at the empty slot first, or the other way round
    rcases Nat.lt_trichotomy d d' with hlt | heq | hlt
    · exact hfirst' d hlt (Or.inl (hslot ▸ hn))
    · have : S.slot j = S.slot i := by rw [hslot, heq]; exact (SlotArray.slot_congr hd').symm
      rw [← this, hj] at hn
      exact hk hn
    · exact hfirst d' hlt (Or.inr (by rw [SlotArray.slot_congr hd', hj]))
  · have hkey : (S.slot i).key = key := by
      rcases hstop with he | he
      · rw [hslot] at hn; exact absurd he hn
      · rw [hslot]; exact he
    rw [if_neg hn, hP.lookup_eq_some_iff hS hk]
    exact ⟨i, by rw [← hkey]⟩

end

end Lookup

/-! ## Writing the slot where a probe stopped -/

section Put

variable [DecidableEq κ] {key : κ} {fuel i s : Nat}

theorem probe_stop (hS : S.IsRing) (h : probe nil key S fuel (home key) 0 = some (i, s)) : Stops nil key (S.slot i) := by
  obtain ⟨d, _, hi, _, hstop, _⟩ := probe_eq_some hS h
  rwa [hi, SlotArray.slot_land]

theorem probe_slot_ne (hS : S.IsRing) (h : probe nil key S fuel (home key) 0 = some (i, s))
    (hj : (S.slot j).key ≠ nil) (hne : (S.slot j).key ≠ key) : j &&& S.mask ≠ i &&& S.mask := by
  intro hji
  rcases probe_stop hS h with hn | hn
  · exact hj (by rw [SlotArray.slot_congr hji]; exact hn)
  · exact hne (by rw [SlotArray.slot_congr hji]; exact hn)

omit [DecidableEq κ] in
theorem not_stops_put (hk : key ≠ nil) (hne : k ≠ key)
    (hj : ¬ Stops nil k (S.slot j)) : ¬ Stops nil k ((S.put i ⟨key, v⟩).slot j) := by
  rw [SlotArray.slot_put]
  split
  · rintro (he | he)
    · exact hk he
    · exact hne he.symm
  · exact hj

theorem Placed.put (hS : S.IsRing) (hP : Placed home nil S) (hk : key ≠ nil)
    (h : probe nil key S fuel (home key) 0 = some (i, s)) (v : ν) : Placed home nil (S.put i ⟨key, v⟩) := by
  intro j hj
  by_cases hji : j &&& S.mask = i &&& S.mask
  · obtain ⟨d, _, hi, _, hstop, hfirst⟩ := probe_eq_some hS h
    simp only [SlotArray.slot_put, hji, ↓reduceIte, SlotArray.put_mask]
    refine ⟨d, by rw [hi, Nat.and_assoc, Nat.and_self], fun c hc => ?_⟩
    have hci : (home key + c) &&& S.mask ≠ i &&& S.mask := by
      intro he
      apply hfirst c hc
      rw [SlotArray.slot_congr he, hi, SlotArray.slot_land]
      exact hstop
    rw [if_neg hci]
    exact hfirst c hc
  · have hslot : (S.put i ⟨key, v⟩).slot j = S.slot j := by rw [SlotArray.slot_put, if_neg hji]
    rw [hslot] at hj ⊢
    have hne : (S.slot j).key ≠ key := by
      intro he
      obtain ⟨d, hd⟩ := hP.probe_of_slot hS hj 0
      rw [he] at hd
      have := (Prod.mk.inj (probe_det hS h hd)).1
      exact hji (by rw [this, Nat.and_assoc, Nat.and_self])
    obtain ⟨d, hd, hfirst⟩ := hP j hj
    exact ⟨d, hd, fun c hc => not_stops_put hk hne (hfirst c hc)⟩

theorem Placed.lookup_put (hS : S.IsRing) (hP : Placed home nil S) (hk : key ≠ nil)
    (h : probe nil key S fuel (home key) 0 = some (i, s)) (v : ν) (hkn : k ≠ nil) :
    (S.put i ⟨key, v⟩).lookup k = if k = key then some v else S.lookup k := by
  have hP' := hP.put hS hk h v
  have hS' := hS.put i ⟨key, v⟩
  by_cases hkk : k = key
  · subst hkk
    rw [if_pos rfl, hP'.lookup_eq_some_iff hS' hk]
    exact ⟨i, by rw [SlotArray.slot_put, if_pos rfl]⟩
  · rw [if_neg hkk]
    ext w
    rw [hP'.lookup_eq_some_iff hS' hkn, hP.lookup_eq_some_iff hS hkn]
    constructor
    · rintro ⟨j, hj⟩
      rw [SlotArray.slot_put] at hj
      split at hj
      · cases hj; exact absurd rfl hkk
      · exact ⟨j, hj⟩
    · rintro ⟨j, hj⟩
      have hji := probe_slot_ne hS h (j := j) (by rw [hj]; exact hkn) (by rw [hj]; exact hkk)
      exact ⟨j, by rw [SlotArray.slot_put, if_neg hji]; exact hj⟩

omit [DecidableEq κ] in
theorem SlotArray.getElem_land (S : SlotArray κ ν) (j : Nat) (hj : j &&& S.mask < S.entries.length) :
    S.entries[j &&& S.mask] = S.slot j := rfl

theorem occupied_put (hk : key ≠ nil) :
    (S.put i ⟨key, v⟩).occupied nil = S.occupied nil + if (S.slot i).key = nil then 1 else 0 := by
  have hlt : i &&& S.mask < S.entries.length := by
    rw [S.length_eq]; exact Nat.lt_succ_of_le Nat.and_le_right
  simp only [SlotArray.occupied, SlotArray.put, List.countP_set hlt, S.getElem_land]
  by_cases hn : (S.slot i).key = nil
  · simp [hn, hk]
  · have hpos : 0 < S.entries.countP (fun x => decide (x.key ≠ nil)) :=
      List.countP_pos_iff.mpr ⟨S.slot i, SlotArray.slot_mem i, by simpa using hn⟩
    simp only [ne_eq, decide_not] at hpos
    simp only [hn, hk, ne_eq, not_false_eq_true, decide_true, ↓reduceIte, decide_not]
    omega

theorem Placed.probe_put_of_ne (hS : S.IsRing) (hP : Placed home nil S) (hk : key ≠ nil)
    (h : probe nil key S fuel (home key) 0 = some (i, s)) (v : ν)
    (hj : (S.slot j).key ≠ nil) (hne : (S.slot j).key ≠ key) (fuel' : Nat) :
    probe nil (S.slot j).key (S.put i ⟨key, v⟩) fuel' (home (S.slot j).key) 0 =
      probe nil (S.slot j).key S fuel' (home (S.slot j).key) 0 := by
  have hS' := hS.put i ⟨key, v⟩
  obtain ⟨d, hd, hfirst⟩ := hP j hj
  have hfirst' : ∀ c < d, ¬ Stops nil (S.slot j).key
      ((S.put i ⟨key, v⟩).slot (home (S.slot j).key + c)) := fun c hc => not_stops_put hk hne (hfirst c hc)
  have hslot : (S.put i ⟨key, v⟩).slot (home (S.slot j).key + d) = S.slot (home (S.slot j).key + d) := by
    rw [SlotArray.slot_put, if_neg]
    rw [hd]
    exact probe_slot_ne hS h hj hne
  have hstop : Stops nil (S.slot j).key (S.slot (home (S.slot j).key + d)) :=
    Or.inr (by rw [SlotArray.slot_congr hd])
  by_cases hlt : d < fuel'
  · rw [probe_of_first hS hlt hstop hfirst, probe_of_first hS' hlt (hslot ▸ hstop) hfirst']
    rfl
  · rw [(probe_eq_none_iff hS).mpr fun c hc => hfirst c (by omega),
      (probe_eq_none_iff hS').mpr fun c hc => hfirst' c (by omega)]

end Put

end Probing
