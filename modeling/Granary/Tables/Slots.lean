import Granary.Lib.Probing

/-!
# The insertion loop shared by the hash tables

`hash_table::insert` (`granary/hash_table.h`) and `cpu_private_code_cache::insert` (`granary/cpu_code_cache.cc`) run
the same loop, and the two `grow` functions re-insert the old entries in the same order. They differ in the hash, in
what an empty key is and in when they grow, so these are the parameters here.
-/

namespace Granary

open Probing

inductive HashStorePolicy where
  | overwritePrevEntry
  | keepPrevEntry
deriving DecidableEq, Repr

inductive HashStoreState where
  | storedNew
  | storedOverwrite
  | skipped
deriving DecidableEq, Repr

variable {κ ν : Type} [DecidableEq κ]

/-- The loop of `insert`, with the number of slots it passed. After `mask + 1` slots it has seen all, and never exits. -/
def insertSlots (home : κ → Nat) (nil : κ) (fuel : Nat) (S : SlotArray κ ν) (key : κ) (value : ν) (update : Bool) :
    Option (SlotArray κ ν × HashStoreState × Nat) :=
  match probe nil key S fuel (home key) 0 with
  | none => none
  | some (i, scan) =>
    -- insert position
    if nil = (S.slot i).key then some (S.put i ⟨key, value⟩, .storedNew, scan)
    -- already inserted
    else if update then some (S.put i { S.slot i with value := value }, .storedOverwrite, scan)
    else some (S, .skipped, scan)

/-- The transfer loop of `grow`: re-insert the old entries, in slot order. Also returns how far each insertion had to scan. -/
def rehash (home : κ → Nat) (nil : κ) (fuel : Nat) : List (Entry κ ν) → SlotArray κ ν → Option (SlotArray κ ν × List Nat)
  | [], S => some (S, [])
  | x :: xs, S =>
    if nil = x.key then rehash home nil fuel xs S
    else
      match insertSlots home nil fuel S x.key x.value true with
      | none => none
      | some (S', _, scan) => (rehash home nil fuel xs S').map fun r => (r.1, scan :: r.2)

variable {home : κ → Nat} {nil : κ} {fuel : Nat} {S S' : SlotArray κ ν}

/-! ## `insertSlots` -/

inductive Inserted (home : κ → Nat) (nil : κ) (fuel : Nat) (S : SlotArray κ ν) (key : κ) (value : ν) (update : Bool)
    (scan : Nat) : SlotArray κ ν → HashStoreState → Prop where
  | new (i : Nat) : probe nil key S fuel (home key) 0 = some (i, scan) → (S.slot i).key = nil →
      S.lookup key = none → Inserted home nil fuel S key value update scan (S.put i ⟨key, value⟩) .storedNew
  | overwrite (i : Nat) (w : ν) : probe nil key S fuel (home key) 0 = some (i, scan) →
      (S.slot i).key = key → S.lookup key = some w → update = true →
      Inserted home nil fuel S key value update scan (S.put i ⟨key, value⟩) .storedOverwrite
  | skip (i : Nat) (w : ν) : probe nil key S fuel (home key) 0 = some (i, scan) →
      (S.slot i).key = key → S.lookup key = some w → update = false →
      Inserted home nil fuel S key value update scan S .skipped

theorem insertSlots_cases (hS : S.IsRing) (hP : Placed home nil S) {key : κ} (hk : key ≠ nil) {value : ν}
    {update : Bool} {st : HashStoreState} {scan : Nat}
    (h : insertSlots home nil fuel S key value update = some (S', st, scan)) :
    Inserted home nil fuel S key value update scan S' st := by
  unfold insertSlots at h
  split at h
  · cases h
  · rename_i i d hp
    have hl := hP.lookup_of_probe hS hk hp
    by_cases hn : (S.slot i).key = nil
    · rw [if_pos hn.symm] at h
      cases h
      exact .new i hp hn (by rw [hl, if_pos hn])
    · have hkey : (S.slot i).key = key := (probe_stop hS hp).resolve_left hn
      rw [if_neg hn] at hl
      rw [if_neg (fun he => hn he.symm)] at h
      cases update with
      | true =>
        simp only [↓reduceIte, hkey, Option.some.injEq, Prod.mk.injEq] at h
        obtain ⟨rfl, rfl, rfl⟩ := h
        exact .overwrite i _ hp hkey hl rfl
      | false =>
        simp only [Bool.false_eq_true, ↓reduceIte, Option.some.injEq, Prod.mk.injEq] at h
        obtain ⟨rfl, rfl, rfl⟩ := h
        exact .skip i _ hp hkey hl rfl

theorem insertSlots_isSome {key : κ} (value : ν) (update : Bool) {r : Nat × Nat}
    (h : probe nil key S fuel (home key) 0 = some r) :
    ∃ S' st, insertSlots home nil fuel S key value update = some (S', st, r.2) := by
  unfold insertSlots
  rw [h]
  simp only
  split
  · exact ⟨_, _, rfl⟩
  · split
    · exact ⟨_, _, rfl⟩
    · exact ⟨_, _, rfl⟩

namespace Inserted

variable {key : κ} {value : ν} {update : Bool} {scan : Nat} {st : HashStoreState}
variable (hS : S.IsRing) (hP : Placed home nil S) (hk : key ≠ nil)
  (h : Inserted home nil fuel S key value update scan S' st)
include h

theorem mask_eq : S'.mask = S.mask := by
  cases h <;> rfl

include hS in
theorem isRing : S'.IsRing := by
  cases h <;> exact hS

theorem state_eq :
    st = match S.lookup key with
      | none => .storedNew
      | some _ => if update then .storedOverwrite else .skipped := by
  cases h with
  | new i hp hn hl => rw [hl]
  | overwrite i w hp hkey hl hu => rw [hl]; simp [hu]
  | skip i w hp hkey hl hu => rw [hl]; simp [hu]

include hk in
theorem occupied_eq : S'.occupied nil = S.occupied nil + if st = .storedNew then 1 else 0 := by
  cases h with
  | new i hp hn _ => rw [occupied_put hk, if_pos hn, if_pos rfl]
  | overwrite i w hp hkey _ _ =>
    rw [occupied_put hk, if_neg (by rw [hkey]; exact hk), if_neg (by simp)]
  | skip => simp

include hS hP hk

theorem placed : Placed home nil S' := by
  cases h with
  | new i hp _ _ | overwrite i w hp _ _ _ => exact hP.put hS hk hp value
  | skip => exact hP

/-- The value that the key has after the insertion. -/
theorem lookup_key :
    S'.lookup key = match S.lookup key with
      | none => some value
      | some w => if update then some value else some w := by
  cases h with
  | new i hp _ hl => rw [hP.lookup_put hS hk hp value hk, if_pos rfl, hl]
  | overwrite i w hp _ hl hu => rw [hP.lookup_put hS hk hp value hk, if_pos rfl, hl]; simp [hu]
  | skip i w _ _ hl hu => rw [hl]; simp [hu]

theorem lookup_of_ne {k : κ} (hkn : k ≠ nil) (hne : k ≠ key) : S'.lookup k = S.lookup k := by
  cases h with
  | new i hp _ _ | overwrite i w hp _ _ _ => rw [hP.lookup_put hS hk hp value hkn, if_neg hne]
  | skip => rfl

/-- The key is `scan` slots away from its home afterwards. -/
theorem probe_key : ∃ i, probe nil key S' fuel (home key) 0 = some (i, scan) := by
  have main : ∀ {i : Nat}, probe nil key S fuel (home key) 0 = some (i, scan) →
      ∃ j, probe nil key (S.put i ⟨key, value⟩) fuel (home key) 0 = some (j, scan) := by
    intro i hp
    have hP' := hP.put hS hk hp value
    have hS' := hS.put i ⟨key, value⟩
    obtain ⟨d, hd, hi, hs, hstop, hfirst⟩ := probe_eq_some hS hp
    refine ⟨_, (probe_of_first hS' hd ?_ ?_).trans (by rw [hs])⟩
    · rw [SlotArray.slot_put, if_pos (by rw [hi, Nat.and_assoc, Nat.and_self])]
      exact Or.inr rfl
    · intro c hc
      rw [SlotArray.slot_put, if_neg]
      · exact hfirst c hc
      · intro he
        apply hfirst c hc
        rw [SlotArray.slot_congr he]
        exact probe_stop hS hp
  cases h with
  | new i hp _ _ => exact main hp
  | overwrite i w hp _ _ _ => exact main hp
  | skip i w hp _ _ _ => exact ⟨i, hp⟩

/-- No other stored key moves. -/
theorem probe_of_ne {k : κ} (hkn : k ≠ nil) (hne : k ≠ key) {w : ν}
    (hw : S.lookup k = some w) (n : Nat) : probe nil k S' n (home k) 0 = probe nil k S n (home k) 0 := by
  obtain ⟨j, hj⟩ := (hP.lookup_eq_some_iff hS hkn).mp hw
  have hjk : (S.slot j).key = k := by rw [hj]
  cases h with
  | new i hp _ _ | overwrite i _ hp _ _ _ =>
    have := hP.probe_put_of_ne hS hk hp value (j := j) (by rw [hjk]; exact hkn) (by rw [hjk]; exact hne) n
    rwa [hjk] at this
  | skip => rfl

end Inserted

/-! ## `rehash` -/

/-- Transferring `old` into `S` gave `S'`. -/
structure Rehashed (home : κ → Nat) (nil : κ) (fuel : Nat) (old : List (Entry κ ν)) (S S' : SlotArray κ ν)
    (scans : List Nat) : Prop where
  mask_eq : S'.mask = S.mask
  placed : Placed home nil S'
  lookup_eq : ∀ k, k ≠ nil → S'.lookup k = ((old.find? (fun x => x.key = k)).map Entry.value).or (S.lookup k)
  occupied_eq : S'.occupied nil = S.occupied nil + old.countP (fun x => x.key ≠ nil)
  probe_eq : ∀ k, k ≠ nil → ∀ w, S.lookup k = some w → ∀ n,
    probe nil k S' n (home k) 0 = probe nil k S n (home k) 0
  scans_eq : (old.filter (fun x => x.key ≠ nil)).map
    (fun x => (probe nil x.key S' fuel (home x.key) 0).map Prod.snd) = scans.map some

def occupiedKeys (nil : κ) (old : List (Entry κ ν)) : List κ := (old.filter (fun x => x.key ≠ nil)).map Entry.key

theorem find?_eq_none_of_not_mem_occupiedKeys {old : List (Entry κ ν)} {k : κ} (hk : k ≠ nil)
    (h : k ∉ occupiedKeys nil old) : old.find? (fun x => x.key = k) = none := by
  rw [List.find?_eq_none]
  intro x hx hxk
  have hxk : x.key = k := by simpa using hxk
  exact h (List.mem_map.mpr ⟨x, List.mem_filter.mpr ⟨hx, by simpa [hxk] using hk⟩, hxk⟩)

theorem Rehashed.consEmpty {x : Entry κ ν} {xs : List (Entry κ ν)} {scans : List Nat} (hx : x.key = nil)
    (hR : Rehashed home nil fuel xs S S' scans) : Rehashed home nil fuel (x :: xs) S S' scans := by
  refine ⟨hR.mask_eq, hR.placed, ?_, ?_, hR.probe_eq, ?_⟩
  · intro k hk
    have hxk : x.key ≠ k := by rw [hx]; exact hk.symm
    rw [hR.lookup_eq k hk]
    simp [hxk]
  · rw [hR.occupied_eq]; simp [hx]
  · simpa [hx] using hR.scans_eq

/-- A key that is new to the slots is put in first, and the rest of the transfer leaves it where it is. -/
theorem Rehashed.consInsert {S₁ : SlotArray κ ν} {x : Entry κ ν} {xs : List (Entry κ ν)} {scan : Nat}
    {scans : List Nat} {st : HashStoreState} (hS : S.IsRing) (hP : Placed home nil S) (hx : x.key ≠ nil)
    (hxl : S.lookup x.key = none) (hI : Inserted home nil fuel S x.key x.value true scan S₁ st)
    (hnd : x.key ∉ occupiedKeys nil xs) (hR : Rehashed home nil fuel xs S₁ S' scans) :
    Rehashed home nil fuel (x :: xs) S S' (scan :: scans) := by
  have hst : st = .storedNew := by rw [hI.state_eq, hxl]
  have hx₁ : S₁.lookup x.key = some x.value := by rw [hI.lookup_key hS hP hx, hxl]
  refine ⟨hR.mask_eq.trans hI.mask_eq, hR.placed, ?_, ?_, ?_, ?_⟩
  · intro k hk
    rw [hR.lookup_eq k hk]
    by_cases hkx : x.key = k
    · subst hkx
      rw [find?_eq_none_of_not_mem_occupiedKeys hk hnd]
      simp [hx₁]
    · rw [hI.lookup_of_ne hS hP hx hk (fun he => hkx he.symm)]
      simp [hkx]
  · rw [hR.occupied_eq, hI.occupied_eq hx, if_pos hst]
    simp only [ne_eq, decide_not, List.countP_cons, hx, decide_false, Bool.not_false, ↓reduceIte]
    omega
  · intro k hk w hw n
    have hkx : k ≠ x.key := by rintro rfl; rw [hxl] at hw; cases hw
    rw [hR.probe_eq k hk w (by rw [hI.lookup_of_ne hS hP hx hk hkx]; exact hw)]
    exact hI.probe_of_ne hS hP hx hk hkx hw n
  · obtain ⟨j, hj⟩ := hI.probe_key hS hP hx
    have hxs : (x :: xs).filter (fun x => decide (x.key ≠ nil)) = x :: xs.filter (fun x => x.key ≠ nil) := by
      simp [hx]
    rw [hxs, List.map_cons, hR.scans_eq, hR.probe_eq x.key hx _ hx₁, hj]
    rfl

/-- With distinct keys that the new slots do not hold yet, and room for all of them, the transfer succeeds. -/
theorem rehash_spec {old : List (Entry κ ν)} (hfuel : S.mask + 1 ≤ fuel) (hS : S.IsRing) (hP : Placed home nil S)
    (hnd : (occupiedKeys nil old).Nodup) (hfresh : ∀ k ∈ occupiedKeys nil old, S.lookup k = none)
    (hroom : S.occupied nil + old.countP (fun x => x.key ≠ nil) ≤ S.mask + 1) :
    ∃ S' scans, rehash home nil fuel old S = some (S', scans) ∧ Rehashed home nil fuel old S S' scans := by
  induction old generalizing S with
  | nil => exact ⟨S, [], rfl, rfl, hP, by simp, by simp, fun _ _ _ _ _ => rfl, rfl⟩
  | cons x xs ih =>
    by_cases hx : x.key = nil
    · have hkeys : occupiedKeys nil (x :: xs) = occupiedKeys nil xs := by simp [occupiedKeys, hx]
      rw [hkeys] at hnd hfresh
      obtain ⟨S', scans, hr, hR⟩ := ih hfuel hS hP hnd hfresh (by simpa [hx] using hroom)
      exact ⟨S', scans, by rw [rehash, if_pos hx.symm, hr], hR.consEmpty hx⟩
    · have hkeys : occupiedKeys nil (x :: xs) = x.key :: occupiedKeys nil xs := by simp [occupiedKeys, hx]
      have hcount : (x :: xs).countP (fun x => decide (x.key ≠ nil)) =
          xs.countP (fun x => decide (x.key ≠ nil)) + 1 := by
        simp [hx]
      rw [hkeys, List.nodup_cons] at hnd
      rw [hkeys] at hfresh
      rw [hcount] at hroom
      have hxl : S.lookup x.key = none := hfresh x.key (by simp)
      obtain ⟨⟨i, scan⟩, hp⟩ := probe_isSome_of_occupied_lt x.key hS
        (show S.occupied nil < S.mask + 1 by omega) (home x.key) 0
      obtain ⟨S₁, st, hi⟩ := insertSlots_isSome x.value true (probe_mono hS hfuel hp)
      have hI := insertSlots_cases hS hP hx hi
      have hfresh₁ : ∀ k ∈ occupiedKeys nil xs, S₁.lookup k = none := by
        intro k hk
        have hkn : k ≠ nil := by
          obtain ⟨y, hy, rfl⟩ := List.mem_map.mp hk
          simpa using (List.mem_filter.mp hy).2
        rw [hI.lookup_of_ne hS hP hx hkn fun he => hnd.1 (he ▸ hk)]
        exact hfresh k (List.mem_cons_of_mem _ hk)
      have hroom₁ : S₁.occupied nil + xs.countP (fun x => decide (x.key ≠ nil)) ≤ S₁.mask + 1 := by
        rw [hI.occupied_eq hx, hI.mask_eq]
        split <;> omega
      obtain ⟨S', scans, hr, hR⟩ := ih (by rw [hI.mask_eq]; exact hfuel) (hI.isRing hS) (hI.placed hS hP hx) hnd.2 hfresh₁ hroom₁
      refine ⟨S', scan :: scans, ?_, hR.consInsert hS hP hx hxl hI hnd.1⟩
      rw [rehash, if_neg (fun he => hx he.symm), hi]
      simp [hr]

/-- The entries of a well-placed array have distinct keys. -/
theorem Placed.occupiedKeys_nodup (hS : S.IsRing) (hP : Placed home nil S) : (occupiedKeys nil S.entries).Nodup := by
  have hpw : S.entries.Pairwise (fun x y => x.key ≠ nil → x.key ≠ y.key) := by
    rw [List.pairwise_iff_getElem]
    intro i j hi hj hij hn he
    have hslot : ∀ a (ha : a < S.entries.length), a &&& S.mask = a ∧ S.slot a = S.entries[a] := by
      intro a ha
      have hm : a &&& S.mask = a := by
        rw [hS.land]; exact Nat.mod_eq_of_lt (by rw [← S.length_eq]; exact ha)
      exact ⟨hm, by simp only [SlotArray.slot, hm, List.get_eq_getElem]⟩
    have := Probing.Placed.unique hP (i := i) (j := j) (by rw [(hslot i hi).2]; exact hn)
      (by rw [(hslot i hi).2, (hslot j hj).2]; exact he)
    rw [(hslot i hi).1, (hslot j hj).1] at this
    omega
  rw [occupiedKeys, List.Nodup, List.pairwise_map, List.pairwise_filter]
  exact hpw.imp fun h hx _ => h (by simpa using hx)

/-- `grow`: transferring a table into at least as many empty slots keeps what it stores. -/
theorem rehash_grow {m : Nat} {v : ν} (hfuel : m + 1 ≤ fuel) (hS : S.IsRing) (hP : Placed home nil S)
    (hR : (SlotArray.replicate m (⟨nil, v⟩ : Entry κ ν)).IsRing) (hm : S.mask ≤ m) :
    ∃ S' scans, rehash home nil fuel S.entries (SlotArray.replicate m ⟨nil, v⟩) = some (S', scans) ∧
      Rehashed home nil fuel S.entries (SlotArray.replicate m ⟨nil, v⟩) S' scans ∧ S'.mask = m ∧
      S'.occupied nil = S.occupied nil ∧ ∀ k, k ≠ nil → S'.lookup k = S.lookup k := by
  have hempty : ∀ k, k ≠ nil → (SlotArray.replicate m (⟨nil, v⟩ : Entry κ ν)).lookup k = none := by
    intro k hk
    rw [SlotArray.lookup, Option.map_eq_none_iff, List.find?_eq_none]
    intro x hx
    rw [(List.mem_replicate.mp hx).2]
    simpa using hk.symm
  have hocc : (SlotArray.replicate m (⟨nil, v⟩ : Entry κ ν)).occupied nil = 0 := by
    simp [SlotArray.occupied, SlotArray.replicate, List.countP_replicate]
  have hkn : ∀ k ∈ occupiedKeys nil S.entries, k ≠ nil := by
    intro k hk
    obtain ⟨y, hy, rfl⟩ := List.mem_map.mp hk
    simpa using (List.mem_filter.mp hy).2
  have hlen : S.entries.countP (fun x => decide (x.key ≠ nil)) ≤ m + 1 := by
    have := List.countP_le_length (p := fun x : Entry κ ν => decide (x.key ≠ nil)) (l := S.entries)
    rw [S.length_eq] at this
    omega
  obtain ⟨S', scans, hr, h⟩ := rehash_spec hfuel hR (Probing.Placed.replicate home m v)
    (Placed.occupiedKeys_nodup hS hP) (fun k hk => hempty k (hkn k hk)) (by rw [hocc]; simpa using hlen)
  refine ⟨S', scans, hr, h, h.mask_eq, ?_, ?_⟩
  · rw [h.occupied_eq, hocc, Nat.zero_add]; rfl
  · intro k hk
    rw [h.lookup_eq k hk, hempty k hk, Option.or_none]
    rfl

end Granary
