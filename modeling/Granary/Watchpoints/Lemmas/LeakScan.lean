import Granary.Lib.Marking
import Granary.Lib.Outcome
import Granary.Watchpoints.LeakScan
import Granary.Watchpoints.Lemmas.Address
import Granary.Watchpoints.Lemmas.LeakDescriptors

/-!
# Lemmas about scans

A scan explores a graph: nodes are indices whose descriptors are in the table, edges are the words that are read. Flags of
descriptors change on the way, but not the table nor what the descriptors say of their objects.
-/

namespace Granary.Watchpoints

open Machine Marking Marker
open Function (update update_self update_of_ne)

theorem mem_tableIndices {i : Word} : i ∈ tableIndices ↔ i.toNat < maxNumWatchpoints := by
  rw [tableIndices, List.mem_map]
  constructor
  · rintro ⟨k, hk, rfl⟩
    rw [BitVec.toNat_ofNat]
    exact (Nat.mod_le _ _).trans_lt (List.mem_range.mp hk)
  · exact fun hi => ⟨i.toNat, List.mem_range.mpr hi, by simp⟩

theorem LeakDescriptor.words_congr {d d' : LeakDescriptor} (h : d.union_ = d'.union_) : d.words = d'.words := by
  rw [words, words, base, base, size, size, baseAddress, baseAddress, h]

theorem LeakDescriptor.contains_congr {d d' : LeakDescriptor} (h : d.union_ = d'.union_) (addr : Word) :
    d.contains addr = d'.contains addr := by
  rw [contains, contains, size, size, baseAddress, baseAddress, h]

theorem LeakObjectState.isReachable_or (a b : LeakObjectState) : (a ||| (b ||| reachable)).isReachable = true := by
  rw [isReachable, BitVec.getLsbD_or, BitVec.getLsbD_or]
  simp [reachable]

variable {Cpu : Type} {s₀ : LeakState Cpu} {s s' : ScanState Cpu} {mem : Word → Word} {junk : Word → LeakObjectState}
  {A : Word → Prop} {i j d : Word} {fuel : Nat}

theorem ScanState.access_ok (hi : i.toNat < maxNumWatchpoints) : s.access i = .ok (s.state.descriptors i) := by
  rw [ScanState.access, LeakState.access, leakCheck_bind hi]
  rfl

/-! ## The graph -/

def scanMarker (s₀ : LeakState Cpu) (mem : Word → Word) (junk : Word → LeakObjectState) :
    Marker Word Word (ScanState Cpu) where
  edges i := if isValidAddress true (s₀.descriptors i) then (s₀.desc (s₀.descriptors i)).words else []
  target addr :=
    if isWatchedAddress true (mem addr) && isValidAddress true (s₀.descriptors (counterIndexOf (mem addr)))
    then some (counterIndexOf (mem addr)) else none
  touch addr s := { s with reads := addr :: s.reads }
  mark i s := s.setReachable (s₀.descriptors i) (junk i)
  marked s i := (s.state.desc (s₀.descriptors i)).state.isReachable

def scanNodes (s₀ : LeakState Cpu) : Finset Word :=
  tableIndices.toFinset.filter fun i => isValidAddress true (s₀.descriptors i) = true

theorem mem_scanNodes : i ∈ scanNodes s₀ ↔ i.toNat < maxNumWatchpoints ∧ isValidAddress true (s₀.descriptors i) = true := by
  rw [scanNodes, Finset.mem_filter, List.mem_toFinset, mem_tableIndices]

structure FlagsOnly (d d' : LeakDescriptor) : Prop where
  union_ : d'.union_ = d.union_
  reachable : d.state.isReachable = true → d'.state.isReachable = true
  active : d.state.isActive = true → d'.state.isActive = true
  activated : d'.state.isActive = true → d.state.isActive = true ∨ d'.state.isReachable = true

theorem FlagsOnly.refl (d : LeakDescriptor) : FlagsOnly d d := ⟨rfl, id, id, .inl⟩

theorem FlagsOnly.trans {d d' d'' : LeakDescriptor} (h : FlagsOnly d d') (h' : FlagsOnly d' d'') : FlagsOnly d d'' where
  union_ := h'.union_.trans h.union_
  reachable hd := h'.reachable (h.reachable hd)
  active hd := h'.active (h.active hd)
  activated hd := by
    rcases h'.activated hd with hd | hd
    · exact (h.activated hd).imp_right h'.reachable
    · exact .inr hd

theorem flagsOnly_setReachable (d : LeakDescriptor) (bits : LeakObjectState) :
    FlagsOnly d (d.setState (bits ||| LeakObjectState.reachable)) where
  union_ := rfl
  reachable _ := LeakObjectState.isReachable_or d.state bits
  active hd := by
    change (d.state ||| _).getLsbD 6 = true
    rw [BitVec.getLsbD_or, show d.state.getLsbD 6 = true from hd, Bool.true_or]
  activated _ := .inr (LeakObjectState.isReachable_or d.state bits)

structure Preserved (s s' : LeakState Cpu) : Prop where
  nextCounterIndex : s'.nextCounterIndex = s.nextCounterIndex
  freeList : s'.freeList = s.freeList
  descriptors : s'.descriptors = s.descriptors
  desc : ∀ d, FlagsOnly (s.desc d) (s'.desc d)

theorem Preserved.trans {t t' t'' : LeakState Cpu} (h : Preserved t t') (h' : Preserved t' t'') : Preserved t t'' where
  nextCounterIndex := h'.nextCounterIndex.trans h.nextCounterIndex
  freeList := h'.freeList.trans h.freeList
  descriptors := h'.descriptors.trans h.descriptors
  desc d := (h.desc d).trans (h'.desc d)

theorem Preserved.write {t : LeakState Cpu} {v : LeakDescriptor} (hv : FlagsOnly (t.desc d) v) :
    Preserved t { t with desc := update t.desc d v } := by
  refine ⟨rfl, rfl, rfl, fun x => ?_⟩
  change FlagsOnly (t.desc x) (update t.desc d v x)
  rcases eq_or_ne x d with rfl | hne
  · rwa [update_self]
  · rw [update_of_ne hne]
    exact .refl _

/-- Accessed objects are those of the beginning, and lose their flags only with a mark. -/
structure ScanOk (s₀ : LeakState Cpu) (mem : Word → Word) (junk : Word → LeakObjectState) (A : Word → Prop)
    (s : ScanState Cpu) : Prop where
  preserved : Preserved s₀ s.state
  accessed : ∀ d, (s.state.desc d).accessedInLastEpoch = true → (s₀.desc d).accessedInLastEpoch = true
  marked : ∀ i, (s₀.desc (s₀.descriptors i)).accessedInLastEpoch = true →
    (s.state.desc (s₀.descriptors i)).accessedInLastEpoch = true ∨ (scanMarker s₀ mem junk).marked s i = true
  reads : ∀ addr ∈ s.reads, ∃ i, (scanMarker s₀ mem junk).From A i ∧ addr ∈ (scanMarker s₀ mem junk).edges i


section Lawful

def TableInj (s₀ : LeakState Cpu) : Prop := ∀ i j, s₀.descriptors i ≠ 0 → s₀.descriptors i = s₀.descriptors j → i = j

variable {X : Marker Word Word (ScanState Cpu)}

theorem ne_zero_of_mem (hi : i ∈ scanNodes s₀) : s₀.descriptors i ≠ 0 := by
  intro hzero
  have hvalid := (mem_scanNodes.mp hi).2
  rw [hzero] at hvalid
  revert hvalid
  decide

theorem marked_setReachable (hinj : TableInj s₀) (hi : i ∈ scanNodes s₀) (bits : LeakObjectState) :
    (scanMarker s₀ mem junk).marked (s.setReachable (s₀.descriptors i) bits) j = true ↔
      j = i ∨ (scanMarker s₀ mem junk).marked s j = true := by
  change (update s.state.desc (s₀.descriptors i) _ (s₀.descriptors j)).state.isReachable = true ↔ _
  rcases eq_or_ne j i with rfl | hne
  · rw [update_self]
    exact iff_of_true (LeakObjectState.isReachable_or _ _) (.inl rfl)
  · have hdesc : s₀.descriptors j ≠ s₀.descriptors i := fun he => hne (hinj i j (ne_zero_of_mem hi) he.symm).symm
    rw [update_of_ne hdesc]
    exact ⟨.inr, fun h => h.resolve_left hne⟩

theorem accessed_setReachable (x : Word) (bits : LeakObjectState) :
    ((s.setReachable d bits).state.desc x).accessedInLastEpoch = (s.state.desc x).accessedInLastEpoch := by
  change (update s.state.desc d _ x).accessedInLastEpoch = _
  rcases eq_or_ne x d with rfl | hne
  · rw [update_self]
    rfl
  · rw [update_of_ne hne]

theorem scan_lawful (hinj : TableInj s₀) : Lawful (scanMarker s₀ mem junk) (ScanOk s₀ mem junk A) (scanNodes s₀) A where
  target_mem := by
    rintro i j ⟨addr, -, htarget⟩
    simp only [scanMarker, Bool.and_eq_true, Option.ite_none_right_eq_some, Option.some.injEq] at htarget
    obtain ⟨⟨-, hvalid⟩, rfl⟩ := htarget
    exact mem_scanNodes.mpr ⟨toNat_counterIndexOf _, hvalid⟩
  ok_touch := by
    intro i addr s hA haddr hs
    exact ⟨hs.preserved, hs.accessed, hs.marked, List.forall_mem_cons.mpr ⟨⟨i, hA, haddr⟩, hs.reads⟩⟩
  ok_mark := by
    intro i s hi hA hs
    refine ⟨hs.preserved.trans (.write (flagsOnly_setReachable _ _)), fun d hd => hs.accessed d ?_, fun j hj => ?_, hs.reads⟩
    · exact (accessed_setReachable d _).symm.trans hd
    · exact (hs.marked j hj).imp (fun hj => (accessed_setReachable _ _).trans hj) fun hj =>
        (marked_setReachable hinj hi _).mpr (.inr hj)
  marked_touch _ := rfl
  marked_mark hi _ := marked_setReachable hinj hi _

theorem scanWord_eq (hs : Preserved s₀ s.state) : scanWord mem junk scan s addr =
    (scanMarker s₀ mem junk).follow scan s addr := by
  have haccess : ({ s with reads := addr :: s.reads } : ScanState Cpu).access (counterIndexOf (mem addr)) =
      .ok (s₀.descriptors (counterIndexOf (mem addr))) := by
    rw [ScanState.access_ok (toNat_counterIndexOf _), ← hs.descriptors]
  rw [scanWord, follow]
  by_cases hwatched : isWatchedAddress true (mem addr) = true
  · simp only [scanMarker, hwatched, if_true, haccess, Bool.true_and]
    by_cases hvalid : isValidAddress true (s₀.descriptors (counterIndexOf (mem addr))) = true
    · rw [if_pos hvalid]
      exact if_pos hvalid
    · rw [if_neg hvalid]
      exact if_neg hvalid
  · simp only [scanMarker, hwatched, Bool.false_and]
    rfl

theorem mem_of_from (hinj : TableInj s₀) (hA : ∀ i, A i → i ∈ scanNodes s₀) (hi : (scanMarker s₀ mem junk).From A i) :
    i ∈ scanNodes s₀ :=
  hi.induct hA fun _ _ _ hedge => (scan_lawful (A := A) hinj).target_mem hedge

theorem scanDescriptor_explores (hinj : TableInj s₀) (hA : ∀ i, A i → i ∈ scanNodes s₀) (fuel : Nat) :
    Explores (scanMarker s₀ mem junk) (ScanOk s₀ mem junk A) (scanNodes s₀) A (scanDescriptor mem junk fuel) fuel := by
  induction fuel with
  | zero => exact explores_zero
  | succ fuel ih =>
    refine (scan_lawful hinj).explores_succ ih (fun s addr hs => scanWord_eq hs.preserved) fun i s hi hs => ?_
    obtain ⟨hlt, hvalid⟩ := mem_scanNodes.mp (mem_of_from hinj hA hi)
    have haccess : s.access i = .ok (s₀.descriptors i) := by
      rw [ScanState.access_ok hlt, hs.preserved.descriptors]
    have hedges : (scanMarker s₀ mem junk).edges i = (s.state.desc (s₀.descriptors i)).words := by
      rw [LeakDescriptor.words_congr (hs.preserved.desc _).union_]
      exact if_pos hvalid
    rw [scanDescriptor, haccess, hedges]
    exact if_pos hvalid

theorem ScanOk.cleared {t : ScanState Cpu} (hs : ScanOk s₀ mem junk A s) (hinj : TableInj s₀) (hi : i ∈ scanNodes s₀)
    (hpreserved : Preserved s.state t.state) (hreads : t.reads = s.reads)
    (hflag : ∀ d, (t.state.desc d).accessedInLastEpoch =
      if d = s₀.descriptors i then false else (s.state.desc d).accessedInLastEpoch)
    (hmarked : (scanMarker s₀ mem junk).marked t i = true) : ScanOk s₀ mem junk A t where
  preserved := hs.preserved.trans hpreserved
  accessed d hd := by
    rw [hflag] at hd
    split at hd
    · cases hd
    · exact hs.accessed d hd
  marked j hj := by
    rw [hflag]
    split
    · next he =>
        rw [← hinj i j (ne_zero_of_mem hi) he.symm]
        exact .inr hmarked
    · exact (hs.marked j hj).imp_right (hpreserved.desc _).reachable
  reads := hreads ▸ hs.reads

theorem accessed_clearAccessed (x : Word) :
    ((s.clearAccessed d).state.desc x).accessedInLastEpoch = if x = d then false else (s.state.desc x).accessedInLastEpoch := by
  change (update s.state.desc d _ x).accessedInLastEpoch = _
  rcases eq_or_ne x d with rfl | hne
  · rw [update_self, if_pos rfl]
  · rw [update_of_ne hne, if_neg hne]

theorem marked_clearAccessed (d j : Word) :
    (scanMarker s₀ mem junk).marked (s.clearAccessed d) j = (scanMarker s₀ mem junk).marked s j := by
  change (update s.state.desc d _ (s₀.descriptors j)).state.isReachable = _
  rcases eq_or_ne (s₀.descriptors j) d with he | hne
  · rw [he, update_self, ← he]
    rfl
  · rw [update_of_ne hne]
    rfl

theorem preserved_clearAccessed : Preserved s.state (s.clearAccessed d).state :=
  .write ⟨rfl, id, id, .inl⟩

theorem scanAccessed_ok (hinj : TableInj s₀) (hA : ∀ i, A i → i ∈ scanNodes s₀)
    (hroot : ∀ i ∈ scanNodes s₀, (s₀.desc (s₀.descriptors i)).accessedInLastEpoch = true → A i)
    (hs : ScanOk s₀ mem junk A s) (hi : i.toNat < maxNumWatchpoints)
    (hcount : ((scanMarker s₀ mem junk).unmarked (scanNodes s₀) s).card ≤ fuel) :
    ∃ s', scanAccessed mem junk fuel s i = .ok s' ∧ Explored (scanMarker s₀ mem junk) (ScanOk s₀ mem junk A) A s s' ∧
      ∀ c, c = i ∧ c ∈ scanNodes s₀ ∧ (s₀.desc (s₀.descriptors c)).accessedInLastEpoch = true →
        (scanMarker s₀ mem junk).marked s' c = true := by
  have haccess : s.access i = .ok (s₀.descriptors i) := by
    rw [ScanState.access_ok hi, hs.preserved.descriptors]
  rw [scanAccessed, haccess]
  change ∃ s', (if isValidAddress true (s₀.descriptors i) then _ else _) = _ ∧ _
  by_cases hvalid : isValidAddress true (s₀.descriptors i) = true
  · have hmem : i ∈ scanNodes s₀ := mem_scanNodes.mpr ⟨hi, hvalid⟩
    rw [if_pos hvalid]
    by_cases hflag : (s.state.desc (s₀.descriptors i)).accessedInLastEpoch = true
    · rw [if_pos hflag]
      by_cases hmarked : (scanMarker s₀ mem junk).marked s i = true
      · have hmarked' := (marked_clearAccessed (s₀.descriptors i) i).trans hmarked
        refine ⟨_, if_pos hmarked', .of_same ?_ (marked_clearAccessed _), fun c hc => hc.1 ▸ hmarked'⟩
        exact hs.cleared hinj hmem (preserved_clearAccessed) rfl (fun d => accessed_clearAccessed d) hmarked'
      · have hmark : ∀ j, (scanMarker s₀ mem junk).marked
            ((s.clearAccessed (s₀.descriptors i)).setReachable (s₀.descriptors i) (junk i)) j = true ↔
              j = i ∨ (scanMarker s₀ mem junk).marked s j = true := by
          intro j
          rw [marked_setReachable hinj hmem, marked_clearAccessed]
        have hs₁ : ScanOk s₀ mem junk A
            ((s.clearAccessed (s₀.descriptors i)).setReachable (s₀.descriptors i) (junk i)) :=
          hs.cleared hinj hmem ((preserved_clearAccessed).trans (.write (flagsOnly_setReachable _ _))) rfl
            (fun d => (accessed_setReachable d _).trans (accessed_clearAccessed d)) ((hmark i).mpr (.inl rfl))
        obtain ⟨s', hrun, hexp, hi'⟩ := (scanDescriptor_explores hinj hA fuel).of_mark hmark hmem
          (.root (hroot i hmem (hs.accessed _ hflag))) hs₁ hmarked hcount
        refine ⟨s', (if_neg fun he => hmarked ((marked_clearAccessed _ i).symm.trans he)).trans hrun, hexp, ?_⟩
        exact fun c hc => hc.1 ▸ hi'
    · rw [if_neg hflag]
      refine ⟨s, rfl, .of_same hs fun _ => rfl, ?_⟩
      rintro _ ⟨rfl, -, hacc⟩
      exact (hs.marked _ hacc).resolve_left hflag
  · rw [if_neg hvalid]
    refine ⟨s, rfl, .of_same hs fun _ => rfl, ?_⟩
    rintro _ ⟨rfl, hmem, -⟩
    exact absurd (mem_scanNodes.mp hmem).2 hvalid

theorem watchpointCallback_ok {addr : Word} (hinj : TableInj s₀) (hA : ∀ i, A i → i ∈ scanNodes s₀)
    (hvalid : ∀ i, s₀.descriptors i ≠ 0 → isValidAddress true (s₀.descriptors i) = true)
    (hroot : counterIndexOf addr ∈ scanNodes s₀ →
      (s₀.desc (s₀.descriptors (counterIndexOf addr))).contains addr = true → A (counterIndexOf addr))
    (hs : ScanOk s₀ mem junk A s) (hcount : ((scanMarker s₀ mem junk).unmarked (scanNodes s₀) s).card ≤ fuel) :
    ∃ s', watchpointCallback mem junk fuel s addr = .ok s' ∧
      Explored (scanMarker s₀ mem junk) (ScanOk s₀ mem junk A) A s s' ∧
      ∀ c, c = counterIndexOf addr ∧ c ∈ scanNodes s₀ ∧ (s₀.desc (s₀.descriptors c)).contains addr = true →
        (scanMarker s₀ mem junk).marked s' c = true := by
  have haccess : s.access (counterIndexOf addr) = .ok (s₀.descriptors (counterIndexOf addr)) := by
    rw [ScanState.access_ok (toNat_counterIndexOf _), hs.preserved.descriptors]
  have hcontains := LeakDescriptor.contains_congr (hs.preserved.desc (s₀.descriptors (counterIndexOf addr))).union_ addr
  rw [watchpointCallback, haccess]
  change ∃ s', (if s₀.descriptors (counterIndexOf addr) ≠ 0 then
    if (s.state.desc (s₀.descriptors (counterIndexOf addr))).contains addr then _ else _ else _) = _ ∧ _
  rw [hcontains]
  by_cases hzero : s₀.descriptors (counterIndexOf addr) = 0
  · rw [if_neg (not_not_intro hzero)]
    refine ⟨s, rfl, .of_same hs fun _ => rfl, ?_⟩
    rintro _ ⟨rfl, hmem, -⟩
    exact absurd hzero (ne_zero_of_mem hmem)
  · have hmem : counterIndexOf addr ∈ scanNodes s₀ := mem_scanNodes.mpr ⟨toNat_counterIndexOf _, hvalid _ hzero⟩
    rw [if_pos hzero]
    by_cases hin : (s₀.desc (s₀.descriptors (counterIndexOf addr))).contains addr = true
    · rw [if_pos hin]
      obtain ⟨s', hrun, hexp, hmarked⟩ := (scan_lawful hinj).visit_ok (scanDescriptor_explores hinj hA fuel) hmem
        (.root (hroot hmem hin)) hs hcount
      exact ⟨s', hrun, hexp, fun c hc => hc.1 ▸ hmarked⟩
    · rw [if_neg hin]
      refine ⟨s, rfl, .of_same hs fun _ => rfl, ?_⟩
      rintro _ ⟨rfl, -, hin'⟩
      exact absurd hin' hin

end Lawful

/-! ## The callback -/

def ScanRoot (s₀ : LeakState Cpu) (kernelWords : List Word) (i : Word) : Prop :=
  i ∈ scanNodes s₀ ∧ ((s₀.desc (s₀.descriptors i)).accessedInLastEpoch = true ∨
    ∃ w ∈ kernelWords, Hands w i ∧ (s₀.desc (s₀.descriptors i)).contains w = true)

def scanStart (s₀ : LeakState Cpu) : ScanState Cpu := { state := { s₀ with executionState := false }, reads := [] }

theorem scanStart_ok : ScanOk s₀ mem junk A (scanStart s₀) where
  preserved := ⟨rfl, rfl, rfl, fun _ => .refl _⟩
  accessed _ := id
  marked _ := .inl
  reads _ h := absurd h List.not_mem_nil

theorem leakPolicyScanCallback_ok (hinj : TableInj s₀)
    (hvalid : ∀ i, s₀.descriptors i ≠ 0 → isValidAddress true (s₀.descriptors i) = true) (hexec : s₀.executionState = true)
    (kernelWords : List Word) (hfuel : (scanNodes s₀).card ≤ fuel) :
    ∃ s, leakPolicyScanCallback mem junk fuel kernelWords s₀ = .ok (s, tableIndices.filter (isLeaked s.state)) ∧
      Explored (scanMarker s₀ mem junk) (ScanOk s₀ mem junk (ScanRoot s₀ kernelWords)) (ScanRoot s₀ kernelWords)
        (scanStart s₀) s ∧
      ∀ i, ScanRoot s₀ kernelWords i → (scanMarker s₀ mem junk).marked s i = true := by
  have hA : ∀ i, ScanRoot s₀ kernelWords i → i ∈ scanNodes s₀ := fun i h => h.1
  have hcount : ((scanMarker s₀ mem junk).unmarked (scanNodes s₀) (scanStart s₀)).card ≤ fuel :=
    (Finset.card_filter_le _ _).trans hfuel
  obtain ⟨s₁, hrun₁, hexp₁, hmarked₁⟩ := Explored.foldlM
    (T := fun i c => c = i ∧ c ∈ scanNodes s₀ ∧ (s₀.desc (s₀.descriptors c)).accessedInLastEpoch = true)
    (fun i (hi : i ∈ tableIndices) s hs hcount =>
      scanAccessed_ok hinj hA (fun i hmem hacc => ⟨hmem, .inl hacc⟩) hs (mem_tableIndices.mp hi) hcount)
    scanStart_ok hcount
  obtain ⟨s₂, hrun₂, hexp₂, hmarked₂⟩ := Explored.foldlM
    (T := fun w c => c = counterIndexOf w ∧ c ∈ scanNodes s₀ ∧ (s₀.desc (s₀.descriptors c)).contains w = true)
    (fun w (hw : w ∈ kernelWords.filter isHandedOver) s hs hcount =>
      watchpointCallback_ok hinj hA hvalid
        (fun hmem hin => ⟨hmem, .inr ⟨w, List.mem_of_mem_filter hw, ⟨List.of_mem_filter hw, rfl⟩, hin⟩⟩) hs hcount)
    hexp₁.ok (hexp₁.unmarked_le.trans hcount)
  refine ⟨s₂, ?_, hexp₁.trans hexp₂, ?_⟩
  · have hnot : ¬(!s₀.executionState) = true := by rw [hexec]; decide
    rw [leakPolicyScanCallback, if_neg hnot]
    change tableIndices.foldlM (scanAccessed mem junk fuel) (scanStart s₀) >>= _ = _
    rw [hrun₁]
    change (kernelWords.filter isHandedOver).foldlM (watchpointCallback mem junk fuel) s₁ >>= _ = _
    rw [hrun₂]
    rfl
  · rintro i ⟨hmem, hacc | ⟨w, hw, ⟨hhanded, rfl⟩, hin⟩⟩
    · exact hexp₂.mono i (hmarked₁ i (mem_tableIndices.mpr (mem_scanNodes.mp hmem).1) i ⟨rfl, hmem, hacc⟩)
    · exact hmarked₂ w (List.mem_filter.mpr ⟨hw, hhanded⟩) _ ⟨rfl, hmem, hin⟩

/-! ## What has been read -/

section Reads

variable {f : ScanState Cpu → Word → Except ScanFailure (ScanState Cpu)} {xs : List Word} {index desc addr : Word}
  {scan : Word → ScanState Cpu → Except ScanFailure (ScanState Cpu)}

theorem foldlM_reads (hf : ∀ s x s', f s x = .ok s' → s.reads ⊆ s'.reads) (h : xs.foldlM f s = .ok s') :
    s.reads ⊆ s'.reads := by
  induction xs generalizing s with
  | nil =>
    cases h
    exact List.Subset.refl _
  | cons x xs ih =>
    rw [List.foldlM_cons] at h
    obtain ⟨s₁, hx, hxs⟩ := Outcome.bind_eq_ok.mp h
    exact List.Subset.trans (hf s x s₁ hx) (ih hxs)

theorem reach_reads (hscan : ∀ i s s', scan i s = .ok s' → s.reads ⊆ s'.reads)
    (h : reach junk scan index desc s = .ok s') : s.reads ⊆ s'.reads := by
  rw [reach] at h
  split at h
  · cases h
    exact List.Subset.refl _
  · exact hscan index (s.setReachable desc (junk index)) s' h

theorem scanWord_reads (hscan : ∀ i s s', scan i s = .ok s' → s.reads ⊆ s'.reads)
    (h : scanWord mem junk scan s addr = .ok s') : addr :: s.reads ⊆ s'.reads := by
  rw [scanWord] at h
  dsimp only at h
  split at h
  · obtain ⟨found, -, h⟩ := Outcome.bind_eq_ok.mp h
    split at h
    · exact reach_reads (s := { s with reads := addr :: s.reads }) hscan h
    · cases h
      exact List.Subset.refl _
  · cases h
    exact List.Subset.refl _

theorem scanDescriptor_reads (h : scanDescriptor mem junk fuel index s = .ok s') : s.reads ⊆ s'.reads := by
  induction fuel generalizing index s s' with
  | zero => cases h
  | succ fuel ih =>
    rw [scanDescriptor] at h
    obtain ⟨desc, -, h⟩ := Outcome.bind_eq_ok.mp h
    split at h
    · refine foldlM_reads (fun t x t' hx => ?_) h
      exact List.Subset.trans (List.subset_cons_self _ _) (scanWord_reads (fun _ _ _ => ih) hx)
    · cases h
      exact List.Subset.refl _

theorem scanAccessed_reads (h : scanAccessed mem junk fuel s index = .ok s') : s.reads ⊆ s'.reads := by
  rw [scanAccessed] at h
  obtain ⟨desc, -, h⟩ := Outcome.bind_eq_ok.mp h
  split at h
  · split at h
    · exact reach_reads (s := s.clearAccessed desc) (fun _ _ _ => scanDescriptor_reads) h
    · cases h
      exact List.Subset.refl _
  · cases h
    exact List.Subset.refl _

theorem scanDescriptor_reads_words (h : scanDescriptor mem junk fuel index s = .ok s') (hi : index.toNat < maxNumWatchpoints)
    (hvalid : isValidAddress true (s.state.descriptors index) = true) :
    (s.state.desc (s.state.descriptors index)).words ⊆ s'.reads := by
  cases fuel with
  | zero => cases h
  | succ fuel =>
    rw [scanDescriptor, ScanState.access_ok hi] at h
    replace h : (if isValidAddress true (s.state.descriptors index) then
      (s.state.desc (s.state.descriptors index)).words.foldlM (scanWord mem junk (scanDescriptor mem junk fuel)) s
      else .ok s) = .ok s' := h
    rw [if_pos hvalid] at h
    generalize (s.state.desc (s.state.descriptors index)).words = xs at h ⊢
    clear hvalid
    induction xs generalizing s with
    | nil => exact List.nil_subset _
    | cons x xs ih =>
      rw [List.foldlM_cons] at h
      obtain ⟨s₁, hx, hxs⟩ := Outcome.bind_eq_ok.mp h
      have hgrow : s₁.reads ⊆ s'.reads := foldlM_reads (fun t x t' hx =>
        List.Subset.trans (List.subset_cons_self _ _) (scanWord_reads (fun _ _ _ => scanDescriptor_reads) hx)) hxs
      refine List.cons_subset.mpr ⟨hgrow (scanWord_reads (fun _ _ _ => scanDescriptor_reads) hx List.mem_cons_self), ?_⟩
      exact ih hxs

end Reads

end Granary.Watchpoints
