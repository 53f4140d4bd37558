import Granary.Watchpoints.Lemmas.LeakScan

/-!
# Objects of the leak detector

Entries of the table are descriptors of live objects, or of freed ones until their indices are used again. Descriptors of live
objects are active and say where these are; those of freed objects are not active, unless a scan has marked them.
-/

namespace Granary.Watchpoints

open Function (update update_eq_self update_idem update_of_ne update_self)

open Machine Marking Marker

structure Describes (d : LeakDescriptor) (base size : Word) : Prop where
  active : d.state.isActive = true
  base_eq : d.baseAddress = base.setWidth 48
  size_eq : d.size = size.setWidth 16
  canonical : IsCanonical true base
  fits : base.toNat + size.toNat ≤ 2 ^ 64

structure HeapInv {Cpu : Type} (h : LeakHeap Cpu) (n : Nat) (L : Cpu → List Word) : Prop where
  inv : LeakInv true h.sys n L
  entry : ∀ i, h.sys.state.descriptors i ≠ 0 →
    h.IsObject (h.sys.state.descriptors i) i ∨ h.sys.status (h.sys.state.descriptors i) = .freed i
  object : ∀ d i, h.IsObject d i → Describes (h.sys.state.desc d) (h.base d) (h.size d)
  freed : ∀ d i, h.sys.status d = .freed i → (h.sys.state.desc d).state.isActive = true →
    (h.sys.state.desc d).state.isReachable = true
  accessed : ∀ d, h.accessed d = true → (h.sys.state.desc d).accessedInLastEpoch = true

namespace HeapInv

variable {Cpu : Type} {h h' : LeakHeap Cpu} {n k : Nat} {L : Cpu → List Word} {d i j : Word}

theorem init (desc : Word → LeakDescriptor) : HeapInv (LeakHeap.init desc : LeakHeap Cpu) 0 fun _ => [] where
  inv := LeakInv.init desc
  entry _ h := absurd rfl h
  object _ _ h := nomatch h
  freed _ _ h := nomatch h
  accessed _ h := nomatch h

theorem index?_entry (hi : HeapInv h n L) (hne : h.sys.state.descriptors i ≠ 0) :
    (h.sys.status (h.sys.state.descriptors i)).index? = some i := by
  rcases hi.entry i hne with hobj | hfreed
  · rw [show h.sys.status _ = _ from hobj]
    rfl
  · rw [hfreed]
    rfl

theorem tableInj (hi : HeapInv h n L) : TableInj h.sys.state := by
  intro i j hne he
  have hj := hi.index?_entry (i := j) (he ▸ hne)
  rw [← he, hi.index?_entry hne] at hj
  exact Option.some.inj hj

theorem valid (hi : HeapInv h n L) (i : Word) (hne : h.sys.state.descriptors i ≠ 0) :
    isValidAddress true (h.sys.state.descriptors i) = true :=
  (hi.inv.valid _ i (hi.index?_entry hne)).2

/-! ## Steps -/

theorem of_preserved {state : LeakState Cpu} {accessed : Word → Bool} (hi : HeapInv h n L)
    (hp : Preserved h.sys.state state) (hacc : ∀ d, accessed d = true → (state.desc d).accessedInLastEpoch = true) :
    HeapInv { h with sys := { h.sys with state }, accessed } n L where
  inv := hi.inv.congr hp.nextCounterIndex hp.freeList hp.descriptors fun d => (hp.desc d).union_
  entry i hne := by
    change state.descriptors i ≠ 0 at hne
    change h.sys.status (state.descriptors i) = _ ∨ h.sys.status (state.descriptors i) = _
    rw [hp.descriptors] at hne ⊢
    exact hi.entry i hne
  object d i hobj := by
    obtain ⟨hactive, hbase, hsize, hcanonical, hfits⟩ := hi.object d i hobj
    refine ⟨(hp.desc d).active hactive, ?_, ?_, hcanonical, hfits⟩
    · rw [← hbase, LeakDescriptor.baseAddress, LeakDescriptor.baseAddress, (hp.desc d).union_]
    · rw [← hsize, LeakDescriptor.size, LeakDescriptor.size, (hp.desc d).union_]
  freed d i hfreed hactive := by
    rcases (hp.desc d).activated hactive with hactive | hreach
    · exact (hp.desc d).reachable (hi.freed d i hfreed hactive)
    · exact hreach
  accessed := hacc

theorem touch (hi : HeapInv h n L) (d : Word) :
    HeapInv { h with sys := { h.sys with state := { h.sys.state with
                                desc := update h.sys.state.desc d
                                  { h.sys.state.desc d with accessedInLastEpoch := true } } }
                     accessed := update h.accessed d true } n L := by
  refine hi.of_preserved (.write ⟨rfl, id, id, .inl⟩) fun x hx => ?_
  change (update h.sys.state.desc d _ x).accessedInLastEpoch = true
  rcases eq_or_ne x d with rfl | hne
  · rw [update_self]
  · rw [update_of_ne hne] at hx ⊢
    exact hi.accessed x hx

theorem replace {state : LeakState Cpu} {st : LeakStatus} {v : LeakDescriptor} {L' : Cpu → List Word} {m : Nat}
    (hi : HeapInv h n L) (base size : Word) (hinv : LeakInv true { state, status := update h.sys.status d st } m L')
    (hst : st = .live i true ∨ st = .freed i) (hstatus : ∀ j, (h.sys.status d).index? = some j → j = i)
    (hdesc : state.desc = update h.sys.state.desc d v)
    (htable : ∀ j, state.descriptors j = h.sys.state.descriptors j ∨ j = i ∧ state.descriptors j = d)
    (hobject : st = .live i true → Describes v base size)
    (hfreed : st = .freed i → v.state.isActive = true → v.state.isReachable = true) :
    HeapInv { sys := { state, status := update h.sys.status d st }
              base := update h.base d base
              size := update h.size d size
              accessed := update h.accessed d false } m L' where
  inv := hinv
  entry j hne := by
    change state.descriptors j ≠ 0 at hne
    change update h.sys.status d st (state.descriptors j) = _ ∨
      update h.sys.status d st (state.descriptors j) = _
    rcases htable j with hsame | ⟨rfl, hd⟩
    · rw [hsame] at hne ⊢
      rcases eq_or_ne (h.sys.state.descriptors j) d with hd | hd
      · obtain rfl := hstatus j (hd ▸ hi.index?_entry hne)
        rwa [hd, update_self]
      · rw [update_of_ne hd]
        exact hi.entry j hne
    · rwa [hd, update_self]
  object x j hobj := by
    change update h.sys.status d st x = _ at hobj
    change Describes (state.desc x) (update h.base d base x) (update h.size d size x)
    rw [hdesc]
    rcases eq_or_ne x d with rfl | hne
    · rw [update_self] at hobj
      rw [update_self, update_self, update_self]
      rcases hst with hst | hst
      · exact hobject hst
      · cases hst.symm.trans hobj
    · rw [update_of_ne hne] at hobj
      rw [update_of_ne hne, update_of_ne hne, update_of_ne hne]
      exact hi.object x j hobj
  freed x j hst' hactive := by
    change update h.sys.status d st x = _ at hst'
    change (state.desc x).state.isActive = true at hactive
    change (state.desc x).state.isReachable = true
    rw [hdesc] at hactive ⊢
    rcases eq_or_ne x d with rfl | hne
    · rw [update_self] at hst' hactive ⊢
      rcases hst with hst | hst
      · cases hst.symm.trans hst'
      · exact hfreed hst hactive
    · rw [update_of_ne hne] at hst' hactive ⊢
      exact hi.freed x j hst' hactive
  accessed x hx := by
    change update h.accessed d false x = true at hx
    change (state.desc x).accessedInLastEpoch = true
    rw [hdesc]
    rcases eq_or_ne x d with rfl | hne
    · rw [update_self] at hx
      cases hx
    · rw [update_of_ne hne] at hx ⊢
      exact hi.accessed x hx

theorem free [DecidableEq Cpu] (hi : HeapInv h n L) (hobj : h.IsObject d i) (c : Cpu) (descState : LeakObjectState) :
    HeapInv { h with sys := { state := h.sys.state.free true c d i descState
                              status := update h.sys.status d (.freed i) }
                     accessed := update h.accessed d false } n (update L c (d :: L c)) := by
  have hindex : (h.sys.status d).index? = some i := by
    rw [show h.sys.status d = _ from hobj]
    rfl
  have hvalid := (hi.inv.valid d i hindex).2
  have hinv := hi.inv.free_ok (c := c) hobj descState
  rw [LeakState.free, if_pos hvalid] at hinv ⊢
  have hnew := hi.replace (h.base d) (h.size d) hinv (.inr rfl) (fun j hj => Option.some.inj (hj.symm.trans hindex)) rfl
    (fun j => .inl rfl) (fun hlive => by cases hlive) fun _ hactive => ?_
  · rwa [update_eq_self, update_eq_self] at hnew
  · change (0 ||| ((descState ||| _) &&& ~~~LeakObjectState.active) : LeakObjectState).getLsbD 6 = true at hactive
    simp [LeakObjectState.active] at hactive

end HeapInv

/-! ## Watching an object -/

section Watch

variable {Cpu : Type} [DecidableEq Cpu] {s state state' : LeakState Cpu} {c : Cpu} {fresh d i base size : Word}

omit [DecidableEq Cpu] in
theorem LeakState.allocated_eq {r : Option (Word × Word)} (h : s.allocated d i = .ok (state, r)) :
    r = some (d, i) ∧ state = { s with
      desc := update s.desc d { LeakDescriptor.zero with state := LeakObjectState.active }
      executionState := true } := by
  obtain ⟨-, -, hok⟩ := Outcome.bind_eq_ok.mp h
  cases hok
  exact ⟨rfl, rfl⟩

theorem LeakState.allocate_some (h : s.allocate c fresh = .ok (state, some (d, i))) :
    state.descriptors = s.descriptors ∧
      state.desc = update s.desc d { LeakDescriptor.zero with state := LeakObjectState.active } := by
  rw [LeakState.allocate] at h
  split at h
  · obtain ⟨hr, rfl⟩ := LeakState.allocated_eq h
    cases hr
    exact ⟨rfl, rfl⟩
  · dsimp only at h
    split at h
    · cases h
    · obtain ⟨hr, rfl⟩ := LeakState.allocated_eq h
      cases hr
      exact ⟨rfl, rfl⟩

theorem LeakState.allocate_none (h : s.allocate c fresh = .ok (state, none)) :
    state = { s with nextCounterIndex := s.nextCounterIndex + 1 } := by
  rw [LeakState.allocate] at h
  split at h
  · exact absurd (LeakState.allocated_eq h).1.symm (Option.some_ne_none _)
  · dsimp only at h
    split at h
    · cases h
      rfl
    · exact absurd (LeakState.allocated_eq h).1.symm (Option.some_ne_none _)

theorem LeakInv.allocate_index {sys : LeakSystem Cpu} {n : Nat} {L : Cpu → List Word} (h : LeakInv true sys n L)
    (hfresh : sys.Fresh true fresh) (hok : sys.state.allocate c fresh = .ok (state, some (d, i))) (j : Word)
    (hj : (sys.status d).index? = some j) : j = i := by
  by_cases hzero : sys.state.freeList c = 0
  · by_cases hle : sys.state.nextCounterIndex ≤ maxCounterIndex
    · rw [LeakState.allocate_counter hzero hle] at hok
      cases hok
      rw [hfresh.2.2] at hj
      cases hj
    · rw [LeakState.allocate_end hzero (BitVec.not_le.mp hle)] at hok
      cases hok
  · obtain ⟨_, _, _, -, hd, halloc⟩ := h.allocate_reuse hzero fresh
    rw [halloc] at hok
    cases hok
    rw [hd] at hj
    cases hj
    rfl

omit [DecidableEq Cpu] in
theorem LeakState.assign_eq (h : s.assign d i = .ok state) : state = { s with
    desc := update s.desc d { s.desc d with state := (s.desc d).state ||| LeakObjectState.wasAllocatedByApp }
    descriptors := update s.descriptors i d } := by
  obtain ⟨-, -, hok⟩ := Outcome.bind_eq_ok.mp h
  cases hok
  rfl

def watchedDesc (base size : Word) : LeakDescriptor :=
  let d := (LeakDescriptor.zero.setBaseAddress (base.setWidth 48)).setSize (size.setWidth 16)
  { d with state := LeakObjectState.active ||| LeakObjectState.wasAllocatedByApp }

theorem watchedDesc_describes (hbase : IsCanonical true base) (hfits : base.toNat + size.toNat ≤ 2 ^ 64) :
    Describes (watchedDesc base size) base size where
  active := by
    change (LeakObjectState.active ||| LeakObjectState.wasAllocatedByApp).getLsbD 6 = true
    decide
  base_eq := by
    rw [LeakDescriptor.baseAddress]
    exact (BitField.get_put_of_disjoint (by decide) (.inr (by decide))).trans (BitField.get_put_self (by decide))
  size_eq := BitField.get_put_self (by decide)
  canonical := hbase
  fits := hfits

theorem LeakState.watch_eq (hok : s.allocate c fresh = .ok (state, some (d, i)))
    (hassign : (state.initDesc d base size).assign d i = .ok state') :
    state'.desc = update s.desc d (watchedDesc base size) ∧
      state'.descriptors = update s.descriptors i d := by
  obtain ⟨htable, hdesc⟩ := LeakState.allocate_some hok
  obtain rfl := LeakState.assign_eq hassign
  have hinit : (state.initDesc d base size).desc = update s.desc d
      ((LeakDescriptor.setBaseAddress { LeakDescriptor.zero with state := LeakObjectState.active }
        (base.setWidth 48)).setSize (size.setWidth 16)) := by
    rw [LeakState.initDesc, hdesc, update_self, update_idem]
  refine ⟨?_, ?_⟩
  · change update (state.initDesc d base size).desc d _ = _
    rw [hinit, update_self, update_idem]
    rfl
  · change update state.descriptors i d = _
    rw [htable]

theorem HeapInv.watch {h : LeakHeap Cpu} {n : Nat} {L : Cpu → List Word} (hi : HeapInv h n L) (hn : n + 1 ≤ 2 ^ 64)
    (hfresh : h.sys.Fresh true fresh) (hbase : IsCanonical true base) (hfits : base.toNat + size.toNat ≤ 2 ^ 64)
    (hok : h.sys.state.allocate c fresh = .ok (state, some (d, i)))
    (hassign : (state.initDesc d base size).assign d i = .ok state') :
    ∃ L', HeapInv { sys := { state := state', status := update h.sys.status d (.live i true) }
                    base := update h.base d base
                    size := update h.size d size
                    accessed := update h.accessed d false } (n + 1) L' := by
  obtain ⟨L₁, h₁⟩ := hi.inv.step (.allocate c fresh state d i hfresh hok) hn
  obtain ⟨L₂, h₂⟩ := h₁.step (.init d i base size false (update_self ..)) hn
  obtain ⟨L₃, h₃⟩ := h₂.step (.assign d i false state' (update_self ..) hassign) hn
  obtain ⟨hdesc, htable⟩ := LeakState.watch_eq hok hassign
  rw [show update (update h.sys.status d (.live i false)) d (.live i true) = _ from
    update_idem _ _ _] at h₃
  refine ⟨L₃, hi.replace base size h₃ (.inl rfl) (hi.inv.allocate_index hfresh hok) hdesc (fun j => ?_)
    (fun _ => watchedDesc_describes hbase hfits) fun hfreed => by cases hfreed⟩
  rw [htable]
  rcases eq_or_ne j i with rfl | hne
  · exact .inr ⟨rfl, update_self ..⟩
  · exact .inl (update_of_ne hne _ _)

end Watch

/-! ## Runs -/

section Runs

variable {Cpu : Type} [DecidableEq Cpu] {h h' : LeakHeap Cpu} {n k : Nat} {L : Cpu → List Word}

omit [DecidableEq Cpu] in
theorem HeapInv.scan {mem : Word → Word} {junk : Word → LeakObjectState} {enough : Nat} {kernelWords leaked : List Word}
    {s : ScanState Cpu} (hi : HeapInv h n L)
    (hscan : ∀ fuel, enough ≤ fuel → leakPolicyScanCallback mem junk fuel kernelWords h.sys.state = .ok (s, leaked)) :
    HeapInv { h with sys := { h.sys with state := s.state }, accessed := fun _ => false } n L := by
  refine hi.of_preserved ?_ fun _ hd => by cases hd
  cases hexec : h.sys.state.executionState with
  | false =>
    have hrun := hscan enough (Nat.le_refl _)
    rw [leakPolicyScanCallback, hexec] at hrun
    cases hrun
    exact ⟨rfl, rfl, rfl, fun _ => .refl _⟩
  | true =>
    obtain ⟨s', hrun, hexp, -⟩ := leakPolicyScanCallback_ok hi.tableInj hi.valid hexec kernelWords
      (Nat.le_max_right enough _)
    rw [hscan _ (Nat.le_max_left _ _)] at hrun
    cases hrun
    exact hexp.ok.preserved

theorem HeapInv.step (hi : HeapInv h n L) (hs : HeapStep h h' k) (hn : n + k ≤ 2 ^ 64) : ∃ L', HeapInv h' (n + k) L' := by
  cases hs with
  | watch c fresh base size state state' d i hfresh hbase hfits hok hassign =>
    exact hi.watch hn hfresh hbase hfits hok hassign
  | watchFails c fresh state hfresh hok =>
    obtain rfl := LeakState.allocate_none hok
    obtain ⟨L', hinv⟩ := hi.inv.step (.allocateFails c fresh _ hfresh hok) hn
    exact ⟨L', hinv, hi.entry, hi.object, hi.freed, hi.accessed⟩
  | free c d i descState hobj => exact ⟨_, hi.free hobj c descState⟩
  | touch d i _ _ => exact ⟨_, hi.touch d⟩
  | scan mem junk enough kernelWords s leaked hscan => exact ⟨_, hi.scan hscan⟩

theorem HeapReachable.inv (h' : HeapReachable h n) (hn : n ≤ 2 ^ 64) : ∃ L, HeapInv h n L := by
  induction h' with
  | init desc => exact ⟨_, HeapInv.init desc⟩
  | step _ hs ih =>
    obtain ⟨L, hL⟩ := ih (Nat.le_trans (Nat.le_add_right _ _) hn)
    exact hL.step hs hn

end Runs

/-! ## Clean scans -/

namespace Describes

variable {v : LeakDescriptor} {base size : Word}

section

variable (h : Describes v base size)

include h

theorem base_word : v.base = base := by
  rw [LeakDescriptor.base, h.base_eq, show (0xffff000000000000 : Word) = ~~~clearIndexMask by decide]
  refine BitVec.eq_of_getLsbD_eq fun j hj => ?_
  rw [BitVec.getLsbD_or, BitVec.getLsbD_not, getLsbD_clearIndexMask hj, decide_eq_true hj, BitVec.getLsbD_setWidth,
    BitVec.getLsbD_setWidth, decide_eq_true hj]
  by_cases hlo : j < 48
  · simp [hlo]
  · simp [hlo, isCanonical_iff.mp h.canonical j (by omega) hj]

theorem size_toNat (hsize : size.toNat < 2 ^ 16) : v.size.toNat = size.toNat := by
  rw [h.size_eq, BitVec.toNat_setWidth, Nat.mod_eq_of_lt hsize]

theorem mem_words (hsize : size.toNat < 2 ^ 16) {addr : Word} :
    addr ∈ v.words ↔ ∃ k, 8 * k ≤ size.toNat ∧ base + BitVec.ofNat 64 (8 * k) = addr := by
  rw [LeakDescriptor.words, h.base_word, h.size_toNat hsize, List.mem_map]
  simp only [List.mem_range]
  refine exists_congr fun k => and_congr_left fun _ => ?_
  omega

theorem contains_eq (hsize : size.toNat < 2 ^ 16) (w : Word) :
    v.contains w = true ↔
      base.setWidth 48 ≤ w.setWidth 48 ∧ (w.setWidth 48).toNat ≤ (base.setWidth 48).toNat + size.toNat := by
  have hw : (w &&& 0xffffffffffff).toNat = w.toNat % 2 ^ 48 := by
    rw [BitVec.toNat_and]
    exact Nat.and_two_pow_sub_one_eq_mod w.toNat 48
  have hb : ((base.setWidth 48).setWidth 64).toNat = base.toNat % 2 ^ 48 := by
    rw [BitVec.toNat_setWidth, BitVec.toNat_setWidth]
    omega
  have hlimit : ((base.setWidth 48).setWidth 64 + (size.setWidth 16).setWidth 64).toNat =
      base.toNat % 2 ^ 48 + size.toNat := by
    rw [BitVec.toNat_add, hb, BitVec.toNat_setWidth, BitVec.toNat_setWidth]
    omega
  rw [LeakDescriptor.contains, h.base_eq, h.size_eq, decide_eq_true_eq, BitVec.le_def, BitVec.le_def, BitVec.le_def, hw, hb,
    hlimit, BitVec.toNat_setWidth, BitVec.toNat_setWidth]

end

end Describes

section Clean

variable {Cpu : Type} {h : LeakHeap Cpu} {n : Nat} {L : Cpu → List Word} {mem : Word → Word} {kernelWords : List Word}
  {junk : Word → LeakObjectState} {d i addr : Word}

theorem HeapInv.table (hi : HeapInv h n L) (hobj : h.IsObject d i) : h.sys.state.descriptors i = d := hi.inv.table d i hobj

theorem HeapInv.mem_scanNodes (hi : HeapInv h n L) (hobj : h.IsObject d i) : i ∈ scanNodes h.sys.state := by
  have hindex : (h.sys.status d).index? = some i := by
    rw [show h.sys.status d = _ from hobj]
    rfl
  refine Watchpoints.mem_scanNodes.mpr ⟨lt_maxNumWatchpoints (hi.inv.index_le d i hindex), ?_⟩
  rw [hi.table hobj]
  exact (hi.inv.valid d i hindex).2

theorem CleanScan.mem_edges (hc : CleanScan h mem kernelWords) (hi : HeapInv h n L) (hobj : h.IsObject d i) :
    addr ∈ (scanMarker h.sys.state mem junk).edges i ↔ ∃ k, 8 * k ≤ (h.size d).toNat ∧ h.word d k = addr := by
  have hvalid := (Watchpoints.mem_scanNodes.mp (hi.mem_scanNodes hobj)).2
  change addr ∈ (if isValidAddress true (h.sys.state.descriptors i) then _ else _) ↔ _
  rw [if_pos hvalid, hi.table hobj]
  exact (hi.object d i hobj).mem_words (hc.size d i hobj)

theorem scanMarker_target {s₀ : LeakState Cpu} {j : Word} :
    (scanMarker s₀ mem junk).target addr = some j ↔
      Refers (mem addr) j ∧ isValidAddress true (s₀.descriptors j) = true := by
  simp only [scanMarker, Bool.and_eq_true, Option.ite_none_right_eq_some, Option.some.injEq, Refers]
  constructor
  · rintro ⟨⟨hwatched, hvalid⟩, rfl⟩
    exact ⟨⟨hwatched, rfl⟩, hvalid⟩
  · rintro ⟨⟨hwatched, rfl⟩, hvalid⟩
    exact ⟨⟨hwatched, hvalid⟩, rfl⟩

theorem CleanScan.reached_of_refers (hc : CleanScan h mem kernelWords) (hd : Reached h mem kernelWords d) {k : Nat}
    (hk : 8 * k ≤ (h.size d).toNat) {d' i' : Word} (hobj : h.IsObject d' i') (href : Refers (mem (h.word d k)) i') :
    Reached h mem kernelWords d' := by
  by_cases hin : 8 * k + 8 ≤ (h.size d).toNat
  · exact .stored d k d' i' hd hin hobj href
  · obtain rfl : k = (h.size d).toNat / 8 := by omega
    exact hc.past_refers d hd d' i' hobj href

theorem CleanScan.reached_of_from (hc : CleanScan h mem kernelWords) (hi : HeapInv h n L)
    (hfrom : (scanMarker h.sys.state mem junk).From (ScanRoot h.sys.state kernelWords) i) :
    ∃ d, h.IsObject d i ∧ Reached h mem kernelWords d := by
  refine hfrom.induct (P := fun i => ∃ d, h.IsObject d i ∧ Reached h mem kernelWords d) (fun i hroot => ?_)
    fun i j ih hedge => ?_
  · obtain ⟨hmem, hroot⟩ := hroot
    have hne := ne_zero_of_mem hmem
    rcases hi.entry i hne with hobj | hfreed
    · refine ⟨_, hobj, ?_⟩
      rcases hroot with hacc | ⟨w, hw, hhands, hin⟩
      · exact .accessed _ i hobj (hc.recent _ i hobj hacc)
      · cases hwatched : isWatchedAddress true w with
        | true => exact .found _ i w hobj hw ⟨hwatched, hhands.2⟩
        | false =>
          exact hc.unwatched _ i hobj w hw hwatched hhands (((hi.object _ i hobj).contains_eq (hc.size _ i hobj) w).mp hin)
    · rcases hroot with hacc | ⟨w, hw, hhands, hin⟩
      · rw [hc.freed_accessed _ i hfreed] at hacc
        cases hacc
      · exact absurd hin (by rw [hc.freed_found _ i hfreed w hw hhands]; decide)
  · obtain ⟨d, hobj, hd⟩ := ih
    obtain ⟨addr, haddr, htarget⟩ := hedge
    obtain ⟨href, hvalid⟩ := scanMarker_target.mp htarget
    obtain ⟨k, hk, rfl⟩ := (hc.mem_edges hi hobj).mp haddr
    have hne : h.sys.state.descriptors j ≠ 0 := by
      intro hzero
      rw [hzero] at hvalid
      revert hvalid
      decide
    rcases hi.entry j hne with hobj' | hfreed
    · exact ⟨_, hobj', hc.reached_of_refers hd hk hobj' href⟩
    · exact absurd href (hc.freed_stored _ j hfreed d hd k hk)

theorem Reached.isObject (hd : Reached h mem kernelWords d) : ∃ i, h.IsObject d i := by
  cases hd with
  | accessed _ i hobj => exact ⟨i, hobj⟩
  | found _ i _ hobj => exact ⟨i, hobj⟩
  | stored _ _ _ i _ _ hobj => exact ⟨i, hobj⟩

theorem CleanScan.from_of_reached (hc : CleanScan h mem kernelWords) (hi : HeapInv h n L) (hd : Reached h mem kernelWords d) :
    ∀ i, h.IsObject d i → (scanMarker h.sys.state mem junk).From (ScanRoot h.sys.state kernelWords) i := by
  induction hd with
  | accessed d i' hobj' hacc =>
    intro i hobj
    refine .root ⟨hi.mem_scanNodes hobj, .inl ?_⟩
    rw [hi.table hobj]
    exact hi.accessed d hacc
  | found d i' w hobj' hw href =>
    intro i hobj
    obtain rfl : i' = i := by
      cases hobj'.symm.trans hobj
      rfl
    obtain ⟨hhanded, hspans⟩ := hc.inside d i' hobj w hw href
    refine .root ⟨hi.mem_scanNodes hobj, .inr ⟨w, hw, ⟨hhanded, href.2⟩, ?_⟩⟩
    rwa [hi.table hobj, (hi.object d i' hobj).contains_eq (hc.size d i' hobj)]
  | stored d k d' i' hd hk hobj' href ih =>
    intro i hobj
    obtain rfl : i' = i := by
      cases hobj'.symm.trans hobj
      rfl
    obtain ⟨j, hobjd⟩ := hd.isObject
    refine (ih j hobjd).step ⟨h.word d k, (hc.mem_edges hi hobjd).mpr ⟨k, by omega, rfl⟩, ?_⟩
    exact scanMarker_target.mpr ⟨href, (Watchpoints.mem_scanNodes.mp (hi.mem_scanNodes hobj)).2⟩

theorem CleanScan.inObject_of_mem_edges (hc : CleanScan h mem kernelWords) (hi : HeapInv h n L) (hobj : h.IsObject d i)
    (hd : Reached h mem kernelWords d) (haddr : addr ∈ (scanMarker h.sys.state mem junk).edges i) {k : Nat} (hk : k < 8) :
    h.InObject (addr.toNat + k) := by
  obtain ⟨m, hm, rfl⟩ := (hc.mem_edges hi hobj).mp haddr
  by_cases hin : 8 * m + 8 ≤ (h.size d).toNat
  · have hfits := (hi.object d i hobj).fits
    have htoNat : (h.word d m).toNat = (h.base d).toNat + 8 * m := by
      rw [LeakHeap.word, BitVec.toNat_add, BitVec.toNat_ofNat]
      omega
    exact ⟨d, i, hobj, by omega, by omega⟩
  · obtain rfl : m = (h.size d).toNat / 8 := by omega
    exact hc.past_inObject d hd k hk

variable {s : ScanState Cpu}

theorem CleanScan.marked_iff (hc : CleanScan h mem kernelWords) (hi : HeapInv h n L)
    (hexp : Explored (scanMarker h.sys.state mem junk)
      (ScanOk h.sys.state mem junk (ScanRoot h.sys.state kernelWords)) (ScanRoot h.sys.state kernelWords)
      (scanStart h.sys.state) s)
    (hroots : ∀ i, ScanRoot h.sys.state kernelWords i → (scanMarker h.sys.state mem junk).marked s i = true)
    (hobj : h.IsObject d i) : (scanMarker h.sys.state mem junk).marked s i = true ↔ Reached h mem kernelWords d := by
  have hstart : ∀ {d i}, h.IsObject d i → (scanMarker h.sys.state mem junk).marked (scanStart h.sys.state) i ≠ true := by
    intro d i hobj hmarked
    change (h.sys.state.desc (h.sys.state.descriptors i)).state.isReachable = true at hmarked
    rw [hi.table hobj, hc.unmarked d i hobj] at hmarked
    cases hmarked
  constructor
  · intro hmarked
    obtain ⟨d', hobj', hd'⟩ := hc.reached_of_from hi ((hexp.reach i hmarked).resolve_left (hstart hobj))
    rwa [← hi.table hobj, hi.table hobj']
  · intro hd
    -- what is marked is closed under edges
    refine (((hc.from_of_reached hi hd i hobj).induct (P := fun j =>
      (scanMarker h.sys.state mem junk).From (ScanRoot h.sys.state kernelWords) j ∧
        (scanMarker h.sys.state mem junk).marked s j = true) (fun a ha => ⟨.root ha, hroots a ha⟩)
      fun a b ih hedge => ⟨ih.1.step hedge, ?_⟩)).2
    obtain ⟨d', hobj', -⟩ := hc.reached_of_from hi ih.1
    exact hexp.closed a b (hstart hobj') ih.2 hedge

theorem HeapInv.isLeaked_iff (hi : HeapInv h n L) (hs : Preserved h.sys.state s.state) (mem : Word → Word)
    (junk : Word → LeakObjectState) :
    i ∈ tableIndices.filter (isLeaked s.state) ↔
      ∃ d, h.IsObject d i ∧ (scanMarker h.sys.state mem junk).marked s i ≠ true := by
  rw [List.mem_filter, isLeaked, hs.descriptors, Bool.and_eq_true, Bool.and_eq_true, Bool.not_eq_true', ← Bool.not_eq_true,
    mem_tableIndices]
  constructor
  · rintro ⟨hlt, ⟨hvalid, hmarked⟩, hactive⟩
    rcases hi.entry i (ne_zero_of_mem (Watchpoints.mem_scanNodes.mpr ⟨hlt, hvalid⟩)) with hobj | hfreed
    · exact ⟨_, hobj, hmarked⟩
    · refine absurd ?_ hmarked
      rcases (hs.desc _).activated hactive with hactive | hmarked
      · exact (hs.desc _).reachable (hi.freed _ i hfreed hactive)
      · exact hmarked
  · rintro ⟨d, hobj, hmarked⟩
    obtain ⟨hlt, hvalid⟩ := Watchpoints.mem_scanNodes.mp (hi.mem_scanNodes hobj)
    refine ⟨hlt, ⟨hvalid, hmarked⟩, ?_⟩
    rw [hi.table hobj]
    exact (hs.desc d).active (hi.object d i hobj).active

theorem HeapInv.scan_good (hi : HeapInv h n L) (hcond : ScanCondition h mem kernelWords) :
    GoodScan h mem kernelWords junk := by
  rw [ScanCondition] at hcond
  refine ⟨(scanNodes h.sys.state).card, fun fuel hfuel => ?_⟩
  split at hcond
  · next hexec =>
      obtain ⟨s, hrun, hexp, hroots⟩ := leakPolicyScanCallback_ok hi.tableInj hi.valid hexec kernelWords hfuel
      refine ⟨s, _, hrun, fun addr haddr k hk => ?_, fun i => ?_⟩
      · obtain ⟨i, hfrom, hedge⟩ := hexp.ok.reads addr haddr
        obtain ⟨d, hobj, hd⟩ := hcond.reached_of_from hi hfrom
        exact hcond.inObject_of_mem_edges hi hobj hd hedge hk
      · rw [hi.isLeaked_iff hexp.ok.preserved mem junk]
        exact exists_congr fun d => and_congr_right fun hobj => not_congr (hcond.marked_iff hi hexp hroots hobj)
  · next hexec =>
      rw [leakPolicyScanCallback, if_pos (by simpa using hexec)]
      refine ⟨_, _, rfl, fun addr haddr => absurd haddr List.not_mem_nil, fun i => ?_⟩
      refine iff_of_false List.not_mem_nil ?_
      rintro ⟨d, hobj, hd⟩
      exact hd (hcond d i hobj)

end Clean

end Granary.Watchpoints
