import Granary.Watchpoints.LeakDescriptors
import Granary.Watchpoints.Lemmas.Descriptors

/-!
# Free lists of the leak detector

An index belongs to one descriptor for good. The storage of a descriptor is read as `index` and `next_free` only while it is
in a free list.
-/

namespace Granary.Watchpoints

open Function (update update_eq_self update_of_ne update_self)

open Machine

theorem leakCheck_bind {β : Type} {site : LeakAssert} {p : Prop} [Decidable p] (hp : p)
    (k : Unit → Except LeakAssert β) : leakCheck site p >>= k = k () := by
  rw [leakCheck, if_pos hp]
  rfl

/-! ## Storage -/

section Storage

variable (d : LeakDescriptor) (index : BitVec 32) (next : Word) (bits : LeakObjectState)

theorem LeakDescriptor.nextFree_setNextFree : (d.setNextFree next).nextFree = next :=
  BitField.get_put_self (by decide)

theorem LeakDescriptor.index_setNextFree : (d.setNextFree next).index = d.index :=
  BitField.get_put_of_disjoint (by decide) (.inl (by decide))

theorem LeakDescriptor.index_setIndex : (d.setIndex index).index = index :=
  BitField.get_put_self (by decide)

theorem LeakDescriptor.index_setState : (d.setState bits).index = d.index := rfl

end Storage

theorem setWidth_index {i : Word} (hi : i ≤ maxCounterIndex) : (i.setWidth 32).setWidth 64 = i := by
  have hle : i.toNat ≤ 0x7fff := BitVec.le_def.mp hi
  apply BitVec.eq_of_toNat_eq
  rw [BitVec.toNat_setWidth, BitVec.toNat_setWidth]
  omega

theorem lt_maxNumWatchpoints {i : Word} (hi : i ≤ maxCounterIndex) : i.toNat < maxNumWatchpoints :=
  Nat.lt_succ_of_le (BitVec.le_def.mp hi)

/-! ## The invariant -/

variable {kernel : Bool} {Cpu : Type} {s s' : LeakSystem Cpu} {c : Cpu} {n k : Nat} {L : Cpu → List Word}
  {d i fresh : Word} {a : Bool}

structure LeakInv (kernel : Bool) (s : LeakSystem Cpu) (n : Nat) (L : Cpu → List Word) : Prop where
  lists : Linked.Lists (fun d => pointer (s.state.desc d).nextFree) (fun c => pointer (s.state.freeList c)) L
  free : ∀ c, ∀ d ∈ L c, ∃ i, s.status d = .freed i ∧ (s.state.desc d).index = i.setWidth 32
  counter : ∃ k ≤ n, s.state.nextCounterIndex = BitVec.ofNat 64 k ∧
    ∀ d i, (s.status d).index? = some i → i.toNat < k
  index_le : ∀ d i, (s.status d).index? = some i → i ≤ maxCounterIndex
  index_inj : ∀ d d' i, (s.status d).index? = some i → (s.status d').index? = some i → d = d'
  valid : ∀ d i, (s.status d).index? = some i → d ≠ 0 ∧ isValidAddress kernel d = true
  table : ∀ d i, s.status d = .live i true → s.state.descriptors i = d

theorem LeakInv.init (desc : Word → LeakDescriptor) :
    LeakInv kernel (LeakSystem.init desc : LeakSystem Cpu) 0 fun _ => [] where
  lists := ⟨fun _ => rfl, fun h => (nomatch h)⟩
  free _ _ h := nomatch h
  counter := ⟨0, Nat.le_refl 0, rfl, fun _ _ h => nomatch h⟩
  index_le _ _ h := nomatch h
  index_inj _ _ _ h := nomatch h
  valid _ _ h := nomatch h
  table _ _ h := nomatch h

theorem LeakInv.goodTable (h : LeakInv kernel s n L) : GoodTable s where
  index_le d i a hd := h.index_le d i (by rw [hd]; rfl)
  index_inj d d' i a a' hd hd' := h.index_inj d d' i (by rw [hd]; rfl) (by rw [hd']; rfl)
  access d i hd := by
    have hi : i ≤ maxCounterIndex := h.index_le d i (by rw [hd]; rfl)
    rw [LeakState.access, leakCheck_bind (lt_maxNumWatchpoints hi), h.table d i hd]
    rfl

theorem LeakInv.not_mem_of_live (h : LeakInv kernel s n L) (hd : s.status d = .live i a) (c : Cpu) : d ∉ L c := by
  intro hmem
  obtain ⟨j, hj, -⟩ := h.free c d hmem
  rw [hd] at hj
  cases hj

theorem LeakInv.write (h : LeakInv kernel s n L) (hd : ∀ c, d ∉ L c) (v : LeakDescriptor) :
    LeakInv kernel { s with state := { s.state with desc := update s.state.desc d v } } n L where
  __ := h
  lists := by
    refine h.lists.congr fun c x hx => ?_
    have hne : x ≠ d := ne_of_mem_of_not_mem hx (hd c)
    exact congrArg (fun y => pointer (LeakDescriptor.nextFree y)) (update_of_ne hne _ _)
  free c x hx := by
    obtain ⟨i, hi, hindex⟩ := h.free c x hx
    have hne : x ≠ d := ne_of_mem_of_not_mem hx (hd c)
    exact ⟨i, hi, (congrArg LeakDescriptor.index (update_of_ne hne _ _)).trans hindex⟩

variable {state : LeakState Cpu}

theorem LeakInv.congr (h : LeakInv kernel s n L)
    (hnext : state.nextCounterIndex = s.state.nextCounterIndex) (hfree : state.freeList = s.state.freeList)
    (htable : state.descriptors = s.state.descriptors)
    (hunion : ∀ d, (state.desc d).union_ = (s.state.desc d).union_) : LeakInv kernel { s with state } n L where
  __ := h
  lists := by
    have hlinks : (fun d => pointer (state.desc d).nextFree) = fun d => pointer (s.state.desc d).nextFree := by
      funext d
      rw [LeakDescriptor.nextFree, LeakDescriptor.nextFree, hunion]
    have hheads : (fun c => pointer (state.freeList c)) = fun c => pointer (s.state.freeList c) := by rw [hfree]
    rw [hlinks, hheads]
    exact h.lists
  free c d hd := by
    obtain ⟨i, hi, hindex⟩ := h.free c d hd
    refine ⟨i, hi, ?_⟩
    rw [← hindex, LeakDescriptor.index, LeakDescriptor.index, hunion]
  counter := by
    rw [hnext]
    exact h.counter
  table := by
    rw [htable]
    exact h.table

theorem LeakInv.setExecutionState (h : LeakInv kernel s n L) (b : Bool) :
    LeakInv kernel { s with state := { s.state with executionState := b } } n L :=
  h.congr rfl rfl rfl fun _ => rfl

theorem index?_update {f : Word → LeakStatus} {st : LeakStatus} (h : st.index? = (f d).index?) (x : Word) :
    (update f d st x).index? = (f x).index? := by
  by_cases hx : x = d
  · rw [hx, update_self, h]
  · rw [update_of_ne hx]

theorem LeakInv.restatus (h : LeakInv kernel s n L) {st : LeakStatus} (hindex : st.index? = (s.status d).index?)
    (hd : ∀ c, d ∉ L c) (htable : ∀ i, st = .live i true → s.state.descriptors i = d) :
    LeakInv kernel { s with status := update s.status d st } n L where
  lists := h.lists
  free c x hx := by
    obtain ⟨i, hi, hx'⟩ := h.free c x hx
    exact ⟨i, (update_of_ne (ne_of_mem_of_not_mem hx (hd c)) _ _).trans hi, hx'⟩
  counter := by
    obtain ⟨k, hk, hnext, hlt⟩ := h.counter
    exact ⟨k, hk, hnext, fun x i hx => hlt x i ((index?_update hindex x).symm.trans hx)⟩
  index_le x i hx := h.index_le x i ((index?_update hindex x).symm.trans hx)
  index_inj x y i hx hy :=
    h.index_inj x y i ((index?_update hindex x).symm.trans hx) ((index?_update hindex y).symm.trans hy)
  valid x i hx := h.valid x i ((index?_update hindex x).symm.trans hx)
  table x i hx := by
    change update s.status d st x = _ at hx
    by_cases hxd : x = d
    · rw [hxd, update_self] at hx
      rw [hxd]
      exact htable i hx
    · rw [update_of_ne hxd] at hx
      exact h.table x i hx

/-! ## Allocation -/

variable [DecidableEq Cpu]

theorem LeakInv.allocate_reuse (h : LeakInv kernel s n L) (hne : s.state.freeList c ≠ 0) (fresh : Word) :
    ∃ d l i, L c = d :: l ∧ s.status d = .freed i ∧ s.state.allocate c fresh = .ok ({ s.state with
      freeList := update s.state.freeList c (s.state.desc d).nextFree
      desc := update s.state.desc d { LeakDescriptor.zero with state := LeakObjectState.active }
      executionState := true }, some (d, i)) := by
  have hchain := h.lists.chain c
  rw [pointer_of_ne hne] at hchain
  obtain ⟨l, hl⟩ := hchain.exists_cons
  obtain ⟨i, hi, hindex⟩ := h.free c (s.state.freeList c) (by simp [hl])
  have hle : i ≤ maxCounterIndex := h.index_le _ i (by rw [hi]; rfl)
  refine ⟨_, l, i, hl, hi, ?_⟩
  rw [LeakState.allocate, if_pos hne, hindex, setWidth_index hle]
  exact leakCheck_bind hle _

theorem LeakState.allocate_counter (hzero : state.freeList c = 0)
    (hle : state.nextCounterIndex ≤ maxCounterIndex) :
    state.allocate c fresh = .ok ({ state with
      nextCounterIndex := state.nextCounterIndex + 1
      desc := update state.desc fresh { LeakDescriptor.zero with state := LeakObjectState.active }
      executionState := true }, some (fresh, state.nextCounterIndex)) := by
  have hlt : ¬maxCounterIndex < state.nextCounterIndex := BitVec.not_lt.mpr hle
  rw [LeakState.allocate, if_neg (not_not_intro hzero)]
  dsimp only
  rw [if_neg hlt]
  exact leakCheck_bind hle _

theorem LeakState.allocate_end (hzero : state.freeList c = 0)
    (hlt : maxCounterIndex < state.nextCounterIndex) (fresh : Word) :
    state.allocate c fresh = .ok ({ state with nextCounterIndex := state.nextCounterIndex + 1 }, none) := by
  rw [LeakState.allocate, if_neg (not_not_intro hzero)]
  exact if_pos hlt

theorem LeakInv.pop (h : LeakInv kernel s n L) {l : List Word} (hl : L c = d :: l) :
    LeakInv kernel { s with state := { s.state with
      freeList := update s.state.freeList c (s.state.desc d).nextFree } } n (update L c l) where
  __ := h
  lists := by
    have hchain := h.lists.chain c
    rw [hl] at hchain
    rw [pointer_update]
    exact h.lists.shrink hchain.2 (fun x hx => by simp [hl, hx]) fun _ _ => rfl
  free c' x hx := h.free c' x ((Linked.mem_iff_of_perm (List.Perm.of_eq hl)).mpr (.inl hx))

theorem LeakInv.reuse (h : LeakInv kernel s n L) {l : List Word} (hl : L c = d :: l) (hd : s.status d = .freed i) :
    ∃ L', LeakInv kernel
      { state := { s.state with
          freeList := update s.state.freeList c (s.state.desc d).nextFree
          desc := update s.state.desc d { LeakDescriptor.zero with state := LeakObjectState.active }
          executionState := true }
        status := update s.status d (.live i false) } n L' := by
  have hno := h.lists.not_mem_of_perm (List.Perm.of_eq hl)
  have hindex : (LeakStatus.live i false).index? = (s.status d).index? := by
    rw [hd]
    rfl
  have hlive := (h.pop hl).restatus hindex hno fun i' hi' => by cases hi'
  exact ⟨_, (hlive.write hno _).setExecutionState true⟩

section

omit [DecidableEq Cpu]

theorem LeakInv.hand (h : LeakInv kernel s n L) (hn : n < 2 ^ 64) (hfresh : s.Fresh kernel fresh)
    (hle : s.state.nextCounterIndex ≤ maxCounterIndex) :
    LeakInv kernel { state := { s.state with nextCounterIndex := s.state.nextCounterIndex + 1 }
                     status := update s.status fresh (.live s.state.nextCounterIndex false) } (n + 1) L := by
  obtain ⟨k, hk, hnext, hlt⟩ := h.counter
  have htoNat : s.state.nextCounterIndex.toNat = k := by
    rw [hnext, BitVec.toNat_ofNat, Nat.mod_eq_of_lt (Nat.lt_of_le_of_lt hk hn)]
  have hindex : ∀ {x i}, (update s.status fresh (.live s.state.nextCounterIndex false) x).index? = some i →
      x = fresh ∧ i = s.state.nextCounterIndex ∨ x ≠ fresh ∧ (s.status x).index? = some i ∧ i.toNat < k := by
    intro x i hx
    by_cases hxf : x = fresh
    · rw [hxf, update_self] at hx
      exact .inl ⟨hxf, (Option.some.inj hx).symm⟩
    · rw [update_of_ne hxf] at hx
      exact .inr ⟨hxf, hx, hlt x i hx⟩
  refine ⟨h.lists, fun c x hx => ?_, ⟨k + 1, Nat.succ_le_succ hk, ?_, fun x i hx => ?_⟩, fun x i hx => ?_,
    fun x y i hx hy => ?_, fun x i hx => ?_, fun x i hx => ?_⟩
  · obtain ⟨i, hi, hx'⟩ := h.free c x hx
    have hne : x ≠ fresh := by
      rintro rfl
      exact absurd hfresh.2.2 (by rw [hi]; exact Option.some_ne_none i)
    exact ⟨i, (update_of_ne hne _ _).trans hi, hx'⟩
  · change s.state.nextCounterIndex + 1 = _
    rw [hnext, BitVec.ofNat_add]
    rfl
  · rcases hindex hx with ⟨-, rfl⟩ | ⟨-, -, hi⟩
    · exact Nat.lt_succ_of_le (Nat.le_of_eq htoNat)
    · exact Nat.lt_succ_of_lt hi
  · rcases hindex hx with ⟨-, rfl⟩ | ⟨-, hx, -⟩
    · exact hle
    · exact h.index_le x i hx
  · rcases hindex hx with ⟨rfl, rfl⟩ | ⟨-, hx, hi⟩
    · rcases hindex hy with ⟨rfl, -⟩ | ⟨-, -, hi⟩
      · rfl
      · exact absurd hi (by omega)
    · rcases hindex hy with ⟨-, rfl⟩ | ⟨-, hy, -⟩
      · exact absurd hi (by omega)
      · exact h.index_inj x y i hx hy
  · rcases hindex hx with ⟨rfl, -⟩ | ⟨-, hx, -⟩
    · exact ⟨hfresh.1, hfresh.2.1⟩
    · exact h.valid x i hx
  · change update s.status fresh _ x = _ at hx
    by_cases hxf : x = fresh
    · rw [hxf, update_self] at hx
      cases hx
    · rw [update_of_ne hxf] at hx
      exact h.table x i hx

theorem LeakSystem.Fresh.not_mem (hfresh : s.Fresh kernel fresh) (h : LeakInv kernel s n L) (c : Cpu) : fresh ∉ L c := by
  intro hmem
  obtain ⟨i, hi, -⟩ := h.free c fresh hmem
  have hnone := hfresh.2.2
  rw [hi] at hnone
  cases hnone

theorem LeakInv.miss (h : LeakInv kernel s n L) :
    LeakInv kernel { s with state := { s.state with nextCounterIndex := s.state.nextCounterIndex + 1 } } (n + 1) L where
  __ := h
  counter := by
    obtain ⟨k, hk, hnext, hlt⟩ := h.counter
    refine ⟨k + 1, Nat.succ_le_succ hk, ?_, fun d i hd => Nat.lt_succ_of_lt (hlt d i hd)⟩
    change s.state.nextCounterIndex + 1 = _
    rw [hnext, BitVec.ofNat_add]
    rfl

theorem LeakInv.mono {m : Nat} (h : LeakInv kernel s n L) (hm : n ≤ m) : LeakInv kernel s m L := by
  obtain ⟨k, hk, hrest⟩ := h.counter
  exact ⟨h.lists, h.free, ⟨k, Nat.le_trans hk hm, hrest⟩, h.index_le, h.index_inj, h.valid, h.table⟩

end

/-! ## Other calls -/

omit [DecidableEq Cpu] in
theorem LeakInv.assign (h : LeakInv kernel s n L) (hd : s.status d = .live i a) :
    ∃ state, s.state.assign d i = .ok state ∧
      LeakInv kernel { state, status := update s.status d (.live i true) } n L := by
  have hsome : (s.status d).index? = some i := by
    rw [hd]
    rfl
  have hindex : (LeakStatus.live i true).index? = (s.status d).index? := hsome.symm
  have hno := h.not_mem_of_live hd
  refine ⟨_, leakCheck_bind (lt_maxNumWatchpoints (h.index_le d i hsome)) _, ?_⟩
  -- no other descriptor loses its place in the table
  have htable : LeakInv kernel { s with state := { s.state with
      descriptors := update s.state.descriptors i d } } n L := by
    refine ⟨h.lists, h.free, h.counter, h.index_le, h.index_inj, h.valid, fun x j hx => ?_⟩
    change update s.state.descriptors i d j = x
    by_cases hji : j = i
    · subst hji
      rw [update_self]
      exact h.index_inj d x j hsome (by rw [show s.status x = .live j true from hx]; rfl)
    · rw [update_of_ne hji]
      exact h.table x j hx
  exact (htable.write hno _).restatus hindex hno fun j hj => by
    cases hj
    exact update_self ..

theorem LeakInv.push (h : LeakInv kernel s n L) (hno : ∀ c, d ∉ L c) (hd : s.status d = .freed i)
    (hindex : (s.state.desc d).index = i.setWidth 32) (hnext : (s.state.desc d).nextFree = s.state.freeList c) :
    LeakInv kernel { s with state := { s.state with freeList := update s.state.freeList c d } } n
      (update L c (d :: L c)) where
  __ := h
  lists := by
    have hne : d ≠ 0 := (h.valid d i (by rw [hd]; rfl)).1
    have hlists := h.lists.push hno c
    have hsame : update (fun d => pointer (s.state.desc d).nextFree) d (pointer (s.state.freeList c)) =
        fun d => pointer (s.state.desc d).nextFree := by
      rw [← hnext]
      exact update_eq_self d _
    rw [hsame] at hlists
    rw [pointer_update, pointer_of_ne hne]
    exact hlists
  free c' x hx := by
    rcases Linked.mem_update_cons.mp hx with hx | ⟨-, rfl⟩
    · exact h.free c' x hx
    · exact ⟨i, hd, hindex⟩

theorem LeakInv.giveBack (h : LeakInv kernel s n L) (hd : s.status d = .live i a) {v : LeakDescriptor}
    (hindex : v.index = i.setWidth 32) (hnext : v.nextFree = s.state.freeList c) :
    LeakInv kernel
      { state := { s.state with
          desc := update s.state.desc d v
          freeList := update s.state.freeList c d }
        status := update s.status d (.freed i) } n (update L c (d :: L c)) := by
  have hsome : (LeakStatus.freed i).index? = (s.status d).index? := by
    rw [hd]
    rfl
  have hno := h.not_mem_of_live hd
  have hfreed := (h.write hno v).restatus hsome hno fun j hj => by cases hj
  have hv : update s.state.desc d v d = v := update_self ..
  exact hfreed.push hno (update_self ..) ((congrArg LeakDescriptor.index hv).trans hindex)
    ((congrArg LeakDescriptor.nextFree hv).trans hnext)

theorem LeakInv.free_ok (h : LeakInv kernel s n L) (hd : s.status d = .live i a) (descState : LeakObjectState) :
    LeakInv kernel { state := s.state.free kernel c d i descState
                     status := update s.status d (.freed i) } n (update L c (d :: L c)) := by
  rw [LeakState.free, if_pos (h.valid d i (by rw [hd]; rfl)).2]
  refine h.giveBack hd ?_ (LeakDescriptor.nextFree_setNextFree _ _)
  rw [LeakDescriptor.index_setNextFree, LeakDescriptor.index_setState, LeakDescriptor.index_setIndex]

/-! ## Runs -/

theorem LeakInv.step (h : LeakInv kernel s n L) (hs : LeakStep kernel s s' k) (hn : n + k ≤ 2 ^ 64) :
    ∃ L', LeakInv kernel s' (n + k) L' := by
  cases hs with
  | allocate c fresh state desc index hfresh hok =>
    by_cases hzero : s.state.freeList c = 0
    · by_cases hle : s.state.nextCounterIndex ≤ maxCounterIndex
      · rw [LeakState.allocate_counter hzero hle] at hok
        cases hok
        have hinv := h.hand (Nat.lt_of_succ_le hn) hfresh hle
        have hno := hfresh.not_mem h
        exact ⟨L, (hinv.write hno _).setExecutionState true⟩
      · rw [LeakState.allocate_end hzero (BitVec.not_le.mp hle)] at hok
        cases hok
    · obtain ⟨d, l, i, hl, hd, halloc⟩ := h.allocate_reuse hzero fresh
      rw [halloc] at hok
      cases hok
      obtain ⟨L', hinv⟩ := h.reuse hl hd
      exact ⟨L', hinv.mono (Nat.le_succ n)⟩
  | allocateFails c fresh state hfresh hok =>
    by_cases hzero : s.state.freeList c = 0
    · by_cases hle : s.state.nextCounterIndex ≤ maxCounterIndex
      · rw [LeakState.allocate_counter hzero hle] at hok
        cases hok
      · rw [LeakState.allocate_end hzero (BitVec.not_le.mp hle)] at hok
        cases hok
        exact ⟨L, h.miss⟩
    · obtain ⟨d, l, i, hl, hd, halloc⟩ := h.allocate_reuse hzero fresh
      rw [halloc] at hok
      cases hok
  | init desc index baseAddress size assigned hd => exact ⟨L, h.write (h.not_mem_of_live hd) _⟩
  | assign desc index assigned state hd hok =>
    obtain ⟨state', hok', hinv⟩ := h.assign hd
    rw [hok'] at hok
    cases hok
    exact ⟨L, hinv⟩
  | free c desc index assigned descState hd => exact ⟨_, h.free_ok hd descState⟩

theorem LeakReachable.inv (h : LeakReachable kernel s n) (hn : n ≤ 2 ^ 64) : ∃ L, LeakInv kernel s n L := by
  induction h with
  | init desc => exact ⟨_, LeakInv.init desc⟩
  | step _ hs ih =>
    obtain ⟨L, hL⟩ := ih (Nat.le_trans (Nat.le_add_right _ _) hn)
    exact hL.step hs hn

theorem LeakInv.goodReuse (h : LeakInv kernel s n L) : GoodReuse kernel s := by
  intro c fresh hfresh
  by_cases hzero : s.state.freeList c = 0
  · by_cases hle : s.state.nextCounterIndex ≤ maxCounterIndex
    · refine ⟨_, _, LeakState.allocate_counter hzero hle, fun desc index hres i hi => ?_⟩
      cases hres
      have hnone := hfresh.2.2
      rw [hi] at hnone
      cases hnone
    · refine ⟨_, _, LeakState.allocate_end hzero (BitVec.not_le.mp hle) fresh, fun desc index hres => ?_⟩
      cases hres
  · obtain ⟨d, l, j, hl, hd, halloc⟩ := h.allocate_reuse hzero fresh
    refine ⟨_, _, halloc, fun desc index hres i hi => ?_⟩
    cases hres
    rw [hd] at hi
    cases hi
    rfl

/-! ## The end of the counter -/

def slabEntry (j : Nat) : Word := BitVec.ofNat 64 (0xffff880000000000 + 16 * j)

theorem toNat_slabEntry {j : Nat} (hj : j ≤ maxNumWatchpoints) : (slabEntry j).toNat = 0xffff880000000000 + 16 * j := by
  have hj' : j ≤ 0x8000 := hj
  rw [slabEntry, BitVec.toNat_ofNat]
  omega

theorem isValidAddress_slabEntry {j : Nat} (hj : j ≤ maxNumWatchpoints) : isValidAddress true (slabEntry j) = true := by
  have hj' : j ≤ 0x8000 := hj
  have hbit : ((1 : Word) &&& slabEntry j >>> 47).toNat = 1 := by
    rw [BitVec.toNat_and, BitVec.toNat_ushiftRight, toNat_slabEntry hj, Nat.shiftRight_eq_div_pow, Nat.and_comm,
      show (1 : Word).toNat = 1 from rfl, Nat.and_one_is_mod]
    omega
  rw [isValidAddress, if_pos rfl, decide_eq_true_iff]
  intro hzero
  rw [hzero] at hbit
  cases hbit

structure Exhausting (s : LeakSystem Unit) (n : Nat) : Prop where
  reachable : LeakReachable true s n
  freeList : s.state.freeList () = 0
  counter : s.state.nextCounterIndex = BitVec.ofNat 64 n
  first : 0 < n → s.status (slabEntry 0) = .live 0 false
  used : ∀ d, (s.status d).index? ≠ none → ∃ j < min n maxNumWatchpoints, d = slabEntry j

theorem Exhausting.exists_fresh {s : LeakSystem Unit} (h : Exhausting s n) :
    s.Fresh true (slabEntry (min n maxNumWatchpoints)) := by
  have hle : min n maxNumWatchpoints ≤ maxNumWatchpoints := Nat.min_le_right _ _
  refine ⟨fun hzero => ?_, isValidAddress_slabEntry hle, ?_⟩
  · have hsum := toNat_slabEntry hle
    have hnum : (slabEntry (min n maxNumWatchpoints)).toNat = 0 := congrArg BitVec.toNat hzero
    omega
  · by_contra hused
    obtain ⟨j, hj, heq⟩ := h.used _ hused
    have := congrArg BitVec.toNat heq
    rw [toNat_slabEntry hle, toNat_slabEntry (Nat.le_of_lt (Nat.lt_of_lt_of_le hj hle))] at this
    omega

theorem exists_exhausting (hn : n ≤ 2 ^ 64) : ∃ s, Exhausting s n := by
  induction n with
  | zero => exact ⟨.init fun _ => .zero, .init _, rfl, rfl, fun h => absurd h (Nat.lt_irrefl 0), fun d hd => absurd rfl hd⟩
  | succ n ih =>
    obtain ⟨s, h⟩ := ih (Nat.le_of_succ_le hn)
    have htoNat : s.state.nextCounterIndex.toNat = n := by
      rw [h.counter, BitVec.toNat_ofNat, Nat.mod_eq_of_lt hn]
    have hnext : s.state.nextCounterIndex + 1 = BitVec.ofNat 64 (n + 1) := by
      rw [h.counter, BitVec.ofNat_add]
      rfl
    by_cases hle : s.state.nextCounterIndex ≤ maxCounterIndex
    · have hmin : min n maxNumWatchpoints = n := by
        have := lt_maxNumWatchpoints hle
        omega
      have hfresh := h.exists_fresh
      rw [hmin] at hfresh
      refine ⟨_, h.reachable.step (.allocate () _ _ _ _ hfresh (LeakState.allocate_counter h.freeList hle)),
        h.freeList, hnext, fun _ => ?_, fun d hd => ?_⟩
      · change update s.status (slabEntry n) (.live s.state.nextCounterIndex false) (slabEntry 0) = _
        by_cases hzero : n = 0
        · rw [hzero, update_self, h.counter, hzero]
          rfl
        · have hused := h.first (Nat.pos_of_ne_zero hzero)
          have hne : slabEntry 0 ≠ slabEntry n := by
            intro he
            have hnone := hfresh.2.2
            rw [← he, hused] at hnone
            cases hnone
          rw [update_of_ne hne, hused]
      · change (update s.status (slabEntry n) _ d).index? ≠ none at hd
        have hlt : n < min (n + 1) maxNumWatchpoints := by
          have := lt_maxNumWatchpoints hle
          omega
        by_cases hdn : d = slabEntry n
        · exact ⟨n, hlt, hdn⟩
        · rw [update_of_ne hdn] at hd
          obtain ⟨j, hj, hdj⟩ := h.used d hd
          exact ⟨j, Nat.lt_of_lt_of_le hj (by omega), hdj⟩
    · refine ⟨_, h.reachable.step (.allocateFails () _ _ h.exists_fresh
        (LeakState.allocate_end h.freeList (BitVec.not_le.mp hle) _)), h.freeList, hnext, fun _ => ?_, fun d hd => ?_⟩
      · refine h.first (Nat.pos_of_ne_zero fun hzero => hle ?_)
        rw [h.counter, hzero]
        decide
      · obtain ⟨j, hj, hdj⟩ := h.used d hd
        exact ⟨j, Nat.lt_of_lt_of_le hj (by omega), hdj⟩

theorem Exhausting.not_goodTable {s : LeakSystem Unit} (h : Exhausting s (2 ^ 64)) :
    ∃ s' : LeakSystem Unit, LeakReachable true s' (2 ^ 64 + 1) ∧ ¬GoodTable s' := by
  have hcounter : s.state.nextCounterIndex = 0 := h.counter
  have hle : s.state.nextCounterIndex ≤ maxCounterIndex := by
    rw [hcounter]
    decide
  have hfresh := h.exists_fresh
  have hused := h.first (by decide)
  have hne : slabEntry 0 ≠ slabEntry (min (2 ^ 64) maxNumWatchpoints) := by
    intro he
    have hnone := hfresh.2.2
    rw [← he, hused] at hnone
    cases hnone
  refine ⟨_, h.reachable.step (.allocate () _ _ _ _ hfresh (LeakState.allocate_counter h.freeList hle)), fun hgood => ?_⟩
  have hlast : update s.status (slabEntry (min (2 ^ 64) maxNumWatchpoints)) (.live s.state.nextCounterIndex false)
      (slabEntry (min (2 ^ 64) maxNumWatchpoints)) = .live 0 false := by
    rw [update_self, hcounter]
  have hfirst : update s.status (slabEntry (min (2 ^ 64) maxNumWatchpoints)) (.live s.state.nextCounterIndex false)
      (slabEntry 0) = .live 0 false := by
    rw [update_of_ne hne, hused]
  exact hne (hgood.index_inj _ _ 0 false false hfirst hlast)

end Granary.Watchpoints
