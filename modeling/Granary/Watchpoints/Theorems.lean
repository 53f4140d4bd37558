import Granary.Watchpoints.Lemmas.BoundsCheck
import Granary.Watchpoints.Lemmas.LeakHeap
import Granary.Watchpoints.Lemmas.Rcu
import Granary.Watchpoints.Lemmas.RcuLog
import Granary.Watchpoints.LeakPolicies

/-!
# Watchpoints

What watched addresses can be taken apart into, what the RCU debugger finds out with them and reports, which descriptors
bounds are kept in, and how they are checked.
-/

namespace Granary.Watchpoints

open Function (update update_apply)

open Machine

/-! ## `taint` -/

/-- A canonical address is not watched. However often a valid one is tainted, it is watched then, address and last index are
recovered, and `rcudbg` gets its ids and its bit back. -/
theorem taint_roundTrip (kernel : Bool) (ptr : Word) (hptr : IsCanonical kernel ptr) : isWatchedAddress kernel ptr = false ∧
    (isValidAddress kernel ptr = true → ∀ (indexes : List Word) (index : Word), (∀ i ∈ indexes, i ≤ maxCounterIndex) →
      index ≤ maxCounterIndex → ∃ addr, (indexes ++ [index]).foldlM (taint kernel) ptr = some addr ∧
        isWatchedAddress kernel addr = true ∧ unwatchedAddress kernel addr = ptr ∧ counterIndexOf addr = index) ∧
    (isValidAddress kernel ptr = true → ∀ (indexes : List Word) (index : RcudbgCounterIndex) (id : BitVec 14) (b : Bool),
      (∀ i ∈ indexes, i ≤ maxCounterIndex) →
      (∃ addr : RcudbgWatchedAddress,
        (indexes ++ [((index.setIsDeref b).setReadSectionId id).asUint]).foldlM (taint kernel) ptr = some addr ∧
        addr.readSectionId = id ∧ addr.isDeref = b) ∧
      ∃ addr : RcudbgWatchedAddress,
        (indexes ++ [((index.setIsDeref b).setAssignLocationId id).asUint]).foldlM (taint kernel) ptr = some addr ∧
        addr.assignLocationId = id ∧ addr.isDeref = b) := by
  refine ⟨isWatchedAddress_of_isCanonical hptr, fun hvalid indexes index _ hindex => ?_,
    fun hvalid indexes index id b _ => ⟨?_, ?_⟩⟩
  · exact ⟨_, foldlM_taint hvalid indexes, isWatchedAddress_withCounterIndex hvalid,
      unwatchedAddress_withCounterIndex hptr, counterIndexOf_withCounterIndex hindex⟩
  · exact ⟨_, foldlM_taint hvalid indexes, rcudbg_withCounterIndex index id b⟩
  · exact ⟨_, foldlM_taint hvalid indexes, rcudbg_withCounterIndex index id b⟩

theorem taint_roundTrip_user :
    (∃ addr, [0x7fff, 5].foldlM (taint false) 0x7fff00001000 = some addr ∧ isWatchedAddress false addr = true ∧
      unwatchedAddress false addr = 0x7fff00001000 ∧ counterIndexOf addr = 5) ∧
    ∃ addr : RcudbgWatchedAddress,
      [0x7fff, RcudbgCounterIndex.asUint (.setReadSectionId 5 (.setIsDeref true 0))].foldlM (taint false) 0x7fff00001000 =
        some addr ∧ addr.readSectionId = 5 ∧ addr.isDeref = true := by
  have hindexes : ∀ i ∈ [(0x7fff : Word)], i ≤ maxCounterIndex := List.forall_mem_singleton.mpr (by decide)
  obtain ⟨_, htaint, hrcudbg⟩ := taint_roundTrip false 0x7fff00001000 (by decide)
  exact ⟨htaint (by decide) [0x7fff] 5 hindexes (by decide), (hrcudbg (by decide) [0x7fff] 0 5 true hindexes).1⟩

/-! ## `rcudbg` -/

/-- A pointer that was dereferenced in an outermost section is reported as leaked if read outside of all sections, as one of
the wrong section in another outermost section, and not at all in the same one. -/
theorem read_reports_section (kernel : Bool) (getLocationCarat : BitVec 14 → Carat) (fuel : Nat) {Thread : Type}
    [DecidableEq Thread] (before between : List (RcuEvent Thread)) (t t' : Thread) (derefedPtr ptr : Word) (carat : Carat)
    (index : RcudbgCounterIndex) (n : Nat)
    (hshallow : Sections.Shallow (before ++ .dereference t derefedPtr ptr carat index :: between))
    (hentered : (Sections.after (before ++ .dereference t derefedPtr ptr carat index :: between)).entered < 2 ^ 14)
    (hinside : (Sections.after before).Inside t n) (hvalid : isValidAddress kernel ptr = true) :
    ∃ s₁ s₂ s₃ r addr, RcuState.run kernel getLocationCarat (fuel + 1) before .init = .ok s₁ ∧
      s₁.step kernel getLocationCarat (fuel + 1) (.dereference t derefedPtr ptr carat index) = .ok (s₂, r) ∧
      r.pointer = some addr ∧ RcuState.run kernel getLocationCarat (fuel + 1) between s₂ = .ok s₃ ∧
      -- at the pointer or near it
      ∀ q : Word, BitField.get 47 17 q = BitField.get 47 17 addr →
        ∃ s₄ r', s₃.step kernel getLocationCarat (fuel + 1) (.access t' q true) = .ok (s₄, r') ∧
          Reports (Sections.after (before ++ .dereference t derefedPtr ptr carat index :: between)) t' n r' ∧
          (s₃.log.nextLogOffset < maxNumMessages → ∀ m ∈ r'.messages, ∃ i, s₄.log.messages i = some m) := by
  have hafter : Sections.after (before ++ .dereference t derefedPtr ptr carat index :: between) =
      between.foldl Sections.step (Sections.after before) := by
    rw [Sections.after, List.foldl_append]
    rfl
  rw [hafter] at hentered ⊢
  have hbefore : (Sections.after before).entered < 2 ^ 14 :=
    Nat.lt_of_le_of_lt (Sections.entered_le_foldl _ _) hentered
  obtain ⟨s₁, hrun₁, h₁⟩ := Tracks.init.run_ok kernel getLocationCarat
    (fun past hpast => hshallow past (hpast.trans (List.prefix_append _ _))) hbefore
  obtain ⟨s₂, r, addr, hderef, haddr, h₂, hwatched, hbit, hid⟩ :=
    Tracks.dereference kernel getLocationCarat (show Tracks (Sections.after before) s₁ from h₁) hinside hvalid
  have hbetween : ∀ past, past <+: between → ∀ u, (past.foldl Sections.step (Sections.after before)).depth u ≤ 2 := by
    intro past hpast
    have := hshallow (before ++ .dereference t derefedPtr ptr carat index :: past)
      ((List.prefix_append_right_inj _).mpr (List.cons_prefix_cons.mpr ⟨rfl, hpast⟩))
    rwa [Sections.after, List.foldl_append] at this
  obtain ⟨s₃, hrun₃, h₃⟩ := h₂.run_ok kernel getLocationCarat hbetween hentered
  have hn : n < 2 ^ 14 := by
    rw [← hinside.2]
    exact Nat.lt_of_le_of_lt (h₂.current_le t) hbefore
  refine ⟨s₁, s₂, s₃, r, addr, hrun₁, hderef, haddr, hrun₃, fun q hq => ?_⟩
  obtain ⟨hwatched', hid', hbit'⟩ := RcudbgWatchedAddress.congr hq
  exact h₃.read kernel getLocationCarat hentered hn (hwatched'.trans hwatched) (hbit'.trans hbit) (hid'.trans hid)

/-- One thread dereferences in its first section, another one enters the second and reads. -/
theorem read_reports_section_wrong :
    ∃ s₁ s₂ s₃ r addr, RcuState.run false (fun _ => none) 1 [.readLock false "a"] .init = .ok s₁ ∧
      s₁.step false (fun _ => none) 1 (.dereference false 0x1000 0x2000 "b" 0) = .ok (s₂, r) ∧ r.pointer = some addr ∧
      RcuState.run false (fun _ => none) 1 [.readLock true "c"] s₂ = .ok s₃ ∧
      ∃ s₄ r', s₃.step false (fun _ => none) 1 (.access true addr true) = .ok (s₄, r') ∧
        r'.Logs .accessOfWrongRcuDereferencedPointer := by
  have hshallow : Sections.Shallow ([.readLock false (some "a")] ++ .dereference false 0x1000 0x2000 (some "b") 0 ::
      [.readLock true (some "c")]) := by
    intro past hpast
    rw [← List.mem_inits] at hpast
    revert past
    decide
  obtain ⟨s₁, s₂, s₃, r, addr, hrun₁, hderef, haddr, hrun₃, hread⟩ := read_reports_section false (fun _ => none) 0
    [.readLock false (some "a")] [.readLock true (some "c")] false true 0x1000 0x2000 (some "b") 0 1 hshallow (by decide)
    (by decide) (by decide)
  obtain ⟨s₄, r', hstep, hreports, _⟩ := hread addr rfl
  exact ⟨s₁, s₂, s₃, r, addr, hrun₁, hderef, haddr, hrun₃, s₄, r', hstep, hreports.wrong.mpr ⟨2, by decide, by decide⟩⟩

/-- Entering a section ends exactly when the thread is inside of one already, or an id is left: ids are never given back. -/
theorem eventRcuReadLock_ends_iff (kernel : Bool) (getLocationCarat : BitVec 14 → Carat) {Thread : Type}
    [DecidableEq Thread] (fuel : Nat) (events : List (RcuEvent Thread)) (s : RcuState Thread)
    (h : RcuState.run kernel getLocationCarat fuel events .init = .ok s) (t : Thread) (carat : Carat) :
    (∃ fuel', s.eventRcuReadLock fuel' t carat ≠ .error .running) ↔
      (Sections.after events).depth t ≠ 0 ∨ (Sections.after events).CanEnter t := by
  have htracks : Tracks (Sections.after events) s := Tracks.init.of_run kernel getLocationCarat h
  by_cases hzero : (Sections.after events).depth t = 0
  · by_cases hcan : (Sections.after events).CanEnter t
    · obtain ⟨s', hok, _⟩ := htracks.readLock_of_canEnter 0 carat hzero hcan
      refine iff_of_true ⟨1, ?_⟩ (.inr hcan)
      rw [hok]
      intro h
      cases h
    · refine iff_of_false ?_ (not_or.mpr ⟨not_not.mpr hzero, hcan⟩)
      rintro ⟨fuel', hne⟩
      exact hne (htracks.readLock_running hzero hcan)
  · refine iff_of_true ⟨0, ?_⟩ (.inl hzero)
    by_cases hlt : (Sections.after events).depth t < 3
    · obtain ⟨s', hok, _⟩ := htracks.readLock_of_nested 0 carat hzero hlt
      rw [hok]
      intro h
      cases h
    · rw [← htracks.depth_eq] at hlt
      simp only [RcuState.eventRcuReadLock, hlt, ↓reduceDIte]
      intro h
      cases h

/-- One thread is in a nested section, and another one has left its section. -/
theorem eventRcuReadLock_ends_iff_nested :
    ∃ s : RcuState Bool, RcuState.run false (fun _ => none) 1
        [.readLock false none, .readLock false none, .readLock true none, .readUnlock true none] .init = .ok s ∧
      ∃ fuel', s.eventRcuReadLock fuel' true none ≠ .error .running := by
  refine ⟨_, rfl, (eventRcuReadLock_ends_iff false (fun _ => none) 1 [.readLock false none, .readLock false none,
    .readLock true none, .readUnlock true none] _ rfl true none).mpr (.inr (.inl (by decide)))⟩

/-- One thread enters and leaves 16383 sections, and another one waits for an id forever. -/
theorem eventRcuReadLock_hangs :
    ∃ s : RcuState Bool, RcuState.run false (fun _ => none) 1 (lockPairs false none 16383) .init = .ok s ∧
      ∀ fuel carat, s.eventRcuReadLock fuel true carat = .error .running := by
  obtain ⟨s, a, hrun, h, hentered, hdepth, hcurrent⟩ :=
    Tracks.init.run_lockPairs false (fun _ => none) 0 false none 16383 (fun _ => rfl) (by decide)
  refine ⟨s, hrun, fun fuel carat => h.readLock_running (hdepth true) ?_⟩
  rw [Sections.CanEnter, hentered, hcurrent true (by decide)]
  decide

/-! ## `bound_descriptor` -/

/-- After any history, what is in use is in the table at its own index and can be freed, and an allocation is good exactly
when the CPU has a free descriptor, or the counter, which is checked one too late, is not at the end. -/
theorem allocate_good_iff {kernel : Bool} (T : DescriptorTable kernel) {Cpu : Type} [DecidableEq Cpu]
    (s : BoundSystem Cpu) (h : BoundReachable T s) :
    (∀ index desc, s.live index = some desc →
      index.toNat < maxNumWatchpoints ∧ T.access index = .ok desc ∧ ∀ c, ∃ state, T.free c desc index s.state = .ok state) ∧
    ∀ c, GoodAllocate T c s ↔
      s.state.freeList c ≠ 0 ∨ s.state.nextCounterIndex.toNat ≠ maxNumWatchpoints := by
  obtain ⟨L, hL⟩ := h.inv
  refine ⟨fun index desc hlive => ?_, fun c => ?_⟩
  · obtain ⟨hlt, hdesc⟩ := hL.live index desc hlive
    have hlt' : index.toNat < maxNumWatchpoints := Nat.lt_of_lt_of_le hlt hL.next_le
    exact ⟨hlt', by rw [hdesc, T.access_eq hlt'], fun c => ⟨_, hL.free_ok hlive⟩⟩
  · by_cases hzero : s.state.freeList c = 0
    · rcases Nat.lt_or_eq_of_le hL.next_le with hlt | heq
      · have hfresh : s.live s.state.nextCounterIndex = none := by
          cases hlive : s.live s.state.nextCounterIndex with
          | none => rfl
          | some d => exact absurd (hL.live _ d hlive).1 (Nat.lt_irrefl _)
        exact iff_of_true
          (.inl ⟨_, _, _, DescriptorTable.allocate_fresh hzero hlt, hlt, hfresh, T.access_eq hlt⟩) (.inr (Nat.ne_of_lt hlt))
      · refine iff_of_false ?_ (not_or.mpr ⟨not_not.mpr hzero, not_not.mpr heq⟩)
        rintro (⟨_, _, _, hok, _⟩ | ⟨_, hok, _⟩)
        · rw [DescriptorTable.allocate_end hzero heq] at hok
          cases hok
        · rw [DescriptorTable.allocate_end hzero heq] at hok
          cases hok
    · obtain ⟨i, l, hok, _, hi, hlive⟩ := hL.allocate_free hzero
      have hlt : i.toNat < maxNumWatchpoints := Nat.lt_of_lt_of_le hi hL.next_le
      exact iff_of_true (.inl ⟨_, _, _, hok, hlt, hlive, T.access_eq hlt⟩) (.inl hzero)

theorem userTable_valid (i : Word) (hi : i.toNat < maxNumWatchpoints) : isValidAddress false (0x100000 + 16 * i) = true := by
  have hlt : i.toNat < 0x8000 := hi
  simp only [isValidAddress, Bool.false_eq_true, ↓reduceIte, decide_eq_true_eq]
  bv_omega

/-- A table in user space. -/
def userTable : DescriptorTable false where
  base := 0x100000
  fits := Nat.le_of_ble_eq_true rfl
  valid := userTable_valid

/-- Two CPUs have allocated a descriptor each, and the second one has freed that of the first. -/
theorem exists_freed_first :
    ∃ s : BoundSystem Bool, BoundReachable userTable s ∧ s.live 0 = none ∧ s.live 1 = some 0x100010 ∧
      s.state.freeList true = 0x100000 := by
  have hfirst := BoundReachable.step (T := userTable) (.init fun _ => 0)
    (.allocate false _ _ _ (DescriptorTable.allocate_fresh rfl (by decide)))
  have hsecond := hfirst.step (.allocate true _ _ _ (DescriptorTable.allocate_fresh rfl (by decide)))
  exact ⟨_, hsecond.step (.free true 0x100000 0 _ rfl rfl), rfl, rfl, rfl⟩

theorem allocate_good_iff_freed :
    ∃ s : BoundSystem Bool, BoundReachable userTable s ∧ s.state.freeList true = 0x100000 ∧ GoodAllocate userTable true s := by
  obtain ⟨s, hs, -, -, hfree⟩ := exists_freed_first
  exact ⟨s, hs, hfree, ((allocate_good_iff userTable s hs).2 true).mpr (.inl (by rw [hfree]; decide))⟩

/-- The 32769th allocation of a CPU without free descriptors gets past the check and fails an assertion. -/
theorem allocate_past_end :
    ∃ s : BoundSystem Unit, BoundReachable userTable s ∧ s.state.nextCounterIndex.toNat = maxNumWatchpoints ∧
      userTable.allocate () s.state = .error .maxCounterIndex := by
  obtain ⟨s, hs, hzero, hnext⟩ := BoundReachable.exists_fresh (T := userTable) (fun _ => 0) () (Nat.le_refl maxNumWatchpoints)
  exact ⟨s, hs, hnext, DescriptorTable.allocate_end hzero hnext⟩

/-- After any history, a pointer that was tainted with the index of what is in use leads back to it and to nothing else. -/
theorem watched_finds_descriptor {kernel : Bool} (T : DescriptorTable kernel) {Cpu : Type} [DecidableEq Cpu]
    (s : BoundSystem Cpu) (h : BoundReachable T s) (index desc : Word) (hlive : s.live index = some desc) (ptr : Word)
    (hptr : IsCanonical kernel ptr) (hvalid : isValidAddress kernel ptr = true) (indexes : List Word) :
    ∃ addr, (indexes ++ [index]).foldlM (taint kernel) ptr = some addr ∧ isWatchedAddress kernel addr = true ∧
      unwatchedAddress kernel addr = ptr ∧ T.access (counterIndexOf addr) = .ok desc ∧
      ∀ index' desc', s.live index' = some desc' → T.access (counterIndexOf addr) = .ok desc' → index' = index := by
  obtain ⟨L, hL⟩ := h.inv
  have hlt : ∀ {i d}, s.live i = some d → i.toNat < maxNumWatchpoints := fun hi =>
    Nat.lt_of_lt_of_le (hL.live _ _ hi).1 hL.next_le
  have hcounter : counterIndexOf (withCounterIndex kernel ptr index) = index :=
    counterIndexOf_withCounterIndex (Nat.le_of_lt_succ (hlt hlive))
  refine ⟨_, foldlM_taint hvalid indexes, isWatchedAddress_withCounterIndex hvalid, unwatchedAddress_withCounterIndex hptr,
    ?_, ?_⟩
  · rw [hcounter, (hL.live _ _ hlive).2, T.access_eq (hlt hlive)]
  · intro index' desc' hlive' haccess
    rw [hcounter, T.access_eq (hlt hlive), (hL.live _ _ hlive').2] at haccess
    exact (T.entry_inj (hlt hlive) (hlt hlive') (Except.ok.inj haccess)).symm

theorem watched_finds_descriptor_second :
    ∃ s : BoundSystem Bool, BoundReachable userTable s ∧ s.live 0 = none ∧ s.live 1 = some 0x100010 ∧
      ∃ addr, [5, 1].foldlM (taint false) 0x7fff00001000 = some addr ∧ isWatchedAddress false addr = true ∧
        unwatchedAddress false addr = 0x7fff00001000 ∧ userTable.access (counterIndexOf addr) = .ok 0x100010 := by
  obtain ⟨s, hs, hnone, hlive, -⟩ := exists_freed_first
  obtain ⟨addr, htaint, hwatched, hunwatched, haccess, -⟩ :=
    watched_finds_descriptor userTable s hs 1 0x100010 hlive 0x7fff00001000 (by decide) (by decide) [5]
  exact ⟨s, hs, hnone, hlive, addr, htaint, hwatched, hunwatched, haccess⟩

/-! ## Bounds checks -/

/-- The check is exact when signed comparisons are as good as unsigned ones, and the end of the access does not wrap around.
-/
theorem checkExact_iff {kernel : Bool} {T : DescriptorTable kernel} {reg : Reg} {s : State} {lower upper addr : BitVec 32}
    (h : WatchedAccess T reg s lower upper addr) (hle : lower ≤ upper) (alu : Instr → State → Word) (size : AccessSize)
    (returnAddr : Word) :
    CheckExact T alu reg size returnAddr s lower upper addr ↔
      (upper.toNat < size.bytes ∨ lower.msb = (upper - BitVec.ofNat 32 size.bytes).msb ∨
        ¬ addr - lower ≤ upper - BitVec.ofNat 32 size.bytes - lower) ∧
      (addr < lower ∨ addr.toNat + size.bytes < 2 ^ 32 ∨ upper < addr + BitVec.ofNat 32 size.bytes) := by
  rw [← signed_within_iff size hle]
  have hcalls : ((overflowCall T alu reg size (s.push returnAddr)).isSome = true ↔
      ¬ (lower.toNat ≤ addr.toNat ∧ addr.toNat + size.bytes ≤ upper.toNat)) ↔
      ((!addr.slt lower && !(upper - BitVec.ofNat 32 size.bytes).slt addr) = true ↔
        lower.toNat ≤ addr.toNat ∧ addr.toNat + size.bytes ≤ upper.toNat) := by
    rw [overflowCall_isSome alu h, Bool.not_eq_true', Bool.eq_false_iff, not_iff_not]
  constructor
  · rintro ⟨hc, hr⟩
    refine ⟨hcalls.mp hc, ?_⟩
    by_cases hin : lower.toNat ≤ addr.toNat ∧ addr.toNat + size.bytes ≤ upper.toNat
    · exact .inr (.inl (Nat.lt_of_le_of_lt hin.2 upper.isLt))
    · obtain ⟨s', hs'⟩ := Option.isSome_iff_exists.mp (hc.mpr hin)
      exact (visitOverflow_ok_iff alu h size hs' hin).mp (hr s' hs')
  · rintro ⟨hc, hr⟩
    refine ⟨hcalls.mpr hc, fun s' hs' => ?_⟩
    have hout := (hcalls.mpr hc).mp (Option.isSome_iff_exists.mpr ⟨s', hs'⟩)
    exact (visitOverflow_ok_iff alu h size hs' hout).mpr hr

/-- The program before an access through `rbx`, with a descriptor for the bounds. -/
def accessState (lower upper : BitVec 32) (addr flags : Word) : State where
  reg := fun r => if r = .rsp then 0x7fff0000 else addr
  flags := flags
  rip := 0
  mem := Memory.write (fun _ => 0) userTable.base (upper ++ lower)

theorem accessState_apart (lower upper : BitVec 32) (addr flags : Word) (h : counterIndexOf addr = 0) :
    BoundsApart userTable ((accessState lower upper addr flags).reg .rbx)
      ((accessState lower upper addr flags).reg .rsp) := by
  intro b hb
  have hb' : (b - userTable.entry (counterIndexOf addr)).toNat < 8 := hb
  rw [h, show userTable.entry 0 = 0x100000#64 by decide] at hb'
  show ¬ Below 0x7fff0000 88 b
  unfold Below
  bv_omega

/-- An access within bounds. -/
theorem accessState_start (flags : Word) :
    WatchedAccess userTable .rbx (accessState 0x100 0x200 0x1000000000100 flags) 0x100 0x200 0x100 :=
  have h : WatchedAccess userTable .rbx (accessState 0x100 0x200 0x1000000000100 0) 0x100 0x200 0x100 :=
    ⟨by decide, by decide, by decide, by decide, accessState_apart _ _ _ _ (by decide)⟩
  ⟨h.reg_ne, h.lower_eq, h.upper_eq, h.addr_eq, h.apart⟩

/-- An access past them. -/
theorem accessState_past : WatchedAccess userTable .rbx (accessState 0x100 0x200 0x1000000000200 0) 0x100 0x200 0x200 :=
  ⟨by decide, by decide, by decide, by decide, accessState_apart _ _ _ _ (by decide)⟩

theorem checkExact_iff_start :
    CheckExact userTable (fun _ _ => 0) .rbx .eight 0x1000 (accessState 0x100 0x200 0x1000000000100 0) 0x100 0x200 0x100 :=
  (checkExact_iff (accessState_start 0) (by decide) _ _ _).mpr (by decide)

/-- Around the middle of the region, an access is taken for an overflow, and the handler's assertion fails. -/
theorem checkExact_middle :
    WatchedAccess userTable .rbx (accessState 0x7ffffff0 0x80000010 0x1000080000000 0) 0x7ffffff0 0x80000010 0x80000000 ∧
    ¬ CheckExact userTable (fun _ _ => 0) .rbx .eight 0x1000 (accessState 0x7ffffff0 0x80000010 0x1000080000000 0)
      0x7ffffff0 0x80000010 0x80000000 := by
  have h : WatchedAccess userTable .rbx (accessState 0x7ffffff0 0x80000010 0x1000080000000 0)
      0x7ffffff0 0x80000010 0x80000000 :=
    ⟨by decide, by decide, by decide, by decide, accessState_apart _ _ _ _ (by decide)⟩
  refine ⟨h, fun hexact => ?_⟩
  have hcalls := hexact.calls
  rw [overflowCall_isSome _ h] at hcalls
  revert hcalls
  decide

/-- The check is invisible for all handlers that follow the ABI when the access passes and OF was as the last comparison
leaves it. -/
theorem boundsCheck_invisible_iff {kernel : Bool} {T : DescriptorTable kernel} {reg : Reg} {s : State}
    {lower upper addr : BitVec 32} (h : WatchedAccess T reg s lower upper addr) (alu : Instr → State → Word)
    (size : AccessSize) (returnAddr : Word) :
    (∀ visit, FollowsAbi visit →
      Invisible returnAddr s (granaryBoundsCheckReg T alu visit reg size (s.push returnAddr))) ↔
    (addr.slt lower = false ∧ (upper - BitVec.ofNat 32 size.bytes).slt addr = false) ∧
      of s.flags = (upper - BitVec.ofNat 32 size.bytes).ssubOverflow addr := by
  have hwithin := h.within alu size returnAddr
  rw [← Bool.not_eq_true', ← Bool.not_eq_true', ← Bool.and_eq_true, ← hwithin]
  cases hw : (compareBounds T alu size (entered alu reg returnAddr s)).1 with
  | true =>
    rw [← h.of_within alu size hw]
    constructor
    · intro hinv
      exact ⟨rfl, ((invisible_iff_of_within alu hw).mp (hinv _ (followsAbi_set_rax 0))).symm⟩
    · rintro ⟨-, hof⟩ visit -
      exact (invisible_iff_of_within alu hw).mpr hof.symm
  | false =>
    obtain ⟨visit, habi, hvisible⟩ := exists_visible_of_not_within alu hw
    exact iff_of_false (fun hinv => hvisible (hinv visit habi)) (by rintro ⟨hf, -⟩; cases hf)

theorem boundsCheck_invisible_iff_start :
    Invisible 0x1000 (accessState 0x100 0x200 0x1000000000100 0)
      (granaryBoundsCheckReg userTable (fun _ _ => 0) (·.set .rax 0) .rbx .eight
        ((accessState 0x100 0x200 0x1000000000100 0).push 0x1000)) :=
  (boundsCheck_invisible_iff (accessState_start 0) _ _ _).mpr (by decide) _ (followsAbi_set_rax 0)

/-- OF is cleared by a check that passes, and CF is set by a handler that leaves it in `ah`. -/
theorem boundsCheck_visible :
    ¬ Invisible 0x1000 (accessState 0x100 0x200 0x1000000000100 0x800)
      (granaryBoundsCheckReg userTable (fun _ _ => 0) (·.set .rax 0x100) .rbx .eight
        ((accessState 0x100 0x200 0x1000000000100 0x800).push 0x1000)) ∧ FollowsAbi (·.set .rax 0x100) ∧
    ¬ Invisible 0x1000 (accessState 0x100 0x200 0x1000000000200 0)
      (granaryBoundsCheckReg userTable (fun _ _ => 0) (·.set .rax 0x100) .rbx .eight
        ((accessState 0x100 0x200 0x1000000000200 0).push 0x1000)) := by
  have hpass := accessState_start 0x800
  have hwithin := hpass.within (fun _ _ => 0) .eight 0x1000
  have hpast := accessState_past.within (fun _ _ => 0) .eight 0x1000
  refine ⟨fun hinv => ?_, followsAbi_set_rax 0x100, fun hinv => ?_⟩
  · have hof := (invisible_iff_of_within _ (hwithin.trans (by decide))).mp hinv
    rw [hpass.of_within _ _ (hwithin.trans (by decide))] at hof
    exact absurd hof (by decide)
  · have hflags := flags_of_not_within _ (followsAbi_set_rax 0x100) (hpast.trans (by decide))
    rw [(and_arithMask_eq_iff.mp hinv.flags).1, set_reg, if_pos rfl] at hflags
    exact absurd hflags (by decide)

/-! ## Reports -/

/-- Reports are exact as long as the log is not too full and no earlier period was longer. -/
theorem rcuLog_exact {text : MessageContainer → List Char} {ops : List LogOp} (hops : LogOp.Reportable text 0 0 ops) :
    LogOp.Exact text ops :=
  stored_init.run hops

/-- `RCU_READ_SECTION_ACROSS_FUNC_BOUNDARY` with its two arguments -/
def acrossFuncBoundary : MessageContainer := { messageId := 7, args := [0x1000, 0x2000] }

theorem acrossFuncBoundary_printable : LogOp.Printable (fun _ => []) acrossFuncBoundary := by decide

theorem rcuLog_exact_growing :
    LogOp.Reportable (fun _ => []) 0 0 [.log acrossFuncBoundary, .report, .log acrossFuncBoundary,
      .log acrossFuncBoundary, .report, .clearLog] ∧
    LogOp.Exact (fun _ => []) [.log acrossFuncBoundary, .report, .log acrossFuncBoundary,
      .log acrossFuncBoundary, .report, .clearLog] := by
  have hm := acrossFuncBoundary_printable
  have hops : LogOp.Reportable (fun _ => []) 0 0 [.log acrossFuncBoundary, .report, .log acrossFuncBoundary,
      .log acrossFuncBoundary, .report, .clearLog] :=
    ⟨hm, by decide, by decide, by decide, hm, by decide, hm, by decide, by decide, by decide, trivial⟩
  exact ⟨hops, rcuLog_exact hops⟩

/-- One message, and two reports that print it. -/
theorem rcuLog_prints_again : ¬LogOp.Exact (fun _ => []) [.log acrossFuncBoundary, .report, .report] := by
  rintro ⟨ps, hrun, hps, -⟩
  obtain ⟨p, p', hrun', hprinted⟩ := run_report_twice acrossFuncBoundary_printable
  obtain rfl : [p, p'] = ps := Except.ok.inj (hrun'.symm.trans hrun)
  have hnil : p'.printed = [] := List.head_eq_of_cons_eq (List.tail_eq_of_cons_eq hps)
  rw [hprinted] at hnil
  cases hnil

/-! ## `leak_detector_descriptor` -/

/-- With the first 2^64 allocations, the table of the leak detector is good, and so is an allocation that reuses a descriptor.
-/
theorem leakTable_good {kernel : Bool} {Cpu : Type} [DecidableEq Cpu] {s : LeakSystem Cpu} {n : Nat}
    (h : LeakReachable kernel s n) (hn : n ≤ 2 ^ 64) : GoodTable s ∧ GoodReuse kernel s := by
  obtain ⟨L, hinv⟩ := h.inv hn
  exact ⟨hinv.goodTable, hinv.goodReuse⟩

/-- All descriptors are in use. -/
theorem leakTable_good_full :
    ∃ s : LeakSystem Unit, LeakReachable true s maxNumWatchpoints ∧ s.status (slabEntry 0) = .live 0 false ∧
      GoodTable s ∧ GoodReuse true s := by
  obtain ⟨s, hs⟩ := exists_exhausting (show maxNumWatchpoints ≤ 2 ^ 64 by decide)
  exact ⟨s, hs.reachable, hs.first (by decide), leakTable_good hs.reachable (by decide)⟩

/-- One allocation more than there are values of the counter. -/
theorem leakTable_same_index : ∃ s : LeakSystem Unit, LeakReachable true s (2 ^ 64 + 1) ∧ ¬GoodTable s := by
  obtain ⟨s, hs⟩ := exists_exhausting (Nat.le_refl (2 ^ 64))
  exact hs.not_goodTable

/-! ## `leak_policy_scan_callback` -/

/-- Whatever the heap and its contents are, a scan ends if no read faults. -/
theorem leakScan_ends {Cpu : Type} [DecidableEq Cpu] {h : LeakHeap Cpu} {n : Nat} (hh : HeapReachable h n) (hn : n ≤ 2 ^ 64)
    (mem : Word → Word) (kernelWords : List Word) (junk : Word → LeakObjectState) :
    ∃ enough, ∀ fuel, enough ≤ fuel → ∃ r, leakPolicyScanCallback mem junk fuel kernelWords h.sys.state = .ok r := by
  obtain ⟨L, hi⟩ := hh.inv hn
  refine ⟨(scanNodes h.sys.state).card, fun fuel hfuel => ?_⟩
  cases hexec : h.sys.state.executionState with
  | false => exact ⟨_, if_pos (by rw [hexec]; rfl)⟩
  | true =>
    obtain ⟨s, hrun, -⟩ := leakPolicyScanCallback_ok hi.tableInj hi.valid hexec kernelWords hfuel
    exact ⟨_, hrun⟩

/-- In every epoch whose scan meets the condition, the scan is good. -/
theorem leakScan_good {Cpu : Type} [DecidableEq Cpu] {h : LeakHeap Cpu} {n : Nat} (hh : HeapReachable h n) (hn : n ≤ 2 ^ 64)
    {mem : Word → Word} {kernelWords : List Word} (hcond : ScanCondition h mem kernelWords)
    (junk : Word → LeakObjectState) : GoodScan h mem kernelWords junk := by
  obtain ⟨L, hi⟩ := hh.inv hn
  exact hi.scan_good hcond

section Witness

/-- The next index goes to a new descriptor, and the object is watched. -/
def LeakHeap.watched (h : LeakHeap Unit) (fresh base size : Word) : LeakHeap Unit where
  sys := { state := { h.sys.state with
             nextCounterIndex := h.sys.state.nextCounterIndex + 1
             desc := update h.sys.state.desc fresh (watchedDesc base size)
             descriptors := update h.sys.state.descriptors h.sys.state.nextCounterIndex fresh
             executionState := true }
           status := update h.sys.status fresh (.live h.sys.state.nextCounterIndex true) }
  base := update h.base fresh base
  size := update h.size fresh size
  accessed := update h.accessed fresh false

theorem heapStep_watched {h : LeakHeap Unit} {fresh base size : Word} (hfresh : h.sys.Fresh true fresh)
    (hbase : IsCanonical true base) (hfits : base.toNat + size.toNat ≤ 2 ^ 64) (hzero : h.sys.state.freeList () = 0)
    (hle : h.sys.state.nextCounterIndex ≤ maxCounterIndex) : HeapStep h (h.watched fresh base size) 1 := by
  obtain ⟨state, hok, hstate⟩ : ∃ state,
      h.sys.state.allocate () fresh = .ok (state, some (fresh, h.sys.state.nextCounterIndex)) ∧
        state = { h.sys.state with
          nextCounterIndex := h.sys.state.nextCounterIndex + 1
          desc := update h.sys.state.desc fresh { LeakDescriptor.zero with state := LeakObjectState.active }
          executionState := true } := ⟨_, LeakState.allocate_counter hzero hle, rfl⟩
  obtain ⟨state', hassign⟩ : ∃ state', (state.initDesc fresh base size).assign fresh h.sys.state.nextCounterIndex =
      .ok state' := ⟨_, leakCheck_bind (lt_maxNumWatchpoints hle) _⟩
  obtain ⟨hdesc, htable⟩ := LeakState.watch_eq hok hassign
  have hstep := HeapStep.watch () fresh base size state state' fresh _ hfresh hbase hfits hok hassign
  have hstate' : state' = (h.watched fresh base size).sys.state := by
    rw [LeakState.assign_eq hassign, hstate] at hdesc htable ⊢
    exact congrArg₂ (fun desc descriptors => ({ h.sys.state with
      nextCounterIndex := h.sys.state.nextCounterIndex + 1, desc, descriptors, executionState := true } : LeakState Unit))
      hdesc htable
  rw [hstate'] at hstep
  exact hstep

def LeakHeap.touched (h : LeakHeap Unit) (d : Word) : LeakHeap Unit :=
  { h with sys := { h.sys with state := { h.sys.state with
                      desc := update h.sys.state.desc d { h.sys.state.desc d with accessedInLastEpoch := true } } }
           accessed := update h.accessed d true }

def oneObject : LeakHeap Unit := (LeakHeap.init fun _ => .zero).watched (slabEntry 0) 0xffff880000001000 8

def twoObjects : LeakHeap Unit := oneObject.watched (slabEntry 1) 0xffff880000001008 8

theorem oneObject_reachable : HeapReachable oneObject 1 :=
  .step (.init _) (heapStep_watched ⟨by decide, by decide, rfl⟩ (by decide) (by decide) rfl (by decide))

theorem twoObjects_reachable : HeapReachable twoObjects 2 :=
  .step oneObject_reachable (heapStep_watched ⟨by decide, by decide, by decide⟩ (by decide) (by decide) rfl (by decide))

theorem leakScan_ends_twoObjects :
    HeapReachable twoObjects 2 ∧ ∃ enough, ∀ fuel, enough ≤ fuel →
      ∃ r, leakPolicyScanCallback (fun a => a) (fun _ => 0) fuel [0] twoObjects.sys.state = .ok r :=
  ⟨twoObjects_reachable, leakScan_ends twoObjects_reachable (by decide) _ [0] _⟩

theorem touched_reachable {h : LeakHeap Unit} {n : Nat} {d i : Word} (hh : HeapReachable h n)
    (haccess : h.sys.state.access i = .ok d) (hd : d ≠ 0) : HeapReachable (h.touched d) n :=
  .step hh (.touch d i haccess hd)

theorem not_refers_zero {i : Word} : ¬Refers 0 i := fun h => absurd h.1 (by decide)

theorem status_watched (h : LeakHeap Unit) (fresh base size d : Word) : (h.watched fresh base size).sys.status d =
    if d = fresh then .live h.sys.state.nextCounterIndex true else h.sys.status d :=
  update_apply ..

theorem oneObject_status (d : Word) : oneObject.sys.status d = if d = slabEntry 0 then .live 0 true else .unused :=
  status_watched ..

theorem twoObjects_status (d : Word) : twoObjects.sys.status d =
    if d = slabEntry 1 then .live 1 true else if d = slabEntry 0 then .live 0 true else .unused := by
  rw [twoObjects, status_watched, oneObject_status]
  rfl

theorem isObject_twoObjects {d i : Word} (h : twoObjects.IsObject d i) :
    d = slabEntry 0 ∧ i = 0 ∨ d = slabEntry 1 ∧ i = 1 := by
  rw [LeakHeap.IsObject, twoObjects_status] at h
  split at h
  · next hd =>
      cases h
      exact .inr ⟨hd, rfl⟩
  · split at h
    · next hd =>
        cases h
        exact .inl ⟨hd, rfl⟩
    · cases h

/-- Only the first object is reachable, and the word after it is in the second one. In the kernel is a plain pointer to the
second one. -/
theorem twoObjects_clean : CleanScan (twoObjects.touched (slabEntry 0)) (fun _ => 0) [0xffff880000001008] := by
  have hplain : ∀ {i}, ¬Refers 0xffff880000001008 i := fun href => absurd href.1 (by decide)
  have hfreed : ∀ {d i}, (twoObjects.touched (slabEntry 0)).sys.status d ≠ .freed i := by
    intro d i hst
    change twoObjects.sys.status d = .freed i at hst
    rw [twoObjects_status] at hst
    split at hst
    · cases hst
    · split at hst <;> cases hst
  have hreached : ∀ {d}, Reached (twoObjects.touched (slabEntry 0)) (fun _ => 0) [0xffff880000001008] d → d = slabEntry 0 := by
    intro d hd
    cases hd with
    | accessed d i hobj hacc =>
      rcases isObject_twoObjects hobj with ⟨rfl, -⟩ | ⟨rfl, -⟩
      · rfl
      · exact absurd hacc (by decide)
    | found d i w _ hw href => exact absurd (List.mem_singleton.mp hw ▸ href) hplain
    | stored d k d' i' _ _ _ href => exact absurd href not_refers_zero
  refine ⟨fun d i hobj => ?_, fun d i hobj => ?_, fun d i hobj hacc => ?_, fun d i hst => absurd hst hfreed,
    fun d i hst => absurd hst hfreed, fun d i hst => absurd hst hfreed,
    fun d i hobj w hw href => absurd (List.mem_singleton.mp hw ▸ href) hplain, fun d i hobj w hw _ hhands _ => ?_,
    fun d hd k hk => ?_, fun d hd d' i' hobj href => absurd href not_refers_zero⟩
  · rcases isObject_twoObjects hobj with ⟨rfl, -⟩ | ⟨rfl, -⟩ <;> decide
  · rcases isObject_twoObjects hobj with ⟨rfl, -⟩ | ⟨rfl, -⟩ <;> decide
  · rcases isObject_twoObjects hobj with ⟨rfl, -⟩ | ⟨rfl, -⟩
    · decide
    · exact absurd hacc (by decide)
  · obtain rfl := List.mem_singleton.mp hw
    rcases isObject_twoObjects hobj with ⟨-, rfl⟩ | ⟨-, rfl⟩ <;> exact absurd hhands.2 (by decide)
  · obtain rfl := hreached hd
    have hpast : ((twoObjects.touched (slabEntry 0)).word (slabEntry 0)
        (((twoObjects.touched (slabEntry 0)).size (slabEntry 0)).toNat / 8)).toNat = 0xffff880000001008 := by decide
    have hbase : ((twoObjects.touched (slabEntry 0)).base (slabEntry 1)).toNat = 0xffff880000001008 := by decide
    have hsize : ((twoObjects.touched (slabEntry 0)).size (slabEntry 1)).toNat = 8 := by decide
    exact ⟨slabEntry 1, 1, (twoObjects_status _).trans (if_pos rfl), by omega, by omega⟩

theorem leakScan_good_twoObjects :
    HeapReachable (twoObjects.touched (slabEntry 0)) 2 ∧
      CleanScan (twoObjects.touched (slabEntry 0)) (fun _ => 0) [0xffff880000001008] ∧
      GoodScan (twoObjects.touched (slabEntry 0)) (fun _ => 0) [0xffff880000001008] fun _ => 0 := by
  have hh : HeapReachable (twoObjects.touched (slabEntry 0)) 2 := touched_reachable (i := 0) twoObjects_reachable rfl (by decide)
  have hcond : ScanCondition (twoObjects.touched (slabEntry 0)) (fun _ => 0) [0xffff880000001008] := twoObjects_clean
  exact ⟨hh, twoObjects_clean, leakScan_good hh (by decide) hcond _⟩

/-- A single object of 8 bytes: the scan reads the word after it. -/
theorem leakScan_reads_past_end :
    HeapReachable (oneObject.touched (slabEntry 0)) 1 ∧
      ¬GoodScan (oneObject.touched (slabEntry 0)) (fun _ => 0) [] fun _ => 0 := by
  refine ⟨touched_reachable (i := 0) oneObject_reachable rfl (by decide), ?_⟩
  rintro ⟨enough, hgood⟩
  obtain ⟨s, leaked, hrun, hreads, -⟩ := hgood enough (Nat.le_refl _)
  obtain ⟨s₁, hloop, hrest⟩ := Outcome.bind_eq_ok.mp (show tableIndices.foldlM (scanAccessed _ _ enough) (scanStart _) >>= _ =
    Except.ok (s, leaked) from hrun)
  obtain rfl : s₁ = s := by
    cases hrest
    rfl
  obtain ⟨rest, hcons⟩ : ∃ rest, tableIndices = 0 :: rest := by
    rw [tableIndices, maxNumWatchpoints, List.range_succ_eq_map, List.map_cons]
    exact ⟨_, rfl⟩
  rw [hcons, List.foldlM_cons] at hloop
  obtain ⟨s₀, hfirst, hloop⟩ := Outcome.bind_eq_ok.mp hloop
  have hscan : scanDescriptor (fun _ => 0) (fun _ => 0) enough 0
      (((scanStart (oneObject.touched (slabEntry 0)).sys.state).clearAccessed (slabEntry 0)).setReachable (slabEntry 0) 0) =
        .ok s₀ := hfirst
  have hpast : (0xffff880000001008 : Word) ∈ s₀.reads := scanDescriptor_reads_words hscan (by decide) (by decide) (by decide)
  obtain ⟨d, i, hobj, hlo, hhi⟩ := hreads _ (foldlM_reads (fun _ _ _ => scanAccessed_reads) hloop hpast) 0 (by decide)
  rw [LeakHeap.IsObject] at hobj
  change oneObject.sys.status d = _ at hobj
  rw [oneObject_status] at hobj
  split at hobj
  · next hd =>
      subst hd
      revert hhi
      decide
  · cases hobj

end Witness

/-! ## Policies of the leak detector -/

/-- There is no policy and no list for which the instrumentation ends. -/
theorem visitReturns_iff (policy : LeakPolicy) (ls : List LeakInstr) : VisitReturns policy ls ↔ False :=
  iff_false_intro (not_visitReturns policy ls)

theorem visit_of_return_never_ends : ¬VisitReturns .leakPolicyExit [⟨.ret, none⟩] := not_visitReturns _ _

end Granary.Watchpoints
