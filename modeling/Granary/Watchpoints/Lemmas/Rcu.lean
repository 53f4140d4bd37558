import Granary.Lib.Outcome
import Granary.Watchpoints.Lemmas.Address
import Granary.Watchpoints.Rcu

/-!
# Ids of read-side critical sections

The outermost sections get the ids that follow each other, as long as there are any.
-/

namespace Granary.Watchpoints

open Function (update update_apply update_of_ne update_self)
open BitVec (ofNat toNat_ofNat eq_of_toNat_eq)

open Machine

variable {Thread : Type} {s s' : RcuState Thread} {t : Thread} {carat : Carat} {id conflictId : SectionId} {fuel : Nat}
variable {kind : SectionCaratKind} {n : Nat} {th : ThreadState} {r : RcuResult Thread} {derefedPtr ptr : Word}
  {index : RcudbgCounterIndex} {events : List (RcuEvent Thread)}

/-! ## Allocation of ids -/

@[simp] theorem RcuState.setSectionCarat_threads :
    (s.setSectionCarat id kind carat).threads = s.threads := by cases kind <;> rfl

@[simp] theorem RcuState.setSectionCarat_nextSectionId :
    (s.setSectionCarat id kind carat).nextSectionId = s.nextSectionId := by cases kind <;> rfl

@[simp] theorem RcuState.setSectionCarat_thread (j : SectionId) :
    ((s.setSectionCarat id kind carat).sections j).thread = (s.sections j).thread := by
  by_cases h : j = id
  · subst h
    cases kind <;> simp [setSectionCarat, setSection]
  · cases kind <;> simp [setSectionCarat, setSection, update_of_ne h]

theorem allocateSectionId_of_free (hne : conflictId ≠ s.nextSectionId.setWidth 14)
    (hfree : (s.sections (s.nextSectionId.setWidth 14)).thread.isSome = false) :
    RcuState.allocateSectionId carat t conflictId (fuel + 1) s =
      .ok ({ s with nextSectionId := s.nextSectionId + 1 }.setSection (s.nextSectionId.setWidth 14)
        { thread := some t, lockCarat := carat, unlockCarat := "<not unlocked>", derefCarat := "<no derefs>" },
        s.nextSectionId.setWidth 14) := by
  rw [RcuState.allocateSectionId, if_neg hne]
  simp only [hfree, Bool.false_eq_true, ↓reduceIte]
  rfl

theorem allocateSectionId_of_used (h : ∀ id, id = conflictId ∨ (s.sections id).thread.isSome = true) :
    RcuState.allocateSectionId carat t conflictId fuel s = .error .running := by
  induction fuel generalizing s with
  | zero => rfl
  | succ fuel ih =>
    rw [RcuState.allocateSectionId]
    rcases h (s.nextSectionId.setWidth 14) with hid | hid
    · rw [if_pos hid.symm]
      exact ih h
    · simp only [hid, ↓reduceIte, ite_self]
      exact ih h

/-! ## Following the sections -/

/-- The state of the debugger belongs to these sections: the `n`th outermost section has `n` as its id. -/
structure Tracks (a : Sections Thread) (s : RcuState Thread) : Prop where
  next : s.nextSectionId = ofNat 32 (a.entered + 1)
  entered_le : a.entered ≤ 2 ^ 14
  used : ∀ id, (s.sections id).thread.isSome = true ↔ ∃ n, 0 < n ∧ n ≤ a.entered ∧ id = ofNat 14 n
  depth_eq : ∀ t, (s.threads t).sectionDepth = a.depth t
  id_eq : ∀ t, (s.threads t).sectionId = ofNat 14 (a.current t)
  current_le : ∀ t, a.current t ≤ a.entered

theorem Tracks.init : Tracks (.init : Sections Thread) .init where
  next := rfl
  entered_le := Nat.zero_le _
  used id := by
    refine iff_of_false (by simp [RcuState.init]) ?_
    rintro ⟨n, hpos, hle, -⟩
    exact absurd hle (Nat.not_le.mpr hpos)
  depth_eq _ := rfl
  id_eq _ := rfl
  current_le _ := Nat.le_refl _

theorem ofNat_eq_ofNat_iff {m : Nat} (hm : m < 2 ^ 14) (hn : n < 2 ^ 14) : ofNat 14 m = ofNat 14 n ↔ m = n := by
  constructor
  · intro h
    have := congrArg BitVec.toNat h
    rwa [toNat_ofNat, toNat_ofNat, Nat.mod_eq_of_lt hm, Nat.mod_eq_of_lt hn] at this
  · rintro rfl
    rfl

section Tracks

variable {a : Sections Thread}

theorem Tracks.nextId (h : Tracks a s) : s.nextSectionId.setWidth 14 = ofNat 14 (a.entered + 1) := by
  have hle := h.entered_le
  rw [h.next]
  apply eq_of_toNat_eq
  simp only [BitVec.toNat_setWidth, toNat_ofNat]
  omega

theorem Tracks.allocate (h : Tracks a s) (hcan : a.CanEnter t) :
    RcuState.allocateSectionId carat t (s.threads t).sectionId (fuel + 1) s =
      .ok ({ s with nextSectionId := s.nextSectionId + 1 }.setSection (ofNat 14 (a.entered + 1))
        { thread := some t, lockCarat := carat, unlockCarat := "<not unlocked>", derefCarat := "<no derefs>" },
        ofNat 14 (a.entered + 1)) := by
  have hcurrent := h.current_le t
  have hne : (s.threads t).sectionId ≠ s.nextSectionId.setWidth 14 := by
    rw [h.id_eq, h.nextId]
    rcases hcan with hlt | ⟨heq, hpos⟩
    · rw [Ne, ofNat_eq_ofNat_iff (by omega) hlt]
      omega
    · rw [heq, show ofNat 14 (2 ^ 14) = ofNat 14 0 from rfl, Ne, ofNat_eq_ofNat_iff (by omega) (by decide)]
      exact hpos
  have hfree : (s.sections (s.nextSectionId.setWidth 14)).thread.isSome = false := by
    rw [← Bool.not_eq_true, h.used, h.nextId]
    rintro ⟨n, hpos, hle, he⟩
    rcases hcan with hlt | ⟨heq, -⟩
    · rw [ofNat_eq_ofNat_iff hlt (by omega)] at he
      omega
    · rw [heq, show ofNat 14 (2 ^ 14) = ofNat 14 0 from rfl, ofNat_eq_ofNat_iff (by decide) (by omega)] at he
      omega
  rw [allocateSectionId_of_free hne hfree, h.nextId]

theorem Tracks.allocate_running (h : Tracks a s) (hcan : ¬ a.CanEnter t) :
    RcuState.allocateSectionId carat t (s.threads t).sectionId fuel s = .error .running := by
  have hle := h.entered_le
  rw [Sections.CanEnter, not_or] at hcan
  refine allocateSectionId_of_used fun id => ?_
  rw [h.used, h.id_eq]
  have hid := id.isLt
  by_cases hzero : id.toNat = 0
  · by_cases hall : a.entered = 2 ^ 14
    · refine .inr ⟨2 ^ 14, by decide, by omega, eq_of_toNat_eq ?_⟩
      rw [hzero]
      rfl
    · -- only 0 is free, and the thread takes it for its own
      have hcurrent : a.current t = 0 := by
        by_contra hne
        exact hcan.2 ⟨by omega, hne⟩
      refine .inl (eq_of_toNat_eq ?_)
      rw [hcurrent, hzero]
      rfl
  · refine .inr ⟨id.toNat, by omega, by omega, ?_⟩
    exact eq_of_toNat_eq (by rw [toNat_ofNat, Nat.mod_eq_of_lt hid])

/-! ## Events -/

theorem Tracks.congr (h : Tracks a s) (hnext : s'.nextSectionId = s.nextSectionId)
    (hsections : ∀ id, (s'.sections id).thread = (s.sections id).thread) (hthreads : s'.threads = s.threads) :
    Tracks a s' where
  __ := h
  next := hnext.trans h.next
  used id := by rw [hsections, h.used]
  depth_eq t := by rw [hthreads, h.depth_eq]
  id_eq t := by rw [hthreads, h.id_eq]

theorem Tracks.setSectionCarat (h : Tracks a s) : Tracks a (s.setSectionCarat id kind carat) :=
  h.congr RcuState.setSectionCarat_nextSectionId RcuState.setSectionCarat_thread RcuState.setSectionCarat_threads

variable [DecidableEq Thread]

section

variable (h : Tracks a s)

include h

theorem Tracks.setThread {d : Nat} (hid : th.sectionId = (s.threads t).sectionId)
    (hdepth : th.sectionDepth = d) : Tracks { a with depth := update a.depth t d } (s.setThread t th) where
  __ := h
  depth_eq u := by
    by_cases hu : u = t
    · subst hu
      simp [RcuState.setThread, hdepth]
    · simp [RcuState.setThread, update_of_ne hu, h.depth_eq]
  id_eq u := by
    by_cases hu : u = t
    · subst hu
      simp [RcuState.setThread, hid, h.id_eq]
    · simp [RcuState.setThread, update_of_ne hu, h.id_eq]

theorem Tracks.enter {info : SectionInfo Thread} (hcan : a.CanEnter t)
    (hdepth : th.sectionDepth = 1) (hid : th.sectionId = ofNat 14 (a.entered + 1)) (hinfo : info.thread = some t) :
    Tracks { entered := a.entered + 1
             depth := update a.depth t 1
             current := update a.current t (a.entered + 1) }
      (({ s with nextSectionId := s.nextSectionId + 1 }.setSection (ofNat 14 (a.entered + 1)) info).setThread t th)
    where
  next := by
    change s.nextSectionId + 1 = _
    rw [h.next]
    exact (BitVec.ofNat_add _ _).symm
  entered_le := by
    rcases hcan with hlt | heq
    · exact Nat.le_of_lt hlt
    · exact Nat.le_of_eq heq.1
  used id := by
    change (update s.sections (ofNat 14 (a.entered + 1)) info id).thread.isSome = true ↔ _
    by_cases heq : id = ofNat 14 (a.entered + 1)
    · rw [heq, update_self, hinfo]
      exact iff_of_true rfl ⟨a.entered + 1, Nat.succ_pos _, Nat.le_refl _, rfl⟩
    · rw [update_of_ne heq, h.used]
      constructor
      · rintro ⟨n, hpos, hle, he⟩
        exact ⟨n, hpos, Nat.le_succ_of_le hle, he⟩
      · rintro ⟨n, hpos, hle, he⟩
        refine ⟨n, hpos, Nat.le_of_lt_succ (Nat.lt_of_le_of_ne hle ?_), he⟩
        rintro rfl
        exact heq he
  depth_eq u := by
    by_cases hu : u = t
    · subst hu
      simp [RcuState.setThread, hdepth]
    · simp [RcuState.setThread, RcuState.setSection, update_of_ne hu, h.depth_eq]
  id_eq u := by
    by_cases hu : u = t
    · subst hu
      simp [RcuState.setThread, hid]
    · simp [RcuState.setThread, RcuState.setSection, update_of_ne hu, h.id_eq]
  current_le u := by
    by_cases hu : u = t
    · subst hu
      simp
    · simp only [update_of_ne hu]
      exact Nat.le_succ_of_le (h.current_le u)

theorem Tracks.readLock_of_nested (fuel : Nat) (carat : Carat) (hpos : a.depth t ≠ 0) (hlt : a.depth t < 3) :
    ∃ s', s.eventRcuReadLock fuel t carat = .ok s' ∧ Tracks (a.step (.readLock t carat)) s' := by
  rw [← h.depth_eq] at hpos hlt
  refine ⟨_, by simp only [RcuState.eventRcuReadLock, hlt, ↓reduceDIte, hpos, ↓reduceIte, pure_bind]; rfl, ?_⟩
  rw [Sections.step, if_neg (by rwa [← h.depth_eq]), ← h.depth_eq]
  exact Tracks.setSectionCarat (h.setThread (by rfl) rfl)

theorem Tracks.readLock_of_canEnter (fuel : Nat) (carat : Carat) (hzero : a.depth t = 0) (hcan : a.CanEnter t) :
    ∃ s', s.eventRcuReadLock (fuel + 1) t carat = .ok s' ∧ Tracks (a.step (.readLock t carat)) s' := by
  rw [← h.depth_eq] at hzero
  refine ⟨_, by
    simp only [RcuState.eventRcuReadLock, hzero, ↓reduceIte, h.allocate hcan]
    rfl, ?_⟩
  rw [Sections.step, if_pos (by rwa [← h.depth_eq])]
  exact (h.enter hcan (by simp) rfl rfl).setSectionCarat

theorem Tracks.readLock_running (hzero : a.depth t = 0) (hcan : ¬ a.CanEnter t) :
    s.eventRcuReadLock fuel t carat = .error .running := by
  rw [← h.depth_eq] at hzero
  simp only [RcuState.eventRcuReadLock, hzero, ↓reduceIte, h.allocate_running hcan]
  rfl

theorem Tracks.readUnlock (carat : Carat) (hlt : a.depth t < 3) :
    ∃ s' messages, s.eventRcuReadUnlock t carat = .ok (s', messages) ∧ Tracks (a.step (.readUnlock t carat)) s' := by
  rw [← h.depth_eq] at hlt
  by_cases hzero : (s.threads t).sectionDepth = 0
  · refine ⟨_, _, by simp only [RcuState.eventRcuReadUnlock, hzero, ↓reduceIte]; rfl, ?_⟩
    rw [Sections.step, ← h.depth_eq, hzero]
    exact h.setThread (by rfl) rfl
  · refine ⟨_, _, by simp only [RcuState.eventRcuReadUnlock, hzero, hlt, ↓reduceDIte, ↓reduceIte]; rfl, ?_⟩
    rw [Sections.step, ← h.depth_eq]
    exact Tracks.setSectionCarat (h.setThread (by rfl) rfl)

end

end Tracks

section Pointers

variable (kernel : Bool) (getLocationCarat : BitVec 14 → Carat)

theorem eventRcuDereference_eq (t : Thread) (derefedPtr ptr : Word) (carat : Carat) (index : RcudbgCounterIndex)
    (s : RcuState Thread) :
    ∃ messages, s.eventRcuDereference kernel getLocationCarat t derefedPtr ptr carat index =
      .ok (s.setSectionCarat (s.threads t).sectionId .deref carat, messages,
        if (s.threads t).sectionDepth = 0 then ptr
        else if isValidAddress kernel ptr then
          withCounterIndex kernel ptr ((index.setIsDeref true).setReadSectionId (s.threads t).sectionId).asUint
        else ptr) := by
  simp only [RcuState.eventRcuDereference, taint_eq]
  by_cases hzero : (s.threads t).sectionDepth = 0
  · simp only [hzero, ↓reduceIte]
    exact ⟨_, rfl⟩
  · simp only [hzero, ↓reduceIte]
    exact ⟨_, rfl⟩

theorem Tracks.assignPointer {a : Sections Thread} (h : Tracks a s) (t : Thread) (p v : Word) (carat : Carat)
    (locationId : BitVec 14) (index : RcudbgCounterIndex) :
    ∃ s' messages v', s.eventRcuAssignPointer kernel t p v carat locationId index = .ok (s', messages, v') ∧
      Tracks a s' := by
  simp only [RcuState.eventRcuAssignPointer, taint_eq]
  refine ⟨_, _, _, rfl, ?_⟩
  split
  · split
    · exact h
    · exact h.congr rfl (fun _ => rfl) rfl
  · exact h.congr rfl (fun _ => rfl) rfl

/-! ## Runs -/

variable [DecidableEq Thread] {a : Sections Thread} {e : RcuEvent Thread}

theorem RcuState.step_of_handle (h : s.handle kernel getLocationCarat fuel e = .ok (s', r)) :
    s.step kernel getLocationCarat fuel e = .ok ({ s' with log := r.messages.foldl Log.log s'.log }, r) := by
  rw [RcuState.step, h]
  rfl

theorem RcuState.handle_dereference (fuel : Nat) {addr : Word} {messages : List (LogMessage Thread)}
    (h : s.eventRcuDereference kernel getLocationCarat t derefedPtr ptr carat index = .ok (s', messages, addr)) :
    s.handle kernel getLocationCarat fuel (.dereference t derefedPtr ptr carat index) = .ok (s', ⟨messages, some addr⟩) := by
  rw [RcuState.handle, h]
  rfl

theorem RcuState.run_cons_of_step (h : s.step kernel getLocationCarat fuel e = .ok (s', r)) :
    RcuState.run kernel getLocationCarat fuel (e :: events) s = RcuState.run kernel getLocationCarat fuel events s' := by
  rw [RcuState.run, h]
  rfl

theorem Tracks.handle_other (h : Tracks a s) (hunlock : ∀ t carat, e = .readUnlock t carat → a.depth t < 3)
    (he : ∀ t carat, e ≠ .readLock t carat) :
    ∃ s' r, s.handle kernel getLocationCarat fuel e = .ok (s', r) ∧ Tracks (a.step e) s' := by
  cases e with
  | readLock t carat => exact absurd rfl (he t carat)
  | readUnlock t carat =>
    obtain ⟨s', messages, hok, h'⟩ := h.readUnlock carat (hunlock t carat rfl)
    exact ⟨s', _, by rw [RcuState.handle, hok]; rfl, h'⟩
  | dereference t derefedPtr ptr carat index =>
    obtain ⟨messages, hok⟩ := eventRcuDereference_eq kernel getLocationCarat t derefedPtr ptr carat index s
    exact ⟨_, _, RcuState.handle_dereference kernel getLocationCarat fuel hok, h.setSectionCarat⟩
  | assignPointer t p v carat locationId index =>
    obtain ⟨s', messages, v', hok, h'⟩ := h.assignPointer kernel t p v carat locationId index
    exact ⟨s', _, by rw [RcuState.handle, hok]; rfl, h'⟩
  | readThroughRet t => exact ⟨_, _, rfl, h⟩
  | access t addr isRead => exact ⟨_, _, rfl, h⟩

theorem Tracks.step_ok (h : Tracks a s) (e : RcuEvent Thread) (hdepth : ∀ t, a.depth t ≤ 2)
    (hcan : ∀ t, (a.step e).entered ≠ a.entered → a.CanEnter t) :
    ∃ s' r, s.step kernel getLocationCarat (fuel + 1) e = .ok (s', r) ∧ Tracks (a.step e) s' := by
  have hhandle : ∃ s' r, s.handle kernel getLocationCarat (fuel + 1) e = .ok (s', r) ∧ Tracks (a.step e) s' := by
    by_cases hlock : ∃ t carat, e = .readLock t carat
    · obtain ⟨t, carat, rfl⟩ := hlock
      have hok : ∃ s', s.eventRcuReadLock (fuel + 1) t carat = .ok s' ∧ Tracks (a.step (.readLock t carat)) s' := by
        by_cases hzero : a.depth t = 0
        · exact h.readLock_of_canEnter fuel carat hzero (hcan t (by simp [Sections.step, hzero]))
        · exact h.readLock_of_nested (fuel + 1) carat hzero (Nat.lt_succ_of_le (hdepth t))
      obtain ⟨s', hok, h'⟩ := hok
      exact ⟨s', _, by rw [RcuState.handle, hok]; rfl, h'⟩
    · exact h.handle_other kernel getLocationCarat (fun t _ _ => Nat.lt_succ_of_le (hdepth t))
        fun t carat he => hlock ⟨t, carat, he⟩
  obtain ⟨s', r, hok, h'⟩ := hhandle
  exact ⟨_, r, RcuState.step_of_handle kernel getLocationCarat hok, h'.congr rfl (fun _ => rfl) rfl⟩

theorem Tracks.of_readLock (h : Tracks a s) (hs : s.eventRcuReadLock fuel t carat = .ok s') :
    Tracks (a.step (.readLock t carat)) s' := by
  by_cases hlt : a.depth t < 3
  · by_cases hzero : a.depth t = 0
    · by_cases hcan : a.CanEnter t
      · cases fuel with
        | zero =>
          rw [← h.depth_eq] at hzero
          simp only [RcuState.eventRcuReadLock, hzero, ↓reduceIte, RcuState.allocateSectionId] at hs
          cases hs
        | succ fuel =>
          obtain ⟨s₁, hok, h₁⟩ := h.readLock_of_canEnter fuel carat hzero hcan
          rw [hok] at hs
          cases hs
          exact h₁
      · rw [h.readLock_running hzero hcan] at hs
        cases hs
    · obtain ⟨s₁, hok, h₁⟩ := h.readLock_of_nested fuel carat hzero hlt
      rw [hok] at hs
      cases hs
      exact h₁
  · rw [← h.depth_eq] at hlt
    simp only [RcuState.eventRcuReadLock, hlt, ↓reduceDIte] at hs
    cases hs

theorem Tracks.of_step (h : Tracks a s) (hs : s.step kernel getLocationCarat fuel e = .ok (s', r)) :
    Tracks (a.step e) s' := by
  obtain ⟨⟨s₁, r₁⟩, hhandle, hlog⟩ := Outcome.bind_eq_ok.mp hs
  cases hlog
  suffices h₁ : Tracks (a.step e) s₁ from h₁.congr rfl (fun _ => rfl) rfl
  by_cases hlock : ∃ t carat, e = .readLock t carat
  · obtain ⟨t, carat, rfl⟩ := hlock
    obtain ⟨s₂, hs₂, he⟩ := Outcome.bind_eq_ok.mp hhandle
    cases he
    exact h.of_readLock hs₂
  · by_cases hunlock : ∀ t carat, e = .readUnlock t carat → a.depth t < 3
    · obtain ⟨s₂, r₂, hok, h₂⟩ := h.handle_other kernel getLocationCarat hunlock fun t carat he => hlock ⟨t, carat, he⟩
      rw [hok] at hhandle
      cases hhandle
      exact h₂
    · -- the backtrace is too short
      push Not at hunlock
      obtain ⟨t, carat, rfl, hge⟩ := hunlock
      rw [← h.depth_eq] at hge
      have hzero : (s.threads t).sectionDepth ≠ 0 := by omega
      simp only [RcuState.handle, RcuState.eventRcuReadUnlock, hzero, Nat.not_lt.mpr hge, ↓reduceIte, ↓reduceDIte] at hhandle
      cases hhandle

theorem Tracks.of_run (h : Tracks a s)
    (hs : RcuState.run kernel getLocationCarat fuel events s = .ok s') : Tracks (events.foldl Sections.step a) s' := by
  induction events generalizing a s with
  | nil =>
    cases hs
    exact h
  | cons e events ih =>
    obtain ⟨⟨s₁, r⟩, hstep, hs⟩ := Outcome.bind_eq_ok.mp hs
    exact ih (h.of_step kernel getLocationCarat hstep) hs

theorem Sections.entered_le_step (a : Sections Thread) (e : RcuEvent Thread) : a.entered ≤ (a.step e).entered := by
  cases e with
  | readLock t carat =>
    simp only [Sections.step]
    split
    · exact Nat.le_succ _
    · exact Nat.le_refl _
  | _ => exact Nat.le_refl _

theorem Sections.entered_le_foldl (a : Sections Thread) (events : List (RcuEvent Thread)) :
    a.entered ≤ (events.foldl Sections.step a).entered := by
  induction events generalizing a with
  | nil => exact Nat.le_refl _
  | cons e events ih => exact Nat.le_trans (a.entered_le_step e) (ih _)

theorem Tracks.run_ok (h : Tracks a s) (hshallow : ∀ past, past <+: events → ∀ t, (past.foldl Sections.step a).depth t ≤ 2)
    (hentered : (events.foldl Sections.step a).entered < 2 ^ 14) :
    ∃ s', RcuState.run kernel getLocationCarat (fuel + 1) events s = .ok s' ∧
      Tracks (events.foldl Sections.step a) s' := by
  induction events generalizing a s with
  | nil => exact ⟨s, rfl, h⟩
  | cons e events ih =>
    have hle : (a.step e).entered ≤ ((e :: events).foldl Sections.step a).entered :=
      Sections.entered_le_foldl _ events
    have hcan : ∀ t, (a.step e).entered ≠ a.entered → a.CanEnter t := by
      intro t hne
      have := a.entered_le_step e
      exact .inl (by omega)
    obtain ⟨s₁, r, hstep, h₁⟩ := h.step_ok kernel getLocationCarat e (hshallow [] List.nil_prefix) hcan
    obtain ⟨s', hrun, h'⟩ := ih h₁ (fun past hpast => hshallow (e :: past) (List.cons_prefix_cons.mpr ⟨rfl, hpast⟩)) hentered
    exact ⟨s', (RcuState.run_cons_of_step kernel getLocationCarat hstep).trans hrun, h'⟩

/-! ## Reading through a pointer -/

omit [DecidableEq Thread] in
theorem Tracks.readFromDerefPointer {addr : RcudbgWatchedAddress} (h : Tracks a s) (hentered : a.entered < 2 ^ 14)
    (hn : n < 2 ^ 14) (hid : addr.readSectionId = ofNat 14 n) :
    (a.depth t = 0 ∧ ∃ args, s.readFromDerefPointer t addr = [⟨.accessOfLeakedRcuDereferencedPointer, args⟩]) ∨
    (a.depth t ≠ 0 ∧ a.current t ≠ n ∧
      ∃ args, s.readFromDerefPointer t addr = [⟨.accessOfWrongRcuDereferencedPointer, args⟩]) ∨
    (a.depth t ≠ 0 ∧ a.current t = n ∧ s.readFromDerefPointer t addr = []) := by
  have hcurrent := h.current_le t
  have hsection : (s.threads t).sectionId = addr.readSectionId ↔ a.current t = n := by
    rw [h.id_eq, hid, ofNat_eq_ofNat_iff (by omega) hn]
  simp only [RcuState.readFromDerefPointer, h.depth_eq, Ne, hsection]
  by_cases hzero : a.depth t = 0
  · rw [if_pos hzero]
    exact .inl ⟨hzero, _, rfl⟩
  · rw [if_neg hzero]
    by_cases heq : a.current t = n
    · rw [if_neg (not_not.mpr heq)]
      exact .inr (.inr ⟨hzero, heq, rfl⟩)
    · rw [if_pos heq]
      exact .inr (.inl ⟨hzero, heq, _, rfl⟩)

omit [DecidableEq Thread] in
theorem Log.log_messages {l : Log Thread} {m : LogMessage Thread} (h : l.nextLogOffset < maxNumMessages) :
    (l.log m).messages l.nextLogOffset = some m := by
  simp [Log.log, Nat.not_le.mpr h, Nat.mod_eq_of_lt h]

theorem Tracks.dereference (h : Tracks a s) (hinside : a.Inside t n) (hvalid : isValidAddress kernel ptr = true) :
    ∃ s' r, ∃ addr : RcudbgWatchedAddress,
      s.step kernel getLocationCarat fuel (.dereference t derefedPtr ptr carat index) = .ok (s', r) ∧
      r.pointer = some addr ∧ Tracks a s' ∧ isWatchedAddress kernel addr = true ∧ addr.isDeref = true ∧
      addr.readSectionId = ofNat 14 n := by
  obtain ⟨messages, hderef⟩ := eventRcuDereference_eq kernel getLocationCarat t derefedPtr ptr carat index s
  have hdepth : (s.threads t).sectionDepth ≠ 0 := by
    rw [h.depth_eq]
    exact hinside.1
  rw [if_neg hdepth, if_pos hvalid, h.id_eq, hinside.2] at hderef
  have hstep := RcuState.step_of_handle kernel getLocationCarat
    (RcuState.handle_dereference kernel getLocationCarat fuel hderef)
  obtain ⟨hid, hbit⟩ := rcudbg_withCounterIndex index (ofNat 14 n) true
  exact ⟨_, _, _, hstep, rfl, h.of_step kernel getLocationCarat hstep, isWatchedAddress_withCounterIndex hvalid, hbit, hid⟩

theorem Tracks.read {addr : RcudbgWatchedAddress} (h : Tracks a s) (hentered : a.entered < 2 ^ 14)
    (hn : n < 2 ^ 14) (hwatched : isWatchedAddress kernel addr = true) (hderef : addr.isDeref = true)
    (hid : addr.readSectionId = ofNat 14 n) :
    ∃ s' r, s.step kernel getLocationCarat fuel (.access t addr true) = .ok (s', r) ∧ Reports a t n r ∧
      (s.log.nextLogOffset < maxNumMessages → ∀ m ∈ r.messages, ∃ i, s'.log.messages i = some m) := by
  have hvisit : s.visitAccess kernel getLocationCarat t addr true = s.readFromDerefPointer t addr := by
    simp [RcuState.visitAccess, hwatched, hderef]
  refine ⟨_, _, rfl, ?_, ?_⟩
  · constructor
    all_goals simp only [RcuResult.Logs, hvisit, Sections.Inside]
    all_goals
      obtain ⟨hzero, args, hr⟩ | ⟨hzero, hne, args, hr⟩ | ⟨hzero, heq, hr⟩ := h.readFromDerefPointer (t := t) hentered hn hid
      all_goals simp_all
  · simp only [hvisit]
    intro hroom m hm
    obtain ⟨hzero, args, hr⟩ | ⟨hzero, hne, args, hr⟩ | ⟨hzero, heq, hr⟩ := h.readFromDerefPointer (t := t) hentered hn hid
    all_goals rw [hr] at hm ⊢
    · rw [List.mem_singleton.mp hm]
      exact ⟨_, Log.log_messages hroom⟩
    · rw [List.mem_singleton.mp hm]
      exact ⟨_, Log.log_messages hroom⟩
    · cases hm

/-! ## Many sections -/

theorem Tracks.run_lockPairs (h : Tracks a s) (fuel : Nat) (t : Thread) (carat : Carat) (n : Nat) (hdepth : ∀ u, a.depth u = 0)
    (hn : a.entered + n < 2 ^ 14) :
    ∃ s' a', RcuState.run kernel getLocationCarat (fuel + 1) (lockPairs t carat n) s = .ok s' ∧ Tracks a' s' ∧
      a'.entered = a.entered + n ∧ (∀ u, a'.depth u = 0) ∧ ∀ u, u ≠ t → a'.current u = a.current u := by
  induction n generalizing a s with
  | zero => exact ⟨s, a, rfl, h, rfl, hdepth, fun _ _ => rfl⟩
  | succ n ih =>
    obtain ⟨s₁, r₁, hstep₁, h₁⟩ := h.step_ok kernel getLocationCarat (.readLock t carat)
      (fun u => by simp [hdepth]) fun u _ => .inl (by omega)
    have hlocked : ∀ u, (a.step (.readLock t carat)).depth u ≤ 2 := by
      intro u
      simp only [Sections.step, hdepth, ↓reduceIte, update_apply]
      split <;> simp
    obtain ⟨s₂, r₂, hstep₂, h₂⟩ := h₁.step_ok kernel getLocationCarat (.readUnlock t carat) hlocked
      fun u hne => absurd rfl hne
    have hunlocked : ∀ u, ((a.step (.readLock t carat)).step (.readUnlock t carat)).depth u = 0 := by
      intro u
      simp only [Sections.step, hdepth, ↓reduceIte, update_self, Nat.sub_self, update_apply]
      split <;> rfl
    have hentered : ((a.step (.readLock t carat)).step (.readUnlock t carat)).entered = a.entered + 1 := by
      simp [Sections.step, hdepth]
    obtain ⟨s', a', hrun, h', hentered', hdepth', hcurrent⟩ := ih h₂ hunlocked (by omega)
    refine ⟨s', a', ?_, h', by omega, hdepth', fun u hu => ?_⟩
    · rw [lockPairs, List.replicate_succ, List.flatten_cons, List.cons_append, List.cons_append, List.nil_append,
        RcuState.run_cons_of_step kernel getLocationCarat hstep₁, RcuState.run_cons_of_step kernel getLocationCarat hstep₂]
      exact hrun
    · rw [hcurrent u hu]
      simp [Sections.step, hdepth, update_of_ne hu]

end Pointers

end Granary.Watchpoints
