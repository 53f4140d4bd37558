import Granary.Interrupts.DelayStates

/-!
# What the initialisation of the delay states writes
-/

namespace Granary.Interrupts

variable {b : StateBytes} {s : InitState} {state : ByteState} {i j k n : Nat}
variable {e : Encoded} {r : DelayRegion} {p : Piece}

/-! ## State bytes -/

@[simp] theorem ByteState.ofCode_code : ByteState.ofCode state.code = state := by cases state <;> rfl

namespace StateBytes

theorem getState_setState (b : StateBytes) (i : Nat) (state : ByteState) (k : Nat) :
    (b.setState i state).getState k = if k = i then state else b.getState k := by
  simp only [getState, setState, write, statesPerByte]
  by_cases hbyte : k / 4 = i / 4
  · rw [hbyte, Function.update_self]
    by_cases hk : k = i
    · subst hk
      rw [if_pos rfl, BitField.get_put_self (by omega), ByteState.ofCode_code]
    · rw [if_neg hk, BitField.get_put_of_disjoint (by omega) (by omega)]
  · rw [Function.update_of_ne hbyte, if_neg (fun h => hbyte (by rw [h]))]

theorem fill_succ : b.fill i (n + 1) state = (b.setState i state).fill (i + 1) n state := rfl

theorem getState_fill (b : StateBytes) (i n : Nat) (state : ByteState) (k : Nat) :
    (b.fill i n state).getState k = if i ≤ k ∧ k < i + n then state else b.getState k := by
  induction n generalizing b i with
  | zero =>
    rw [if_neg (by omega)]
    rfl
  | succ n ih =>
    rw [fill_succ, ih, getState_setState]
    by_cases hk : k = i
    · rw [if_pos hk, ite_self, if_pos (by omega)]
    · rw [if_neg hk]
      congr 1
      simp only [eq_iff_iff]
      omega

end StateBytes

/-! ## One instruction -/

def nonEmpty (sizes : List Nat) : Nat := sizes.countP (· ≠ 0)

namespace InitState

theorem step_delayed (hstate : getInstructionState e s.prevState = state) (hne : state ≠ .native)
    (hprev : s.prevNumDelayedInstructions ≠ 1) :
    s.step e =
      { bytes := (s.store state e.size).bytes
        byteOffset := s.byteOffset + e.size
        prevByteOffset := s.byteOffset
        prevState := state
        numDelayedInstructions := s.numDelayedInstructions + nonEmpty [e.size]
        prevNumDelayedInstructions := s.prevNumDelayedInstructions } := by
  by_cases hsize : e.size = 0 <;>
    simp [step, hstate, count, hne, hsize, clearSingle, hprev, advance, store, nonEmpty]

theorem step_native (hstate : getInstructionState e s.prevState = .native) (hnum : s.numDelayedInstructions ≠ 1) :
    s.step e =
      { bytes := s.bytes.fill s.byteOffset e.size .native
        byteOffset := s.byteOffset + e.size
        prevByteOffset := s.byteOffset
        prevState := .native
        numDelayedInstructions := 0
        prevNumDelayedInstructions := s.numDelayedInstructions } := by
  simp [step, hstate, count, clearSingle, hnum, advance, store]

/-- What instructions of these sizes in a delay region do, where `states` are the states of the bytes afterwards. -/
structure Delayed (s : InitState) (sizes : List Nat) (states : Nat → ByteState) (s' : InitState) : Prop where
  byteOffset : s'.byteOffset = s.byteOffset + sizes.sum
  num : s'.numDelayedInstructions = s.numDelayedInstructions + nonEmpty sizes
  prevNum : s'.prevNumDelayedInstructions = s.prevNumDelayedInstructions
  getState : ∀ k, s'.bytes.getState k = states k

theorem Delayed.trans {s s₁ s₂ : InitState} {sizes sizes' : List Nat} {states states' : Nat → ByteState}
    (h : Delayed s sizes states s₁) (h' : Delayed s₁ sizes' states' s₂) : Delayed s (sizes ++ sizes') states' s₂ where
  byteOffset := by rw [h'.byteOffset, h.byteOffset, List.sum_append, Nat.add_assoc]
  num := by rw [h'.num, h.num, nonEmpty, nonEmpty, nonEmpty, List.countP_append, Nat.add_assoc]
  prevNum := h'.prevNum.trans h.prevNum
  getState := h'.getState

theorem delayed_step (hstate : getInstructionState e s.prevState = state) (hne : state ≠ .native)
    (hprev : s.prevNumDelayedInstructions ≠ 1) : Delayed s [e.size] (s.store state e.size).bytes.getState (s.step e) := by
  rw [step_delayed hstate hne hprev]
  exact ⟨by simp, rfl, rfl, fun _ => rfl⟩

theorem delayed_middle (sizes : List Nat) (hprev : s.prevNumDelayedInstructions ≠ 1)
    (hstate : s.prevState = .delayBegin ∨ s.prevState = .delayCont) :
    Delayed s sizes
      (fun k => if s.byteOffset ≤ k ∧ k < s.byteOffset + sizes.sum then .delayCont else s.bytes.getState k)
      (s.run (sizes.map fun n => ⟨n, false, false⟩)) := by
  induction sizes generalizing s with
  | nil => exact ⟨rfl, rfl, rfl, fun k => by rw [List.sum_nil, if_neg (by omega)]; rfl⟩
  | cons n sizes ih =>
    have hcont : getInstructionState ⟨n, false, false⟩ s.prevState = .delayCont := by
      obtain h | h := hstate <;> rw [h] <;> rfl
    have hstep := delayed_step hcont (by decide) hprev
    have hrest := ih (s := s.step ⟨n, false, false⟩) (by rw [hstep.prevNum]; exact hprev) (.inr hcont)
    refine ⟨(hstep.trans hrest).byteOffset, (hstep.trans hrest).num, (hstep.trans hrest).prevNum, fun k => ?_⟩
    have hoff : (s.step ⟨n, false, false⟩).byteOffset = s.byteOffset + n := hstep.byteOffset
    have hk := hrest.getState k
    rw [hstep.getState, hoff] at hk
    refine hk.trans ?_
    simp only [store, reduceCtorEq, if_false, StateBytes.getState_fill]
    have hsum : (n :: sizes).sum = n + sizes.sum := rfl
    split_ifs <;> first | rfl | omega

def regionStates (s : InitState) (r : DelayRegion) (k : Nat) : ByteState :=
  if k = unsignedPred (s.byteOffset + r.size) then .delayEnd
  else if k = s.byteOffset ∧ (r.first ≠ 0 ∨ r.size = 0) then .delayBegin
  else if s.byteOffset ≤ k ∧ k < s.byteOffset + r.size then .delayCont
  else s.bytes.getState k

theorem delayed_region (r : DelayRegion) (hprev : s.prevNumDelayedInstructions ≠ 1) :
    Delayed s r.sizes (s.regionStates r) (s.run r.encoded) := by
  have hbegin : getInstructionState ⟨r.first, true, false⟩ s.prevState = .delayBegin := rfl
  have hfirst := delayed_step hbegin (by decide) hprev
  have hmiddle := delayed_middle (s := s.step ⟨r.first, true, false⟩) r.middle (by rw [hfirst.prevNum]; exact hprev)
    (.inl rfl)
  have hend : getInstructionState ⟨r.last, false, true⟩
      ((s.step ⟨r.first, true, false⟩).run (r.middle.map fun n => ⟨n, false, false⟩)).prevState = .delayEnd := rfl
  have hlast := delayed_step hend (by decide) (by rw [hmiddle.prevNum, hfirst.prevNum]; exact hprev)
  have hrun : s.run r.encoded =
      ((s.step ⟨r.first, true, false⟩).run (r.middle.map fun n => ⟨n, false, false⟩)).step ⟨r.last, false, true⟩ := by
    rw [DelayRegion.encoded, run, List.foldl_append]
    rfl
  have hall := (hfirst.trans hmiddle).trans hlast
  rw [hrun]
  refine ⟨hall.byteOffset, hall.num, hall.prevNum, fun k => ?_⟩
  have hsize : r.size = r.first + (r.middle.sum + r.last) := by
    simp [DelayRegion.size, DelayRegion.sizes]
  have hoff := (hfirst.trans hmiddle).byteOffset
  simp only [List.sum_append, List.sum_singleton] at hoff
  have hoff' : (s.step ⟨r.first, true, false⟩).byteOffset = s.byteOffset + r.first := hfirst.byteOffset
  rw [hlast.getState]
  simp only [store, reduceCtorEq, if_false, StateBytes.getState_setState, StateBytes.getState_fill, hmiddle.getState,
    hfirst.getState, hoff, hoff']
  rw [regionStates, hsize]
  rw [show s.byteOffset + (r.first + r.middle.sum) + r.last = s.byteOffset + (r.first + (r.middle.sum + r.last)) by omega]
  split_ifs <;> first | rfl | omega

end InitState

/-! ## Blocks -/

theorem DelayRegion.size_eq (r : DelayRegion) : r.size = r.first + (r.middle ++ [r.last]).sum := rfl

theorem sum_pos_of_ne_zero {l : List Nat} (hn : n ∈ l) (h : n ≠ 0) : 0 < l.sum :=
  List.sum_pos_iff_exists_pos_nat.mpr ⟨n, hn, Nat.pos_of_ne_zero h⟩

theorem DelayRegion.Good.two_le (h : r.Good) : 2 ≤ r.size := by
  obtain ⟨hfirst, n, hn, hne⟩ := h
  have := sum_pos_of_ne_zero hn hne
  rw [r.size_eq]
  omega

theorem DelayRegion.Good.nonEmpty (h : r.Good) : 2 ≤ nonEmpty r.sizes := by
  obtain ⟨hfirst, n, hn, hne⟩ := h
  have hpos : 0 < Interrupts.nonEmpty (r.middle ++ [r.last]) := List.countP_pos_iff.mpr ⟨n, hn, by simpa using hne⟩
  have hcons : Interrupts.nonEmpty r.sizes = Interrupts.nonEmpty (r.middle ++ [r.last]) + 1 := by
    rw [Interrupts.nonEmpty, DelayRegion.sizes, List.cons_append, List.countP_cons_of_pos (by simpa using hfirst)]
    rfl
  omega

namespace Piece

def Good : Piece → Prop
  | region r => r.Good
  | _ => True

def byteState : Piece → Nat → ByteState
  | region r, k => if k + 1 = r.size then .delayEnd else if k = 0 then .delayBegin else .delayCont
  | _, _ => .native

theorem sum_encoded (p : Piece) : (p.encoded.map Encoded.size).sum = p.size := by
  cases p with
  | native size => rfl
  | single size => rfl
  | region r => simp [encoded, DelayRegion.encoded, size, DelayRegion.size, DelayRegion.sizes, Function.comp_def]

end Piece

namespace InitState

structure Clean (s : InitState) : Prop where
  num : s.numDelayedInstructions ≠ 1
  prevNum : s.prevNumDelayedInstructions ≠ 1
  prevState : s.prevState = .native ∨ s.prevState = .delayEnd

structure Wrote (s : InitState) (p : Piece) (s' : InitState) : Prop where
  clean : s'.Clean
  byteOffset : s'.byteOffset = s.byteOffset + p.size
  getState : ∀ k, s'.bytes.getState k =
    if s.byteOffset ≤ k ∧ k < s.byteOffset + p.size then p.byteState (k - s.byteOffset) else s.bytes.getState k

theorem Clean.wrote_native (h : s.Clean) (hstate : getInstructionState e s.prevState = .native) (hsize : p.size = e.size)
    (hp : ∀ k, p.byteState k = .native) : Wrote s p (s.run [e]) := by
  have hstep : s.run [e] = _ := step_native hstate h.num
  rw [hstep]
  refine ⟨⟨Nat.zero_ne_one, h.num, .inl rfl⟩, by rw [hsize], fun k => ?_⟩
  rw [StateBytes.getState_fill, hsize, hp]

theorem Clean.wrote (h : s.Clean) (hp : p.Good) : Wrote s p (s.run p.encoded) := by
  cases p with
  | native size =>
    refine h.wrote_native ?_ rfl fun _ => rfl
    obtain hs | hs := h.prevState <;> rw [hs] <;> rfl
  | single size => exact h.wrote_native rfl rfl fun _ => rfl
  | region r =>
    have hd := delayed_region r h.prevNum
    have htwo := DelayRegion.Good.two_le hp
    refine ⟨⟨?_, ?_, .inr ?_⟩, hd.byteOffset, fun k => ?_⟩
    · have := DelayRegion.Good.nonEmpty hp
      rw [Piece.encoded, hd.num]
      omega
    · rw [Piece.encoded, hd.prevNum]
      exact h.prevNum
    · rw [Piece.encoded, DelayRegion.encoded, run, List.foldl_append]
      rfl
    · have hpred : unsignedPred (s.byteOffset + r.size) = s.byteOffset + r.size - 1 := if_neg (by omega)
      rw [Piece.encoded, hd.getState, regionStates, hpred]
      have hfirst : r.first ≠ 0 := hp.1
      change _ = if s.byteOffset ≤ k ∧ k < s.byteOffset + r.size then
        (if k - s.byteOffset + 1 = r.size then ByteState.delayEnd
          else if k - s.byteOffset = 0 then ByteState.delayBegin else ByteState.delayCont) else _
      split_ifs <;> first | rfl | omega

end InitState

def blockState : List Piece → Nat → ByteState
  | [], _ => .native
  | p :: ps, k => if k < p.size then p.byteState k else blockState ps (k - p.size)

theorem blockState_append (ps qs : List Piece) : blockState (ps ++ qs) (blockSize ps + k) = blockState qs k := by
  induction ps with
  | nil => simp [blockSize]
  | cons p ps ih =>
    have hsize : blockSize (p :: ps) = p.size + blockSize ps := rfl
    rw [List.cons_append, blockState, hsize, if_neg (by omega), Nat.add_assoc, Nat.add_sub_cancel_left, ih]

namespace InitState

theorem clean_start (bytes : StateBytes) : (start bytes).Clean := ⟨Nat.zero_ne_one, Nat.zero_ne_one, .inl rfl⟩

theorem run_append (s : InitState) (l l' : List Encoded) : s.run (l ++ l') = (s.run l).run l' := List.foldl_append

structure WroteBlock (s : InitState) (block : List Piece) (s' : InitState) : Prop where
  clean : s'.Clean
  byteOffset : s'.byteOffset = s.byteOffset + blockSize block
  getState : ∀ k < s.byteOffset + blockSize block, s'.bytes.getState k =
    if k < s.byteOffset then s.bytes.getState k else blockState block (k - s.byteOffset)

theorem Clean.wroteBlock (block : List Piece) (h : s.Clean) (hgood : ∀ p ∈ block, p.Good) :
    WroteBlock s block (s.run (blockEncoded block)) := by
  induction block generalizing s with
  | nil => exact ⟨h, rfl, fun k hk => by rw [if_pos (by simpa [blockSize] using hk)]; rfl⟩
  | cons p ps ih =>
    have hw := h.wrote (hgood p List.mem_cons_self)
    have hps := ih hw.clean fun q hq => hgood q (List.mem_cons_of_mem _ hq)
    have hrun : s.run (blockEncoded (p :: ps)) = (s.run p.encoded).run (blockEncoded ps) := run_append _ _ _
    have hsize : blockSize (p :: ps) = p.size + blockSize ps := rfl
    rw [hrun]
    refine ⟨hps.clean, by rw [hps.byteOffset, hw.byteOffset, hsize, Nat.add_assoc], fun k hk => ?_⟩
    rw [hps.getState k (by rw [hw.byteOffset]; omega), hw.byteOffset, hw.getState, blockState]
    split_ifs <;> first | rfl | omega | skip
    congr 1
    omega

end InitState

theorem getState_initialiseStateBytes {block : List Piece} (hgood : ∀ p ∈ block, p.Good) (bytes : StateBytes)
    (numBytes : Nat) (hk : k < blockSize block) :
    (initialiseStateBytes (blockEncoded block) bytes numBytes).getState k = blockState block k := by
  have hw := (InitState.clean_start (bytes.clear (numStateBytes numBytes))).wroteBlock block hgood
  rw [initialiseStateBytes, hw.getState k (by simpa [InitState.start] using hk)]
  rfl

end Granary.Interrupts
