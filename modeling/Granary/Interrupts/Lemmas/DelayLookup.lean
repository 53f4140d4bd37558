import Granary.Interrupts.Lemmas.DelayStates

/-!
# Lookups in the delay states
-/

namespace Granary.Interrupts

variable {b : StateBytes} {block : List Piece} {i j k n lo hi offset : Nat}
variable {startPc beginPc endPc : Nat} {numBytes : BitVec 16} {r : DelayRegion} {ps qs : List Piece}

/-! ## The scans -/

theorem findEnd_eq (hend : b.getState j = .delayEnd) (hnot : ∀ k, i ≤ k → k < j → b.getState k ≠ .delayEnd)
    (hij : i ≤ j) (hj : j < i + n) : findEnd b i n = some (j + 1) := by
  induction n generalizing i with
  | zero => omega
  | succ n ih =>
    rw [findEnd]
    obtain rfl | hlt := Nat.eq_or_lt_of_le hij
    · rw [if_pos hend]
    · rw [if_neg (hnot i (Nat.le_refl _) hlt)]
      exact ih (fun k hk => hnot k (by omega)) hlt (by omega)

theorem findEnd_eq_none (hnot : ∀ k, i ≤ k → k < i + n → b.getState k ≠ .delayEnd) : findEnd b i n = none := by
  induction n generalizing i with
  | zero => rfl
  | succ n ih =>
    rw [findEnd, if_neg (hnot i (Nat.le_refl _) (by omega))]
    exact ih fun k hk hlt => hnot k (by omega) (by omega)

theorem findBegin_eq (hsafe : (b.getState j).safe = true) (hnot : ∀ k, j < k → k < n → (b.getState k).safe = false)
    (hj : j < n) : findBegin b n = some j := by
  induction n with
  | zero => omega
  | succ n ih =>
    rw [findBegin]
    obtain rfl | hlt := Nat.eq_or_lt_of_le (Nat.le_of_lt_succ hj)
    · rw [if_pos hsafe]
    · rw [if_neg (by rw [hnot n hlt (Nat.lt_succ_self n)]; decide)]
      exact ih (fun k hk hkn => hnot k hk (Nat.lt_succ_of_lt hkn)) hlt

theorem getInterruptDelayRange_eq (hpos : 0 < startPc)
    (hdelay : (b.getState offset).safe = false) (hsafe : (b.getState lo).safe = true) (hlo : lo < offset)
    (hbetween : ∀ k, lo < k → k < offset → (b.getState k).safe = false) (hend : b.getState hi = .delayEnd)
    (hnot : ∀ k, offset ≤ k → k < hi → b.getState k ≠ .delayEnd) (hhi : offset ≤ hi) (hbytes : hi < numBytes.toNat) :
    getInterruptDelayRange (some b) startPc numBytes (startPc + offset) beginPc endPc =
      (true, startPc + lo, startPc + (hi + 1)) := by
  have hoff : startPc + offset - startPc = offset := by omega
  simp only [getInterruptDelayRange]
  rw [if_neg (by omega), hoff, if_neg (by rw [hdelay]; decide), findEnd_eq hend hnot hhi (by omega),
    findBegin_eq hsafe hbetween hlo]
  simp only [Option.map_some, Option.getD_some, Prod.mk.injEq, and_true, decide_eq_true_eq]
  omega

theorem getInterruptDelayRange_safe (hsafe : (b.getState offset).safe = true) :
    (getInterruptDelayRange (some b) startPc numBytes (startPc + offset) beginPc endPc).1 = false := by
  have hoff : startPc + offset - startPc = offset := by omega
  simp only [getInterruptDelayRange, hoff, hsafe, if_true]
  split <;> rfl

theorem getInterruptDelayRange_unseen (hnot : ∀ k, offset ≤ k → k < numBytes.toNat → b.getState k ≠ .delayEnd) :
    (getInterruptDelayRange (some b) startPc numBytes (startPc + offset) beginPc 0).1 = false := by
  have hoff : startPc + offset - startPc = offset := by omega
  have hnone : findEnd b offset (numBytes.toNat - offset) = none :=
    findEnd_eq_none fun k hk hlt => hnot k hk (by omega)
  simp only [getInterruptDelayRange, hoff, hnone]
  split
  · rfl
  · split
    · rfl
    · simp

/-! ## Boundaries -/

theorem blockSize_append (ps qs : List Piece) : blockSize (ps ++ qs) = blockSize ps + blockSize qs := by
  simp [blockSize]

theorem exists_piece (hoffset : offset < blockSize block) {before after : List Encoded}
    (hsplit : blockEncoded block = before ++ after) (hbefore : offset = (before.map Encoded.size).sum) :
    ∃ ps p qs before' after', block = ps ++ p :: qs ∧ p.encoded = before' ++ after' ∧
      offset = blockSize ps + (before'.map Encoded.size).sum ∧ offset < blockSize ps + p.size := by
  induction block generalizing offset before after with
  | nil => exact absurd hoffset (Nat.not_lt_zero _)
  | cons p block ih =>
    have hsize : blockSize (p :: block) = p.size + blockSize block := rfl
    have hsplit' : p.encoded ++ blockEncoded block = before ++ after := hsplit
    by_cases hlt : offset < p.size
    · refine ⟨[], p, block, ?_⟩
      obtain ⟨mid, hp, -⟩ | ⟨mid, hb, -⟩ := List.append_eq_append_iff.mp hsplit'.symm
      · exact ⟨before, mid, rfl, hp, by simpa [blockSize] using hbefore, by simpa [blockSize] using hlt⟩
      · rw [hb, List.map_append, List.sum_append, p.sum_encoded] at hbefore
        omega
    · -- the instruction is in a later piece, or at its start
      have hrest : ∃ before₁ after₁, blockEncoded block = before₁ ++ after₁ ∧
          offset - p.size = (before₁.map Encoded.size).sum := by
        obtain ⟨mid, hp, -⟩ | ⟨mid, hb, ha⟩ := List.append_eq_append_iff.mp hsplit'.symm
        · have hle := congrArg (fun l => (l.map Encoded.size).sum) hp
          simp only [List.map_append, List.sum_append, p.sum_encoded] at hle
          exact ⟨[], _, rfl, by simp; omega⟩
        · rw [hb, List.map_append, List.sum_append, p.sum_encoded] at hbefore
          exact ⟨mid, after, ha, by omega⟩
      obtain ⟨before₁, after₁, hsplit₁, hbefore₁⟩ := hrest
      obtain ⟨ps, q, qs, before', after', rfl, hq, hoff, hlt'⟩ := ih (by omega) hsplit₁ hbefore₁
      have hsize' : blockSize (p :: ps) = p.size + blockSize ps := rfl
      exact ⟨p :: ps, q, qs, before', after', rfl, hq, by omega, by omega⟩

/-! ## Good blocks -/

theorem DelayRegion.firstSize_of_ne_zero (h : r.first ≠ 0) : r.firstSize = r.first := by
  simp [firstSize, sizes, h]

theorem blockState_region (hk : k < r.size) :
    blockState (ps ++ .region r :: qs) (blockSize ps + k) = (Piece.region r).byteState k := by
  rw [blockState_append, blockState]
  exact if_pos hk

theorem requiresStateBytes_region : requiresStateBytes (blockEncoded (ps ++ .region r :: qs)) = true := by
  rw [requiresStateBytes, List.any_eq_true]
  refine ⟨⟨r.first, true, false⟩, ?_, rfl⟩
  simp [blockEncoded, Piece.encoded, DelayRegion.encoded]

theorem lookup_region (hr : r.Good)
    (hb : ∀ k < r.size, b.getState (lo + k) = (Piece.region r).byteState k) (hpos : 0 < startPc)
    (hk : 0 < k) (hhi : k < r.size) (hbytes : lo + r.size ≤ numBytes.toNat) :
    getInterruptDelayRange (some b) startPc numBytes (startPc + (lo + k)) beginPc endPc =
      (true, startPc + lo, startPc + (lo + r.size)) := by
  have htwo := hr.two_le
  have hinside : ∀ j, 0 < j → j < r.size → (b.getState (lo + j)).safe = false := by
    intro j hj hjr
    rw [hb j hjr, Piece.byteState, if_neg (Nat.ne_of_gt hj)]
    split <;> rfl
  have hfirst : (b.getState (lo)).safe = true := by
    have := hb 0 (by omega)
    rw [Nat.add_zero, Piece.byteState, if_neg (by omega), if_pos rfl] at this
    rw [this]
    rfl
  have hlast : b.getState (lo + (r.size - 1)) = .delayEnd := by
    rw [hb _ (by omega)]
    exact if_pos (by omega)
  have hnot : ∀ j, lo + k ≤ j → j < lo + (r.size - 1) → b.getState j ≠ .delayEnd := by
    intro j hj hjr
    obtain ⟨d, rfl⟩ := Nat.exists_eq_add_of_le (Nat.le_trans (Nat.le_add_right _ _) hj)
    rw [hb d (by omega), Piece.byteState, if_neg (by omega), if_neg (by omega)]
    decide
  rw [getInterruptDelayRange_eq hpos (hinside k hk hhi) hfirst (by omega) (fun j hj hjk => ?_) hlast hnot (by omega)
    (by omega)]
  · rw [show lo + (r.size - 1) + 1 = lo + r.size by omega]
  · obtain ⟨d, rfl⟩ := Nat.exists_eq_add_of_le (Nat.le_of_lt hj)
    exact hinside d (by omega) (by omega)

theorem lookup_inRegion (hgood : ∀ p ∈ block, p.Good) (hseen : EndsSeen block) (byte : Nat → BitVec 8) (hpos : 0 < startPc)
    (hin : InRegion block offset lo hi) :
    getInterruptDelayRange (delayStates block byte) startPc (blockNumBytes block) (startPc + offset) beginPc endPc =
      (true, startPc + lo, startPc + hi) := by
  obtain ⟨ps, r, qs, rfl, rfl, rfl, hlo, hhi⟩ := hin
  have hr : r.Good := hgood (.region r) (by simp)
  rw [DelayRegion.firstSize_of_ne_zero hr.1] at hlo
  have hr1 := hr.1
  obtain ⟨d, rfl⟩ := Nat.exists_eq_add_of_le (Nat.le_trans (Nat.le_add_right _ _) hlo)
  have hsize : blockSize (ps ++ .region r :: qs) = blockSize ps + (r.size + blockSize qs) := blockSize_append _ _
  rw [delayStates, if_pos requiresStateBytes_region]
  refine lookup_region hr (fun k hk => ?_) hpos (by omega) (by omega) (hseen ps r qs rfl)
  rw [getState_initialiseStateBytes hgood _ _ (by omega), blockState_region hk]

theorem lookup_outside (hgood : ∀ p ∈ block, p.Good) (byte : Nat → BitVec 8) (hboundary : Boundary block offset)
    (hno : ¬ ∃ lo hi, InRegion block offset lo hi) :
    (getInterruptDelayRange (delayStates block byte) startPc numBytes (startPc + offset) beginPc endPc).1 = false := by
  obtain ⟨hoffset, before, after, hsplit, hbefore⟩ := hboundary
  rw [delayStates]
  split
  · apply getInterruptDelayRange_safe
    rw [getState_initialiseStateBytes hgood _ _ hoffset]
    obtain ⟨ps, p, qs, before', after', rfl, hp, hoff, hlt⟩ := exists_piece hoffset hsplit hbefore
    obtain ⟨d, rfl⟩ := Nat.exists_eq_add_of_le (show blockSize ps ≤ offset by omega)
    rw [blockState_append, blockState, if_pos (by omega)]
    cases p with
    | native size => rfl
    | single size => rfl
    | region r =>
      have hr : r.Good := hgood (.region r) (by simp)
      have htwo := hr.two_le
      -- only the first instruction of the region is left
      have hd : d = 0 := by
        by_contra hd
        refine hno ⟨blockSize ps, blockSize ps + r.size, ps, r, qs, rfl, rfl, rfl, ?_, hlt⟩
        rw [DelayRegion.firstSize_of_ne_zero hr.1]
        cases before' with
        | nil => simp at hoff; omega
        | cons e before' =>
          have he : e = ⟨r.first, true, false⟩ := by
            simp only [Piece.encoded, DelayRegion.encoded, List.cons_append, List.cons.injEq] at hp
            exact hp.1.symm
          simp only [List.map_cons, List.sum_cons, he] at hoff
          omega
      subst hd
      rw [Piece.byteState, if_neg (by omega), if_pos rfl]
      rfl
  · rfl

/-! ## Regions whose end is not seen -/

theorem sum_blockEncoded (block : List Piece) : ((blockEncoded block).map Encoded.size).sum = blockSize block := by
  induction block with
  | nil => rfl
  | cons p block ih =>
    have henc : blockEncoded (p :: block) = p.encoded ++ blockEncoded block := rfl
    rw [henc, List.map_append, List.sum_append, ih, p.sum_encoded]
    rfl

theorem DelayRegion.Good.first_lt (h : r.Good) : r.first < r.size := by
  obtain ⟨-, n, hn, hne⟩ := h
  have := sum_pos_of_ne_zero hn hne
  rw [r.size_eq]
  omega

theorem boundary_second (hr : r.Good) : Boundary (ps ++ .region r :: qs) (blockSize ps + r.first) := by
  have hsize : blockSize (ps ++ .region r :: qs) = blockSize ps + (r.size + blockSize qs) := blockSize_append _ _
  have hlt := hr.first_lt
  refine ⟨by omega, blockEncoded ps ++ [⟨r.first, true, false⟩],
    (r.middle.map fun n => ⟨n, false, false⟩) ++ [⟨r.last, false, true⟩] ++ blockEncoded qs, ?_, ?_⟩
  · simp [blockEncoded, Piece.encoded, DelayRegion.encoded]
  · rw [List.map_append, List.sum_append, sum_blockEncoded]
    rfl

theorem endsSeen_of_lookupsRight (hgood : ∀ p ∈ block, p.Good) (h : LookupsRight block) : EndsSeen block := by
  rintro ps r qs rfl
  by_contra hseen
  have hr : r.Good := hgood (.region r) (by simp)
  have hsize : blockSize (ps ++ .region r :: qs) = blockSize ps + (r.size + blockSize qs) := blockSize_append _ _
  have hin : InRegion (ps ++ .region r :: qs) (blockSize ps + r.first) (blockSize ps) (blockSize ps + r.size) :=
    ⟨ps, r, qs, rfl, rfl, rfl, by rw [DelayRegion.firstSize_of_ne_zero hr.1], Nat.add_lt_add_left hr.first_lt _⟩
  have hright := (h (fun _ => 0) 1 0 0 _ (by decide) (boundary_second hr)).1 _ _ hin
  rw [delayStates, if_pos requiresStateBytes_region] at hright
  refine Bool.false_ne_true ((getInterruptDelayRange_unseen fun k hk hlt => ?_).symm.trans (congrArg Prod.fst hright))
  obtain ⟨d, rfl⟩ := Nat.exists_eq_add_of_le (Nat.le_trans (Nat.le_add_right _ _) hk)
  have hfirst := hr.1
  rw [getState_initialiseStateBytes hgood _ _ (by omega), blockState_region (by omega), Piece.byteState, if_neg (by omega),
    if_neg (by omega)]
  decide

end Granary.Interrupts
