import Granary.Instructions.Lemmas.Align
import Granary.Interrupts.DelayBuffer

/-!
# Where the delay states are written
-/

namespace Granary.Interrupts

open Instructions

variable {b : StateBytes} {s : InitState} {e : Encoded} {ins : List Encoded} {i j k n : Nat} {state : ByteState}

/-! ## Positions -/

namespace StateBytes

theorem mem_written_setState : j ∈ (b.setState i state).written ↔ j = i / statesPerByte ∨ j ∈ b.written := List.mem_cons

theorem mem_written_fill : j ∈ (b.fill i n state).written ↔
    (∃ k, i ≤ k ∧ k < i + n ∧ j = k / statesPerByte) ∨ j ∈ b.written := by
  induction n generalizing b i with
  | zero => exact ⟨.inr, fun h => h.elim (fun ⟨k, hk⟩ => by omega) id⟩
  | succ n ih =>
    have hstep : b.fill i (n + 1) state = (b.setState i state).fill (i + 1) n state := rfl
    rw [hstep, ih, mem_written_setState]
    constructor
    · rintro (⟨k, hk, hkn, rfl⟩ | rfl | h)
      · exact .inl ⟨k, by omega, by omega, rfl⟩
      · exact .inl ⟨i, Nat.le_refl _, by omega, rfl⟩
      · exact .inr h
    · rintro (⟨k, hk, hkn, rfl⟩ | h)
      · obtain rfl | hlt := Nat.eq_or_lt_of_le hk
        · exact .inr (.inl rfl)
        · exact .inl ⟨k, hlt, by omega, rfl⟩
      · exact .inr (.inr h)

theorem mem_written_clear : j ∈ (b.clear n).written ↔ j < n ∨ j ∈ b.written := by
  induction n with
  | zero => simp [clear]
  | succ n ih =>
    have hstep : b.clear (n + 1) = (b.clear n).write n 0 := by
      rw [clear, List.range_succ, List.foldl_append]
      rfl
    have hmem : j ∈ ((b.clear n).write n 0).written ↔ j = n ∨ j ∈ (b.clear n).written := List.mem_cons
    rw [hstep, hmem, ih, ← or_assoc]
    exact or_congr_left (by omega)

end StateBytes

/-! ## The loop -/

def Encoded.ends (e : Encoded) : Bool := e.delayEnd && !e.delayBegin

theorem getInstructionState_eq_end : getInstructionState e state = .delayEnd ↔ e.ends = true := by
  obtain ⟨size, first, last⟩ := e
  cases first <;> cases last <;> cases state <;> simp [getInstructionState, Encoded.ends]

def wildByte : Nat := (2 ^ 32 - 1) / statesPerByte

namespace InitState

variable {t : InitState}

@[simp] theorem byteOffset_clearSingle : t.clearSingle.byteOffset = t.byteOffset := by
  unfold clearSingle
  split <;> rfl

@[simp] theorem byteOffset_count : (s.count state n).byteOffset = s.byteOffset := by
  unfold count
  split
  · rfl
  · split <;> rfl

@[simp] theorem bytes_count : (s.count state n).bytes = s.bytes := by
  unfold count
  split
  · rfl
  · split <;> rfl

theorem byteOffset_step : (s.step e).byteOffset = s.byteOffset + e.size := by simp [step, advance, store]

theorem mem_written_clearSingle (h : j ∈ t.clearSingle.bytes.written) :
    j ∈ t.bytes.written ∨ ∃ k < t.byteOffset, j = k / statesPerByte := by
  unfold clearSingle at h
  split at h
  · obtain ⟨k, _, hk, rfl⟩ | h := StateBytes.mem_written_fill.mp h
    · exact .inr ⟨k, by omega, rfl⟩
    · exact .inl h
  · exact .inl h

theorem written_clearSingle_of_mem (h : j ∈ t.bytes.written) : j ∈ t.clearSingle.bytes.written := by
  unfold clearSingle
  split
  · exact StateBytes.mem_written_fill.mpr (.inr h)
  · exact h

theorem mem_written_store (h : j ∈ (t.store state n).bytes.written) :
    j ∈ t.bytes.written ∨ (∃ k ≤ t.byteOffset + n, j = k / statesPerByte) ∨
      (state = .delayEnd ∧ t.byteOffset + n = 0 ∧ j = wildByte) := by
  have hfill : ∀ st, j ∈ (t.bytes.fill t.byteOffset n st).written →
      j ∈ t.bytes.written ∨ (∃ k ≤ t.byteOffset + n, j = k / statesPerByte) ∨
        (state = .delayEnd ∧ t.byteOffset + n = 0 ∧ j = wildByte) := by
    intro st h
    obtain ⟨k, _, hk, rfl⟩ | h := StateBytes.mem_written_fill.mp h
    · exact .inr (.inl ⟨k, by omega, rfl⟩)
    · exact .inl h
  cases state with
  | native => exact hfill _ h
  | delayCont => exact hfill _ h
  | delayBegin =>
    obtain rfl | h := StateBytes.mem_written_setState.mp h
    · exact .inr (.inl ⟨t.byteOffset, by omega, rfl⟩)
    · exact hfill _ h
  | delayEnd =>
    obtain rfl | h := StateBytes.mem_written_setState.mp h
    · unfold unsignedPred
      split
      · next hzero => exact .inr (.inr ⟨rfl, hzero, rfl⟩)
      · exact .inr (.inl ⟨_, by omega, rfl⟩)
    · exact hfill _ h

theorem written_store_of_mem (h : j ∈ t.bytes.written) : j ∈ (t.store state n).bytes.written := by
  have hfill : ∀ st, j ∈ (t.bytes.fill t.byteOffset n st).written := fun st => StateBytes.mem_written_fill.mpr (.inr h)
  cases state with
  | native => exact hfill _
  | delayCont => exact hfill _
  | delayBegin | delayEnd => exact StateBytes.mem_written_setState.mpr (.inr (hfill _))

theorem mem_written_step (h : j ∈ (s.step e).bytes.written) :
    j ∈ s.bytes.written ∨ (∃ k ≤ s.byteOffset + e.size, j = k / statesPerByte) ∨
      (e.ends = true ∧ s.byteOffset + e.size = 0 ∧ j = wildByte) := by
  obtain h | ⟨k, hk, rfl⟩ | ⟨hend, hzero, rfl⟩ := mem_written_store h
  · obtain h | ⟨k, hk, rfl⟩ := mem_written_clearSingle h
    · rw [bytes_count] at h
      exact .inl h
    · rw [byteOffset_count] at hk
      exact .inr (.inl ⟨k, by omega, rfl⟩)
  · rw [byteOffset_clearSingle, byteOffset_count] at hk
    exact .inr (.inl ⟨k, hk, rfl⟩)
  · rw [byteOffset_clearSingle, byteOffset_count] at hzero
    exact .inr (.inr ⟨getInstructionState_eq_end.mp hend, hzero, rfl⟩)

theorem written_step_of_mem (h : j ∈ s.bytes.written) : j ∈ (s.step e).bytes.written := by
  refine written_store_of_mem (written_clearSingle_of_mem ?_)
  rwa [bytes_count]

theorem wildByte_mem_step (hend : e.ends = true) (hzero : s.byteOffset + e.size = 0) :
    wildByte ∈ (s.step e).bytes.written := by
  have hstate : getInstructionState e s.prevState = .delayEnd := getInstructionState_eq_end.mpr hend
  simp only [step, hstate, advance, store, byteOffset_clearSingle, byteOffset_count, hzero]
  exact List.mem_cons_self

theorem written_run_of_mem (ins : List Encoded) (h : j ∈ s.bytes.written) : j ∈ (s.run ins).bytes.written := by
  induction ins generalizing s with
  | nil => exact h
  | cons e ins ih => exact ih (written_step_of_mem h)

end InitState

def endsEmpty : List Encoded → Bool
  | [] => false
  | e :: ins => e.size == 0 && (e.ends || endsEmpty ins)

namespace InitState

theorem mem_written_run (h : j ∈ (s.run ins).bytes.written) :
    j ∈ s.bytes.written ∨ (∃ k ≤ s.byteOffset + (ins.map Encoded.size).sum, j = k / statesPerByte) ∨
      (s.byteOffset = 0 ∧ endsEmpty ins = true ∧ j = wildByte) := by
  induction ins generalizing s with
  | nil => exact .inl h
  | cons e ins ih =>
    have hsum : ((e :: ins).map Encoded.size).sum = e.size + (ins.map Encoded.size).sum := rfl
    obtain h | ⟨k, hk, rfl⟩ | ⟨hzero, hends, rfl⟩ := ih h
    · obtain h | ⟨k, hk, rfl⟩ | ⟨hends, hzero, rfl⟩ := mem_written_step h
      · exact .inl h
      · exact .inr (.inl ⟨k, by omega, rfl⟩)
      · refine .inr (.inr ⟨by omega, ?_, rfl⟩)
        have hsize : e.size = 0 := by omega
        simp [endsEmpty, hsize, hends]
    · rw [byteOffset_step] at hk
      exact .inr (.inl ⟨k, by omega, rfl⟩)
    · rw [byteOffset_step] at hzero
      refine .inr (.inr ⟨by omega, ?_, rfl⟩)
      have hsize : e.size = 0 := by omega
      simp [endsEmpty, hsize, hends]

theorem wildByte_mem_run (hzero : s.byteOffset = 0) (hends : endsEmpty ins = true) :
    wildByte ∈ (s.run ins).bytes.written := by
  induction ins generalizing s with
  | nil => cases hends
  | cons e ins ih =>
    simp only [endsEmpty, Bool.and_eq_true, beq_iff_eq, Bool.or_eq_true] at hends
    obtain ⟨hsize, hend | hends⟩ := hends
    · have hmem : wildByte ∈ (s.step e).bytes.written := wildByte_mem_step hend (by omega)
      exact written_run_of_mem ins hmem
    · exact ih (by rw [byteOffset_step]; omega) hends

end InitState

/-! ## One block -/

theorem numStateBytes_le_iff {size slice : Nat} (h : (size + 7) / statesPerByte ≤ slice) :
    numStateBytes ((size + 7) / statesPerByte) ≤ slice ↔ 8 ≤ slice := by
  have hdef : ∀ n, numStateBytes n = (n * 2 + if n * 2 % 64 = 0 then 0 else 64 - n * 2 % 64) / 8 := fun _ => rfl
  have hpos : 1 ≤ (size + 7) / statesPerByte := by
    simp only [statesPerByte]
    omega
  rw [hdef]
  split <;> omega

theorem written_lt_iff {size slice : Nat} (hsize : (ins.map Encoded.size).sum = size)
    (hslice : (size + 7) / statesPerByte ≤ slice) (hfits : slice ≤ wildByte) (byte : Nat → BitVec 8) :
    (∀ j ∈ (initialiseStateBytes ins ⟨byte, []⟩ ((size + 7) / statesPerByte)).written, j < slice) ↔
      8 ≤ slice ∧ endsEmpty ins = false := by
  rw [← numStateBytes_le_iff hslice]
  constructor
  · intro h
    constructor
    · by_contra hlt
      refine absurd (h slice (InitState.written_run_of_mem ins ?_)) (Nat.lt_irrefl _)
      exact StateBytes.mem_written_clear.mpr (.inl (by omega))
    · by_contra hends
      exact absurd (h _ (InitState.wildByte_mem_run rfl (by simpa using hends))) (Nat.not_lt.mpr hfits)
  · rintro ⟨hclear, hends⟩ j hj
    obtain hj | ⟨k, hk, rfl⟩ | ⟨-, hbad, -⟩ := InitState.mem_written_run hj
    · obtain hj | hj := StateBytes.mem_written_clear.mp hj
      · omega
      · cases hj
    · have hzero : (InitState.start (StateBytes.clear ⟨byte, []⟩
        (numStateBytes ((size + 7) / statesPerByte)))).byteOffset = 0 := rfl
      simp only [statesPerByte] at *
      omega
    · rw [hends] at hbad
      cases hbad

/-! ## Alignment -/

section Align

variable {x : Ins DelayFlags} {ls : List BlockIns} {items rest : List (Item DelayFlags)} {currAlign : Nat}

theorem endsEmpty_of_nops (hall : ∀ y ∈ items, y.isNop ∨ ∃ i', y = .ins i' ∧ i'.encodedSize ≠ 0)
    (hins : ∃ y ∈ items, ¬ y.isNop) : endsEmpty ((items ++ rest).map encodedItem) = false := by
  induction items with
  | nil => exact absurd hins (by simp)
  | cons y items ih =>
    rw [List.cons_append, List.map_cons, endsEmpty]
    obtain hnop | ⟨i', rfl, hsize⟩ := hall y List.mem_cons_self
    · have hends : (encodedItem y).ends = false := by cases y <;> first | rfl | cases hnop
      have hrest := ih (fun z hz => hall z (List.mem_cons_of_mem _ hz)) (by
        obtain ⟨z, hz, hzn⟩ := hins
        obtain rfl | hz := List.mem_cons.mp hz
        · exact absurd hnop hzn
        · exact ⟨z, hz, hzn⟩)
      rw [hends, hrest, Bool.or_false, Bool.and_false]
    · have hsize' : (encodedItem (.ins i')).size ≠ 0 := hsize
      simp [hsize']

theorem endsEmpty_alignIns (hspec : AlignSpec [x] currAlign items n) (hnot : ¬x.patchable → items = [.ins x.strip]) :
    endsEmpty ((items ++ rest).map encodedItem) =
      (x.size == 0 && ((x.body.delayEnd && !x.body.delayBegin) || endsEmpty (rest.map encodedItem))) := by
  by_cases hp : x.patchable
  · have hsize : x.size ≠ 0 := by
      rw [Ins.size_of_patchable hp, rel32OffsetSize]
      omega
    have hall : ∀ y ∈ items, y.isNop ∨ ∃ i', y = .ins i' ∧ i'.encodedSize ≠ 0 := by
      intro y hy
      obtain horig | hnop := hspec.nops y hy
      · cases y with
        | ins i' =>
          refine .inr ⟨i', rfl, ?_⟩
          have hmem : i'.stripHints ∈ items.filterMap Item.original? := List.mem_filterMap.mpr ⟨_, hy, rfl⟩
          rw [hspec.same, List.map_singleton, List.mem_singleton] at hmem
          have hi : i'.stripHints.size = x.stripHints.size := by rw [hmem]
          change i'.size = x.size at hi
          have := i'.size_le_encodedSize
          omega
        | nop | jmpShort | label => cases horig
      · exact .inl hnop
    have hins : ∃ y ∈ items, ¬ y.isNop := by
      have hmem : x.stripHints ∈ items.filterMap Item.original? := by
        rw [hspec.same]
        exact List.mem_singleton_self _
      obtain ⟨y, hy, horig⟩ := List.mem_filterMap.mp hmem
      refine ⟨y, hy, fun hnop => ?_⟩
      cases y <;> cases hnop
      cases horig
    rw [endsEmpty_of_nops hall hins]
    simp [hsize]
  · have hbody : x.strip.body = x.body := by
      obtain h | h := x.strip_cases <;> rw [h]
      rfl
    have hitem : encodedItem (.ins x.strip) = ⟨x.size, x.body.delayBegin, x.body.delayEnd⟩ := by
      rw [encodedItem, Ins.encodedSize_strip, hbody]
    rw [hnot hp, List.singleton_append, List.map_cons, endsEmpty, hitem]
    rfl

theorem alignLoop_items (done : List (Item DelayFlags)) (currAlign size : Nat) (h : done ≠ [] ∨ FirstInLine ls currAlign) :
    ∃ items, alignLoop done currAlign size ls = .ok (done ++ items, size + totalSize items) ∧
      totalSize items ≤ estimateMaxSize ls ∧ endsEmpty (items.map encodedItem) = endsAtStart ls := by
  induction ls generalizing done currAlign size with
  | nil => exact ⟨[], by rw [List.append_nil]; rfl, Nat.le_refl _, rfl⟩
  | cons x ls ih =>
    have hx : (!done.isEmpty) ∨ (x.patchable → InLine (currAlign + x.opcodeSize)) :=
      h.imp (fun hne => by simpa using hne) fun hfirst => hfirst x rfl
    obtain ⟨items, n, hins, hspec⟩ := alignIns_spec hx
    have hne : items ≠ [] := fun he => by simpa [he] using hspec.same
    obtain ⟨items', hloop, hle, hends⟩ := ih (done ++ items) (currAlign + n) (size + n)
      (.inl (List.append_ne_nil_of_right_ne_nil done hne))
    refine ⟨items ++ items', ?_, ?_, ?_⟩
    · rw [alignLoop_cons hins, hloop, List.append_assoc, totalSize_append, hspec.size_eq, Nat.add_assoc]
    · have hone := hspec.size_le
      rw [hspec.size_eq] at hone
      have hsum : estimateMaxSize (x :: ls) = estimateMaxSize [x] + estimateMaxSize ls := by simp [estimateMaxSize]
      rw [totalSize_append, hsum]
      omega
    · rw [endsEmpty_alignIns hspec, hends]
      · rfl
      · intro hp
        rw [alignIns_not_patchable hp] at hins
        cases hins
        rfl

theorem firstInLine_label : FirstInLine (labelIns :: ls) currAlign := by
  intro i hi hp
  cases hi
  cases hp

theorem estimateMaxSize_cons_label (b : List BlockIns) : estimateMaxSize (labelIns :: b) = estimateMaxSize b := by
  have hsize : labelIns.encodedSize = 0 := rfl
  have hpatch : labelIns.patchable = false := rfl
  simp [estimateMaxSize, hsize, hpatch]

theorem estimateMaxSize_labelled (b : List BlockIns) : estimateMaxSize (labelled b) = estimateMaxSize b := by
  have hsize : labelIns.encodedSize = 0 := rfl
  have hpatch : labelIns.patchable = false := rfl
  simp [labelled, estimateMaxSize, hsize, hpatch]

structure Laid (b : List BlockIns) (items : List (Item DelayFlags)) : Prop where
  size_le : totalSize items ≤ estimateMaxSize b
  ends : endsEmpty (items.map encodedItem) = endsAtStart b

theorem alignLoop_label (done : List (Item DelayFlags)) (currAlign size : Nat) :
    alignLoop done currAlign size [labelIns] = .ok (done ++ [.ins labelIns], size) := by
  rw [alignLoop_cons (alignIns_not_patchable Bool.false_ne_true)]
  rfl

theorem alignBlocks_spec (bs : List (List BlockIns)) (done : List (Item DelayFlags)) (currAlign size : Nat) :
    ∃ out size', alignBlocks done currAlign size bs = .ok out ∧ List.Forall₂ Laid bs out ∧
      alignLoop done currAlign size (bs.flatMap labelled) =
        .ok (done ++ out.flatMap fun items => items ++ [.ins labelIns], size') := by
  induction bs generalizing done currAlign size with
  | nil => exact ⟨[], size, rfl, .nil, congrArg (fun l => Except.ok (l, size)) (List.append_nil done).symm⟩
  | cons b bs ih =>
    obtain ⟨items, hitems, hle, hends⟩ := alignLoop_items done currAlign size (.inr firstInLine_label)
    obtain ⟨out, size', hblocks, hlaid, hloop⟩ :=
      ih (done ++ items ++ [.ins labelIns]) (currAlign + totalSize items) (size + totalSize items)
    have hoff : currAlign + (size + totalSize items - size) = currAlign + totalSize items := by omega
    have hlabel := alignLoop_label (done ++ items) (currAlign + totalSize items) (size + totalSize items)
    refine ⟨items :: out, size', ?_, .cons ⟨?_, ?_⟩ hlaid, ?_⟩
    · rw [alignBlocks, hitems]
      simp only [bind, Except.bind, hoff, hlabel, hblocks, pure, Except.pure, List.drop_left]
    · rwa [estimateMaxSize_cons_label] at hle
    · rw [hends]
      rfl
    · have hsplit : (b :: bs).flatMap labelled = (labelIns :: b) ++ ([labelIns] ++ bs.flatMap labelled) := by
        simp [labelled]
      rw [hsplit, (alignLoop_append hitems).2, hoff, (alignLoop_append hlabel).2, Nat.sub_self, Nat.add_zero, hloop]
      simp

end Align

/-! ## Slices -/

theorem mem_slices_le {bs : List (List BlockIns)} {offset : Nat} {a : Nat × Nat} (ha : a ∈ slices offset bs) :
    offset ≤ a.1 ∧ a.1 + a.2 ≤ offset + traceNumStateBytes bs := by
  induction bs generalizing offset with
  | nil => cases ha
  | cons b bs ih =>
    have hsum : traceNumStateBytes (b :: bs) = sliceSize b + traceNumStateBytes bs := rfl
    obtain rfl | ha := List.mem_cons.mp ha
    · exact ⟨Nat.le_refl _, by simp only; omega⟩
    · obtain ⟨hlo, hhi⟩ := ih ha
      omega

theorem slices_pairwise (bs : List (List BlockIns)) (offset : Nat) :
    (slices offset bs).Pairwise fun a b => a.1 + a.2 ≤ b.1 := by
  induction bs generalizing offset with
  | nil => exact .nil
  | cons b bs ih => exact .cons (fun a ha => (mem_slices_le ha).1) (ih _)

/-! ## All blocks -/

theorem sum_encodedItem : ((items.map encodedItem).map Encoded.size).sum = totalSize items := by
  have hsize : ∀ x : Item DelayFlags, (encodedItem x).size = x.size := fun x => by cases x <;> rfl
  simp [totalSize, Function.comp_def, hsize]

theorem Laid.written_iff {b : List BlockIns} {items : List (Item DelayFlags)} (h : Laid b items)
    (hneeds : needsStates b) (hfits : estimateMaxSize b + 7 < 2 ^ 32) (byte : Nat → BitVec 8) :
    (∀ j ∈ writtenBytes items byte, j < sliceSize b) ↔ 25 ≤ estimateMaxSize b ∧ endsAtStart b = false := by
  have hslice : sliceSize b = (estimateMaxSize b + 7) / statesPerByte := by
    rw [sliceSize, if_pos hneeds, estimateMaxSize_labelled]
  have hle := h.size_le
  have hwild : wildByte = 2 ^ 30 - 1 := rfl
  rw [writtenBytes, written_lt_iff (sum_encodedItem) ?_ ?_ byte, h.ends, hslice]
  · simp only [statesPerByte]
    exact and_congr_left' (by omega)
  · rw [hslice]
    exact Nat.div_le_div_right (by omega)
  · rw [hslice, hwild]
    simp only [statesPerByte]
    omega

theorem Laid.covered {b : List BlockIns} {items : List (Item DelayFlags)} (h : Laid b items) (hneeds : needsStates b)
    (hk : k < totalSize items) : k / statesPerByte < sliceSize b := by
  have hle := h.size_le
  rw [sliceSize, if_pos hneeds, estimateMaxSize_labelled]
  simp only [statesPerByte]
  omega

end Granary.Interrupts
