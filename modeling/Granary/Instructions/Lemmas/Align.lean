import Granary.Instructions.Align

/-!
# Alignment, one instruction at a time
-/

namespace Granary.Instructions

variable {τ : Type} {i : Ins τ} {ls : List (Ins τ)} {xs ys out : List (Item τ)} {addr currAlign size n : Nat} {prev : Bool}
variable {ls' : List (Ins τ)} {out' : List (Item τ)} {size' : Nat}

/-! ## Layout -/

theorem totalSize_append : totalSize (xs ++ ys) = totalSize xs + totalSize ys := by
  simp [totalSize]

theorem aligned_append : Aligned addr (xs ++ ys) ↔ Aligned addr xs ∧ Aligned (addr + totalSize xs) ys := by
  induction xs generalizing addr with
  | nil => simp [Aligned, totalSize]
  | cons x xs ih => simp [Aligned, ih, totalSize, and_assoc, Nat.add_assoc]

theorem aligned_of_nops (hx : ∀ x ∈ xs, x.isNop) : Aligned addr xs := by
  induction xs generalizing addr with
  | nil => trivial
  | cons x xs ih =>
    have hnop := hx x List.mem_cons_self
    refine ⟨fun hp => ?_, ih fun y hy => hx y (List.mem_cons_of_mem _ hy)⟩
    cases x <;> cases hnop
    cases hp

theorem insertNops_isNop (hn : n ≤ 3) : ∀ x ∈ (insertNops n : List (Item τ)), x.isNop := by
  intro x hx
  match n, hn with
  | 0, _ => cases hx
  | 1, _ | 2, _ | 3, _ => rw [List.mem_singleton.mp hx, Item.isNop]

theorem totalSize_insertNops (hn : n ≤ 3) : totalSize (insertNops n : List (Item τ)) = n := by
  match n, hn with
  | 0, _ | 1, _ | 2, _ | 3, _ => rfl

/-! ## Sizes -/

namespace Ins

theorem opcodeSize_eq (i : Ins τ) : i.opcodeSize = 1 ∧ i.unconditional ∨ i.opcodeSize = 2 ∧ ¬i.unconditional := by
  unfold opcodeSize
  split <;> simp_all

theorem encodedSize_stripHints : i.stripHints.encodedSize = i.size := rfl

theorem size_le_encodedSize : i.size ≤ i.encodedSize := by
  unfold encodedSize
  split <;> omega

def strip (i : Ins τ) : Ins τ := if i.opcodeSize = 2 ∧ i.hinted then i.stripHints else i

theorem strip_cases (i : Ins τ) : i.strip = i ∨ i.strip = i.stripHints := by
  unfold strip
  split
  · exact .inr rfl
  · exact .inl rfl

@[simp] theorem strip_patchable : i.strip.patchable = i.patchable := by
  rcases i.strip_cases with h | h <;> rw [h]
  rfl

@[simp] theorem strip_cti : i.strip.cti = i.cti := by
  rcases i.strip_cases with h | h <;> rw [h]
  rfl

@[simp] theorem strip_stripHints : i.strip.stripHints = i.stripHints := by
  rcases i.strip_cases with h | h <;> rw [h]
  rfl

theorem encodedSize_strip : i.strip.encodedSize = i.size := by
  unfold strip
  rcases i.opcodeSize_eq with ⟨hsize, hcond⟩ | ⟨hsize, hcond⟩
  · rw [if_neg (by omega), encodedSize, if_neg (fun h => h.2 hcond)]
  · split
    · exact encodedSize_stripHints
    · next hno => rw [encodedSize, if_neg (fun h => hno ⟨hsize, h.1⟩)]

theorem encodedSize_addHint (hsize : i.opcodeSize = 2) : i.strip.addHint.encodedSize = i.size + 1 := by
  have hcond : ¬i.unconditional := fun hcond => by simp [opcodeSize, hcond] at hsize
  have hcond' : ¬i.strip.addHint.unconditional := by
    rcases i.strip_cases with h | h <;> rw [h] <;> exact hcond
  have hsize' : i.strip.addHint.size = i.size := by
    rcases i.strip_cases with h | h <;> rw [h] <;> rfl
  rw [encodedSize, if_pos ⟨rfl, hcond'⟩, hsize']

theorem size_of_patchable (hp : i.patchable) : i.size = i.opcodeSize + rel32OffsetSize := by
  rw [(i.branch hp).2, opcodeSize]
  split <;> rfl

end Ins

theorem inLine_iff (hn : n = 1 ∨ n = 2) :
    InLine (currAlign + n) ↔ currAlign % cacheLineSize + (n + rel32OffsetSize) ≤ cacheLineSize ∨
      cacheLineSize - currAlign % cacheLineSize ≤ n := by
  unfold InLine cacheLineSize rel32OffsetSize
  omega

/-! ## One instruction -/

theorem alignCheck_bind {β : Type} {site : AlignAssert} {p : Prop} [Decidable p] (hp : p)
    (k : Unit → Except AlignAssert β) : alignCheck site p >>= k = k () := by
  rw [alignCheck, if_pos hp]
  rfl

theorem alignIns_not_patchable (hp : ¬i.patchable) : alignIns prev currAlign i = .ok ([.ins i.strip], i.size) := by
  have hp' : ¬i.strip.patchable := by rwa [Ins.strip_patchable]
  rw [← Ins.encodedSize_strip]
  exact if_pos hp'

def forwardAlign (currAlign : Nat) (i : Ins τ) : Nat := cacheLineSize - currAlign % cacheLineSize - i.opcodeSize

/-- The rest of `alignIns` for an instruction whose target crosses the end of its cache line. -/
def alignForward (prev : Bool) (currAlign : Nat) (i : Ins τ) : Except AlignAssert (List (Item τ) × Nat) := do
  alignCheck .prev prev
  alignCheck .forward (forwardAlign currAlign i < 8)
  let prefixAlign := if i.opcodeSize = 2 then 1 else 0
  return (insertNops (forwardAlign currAlign i - prefixAlign) ++
      [.ins (if prefixAlign = 0 then i.strip else i.strip.addHint)],
    i.size + (forwardAlign currAlign i - prefixAlign + prefixAlign))

theorem alignIns_patchable (hp : i.patchable) :
    alignIns prev currAlign i =
      if currAlign % cacheLineSize + i.size ≤ cacheLineSize then .ok ([.ins i.strip], i.size)
      else if cacheLineSize - currAlign % cacheLineSize ≤ i.opcodeSize then .ok ([.ins i.strip], i.size)
      else alignForward prev currAlign i := by
  have hp' : ¬¬i.strip.patchable := by
    rw [Ins.strip_patchable]
    exact not_not_intro hp
  have hcti : i.strip.cti := by
    rw [Ins.strip_cti]
    exact (i.branch hp).1
  have hsize : i.strip.encodedSize = i.opcodeSize + rel32OffsetSize := by
    rw [Ins.encodedSize_strip, Ins.size_of_patchable hp]
  rw [alignForward, ← Ins.encodedSize_strip]
  exact (if_neg hp').trans ((alignCheck_bind hsize _).trans (alignCheck_bind hcti _))

theorem alignIns_inLine (h : i.patchable → InLine (currAlign + i.opcodeSize)) :
    alignIns prev currAlign i = .ok ([.ins i.strip], i.size) := by
  by_cases hp : i.patchable
  · have hline := (inLine_iff (i.opcodeSize_eq.imp And.left And.left)).mp (h hp)
    rw [← Ins.size_of_patchable hp] at hline
    rw [alignIns_patchable hp]
    split
    · rfl
    · next hno => rw [if_pos (hline.resolve_left hno)]
  · exact alignIns_not_patchable hp

theorem alignIns_crossing (hp : i.patchable) (h : ¬InLine (currAlign + i.opcodeSize)) :
    alignIns prev currAlign i = alignForward prev currAlign i := by
  rw [inLine_iff (i.opcodeSize_eq.imp And.left And.left), not_or, ← Ins.size_of_patchable hp] at h
  rw [alignIns_patchable hp, if_neg h.1, if_neg h.2]

theorem alignIns_first (hp : i.patchable) (h : ¬InLine (currAlign + i.opcodeSize)) :
    alignIns false currAlign i = .error .prev := by
  rw [alignIns_crossing hp h]
  rfl

/-! ## Meeting the specification -/

theorem alignSpec_nil : AlignSpec ([] : List (Ins τ)) currAlign [] 0 where
  aligned := trivial
  size_eq := rfl
  size_le := Nat.le_refl 0
  same := rfl
  nops _ hx := absurd hx List.not_mem_nil

theorem AlignSpec.append (h : AlignSpec ls currAlign out size) (h' : AlignSpec ls' (currAlign + size) out' size') :
    AlignSpec (ls ++ ls') currAlign (out ++ out') (size + size') where
  aligned := aligned_append.mpr ⟨h.aligned, h.size_eq ▸ h'.aligned⟩
  size_eq := by rw [totalSize_append, h.size_eq, h'.size_eq]
  size_le := by
    have hsum : estimateMaxSize (ls ++ ls') = estimateMaxSize ls + estimateMaxSize ls' := by simp [estimateMaxSize]
    rw [hsum]
    exact Nat.add_le_add h.size_le h'.size_le
  same := by rw [List.filterMap_append, List.map_append, h.same, h'.same]
  nops x hx := (List.mem_append.mp hx).elim (h.nops x) (h'.nops x)

theorem alignSpec_singleton {i' : Ins τ} (hn : n ≤ 3) (hsame : i'.stripHints = i.stripHints)
    (hline : i.patchable → InLine (currAlign + (n + i'.encodedSize) - rel32OffsetSize))
    (hle : n + i'.encodedSize ≤ i.encodedSize + if i.patchable then 8 else 0) :
    AlignSpec [i] currAlign (insertNops n ++ [.ins i']) (n + i'.encodedSize) where
  aligned := by
    refine aligned_append.mpr ⟨aligned_of_nops (insertNops_isNop hn), fun hp => ?_, trivial⟩
    have hp' : i.patchable := (congrArg Ins.patchable hsame).symm.trans hp
    rw [totalSize_insertNops hn, Nat.add_assoc]
    exact hline hp'
  size_eq := by
    rw [totalSize_append, totalSize_insertNops hn]
    rfl
  size_le := by simpa [estimateMaxSize] using hle
  same := by
    have hnops : (insertNops n : List (Item τ)).filterMap Item.original? = [] := by
      rw [List.filterMap_eq_nil_iff]
      intro x hx
      have hnop := insertNops_isNop hn x hx
      cases x <;> cases hnop
      rfl
    rw [List.filterMap_append, hnops]
    exact congrArg (fun j => [j]) hsame
  nops x hx := by
    rcases List.mem_append.mp hx with hx | hx
    · exact .inr (insertNops_isNop hn x hx)
    · rw [List.mem_singleton.mp hx]
      exact .inl rfl

theorem alignIns_spec_inLine (h : i.patchable → InLine (currAlign + i.opcodeSize)) :
    AlignSpec [i] currAlign [.ins i.strip] i.size := by
  rw [← Ins.encodedSize_strip, ← Nat.zero_add i.strip.encodedSize]
  refine alignSpec_singleton (Nat.zero_le 3) Ins.strip_stripHints (fun hp => ?_) ?_
  · rw [Ins.encodedSize_strip, Ins.size_of_patchable hp, Nat.zero_add, ← Nat.add_assoc, Nat.add_sub_cancel]
    exact h hp
  · rw [Ins.encodedSize_strip, Nat.zero_add]
    exact Nat.le_add_right_of_le i.size_le_encodedSize

theorem forwardAlign_of_crossing (h : ¬InLine (currAlign + i.opcodeSize)) :
    0 < forwardAlign currAlign i ∧ forwardAlign currAlign i ≤ 3 ∧
      InLine (currAlign + forwardAlign currAlign i + i.opcodeSize) := by
  have hop := i.opcodeSize_eq.imp And.left And.left
  rw [inLine_iff hop] at h
  unfold InLine forwardAlign
  unfold cacheLineSize rel32OffsetSize at *
  omega

theorem alignIns_spec_crossing (hp : i.patchable) (h : ¬InLine (currAlign + i.opcodeSize)) :
    ∃ items inSize, alignIns true currAlign i = .ok (items, inSize) ∧ AlignSpec [i] currAlign items inSize := by
  obtain ⟨hpos, hle, hline⟩ := forwardAlign_of_crossing h
  have hsize := Ins.size_of_patchable hp
  have hmax := i.size_le_encodedSize
  rw [alignIns_crossing hp h, alignForward, alignCheck_bind rfl, alignCheck_bind (by omega)]
  refine ⟨_, _, rfl, ?_⟩
  rcases i.opcodeSize_eq with ⟨hop, -⟩ | ⟨hop, -⟩
  · -- NOPs only
    have hspec : AlignSpec [i] currAlign (insertNops (forwardAlign currAlign i) ++ [.ins i.strip])
        (forwardAlign currAlign i + i.strip.encodedSize) := by
      refine alignSpec_singleton hle Ins.strip_stripHints (fun _ => ?_) ?_
      · rwa [Ins.encodedSize_strip, hsize, ← Nat.add_assoc, ← Nat.add_assoc, Nat.add_sub_cancel]
      · rw [Ins.encodedSize_strip, if_pos hp]
        omega
    rw [Ins.encodedSize_strip, Nat.add_comm] at hspec
    rwa [hop]
  · -- NOPs and a hint
    have hspec : AlignSpec [i] currAlign (insertNops (forwardAlign currAlign i - 1) ++ [.ins i.strip.addHint])
        (forwardAlign currAlign i - 1 + i.strip.addHint.encodedSize) := by
      refine alignSpec_singleton (by omega) ?_ (fun _ => ?_) ?_
      · exact Ins.strip_stripHints
      · have hstart : currAlign + (forwardAlign currAlign i - 1 + (i.size + 1)) - rel32OffsetSize =
            currAlign + forwardAlign currAlign i + i.opcodeSize := by
          unfold rel32OffsetSize at *
          omega
        rwa [Ins.encodedSize_addHint hop, hstart]
      · rw [Ins.encodedSize_addHint hop, if_pos hp]
        omega
    have hsum : forwardAlign currAlign i - 1 + i.strip.addHint.encodedSize =
        i.size + (forwardAlign currAlign i - 1 + 1) := by
      rw [Ins.encodedSize_addHint hop]
      omega
    rw [hsum] at hspec
    rwa [hop]

theorem alignIns_spec (h : prev ∨ (i.patchable → InLine (currAlign + i.opcodeSize))) :
    ∃ items inSize, alignIns prev currAlign i = .ok (items, inSize) ∧ AlignSpec [i] currAlign items inSize := by
  by_cases hline : i.patchable → InLine (currAlign + i.opcodeSize)
  · exact ⟨_, _, alignIns_inLine hline, alignIns_spec_inLine hline⟩
  · rw [h.resolve_right hline]
    rw [Classical.not_imp] at hline
    exact alignIns_spec_crossing hline.1 hline.2

/-! ## The loop -/

theorem alignLoop_spec {ls₀ : List (Ins τ)} (hspec : AlignSpec ls₀ currAlign out size)
    (h : out ≠ [] ∨ FirstInLine ls (currAlign + size)) :
    ∃ out' size', alignLoop out (currAlign + size) size ls = .ok (out', size') ∧
      AlignSpec (ls₀ ++ ls) currAlign out' size' := by
  induction ls generalizing ls₀ out size with
  | nil => exact ⟨out, size, rfl, by rwa [List.append_nil]⟩
  | cons i ls ih =>
    have hi : (!out.isEmpty) ∨ (i.patchable → InLine (currAlign + size + i.opcodeSize)) :=
      h.imp (fun hne => by simpa using hne) fun hfirst => hfirst i rfl
    obtain ⟨items, inSize, hins, hone⟩ := alignIns_spec hi
    have hne : items ≠ [] := fun he => by simpa [he] using hone.same
    obtain ⟨out', size', hloop, hout⟩ := ih (hspec.append hone) (.inl (List.append_ne_nil_of_right_ne_nil _ hne))
    rw [List.append_assoc] at hout
    refine ⟨out', size', ?_, hout⟩
    rw [← Nat.add_assoc] at hloop
    rw [alignLoop, hins]
    exact hloop

theorem alignLoop_cons {items : List (Item τ)} (h : alignIns (!out.isEmpty) currAlign i = .ok (items, n)) :
    alignLoop out currAlign size (i :: ls) = alignLoop (out ++ items) (currAlign + n) (size + n) ls := by
  rw [alignLoop, h]
  rfl

theorem alignLoop_append (h : alignLoop out currAlign size ls = .ok (out', size')) :
    size ≤ size' ∧
      alignLoop out currAlign size (ls ++ ls') = alignLoop out' (currAlign + (size' - size)) size' ls' := by
  induction ls generalizing out currAlign size with
  | nil =>
    cases h
    exact ⟨Nat.le_refl _, by rw [Nat.sub_self]; rfl⟩
  | cons i ls ih =>
    cases hins : alignIns (!out.isEmpty) currAlign i with
    | error e =>
      rw [alignLoop, hins] at h
      cases h
    | ok x =>
      rw [alignLoop_cons hins] at h
      obtain ⟨hle, hrest⟩ := ih h
      refine ⟨by omega, ?_⟩
      rw [List.cons_append, alignLoop_cons hins, hrest]
      congr 1
      omega

theorem align_first {ls : List (Ins τ)} (h : ¬FirstInLine ls currAlign) : align ls currAlign = .error .prev := by
  cases ls with
  | nil => exact absurd (fun _ hi => absurd hi (Option.not_mem_none _)) h
  | cons i ls =>
    by_cases hi : i.patchable → InLine (currAlign + i.opcodeSize)
    · exact absurd (fun j hj => Option.mem_some.mp hj ▸ hi) h
    · rw [Classical.not_imp] at hi
      rw [align, alignLoop]
      exact congrArg (· >>= _) (alignIns_first hi.1 hi.2)

end Granary.Instructions
