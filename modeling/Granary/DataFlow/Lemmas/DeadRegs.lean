import Granary.DataFlow.DeadRegs

/-!
# Lemmas about live registers

A register is live at the end of a block exactly if it is live at the start of a successor, unless all are assumed to be live.
-/

namespace Granary.DataFlow

open RoundRobin List

namespace Within

variable {a b c : Mask}

theorem toNat_le (h : Within a b) : a.toNat ≤ b.toNat := by
  have hand : a &&& b = a := by
    ext r hr
    have := h r
    simp only [BitVec.getLsbD_eq_getElem hr] at this
    cases ha : a[r] <;> simp_all
  rw [← hand, BitVec.toNat_and]
  exact Nat.and_le_right

theorem toNat_lt (h : Within a b) (hne : a ≠ b) : a.toNat < b.toNat :=
  Nat.lt_of_le_of_ne h.toNat_le fun he => hne (BitVec.eq_of_toNat_eq he)

theorem allLive : Within a allLive := by
  intro r hr
  rw [DataFlow.allLive, BitVec.getLsbD_allOnes, decide_eq_true_eq]
  exact BitVec.lt_of_getLsbD hr

end Within

section Blocks

variable {β : Type} {attrs : β → BasicBlock} {P : DataFlowProblem β} {b : β} {r : Nat}

theorem process_getLsbD (x : Mask) (hr : r < 16) :
    (process attrs b x).getLsbD r =
      !(if (attrs b).usedRegs.getLsbD r then (attrs b).entryRegs.getLsbD r else x.getLsbD r) := by
  simp only [process, BitVec.getLsbD_not, BitVec.getLsbD_or, BitVec.getLsbD_and, hr, decide_true, Bool.true_and]
  cases (attrs b).usedRegs.getLsbD r <;> simp

theorem foldl_meetTwoDead_getLsbD (dead : Mask) (rest : List Mask) :
    (rest.foldl meetTwoDead dead).getLsbD r = true ↔ ∀ d ∈ dead :: rest, d.getLsbD r = true := by
  induction rest generalizing dead with
  | nil => simp
  | cons d rest ih =>
    rw [List.foldl_cons, ih]
    simp [meetTwoDead, and_assoc]

theorem forceLive_getLsbD (hr : r < 16) : forceLive.getLsbD r = true ↔ r = 4 := by
  have h : ∀ r < 16, forceLive.getLsbD r = true ↔ r = 4 := by decide
  exact h r hr

def Unknown (attrs : β → BasicBlock) (b : β) (count : Nat) : Prop :=
  (attrs b).hasOutgoingIndirectJmp ∨ ¬isSame count (attrs b).numOutgoingJumps

theorem meet_getLsbD_iff {old : Mask} {incoming : List Mask} (hne : incoming ≠ []) (hr : r < 16) :
    (meet attrs b old incoming).getLsbD r = true ↔
      Unknown attrs b incoming.length ∨ r = 4 ∨ ∃ d ∈ incoming, d.getLsbD r = false := by
  obtain ⟨dead, rest, rfl⟩ := List.exists_cons_of_ne_nil hne
  by_cases hunknown : Unknown attrs b (dead :: rest).length
  · rw [meet, if_pos (show _ ∨ _ from hunknown), allLive, BitVec.getLsbD_allOnes, decide_eq_true hr]
    exact iff_of_true rfl (.inl hunknown)
  · have hdead := foldl_meetTwoDead_getLsbD (r := r) dead rest
    rw [meet, if_neg (show ¬(_ ∨ _) from hunknown), BitVec.getLsbD_or, Bool.or_eq_true, forceLive_getLsbD hr,
      BitVec.getLsbD_and, BitVec.getLsbD_not, allLive, BitVec.getLsbD_allOnes, decide_eq_true hr]
    simp only [Bool.true_and, Bool.not_eq_true', ← Bool.not_eq_true, hdead, hunknown, false_or, not_forall, exists_prop]

theorem next_getLsbD_iff (hb : P.edges b ≠ []) (live : β → Mask) (hr : r < 16) :
    (P.next (process attrs) (meet attrs) live b).getLsbD r = true ↔
      Unknown attrs b (P.edges b).length ∨ r = 4 ∨ ∃ c ∈ P.edges b,
        (if (attrs c).usedRegs.getLsbD r then (attrs c).entryRegs.getLsbD r else (live c).getLsbD r) = true := by
  rw [DataFlowProblem.next, meet_getLsbD_iff (map_eq_nil_iff.not.mpr hb) hr, length_map]
  simp only [mem_map, exists_exists_and_eq_and, process_getLsbD _ hr, Bool.not_eq_false']

theorem edges_ne_nil (hb : b ∈ P.keys) : P.edges b ≠ [] := by
  have h := (mem_filter.mp hb).2
  exact of_decide_eq_true h

theorem mem_keys (hb : P.edges b ≠ []) : b ∈ P.keys := by
  refine mem_filter.mpr ⟨P.cfg.mem_sources b fun hnil => hb ?_, decide_eq_true hb⟩
  rw [DataFlowProblem.edges, hnil, filter_nil, ite_self]

theorem next_mono {live live' : β → Mask} (h : ∀ b, Within (live b) (live' b)) (b : β) :
    Within (P.next (process attrs) (meet attrs) live b) (P.next (process attrs) (meet attrs) live' b) := by
  intro r hlive
  have hr := BitVec.lt_of_getLsbD hlive
  by_cases hb : P.edges b = []
  · simpa only [DataFlowProblem.next, hb, map_nil, meet] using hlive
  · rw [next_getLsbD_iff hb _ hr] at hlive ⊢
    refine hlive.imp_right (Or.imp_right ?_)
    rintro ⟨c, hc, hlive⟩
    refine ⟨c, hc, ?_⟩
    split at hlive
    · next hused => rwa [if_pos hused]
    · next hused =>
        rw [if_neg hused]
        exact h c r hlive

theorem descends : Descends (P.next (process attrs) (meet attrs)) check Within BitVec.toNat where
  refl := fun _ _ => id
  trans := fun hab hbc r h => hbc r (hab r h)
  mono := next_mono
  check := fun h => decide_eq_true h.toNat_le
  rank := Within.toNat_lt

theorem initial_of_mem_keys (hexit : ∀ b, (attrs b).isFunctionExit → P.cfg.intraSuccessors b = []) (hb : b ∈ P.keys) :
    initial attrs b = allLive := by
  refine if_neg fun he => edges_ne_nil hb ?_
  rw [DataFlowProblem.edges, hexit b he, filter_nil, ite_self]

theorem PathFrom.of_cons {c : β} {path : List β} (h : PathFrom P b (c :: path)) : c ∈ P.edges b ∧ PathFrom P c path :=
  isChain_cons_cons.mp h

theorem live_of_readBeforeWritten {live : β → Mask} (hlive : BlockEquations attrs P live) {path : List β}
    (hpath : PathFrom P b path) (hr : r < 16) (hread : ReadBeforeWritten attrs r path) : (live b).getLsbD r = true := by
  -- along the path: blocks that do not use the register pass its liveness on
  induction path generalizing b with
  | nil => exact hread.elim
  | cons c path ih =>
    obtain ⟨hc, hpath⟩ := hpath.of_cons
    have hb : P.edges b ≠ [] := ne_nil_of_mem hc
    rw [← hlive.equation b (mem_keys hb), next_getLsbD_iff hb live hr]
    refine .inr (.inr ⟨c, hc, ?_⟩)
    rw [ReadBeforeWritten] at hread
    split at hread
    · next hused => rwa [if_pos hused]
    · next hused =>
        rw [if_neg hused]
        exact ih hpath hread

end Blocks

end Granary.DataFlow
