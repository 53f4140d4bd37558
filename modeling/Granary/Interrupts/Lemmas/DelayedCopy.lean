import Granary.Interrupts.DelayedCopy
import Granary.Lib.Stack

/-!
# Copies of delay regions: branches and runs
-/

namespace Granary.Interrupts

open Code

section Copy

variable {ι : Type} {ip pc target n : Nat} {x : RegionIns ι} {y : CopyIns ι} {code pre post : List (RegionIns ι)}
  {ls : List (CopyIns ι)} {i : ι}

/-! ## The decoded region -/

theorem Decoded.le_pc (h : Decoded pc code) : ∀ x ∈ code, pc ≤ x.pc := by
  induction code generalizing pc with
  | nil => simp
  | cons x code ih =>
    obtain ⟨hx, -, hcode⟩ := h
    simp only [List.mem_cons, forall_eq_or_imp]
    exact ⟨Nat.le_of_eq hx.symm, fun y hy => Nat.le_trans (Nat.le_add_right pc x.size) (ih hcode y hy)⟩

theorem Decoded.sorted (h : Decoded pc code) : (code.map RegionIns.pc).Pairwise (· < ·) := by
  induction code generalizing pc with
  | nil => exact .nil
  | cons x code ih =>
    obtain ⟨hx, hsize, hcode⟩ := h
    refine List.pairwise_cons.2 ⟨?_, ih hcode⟩
    simp only [List.mem_map, forall_exists_index, and_imp, forall_apply_eq_imp_iff₂]
    intro y hy
    have := hcode.le_pc y hy
    omega

theorem Region.nodup (r : Region ι) : (r.code.map RegionIns.pc).Nodup := r.decoded.sorted.imp Nat.ne_of_lt

/-! ## The two loops -/

def copyPiece (ip : Nat) (x : RegionIns ι) : List (CopyIns ι) := delayIn ip x.pc ++ mangleDelayedInstruction x

theorem appendDelayed_eq : appendDelayed ip code = (code.flatMap (copyPiece ip), code.countP fun x => x.op.isCti) := by
  induction code with
  | nil => rfl
  | cons x code ih => simp only [appendDelayed, ih, List.flatMap_cons, List.countP_cons, copyPiece]; split <;> simp_all

def CopyIns.redirect (y : CopyIns ι) : CopyIns ι :=
  match y.op with
  | .branch i (.pc target) => { y with op := .branch i (.instr (.part target 0)) }
  | _ => y

def CopyIns.Escapes (y : CopyIns ι) : Prop := ∃ i target, y.op = .branch i (.pc target)

theorem CopyIns.redirect_of_not_escapes (h : ¬ y.Escapes) : y.redirect = y := by
  rw [redirect]
  split
  case h_1 i target hop => exact absurd ⟨i, target, hop⟩ h
  case h_2 => rfl

theorem CopyIns.redirect_of_branch (h : y.op = .branch i (.pc target)) :
    y.redirect = { y with op := .branch i (.instr (.part target 0)) } := by
  rw [redirect, h]

theorem mem_delayIn (hy : y ∈ delayIn ip pc) : ip = pc ∧ y = ⟨.delayIn, none, .label⟩ := by
  rw [delayIn] at hy
  split at hy <;> simp_all

theorem id_of_mem_copyPiece (hy : y ∈ copyPiece ip x) (hpc : y.pc = some target) : x.pc = target ∧ y.id = .part target 0 := by
  obtain hy | hy := List.mem_append.1 hy
  · obtain ⟨-, rfl⟩ := mem_delayIn hy
    cases hpc
  · rw [mangleDelayedInstruction] at hy
    split at hy <;> simp only [List.mem_cons, List.not_mem_nil, or_false] at hy
    case h_3 => obtain rfl | rfl | rfl | rfl | rfl | rfl := hy <;> simp_all
    all_goals
      subst hy
      simp_all

theorem exists_mem_copyPiece : ∃ y ∈ copyPiece ip x, y.pc = some x.pc := by
  have hpiece : ∃ y ∈ mangleDelayedInstruction x, y.pc = some x.pc := by
    rw [mangleDelayedInstruction]
    split <;> exact ⟨_, List.mem_cons_self, rfl⟩
  obtain ⟨y, hy, hpc⟩ := hpiece
  exact ⟨y, List.mem_append_right _ hy, hpc⟩

theorem find_target (htarget : target ∈ code.map RegionIns.pc) :
    ∃ y, (code.flatMap (copyPiece ip)).find? (fun y => y.pc = some target) = some y ∧ y.id = .part target 0 := by
  obtain ⟨x, hx, rfl⟩ := List.mem_map.1 htarget
  obtain ⟨y, hy, hpc⟩ := exists_mem_copyPiece
  cases hfind : (code.flatMap (copyPiece ip)).find? (fun y => y.pc = some x.pc) with
  | none =>
    have hnone := List.find?_eq_none.1 hfind y (List.mem_flatMap.2 ⟨x, hx, hy⟩)
    exact absurd (decide_eq_true hpc) hnone
  | some z =>
    obtain ⟨w, -, hz⟩ := List.mem_flatMap.1 (List.mem_of_find?_eq_some hfind)
    have hzpc := List.find?_some hfind
    exact ⟨z, rfl, (id_of_mem_copyPiece hz (of_decide_eq_true hzpc)).2⟩

theorem mangleCti_eq (htarget : ∀ i target, y.op = .branch i (.pc target) → target ∈ code.map RegionIns.pc) :
    mangleCti (code.flatMap (copyPiece ip)) y = .ok y.redirect := by
  rw [mangleCti]
  split
  case h_1 i target hop =>
    obtain ⟨z, hz, hid⟩ := find_target (htarget i target hop)
    rw [hz, CopyIns.redirect_of_branch hop]
    simp only [hid]
  case h_2 hop =>
    have hnot : ¬ y.Escapes := fun ⟨i, target, h⟩ => hop i target h
    rw [CopyIns.redirect_of_not_escapes hnot]

theorem CopyIns.redirect_of_not_cti (h : y.op.isCti = false) : y.redirect = y := by
  apply redirect_of_not_escapes
  rintro ⟨i, target, hop⟩
  rw [hop] at h
  cases h

theorem redirectCtis_eq (htarget : ∀ y ∈ ls, ∀ i target, y.op = .branch i (.pc target) → target ∈ code.map RegionIns.pc) :
    redirectCtis (code.flatMap (copyPiece ip)) n ls = .ok ((ls.take n).map CopyIns.redirect ++ ls.drop n) := by
  induction ls generalizing n with
  | nil => cases n <;> rfl
  | cons y ls ih =>
    cases n with
    | zero => rfl
    | succ n =>
      rw [redirectCtis, ih fun z hz => htarget z (List.mem_cons_of_mem y hz), List.take_succ_cons, List.map_cons]
      cases hcti : y.op.isCti with
      | true =>
        rw [mangleCti_eq (htarget y List.mem_cons_self)]
        rfl
      | false =>
        rw [CopyIns.redirect_of_not_cti hcti]
        rfl

/-! ## Branches -/

theorem branch_of_mem_copyPiece {t : CopyTarget} (hy : y ∈ copyPiece ip x) (hop : y.op = .branch i t) :
    ∃ target, x.op = .branch i target ∧ y = ⟨.part x.pc 0, x.pc, .branch i (.pc target)⟩ := by
  obtain hy | hy := List.mem_append.1 hy
  · obtain ⟨-, rfl⟩ := mem_delayIn hy
    cases hop
  · rw [mangleDelayedInstruction] at hy
    split at hy <;> simp only [List.mem_cons, List.not_mem_nil, or_false] at hy
    case h_3 => obtain rfl | rfl | rfl | rfl | rfl | rfl := hy <;> cases hop
    case h_4 =>
      subst hy
      cases hx : x.op <;> simp_all [RegionOp.toCopy]
    all_goals
      subst hy
      cases hop

theorem copyPiece_branch (hx : x.op = .branch i target) :
    copyPiece ip x = delayIn ip x.pc ++ [⟨.part x.pc 0, x.pc, .branch i (.pc target)⟩] := by
  simp [copyPiece, mangleDelayedInstruction, hx, RegionOp.toCopy]

theorem Region.Contained.targets {r : Region ι} (h : r.Contained) (ip : Nat) :
    ∀ y ∈ r.code.flatMap (copyPiece ip), ∀ i target, y.op = .branch i (.pc target) → target ∈ r.code.map RegionIns.pc := by
  intro y hy i target hop
  obtain ⟨x, hx, hyx⟩ := List.mem_flatMap.1 hy
  obtain ⟨target', hxop, rfl⟩ := branch_of_mem_copyPiece hyx hop
  cases hop
  exact h x hx i target hxop

theorem emitDelayedInterrupt_eq {r : Region ι} (h : r.Contained) :
    emitDelayedInterrupt ip r.code = .ok
      (((r.code.flatMap (copyPiece ip)).take (r.code.countP fun x => x.op.isCti)).map CopyIns.redirect ++
        (r.code.flatMap (copyPiece ip)).drop (r.code.countP fun x => x.op.isCti)) := by
  rw [emitDelayedInterrupt, appendDelayed_eq]
  exact redirectCtis_eq (h.targets ip)

theorem redirect_branch {t : CopyTarget} (h : y.redirect.op = .branch i t) :
    (∃ target, y.op = .branch i (.pc target) ∧ t = .instr (.part target 0)) ∨ ∃ id, y.op = .branch i t ∧ t = .instr id := by
  rw [CopyIns.redirect] at h
  split at h
  case h_1 j target hop =>
    cases h
    exact .inl ⟨target, hop, rfl⟩
  case h_2 hop =>
    cases t with
    | pc target => exact absurd h (hop i target)
    | instr id => exact .inr ⟨id, h, rfl⟩

theorem CopyIns.redirect_pc : y.redirect.pc = y.pc := by
  rw [redirect]
  split <;> rfl

theorem CopyIns.redirect_id : y.redirect.id = y.id := by
  rw [redirect]
  split <;> rfl

theorem closed_iff :
    Closed code (((code.flatMap (copyPiece ip)).take n).map CopyIns.redirect ++ (code.flatMap (copyPiece ip)).drop n) ↔
      ∀ y ∈ (code.flatMap (copyPiece ip)).drop n, ¬ y.Escapes := by
  constructor
  · rintro hclosed y hy ⟨i, target, hop⟩
    obtain ⟨_, _, _, _, _, h⟩ := hclosed y (List.mem_append_right _ hy) i (.pc target) hop
    cases h
  · intro h y hy i t hop
    obtain hy | hy := List.mem_append.1 hy
    · obtain ⟨z, hz, rfl⟩ := List.mem_map.1 hy
      obtain ⟨x, hx, hzx⟩ := List.mem_flatMap.1 (List.mem_of_mem_take hz)
      obtain ⟨target, hzop, rfl⟩ | ⟨id, hzop, rfl⟩ := redirect_branch hop
      · obtain ⟨target', hxop, rfl⟩ := branch_of_mem_copyPiece hzx hzop
        cases hzop
        exact ⟨x, hx, target, hxop, CopyIns.redirect_pc, rfl⟩
      · obtain ⟨target', -, rfl⟩ := branch_of_mem_copyPiece hzx hzop
        cases hzop
    · obtain ⟨x, -, hyx⟩ := List.mem_flatMap.1 (List.mem_of_mem_drop hy)
      obtain ⟨target, -, rfl⟩ := branch_of_mem_copyPiece hyx hop
      exact absurd ⟨i, target, rfl⟩ (h _ hy)

/-! ## Positions -/

theorem length_copyPiece : (copyPiece ip x).length = (if ip = x.pc then 1 else 0) + x.op.copySize := by
  rw [copyPiece, List.length_append, delayIn, mangleDelayedInstruction]
  cases x.op <;> simp only [RegionOp.copySize] <;> split <;> rfl

theorem length_copyPieces (hsorted : (code.map RegionIns.pc).Pairwise (· < ·)) :
    (code.flatMap (copyPiece ip)).length =
      (code.map fun x => x.op.copySize).sum + if ip ∈ code.map RegionIns.pc then 1 else 0 := by
  induction code with
  | nil => rfl
  | cons x code ih =>
    rw [List.map_cons, List.pairwise_cons] at hsorted
    rw [List.flatMap_cons, List.length_append, length_copyPiece, ih hsorted.2, List.map_cons, List.map_cons, List.sum_cons]
    have hx : ip = x.pc → ip ∉ code.map RegionIns.pc := by
      rintro rfl hmem
      exact Nat.lt_irrefl _ (hsorted.1 _ hmem)
    by_cases hip : ip = x.pc
    · simp [hip, hip ▸ hx hip]
      omega
    · simp [hip]
      omega

theorem length_before (hsorted : ((pre ++ x :: post).map RegionIns.pc).Pairwise (· < ·))
    (hip : ip ∈ (pre ++ x :: post).map RegionIns.pc) :
    (pre.flatMap (copyPiece ip) ++ delayIn ip x.pc).length = itemsBefore ip pre x.pc := by
  rw [List.map_append, List.map_cons] at hsorted hip
  obtain ⟨hpre, hpost, hacross⟩ := List.pairwise_append.1 hsorted
  have hpost := (List.pairwise_cons.1 hpost).1
  rw [List.length_append, length_copyPieces hpre, itemsBefore, delayIn, Nat.add_assoc]
  congr 1
  obtain hmem | rfl | hmem : ip ∈ pre.map RegionIns.pc ∨ ip = x.pc ∨ ip ∈ post.map RegionIns.pc := by simpa using hip
  · have hlt := hacross ip hmem x.pc List.mem_cons_self
    rw [if_pos hmem, if_neg (Nat.ne_of_lt hlt), if_pos (Nat.le_of_lt hlt)]
    rfl
  · have hnot : x.pc ∉ pre.map RegionIns.pc := fun h => Nat.lt_irrefl _ (hacross _ h _ List.mem_cons_self)
    rw [if_neg hnot, if_pos rfl, if_pos (Nat.le_refl _)]
    rfl
  · have hlt := hpost ip hmem
    have hnot : ip ∉ pre.map RegionIns.pc := fun h => Nat.lt_asymm hlt (hacross _ h _ List.mem_cons_self)
    rw [if_neg hnot, if_neg (Nat.ne_of_gt hlt), if_neg (Nat.not_le.2 hlt)]
    rfl

theorem mem_drop_flatMap {α β : Type} {f : α → List β} {l : List α} {n : Nat} {b : β} (h : b ∈ (l.flatMap f).drop n) :
    ∃ pre a post, l = pre ++ a :: post ∧ b ∈ (f a).drop (n - (pre.flatMap f).length) := by
  induction l generalizing n with
  | nil => simp at h
  | cons a l ih =>
    rw [List.flatMap_cons, List.drop_append, List.mem_append] at h
    obtain h | h := h
    · exact ⟨[], a, l, rfl, h⟩
    · obtain ⟨pre, c, post, rfl, hc⟩ := ih h
      refine ⟨a :: pre, c, post, rfl, ?_⟩
      rwa [List.flatMap_cons, List.length_append, Nat.sub_add_eq]

theorem not_escapes_iff {r : Region ι} (hip : ip ∈ r.pcs) :
    (∀ y ∈ (r.code.flatMap (copyPiece ip)).drop n, ¬ y.Escapes) ↔
      ∀ pre x post i target, r.code = pre ++ x :: post → x.op = .branch i target → itemsBefore ip pre x.pc < n := by
  constructor
  · intro h pre x post i target hcode hop
    have hsorted := r.decoded.sorted
    rw [Region.pcs, hcode] at hip
    rw [hcode] at hsorted h
    by_contra hle
    refine h ⟨.part x.pc 0, x.pc, .branch i (.pc target)⟩ ?_ ⟨i, target, rfl⟩
    rw [← length_before hsorted hip] at hle
    rw [List.flatMap_append, List.flatMap_cons, copyPiece_branch hop, List.append_assoc, ← List.append_assoc,
      List.drop_append, Nat.sub_eq_zero_of_le (Nat.not_lt.1 hle)]
    exact List.mem_append_right _ List.mem_cons_self
  · rintro h y hy ⟨i, target, hop⟩
    obtain ⟨pre, x, post, hcode, hyx⟩ := mem_drop_flatMap hy
    obtain ⟨target', hxop, -⟩ := branch_of_mem_copyPiece (List.mem_of_mem_drop hyx) hop
    have hlt := h pre x post i target' hcode hxop
    have hsorted := r.decoded.sorted
    rw [Region.pcs, hcode] at hip
    rw [hcode] at hsorted
    rw [← length_before hsorted hip, List.length_append] at hlt
    rw [copyPiece_branch hxop, List.drop_eq_nil_of_le (by simp only [List.length_append, List.length_singleton]; omega)] at hyx
    cases hyx

end Copy

end Granary.Interrupts
