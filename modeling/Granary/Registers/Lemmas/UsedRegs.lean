import Granary.Registers.Lemmas.Liveness
import Granary.Registers.UsedRegs
import Mathlib.Algebra.Order.BigOperators.Group.Finset

/-!
# What a search finds

The search goes from block to block. Together the blocks that it sees hold the instructions that it gets to, and it kills
what they seem to write.
-/

namespace Granary.Registers

open Machine Relation Worklist

attribute [local simp] Decoded.targets Graph.visit RegId.wide forceLive

variable {rm used used' : RegisterManager} {q : Reg} {x : Fin 16} {i : Decoded}

/-! ## Killing destinations -/

namespace RegisterManager

theorem kill64_live (hq : q ≠ .rsp) (r : RegId) : (rm.kill64 r).live q = (rm.live q && !r.wide q) := by
  cases r with
  | gpr r w =>
    by_cases hr : q = r
    · subst hr
      cases w <;> simp [kill64, hq]
    · have hr' : r ≠ q := fun h => hr h.symm
      cases w <;> simp [kill64, hq, hr, hr']
  | _ => simp [kill64]

theorem kill64_liveXmm (r : RegId) : (rm.kill64 r).liveXmm = rm.liveXmm := by
  cases r with
  | gpr r w => cases w <;> simp [kill64]
  | _ => rfl

theorem kill64_rsp (h : rm.live .rsp = true) (r : RegId) : (rm.kill64 r).live .rsp = true := by
  cases r with
  | gpr r w => cases w <;> simp [kill64, h]
  | _ => exact h

theorem killOp_live (hq : q ≠ .rsp) (op : Operand) : (rm.killOp op).live q = (rm.live q && !op.kills q) := by
  cases op with
  | reg r =>
    have hwide : (Operand.reg r).overwrites q = r.wide q := by simp [Operand.overwrites]
    rw [killOp, kill_live hq, hwide, Operand.kills]
  | baseDisp base index =>
    rw [killOp, kill64_live hq, kill64_live hq, Operand.kills, Bool.not_or, Bool.and_assoc]
  | other => simp [killOp, Operand.kills]

theorem killOp_liveXmm (op : Operand) : (rm.killOp op).liveXmm x = (rm.liveXmm x && !decide (op = .reg (.xmm x))) := by
  cases op with
  | reg r => simpa [killOp] using kill_liveXmm r
  | baseDisp base index => simp [killOp, kill64_liveXmm]
  | other => simp [killOp]

theorem killOp_rsp (h : rm.live .rsp = true) (op : Operand) : (rm.killOp op).live .rsp = true := by
  cases op with
  | reg r =>
    cases r with
    | null | gpr => exact kill64_rsp h _
    | mmx | xmm | other => exact h
  | baseDisp base index => exact kill64_rsp (kill64_rsp h base) index
  | other => exact h

theorem killDests_live (hq : q ≠ .rsp) : (rm.killDests i).live q = (rm.live q && !i.kills q) := by
  rw [killDests, Decoded.kills]
  induction i.dsts generalizing rm with
  | nil => simp
  | cons op ops ih => rw [List.foldl_cons, ih, killOp_live hq, List.any_cons, Bool.not_or, Bool.and_assoc]

theorem killDests_liveXmm : (rm.killDests i).liveXmm x = (rm.liveXmm x && !i.killsXmm x) := by
  rw [killDests, Decoded.killsXmm]
  induction i.dsts generalizing rm with
  | nil => simp
  | cons op ops ih => rw [List.foldl_cons, ih, killOp_liveXmm, List.any_cons, Bool.not_or, Bool.and_assoc]

theorem killDests_rsp (h : rm.live .rsp = true) : (rm.killDests i).live .rsp = true := by
  rw [killDests]
  induction i.dsts generalizing rm with
  | nil => exact h
  | cons op ops ih => exact ih (killOp_rsp h op)

end RegisterManager

/-! ## Blocks -/

section Block

variable (code : Code) (constraint : TraversalConstraint)

def block : Nat → Nat → List Nat
  | 0, _ => []
  | fuel + 1, bb =>
    bb :: match (code bb).goesOn constraint bb with
      | some q => block fuel q
      | none => []

def blockGraph (fuel : Nat) : Graph Nat RegisterManager SearchExit where
  next bb := (block code constraint fuel bb).flatMap fun pc => (code pc).targets constraint pc
  effect bb used := (block code constraint fuel bb).foldl (fun used pc => used.killDests (code pc)) used
  ends bb :=
    if (block code constraint fuel bb).any fun pc => (code pc).stops constraint then some (.returned .killAll) else none

end Block

variable {code : Code} {constraint : TraversalConstraint} {fuel n bb pc : Nat} {s : UsedRegs}

theorem visitBlock_succ (hbb : bb ≠ 0) :
    visitBlock code constraint (fuel + 1) bb s =
      if (code bb).stops constraint then throw (.returned .killAll)
      else
        let s := ((code bb).targets constraint bb).foldl .add { s with data := s.data.killDests (code bb) }
        match (code bb).goesOn constraint bb with
        | some q => visitBlock code constraint fuel q s
        | none => return s := by
  rw [visitBlock, if_neg hbb]
  cases hflow : (code bb).flow with
  | jmp target => cases target <;> simp [Decoded.stops, Decoded.goesOn, hflow]
  | call target =>
    cases target <;> by_cases hc : constraint = .ignoreCalls <;>
      simp [Decoded.stops, Decoded.goesOn, hflow, hc]
  | _ => simp [Decoded.stops, Decoded.goesOn, hflow]

theorem goesOn_cases {q : Nat} (h : (code pc).goesOn constraint pc = some q) : pc < q ∧ q ∈ (code pc).successors pc := by
  have hlen := (code pc).length_pos
  rw [Decoded.goesOn] at h
  rw [Decoded.successors]
  cases hflow : (code pc).flow with
  | next =>
    rw [hflow] at h
    cases h
    exact ⟨by omega, List.mem_cons_self⟩
  | call target =>
    rw [hflow] at h
    have hq : q = pc + (code pc).length := by
      cases target with
      | none => exact (Option.some.inj (Option.ite_none_right_eq_some.mp h).2).symm
      | some t => exact (Option.some.inj h).symm
    subst hq
    exact ⟨by omega, List.mem_append_right _ List.mem_cons_self⟩
  | _ => simp [hflow] at h

theorem targets_subset {q : Nat} (h : q ∈ (code pc).targets constraint pc) : q ∈ (code pc).successors pc := by
  rw [Decoded.targets] at h
  rw [Decoded.successors]
  cases hflow : (code pc).flow with
  | call target =>
    rw [hflow] at h
    simp only at h
    split at h
    · cases h
    · exact List.mem_append_left _ h
  | jmp | jcc => simpa only [hflow] using h
  | _ => simp [hflow] at h

theorem mem_block (hfuel : fuel ≠ 0) : bb ∈ block code constraint fuel bb := by
  cases fuel with
  | zero => exact absurd rfl hfuel
  | succ fuel => exact List.mem_cons_self

theorem goesOn_of_mem_block (h : pc ∈ block code constraint fuel bb) :
    ReflTransGen (fun a b => (code a).goesOn constraint a = some b) bb pc := by
  induction fuel generalizing bb with
  | zero => cases h
  | succ fuel ih =>
    rw [block, List.mem_cons] at h
    rcases h with rfl | h
    · exact .refl
    · split at h
      · next q hq => exact .head hq (ih h)
      · cases h

namespace FunctionBody

variable {body : FunctionBody}

def top (body : FunctionBody) : Nat := ∑ pc ∈ body.pcs, pc

theorem le_top (h : pc ∈ body.pcs) : pc ≤ body.top :=
  Finset.single_le_sum (f := fun pc => pc) (fun _ _ => Nat.zero_le _) h

theorem ne_zero (h : pc ∈ body.pcs) : pc ≠ 0 := fun he => body.null (he ▸ h)

theorem goesOn_mem {q : Nat} (hpc : pc ∈ body.pcs) (hfuel : body.top - pc < fuel + 1)
    (h : (body.code pc).goesOn constraint pc = some q) : q ∈ body.pcs ∧ body.top - q < fuel := by
  obtain ⟨hlt, hsucc⟩ := goesOn_cases h
  have hq := body.closed pc hpc q hsucc
  have hle := le_top hq
  exact ⟨hq, by omega⟩

theorem block_closed {q : Nat} (hbb : bb ∈ body.pcs) (hfuel : body.top - bb < fuel)
    (hpc : pc ∈ block body.code constraint fuel bb) (h : (body.code pc).goesOn constraint pc = some q) :
    q ∈ block body.code constraint fuel bb := by
  induction fuel generalizing bb with
  | zero => omega
  | succ fuel ih =>
    rw [block, List.mem_cons] at hpc ⊢
    refine .inr ?_
    rcases hpc with rfl | hpc
    · rw [h]
      exact mem_block (Nat.ne_zero_of_lt (goesOn_mem hbb hfuel h).2)
    · split at hpc
      · next r hr =>
          obtain ⟨hrmem, hrfuel⟩ := goesOn_mem hbb hfuel hr
          exact ih hrmem hrfuel hpc
      · cases hpc

theorem visitBlock_eq (hbb : bb ∈ body.pcs) (hfuel : body.top - bb < fuel) (hn : body.top - bb < n) (s : UsedRegs) :
    visitBlock body.code constraint fuel bb s = (blockGraph body.code constraint n).visit bb s := by
  induction fuel generalizing bb n s with
  | zero => omega
  | succ fuel ih =>
    obtain ⟨n, rfl⟩ : ∃ m, n = m + 1 := ⟨n - 1, by omega⟩
    rw [visitBlock_succ (ne_zero hbb)]
    cases hstop : (body.code bb).stops constraint with
    | true => simp [blockGraph, block, hstop]
    | false =>
      rw [if_neg Bool.false_ne_true]
      cases hgo : (body.code bb).goesOn constraint bb with
      | none => simp [blockGraph, block, hstop, hgo]
      | some q =>
        obtain ⟨hq, hqn⟩ := goesOn_mem hbb hn hgo
        refine (ih hq (goesOn_mem hbb hfuel hgo).2 hqn _).trans ?_
        simp [blockGraph, block, hgo, List.any_cons, hstop, List.flatMap_cons, List.foldl_cons, foldl_add, List.append_assoc]

variable (body constraint) in
def blocks : Graph Nat RegisterManager SearchExit := blockGraph body.code constraint (body.top + 1)

theorem reachable_mem (h : body.Reachable pc) : pc ∈ body.pcs := by
  induction h with
  | refl => exact body.entry_mem
  | tail _ hq ih => exact body.closed _ ih _ hq

theorem followed_mem (h : body.Followed constraint pc) : pc ∈ body.pcs := by
  induction h with
  | refl => exact body.entry_mem
  | tail _ hq ih =>
    rcases hq with hq | hq
    · exact body.closed _ ih _ (targets_subset hq)
    · exact body.closed _ ih _ (goesOn_cases hq).2

theorem Followed.goesOn (h : body.Followed constraint bb) (hpc : pc ∈ block body.code constraint fuel bb) :
    body.Followed constraint pc :=
  h.trans (ReflTransGen.mono (fun _ _ hq => .inr hq) _ _ (goesOn_of_mem_block hpc))

theorem followed_of_reach (h : (body.blocks constraint).Reach body.entry bb) : body.Followed constraint bb := by
  induction h with
  | refl => exact .refl
  | tail _ hc ih =>
    obtain ⟨pc, hpc, hc⟩ := List.mem_flatMap.mp hc
    exact (ih.goesOn hpc).tail (.inl hc)

theorem Followed.block (h : body.Followed constraint pc) :
    ∃ bb, (body.blocks constraint).Reach body.entry bb ∧ pc ∈ block body.code constraint (body.top + 1) bb := by
  induction h with
  | refl => exact ⟨body.entry, .refl, mem_block (Nat.succ_ne_zero _)⟩
  | tail _ hq ih =>
    obtain ⟨bb, hreach, hpc⟩ := ih
    rcases hq with hq | hq
    · exact ⟨_, hreach.tail (List.mem_flatMap.mpr ⟨_, hpc, hq⟩), mem_block (Nat.succ_ne_zero _)⟩
    · have hbb : bb ∈ body.pcs := followed_mem (followed_of_reach hreach)
      exact ⟨bb, hreach, block_closed hbb (by omega) hpc hq⟩

/-! ## The registers that are found -/

section Effect

variable {live : RegisterManager → Bool} {kills : Decoded → Bool}

theorem foldl_killDests (hlive : ∀ rm i, live (rm.killDests i) = (live rm && !kills i)) (pcs : List Nat) :
    live (pcs.foldl (fun used pc => used.killDests (code pc)) used) =
      (live used && !pcs.any fun pc => kills (code pc)) := by
  induction pcs generalizing used with
  | nil => simp
  | cons pc pcs ih => rw [List.foldl_cons, ih, hlive, List.any_cons, Bool.not_or, Bool.and_assoc]

theorem foldr_effect (hlive : ∀ rm i, live (rm.killDests i) = (live rm && !kills i)) (hinit : live .reviveAll = true)
    (seen : List Nat) :
    live (seen.foldr (body.blocks constraint).effect .reviveAll) =
      !seen.any fun bb => (block body.code constraint (body.top + 1) bb).any fun pc => kills (body.code pc) := by
  induction seen with
  | nil => simpa using hinit
  | cons bb seen ih =>
    rw [List.foldr_cons, List.any_cons, Bool.not_or, ← ih, Bool.and_comm]
    exact foldl_killDests hlive _

theorem foldr_effect_eq_false (live : RegisterManager → Bool)
    (hlive : ∀ rm i, live (rm.killDests i) = (live rm && !kills i)) (hinit : live .reviveAll = true) {seen : List Nat}
    (hseen : ∀ bb, bb ∈ seen ↔ (body.blocks constraint).Reach body.entry bb) :
    live (seen.foldr (body.blocks constraint).effect .reviveAll) = false ↔
      ∃ pc, body.Followed constraint pc ∧ kills (body.code pc) = true := by
  rw [foldr_effect hlive hinit, Bool.not_eq_false', List.any_eq_true]
  constructor
  · rintro ⟨bb, hbb, hany⟩
    obtain ⟨pc, hpc, hkills⟩ := List.any_eq_true.mp hany
    exact ⟨pc, (followed_of_reach ((hseen bb).mp hbb)).goesOn hpc, hkills⟩
  · rintro ⟨pc, hpc, hkills⟩
    obtain ⟨bb, hreach, hmem⟩ := hpc.block
    exact ⟨bb, (hseen bb).mpr hreach, List.any_eq_true.mpr ⟨pc, hmem, hkills⟩⟩

end Effect

theorem foldr_effect_rsp (seen : List Nat) : (seen.foldr (body.blocks constraint).effect .reviveAll).live .rsp = true := by
  have hblock : ∀ (pcs : List Nat) {used}, used.live .rsp = true →
      (pcs.foldl (fun used pc => RegisterManager.killDests used (body.code pc)) used).live .rsp = true := by
    intro pcs
    induction pcs with
    | nil => exact id
    | cons pc pcs ih => exact fun h => ih (RegisterManager.killDests_rsp h)
  induction seen with
  | nil => rfl
  | cons bb seen ih => exact hblock _ ih

theorem closed_blocks : (body.blocks constraint).Closed body.pcs := by
  intro bb hbb c hc
  obtain ⟨pc, hpc, hc⟩ := List.mem_flatMap.mp hc
  have hpc : pc ∈ body.pcs := by
    have hgo := goesOn_of_mem_block hpc
    clear hpc hc
    induction hgo with
    | refl => exact hbb
    | tail _ h ih => exact body.closed _ ih _ (goesOn_cases h).2
  exact body.closed pc hpc c (targets_subset hc)

theorem ends_eq_none : (body.blocks constraint).ends bb = none ↔
    ∀ pc ∈ block body.code constraint (body.top + 1) bb, (body.code pc).stops constraint = false := by
  simp [blocks, blockGraph]

theorem ends_eq_some {e : SearchExit} (h : (body.blocks constraint).ends bb = some e) :
    e = .returned .killAll ∧
      ∃ pc ∈ block body.code constraint (body.top + 1) bb, (body.code pc).stops constraint = true := by
  obtain ⟨hany, he⟩ := Option.ite_none_right_eq_some.mp h
  exact ⟨(Option.some.inj he).symm, List.any_eq_true.mp hany⟩

theorem finds_of_outcome {r : Except SearchExit RegisterManager}
    (h : (body.blocks constraint).Outcome body.entry .reviveAll r) :
    ∃ used, body.Finds constraint used ∧ (r = .ok used ∨ r = .error (.returned used)) := by
  cases r with
  | error e =>
    obtain ⟨bb, hreach, hends⟩ := h
    obtain ⟨rfl, pc, hpc, hstop⟩ := ends_eq_some hends
    have hgives : body.GivesUp constraint := ⟨pc, (followed_of_reach hreach).goesOn hpc, hstop⟩
    refine ⟨.killAll, ⟨rfl, fun q hq => ?_, fun x => ?_⟩, .inr rfl⟩
    · exact iff_of_true (decide_eq_false hq) (.inl hgives)
    · exact iff_of_true rfl (.inl hgives)
  | ok used =>
    obtain ⟨seen, hseen, hends, rfl⟩ := h
    have hgives : ¬ body.GivesUp constraint := by
      rintro ⟨pc, hpc, hstop⟩
      obtain ⟨bb, hreach, hmem⟩ := hpc.block
      rw [ends_eq_none.mp (hends bb ((hseen bb).mpr hreach)) pc hmem] at hstop
      cases hstop
    refine ⟨_, ⟨foldr_effect_rsp seen, fun q hq => ?_, fun x => ?_⟩, .inl rfl⟩
    · rw [or_iff_right hgives]
      exact foldr_effect_eq_false (·.live q) (fun _ _ => RegisterManager.killDests_live hq) rfl hseen
    · rw [or_iff_right hgives]
      exact foldr_effect_eq_false (·.liveXmm x) (fun _ _ => RegisterManager.killDests_liveXmm) rfl hseen

theorem Finds.unique (h : body.Finds constraint used) (h' : body.Finds constraint used') : used = used' := by
  have hlive : used.live = used'.live := by
    funext q
    by_cases hq : q = .rsp
    · rw [hq, h.rsp, h'.rsp]
    · rw [← Bool.not_inj_iff, Bool.eq_iff_iff, Bool.not_eq_true', Bool.not_eq_true', h.gpr q hq, h'.gpr q hq]
  have hxmm : used.liveXmm = used'.liveXmm := by
    funext x
    rw [← Bool.not_inj_iff, Bool.eq_iff_iff, Bool.not_eq_true', Bool.not_eq_true', h.xmm x, h'.xmm x]
  cases used
  cases used'
  exact congrArg₂ RegisterManager.mk hlive hxmm

theorem exists_finds (body : FunctionBody) (constraint : TraversalConstraint) :
    ∃ used n, (∀ fuel, n ≤ fuel → findUsedRegsInFunc body.code constraint fuel body.entry = some used) ∧
      body.Finds constraint used := by
  obtain ⟨n, hsome⟩ : ∃ n, ∀ fuel, n ≤ fuel →
      ∃ used, findUsedRegsInFunc body.code constraint fuel body.entry = some used ∧ body.Finds constraint used := by
    refine ⟨body.top + 1 + (2 + ∑ bb ∈ body.pcs, ((body.blocks constraint).next bb).length), fun fuel hfuel => ?_⟩
    have hvisit : ∀ bb ∈ body.pcs, ∀ s,
        visitBlock body.code constraint fuel bb s = (body.blocks constraint).visit bb s :=
      fun bb hbb s => visitBlock_eq hbb (by omega) (by omega) s
    obtain ⟨used, hfinds, hr⟩ := finds_of_outcome
      (closed_blocks.loop body.entry_mem .running hvisit (by omega : _ < fuel))
    refine ⟨used, ?_, hfinds⟩
    rw [findUsedRegsInFunc]
    rcases hr with hr | hr <;> rw [hr]
  obtain ⟨used, -, hfinds⟩ := hsome n (Nat.le_refl n)
  refine ⟨used, n, fun fuel hfuel => ?_, hfinds⟩
  obtain ⟨used', hused', hfinds'⟩ := hsome fuel hfuel
  rw [hused', hfinds.unique hfinds']

theorem findsAll_iff_forall (hfinds : body.Finds .visitAllInstructions used) :
    body.FindsAll ↔ ∀ pc, body.Reachable pc → ∀ q, q ≠ .rsp → (body.code pc).writes q = true → used.live q = false := by
  obtain ⟨used', n', hused', hfinds'⟩ := body.exists_finds .visitAllInstructions
  obtain rfl := hfinds.unique hfinds'
  constructor
  · rintro ⟨used'', n, hused, hall⟩
    have heq : some used'' = some used :=
      (hused (max n n') (Nat.le_max_left ..)).symm.trans (hused' _ (Nat.le_max_right ..))
    exact Option.some.inj heq ▸ hall
  · exact fun hall => ⟨used, n', hused', hall⟩

theorem not_findsAll (pc : Nat) (q : Reg) (hpc : body.Reachable pc) (hq : q ≠ .rsp) (hwrites : (body.code pc).writes q = true)
    (hfollowed : ∀ pc', body.Followed .visitAllInstructions pc' →
      (body.code pc').stops .visitAllInstructions = false ∧ (body.code pc').kills q = false) : ¬ body.FindsAll := by
  intro h
  obtain ⟨used, n, -, hfinds⟩ := body.exists_finds .visitAllInstructions
  have hdead : used.live q = false := (findsAll_iff_forall hfinds).mp h pc hpc q hq hwrites
  rcases (hfinds.gpr q hq).mp hdead with ⟨pc', hpc', hpos⟩ | ⟨pc', hpc', hpos⟩
  · exact Bool.false_ne_true ((hfollowed pc' hpc').1.symm.trans hpos)
  · exact Bool.false_ne_true ((hfollowed pc' hpc').2.symm.trans hpos)

end FunctionBody

end Granary.Registers
