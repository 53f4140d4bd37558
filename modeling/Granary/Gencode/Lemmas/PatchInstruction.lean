import Granary.Gencode.PatchInstruction

/-!
# An invariant of concurrent patching

The lock has at most one holder, and only its holder changes what the others rely on: the target goes from null to a value
while the lock is held, and the lock is not free again before it has one.
-/

namespace Granary.Gencode

open Machine
open Function (update update_self update_of_ne)

variable {Cpu : Type} {finds : Word → Word → Prop} {patch : DirectBranchPatchInfo} {s s' : PatchState Cpu}

def PatchState.Knows (finds : Word → Word → Prop) (patch : DirectBranchPatchInfo) (s : PatchState Cpu) :
    PatchPc → Word → Prop
  | .idle, _ => True
  | .load, ret | .exchange, ret | .recheck, ret => ret = patch.indirectCall
  | .failed, ret => ret = patch.indirectCall ∧ (s.translatedTargetAddress = none → s.locked = true)
  | .failedRead, _ | .patchedRelease, _ | .patchedRead, _ => s.translatedTargetAddress ≠ none
  | .find, _ => s.translatedTargetAddress = none
  | .publish v, _ => s.translatedTargetAddress = none ∧ finds patch.targetAddress v
  | .setReturn v, _ => s.translatedTargetAddress = some v
  | .write v, ret | .release v, ret => s.translatedTargetAddress = some v ∧ ret = v
  | .returned, ret => ret = patch.indirectCall ∨ s.translatedTargetAddress = some ret

structure PatchShared (finds : Word → Word → Prop) (patch : DirectBranchPatchInfo) (translated : Option Word)
    (publishes : List Word) (rel32 : BitVec 32) (writes : List (BitVec 32)) : Prop where
  once : publishes = translated.toList
  found : ∀ v, translated = some v → finds patch.targetAddress v
  rel32 : rel32 = patch.rel32 ∨ ∃ v, translated = some v ∧ rel32 = patch.newRel32 v
  writes : ∀ w ∈ writes, ∃ v, translated = some v ∧ w = patch.newRel32 v

structure PatchInv (finds : Word → Word → Prop) (patch : DirectBranchPatchInfo) (s : PatchState Cpu) : Prop where
  knows : ∀ c, s.Knows finds patch (s.pc c) (s.ret c)
  holder : s.locked = true ↔ ∃ c, (s.pc c).Holds
  unique : ∀ c d, (s.pc c).Holds → (s.pc d).Holds → c = d
  shared : PatchShared finds patch s.translatedTargetAddress s.publishes s.rel32 s.writes

theorem patchInv_init (ret : Cpu → Word) : PatchInv finds patch (PatchState.init patch ret) where
  knows _ := trivial
  holder := ⟨nofun, fun ⟨_, h⟩ => h.elim⟩
  unique _ _ h := h.elim
  shared := ⟨rfl, nofun, .inl rfl, nofun⟩

theorem PatchInv.knows_at {c : Cpu} {pc : PatchPc} (h : PatchInv finds patch s) (hc : s.pc c = pc) :
    s.Knows finds patch pc (s.ret c) := hc ▸ h.knows c

/-! ## Steps -/

theorem PatchState.Knows.mono {pc : PatchPc} {ret : Word} (h : s.Knows finds patch pc ret)
    (htarget : s.translatedTargetAddress = none ∨ s'.translatedTargetAddress = s.translatedTargetAddress)
    (hlocked : s'.translatedTargetAddress = none → s.locked = true → s'.locked = true)
    (hholds : pc.Holds → s'.translatedTargetAddress = s.translatedTargetAddress) : s'.Knows finds patch pc ret := by
  have hnone : s'.translatedTargetAddress = none → s.translatedTargetAddress = none := fun hn =>
    htarget.elim id fun he => he ▸ hn
  cases pc with
  | idle => trivial
  | load | exchange | recheck => exact h
  | failed => exact ⟨h.1, fun hn => hlocked hn (h.2 (hnone hn))⟩
  | failedRead | patchedRead | patchedRelease => exact fun hn => h (hnone hn)
  | find | setReturn v => exact (hholds trivial).trans h
  | publish v | write v | release v => exact ⟨(hholds trivial).trans h.1, h.2⟩
  | returned =>
    refine h.imp_right fun hs => ?_
    rcases htarget with hn | he
    · rw [hn] at hs
      cases hs
    · exact he.trans hs

inductive LockStep (s s' : PatchState Cpu) (pc pc' : PatchPc) : Prop where
  | same : s'.locked = s.locked → (pc'.Holds ↔ pc.Holds) → LockStep s s' pc pc'
  | acquired : s.locked = false → s'.locked = true → pc'.Holds → LockStep s s' pc pc'
  | released : pc.Holds → s'.locked = false → ¬ pc'.Holds → s'.translatedTargetAddress ≠ none → LockStep s s' pc pc'

section Steps

variable [DecidableEq Cpu]

structure StepOf (finds : Word → Word → Prop) (patch : DirectBranchPatchInfo) (s s' : PatchState Cpu) (c : Cpu)
    (pc' : PatchPc) : Prop where
  pc : s'.pc = update s.pc c pc'
  ret : ∀ d, d ≠ c → s'.ret d = s.ret d
  knows : s'.Knows finds patch pc' (s'.ret c)
  target : s'.translatedTargetAddress = s.translatedTargetAddress ∨ s.translatedTargetAddress = none ∧ (s.pc c).Holds
  lock : LockStep s s' (s.pc c) pc'
  shared : PatchShared finds patch s'.translatedTargetAddress s'.publishes s'.rel32 s'.writes

theorem PatchInv.stepOf (h : PatchInv finds patch s) {c : Cpu} {pc' : PatchPc} (hs : StepOf finds patch s s' c pc') :
    PatchInv finds patch s' := by
  have hself : s'.pc c = pc' := by rw [hs.pc, update_self]
  have hpc : ∀ d, d ≠ c → s'.pc d = s.pc d := fun d hd => by rw [hs.pc, update_of_ne hd]
  refine ⟨fun d => ?_, ?_, ?_, hs.shared⟩
  · by_cases hd : d = c
    · rw [hd, hself]
      exact hs.knows
    · rw [hpc d hd, hs.ret d hd]
      refine (h.knows d).mono (hs.target.symm.imp_left And.left) (fun hn hl => ?_) fun hholds => ?_
      · cases hs.lock with
        | same hlocked _ => exact hlocked.trans hl
        | acquired _ hlocked _ => exact hlocked
        | released _ _ _ hne => exact absurd hn hne
      · exact hs.target.resolve_right fun hc => hd (h.unique d c hholds hc.2)
  · cases hs.lock with
    | same hlocked hiff =>
      rw [hlocked, h.holder]
      refine exists_congr fun d => ?_
      by_cases hd : d = c
      · rw [hd, hself]
        exact hiff.symm
      · rw [hpc d hd]
    | acquired _ hlocked hholds => exact iff_of_true hlocked ⟨c, by rwa [hself]⟩
    | released hc hlocked hnot _ =>
      refine iff_of_false (by rw [hlocked]; decide) fun ⟨d, hd⟩ => ?_
      by_cases hdc : d = c
      · rw [hdc, hself] at hd
        exact hnot hd
      · rw [hpc d hdc] at hd
        exact hdc (h.unique d c hd hc)
  · -- a CPU that holds the lock now held it before, or has just taken it when nobody held it
    have hholds : ∀ d, (s'.pc d).Holds → (s.pc d).Holds ∨ d = c ∧ s.locked = false := by
      intro d hd
      by_cases hdc : d = c
      · subst hdc
        rw [hself] at hd
        cases hs.lock with
        | same _ hiff => exact .inl (hiff.mp hd)
        | acquired hfree _ _ => exact .inr ⟨rfl, hfree⟩
        | released _ _ hnot _ => exact absurd hd hnot
      · exact .inl (hpc d hdc ▸ hd)
    have hfree : ∀ d, (s.pc d).Holds → s.locked ≠ false := fun d hd => by
      rw [h.holder.mpr ⟨d, hd⟩]
      decide
    intro d e hd he
    rcases hholds d hd with hd | ⟨rfl, hl⟩ <;> rcases hholds e he with he | ⟨rfl, hl'⟩
    · exact h.unique d e hd he
    · exact absurd hl' (hfree d hd)
    · exact absurd hl (hfree e he)
    · rfl

variable {c : Cpu} {pc pc' : PatchPc} {ret : Word}

section

variable (h : PatchInv finds patch s) (hc : s.pc c = pc)

include h hc

theorem stepOf_goto (hknows : s.Knows finds patch pc' (s.ret c))
    (hholds : pc'.Holds ↔ pc.Holds) : StepOf finds patch s (s.goto c pc') c pc' :=
  ⟨rfl, fun _ _ => rfl, hknows, .inl rfl, .same rfl (hc ▸ hholds), h.shared⟩

theorem stepOf_setRet (hknows : s.Knows finds patch pc' ret)
    (hholds : pc'.Holds ↔ pc.Holds) : StepOf finds patch s ((s.goto c pc').setRet c ret) c pc' := by
  have hret : ((s.goto c pc').setRet c ret).ret c = ret := update_self ..
  refine ⟨rfl, fun d hd => update_of_ne hd _ _, ?_, .inl rfl, .same rfl (hc ▸ hholds), h.shared⟩
  rw [hret]
  exact hknows

theorem stepOf_release (hpc : pc.Holds) (hpc' : ¬ pc'.Holds)
    (hne : s.translatedTargetAddress ≠ none) (hknows : { s with locked := false }.Knows finds patch pc' (s.ret c)) :
    StepOf finds patch s { s.goto c pc' with locked := false } c pc' :=
  ⟨rfl, fun _ _ => rfl, hknows, .inl rfl, .released (hc ▸ hpc) rfl hpc' hne, h.shared⟩

end

theorem getD_eq_some {a : Option Word} (h : a ≠ none) : a = some (a.getD 0) := by
  cases a with
  | none => exact absurd rfl h
  | some v => rfl

theorem PatchStep.stepOf (h : PatchInv finds patch s) (hs : PatchStep finds patch s s') :
    ∃ c pc', StepOf finds patch s s' c pc' := by
  cases hs with
  | enter c hc => exact ⟨c, _, stepOf_setRet h hc rfl Iff.rfl⟩
  | loadLocked c hc hl | exchangeLocked c hc hl =>
    have hk := h.knows_at hc
    exact ⟨c, _, stepOf_goto h hc ⟨hk, fun _ => hl⟩ Iff.rfl⟩
  | loadFree c hc hl =>
    have hk := h.knows_at hc
    exact ⟨c, _, stepOf_goto h hc hk Iff.rfl⟩
  | acquire c hc hl =>
    have hk := h.knows_at hc
    exact ⟨c, .recheck, rfl, fun _ _ => rfl, hk, .inl rfl, .acquired hl rfl trivial, h.shared⟩
  | retry c hc hn =>
    have hk := h.knows_at hc
    exact ⟨c, _, stepOf_goto h hc (.inl hk.1) Iff.rfl⟩
  | failedSome c hc hn | recheckSome c hc hn | recheckNone c hc hn => exact ⟨c, _, stepOf_goto h hc hn Iff.rfl⟩
  | failedRead c hc | patchedRead c hc =>
    have hk := h.knows_at hc
    exact ⟨c, _, stepOf_setRet h hc (.inr (getD_eq_some hk)) Iff.rfl⟩
  | patchedRelease c hc =>
    have hk := h.knows_at hc
    exact ⟨c, _, stepOf_release h hc trivial id hk hk⟩
  | find c v hc hfinds =>
    have hk := h.knows_at hc
    exact ⟨c, _, stepOf_goto h hc ⟨hk, hfinds⟩ Iff.rfl⟩
  | publish c v hc =>
    have hk := h.knows_at hc
    obtain ⟨hn, hfinds⟩ := hk
    obtain ⟨honce, _, hrel, hwrites⟩ := h.shared
    refine ⟨c, .setReturn v, rfl, fun _ _ => rfl, rfl, .inr ⟨hn, hc ▸ trivial⟩, .same rfl (hc ▸ Iff.rfl), ?_⟩
    -- nothing was published and nothing was written
    rw [hn] at honce hrel hwrites
    refine ⟨by rw [honce]; rfl, fun w hw => Option.some.inj hw ▸ hfinds, .inl ?_, fun w hw => ?_⟩
    · exact hrel.resolve_right fun ⟨_, hv, _⟩ => nomatch hv
    · obtain ⟨_, hv, _⟩ := hwrites w hw
      cases hv
  | setReturn c v hc =>
    have hk := h.knows_at hc
    exact ⟨c, _, stepOf_setRet h hc ⟨hk, congrArg (·.getD 0) hk⟩ Iff.rfl⟩
  | write c v hc =>
    have hk := h.knows_at hc
    obtain ⟨honce, hfound, _, hwrites⟩ := h.shared
    refine ⟨c, .release v, rfl, fun _ _ => rfl, hk, .inl rfl, .same rfl (hc ▸ Iff.rfl), honce, hfound, .inr ⟨v, hk.1, rfl⟩, ?_⟩
    intro w hw
    rcases List.mem_cons.mp hw with rfl | hw
    · exact ⟨v, hk.1, rfl⟩
    · exact hwrites w hw
  | release c v hc =>
    have hk := h.knows_at hc
    refine ⟨c, _, stepOf_release h hc trivial id (by rw [hk.1]; nofun) (.inr ?_)⟩
    rw [hk.2]
    exact hk.1
  | leave c hc => exact ⟨c, _, stepOf_goto h hc trivial Iff.rfl⟩

theorem PatchReachable.inv (h : PatchReachable finds patch s) : PatchInv finds patch s := by
  induction h with
  | init ret => exact patchInv_init ret
  | step _ hs ih =>
    obtain ⟨c, pc', hstep⟩ := hs.stepOf ih
    exact ih.stepOf hstep

end Steps

/-! ## The branch -/

theorem ctiTarget_newRel32 {target : Word} (h : patch.InReach target) : patch.ctiTarget (patch.newRel32 target) = target := by
  obtain ⟨hlo, hhi⟩ := h
  have hext : (patch.newRel32 target).signExtend 64 = patch.distance target := by
    apply BitVec.eq_of_toInt_eq
    rw [BitVec.toInt_signExtend_of_le (by decide), DirectBranchPatchInfo.newRel32, BitVec.toInt_setWidth]
    rw [BitVec.toInt_eq_toNat_bmod] at hlo hhi ⊢
    rw [Int.bmod_def] at hlo hhi ⊢
    rw [Int.bmod_def]
    omega
  rw [DirectBranchPatchInfo.ctiTarget, hext, DirectBranchPatchInfo.distance]
  bv_omega

theorem PatchInv.unpublished (h : PatchInv finds patch s) {d : Cpu} (hd : (s.pc d).Holds)
    (hn : s.translatedTargetAddress = none) : (s.pc d).Unpublished := by
  cases hpc : s.pc d with
  | recheck | find | publish => trivial
  | patchedRelease => exact absurd hn (h.knows_at hpc)
  | setReturn v => exact nomatch hn.symm.trans (h.knows_at hpc)
  | write v | release v => exact nomatch hn.symm.trans (h.knows_at hpc).1
  | _ =>
    rw [hpc] at hd
    exact hd.elim

/-! ## Returns -/

theorem returned_of_update [DecidableEq Cpu] {c d : Cpu} {pc : PatchPc} (hc : s.pc c ≠ .returned)
    (hc' : update s.pc d pc c = .returned) : c = d ∧ pc = .returned := by
  by_cases hcd : c = d
  · rw [hcd, update_self] at hc'
    exact ⟨hcd, hc'⟩
  · rw [update_of_ne hcd] at hc'
    exact absurd hc' hc

theorem PatchInv.returns [DecidableEq Cpu] (h : PatchInv finds patch s) (hs : PatchStep finds patch s s') {c : Cpu}
    (hc : s.pc c ≠ .returned) (hc' : s'.pc c = .returned) :
    s'.translatedTargetAddress = some (s'.ret c) ∨ s'.ret c = patch.indirectCall ∧ s.translatedTargetAddress = none ∧
      s.locked = true ∧ ∃ d, d ≠ c ∧ (s.pc d).Unpublished := by
  cases hs with
  | retry d hd hn =>
    obtain ⟨rfl, -⟩ := returned_of_update hc hc'
    have hk := h.knows_at hd
    obtain ⟨e, he⟩ := h.holder.mp (hk.2 hn)
    refine .inr ⟨hk.1, hn, hk.2 hn, e, fun hec => ?_, h.unpublished he hn⟩
    rw [hec, hd] at he
    exact he
  | failedRead d hd | patchedRead d hd =>
    obtain ⟨rfl, -⟩ := returned_of_update hc hc'
    left
    change s.translatedTargetAddress = some (update s.ret c _ c)
    rw [update_self]
    exact getD_eq_some (h.knows_at hd)
  | release d v hd =>
    obtain ⟨rfl, -⟩ := returned_of_update hc hc'
    have hk := h.knows_at hd
    left
    change s.translatedTargetAddress = some (s.ret c)
    rw [hk.2]
    exact hk.1
  | enter | loadLocked | loadFree | exchangeLocked | acquire | failedSome | recheckSome | recheckNone | patchedRelease
  | find | publish | setReturn | write | leave => cases (returned_of_update hc hc').2

end Granary.Gencode
