import Granary.Interrupts.Lemmas.DelayBuffer
import Granary.Interrupts.Lemmas.DelayLookup
import Granary.Interrupts.Lemmas.DelayedRuns
import Granary.Interrupts.Lemmas.Handler
import Granary.Interrupts.Lemmas.Routines
import Granary.Gencode.Theorems
import Mathlib.Data.List.Forall2

/-!
# Properties of delayed interrupts
-/

namespace Granary.Interrupts

/-! ## Lookups of delay regions -/

def twoRegions : List Piece := [.native 1, .region ⟨1, [2], 2⟩, .single 3, .region ⟨4, [0], 1⟩]

/-- The blocks of a trace write delay states only to their own slices, however it is aligned, iff each block with delay flags
can become 25 bytes big and no region ends before its first byte. -/
theorem bufferSafe_iff (bs : List (List BlockIns)) (currAlign : Nat)
    (hfits : ∀ b ∈ bs, Instructions.estimateMaxSize b + 7 < 2 ^ 32) :
    ∃ out size, alignBlocks [] currAlign 0 bs = .ok out ∧
      Instructions.align (bs.flatMap labelled) currAlign =
        .ok (out.flatMap fun items => items ++ [.ins labelIns], size) ∧
      (BufferSafe bs out ↔
        ∀ b ∈ bs, needsStates b → 25 ≤ Instructions.estimateMaxSize b ∧ endsAtStart b = false) := by
  obtain ⟨out, size, hblocks, hlaid, halign⟩ := alignBlocks_spec bs [] currAlign 0
  obtain ⟨hlen, hzip⟩ := List.forall₂_iff_zip.mp hlaid
  refine ⟨out, size, hblocks, halign, fun hsafe b hb hneeds => ?_, fun hcond => ?_⟩
  · obtain ⟨k, hk, rfl⟩ := List.getElem_of_mem hb
    have hmem : (bs[k], out[k]) ∈ bs.zip out := by
      rw [← List.getElem_zip (h := by rw [List.length_zip]; omega)]
      exact List.getElem_mem _
    exact ((hzip hmem).written_iff hneeds (hfits _ hb) fun _ => 0).mp (hsafe.writes _ hmem hneeds _)
  · refine ⟨fun x hx hneeds byte => ?_, slices_pairwise bs 0, fun a ha => ?_, fun x hx hneeds k hk => ?_⟩
    · have hb := (List.of_mem_zip hx).1
      exact ((hzip hx).written_iff hneeds (hfits _ hb) byte).mpr (hcond _ hb hneeds)
    · have := (mem_slices_le ha).2
      omega
    · exact (hzip hx).covered hneeds hk

/-- An instruction that is no branch. -/
def plainIns (size : Nat) (delayBegin delayEnd : Bool) : BlockIns :=
  { labelIns with body := ⟨delayBegin, delayEnd⟩, size := size, branch := fun h => absurd h Bool.false_ne_true }

/-- A region of 26 bytes. -/
theorem bufferSafe_iff_long_region :
    ∃ out, alignBlocks [] 0 0 [[plainIns 13 true false, plainIns 13 false true]] = .ok out ∧
      BufferSafe [[plainIns 13 true false, plainIns 13 false true]] out := by
  obtain ⟨out, size, hblocks, _, hiff⟩ :=
    bufferSafe_iff [[plainIns 13 true false, plainIns 13 false true]] 0 (by decide)
  exact ⟨out, hblocks, hiff.mpr (by decide)⟩

/-- For a region of six bytes eight bytes are cleared, but only three were allocated. -/
theorem short_region_overflows :
    ∃ out, alignBlocks [] 0 0 [[plainIns 3 true false, plainIns 3 false true]] = .ok [out] ∧
      traceNumStateBytes [[plainIns 3 true false, plainIns 3 false true]] = 3 ∧ 7 ∈ writtenBytes out (fun _ => 0) ∧
      ¬ BufferSafe [[plainIns 3 true false, plainIns 3 false true]] [out] := by
  have hmem : 7 ∈ writtenBytes [.ins labelIns, .ins (plainIns 3 true false), .ins (plainIns 3 false true)] fun _ => 0 := by
    decide
  refine ⟨_, rfl, rfl, hmem, fun h => ?_⟩
  exact absurd (h.writes _ List.mem_cons_self rfl _ 7 hmem) (by decide)

/-! ## Copies of delay regions -/

/-- The copy of a region that branches do not leave is closed and does the rest of the region with interrupts disabled, iff
each branch has fewer instructions of the copy before it than the region has control-flow instructions. -/
theorem emitDelayedInterrupt_closed_iff {ι : Type} (r : Region ι) (ip : Nat) (hip : ip ∈ r.pcs) (hcontained : r.Contained) :
    ∃ copy, emitDelayedInterrupt ip r.code = .ok copy ∧
      (Closed r.code copy ∧ Resumes ip r.code copy ↔
        ∀ pre x post i target, r.code = pre ++ x :: post → x.op = .branch i target →
          itemsBefore ip pre x.pc < r.code.countP fun x => x.op.isCti) := by
  refine ⟨_, emitDelayedInterrupt_eq hcontained, ?_⟩
  rw [closed_iff, ← not_escapes_iff hip, and_iff_left_iff_imp]
  intro h
  exact resumes_translate hcontained hip _ fun o => translate_copy h

/-- A loop that begins the region, and an interrupt after it. -/
def branchFirst : Region Nat where
  begin := 0x100
  code := [⟨0x100, 2, .branch 0 0x100⟩, ⟨0x102, 1, .popf⟩, ⟨0x103, 1, .sti⟩]
  decoded := by decide

theorem emitDelayedInterrupt_closed_iff_branchFirst :
    ∃ copy, emitDelayedInterrupt 0x102 branchFirst.code = .ok copy ∧ Closed branchFirst.code copy ∧
      Resumes 0x102 branchFirst.code copy := by
  have hcontained : branchFirst.Contained := by
    intro x hx i target hop
    simp only [branchFirst, List.mem_cons, List.not_mem_nil, or_false] at hx
    obtain rfl | rfl | rfl := hx <;> cases hop
    decide
  obtain ⟨copy, hcopy, hiff⟩ := emitDelayedInterrupt_closed_iff branchFirst 0x102 (by decide) hcontained
  refine ⟨copy, hcopy, hiff.2 fun pre x post i target hcode hop => ?_⟩
  cases pre with
  | nil =>
    cases hcode
    decide
  | cons a pre =>
    -- Only the first instruction is a branch.
    obtain ⟨-, hpre⟩ := List.cons_eq_cons.1 hcode
    have hx : x ∈ [⟨0x102, 1, .popf⟩, ⟨0x103, 1, .sti⟩] := by simp [hpre]
    simp only [List.mem_cons, List.not_mem_nil, or_false] at hx
    obtain rfl | rfl := hx <;> cases hop

/-- A jump back to the instruction before it, the only control-flow instruction of the region. -/
def branchLast : Region Nat where
  begin := 0x100
  code := [⟨0x100, 1, .plain 0⟩, ⟨0x101, 2, .branch 0 0x100⟩]
  decoded := by decide

/-- It is not redirected, and jumps from the copy to the region. -/
theorem jump_after_nop_leaves_copy :
    ∃ copy, emitDelayedInterrupt 0x100 branchLast.code = .ok copy ∧ ¬ Closed branchLast.code copy ∧
      ((copyLanguage ⟨fun _ _ => true, fun _ => true⟩).step copy)^[3]
          ((copyLanguage ⟨fun _ _ => true, fun _ => true⟩).goto copy .delayIn ⟨[], false, false⟩) =
        .left (.original 0x100) ⟨[.branch 0, .plain 0], false, false⟩ := by
  refine ⟨_, rfl, ?_, rfl⟩
  intro h
  obtain ⟨_, _, _, _, _, htarget⟩ := h ⟨.part 0x101 0, some 0x101, .branch 0 (.pc 0x100)⟩ (by decide) 0 (.pc 0x100) rfl
  cases htarget

/-! ## Interrupt routines -/

section Routines

open Machine
open InterruptStackFrame (stackPointer)

theorem slt_asymm {x y : BitVec 32} (h : x.slt y = true) : y.slt x = false := by
  rw [BitVec.slt_eq_decide, decide_eq_true_eq] at h
  rw [BitVec.slt_eq_decide, decide_eq_false_iff_not]
  omega

/-- Interrupts resume with all registers as they were. In user mode, or if the handler defers: at the original routine, as on
entry. After `IRET`: at the `iret`, with the frame on the stack. After `RETURN`: where the frame says, if it is right below
the stack pointer in it, or apart from the three words that are written there. -/
theorem interruptRoutine_resumes (alu : Instr → State → Word) (orFlags andFlags : State → Word) (c : Routines) (vector : Nat)
    (s : State) :
    let isf := isfOf vector (s.reg .rsp)
    let entry := handlerEntry alu orFlags andFlags c vector s
    let v := callHandler alu c entry
    let resumed := interruptRoutine alu orFlags andFlags c vector s
    (InUserMode s.mem isf → ∃ t, resumed = .jump t ∧ AtOriginal c s t) ∧
    (¬ InUserMode s.mem isf → HandlerReturns (routineStack c) entry v →
      (handledState v = 0 → ∃ t, resumed = .jump t ∧ AtOriginal c s t) ∧
      (BitVec.slt 0 (handledState v) → ∃ t, resumed = .iret t ∧ AtIret isf s t) ∧
      ((handledState v).slt 0 →
        DirectlyBelow isf (v.mem.read (isf + stackPointer)) ∨ ReturnClear isf (v.mem.read (isf + stackPointer)) →
        ∃ t, resumed = .jump t ∧ AtReturn v.mem isf s t)) := by
  intro isf entry v resumed
  have hholding : Holding c s (isf - 56) (entered alu c vector s) := entered_holding alu
  have hchecked := checkPrivilege_holding alu orFlags andFlags hholding
  have hmode := (checkPrivilege_spec alu orFlags andFlags (entered alu c vector s)).2.2.trans (not_congr (entered_userMode alu))
  have hisf : isf - 56 + 56 = isf := BitVec.sub_add_cancel ..
  have hresumed : resumed = _ := interruptRoutine_eq alu orFlags andFlags
  refine ⟨fun huser => ?_, fun hkernel hreturns => ?_⟩
  · rw [hresumed, if_neg (fun h => hmode.1 h huser)]
    exact (hchecked.pop alu).backTo alu
  · rw [if_pos (hmode.2 hkernel)] at hresumed
    have hhandled : ∃ u, u = handle alu c (checkPrivilege alu orFlags andFlags (entered alu c vector s)) ∧
        Ready c s (isf - 56) u ∧ u.mem = v.mem ∧ jl u.flags = (handledState v).slt 0 ∧
        zf u.flags = decide (handledState v = 0) := ⟨_, rfl, hchecked.handled alu hreturns⟩
    obtain ⟨u, hu, hready, hmem, hjl, hzf⟩ := hhandled
    rw [← hu, hjl, hzf] at hresumed
    refine ⟨fun hdefer => ?_, fun hiret => ?_, fun hret hclear => ?_⟩
    · rw [hdefer, if_neg (by decide), if_pos (by decide)] at hresumed
      rw [hresumed]
      exact hready.backTo alu
    · have hne : handledState v ≠ 0 := by
        intro h
        rw [h] at hiret
        cases hiret
      rw [if_neg (Bool.eq_false_iff.1 (slt_asymm hiret)), if_neg (fun h => hne (of_decide_eq_true h))] at hresumed
      exact ⟨_, hresumed, hisf ▸ hready.iret alu⟩
    · rw [if_pos hret] at hresumed
      have hclear' : ReturnClear isf (v.mem.read (isf + stackPointer)) := hclear.elim DirectlyBelow.clear id
      rw [← hisf, ← hmem] at hclear'
      have hat := hready.ret alu hclear'
      rw [hisf, hmem] at hat
      exact ⟨_, hresumed, hat⟩

/-- Routines whose handler only returns a value. -/
def returning (result : Word) : Routines where
  test := false
  sites := ⟨false, true, false, 0x600000, 0x600100, 0x600200, 0x500010, 0x500020⟩
  getPrivateStackTop := Gencode.topOf Gencode.lowStack
  handleInterrupt s := s.set .rax result
  originalRoutine := 0x700000
  commonRoutine := 0x500000
  returnAddr := 0x500100

theorem returning_returns (result : Word) (s : State) (hstack : 0x20000 ≤ (s.reg .rsp).toNat ∧ (s.reg .rsp).toNat < 2 ^ 32) :
    HandlerReturns (routineStack (returning result)) s (callHandler (fun _ _ => 0) (returning result) s) := by
  have hn : routineStack (returning result) = 104 := rfl
  rw [hn]
  refine handlerReturns_of_conforms _ (Gencode.topOf_getsTop Gencode.lowStack) (fun s r hrax _ _ => ?_) (by decide)
    (.inr fun b hb => ?_) fun u => ?_
  · simp only [returning, Gencode.topOf, set_reg, drop_reg, push_reg, hrax, reduceIte, BitVec.sub_add_cancel]
    split <;> simp_all
  · have htop : Gencode.lowStack.top = 0x16000 := by decide
    rw [htop]
    unfold Below
    bv_omega
  · refine ⟨?_, fun r hr => ?_, ?_, fun _ _ => rfl⟩
    · simp [returning]
    · have hrax : r ≠ .rax := fun h => absurd (h ▸ hr) (by decide)
      simp [returning, hrax]
    · simp [returning, State.top]

/-- A state in the kernel after an interrupt without an error code, with a frame that has this stack pointer. -/
def interruptedAt (sp : Word) : State where
  reg r := if r = .rsp then 0x7fff0000 else if r = .rdi then 5 else 7
  flags := 2
  rip := 0
  mem := (((Memory.write (fun _ => 0) 0x7fff0000 0x401000).write 0x7fff0008 0x10).write 0x7fff0010 0x202).write 0x7fff0018 sp

theorem interruptRoutine_resumes_return :
    ∃ t, interruptRoutine (fun _ _ => 0) (fun _ => 0) (fun _ => 0) (returning (-1)) 1 (interruptedAt 0x7fff0028) = .jump t ∧
      t.rip = 0x401000 := by
  have hreturns := returning_returns (-1) (handlerEntry (fun _ _ => 0) (fun _ => 0) (fun _ => 0) (returning (-1)) 1
    (interruptedAt 0x7fff0028)) (by decide +kernel)
  have hresumes := (interruptRoutine_resumes (fun _ _ => 0) (fun _ => 0) (fun _ => 0) (returning (-1)) 1
    (interruptedAt 0x7fff0028)).2 (by decide +kernel) hreturns
  obtain ⟨t, ht, hat⟩ := hresumes.2.2 (by decide +kernel) (.inl (by unfold DirectlyBelow; decide +kernel))
  exact ⟨t, ht, hat.rip.trans (by decide +kernel)⟩

def Resumed.jumped (r : Reg) : Resumed → Option Word
  | .jump t => some (t.reg r)
  | _ => none

/-- An interrupt that is delivered on top of the stack it interrupted: the saved `rdi` is overwritten before it is read. -/
theorem return_on_same_stack :
    let s := interruptedAt 0x7fff0000
    let entry := handlerEntry (fun _ _ => 0) (fun _ => 0) (fun _ => 0) (returning (-1)) 1 s
    HandlerReturns (routineStack (returning (-1))) entry (callHandler (fun _ _ => 0) (returning (-1)) entry) ∧
      s.reg .rdi = 5 ∧
      (interruptRoutine (fun _ _ => 0) (fun _ => 0) (fun _ => 0) (returning (-1)) 1 s).jumped .rdi = some 7 := by
  refine ⟨returning_returns _ _ (by decide +kernel), rfl, by decide +kernel⟩

end Routines

end Granary.Interrupts
