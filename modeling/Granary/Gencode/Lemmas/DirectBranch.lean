import Granary.Gencode.DirectBranch
import Granary.Gencode.Lemmas.PrivateStack
import Granary.Lib.Stack

/-!
# What the stub of a direct branch restores

Each part of the entry routine leaves the words alone that were pushed before it, so that they are popped again.
-/

namespace Granary.Gencode

open Machine

variable (alu : Instr → State → Word) {build : Build} {getPrivateStackTop : State → State}
  {stack : PrivateCallStack} {topDepth depth : Nat} {s : State}
variable {b : Word} {u s' : State} {r : Reg}

/-! ## The call of `patch_instruction` -/

theorem zombies_length (build : Build) : 8 * build.zombies.length ≤ 96 := by
  unfold Build.zombies
  split <;> decide

theorem rsp_notMem_zombies (build : Build) : .rsp ∉ build.zombies := by
  unfold Build.zombies
  split <;> decide

theorem calleeSaved_of_notMem (build : Build) (r : Reg) (hrax : r ≠ .rax) (hrsi : r ≠ .rsi) (hrdi : r ≠ .rdi)
    (hrsp : r ≠ .rsp) (h : r ∉ build.zombies) : r ∈ calleeSaved := by
  unfold Build.zombies at h
  split at h <;> cases r <;> revert hrax hrsi hrdi hrsp h <;> decide

structure CalledPatch (depth : Nat) (value slot : Word) (s s' : State) : Prop where
  rsp : s'.reg .rsp = s.reg .rsp
  reg : ∀ r, r ≠ .rax → r ≠ .rsi → r ≠ .rdi → s'.reg r = s.reg r
  value : s'.mem.read slot = value
  mem : Only (fun b => Below (s.reg .rsp) (96 + depth) b ∨ InWord slot b) s.mem s'.mem

theorem insertCall_rax (far : Bool) (target : Word) (callee : State → State) (s : State) :
    ∃ rax, insertCall alu far target callee s = callee (s.set .rax rax) := by
  cases far with
  | false => exact ⟨s.reg .rax, congrArg callee (by simp [State.set])⟩
  | true => exact ⟨target, rfl⟩

theorem callPatch_spec (build : Build) {value : Word} {patchInstruction : State → State}
    (h : PatchReturns depth value patchInstruction)
    (hdepth : 96 + depth ≤ 2 ^ 64) (hslot : ∀ b, InWord (s.reg .rdi) b → ¬ Below (s.reg .rsp) 96 b) (far : Bool)
    (target : Word) :
    CalledPatch depth value (s.reg .rdi) s
      (saveAndRestoreRegisters alu build.zombies (insertCall alu far target patchInstruction) s) := by
  have hlen := zombies_length build
  have hpushed := run_push alu build.zombies s
  obtain ⟨rax, hcall⟩ := insertCall_rax alu far target patchInstruction (run alu (build.zombies.map .push) s)
  rw [saveAndRestoreRegisters, hcall]
  obtain ⟨u, hu⟩ : ∃ u, run alu (build.zombies.map .push) s = u := ⟨_, rfl⟩
  rw [hu] at hpushed ⊢
  have hrdi : (u.set .rax rax).reg .rdi = s.reg .rdi := by rw [set_reg, if_neg (by decide), hpushed.reg _ (by decide)]
  have hrsp : (u.set .rax rax).reg .rsp = u.reg .rsp := by rw [set_reg, if_neg (by decide)]
  have hmem := h.mem (u.set .rax rax)
  rw [hrdi, hrsp, hpushed.rsp, set_mem] at hmem
  have hpop := run_pop alu (s := s) (v := patchInstruction (u.set .rax rax)) (rsp_notMem_zombies build) (by omega)
    (by rw [hu, h.rsp, hrsp]) fun b hb => by
      rw [hu]
      refine hmem b (not_or.mpr ⟨?_, fun hw => hslot b hw ?_⟩)
      · unfold Below at hb ⊢
        bv_omega
      · exact Nat.lt_of_lt_of_le hb hlen
  refine ⟨hpop.rsp, fun r hrax hrsi hrdi' => ?_, ?_, ?_⟩
  · by_cases hr : r = .rsp
    · rw [hr]
      exact hpop.rsp
    · by_cases hz : r ∈ build.zombies
      · exact hpop.saved r hz
      · rw [hpop.other r hz hr, h.saved _ r (calleeSaved_of_notMem build r hrax hrsi hrdi' hr hz), set_reg, if_neg hrax,
          hpushed.reg r hr]
  · rw [hpop.mem, ← hrdi]
    exact h.value _
  · rw [hpop.mem]
    refine Only.trans (Only.mono hpushed.mem fun b hb => .inl (Nat.lt_of_lt_of_le hb (by omega))) (Only.mono hmem ?_)
    refine fun b hb => hb.imp_left fun hlt => ?_
    unfold Below at hlt ⊢
    bv_omega

/-! ## The arguments and flags -/

/-- The words that the entry routine pushes before it switches the stack, where the branch was at `s`. -/
structure SavedArguments (s : State) (m : Memory) : Prop where
  rdi : m.read (s.reg .rsp - 16) = s.reg .rdi
  flags : m.read (s.reg .rsp - 24) = s.flags
  rsi : m.read (s.reg .rsp - 32) = s.reg .rsi
  rax : m.read (s.reg .rsp - 40) = s.reg .rax

theorem SavedArguments.of_only {P : Word → Prop} {m m' : Memory} (h : SavedArguments s m) (hmem : Only P m m')
    (hP : ∀ b, Below (s.reg .rsp - 8) 32 b → ¬ P b) : SavedArguments s m' := by
  have hread : ∀ d : Word, 16 ≤ d.toNat → d.toNat ≤ 40 → m'.read (s.reg .rsp - d) = m.read (s.reg .rsp - d) := by
    intro d hlo hhi
    refine hmem.read_eq fun b hb => hP b ?_
    unfold InWord at hb
    unfold Below
    bv_omega
  exact ⟨(hread 16 (by decide) (by decide)).trans h.rdi, (hread 24 (by decide) (by decide)).trans h.flags,
    (hread 32 (by decide) (by decide)).trans h.rsi, (hread 40 (by decide) (by decide)).trans h.rax⟩

structure Entered (s s' : State) : Prop where
  rsp : s'.reg .rsp = s.reg .rsp - 40
  rdi : s'.reg .rdi = s.reg .rsp - 8
  reg : ∀ r, r ≠ .rdi → r ≠ .rsp → s'.reg r = s.reg r
  saved : SavedArguments s s'.mem
  mem : Frame (s.reg .rsp) 40 s.mem s'.mem

theorem slot_eqs (a : Word) : a - 16 = a - 8 - 8 ∧ a - 24 = a - 16 - 8 ∧ a - 32 = a - 24 - 8 ∧ a - 40 = a - 32 - 8 :=
  ⟨(BitVec.sub_sub a 8 8).symm, (BitVec.sub_sub a 16 8).symm, (BitVec.sub_sub a 24 8).symm, (BitVec.sub_sub a 32 8).symm⟩

theorem frame_write_five (a : Word) (m : Memory) (v₁ v₂ v₃ v₄ v₅ : Word) :
    Frame a 40 m (((((m.write (a - 8) v₁).write (a - 16) v₂).write (a - 24) v₃).write (a - 32) v₄).write (a - 40) v₅) := by
  obtain ⟨h16, h24, h32, h40⟩ := slot_eqs a
  rw [h40, h32, h24, h16]
  exact ((((frame_write _ _ _).push (Nat.le_refl _)).push (Nat.le_refl _)).push (Nat.le_refl _)).push (by decide)

theorem read_write_above (m : Memory) {a : Word} (v : Word) (hlo : 8 ≤ (b - a).toNat) (hhi : (b - a).toNat ≤ 32) :
    (m.write a v).read b = m.read b := by
  refine (only_write).read_eq fun c hc hc' => ?_
  unfold InWord at hc hc'
  bv_omega

theorem savedArguments_write (m : Memory) :
    SavedArguments s ((((m.write (s.reg .rsp - 16) (s.reg .rdi)).write (s.reg .rsp - 24) s.flags).write (s.reg .rsp - 32)
      (s.reg .rsi)).write (s.reg .rsp - 40) (s.reg .rax)) := by
  refine ⟨?_, ?_, ?_, ?_⟩
  · rw [read_write_above, read_write_above, read_write_above, read_write_self] <;> bv_omega
  · rw [read_write_above, read_write_above, read_write_self] <;> bv_omega
  · rw [read_write_above, read_write_self] <;> bv_omega
  · rw [read_write_self]

theorem saveArguments_spec (build : Build) (returnAddr : Word) (s : State) :
    Entered s (run alu (saveArguments build) (s.push returnAddr)) := by
  obtain ⟨h16, h24, h32, h40⟩ := slot_eqs (s.reg .rsp)
  have hmem : (run alu (saveArguments build) (s.push returnAddr)).mem =
      ((((s.mem.write (s.reg .rsp - 8) returnAddr).write (s.reg .rsp - 16) (s.reg .rdi)).write (s.reg .rsp - 24)
        s.flags).write (s.reg .rsp - 32) (s.reg .rsi)).write (s.reg .rsp - 40) (s.reg .rax) := by
    rw [h40, h32, h24, h16]
    cases hk : build.kernel <;> simp [saveArguments, hk, exec]
  refine ⟨?_, ?_, fun r hrdi hrsp => ?_, ?_, ?_⟩
  · rw [h40, h32, h24, h16]
    cases hk : build.kernel <;> simp [saveArguments, hk, exec]
  · cases hk : build.kernel <;> simp [saveArguments, hk, exec]
  · cases hk : build.kernel <;> simp [saveArguments, hk, exec]
    all_goals simp only [hrdi, hrsp, reduceIte]
  · rw [hmem]
    exact savedArguments_write _
  · rw [hmem]
    exact frame_write_five _ _ _ _ _ _ _

structure Left (n : Word) (s u s' : State) : Prop where
  rsp : s'.reg .rsp = s.reg .rsp + n
  rax : s'.reg .rax = s.reg .rax
  rsi : s'.reg .rsi = s.reg .rsi
  rdi : s'.reg .rdi = s.reg .rdi
  reg : ∀ r, r ≠ .rax → r ≠ .rsi → r ≠ .rdi → r ≠ .rsp → s'.reg r = u.reg r
  flags : s'.flags = s.flags
  rip : s'.rip = u.mem.read (s.reg .rsp - 8)
  mem : s'.mem = u.mem

theorem popped_slot_eqs (a : Word) : a - 40 + 8 = a - 32 ∧ a - 32 + 8 = a - 24 ∧ a - 24 + 8 = a - 16 ∧ a - 16 + 8 = a - 8 := by
  refine ⟨?_, ?_, ?_, ?_⟩ <;> bv_omega

theorem restoreArguments_spec (hrsp : u.reg .rsp = s.reg .rsp - 40) (hsaved : SavedArguments s u.mem) (n : Word) :
    Left n s u ((run alu [.pop .rax, .pop .rsi, .popf, .pop .rdi] u).ret n) := by
  obtain ⟨h32, h24, h16, h8⟩ := popped_slot_eqs (s.reg .rsp)
  obtain ⟨hrdi, hflags, hrsi, hrax⟩ := hsaved
  refine ⟨?_, ?_, ?_, ?_, fun r hr₁ hr₂ hr₃ hr₄ => ?_, ?_, ?_, ?_⟩
  all_goals simp only [run_cons, run_nil, exec, State.ret, State.top]
  · simp only [jmp_reg, drop_reg, set_reg, reduceIte, reduceCtorEq, hrsp, h32, h24, h16, h8]
    rw [← BitVec.add_assoc, BitVec.sub_add_cancel]
  · simpa only [jmp_reg, drop_reg, set_reg, reduceIte, reduceCtorEq, hrsp] using hrax
  · simpa only [jmp_reg, drop_reg, set_reg, drop_mem, set_mem, reduceIte, reduceCtorEq, hrsp, h32] using hrsi
  · simpa only [jmp_reg, drop_reg, set_reg, drop_mem, set_mem, reduceIte, reduceCtorEq, hrsp, h32, h24, h16] using hrdi
  · simp [hr₁, hr₂, hr₃, hr₄]
  · simpa only [jmp_flags, drop_flags, set_flags, drop_reg, set_reg, drop_mem, set_mem, reduceIte, reduceCtorEq, hrsp, h32,
      h24] using hflags
  · simp only [jmp_rip, drop_reg, set_reg, drop_mem, set_mem, reduceIte, reduceCtorEq, hrsp, h32, h24, h16, h8]
  · simp

/-! ## Switching the stack -/

theorem slot_add (a d : Word) : a - d + 8 = a - (d - 8) := by bv_omega

section Kernel

variable (hregs : ∀ s r, r ≠ .rax → r ≠ .rsi → r ≠ .rdi → (getPrivateStackTop s).reg r = s.reg r)
include hregs

theorem compareStacks_reg (h : GetsTop stack topDepth getPrivateStackTop) (s : State) (hr : r ≠ .rax) :
    (compareStacks alu getPrivateStackTop s).reg r = s.reg r := by
  by_cases hrsp : r = .rsp
  · rw [hrsp]
    exact (compareStacks_spec alu h s).rsp
  · have hdepth : 24 + topDepth ≤ 24576 := h.depth_le
    have htop := h.rsp (run alu [.push .rdi, .push .rsi] s)
    have hmem := h.mem (run alu [.push .rdi, .push .rsi] s)
    have hreg := hregs (run alu [.push .rdi, .push .rsi] s) r hr
    change (run alu [.pop .rsi, .pop .rdi, .push .rax, .xor .rax .rsp, .shr .rax 16, .pop .rax]
      (getPrivateStackTop (run alu [.push .rdi, .push .rsi] s))).reg r = s.reg r
    generalize getPrivateStackTop (run alu [.push .rdi, .push .rsi] s) = t at htop hmem hreg ⊢
    simp only [run_cons, run_nil, exec, push_reg, push_mem, reduceIte, reduceCtorEq, hrsp] at htop hmem hreg
    have hrsi : t.mem.read (s.reg .rsp - 8 - 8) = s.reg .rsi := by
      rw [hmem.read_eq (by bv_omega), read_write_self]
    have hrdi : t.mem.read (s.reg .rsp - 8) = s.reg .rdi := by
      rw [hmem.read_eq (by bv_omega), read_write_above _ _ (by bv_omega) (by bv_omega), read_write_self]
    simp only [run_cons, run_nil, exec, arith, State.top]
    simp only [set_reg, drop_reg, push_reg, set_mem, drop_mem, hr, hrsp, reduceIte, reduceCtorEq, htop, BitVec.sub_add_cancel,
      hrsi, hrdi]
    by_cases hsi : r = .rsi
    · simp [hsi]
    · by_cases hdi : r = .rdi
      · simp [hdi]
      · simp only [hsi, hdi, reduceIte]
        exact hreg hsi hdi

theorem callEnter_reg (h : GetsTop stack topDepth getPrivateStackTop) (entered : Word) (s : State) (hrax : r ≠ .rax)
    (hrsp : r ≠ .rsp) : (Nesting.callEnter alu getPrivateStackTop entered s).reg r = s.reg r := by
  have hcmp := compareStacks_reg alu hregs h (s.push entered) hrax
  rw [push_reg, if_neg hrsp] at hcmp
  rw [Nesting.callEnter, enterPrivateStack]
  split
  · simp [doNotSwitchStack, exec, hrax, hrsp, hcmp]
  · simp [switchStack, exec, hrax, hrsp, hcmp]

end Kernel

theorem callExit_reg (exited : Word) (s : State) (hrax : r ≠ .rax) (hrsp : r ≠ .rsp) :
    (Nesting.callExit alu exited s).reg r = s.reg r := by
  simp [Nesting.callExit, exitPrivateStack, exec, hrax, hrsp]

/-- The stack holds the stack pointer to come back to, and is apart from the words that were pushed before. -/
structure Landed (depth : Nat) (s t : State) : Prop where
  rsp : t.mem.read (t.reg .rsp) = s.reg .rsp - 40
  saved : SavedArguments s t.mem
  apart : ∀ b, Below (s.reg .rsp) 40 b → ¬ Below (t.reg .rsp + 8) (104 + depth) b

theorem outside_apart {rsp : Word} (hlo : privateStackSize ≤ stack.offset (rsp - 48))
    (hhi : stack.offset (rsp - 48) + 48 ≤ 2 ^ 64) (hb : Below rsp 48 b) : ¬ Below stack.top privateStackSize b := by
  have htop : stack.top = rsp - (rsp - (stack.base + 24576)) := by
    change stack.base + 24576 = _
    bv_omega
  unfold PrivateCallStack.offset at hlo hhi
  unfold privateStackSize at hlo ⊢
  rw [htop]
  exact hb.apart (by bv_omega) (by bv_omega)

theorem callEnter_landed (h : GetsTop stack topDepth getPrivateStackTop)
    (hok : SwitchOk stack getPrivateStackTop depth (s.reg .rsp))
    (entered rax : Word) {t : State} (ht : Entered s t) :
    Landed depth s (Nesting.callEnter alu getPrivateStackTop entered (t.set .rax rax)) := by
  have hdepth : 24 + topDepth ≤ 24576 := h.depth_le
  have hfits : 256 + depth ≤ 24576 := hok.fits
  have hrsp : (t.set .rax rax).reg .rsp = s.reg .rsp - 40 := by rw [set_reg, if_neg (by decide), ht.rsp]
  have hsub : s.reg .rsp - 40 - 16 = s.reg .rsp - 56 := BitVec.sub_sub _ 40 16
  have hpushed : ∀ b, Below (s.reg .rsp - 8) 32 b → ¬ Below (s.reg .rsp - 40) (24 + topDepth) b := fun b hb =>
    Below.apart (hb.lower (Nat.le_refl 40)) (Nat.le_refl 40) (by change 40 + _ ≤ _; omega)
  by_cases hw : SameWindow (s.reg .rsp - 56) stack.top
  · have hst := callEnter_stays alu entered h (s := t.set .rax rax) (by rwa [hrsp, hsub])
    have hmem := hst.mem
    rw [hrsp] at hmem
    refine ⟨hst.saved.trans hrsp, ht.saved.of_only hmem hpushed, fun b hb => ?_⟩
    rw [hst.rsp, hrsp, hsub, slot_add]
    exact hb.apart (by decide) (by change 48 + _ ≤ _; omega)
  · obtain ⟨hlo, hhi⟩ := hok.stack.resolve_left hw
    have hsw := (callEnter_switches alu entered h (s := t.set .rax rax) (by rwa [hrsp, hsub])).1
    have hmem := hsw.mem
    rw [hrsp] at hmem
    have hout : ∀ b, Below (s.reg .rsp) 40 b → ¬ Below stack.top privateStackSize b := fun b hb =>
      outside_apart hlo hhi (hb.mono (by decide))
    refine ⟨hsw.saved.trans hrsp, ht.saved.of_only hmem fun b hb => ?_, fun b hb hb' => hout b hb ?_⟩
    · exact not_or.mpr ⟨hpushed b hb, fun hb' => hout b (hb.lower (by decide)) (hb'.mono (by decide))⟩
    · rw [hsw.rsp, slot_add] at hb'
      exact hb'.lower (by change 8 + _ ≤ 24576; omega)

/-! ## A call of the stub -/

structure StubReturned (build : Build) (value : Word) (s s' : State) : Prop where
  rsp : s'.reg .rsp = s.reg .rsp + BitVec.ofNat 64 build.redzoneSize
  reg : ∀ r, r ≠ .rsp → s'.reg r = s.reg r
  flags : s'.flags = s.flags
  rip : s'.rip = value

theorem stubReturned_of_left {value : Word} (h : Left (BitVec.ofNat 64 build.redzoneSize) s u s')
    (hvalue : u.mem.read (s.reg .rsp - 8) = value)
    (hreg : ∀ r, r ≠ .rax → r ≠ .rsi → r ≠ .rdi → r ≠ .rsp → u.reg r = s.reg r) : StubReturned build value s s' := by
  refine ⟨h.rsp, fun r hrsp => ?_, h.flags, h.rip.trans hvalue⟩
  by_cases hrax : r = .rax
  · exact hrax ▸ h.rax
  · by_cases hrsi : r = .rsi
    · exact hrsi ▸ h.rsi
    · by_cases hrdi : r = .rdi
      · exact hrdi ▸ h.rdi
      · exact (h.reg r hrax hrsi hrdi hrsp).trans (hreg r hrax hrsi hrdi hrsp)

variable (sites : CallSites) (callPc : Word) {value : Word} {patchInstruction : State → State}

theorem stubCall_user (getPrivateStackTop : State → State) (hk : build.kernel = false) (hdepth : 256 + depth ≤ 2 ^ 64)
    (h : PatchReturns depth value patchInstruction) (s : State) :
    StubReturned build value s (stubCall alu build sites getPrivateStackTop callPc patchInstruction s) ∧
      Frame (s.reg .rsp) (256 + depth) s.mem (stubCall alu build sites getPrivateStackTop callPc patchInstruction s).mem := by
  have ht := saveArguments_spec alu build (callPc + callIndirectAddressSize) s
  rw [stubCall, patchInstructionEntrypoint, hk]
  simp only [reduceIte, Bool.false_eq_true]
  generalize run alu (saveArguments build) (s.push (callPc + callIndirectAddressSize)) = t at ht ⊢
  have hslot : ∀ b, InWord (s.reg .rsp - 8) b → ¬ Below (s.reg .rsp - 40) (96 + depth) b := fun b hb =>
    Below.apart (hb.below (Nat.le_refl 8) (Nat.le_refl 8)) (by decide) (by change 40 + _ ≤ _; omega)
  have hpushed : ∀ b, Below (s.reg .rsp - 8) 32 b → ¬ (Below (s.reg .rsp - 40) (96 + depth) b ∨ InWord (s.reg .rsp - 8) b) :=
    fun b hb => not_or.mpr ⟨Below.apart (hb.lower (Nat.le_refl 40)) (Nat.le_refl 40) (by change 40 + _ ≤ _; omega),
      hb.not_inWord (by decide)⟩
  have hw := callPatch_spec alu build (s := t) h (by omega) (fun b hb => by
    rw [ht.rdi] at hb
    rw [ht.rsp]
    exact fun hb' => hslot b hb (hb'.mono (by omega))) sites.farPatch sites.patchPc
  generalize saveAndRestoreRegisters alu build.zombies (insertCall alu sites.farPatch sites.patchPc patchInstruction) t = w
    at hw ⊢
  rw [ht.rdi] at hw
  have hmem := hw.mem
  rw [ht.rsp] at hmem
  have hleft := restoreArguments_spec alu (hw.rsp.trans ht.rsp) (ht.saved.of_only hmem hpushed)
    (BitVec.ofNat 64 build.redzoneSize)
  refine ⟨stubReturned_of_left hleft hw.value fun r hrax hrsi hrdi hrsp => ?_, ?_⟩
  · exact (hw.reg r hrax hrsi hrdi).trans (ht.reg r hrdi hrsp)
  · rw [hleft.mem]
    refine (ht.mem.mono (by omega)).trans (Only.mono hmem fun b hb => ?_)
    exact hb.elim (·.lower (by change 40 + _ ≤ _; omega)) (·.below (by decide) (by change 8 ≤ _; omega))

theorem stubCall_kernel (hk : build.kernel = true) (htop : GetsTop stack topDepth getPrivateStackTop)
    (hok : SwitchOk stack getPrivateStackTop depth (s.reg .rsp)) (h : PatchReturns depth value patchInstruction) :
    StubReturned build value s (stubCall alu build sites getPrivateStackTop callPc patchInstruction s) := by
  have hfits : 256 + depth ≤ 24576 := hok.fits
  have ht := saveArguments_spec alu build (callPc + callIndirectAddressSize) s
  rw [stubCall, patchInstructionEntrypoint, hk]
  simp only [reduceIte]
  generalize run alu (saveArguments build) (s.push (callPc + callIndirectAddressSize)) = t at ht ⊢
  obtain ⟨rax, henter⟩ := insertCall_rax alu sites.farEnter sites.enterPc
    (Nesting.callEnter alu getPrivateStackTop sites.entered) t
  rw [henter]
  have hland := callEnter_landed alu htop hok sites.entered rax ht
  have hregs : ∀ r, r ≠ .rax → r ≠ .rsp →
      (Nesting.callEnter alu getPrivateStackTop sites.entered (t.set .rax rax)).reg r = t.reg r := fun r hrax hrsp =>
    (callEnter_reg alu hok.regs htop sites.entered (t.set .rax rax) hrax hrsp).trans (by rw [set_reg, if_neg hrax])
  generalize Nesting.callEnter alu getPrivateStackTop sites.entered (t.set .rax rax) = e at hland hregs ⊢
  have hrdi : e.reg .rdi = s.reg .rsp - 8 := (hregs .rdi (by decide) (by decide)).trans ht.rdi
  -- the return address and the words after it are apart from what is pushed from here on
  have hapart : ∀ b, Below (s.reg .rsp) 40 b → ¬ Below (e.reg .rsp) (96 + depth) b := fun b hb hb' =>
    hland.apart b hb (Below.lower (d := 8) (by rwa [BitVec.add_sub_cancel]) (by change 8 + _ ≤ _; omega))
  have hslot : ∀ b, InWord (s.reg .rsp - 8) b → Below (s.reg .rsp) 40 b := fun b hb => hb.below (by decide) (by decide)
  have hw := callPatch_spec alu build (s := e) h (by omega)
    (fun b hb hb' => hapart b (hslot b (hrdi ▸ hb)) (hb'.mono (by omega))) sites.farPatch sites.patchPc
  generalize saveAndRestoreRegisters alu build.zombies (insertCall alu sites.farPatch sites.patchPc patchInstruction) e = w
    at hw ⊢
  rw [hrdi] at hw
  obtain ⟨rax', hexit⟩ := insertCall_rax alu sites.farExit sites.exitPc (Nesting.callExit alu sites.exited) w
  rw [hexit]
  obtain ⟨hrsp, _, hmem⟩ := callExit_spec alu sites.exited (w.set .rax rax')
  have hexited : ∀ r, r ≠ .rax → r ≠ .rsp → (Nesting.callExit alu sites.exited (w.set .rax rax')).reg r = w.reg r :=
    fun r hrax hrsp => (callExit_reg alu sites.exited (w.set .rax rax') hrax hrsp).trans (by rw [set_reg, if_neg hrax])
  generalize Nesting.callExit alu sites.exited (w.set .rax rax') = x at hrsp hmem hexited ⊢
  rw [State.top, set_reg, if_neg (by decide), set_mem, hw.rsp] at hrsp
  rw [set_reg, if_neg (by decide), set_mem, hw.rsp] at hmem
  have hback : w.mem.read (e.reg .rsp) = s.reg .rsp - 40 := by
    refine (hw.mem.read_eq fun b hb => not_or.mpr ⟨fun hb' => hb'.not_inWord (by omega) hb, fun hb' => ?_⟩).trans hland.rsp
    refine hland.apart b (hslot b hb') (InWord.below (d := 8) (by rwa [BitVec.add_sub_cancel]) (by decide) ?_)
    change 8 ≤ _
    omega
  have hsaved : SavedArguments s x.mem := by
    have hpatched := hland.saved.of_only hw.mem fun b hb =>
      not_or.mpr ⟨hapart b (hb.lower (by decide)), hb.not_inWord (by decide)⟩
    exact hpatched.of_only hmem fun b hb hb' => hapart b (hb.lower (by decide)) (hb'.mono (by omega))
  have hvalue : x.mem.read (s.reg .rsp - 8) = value :=
    (Only.read_eq hmem fun b hb hb' => hapart b (hslot b hb) (hb'.mono (by omega))).trans hw.value
  refine stubReturned_of_left (restoreArguments_spec alu (hrsp.trans hback) hsaved _) hvalue fun r hrax hrsi hrdi hrsp => ?_
  rw [hexited r hrax hrsp, hw.reg r hrax hrsi hrdi, hregs r hrax hrsp, ht.reg r hrdi hrsp]

/-! ## The redzone -/

theorem redzoneSize_kernel (hk : build.kernel = true) : build.redzoneSize = 0 := if_pos hk

theorem redzoneSize_user (hk : build.kernel = false) : build.redzoneSize = 128 := by rw [Build.redzoneSize, hk]; rfl

theorem run_shiftRedzone (build : Build) (s : State) :
    run alu (shiftRedzone build) s = s.set .rsp (s.reg .rsp - BitVec.ofNat 64 build.redzoneSize) := by
  cases hk : build.kernel with
  | false =>
    rw [redzoneSize_user hk, shiftRedzone, hk, BitVec.sub_eq_add_neg]
    rfl
  | true =>
    rw [redzoneSize_kernel hk, shiftRedzone, hk, BitVec.sub_zero, State.set, Function.update_eq_self]
    rfl

theorem StubReturned.reg_eq (h : StubReturned build value (run alu (shiftRedzone build) s) s') : s'.reg = s.reg := by
  rw [run_shiftRedzone] at h
  funext r
  by_cases hr : r = .rsp
  · rw [hr, h.rsp, set_reg, if_pos rfl, BitVec.sub_add_cancel]
  · rw [h.reg r hr, set_reg, if_neg hr]

theorem StubReturned.flags_eq (h : StubReturned build value (run alu (shiftRedzone build) s) s') : s'.flags = s.flags := by
  rw [run_shiftRedzone] at h
  exact h.flags

/-! ## Retries -/

section Retries

variable {retries : List (State → State)} {last : State → State} {target : Word}

theorem stubCalls_retry (patches : List (State → State))
    (h : (stubCall alu build sites getPrivateStackTop callPc patchInstruction s).rip = callPc) :
    stubCalls alu build sites getPrivateStackTop callPc (patchInstruction :: patches) s =
      stubCalls alu build sites getPrivateStackTop callPc patches
        (stubCall alu build sites getPrivateStackTop callPc patchInstruction s) := if_pos h

theorem stubCalls_last (patches : List (State → State))
    (h : (stubCall alu build sites getPrivateStackTop callPc patchInstruction s).rip ≠ callPc) :
    stubCalls alu build sites getPrivateStackTop callPc (patchInstruction :: patches) s =
      stubCall alu build sites getPrivateStackTop callPc patchInstruction s := if_neg h

theorem stubCalls_kernel (hk : build.kernel = true) (htop : GetsTop stack topDepth getPrivateStackTop)
    (hok : SwitchOk stack getPrivateStackTop depth (s.reg .rsp)) (hretries : ∀ p ∈ retries, PatchReturns depth callPc p)
    (hlast : PatchReturns depth target last) (hne : target ≠ callPc) :
    StubReturned build target s (stubCalls alu build sites getPrivateStackTop callPc (retries ++ [last]) s) := by
  have hzero : ∀ a : Word, a + BitVec.ofNat 64 build.redzoneSize = a := fun a => by
    rw [redzoneSize_kernel hk, BitVec.add_zero]
  induction retries generalizing s with
  | nil =>
    have hs := stubCall_kernel alu sites callPc hk htop hok hlast
    rw [List.nil_append, stubCalls_last alu sites callPc _ (hs.rip ▸ hne)]
    exact hs
  | cons p retries ih =>
    have hs := stubCall_kernel alu sites callPc hk htop hok (hretries p (.head _))
    rw [List.cons_append, stubCalls_retry alu sites callPc _ hs.rip]
    have hrsp := hs.rsp.trans (hzero _)
    obtain ⟨hrsp', hreg, hflags, hrip⟩ := ih (hrsp ▸ hok) fun q hq => hretries q (.tail _ hq)
    exact ⟨hrsp'.trans (by rw [hrsp]), fun r hr => (hreg r hr).trans (hs.reg r hr), hflags.trans hs.flags, hrip⟩

theorem retries_eq_nil (hk : build.kernel = false) (hdepth : 256 + depth ≤ 2 ^ 64)
    (hretries : ∀ p ∈ retries, PatchReturns depth callPc p)
    (hspares : SparesRedzone alu build sites getPrivateStackTop callPc (s.reg .rsp + 128) (retries ++ [last]) s) :
    retries = [] := by
  cases retries with
  | nil => rfl
  | cons p retries =>
    exfalso
    obtain ⟨hs, _⟩ := stubCall_user alu sites callPc getPrivateStackTop hk hdepth (hretries p (.head _)) s
    have hsize := redzoneSize_user hk
    have hrsp := hs.rsp
    rw [hsize] at hrsp
    have hnext := hspares.2 hs.rip
    -- there is a next call, which is made with the redzone already shifted back
    obtain ⟨q, rest, hcons⟩ : ∃ q rest, retries ++ [last] = q :: rest := by
      cases retries with
      | nil => exact ⟨last, [], rfl⟩
      | cons q rest => exact ⟨q, rest ++ [last], rfl⟩
    rw [List.append_eq, hcons] at hnext
    have hfree := hnext.1 (s.reg .rsp + 128 - 8)
    rw [hrsp, hsize] at hfree
    exact hfree (inWord_self) ((inWord_self).below (by decide) (by decide))

theorem sparesRedzone_kernel (hk : build.kernel = true) (rsp : Word) (patches : List (State → State)) (s : State) :
    SparesRedzone alu build sites getPrivateStackTop callPc rsp patches s := by
  induction patches generalizing s with
  | nil => trivial
  | cons p patches ih =>
    refine ⟨fun a _ hb => ?_, fun _ => ih _⟩
    rw [redzoneSize_kernel hk] at hb
    exact Nat.not_lt_zero _ hb

end Retries

end Granary.Gencode
