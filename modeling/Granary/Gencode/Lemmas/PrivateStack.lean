import Granary.Gencode.PrivateStack

/-!
# Switching to the private stack and back

The comparison of the high bits decides where `granary_enter_private_stack` leaves the stack pointer. As long as it decides
for the stack that the code is on, calls nest like pushes.
-/

namespace Granary.Gencode

open Machine

attribute [local simp] Nesting.callExit State.top arith exec exitPrivateStack

variable (alu : Instr → State → Word) {getPrivateStackTop : State → State} {stack : PrivateCallStack} {depth : Nat}
  {s : State}

/-! ## The routines -/

theorem xor_shr_eq_zero (a b : Word) : (a ^^^ b) >>> 16 = 0 ↔ SameWindow b a := by
  rw [SameWindow, BitVec.ushiftRight_xor_distrib, show (0 : Word) = 0#64 from rfl, BitVec.xor_eq_zero_iff]
  exact eq_comm

structure Compared (stack : PrivateCallStack) (depth : Nat) (s s' : State) : Prop where
  rsp : s'.reg .rsp = s.reg .rsp
  rax : s'.reg .rax = stack.top
  zf : zf s'.flags = true ↔ SameWindow (s.reg .rsp - 8) stack.top
  mem : Frame (s.reg .rsp) (16 + depth) s.mem s'.mem

theorem compareStacks_spec (h : GetsTop stack depth getPrivateStackTop) (s : State) :
    Compared stack depth s (compareStacks alu getPrivateStackTop s) := by
  change Compared stack depth s (run alu [.pop .rsi, .pop .rdi, .push .rax, .xor .rax .rsp, .shr .rax 16, .pop .rax]
    (getPrivateStackTop (run alu [.push .rdi, .push .rsi] s)))
  have hrax := h.rax (run alu [.push .rdi, .push .rsi] s)
  have hrsp := h.rsp (run alu [.push .rdi, .push .rsi] s)
  have hmem := h.mem (run alu [.push .rdi, .push .rsi] s)
  generalize getPrivateStackTop (run alu [.push .rdi, .push .rsi] s) = t at hrax hrsp hmem ⊢
  simp only [run_cons, run_nil, exec, push_reg, push_mem, reduceIte, reduceCtorEq] at hrsp hmem
  refine ⟨?_, ?_, ?_, ?_⟩
  · simp [hrsp]
  · simp [hrax]
  · simp [hrax, hrsp, ← xor_shr_eq_zero]
  · have hpushes : Frame (s.reg .rsp) (16 + depth) s.mem t.mem := (hmem.push (Nat.le_refl _)).push (by omega)
    refine hpushes.trans ?_
    have hw := (frame_write (s.reg .rsp) t.mem stack.top).mono (k := 16 + depth) (by omega)
    simpa [hrax, hrsp] using hw

theorem doNotSwitchStack_spec (s : State) :
    (doNotSwitchStack alu s).reg .rsp = s.reg .rsp - 8 ∧ (doNotSwitchStack alu s).rip = s.top ∧
    (doNotSwitchStack alu s).mem =
      (s.mem.write (s.reg .rsp) (s.reg .rsp + 8)).write (s.reg .rsp - 8) (s.reg .rsp + 8) := by
  simp [doNotSwitchStack]

theorem switchStack_spec (s : State) : (switchStack alu s).reg .rsp = s.reg .rax - 8 - 8 ∧
    (switchStack alu s).rip = (switchStack alu s).mem.read (s.reg .rsp) ∧
    (switchStack alu s).mem =
      (s.mem.write (s.reg .rax - 8) (s.reg .rsp + 8)).write (s.reg .rax - 8 - 8) (s.reg .rsp + 8) := by
  simp [switchStack]

structure Stayed (depth : Nat) (entered : Word) (s s' : State) : Prop where
  rsp : s'.reg .rsp = s.reg .rsp - 16
  saved : s'.mem.read (s'.reg .rsp) = s.reg .rsp
  rip : s'.rip = entered
  mem : Frame (s.reg .rsp) (24 + depth) s.mem s'.mem

theorem callEnter_stays (entered : Word) (h : GetsTop stack depth getPrivateStackTop)
    (hw : SameWindow (s.reg .rsp - 16) stack.top) :
    Stayed depth entered s (Nesting.callEnter alu getPrivateStackTop entered s) := by
  obtain ⟨hrsp, _, hzf, hmem⟩ := compareStacks_spec alu h (s.push entered)
  have hdepth : 24 + depth ≤ 24576 := h.depth_le
  have hsub : s.reg .rsp - 16 = s.reg .rsp - 8 - 8 := by bv_omega
  have hadd : s.reg .rsp - 8 + 8 = s.reg .rsp := by bv_omega
  simp only [push_reg, push_mem, reduceIte, ← hsub] at hrsp hzf hmem
  rw [Nesting.callEnter, enterPrivateStack, if_pos (hzf.mpr hw)]
  obtain ⟨hrsp', hrip, hmem'⟩ := doNotSwitchStack_spec alu (compareStacks alu getPrivateStackTop (s.push entered))
  rw [hrsp, hadd] at hmem'
  rw [hrsp, ← hsub] at hrsp'
  refine ⟨hrsp', ?_, ?_, ?_⟩
  · rw [hrsp', hmem', hsub, read_write_self]
  · rw [hrip, State.top, hrsp, hmem.read_eq (by bv_omega), read_write_self]
  · rw [hmem']
    exact (hmem.push (by omega)).trans ((frame_write _ _ _).push (by omega))

/-- A call that switches to the top of the private stack, where the stack pointer it was made with is saved. -/
structure Switched (stack : PrivateCallStack) (depth : Nat) (s s' : State) : Prop where
  rsp : s'.reg .rsp = stack.top - 16
  saved : s'.mem.read (s'.reg .rsp) = s.reg .rsp
  mem : Only (fun b => Below (s.reg .rsp) (24 + depth) b ∨ Below stack.top 16 b) s.mem s'.mem

theorem callEnter_switches (entered : Word) (h : GetsTop stack depth getPrivateStackTop)
    (hw : ¬ SameWindow (s.reg .rsp - 16) stack.top) :
    Switched stack depth s (Nesting.callEnter alu getPrivateStackTop entered s) ∧
      (stack.Outside (s.reg .rsp - 8) → (Nesting.callEnter alu getPrivateStackTop entered s).rip = entered) := by
  obtain ⟨hrsp, hrax, hzf, hmem⟩ := compareStacks_spec alu h (s.push entered)
  have hdepth : 24 + depth ≤ 24576 := h.depth_le
  have hsub : s.reg .rsp - 16 = s.reg .rsp - 8 - 8 := by bv_omega
  have hadd : s.reg .rsp - 8 + 8 = s.reg .rsp := by bv_omega
  have htop : stack.top - 16 = stack.top - 8 - 8 := by bv_omega
  simp only [push_reg, push_mem, reduceIte, ← hsub] at hrsp hzf hmem
  rw [Nesting.callEnter, enterPrivateStack, if_neg (fun hz => hw (hzf.mp hz))]
  obtain ⟨hrsp', hrip, hmem'⟩ := switchStack_spec alu (compareStacks alu getPrivateStackTop (s.push entered))
  rw [hrsp, hadd, hrax] at hmem'
  rw [hrax, ← htop] at hrsp'
  have hpushed : Frame stack.top 16 (compareStacks alu getPrivateStackTop (s.push entered)).mem
      ((switchStack alu (compareStacks alu getPrivateStackTop (s.push entered))).mem) := by
    rw [hmem']
    exact (frame_write _ _ _).push (by decide)
  refine ⟨⟨hrsp', ?_, ?_⟩, fun hout => ?_⟩
  · rw [hrsp', hmem', htop, read_write_self]
  · have hcompared : Frame (s.reg .rsp) (24 + depth) s.mem _ := hmem.push (by omega)
    exact (Only.mono hcompared fun _ => .inl).trans (Only.mono hpushed fun _ => .inr)
  · -- the return address is not where the two words were pushed
    obtain ⟨hlo, hhi⟩ := hout
    have hfar : (s.reg .rsp - 8 - stack.top).toNat + 8 + 16 ≤ 2 ^ 64 := by
      have hsize : BitVec.ofNat 64 privateStackSize = 24576 := rfl
      unfold PrivateCallStack.offset at hlo hhi
      unfold privateStackSize at hlo
      rw [PrivateCallStack.top, hsize]
      bv_omega
    rw [hrip, hrsp, hpushed.read_eq hfar, hmem.read_eq (by bv_omega), read_write_self]

theorem callExit_spec (exited : Word) (s : State) : (Nesting.callExit alu exited s).reg .rsp = s.top ∧
    (Nesting.callExit alu exited s).rip = exited ∧ Frame (s.reg .rsp) 8 s.mem (Nesting.callExit alu exited s).mem := by
  have hframe := frame_write (s.reg .rsp) s.mem exited
  have hread := hframe.read_eq (b := s.reg .rsp) (by bv_omega)
  refine ⟨?_, ?_, ?_⟩
  · simpa using hread
  · simp
  · simpa using hframe

/-! ## Nesting -/

theorem offset_sub {a d : Word} (h : d.toNat ≤ stack.offset a) : stack.offset (a - d) = stack.offset a - d.toNat := by
  unfold PrivateCallStack.offset at h ⊢
  bv_omega

theorem offset_top : stack.offset (stack.top - 16) = 24560 := by
  have hsize : BitVec.ofNat 64 privateStackSize = 24576 := rfl
  rw [PrivateCallStack.offset, PrivateCallStack.top, hsize]
  bv_omega

theorem not_below {a rsp : Word} {n : Nat} (hn : n ≤ privateStackSize) (ha : stack.Inside a)
    (hle : stack.offset rsp ≤ stack.offset a) : ¬ Below rsp n a := by
  unfold PrivateCallStack.Inside PrivateCallStack.offset at *
  unfold privateStackSize at *
  unfold Below
  bv_omega

theorem Stayed.staysBelow {entered : Word} {s' : State} (h : Stayed depth entered s s') (hdepth : 24 + depth ≤ privateStackSize)
    (hroom : 16 ≤ stack.offset (s.reg .rsp)) : StaysBelow stack s s' where
  rsp := by
    have hoff : stack.offset (s.reg .rsp - 16) = stack.offset (s.reg .rsp) - 16 := offset_sub hroom
    rw [h.rsp, hoff]
    omega
  live a ha hle := h.mem a (not_below hdepth ha hle)

structure Ran (stack : PrivateCallStack) (getPrivateStackTop : State → State) (depth : Nat) (p : Nesting) (s : State) :
    Prop where
  rsp : (p.exec alu getPrivateStackTop s).reg .rsp = s.reg .rsp
  mem : Frame (s.reg .rsp) (p.need depth) s.mem (p.exec alu getPrivateStackTop s).mem
  safe : p.Safe alu getPrivateStackTop stack s

theorem Nesting.ran (h : GetsTop stack depth getPrivateStackTop) (p : Nesting) (s : State)
    (hin : stack.Inside (s.reg .rsp)) (hneed : p.need depth ≤ stack.offset (s.reg .rsp))
    (hw : ∀ q ∈ p.compared (s.reg .rsp), SameWindow q stack.top) : Ran alu stack getPrivateStackTop depth p s := by
  unfold PrivateCallStack.Inside privateStackSize at hin
  induction p generalizing s with
  | done => exact ⟨rfl, .refl _ _ _, trivial⟩
  | push value body rest ihBody ihRest =>
    rw [need, Nat.max_le] at hneed
    simp only [compared, List.mem_append] at hw
    have hoff : stack.offset (s.reg .rsp - 8) = stack.offset (s.reg .rsp) - 8 := offset_sub (by change 8 ≤ _; omega)
    have hrsp : (s.push value).reg .rsp = s.reg .rsp - 8 := by simp
    obtain ⟨hrsp₁, hmem₁, hsafe₁⟩ := ihBody (s.push value) (by rw [hrsp, hoff]; omega) (by rw [hrsp, hoff]; omega)
      (fun q hq => hw q (.inl (hrsp ▸ hq)))
    have hrsp₂ : ((body.exec alu getPrivateStackTop (s.push value)).drop 8).reg .rsp = s.reg .rsp := by
      rw [drop_reg, if_pos rfl, hrsp₁, hrsp]
      bv_omega
    obtain ⟨hrsp₃, hmem₃, hsafe₃⟩ := ihRest ((body.exec alu getPrivateStackTop (s.push value)).drop 8)
      (by rw [hrsp₂]; omega) (by rw [hrsp₂]; omega) (fun q hq => hw q (.inr (hrsp₂ ▸ hq)))
    rw [hrsp, push_mem] at hmem₁
    rw [hrsp₂] at hrsp₃ hmem₃
    refine ⟨hrsp₃, ?_, hsafe₁, hsafe₃⟩
    exact (hmem₁.push (Nat.le_max_left _ _)).trans (hmem₃.mono (Nat.le_max_right _ _))
  | enter entered exited body rest ihBody ihRest =>
    rw [need, Nat.max_le, Nat.max_le] at hneed
    simp only [compared, List.mem_cons, List.mem_append] at hw
    have hoff : stack.offset (s.reg .rsp - 16) = stack.offset (s.reg .rsp) - 16 := offset_sub (by change 16 ≤ _; omega)
    have hst := callEnter_stays alu entered h (hw _ (.inl rfl))
    obtain ⟨hrsp₁, hmem₁, hsafe₁⟩ := ihBody (callEnter alu getPrivateStackTop entered s)
      (by rw [hst.rsp, hoff]; omega) (by rw [hst.rsp, hoff]; omega) (fun q hq => hw q (.inr (.inl (hst.rsp ▸ hq))))
    obtain ⟨hrsp₂, hrip₂, hmem₂⟩ := callExit_spec alu exited
      (body.exec alu getPrivateStackTop (callEnter alu getPrivateStackTop entered s))
    have hsaved : (body.exec alu getPrivateStackTop (callEnter alu getPrivateStackTop entered s)).top = s.reg .rsp := by
      rw [State.top, hrsp₁, hmem₁.read_eq (by bv_omega), hst.saved]
    rw [hsaved] at hrsp₂
    obtain ⟨hrsp₃, hmem₃, hsafe₃⟩ := ihRest _ (by rw [hrsp₂]; omega) (by rw [hrsp₂]; omega)
      (fun q hq => hw q (.inr (.inr (hrsp₂ ▸ hq))))
    rw [hrsp₂] at hrsp₃ hmem₃
    rw [hst.rsp] at hrsp₁ hmem₁
    rw [hrsp₁] at hmem₂
    refine ⟨hrsp₃, ?_, hst.staysBelow h.depth_le (by omega), hst.rip, hsafe₁, hrsp₂, hrip₂, hsafe₃⟩
    have henter := hst.mem.mono (Nat.le_max_left (24 + depth) (16 + max 8 (body.need depth)))
    have hbody : Frame (s.reg .rsp) (max (24 + depth) (16 + max 8 (body.need depth))) _ _ :=
      hmem₁.lower (by change 16 + _ ≤ _; omega)
    have hexit : Frame (s.reg .rsp) (max (24 + depth) (16 + max 8 (body.need depth))) _ _ :=
      hmem₂.lower (by change 16 + _ ≤ _; omega)
    exact ((henter.trans (hbody.trans hexit)).mono (Nat.le_max_left _ _)).trans (hmem₃.mono (Nat.le_max_right _ _))

theorem Nesting.compared_of_safe (h : GetsTop stack depth getPrivateStackTop) (p : Nesting) (s : State)
    (hin : stack.Inside (s.reg .rsp)) (hneed : p.need depth ≤ stack.offset (s.reg .rsp))
    (hsafe : p.Safe alu getPrivateStackTop stack s) :
    (p.exec alu getPrivateStackTop s).reg .rsp = s.reg .rsp ∧ ∀ q ∈ p.compared (s.reg .rsp), SameWindow q stack.top := by
  unfold PrivateCallStack.Inside privateStackSize at hin
  induction p generalizing s with
  | done => exact ⟨rfl, nofun⟩
  | push value body rest ihBody ihRest =>
    rw [need, Nat.max_le] at hneed
    obtain ⟨hbody, hrest⟩ := hsafe
    have hoff : stack.offset (s.reg .rsp - 8) = stack.offset (s.reg .rsp) - 8 := offset_sub (by change 8 ≤ _; omega)
    have hrsp : (s.push value).reg .rsp = s.reg .rsp - 8 := by simp
    obtain ⟨hrsp₁, hw₁⟩ := ihBody (s.push value) (by rw [hrsp, hoff]; omega) (by rw [hrsp, hoff]; omega) hbody
    have hrsp₂ : ((body.exec alu getPrivateStackTop (s.push value)).drop 8).reg .rsp = s.reg .rsp := by
      rw [drop_reg, if_pos rfl, hrsp₁, hrsp]
      bv_omega
    obtain ⟨hrsp₃, hw₃⟩ := ihRest _ (by rw [hrsp₂]; omega) (by rw [hrsp₂]; omega) hrest
    rw [hrsp₂] at hrsp₃ hw₃
    rw [hrsp] at hw₁
    exact ⟨hrsp₃, fun q hq => (List.mem_append.mp hq).elim (hw₁ q) (hw₃ q)⟩
  | enter entered exited body rest ihBody ihRest =>
    rw [need, Nat.max_le, Nat.max_le] at hneed
    obtain ⟨hbelow, _, hbody, hrsp₂, _, hrest⟩ := hsafe
    have hoff : stack.offset (s.reg .rsp - 16) = stack.offset (s.reg .rsp) - 16 := offset_sub (by change 16 ≤ _; omega)
    have hw : SameWindow (s.reg .rsp - 16) stack.top := by
      by_contra hne
      have hle := hbelow.rsp
      rw [(callEnter_switches alu entered h hne).1.rsp, offset_top] at hle
      omega
    have hst := callEnter_stays alu entered h hw
    obtain ⟨_, hw₁⟩ := ihBody _ (by rw [hst.rsp, hoff]; omega) (by rw [hst.rsp, hoff]; omega) hbody
    obtain ⟨hrsp₃, hw₃⟩ := ihRest _ (by rw [hrsp₂]; omega) (by rw [hrsp₂]; omega) hrest
    rw [hrsp₂] at hrsp₃ hw₃
    rw [hst.rsp] at hw₁
    refine ⟨hrsp₃, fun q hq => ?_⟩
    rcases List.mem_cons.mp hq with rfl | hq
    · exact hw
    · exact (List.mem_append.mp hq).elim (hw₁ q) (hw₃ q)

/-! ## From a native stack -/

theorem callEnter_landing (entered : Word) (h : GetsTop stack depth getPrivateStackTop)
    (hout : stack.Outside (s.reg .rsp - 8)) :
    let s₁ := Nesting.callEnter alu getPrivateStackTop entered s
    s₁.reg .rsp = stack.landing (s.reg .rsp) ∧ s₁.top = s.reg .rsp ∧ s₁.rip = entered := by
  unfold PrivateCallStack.landing
  split
  · next hw =>
      obtain ⟨hrsp, hsaved, hrip, _⟩ := callEnter_stays alu entered h hw
      exact ⟨hrsp, hsaved, hrip⟩
  · next hw =>
      obtain ⟨⟨hrsp, hsaved, _⟩, hrip⟩ := callEnter_switches alu entered h hw
      exact ⟨hrsp, hsaved, hrip hout⟩

theorem offset_landing {rsp : Word} (hout : stack.Outside (rsp - 8)) (hin : stack.Inside (stack.landing rsp)) :
    24560 ≤ stack.offset (stack.landing rsp) := by
  unfold PrivateCallStack.landing at hin ⊢
  split
  · next hw =>
      rw [if_pos hw] at hin
      obtain ⟨hlo, _⟩ := hout
      unfold PrivateCallStack.Inside PrivateCallStack.offset at *
      unfold privateStackSize at *
      bv_omega
  · exact Nat.le_of_eq offset_top.symm

end Granary.Gencode
