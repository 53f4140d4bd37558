import Granary.Gencode.Lemmas.ArithFlags
import Granary.Gencode.Lemmas.CallArguments
import Granary.Gencode.Lemmas.IndirectBranch
import Granary.Gencode.Lemmas.PatchInstruction
import Granary.Gencode.Lemmas.SaveRegions

/-!
# What the generated code and the assembly routines guarantee
-/

namespace Granary.Gencode

open Machine

/-! ## Private stacks -/

/-- A call of `granary_enter_private_stack` from a native stack, and the nested calls until the exit, are safe exactly when
the first call finds that it is not on the private stack, or lands there anyway, and each nested call finds that it is. -/
theorem safeSession_iff (alu : Instr → State → Word) (getPrivateStackTop : State → State) (stack : PrivateCallStack)
    (depth : Nat) (h : GetsTop stack depth getPrivateStackTop) (entered exited : Word)
    (body : Nesting) (s : State) (hfits : 16 + max 8 (body.need depth) ≤ privateStackSize)
    (hout : stack.Outside (s.reg .rsp - 8)) :
    SafeSession alu getPrivateStackTop stack entered exited body s ↔
      stack.Inside (stack.landing (s.reg .rsp)) ∧
        ∀ q ∈ body.compared (stack.landing (s.reg .rsp)), SameWindow q stack.top := by
  obtain ⟨hrsp, htop, hrip⟩ := callEnter_landing alu entered h hout
  have hneed : stack.Inside (stack.landing (s.reg .rsp)) → body.need depth ≤ stack.offset (stack.landing (s.reg .rsp)) := by
    intro hin
    have := offset_landing hout hin
    unfold privateStackSize at hfits
    omega
  rw [← hrsp] at hneed ⊢
  constructor
  · rintro ⟨hin, _, hsafe, _⟩
    exact ⟨hin, (Nesting.compared_of_safe alu h body _ hin (hneed hin) hsafe).2⟩
  · rintro ⟨hin, hw⟩
    obtain ⟨hrsp₁, hmem₁, hsafe⟩ := Nesting.ran alu h body _ hin (hneed hin) hw
    obtain ⟨hrsp₂, hrip₂, _⟩ := callExit_spec alu exited
      (body.exec alu getPrivateStackTop (Nesting.callEnter alu getPrivateStackTop entered s))
    refine ⟨hin, hrip, hsafe, hrsp₂.trans ?_, hrip₂⟩
    rw [State.top, hrsp₁, hmem₁.read_eq (by unfold privateStackSize at hfits; bv_omega)]
    exact htop

/-- A private stack whose addresses all have the same high 48 bits. -/
def lowStack : PrivateCallStack := { base := 0x10000, aligned := by decide, fits := by decide }

def crossingStack : PrivateCallStack := { base := 0x1a000, aligned := by decide, fits := by decide }

def topOf (stack : PrivateCallStack) (s : State) : State := ((s.push 0x400000).drop 8).set .rax stack.top

theorem topOf_getsTop (stack : PrivateCallStack) : GetsTop stack 8 (topOf stack) where
  depth_le := by decide
  rax s := by simp [topOf]
  rsp s := by simp [topOf]
  mem s := frame_write _ _ _

def stateAt (rsp : Word) : State :=
  { reg := fun r => if r = .rsp then rsp else 0, flags := 2, rip := 0, mem := fun _ => 0 }

def oneNested : Nesting := .push 7 (.enter 0x500010 0x500015 .done .done) .done

theorem safeSession_of_lowStack :
    SafeSession (fun _ _ => 0) (topOf lowStack) lowStack 0x500000 0x500005 oneNested (stateAt 0x7fff0000) := by
  have hfits : 16 + max 8 (oneNested.need 8) ≤ privateStackSize := by decide +kernel
  have hout : lowStack.Outside ((stateAt 0x7fff0000).reg .rsp - 8) := by decide +kernel
  have hin : lowStack.Inside (lowStack.landing ((stateAt 0x7fff0000).reg .rsp)) := by decide +kernel
  have hw : ∀ q ∈ oneNested.compared (lowStack.landing ((stateAt 0x7fff0000).reg .rsp)), SameWindow q lowStack.top := by
    have hq : oneNested.compared (lowStack.landing ((stateAt 0x7fff0000).reg .rsp)) = [0x15fd8] := by decide +kernel
    rw [hq]
    exact List.forall_mem_singleton.mpr (by decide +kernel)
  exact (safeSession_iff _ _ _ 8 (topOf_getsTop lowStack) _ _ _ _ hfits hout).mpr ⟨hin, hw⟩

/-- On a private stack that ends where the high 48 bits change, a nested call goes back to its top and the saved stack pointer
is lost. A call from a native stack near the private stack does not leave it. -/
theorem nested_enter_overwrites :
    (crossingStack.Outside (0x7fff0000 - 8) ∧
      ¬ SafeSession (fun _ _ => 0) (topOf crossingStack) crossingStack 0x500000 0x500005
        (.enter 0x500010 0x500015 .done .done) (stateAt 0x7fff0000)) ∧
    lowStack.Outside (0x1f000 - 8) ∧
      ¬ SafeSession (fun _ _ => 0) (topOf lowStack) lowStack 0x500000 0x500005 .done (stateAt 0x1f000) := by
  refine ⟨⟨by decide, fun h => ?_⟩, by decide, fun h => ?_⟩
  · have hne : (Nesting.callExit (fun _ _ => 0) 0x500005 (Nesting.exec (fun _ _ => 0) (topOf crossingStack)
        (.enter 0x500010 0x500015 .done .done) (Nesting.callEnter (fun _ _ => 0) (topOf crossingStack) 0x500000
          (stateAt 0x7fff0000)))).reg .rsp ≠ 0x7fff0000 := by decide +kernel
    exact hne h.2.2.2.1
  · have hnot : ¬ lowStack.Inside ((Nesting.callEnter (fun _ _ => 0) (topOf lowStack) 0x500000
        (stateAt 0x1f000)).reg .rsp) := by decide +kernel
    exact hnot h.1

/-! ## Direct branches -/

/-- The stub of a direct branch is transparent in user space exactly if it is never sent back to its call instruction. In the
kernel it is for any number of retries, if the stack is switched properly. -/
theorem dblLookupStub_transparent (alu : Instr → State → Word) (build : Build) (sites : CallSites)
    (getPrivateStackTop : State → State) (callPc target : Word) (hne : target ≠ callPc) (depth : Nat)
    (hdepth : 512 + depth ≤ 2 ^ 64) (retries : List (State → State)) (last : State → State)
    (hretries : ∀ p ∈ retries, PatchReturns depth callPc p) (hlast : PatchReturns depth target last) (s : State) :
    let s₁ := run alu (shiftRedzone build) s
    let s' := dblLookupStub alu build sites getPrivateStackTop callPc (retries ++ [last]) s
    let spares := SparesRedzone alu build sites getPrivateStackTop callPc (s.reg .rsp) (retries ++ [last]) s₁
    (build.kernel = false → (Transparent build target s s' ∧ spares ↔ retries = [])) ∧
      (build.kernel = true → ∀ (stack : PrivateCallStack) (topDepth : Nat), GetsTop stack topDepth getPrivateStackTop →
        SwitchOk stack getPrivateStackTop depth (s.reg .rsp) → Transparent build target s s' ∧ spares) := by
  have hroom : 256 + depth ≤ 2 ^ 64 := by omega
  have hfar : (128 : Word).toNat + (256 + depth) ≤ 2 ^ 64 := by
    change 128 + _ ≤ _
    omega
  intro s₁ s' spares
  have hs₁ : s₁ = s.set .rsp (s.reg .rsp - BitVec.ofNat 64 build.redzoneSize) := run_shiftRedzone alu build s
  constructor
  · intro hk
    have hsize := redzoneSize_user hk
    have hrsp₁ : s₁.reg .rsp = s.reg .rsp - 128 := by rw [hs₁, set_reg, if_pos rfl, hsize]; rfl
    constructor
    · rintro ⟨_, hspares⟩
      have hspares' : SparesRedzone alu build sites getPrivateStackTop callPc (s₁.reg .rsp + 128) (retries ++ [last]) s₁ := by
        rwa [hrsp₁, BitVec.sub_add_cancel]
      exact retries_eq_nil alu sites callPc hk hroom hretries hspares'
    · rintro rfl
      obtain ⟨hret, hframe⟩ := stubCall_user alu sites callPc getPrivateStackTop hk hroom hlast s₁
      have hs' : s' = stubCall alu build sites getPrivateStackTop callPc last s₁ :=
        stubCalls_last alu sites callPc [] (hret.rip ▸ hne)
      rw [← hs', hrsp₁] at hframe
      rw [← hs'] at hret
      have hmem₁ : s₁.mem = s.mem := by rw [hs₁, set_mem]
      refine ⟨⟨hret.reg_eq, hret.flags_eq, hret.rip, fun a ha => ?_⟩, fun a ha hb => ?_, fun _ => trivial⟩
      · rw [hsize] at ha
        rw [← hmem₁]
        exact hframe a (ha.apart (by decide) hfar)
      · rw [hsize] at hb
        rw [hrsp₁] at ha
        exact hb.apart (d := 128) (by decide) (by decide) (ha.below (Nat.le_refl 8) (Nat.le_refl 8))
  · intro hk stack topDepth htop hok
    have hrsp₁ : s₁.reg .rsp = s.reg .rsp := by rw [hs₁, set_reg, if_pos rfl, redzoneSize_kernel hk, BitVec.sub_zero]
    have hret := stubCalls_kernel alu sites callPc (s := s₁) hk htop (hrsp₁ ▸ hok) hretries hlast hne
    refine ⟨⟨hret.reg_eq, hret.flags_eq, hret.rip, fun a ha => ?_⟩, sparesRedzone_kernel alu sites callPc hk _ _ _⟩
    rw [redzoneSize_kernel hk] at ha
    exact absurd ha (Nat.not_lt_zero _)

/-- A call of `patch_instruction` that only sets the return address. -/
def patchTo (value : Word) (s : State) : State := { s with mem := s.mem.write (s.reg .rdi) value }

theorem patchTo_returns (value : Word) : PatchReturns 8 value (patchTo value) where
  rsp _ := rfl
  saved _ _ _ := rfl
  value _ := read_write_self ..
  mem _ := Only.mono (only_write) fun _ => .inr

def nearSites : CallSites :=
  { farEnter := false, farPatch := false, farExit := true, enterPc := 0x600000, patchPc := 0x600100, exitPc := 0x600200,
    entered := 0x500010, exited := 0x500020 }

theorem dblLookupStub_transparent_twice :
    Transparent ⟨true, false⟩ 0x700001 (stateAt 0x7fff0000) (dblLookupStub (fun _ _ => 0) ⟨true, false⟩ nearSites
      (topOf lowStack) 0x500100 [patchTo 0x500100, patchTo 0x700001] (stateAt 0x7fff0000)) := by
  have hok : SwitchOk lowStack (topOf lowStack) 8 ((stateAt 0x7fff0000).reg .rsp) := by
    refine ⟨.inr (by decide +kernel), by decide, fun s r hrax _ _ => ?_⟩
    simp only [topOf, set_reg, drop_reg, push_reg, hrax, reduceIte, BitVec.sub_add_cancel]
    split <;> simp_all
  exact ((dblLookupStub_transparent _ ⟨true, false⟩ nearSites (topOf lowStack) 0x500100 0x700001 (by decide) 8 (by decide)
    [patchTo 0x500100] (patchTo 0x700001) (List.forall_mem_singleton.mpr (patchTo_returns _)) (patchTo_returns _) _).2 rfl
    lowStack 8 (topOf_getsTop lowStack) hok).1

/-- One retry in user space leaves the stack pointer 128 bytes too high. In the kernel a helper may change `rcx`. -/
theorem dblLookupStub_retry_shifts :
    (let s' := dblLookupStub (fun _ _ => 0) ⟨false, false⟩ nearSites (topOf lowStack) 0x500100
        [patchTo 0x500100, patchTo 0x700001] (stateAt 0x7fff0000);
      s'.rip = 0x700001 ∧ s'.reg .rsp = 0x7fff0080 ∧ Below 0x7fff0000 128 0x7ffefff8 ∧
        s'.mem 0x7ffefff8 ≠ (stateAt 0x7fff0000).mem 0x7ffefff8) ∧
    GetsTop lowStack 8 (fun s => (topOf lowStack s).set .rcx 5) ∧
      (dblLookupStub (fun _ _ => 0) ⟨true, false⟩ nearSites (fun s => (topOf lowStack s).set .rcx 5) 0x500100
        [patchTo 0x700001] (stateAt 0x7fff0000)).reg .rcx ≠ (stateAt 0x7fff0000).reg .rcx := by
  refine ⟨⟨by decide +kernel, by decide +kernel, by decide +kernel, by decide +kernel⟩, ?_, by decide +kernel⟩
  exact ⟨by decide, fun s => by simp [topOf], fun s => by simp [topOf], fun s => frame_write _ _ _⟩

/-- Any number of CPUs patch a direct branch safely, however their steps interleave. -/
theorem patchSafe_of_reachable {Cpu : Type} [DecidableEq Cpu] (finds : Word → Word → Prop) (patch : DirectBranchPatchInfo)
    (s : PatchState Cpu) (h : PatchReachable finds patch s) : PatchSafe finds patch s := by
  have hinv := h.inv
  obtain ⟨honce, hfound, hrel, hwrites⟩ := hinv.shared
  refine ⟨honce, hfound, ?_, fun w hw w' hw' => ?_, fun hdone => ?_, fun c hc => hinv.knows_at hc,
    fun s' c hs hc hc' => hinv.returns hs hc hc'⟩
  · refine hrel.imp_right fun ⟨v, hv, he⟩ => ⟨v, hv, he, fun hreach => ?_⟩
    rw [he, ctiTarget_newRel32 hreach]
  · obtain ⟨v, hv, rfl⟩ := hwrites w hw
    obtain ⟨v', hv', rfl⟩ := hwrites w' hw'
    rw [Option.some.inj (hv.symm.trans hv')]
  · rw [← Bool.not_eq_true, hinv.holder]
    rintro ⟨c, hc⟩
    have hd := hdone c
    cases hpc : s.pc c <;> rw [hpc] at hc hd <;> first | exact hc.elim | exact hd.elim

/-- A branch at `0x600000` whose stub is 16 bytes after it. -/
def oneBranch : DirectBranchPatchInfo :=
  { targetAddress := 0x12340, indirectCall := 0x600015, patchAddress := 0x600000, ctiLen := 5, rel32 := 11 }

/-- Two CPUs, the second of which finds the lock taken. -/
theorem patchSafe_of_two :
    ∃ s : PatchState (Fin 2), s.pc 0 = .recheck ∧ s.pc 1 = .failed ∧ PatchSafe (fun _ v => v = 0x700000) oneBranch s := by
  let s₁ := ((PatchState.init oneBranch fun _ : Fin 2 => 0).goto 0 .load).setRet 0 0x600015
  let s₂ : PatchState (Fin 2) := { (s₁.goto 0 .exchange).goto 0 .recheck with locked := true }
  let s₃ := (s₂.goto 1 .load).setRet 1 0x600015
  have h₁ : PatchReachable (fun _ v => v = 0x700000) oneBranch s₁ := .step (.init _) (.enter 0 rfl)
  have h₂ : PatchReachable (fun _ v => v = 0x700000) oneBranch s₂ :=
    .step (.step h₁ (.loadFree 0 rfl rfl)) (.acquire 0 rfl rfl)
  have h₃ : PatchReachable (fun _ v => v = 0x700000) oneBranch s₃ := .step h₂ (.enter 1 rfl)
  exact ⟨s₃.goto 1 .failed, rfl, rfl, patchSafe_of_reachable _ _ _ (.step h₃ (.loadLocked 1 rfl rfl))⟩

/-! ## Indirect branches -/

/-- Following the jump table from the stub of an indirect branch reaches the routine that was installed last for its mangled
address, which takes the branch, or else the global lookup routine. Every routine on the way finds what it expects. -/
theorem follow_reaches_mostRecent (alu : Instr → State → Word) (jumpTable globalCodeCacheRoutine : Word)
    (installs : List Install) (hfresh : (globalCodeCacheRoutine :: installs.map (·.routine)).Nodup) (build : Build)
    (kind : IblEntryKind) (policy : BitVec 16) (blockInstr : Word) (s : State) (fuel : Nat) (hfuel : installs.length ≤ fuel) :
    let ibl := installs.foldl iblExitRoutine (Ibl.init jumpTable globalCodeCacheRoutine)
    let mangled := mangledAddress build policy (kind.target s)
    let states := ibl.follow alu fuel (iblLookupStub alu ibl build kind policy blockInstr s)
    (∀ t ∈ states, Arrives (kind.native s) mangled blockInstr t) ∧
      ∃ t, states.getLast? = some t ∧
        match mostRecent installs mangled with
        | some i => t.rip = i.routine ∧ ∃ r, ibl.code t.rip = some r ∧
            zf (r.check alu t).flags = true ∧ TakenTo (kind.native s) i.instrumentedTargetPc (r.hit alu (r.check alu t))
        | none => t.rip = globalCodeCacheRoutine := by
  intro ibl mangled states
  obtain ⟨hholds, hglobal⟩ := Ibl.holds_foldl (Ibl.holds_init jumpTable globalCodeCacheRoutine) installs hfresh
  rw [List.append_nil] at hholds
  obtain ⟨harrives, hrip⟩ := iblLookupStub_arrives alu ibl build kind policy blockInstr s
  have hchain := hholds.chain _ (iblHash_lt mangled)
  rw [← hrip] at hchain
  have hlen : (installs.reverse.filter (iblHash ·.mangledTargetPc = iblHash mangled)).length ≤ fuel :=
    Nat.le_trans (List.length_filter_le ..) (by rwa [List.length_reverse])
  obtain ⟨hall, t, hlast, ht⟩ := Ibl.follow_spec alu (fun i hi => hholds.code i (List.mem_filter.mp hi).1) hholds.global hchain
    harrives fuel hlen
  rw [find?_filter_iblHash, hglobal] at ht
  refine ⟨hall, t, hlast, ?_⟩
  unfold mostRecent
  cases hfind : installs.reverse.find? (·.mangledTargetPc = mangled) with
  | none =>
    rw [hfind] at ht
    exact ht
  | some i =>
    replace ht : t.rip = i.routine := by rwa [hfind] at ht
    obtain ⟨prev, hcode⟩ := hholds.code i (List.mem_of_find?_eq_some hfind)
    have hm : i.mangledTargetPc = mangled := by simpa using List.find?_some hfind
    have hat := hall t (List.mem_of_getLast? hlast)
    refine ⟨ht, ⟨i.mangledTargetPc, i.instrumentedTargetPc, prev⟩, ht ▸ hcode, ?_,
      hat.hit alu ⟨i.mangledTargetPc, i.instrumentedTargetPc, prev⟩⟩
    rw [check_zf alu hat]
    exact decide_eq_true hm

/-- Three routines of which two have the same hash, and the third is the second one again. -/
def threeInstalls : List Install := [⟨0x12340, 0x700000, 0x500000⟩, ⟨0x52340, 0x700100, 0x500040⟩, ⟨0x12340, 0x700200, 0x500080⟩]

theorem follow_reaches_mostRecent_three :
    let ibl := threeInstalls.foldl iblExitRoutine (Ibl.init 0x900000 0x400000)
    mostRecent threeInstalls (mangledAddress ⟨false, false⟩ 0 0x52340) = some ⟨0x52340, 0x700100, 0x500040⟩ ∧
      ∃ t, (ibl.follow (fun _ _ => 0) 3
        (iblLookupStub (fun _ _ => 0) ibl ⟨false, false⟩ (.branch 0x52340) 0 0x8000 (stateAt 0x7fff0000))).getLast? = some t ∧
        t.rip = 0x500040 := by
  have hrecent : mostRecent threeInstalls (mangledAddress ⟨false, false⟩ 0 0x52340) =
      some ⟨0x52340, 0x700100, 0x500040⟩ := by decide +kernel
  obtain ⟨_, t, hlast, ht⟩ := follow_reaches_mostRecent (fun _ _ => 0) 0x900000 0x400000 threeInstalls (by decide +kernel)
    ⟨false, false⟩ (.branch 0x52340) 0 0x8000 (stateAt 0x7fff0000) 3 (by decide)
  rw [show mangledAddress ⟨false, false⟩ 0 (IblEntryKind.target (.branch 0x52340) (stateAt 0x7fff0000)) =
    mangledAddress ⟨false, false⟩ 0 0x52340 from rfl, hrecent] at ht
  exact ⟨hrecent, t, hlast, ht.1⟩

/-- The stub and `mangled_address` agree exactly when the high bits of the address make no difference: in user space the
policy is added to them, in the kernel they are masked. -/
theorem iblAgrees_iff (alu : Instr → State → Word) (ibl : Ibl) (build : Build) (policy : Policies.PolicyBits)
    (blockInstr : Word) (s : State) :
    IblAgrees alu ibl build policy blockInstr s ↔
      (if build.kernel then Policies.MangledBits.policyBits (s.reg .rdi) &&& policy
        else Policies.MangledBits.policyBits (s.reg .rdi) ||| policy) = policy := by
  obtain ⟨hrdi, _, _⟩ := mangleTarget_spec alu build policy s
  obtain ⟨hrax, _, _, _⟩ := hashTarget_spec alu ibl.jumpTable blockInstr (run alu (mangleTarget build policy) s)
  rw [← mangledAddress_eq_ofAddress_iff, ← hrdi]
  constructor
  · intro h
    exact h.value
  · intro hvalue
    have hindex : (run alu (mangleTarget build policy ++ hashTarget ibl.jumpTable blockInstr) s).reg .rax =
        ibl.entryAddr (iblHash (Policies.MangledBits.ofAddress (s.reg .rdi) policy)) := by
      rw [run_append, hrax, hvalue, Ibl.entryAddr]
    refine ⟨hvalue, hindex, iblHash_lt _, fun i hi => ?_⟩
    rw [hindex, ← hi]
    exact Function.update_self ..

/-- An address of the kernel's half, in user space: the stub's address has all policy bits set. -/
theorem not_iblAgrees_high_half :
    BitField.get 47 17 (0xffffffffff600000 : Word) = BitVec.allOnes 17 ∧
      mangledAddress ⟨false, false⟩ 0x0100 0xffffffffff600000 = 0xffffffffff600000 ∧
      ¬ IblAgrees (fun _ _ => 0) (.init 0x600000 0x700000) ⟨false, false⟩ 0x0100 0x500000
        ((stateAt 0x8000).set .rdi 0xffffffffff600000) := by
  refine ⟨by decide, by decide, fun h => ?_⟩
  have hvalue := h.value
  rw [(mangleTarget_spec _ _ _ _).1, mangledAddress_eq_ofAddress_iff] at hvalue
  exact absurd hvalue (by decide)

/-! ## Arithmetic flags -/

/-- All is back after the restore exactly when the code between leaves OF as it was: LAHF and SAHF do not transfer it. -/
theorem roundTrip_iff (alu : Machine.Instr → State → Word) (constraint : FlagSaveConstraint) (body : State → State)
    (s : State) (h : Balanced alu constraint body s) :
    RoundTrip alu constraint body s ↔ of (body (saved alu constraint s)).flags = of s.flags := by
  constructor
  · intro hround
    exact (aroundBody_flags h).mp hround.flags
  · intro hof
    exact ⟨(aroundBody_flags h).mpr hof, aroundBody_rsp h, aroundBody_reg h⟩

/-- Code that leaves these flags behind and changes nothing else. -/
def leaveFlags (flags : Word) (s : State) : State := { s with flags := flags }

theorem leaveFlags_balanced (alu : Machine.Instr → State → Word) (constraint : FlagSaveConstraint) (flags : Word)
    (s : State) : Balanced alu constraint (leaveFlags flags) s := ⟨rfl, rfl⟩

def stateWith (flags : Word) : State := leaveFlags flags (stateAt 0x8000)

theorem roundTrip_of_clearing_carry : RoundTrip (fun _ _ => 0) .regAhIsLive (leaveFlags 2) (stateWith 3) :=
  (roundTrip_iff _ _ _ _ (leaveFlags_balanced (fun _ _ => 0) .regAhIsLive 2 (stateWith 3))).mpr
    (by change of 2 = of 3; decide)

/-- Code that clears OF. -/
theorem not_roundTrip_of_clearing_overflow :
    Balanced (fun _ _ => 0) .regAhIsLive (leaveFlags 2) (stateWith 0x802) ∧
      ¬ RoundTrip (fun _ _ => 0) .regAhIsLive (leaveFlags 2) (stateWith 0x802) := by
  have hbalanced := leaveFlags_balanced (fun _ _ => 0) .regAhIsLive 2 (stateWith 0x802)
  refine ⟨hbalanced, fun hround => ?_⟩
  have hof : of 2 = of 0x802 := (aroundBody_flags hbalanced).mp hround.flags
  exact absurd hof (by decide)

/-! ## Clean calls -/

/-- Clean calls with at most five arguments change nothing exactly if the search finds `rax` and the XMM registers that the
function, or one that it calls, changes. -/
theorem cleanCalls_iff (kernel : Bool) (body : Registers.FunctionBody) (numArgs : Nat) (clobbers : Clobbers) :
    CleanCalls kernel body numArgs clobbers ↔
      numArgs ≤ 5 ∧
      (clobbers.gpr .rax → body.GivesUp .ignoreCalls ∨
        ∃ pc, body.Followed .ignoreCalls pc ∧ (body.code pc).kills .rax = true) ∧
      (kernel = false → ∀ x, clobbers.xmm x → body.GivesUp .ignoreCalls ∨
        ∃ pc, body.Followed .ignoreCalls pc ∧ (body.code pc).killsXmm x = true) := by
  obtain ⟨used, n, -, hfinds⟩ := body.exists_finds .ignoreCalls
  rw [CleanCall.cleanCalls_iff_finds hfinds, hfinds.gpr .rax (by decide)]
  simp only [hfinds.xmm]

/-- `mov eax, 1; ret` -/
def leafBody : Registers.FunctionBody where
  code pc :=
    if pc = 1 then .ofTail .next [.reg (.gpr .rax .w32)] 4
    else .ofTail .ret [.reg (.gpr .rsp .w64)] 0
  entry := 1
  pcs := {1, 6}
  entry_mem := by decide
  closed := by decide
  null := by decide

/-- `call 16; ret`, and at 16 `mov eax, 1; movaps xmm15, xmm0; ret` -/
def callingBody : Registers.FunctionBody where
  code pc :=
    if pc = 1 then .ofTail (.call (some 16)) [.reg (.gpr .rsp .w64)] 4
    else if pc = 16 then .ofTail .next [.reg (.gpr .rax .w32)] 4
    else if pc = 21 then .ofTail .next [.reg (.xmm (Fin.last 15))] 2
    else .ofTail .ret [.reg (.gpr .rsp .w64)] 0
  entry := 1
  pcs := {1, 6, 16, 21, 24}
  entry_mem := by decide
  closed := by decide
  null := by decide

theorem cleanCalls_leafBody : CleanCalls false leafBody 2 { gpr := (· = .rax), xmm := fun _ => False } :=
  (cleanCalls_iff false leafBody 2 _).mpr ⟨by decide, fun _ => .inr ⟨1, .refl, by decide⟩, fun _ _ hx => hx.elim⟩

/-- What functions change that the function calls is not saved, and there is no code for six arguments. -/
theorem not_cleanCalls_calling : ¬ CleanCalls true callingBody 0 { gpr := (· = .rax), xmm := fun _ => False } ∧
    ¬ CleanCalls false callingBody 0 { gpr := fun _ => False, xmm := (· = Fin.last 15) } ∧
    ¬ CleanCalls true leafBody 6 { gpr := (· = .rax), xmm := fun _ => False } := by
  obtain ⟨used, n, -, hfinds⟩ := callingBody.exists_finds .ignoreCalls
  have hfollowed : ∀ pc, callingBody.Followed .ignoreCalls pc → pc = 1 ∨ pc = 6 := by
    intro pc hpc
    induction hpc with
    | refl => exact .inl rfl
    | tail _ hq ih =>
      rcases ih with rfl | rfl <;>
        simp [callingBody, Registers.Decoded.ofTail, Registers.Decoded.targets, Registers.Decoded.goesOn] at hq
      exact .inr hq.symm
  have hmissed : ∀ pc, callingBody.Followed .ignoreCalls pc →
      (callingBody.code pc).stops .ignoreCalls = false ∧ (callingBody.code pc).kills .rax = false ∧
        (callingBody.code pc).killsXmm (Fin.last 15) = false := by
    intro pc hpc
    rcases hfollowed pc hpc with rfl | rfl <;> decide
  refine ⟨fun h => ?_, fun h => ?_, fun h => ?_⟩
  · have hdead := ((CleanCall.cleanCalls_iff_finds hfinds).mp h).2.1 rfl
    rcases (hfinds.gpr .rax (by decide)).mp hdead with ⟨pc, hpc, hpos⟩ | ⟨pc, hpc, hpos⟩
    · exact Bool.false_ne_true ((hmissed pc hpc).1.symm.trans hpos)
    · exact Bool.false_ne_true ((hmissed pc hpc).2.1.symm.trans hpos)
  · have hdead := ((CleanCall.cleanCalls_iff_finds hfinds).mp h).2.2 rfl (Fin.last 15) rfl
    rcases (hfinds.xmm (Fin.last 15)).mp hdead with ⟨pc, hpc, hpos⟩ | ⟨pc, hpc, hpos⟩
    · exact Bool.false_ne_true ((hmissed pc hpc).1.symm.trans hpos)
    · exact Bool.false_ne_true ((hmissed pc hpc).2.2.symm.trans hpos)
  · obtain ⟨used', n', -, hfinds'⟩ := leafBody.exists_finds .ignoreCalls
    exact absurd ((CleanCall.cleanCalls_iff_finds hfinds').mp h).1 (by decide)

/-! ## Arguments of clean calls -/

/-- Arguments are passed in every state exactly when they depend neither on memory, nor on `rsp`, nor on the registers of
earlier arguments. Words in memory are passed where they do not overlap what is pushed. -/
theorem cleanCallArguments_iff (alu : Instr → State → Word) (segBase : Mangle.Segment → Word) (a : CallArgs) :
    ((∀ s, PassesArguments alu segBase a s) ↔ a.Ordered ∧ ∀ arg ∈ a.args, arg.isMem = false) ∧
      (a.Ordered → ∀ regs : Reg → Word,
        (∀ s : State, s.reg = regs → PassesArguments alu segBase a s) ↔ a.Apart segBase regs) := by
  refine ⟨⟨fun h => ?_, ?_⟩, fun ha regs => ha.forall_passesArguments_iff regs⟩
  · have hmem := CallArgs.not_mem_of_forall h
    refine ⟨fun before p after hmoves r hr => ?_, hmem⟩
    have hp := hmem _ (CallArgs.mem_args_of_moves hmoves)
    cases harg : p.2 with
    | reg q =>
      rw [harg] at hr
      cases hr
      exact CallArgs.reg_of_forall h hmoves harg
    | mem op =>
      rw [harg] at hp
      cases hp
    | imm | instr =>
      rw [harg] at hr
      cases hr
  · rintro ⟨ha, hmem⟩ s
    refine ha.passesArguments_iff.mpr fun op hop => ?_
    cases hmem _ hop

theorem none_ne_rsp : (none : Option Reg) ≠ some .rsp := nofun

/-- The operand `[rax]`. -/
def atRax : Mangle.BaseDisp where
  seg := none
  base := some .rax
  index := none
  scale := 0
  disp := 0
  encodeZeroDisp := false
  forceFullDisp := false
  dispShortAddr := false
  index_ne_rsp := none_ne_rsp

def passRdiRax : CallArgs where
  args := [.reg .rdi, .mem (.baseDisp atRax)]
  length_le := by decide

theorem cleanCallArguments_iff_load :
    passRdiRax.Ordered ∧
      ((∀ s : State, s.reg = (fun _ => 0x1000) → PassesArguments (fun _ s => s.flags) (fun _ => 0) passRdiRax s) ↔
        passRdiRax.Apart (fun _ => 0) fun _ => 0x1000) := by
  have hordered : passRdiRax.Ordered := by
    intro before p after hmoves r hr
    have heq : passRdiRax.moves = [(.rdi, .reg .rdi), (.rsi, .mem (.baseDisp atRax))] := rfl
    rw [heq] at hmoves
    rcases before with _ | ⟨q, _ | ⟨q', before⟩⟩
    · obtain ⟨rfl, -⟩ : (Reg.rdi, CallArg.reg .rdi) = p ∧ _ := List.cons.inj hmoves
      have hr' : r = .rdi := hr
      exact ⟨by rw [hr']; decide, fun q hq => absurd hq List.not_mem_nil⟩
    · obtain ⟨hq, htail⟩ : (Reg.rdi, CallArg.reg .rdi) = q ∧ [(Reg.rsi, CallArg.mem (.baseDisp atRax))] = p :: after :=
        List.cons.inj hmoves
      obtain ⟨hp, -⟩ := List.cons.inj htail
      subst hq hp
      have hr' : r = .rax := hr.elim (fun h => (Option.some.inj h).symm) nofun
      refine ⟨by rw [hr']; decide, fun q hq hqr => ?_⟩
      rw [List.mem_singleton.mp hq, hr'] at hqr
      cases hqr
    · simp at hmoves
  exact ⟨hordered, (cleanCallArguments_iff _ _ _).2 hordered _⟩

/-- Pass `rsi` and `rdi`, each in the register of the other. -/
def passSwapped : CallArgs where
  args := [.reg .rsi, .reg .rdi]
  length_le := by decide

def passRsp : CallArgs where
  args := [.reg .rsp]
  length_le := by decide

def rdiOneState : State := ofRegs (fun r => if r = .rdi then 1 else 2) fun _ => 0

/-- The second argument is the first one once more, and `rsp` is passed with the value that it has after the push. -/
theorem not_passesArguments_swapped :
    (runArgs (fun _ s => s.flags) (fun _ => 0) passSwapped.beforeCall rdiOneState).reg .rsi = 2 ∧
      ¬ PassesArguments (fun _ s => s.flags) (fun _ => 0) passSwapped rdiOneState ∧
      ¬ PassesArguments (fun _ s => s.flags) (fun _ => 0) passRsp (ofRegs (fun _ => 0x8000) fun _ => 0) := by
  refine ⟨by decide, fun h => ?_, fun h => ?_⟩
  · exact absurd (h (.rsi, .reg .rdi) (List.mem_cons_of_mem _ List.mem_cons_self)) (by decide)
  · exact absurd (h (.rdi, .reg .rsp) List.mem_cons_self) (by decide)

/-! ## Regions with saved registers -/

/-- Wherever they are put, the inserted instructions save and restore the registers that the manager hands out. All registers
are on the stack as in a `simple_machine_state`. -/
theorem saveRegions_balanced (regs : SavedRegs) (c c' : Cursor) :
    (∃ save restore, regs.saveAndRestoreRegisters c = some (c.insertAround save restore) ∧
        Balances (fun _ => True) regs.gprList [] save restore) ∧
      (∃ save restore, regs.saveRegisters c = some { c with before := c.before ++ save } ∧
        regs.restoreRegisters c' = some { c' with before := c'.before ++ restore } ∧
        Balances (fun _ => True) regs.gprList [] save restore) ∧
      (∀ aligned, ∃ save restore, regs.saveAndRestoreXmmRegisters aligned c = some (c.insertAround save restore) ∧
        Balances (fun s => aligned = true → Aligned16 (s.cpu.reg .rsp)) [] regs.xmmList save restore) ∧
      ∀ liveXmm undeadXmm, ∃ save restore,
        (SavedRegs.allGprs liveXmm undeadXmm).saveAndRestoreRegisters c = some (c.insertAround save restore) ∧
        ∀ alu andFlags site callee s, ∃ t, runStub alu andFlags site callee save s = some t ∧
          ∀ r, r ≠ .rsp → t.cpu.mem.read (t.cpu.reg .rsp + BitVec.ofNat 64 (8 * machineStateIndex r)) = s.cpu.reg r := by
  have hgprs := balances_gprs regs.rsp_not_mem regs.gprList_length
  refine ⟨⟨_, _, regs.saveAndRestoreRegisters_eq c, hgprs⟩,
    ⟨_, _, regs.saveRegisters_eq c, regs.restoreRegisters_eq c', hgprs⟩,
    fun aligned => ⟨_, _, regs.saveAndRestoreXmmRegisters_eq aligned c, balances_xmms regs.xmmList_length aligned⟩,
    fun liveXmm undeadXmm => ⟨_, _, SavedRegs.saveAndRestoreRegisters_eq _ c, fun alu andFlags site callee s => ?_⟩⟩
  exact layout_allGprs andFlags site callee liveXmm undeadXmm s

/-- All registers are 1. -/
def onesState : StubState := { cpu := ⟨ofRegs (fun _ => 1) fun _ => 0, fun _ => 0⟩, entered := [] }

theorem saveRegions_balanced_rax :
    ∃ save restore, (SavedRegs.allGprs 0 0).saveAndRestoreRegisters ⟨[], []⟩ = some ⟨save, restore⟩ ∧
      ∃ t, runStub (fun _ s => s.flags) (fun s => s.flags) 0 id save onesState = some t ∧
        t.cpu.mem.read (t.cpu.reg .rsp + BitVec.ofNat 64 (8 * machineStateIndex .rax)) = 1 := by
  obtain ⟨save, restore, hcode, hrun⟩ := (saveRegions_balanced (.allGprs 0 0) ⟨[], []⟩ ⟨[], []⟩).2.2.2 0 0
  obtain ⟨t, ht, hread⟩ := hrun (fun _ s => s.flags) (fun s => s.flags) 0 id onesState
  refine ⟨save, restore, ?_, t, ht, hread .rax (by decide)⟩
  rw [hcode, Cursor.insertAround, List.nil_append, List.append_nil]

end Granary.Gencode
