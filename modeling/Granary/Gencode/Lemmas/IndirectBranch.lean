import Granary.Gencode.IndirectBranch
import Granary.Gencode.Lemmas.DirectBranch

/-!
# Chains of exit routines

Each installation puts a routine in front of the chain of its hash. A routine that does not match leaves everything as it
was found, so the state on arrival at the next one is the same.
-/

namespace Granary.Gencode

open Machine
open Policies (PolicyBits MangledBits)

attribute [local simp] ExitRoutine.check IblEntryKind.native exec loadTarget

variable (alu : Instr → State → Word) {s t native : State} {mangled source : Word}

/-! ## Hashes -/

theorem iblHash_lt (addr : Word) : iblHash addr < numIblJumpTableEntries := by
  have hlt := (addr.setWidth 16).isLt
  rw [iblHash, BitVec.toNat_ushiftRight, Nat.shiftRight_eq_div_pow, numIblJumpTableEntries]
  omega

theorem shl_shr_eq_iblHash (addr : Word) : (addr <<< 48) >>> 53 = BitVec.ofNat 64 (iblHash addr) := by
  apply BitVec.eq_of_toNat_eq
  have hlt := iblHash_lt addr
  rw [numIblJumpTableEntries] at hlt
  rw [BitVec.toNat_ofNat, Nat.mod_eq_of_lt (by omega), iblHash, BitVec.toNat_ushiftRight, BitVec.toNat_ushiftRight,
    BitVec.toNat_shiftLeft, BitVec.toNat_setWidth, Nat.shiftRight_eq_div_pow, Nat.shiftRight_eq_div_pow, Nat.shiftLeft_eq]
  omega

theorem entryAddr_inj {ibl : Ibl} {i j : Nat} (hi : i < numIblJumpTableEntries) (hj : j < numIblJumpTableEntries)
    (h : ibl.entryAddr i = ibl.entryAddr j) : i = j := by
  unfold Ibl.entryAddr at h
  unfold numIblJumpTableEntries at hi hj
  bv_omega

/-! ## The stub -/

structure LoadedTarget (native : State) (target : Word) (s : State) : Prop where
  rsp : s.reg .rsp = native.reg .rsp - 8
  rdi : s.reg .rdi = target
  reg : ∀ r, r ≠ .rdi → r ≠ .rsp → s.reg r = native.reg r
  flags : s.flags = native.flags
  saved : s.mem.read (s.reg .rsp) = native.reg .rdi

theorem loadTarget_spec (kind : IblEntryKind) (s : State) :
    LoadedTarget (kind.native s) (kind.target s) (loadTarget alu kind s) := by
  cases kind with
  | branch target =>
    refine ⟨?_, ?_, fun r hrdi hrsp => ?_, rfl, ?_⟩
    · simp
    · simp [IblEntryKind.target]
    · simp [hrdi, hrsp]
    · simp
  | ret =>
    refine ⟨?_, ?_, fun r hrdi hrsp => ?_, rfl, ?_⟩
    · simp only [loadTarget, set_reg, drop_reg, IblEntryKind.native, reduceIte, reduceCtorEq]
      bv_omega
    · simp [IblEntryKind.target]
    · simp [hrdi, hrsp]
    · simp

theorem mangleTarget_spec (build : Build) (policy : BitVec 16) (s : State) :
    let s' := run alu (mangleTarget build policy) s
    s'.reg .rdi = mangledAddress build policy (s.reg .rdi) ∧ (∀ r, r ≠ .rdi → s'.reg r = s.reg r) ∧ s'.mem = s.mem := by
  cases hk : build.kernel <;>
    simp only [mangleTarget, mangledAddress, hk, run_cons, run_nil, exec, reduceIte, Bool.false_eq_true]
  all_goals
    refine ⟨?_, fun r hr => ?_, ?_⟩
    · simp only [set_reg, arith16_reg, reduceIte]
    · simp only [set_reg, arith16_reg, hr, reduceIte]
    · simp only [set_mem, arith16_mem]

/-! ### Policies -/

theorem getLsbD_bswap16 (v : BitVec 16) {i : Nat} (hi : i < 16) :
    (bswap16 v).getLsbD i = v.getLsbD (8 - 8 * (i / 8) + i % 8) := by
  simp only [bswap16, BitVec.getLsbD_append, BitVec.getLsbD_extractLsb']
  split
  all_goals
    rw [decide_eq_true (by omega), Bool.true_and]
    exact congrArg v.getLsbD (by omega)

theorem getLsbD_policyBits {addr : Word} {i : Nat} (h : 48 ≤ i) (hi : i < 64) :
    (MangledBits.policyBits addr).getLsbD (i - 48) = addr.getLsbD i := by
  rw [MangledBits.policyBits, BitField.getLsbD_get, decide_eq_true (by omega), Bool.true_and,
    Nat.add_sub_cancel' h]

theorem mangledAddress_eq (build : Build) (policy : PolicyBits) (addr : Word) :
    mangledAddress build policy addr = MangledBits.setPolicyBits
      (if build.kernel then MangledBits.policyBits addr &&& policy
        else MangledBits.policyBits addr ||| policy) addr := by
  refine BitVec.eq_of_getLsbD_eq fun i hi => ?_
  have hj : 56 - 8 * (i / 8) + i % 8 < 64 := by omega
  have hback : (byteSwap addr).getLsbD (56 - 8 * (i / 8) + i % 8) = addr.getLsbD i := by
    rw [getLsbD_byteSwap hj]
    exact congrArg addr.getLsbD (by omega)
  -- the policy is in the last two bytes, which are the first two after the swap
  have hpolicy : ((bswap16 policy).setWidth 64).getLsbD (56 - 8 * (i / 8) + i % 8) =
      (decide (48 ≤ i) && policy.getLsbD (i - 48)) := by
    rw [BitVec.getLsbD_setWidth, decide_eq_true hj, Bool.true_and]
    by_cases h : 48 ≤ i
    · rw [getLsbD_bswap16 _ (by omega), decide_eq_true h, Bool.true_and]
      exact congrArg policy.getLsbD (by omega)
    · rw [BitVec.getLsbD_of_ge _ _ (by omega), decide_eq_false h, Bool.false_and]
  have hlow : (~~~0xffff : Word).getLsbD (56 - 8 * (i / 8) + i % 8) = !decide (48 ≤ i) := by
    have hmask : (~~~0xffff : Word) = BitVec.allOnes 64 <<< 16 := by decide
    rw [hmask, BitVec.getLsbD_shiftLeft, BitVec.getLsbD_allOnes, decide_eq_true hj]
    grind
  rw [mangledAddress, getLsbD_byteSwap hi, MangledBits.setPolicyBits, BitField.getLsbD_put hi]
  cases build.kernel <;> simp only [if_true, if_false, Bool.false_eq_true]
  · rw [BitVec.getLsbD_or, hback, hpolicy]
    by_cases h : 48 ≤ i
    · rw [if_pos ⟨h, by omega⟩, BitVec.getLsbD_or, getLsbD_policyBits h hi, decide_eq_true h, Bool.true_and]
    · rw [if_neg (by omega), decide_eq_false h, Bool.false_and, Bool.or_false]
  · rw [BitVec.getLsbD_and, BitVec.getLsbD_or, hback, hpolicy, hlow]
    by_cases h : 48 ≤ i
    · rw [if_pos ⟨h, by omega⟩, BitVec.getLsbD_and, getLsbD_policyBits h hi, decide_eq_true h, Bool.true_and,
        Bool.not_true, Bool.false_or]
    · rw [if_neg (by omega), decide_eq_false h, Bool.false_and, Bool.not_false, Bool.true_or, Bool.and_true]

theorem mangledAddress_eq_ofAddress_iff (build : Build) (policy : PolicyBits) (addr : Word) :
    mangledAddress build policy addr = MangledBits.ofAddress addr policy ↔
      (if build.kernel then MangledBits.policyBits addr &&& policy
        else MangledBits.policyBits addr ||| policy) = policy := by
  rw [mangledAddress_eq, MangledBits.ofAddress]
  constructor
  · intro h
    have hbits := congrArg MangledBits.policyBits h
    simp only [MangledBits.policyBits, MangledBits.setPolicyBits] at hbits
    rwa [BitField.get_put_self (by decide), BitField.get_put_self (by decide)] at hbits
  · intro h
    rw [h]

theorem hashTarget_spec (jumpTable blockInstr : Word) (s : State) :
    let s' := run alu (hashTarget jumpTable blockInstr) s
    s'.reg .rax = jumpTable + BitVec.ofNat 64 (iblHash (s.reg .rdi)) * 8 ∧ s'.reg .rsi = blockInstr ∧
      (∀ r, r ≠ .rax → r ≠ .rsi → s'.reg r = s.reg r) ∧ s'.mem = s.mem := by
  simp only [hashTarget, run_cons, run_nil, exec]
  refine ⟨?_, ?_, fun r hrax hrsi => ?_, ?_⟩
  · rw [← shl_shr_eq_iblHash]
    simp
  · simp
  · simp [hrax, hrsi]
  · simp

structure SavedScratch (s s' : State) : Prop where
  rsp : s'.reg .rsp = s.reg .rsp - 24
  reg : ∀ r, r ≠ .rax → r ≠ .rsp → s'.reg r = s.reg r
  flags : s'.mem.read (s.reg .rsp - 24) >>> 8 &&& ahMask = s.flags &&& ahMask
  rsi : s'.mem.read (s.reg .rsp - 16) = s.reg .rsi
  rax : s'.mem.read (s.reg .rsp - 8) = s.reg .rax
  mem : Frame (s.reg .rsp) 24 s.mem s'.mem

theorem saveScratch_spec (s : State) : SavedScratch s (run alu saveScratch s) := by
  obtain ⟨h16, h24, _⟩ := slot_eqs (s.reg .rsp)
  have hmem : (run alu saveScratch s).mem = ((s.mem.write (s.reg .rsp - 8) (s.reg .rax)).write (s.reg .rsp - 16)
      (s.reg .rsi)).write (s.reg .rsp - 24)
        (s.reg .rax &&& (~~~0xff00 : Word) ||| (s.flags &&& ahMask ||| 2) <<< 8) := by
    rw [h24, h16]
    simp only [saveScratch, run_cons, run_nil, exec]
    simp
  have hframe : Frame (s.reg .rsp) 24 s.mem (run alu saveScratch s).mem := by
    rw [hmem, h24, h16]
    exact ((frame_write _ _ _).push (Nat.le_refl _)).push (by decide)
  clear h16 h24
  refine ⟨?_, fun r hrax hrsp => ?_, ?_, ?_, ?_, hframe⟩
  · simp only [saveScratch, run_cons, run_nil, exec]
    simp only [push_reg, set_reg, reduceIte, reduceCtorEq]
    bv_omega
  · simp only [saveScratch, run_cons, run_nil, exec]
    simp [hrax, hrsp]
  · rw [hmem, read_write_self, lahf_shr]
  · rw [hmem, read_write_above _ _ (by bv_omega) (by bv_omega), read_write_self]
  · rw [hmem, read_write_above _ _ (by bv_omega) (by bv_omega), read_write_above _ _ (by bv_omega) (by bv_omega),
      read_write_self]

theorem scratch_slots (a : Word) : a - 24 + 8 = a - 16 ∧ a - 24 + 16 = a - 8 ∧ a - 24 + 24 = a := by
  refine ⟨?_, ?_, ?_⟩ <;> bv_omega

theorem iblLookupStub_arrives (ibl : Ibl) (build : Build) (kind : IblEntryKind) (policy : BitVec 16) (blockInstr : Word)
    (s : State) :
    let mangled := mangledAddress build policy (kind.target s)
    Arrives (kind.native s) mangled blockInstr (iblLookupStub alu ibl build kind policy blockInstr s) ∧
      (iblLookupStub alu ibl build kind policy blockInstr s).rip = ibl.entry (ibl.entryAddr (iblHash mangled)) := by
  have hload := loadTarget_spec alu kind s
  have hsave := saveScratch_spec alu (loadTarget alu kind s)
  have hmangle := mangleTarget_spec alu build policy (run alu saveScratch (loadTarget alu kind s))
  have hhash := hashTarget_spec alu ibl.jumpTable blockInstr
    (run alu (mangleTarget build policy) (run alu saveScratch (loadTarget alu kind s)))
  rw [iblLookupStub, run_append, run_append]
  generalize loadTarget alu kind s = t at hload hsave hmangle hhash ⊢
  generalize run alu saveScratch t = u at hsave hmangle hhash ⊢
  generalize run alu (mangleTarget build policy) u = v at hmangle hhash ⊢
  generalize run alu (hashTarget ibl.jumpTable blockInstr) v = w at hhash ⊢
  obtain ⟨hrdi, hregv, hmemv⟩ := hmangle
  obtain ⟨hrax, hrsi, hregw, hmemw⟩ := hhash
  have hrsp : w.reg .rsp = t.reg .rsp - 24 := by
    rw [hregw _ (by decide) (by decide), hregv _ (by decide), hsave.rsp]
  have hmangled : v.reg .rdi = mangledAddress build policy (kind.target s) := by
    rw [hrdi, hsave.reg _ (by decide) (by decide), hload.rdi]
  have hmem : w.mem = u.mem := hmemw.trans hmemv
  obtain ⟨h8, h16, h24⟩ := scratch_slots (t.reg .rsp)
  refine ⟨⟨?_, ?_, hrsi, fun r hrax' hrsi' hrdi' hrsp' => ?_, ?_, ?_, ?_, ?_⟩, ?_⟩
  · rw [jmp_reg, hrsp, hload.rsp]
    exact BitVec.sub_sub _ 8 24
  · rw [jmp_reg, hregw _ (by decide) (by decide), hmangled]
  · rw [jmp_reg, hregw r hrax' hrsi', hregv r hrdi', hsave.reg r hrax' hrsp', hload.reg r hrdi' hrsp']
  · rw [jmp_reg, jmp_mem, hrsp, hmem, hsave.flags, hload.flags]
  · rw [jmp_reg, jmp_mem, hrsp, hmem, h8, hsave.rsi, hload.reg _ (by decide) (by decide)]
  · rw [jmp_reg, jmp_mem, hrsp, hmem, h16, hsave.rax, hload.reg _ (by decide) (by decide)]
  · have hread := hsave.mem.read_eq (b := t.reg .rsp) (by rw [BitVec.sub_self]; decide)
    rw [jmp_reg, jmp_mem, hrsp, hmem, h24, hread, hload.saved]
  · rw [jmp_rip, hrax, hmangled]
    rfl

/-! ## A routine of the chain -/

theorem Arrives.miss (h : Arrives native mangled source s) (r : ExitRoutine) :
    Arrives native mangled source (r.miss (r.check alu s)) := by
  have hreg : ∀ q, q ≠ .rax → (r.miss (r.check alu s)).reg q = s.reg q := fun q hq => by
    simp [ExitRoutine.miss, hq]
  have hmem : (r.miss (r.check alu s)).mem = s.mem := rfl
  have hrsp := hreg .rsp (by decide)
  refine ⟨hrsp.trans h.rsp, (hreg _ (by decide)).trans h.rdi, (hreg _ (by decide)).trans h.rsi,
    fun q hrax hrsi hrdi hrsp => (hreg q hrax).trans (h.reg q hrax hrsi hrdi hrsp), ?_, ?_, ?_, ?_⟩
  · rw [hrsp, hmem, h.savedFlags]
  · rw [hrsp, hmem, h.savedRsi]
  · rw [hrsp, hmem, h.savedRax]
  · rw [hrsp, hmem, h.savedRdi]

theorem check_zf (h : Arrives native mangled source s) (r : ExitRoutine) :
    zf (r.check alu s).flags = decide (r.mangledTargetPc = mangled) := by
  simp [h.rdi]

theorem pop_slots (a : Word) : a + 8 + 8 = a + 16 ∧ a + 16 + 8 = a + 24 ∧ a + 24 + 8 = a + 32 := by
  refine ⟨?_, ?_, ?_⟩ <;> bv_omega

theorem Arrives.hit (h : Arrives native mangled source s) (r : ExitRoutine) :
    TakenTo native r.instrumentedTargetPc (r.hit alu (r.check alu s)) := by
  obtain ⟨h16, h24, h32⟩ := pop_slots (s.reg .rsp)
  have hreg : ∀ q, q ≠ .rax → (r.check alu s).reg q = s.reg q := fun q hq => by
    simp [hq]
  have hmem : (r.check alu s).mem = s.mem := rfl
  have hrsp := hreg .rsp (by decide)
  generalize r.check alu s = t at hreg hmem hrsp ⊢
  refine ⟨funext fun q => ?_, ?_, rfl⟩
  · simp only [ExitRoutine.hit, ExitRoutine.hitFromCodeCacheFind, run_cons, run_nil, exec, State.top]
    simp only [jmp_reg, set_reg, drop_reg, set_mem, drop_mem, reduceIte, reduceCtorEq, hmem, hrsp, h16, h24, h32]
    by_cases hdi : q = .rdi
    · simp only [hdi, reduceIte, h.savedRdi]
    · by_cases hsp : q = .rsp
      · simp [hsp, h.rsp]
      · by_cases hax : q = .rax
        · simp only [hax, reduceIte, reduceCtorEq, h.savedRax]
        · by_cases hsi : q = .rsi
          · simp only [hsi, reduceIte, reduceCtorEq, h.savedRsi]
          · simp [hdi, hsp, hax, hsi, hreg q hax, h.reg q hax hsi hdi hsp]
  · simp only [ExitRoutine.hit, ExitRoutine.hitFromCodeCacheFind, run_cons, run_nil, exec, State.top]
    simp only [jmp_flags, set_flags, drop_flags, set_reg, reduceIte, hmem, hrsp]
    rw [sahf_and, h.savedFlags]

/-! ## The chains -/

def Ibl.link (ibl : Ibl) (a : Word) : Option Word := if a = ibl.globalCodeCacheRoutine then none else some a

def Ibl.next (ibl : Ibl) (a : Word) : Option Word := (ibl.code a).bind fun r => ibl.link r.prevTarget

structure Ibl.Holds (ibl : Ibl) (installs : List Install) : Prop where
  code : ∀ i ∈ installs, ∃ prevTarget, ibl.code i.routine = some ⟨i.mangledTargetPc, i.instrumentedTargetPc, prevTarget⟩
  chain : ∀ index, index < numIblJumpTableEntries →
    Linked.Chain ibl.next (ibl.link (ibl.entry (ibl.entryAddr index)))
      ((installs.filter (iblHash ·.mangledTargetPc = index)).map (·.routine))
  global : ibl.code ibl.globalCodeCacheRoutine = none

theorem Ibl.holds_init (jumpTable globalCodeCacheRoutine : Word) : (Ibl.init jumpTable globalCodeCacheRoutine).Holds [] where
  code := nofun
  chain _ _ := if_pos rfl
  global := rfl

theorem Ibl.Holds.install {ibl : Ibl} {installs : List Install} (h : ibl.Holds installs) (i : Install)
    (hglobal : i.routine ≠ ibl.globalCodeCacheRoutine) (hfresh : ∀ j ∈ installs, j.routine ≠ i.routine) :
    (iblExitRoutine ibl i).Holds (i :: installs) := by
  have hcode : ∀ a, a ≠ i.routine → (iblExitRoutine ibl i).code a = ibl.code a := fun a ha =>
    Function.update_of_ne ha _ _
  have hself : (iblExitRoutine ibl i).code i.routine = some ⟨i.mangledTargetPc, i.instrumentedTargetPc,
      ibl.entry (ibl.entryAddr (iblHash i.mangledTargetPc))⟩ := Function.update_self ..
  have hlink : (iblExitRoutine ibl i).link = ibl.link := rfl
  refine ⟨fun j hj => ?_, fun index hindex => ?_, ?_⟩
  · rcases List.mem_cons.mp hj with rfl | hj
    · exact ⟨_, hself⟩
    · rw [hcode _ (hfresh j hj)]
      exact h.code j hj
  · -- the old chain is not touched
    have hold : Linked.Chain (iblExitRoutine ibl i).next _ _ := (h.chain index hindex).congr fun a ha => by
      obtain ⟨j, hj, rfl⟩ := List.mem_map.mp ha
      rw [Ibl.next, hcode _ (hfresh j (List.mem_filter.mp hj).1)]
      rfl
    by_cases hi : iblHash i.mangledTargetPc = index
    · subst hi
      have hentry : (iblExitRoutine ibl i).entry ((iblExitRoutine ibl i).entryAddr (iblHash i.mangledTargetPc)) = i.routine :=
        Function.update_self ..
      have hnext : (iblExitRoutine ibl i).next i.routine = ibl.link (ibl.entry (ibl.entryAddr (iblHash i.mangledTargetPc))) := by
        rw [Ibl.next, hself]
        rfl
      rw [List.filter_cons_of_pos (by simp), hentry, List.map_cons, Linked.chain_cons, hnext]
      exact ⟨if_neg hglobal, hold⟩
    · have hentry : (iblExitRoutine ibl i).entry ((iblExitRoutine ibl i).entryAddr index) = ibl.entry (ibl.entryAddr index) := by
        refine Function.update_of_ne (fun he => hi ?_) _ _
        exact (entryAddr_inj hindex (iblHash_lt _) he).symm
      rw [List.filter_cons_of_neg (by simpa using hi), hentry]
      exact hold
  · exact (hcode _ (Ne.symm hglobal)).trans h.global

theorem Ibl.holds_foldl {ibl : Ibl} {installed : List Install} (h : ibl.Holds installed) (installs : List Install)
    (hfresh : (ibl.globalCodeCacheRoutine :: (installed.map (·.routine) ++ installs.map (·.routine))).Nodup) :
    (installs.foldl iblExitRoutine ibl).Holds (installs.reverse ++ installed) ∧
      (installs.foldl iblExitRoutine ibl).globalCodeCacheRoutine = ibl.globalCodeCacheRoutine := by
  induction installs generalizing ibl installed with
  | nil => exact ⟨h, rfl⟩
  | cons i installs ih =>
    obtain ⟨hglobal, hnodup⟩ := List.nodup_cons.mp hfresh
    rw [List.map_cons, List.nodup_middle, List.nodup_cons] at hnodup
    simp only [List.map_cons, List.mem_append, List.mem_cons, not_or] at hglobal
    have hi := h.install i (Ne.symm hglobal.2.1) fun j hj he =>
      hnodup.1 (List.mem_append_left _ (he ▸ List.mem_map_of_mem hj))
    have hnext : (ibl.globalCodeCacheRoutine ::
        ((i :: installed).map (·.routine) ++ installs.map (·.routine))).Nodup := by
      refine List.nodup_cons.mpr ⟨?_, List.nodup_cons.mpr hnodup⟩
      simp only [List.map_cons, List.mem_append, List.mem_cons, not_or]
      exact ⟨⟨hglobal.2.1, hglobal.1⟩, hglobal.2.2⟩
    rw [List.foldl_cons, List.reverse_cons, List.append_assoc]
    exact ih hi hnext

theorem Ibl.follow_spec {ibl : Ibl} {l : List Install}
    (hcode : ∀ i ∈ l, ∃ prev, ibl.code i.routine = some ⟨i.mangledTargetPc, i.instrumentedTargetPc, prev⟩)
    (hglobal : ibl.code ibl.globalCodeCacheRoutine = none)
    (hchain : Linked.Chain ibl.next (ibl.link s.rip) (l.map (·.routine))) (h : Arrives native mangled source s) (fuel : Nat)
    (hfuel : l.length ≤ fuel) :
    (∀ t ∈ ibl.follow alu fuel s, Arrives native mangled source t) ∧
      ∃ t, (ibl.follow alu fuel s).getLast? = some t ∧
        t.rip = ((l.find? (·.mangledTargetPc = mangled)).map (·.routine)).getD ibl.globalCodeCacheRoutine := by
  induction l generalizing s fuel with
  | nil =>
    have hrip : s.rip = ibl.globalCodeCacheRoutine := by
      by_contra hne
      simp [Ibl.link, hne] at hchain
    have hfollow : ibl.follow alu fuel s = [s] := by
      cases fuel with
      | zero => rfl
      | succ fuel => rw [Ibl.follow, hrip, hglobal]
    rw [hfollow]
    exact ⟨List.forall_mem_singleton.mpr h, s, rfl, hrip⟩
  | cons i l ih =>
    obtain ⟨hlink, hchain⟩ := hchain
    have hrip : s.rip = i.routine := by
      unfold Ibl.link at hlink
      split at hlink
      · cases hlink
      · exact Option.some.inj hlink
    obtain ⟨prev, hi⟩ := hcode i (.head _)
    obtain ⟨fuel, rfl⟩ : ∃ n, fuel = n + 1 := ⟨fuel - 1, by simp only [List.length_cons] at hfuel; omega⟩
    rw [Ibl.follow, hrip, hi]
    simp only [check_zf alu h, decide_eq_true_eq]
    by_cases hm : i.mangledTargetPc = mangled
    · rw [if_pos hm, List.find?_cons_of_pos (by simpa using hm)]
      exact ⟨List.forall_mem_singleton.mpr h, s, rfl, hrip⟩
    · rw [if_neg hm, List.find?_cons_of_neg (by simpa using hm)]
      have hmiss := h.miss alu ⟨i.mangledTargetPc, i.instrumentedTargetPc, prev⟩
      have hrip₁ : (ExitRoutine.miss ⟨i.mangledTargetPc, i.instrumentedTargetPc, prev⟩ (ExitRoutine.check alu
          ⟨i.mangledTargetPc, i.instrumentedTargetPc, prev⟩ s)).rip = prev := rfl
      generalize ExitRoutine.miss _ _ = s₁ at hmiss hrip₁ ⊢
      rw [Ibl.next, hi, Option.bind_some, ← hrip₁] at hchain
      obtain ⟨harrives, t, hlast, ht⟩ := ih (fun j hj => hcode j (.tail _ hj)) hchain hmiss fuel
        (Nat.le_of_succ_le_succ hfuel)
      refine ⟨fun u hu => ?_, t, ?_, ht⟩
      · rcases List.mem_cons.mp hu with rfl | hu
        · exact h
        · exact harrives u hu
      · rw [List.getLast?_cons, hlast]
        rfl

theorem find?_filter_iblHash (installs : List Install) :
    (installs.filter (iblHash ·.mangledTargetPc = iblHash mangled)).find? (·.mangledTargetPc = mangled) =
      installs.find? (·.mangledTargetPc = mangled) := by
  rw [List.find?_filter]
  congr 1
  funext i
  by_cases h : i.mangledTargetPc = mangled <;> simp [h]

end Granary.Gencode
