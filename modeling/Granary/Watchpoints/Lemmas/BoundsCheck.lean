import Granary.Lib.Stack
import Granary.Watchpoints.BoundsCheck
import Granary.Watchpoints.Lemmas.Address
import Granary.Watchpoints.Lemmas.Descriptors

/-!
# What the bounds checkers compare and restore

The comparisons leave what was pushed alone, so that the registers are popped again whichever way the routine takes.
-/

namespace Granary.Watchpoints

open Machine
open BitVec (ofNat toNat_sub toNat_ofNat lt_def)

attribute [local simp] State.ret enterBoundsCheck exec

variable {kernel : Bool} (T : DescriptorTable kernel) (alu : Instr → State → Word)
variable {s' : State} {r : Reg}

/-! ## Comparing -/

theorem entry_counterIndexOf (addr : Word) : T.entry (counterIndexOf addr) = T.base + addr >>> 49 <<< 4 := by
  rw [DescriptorTable.entry, counterIndexOf, BitVec.shiftLeft_eq_mul_twoPow, BitVec.mul_comm]
  rfl

def checkRegs : List Reg := [.rsi, .rdx, .rax]

/-- The registers as they were after the pushes, except for those compared, and the flags in `ah`. -/
structure Compared (s s' : State) : Prop where
  mem : s'.mem = (run alu (checkRegs.map .push) s).mem
  reg : ∀ r, r ∉ checkRegs → s'.reg r = (run alu (checkRegs.map .push) s).reg r
  ah : s'.reg .rax >>> 8 &&& ahMask = s.flags &&& ahMask

theorem compareLower_compared (s : State) : Compared alu s (run alu (compareLower T) s) where
  mem := rfl
  reg := by
    intro r hr
    simp only [checkRegs, List.mem_cons, List.not_mem_nil, or_false, not_or] at hr
    simp [compareLower, checkRegs, hr]
  ah := by
    simp only [compareLower, run_cons, run_nil, exec]
    simp only [set_reg, arith_reg, push_reg, push_flags, reduceCtorEq, reduceIte]
    exact lahf_shr ..

theorem compareLower_rsi (s : State) : (run alu (compareLower T) s).reg .rsi = T.entry (counterIndexOf (s.reg .rdi)) := by
  rw [entry_counterIndexOf]
  simp [compareLower]

theorem compareLower_flags (s : State) :
    jl (run alu (compareLower T) s).flags = ((s.reg .rdi).setWidth 32).slt
      (T.lowerBound (run alu (checkRegs.map .push) s).mem (s.reg .rdi)) := by
  rw [DescriptorTable.lowerBound, entry_counterIndexOf]
  simp [compareLower, checkRegs]

theorem Compared.upper {alu : Instr → State → Word} {s : State} (h : Compared alu s s') (size : AccessSize) :
    Compared alu s (run alu (compareUpper size) s') where
  mem := h.mem
  reg := by
    intro r hr
    have hrsi : r ≠ .rsi := fun he => hr (he ▸ List.mem_cons_self)
    rw [← h.reg r hr]
    simp [compareUpper, hrsi]
  ah := by simpa [compareUpper] using h.ah

theorem compareBounds_compared (size : AccessSize) (s : State) : Compared alu s (compareBounds T alu size s).2 := by
  have hlower := compareLower_compared T alu s
  unfold compareBounds
  dsimp only
  split
  · exact hlower
  · exact hlower.upper size

theorem setWidth_sub_word (x : Word) (size : AccessSize) :
    (x - size.word).setWidth 32 = x.setWidth 32 - ofNat 32 size.bytes := by
  apply BitVec.eq_of_toNat_eq
  rw [AccessSize.word, BitVec.toNat_setWidth, toNat_sub, toNat_sub, BitVec.toNat_setWidth,
    toNat_ofNat, toNat_ofNat]
  cases size <;> simp only [AccessSize.bytes] <;> omega

theorem compareUpper_flags (size : AccessSize) (s : State) :
    ∃ flags, (run alu (compareUpper size) (run alu (compareLower T) s)).flags =
      subFlags (T.upperBound (run alu (checkRegs.map .push) s).mem (s.reg .rdi) - ofNat 32 size.bytes)
        ((s.reg .rdi).setWidth 32) flags := by
  have hrsi := compareLower_rsi T alu s
  have hrdi := (compareLower_compared T alu s).reg .rdi (by decide)
  have hmem := (compareLower_compared T alu s).mem
  have hpushed : (run alu (checkRegs.map .push) s).reg .rdi = s.reg .rdi := rfl
  generalize run alu (compareLower T) s = s' at hrsi hrdi hmem
  refine ⟨(run alu [.load .rsi .rsi 4, .subImm .rsi size.word] s').flags, ?_⟩
  simp only [compareUpper, run_cons, run_nil, exec]
  simp only [set_reg, arith_reg, reduceCtorEq, reduceIte, hrsi, hrdi, hmem, hpushed]
  rw [DescriptorTable.upperBound, ← read_setWidth, setWidth_sub_word]

theorem compareBounds_within (size : AccessSize) (s : State) :
    (compareBounds T alu size s).1 =
      (!((s.reg .rdi).setWidth 32).slt (T.lowerBound (run alu (checkRegs.map .push) s).mem (s.reg .rdi)) &&
        !(T.upperBound (run alu (checkRegs.map .push) s).mem (s.reg .rdi) - ofNat 32 size.bytes).slt
          ((s.reg .rdi).setWidth 32)) := by
  obtain ⟨flags, hflags⟩ := compareUpper_flags T alu size s
  rw [← compareLower_flags, compareBounds]
  dsimp only
  split
  · next h => simp [h]
  · next h => simp [h, hflags]

theorem compareBounds_of (size : AccessSize) (s : State) (h : (compareBounds T alu size s).1 = true) :
    of (compareBounds T alu size s).2.flags =
      (T.upperBound (run alu (checkRegs.map .push) s).mem (s.reg .rdi) - ofNat 32 size.bytes).ssubOverflow
        ((s.reg .rdi).setWidth 32) := by
  obtain ⟨flags, hflags⟩ := compareUpper_flags T alu size s
  unfold compareBounds at h ⊢
  dsimp only at h ⊢
  split at h
  · cases h
  · next hjl => rw [if_neg hjl, hflags, of_subFlags]

/-! ## Restoring -/

def entered (reg : Reg) (returnAddr : Word) (s : State) : State :=
  run alu (enterBoundsCheck reg) (s.push returnAddr)

theorem entered_rsp (reg : Reg) (returnAddr : Word) (s : State) :
    (entered alu reg returnAddr s).reg .rsp = s.reg .rsp - 16 := by
  simp only [entered, enterBoundsCheck, run_cons, run_nil, exec]
  simp only [set_reg, push_reg, reduceCtorEq, reduceIte]
  bv_omega

theorem entered_rdi {reg : Reg} (hreg : reg ≠ .rsp) (returnAddr : Word) (s : State) :
    (entered alu reg returnAddr s).reg .rdi = s.reg reg := by
  simp [entered, hreg]

theorem entered_reg (reg : Reg) (returnAddr : Word) (s : State) (hrdi : r ≠ .rdi) (hrsp : r ≠ .rsp) :
    (entered alu reg returnAddr s).reg r = s.reg r := by
  simp [entered, hrdi, hrsp]

theorem entered_mem (reg : Reg) (returnAddr : Word) (s : State) :
    (entered alu reg returnAddr s).mem =
      (s.mem.write (s.reg .rsp - 8) returnAddr).write (s.reg .rsp - 8 - 8) (s.reg .rdi) := by
  simp [entered]

/-- A state with all of the pushed words still on the stack, and other registers as the program had them. -/
structure OnStack (reg : Reg) (returnAddr : Word) (s v : State) : Prop where
  rsp : v.reg .rsp = (run alu (checkRegs.map .push) (entered alu reg returnAddr s)).reg .rsp
  mem : ∀ b, Below (s.reg .rsp) 40 b →
    v.mem b = (run alu (checkRegs.map .push) (entered alu reg returnAddr s)).mem b
  reg : ∀ r, r ∉ .rdi :: checkRegs → r ≠ .rsp → v.reg r = s.reg r

theorem pop_rdi_ret {s w : State} {returnAddr : Word} (hrsp : w.reg .rsp = s.reg .rsp - 16)
    (hrdi : w.mem.read (s.reg .rsp - 16) = s.reg .rdi) (hret : w.mem.read (s.reg .rsp - 8) = returnAddr)
    (hreg : ∀ r, r ≠ .rdi → r ≠ .rsp → w.reg r = s.reg r) :
    ((exec alu (.pop .rdi) w).ret 0).reg = s.reg ∧ ((exec alu (.pop .rdi) w).ret 0).rip = returnAddr := by
  have hback : ∀ x : Word, x - 16#64 + 8#64 = x - 8#64 := fun x => by bv_omega
  refine ⟨funext fun r => ?_, ?_⟩
  · by_cases hr : r = .rsp
    · simp [hr, hrsp, hback]
    by_cases hr' : r = .rdi
    · simpa [hr', State.top, hrsp] using hrdi
    simp [hr, hr', hreg]
  · simpa [State.top, hrsp, hback] using hret

section OnStack

variable {alu} {reg : Reg} {returnAddr : Word} {s v : State} (h : OnStack alu reg returnAddr s v)

include h

theorem OnStack.read_eq {d : Word} (hlo : 8 ≤ d.toNat) (hhi : d.toNat ≤ 16) :
    v.mem.read (s.reg .rsp - d) = (entered alu reg returnAddr s).mem.read (s.reg .rsp - d) := by
  have hpushed := (run_push alu checkRegs (entered alu reg returnAddr s)).mem
  rw [entered_rsp] at hpushed
  calc v.mem.read (s.reg .rsp - d)
      = (run alu (checkRegs.map .push) (entered alu reg returnAddr s)).mem.read (s.reg .rsp - d) :=
        read_congr fun j hj => h.mem _ (by unfold Below; bv_omega)
    _ = (entered alu reg returnAddr s).mem.read (s.reg .rsp - d) :=
        hpushed.read_eq (by simp only [checkRegs, List.length_cons, List.length_nil]; bv_omega)

theorem OnStack.read_rdi : v.mem.read (s.reg .rsp - 16) = s.reg .rdi := by
  rw [h.read_eq (by decide) (by decide), entered_mem, show s.reg .rsp - 8 - 8 = s.reg .rsp - 16 by bv_omega,
    read_write_self]

theorem OnStack.read_returnAddr : v.mem.read (s.reg .rsp - 8) = returnAddr := by
  rw [h.read_eq (by decide) (by decide), entered_mem, (frame_write (s.reg .rsp - 8) _ _).read_eq (by bv_omega),
    read_write_self]

theorem OnStack.returns :
    ((run alu restoreAll v).ret 0).reg = s.reg ∧ ((run alu restoreAll v).ret 0).rip = returnAddr ∧
      ((run alu restoreAll v).ret 0).flags = v.flags &&& ~~~ahMask ||| v.reg .rax >>> 8 &&& ahMask := by
  have hpop : Popped checkRegs (entered alu reg returnAddr s) (exec alu .sahf v)
      (run alu (checkRegs.reverse.map .pop) (exec alu .sahf v)) :=
    run_pop alu (by decide) (by decide) h.rsp fun b hb => by
      rw [entered_rsp] at hb
      exact h.mem b (hb.lower (by decide))
  have hcode : run alu restoreAll v =
      exec alu (.pop .rdi) (run alu (checkRegs.reverse.map .pop) (exec alu .sahf v)) := by
    have hlist : restoreAll = .sahf :: (checkRegs.reverse.map .pop ++ [.pop .rdi]) := rfl
    rw [hlist, run_cons, run_append, run_cons, run_nil]
  have hflags : (run alu restoreAll v).flags = v.flags &&& ~~~ahMask ||| v.reg .rax >>> 8 &&& ahMask := by
    simp only [restoreAll, run_cons, run_nil, exec, set_flags, drop_flags]
  rw [State.ret, jmp_flags, drop_flags, hflags, ← State.ret, hcode]
  have hend := pop_rdi_ret alu (hpop.rsp.trans (entered_rsp alu reg returnAddr s)) (hpop.mem ▸ h.read_rdi)
    (hpop.mem ▸ h.read_returnAddr) fun r hrdi hr => by
      by_cases hcheck : r ∈ checkRegs
      · rw [hpop.saved r hcheck, entered_reg alu reg returnAddr s hrdi hr]
      · rw [hpop.other r hcheck hr]
        exact h.reg r (fun hm => (List.mem_cons.mp hm).elim hrdi hcheck) hr
  exact ⟨hend.1, hend.2, rfl⟩

theorem OnStack.rsp_eq : v.reg .rsp = s.reg .rsp - 40 := by
  rw [h.rsp, (run_push alu checkRegs _).rsp, entered_rsp]
  simp only [checkRegs, List.length_cons, List.length_nil]
  bv_omega

end OnStack

theorem Compared.onStack {reg : Reg} {returnAddr : Word} {s v : State}
    (h : Compared alu (entered alu reg returnAddr s) v) : OnStack alu reg returnAddr s v where
  rsp := h.reg .rsp (by decide)
  mem := fun b _ => by rw [h.mem]
  reg := by
    intro r hr hrsp
    rw [List.mem_cons, not_or] at hr
    rw [h.reg r hr.2, (run_push alu checkRegs _).reg r hrsp, entered_reg alu reg returnAddr s hr.1 hrsp]

/-! ## The call of the handler -/

def scratchRegs : List Reg := [.rcx, .r8, .r9, .r10, .r11]

theorem calleeSaved_of_notMem (hcheck : r ∉ .rdi :: checkRegs) (hscratch : r ∉ scratchRegs) (hrsp : r ≠ .rsp) :
    r ∈ calleeSaved := by
  revert hcheck hscratch hrsp
  cases r <;> decide

def atOverflow (size : AccessSize) (v : State) : State := run alu [.movImm .rsi size.word, .lea .rdx .rsp 32] v

theorem run_saveScratch :
    run alu saveScratch (run alu [.movImm .rsi size.word] v) = run alu (scratchRegs.map .push) (atOverflow alu size v) := by
  have hsave : saveScratch = .lea .rdx .rsp 32 :: scratchRegs.map .push := rfl
  rw [hsave, atOverflow, run_cons, run_cons, run_cons, run_cons, run_nil, run_nil]

section Handler

variable {visit : State → State} (hvisit : FollowsAbi visit) (size : AccessSize) (v : State)

theorem atOverflow_reg (hrsi : r ≠ .rsi) (hrdx : r ≠ .rdx) : (atOverflow alu size v).reg r = v.reg r := by
  simp [atOverflow, hrsi, hrdx]

include hvisit

theorem popped_handler :
    Popped scratchRegs (atOverflow alu size v)
      (visit (run alu (scratchRegs.map .push) (atOverflow alu size v)))
      (run alu (scratchRegs.reverse.map .pop)
        (visit (run alu (scratchRegs.map .push) (atOverflow alu size v)))) := by
  have hpushed := (run_push alu scratchRegs (atOverflow alu size v)).rsp
  refine run_pop alu (by decide) (by decide) (hvisit.rsp _) fun b hb => hvisit.frame _ b ?_
  rw [hpushed]
  simp only [scratchRegs, List.length_cons, List.length_nil] at hb ⊢
  unfold Below at hb
  bv_omega

theorem OnStack.handler {reg : Reg} {returnAddr : Word} {s v : State} (h : OnStack alu reg returnAddr s v) :
    OnStack alu reg returnAddr s
      (run alu (scratchRegs.reverse.map .pop) (visit (run alu (scratchRegs.map .push) (atOverflow alu size v)))) := by
  have hpop := popped_handler alu hvisit size v
  have hpushed := run_push alu scratchRegs (atOverflow alu size v)
  have hrsp : (atOverflow alu size v).reg .rsp = v.reg .rsp := atOverflow_reg alu size v (by decide) (by decide)
  refine ⟨?_, fun b hb => ?_, fun r hr hr' => ?_⟩
  · rw [hpop.rsp, hrsp, h.rsp]
  · rw [hpop.mem, ← h.mem b hb, hvisit.frame _ b]
    · refine hpushed.mem b ?_
      rw [hrsp, h.rsp_eq]
      exact hb.apart (by decide) (by decide)
    · rw [hpushed.rsp, hrsp, h.rsp_eq]
      simp only [scratchRegs, List.length_cons, List.length_nil]
      unfold Below at hb
      bv_omega
  · have hcheck : ∀ q ∈ checkRegs, r ≠ q := fun q hq he => hr (he ▸ List.mem_cons_of_mem _ hq)
    have hat : (atOverflow alu size v).reg r = s.reg r := by
      rw [atOverflow_reg alu size v (hcheck _ (by decide)) (hcheck _ (by decide)), h.reg r hr hr']
    by_cases hscratch : r ∈ scratchRegs
    · rw [hpop.saved r hscratch, hat]
    · rw [hpop.other r hscratch hr', hvisit.saved _ r (calleeSaved_of_notMem hr hscratch hr'), hpushed.reg r hr', hat]

end Handler

/-! ## The bounds -/

section Bounds

variable {T} {addr rsp : Word} {mem mem' : Memory} {n : Nat} (h : BoundsApart T addr rsp) (hf : Frame rsp n mem mem')
  (hn : n ≤ 88)

include h hf hn

theorem BoundsApart.lowerBound_eq : T.lowerBound mem' addr = T.lowerBound mem addr :=
  Only.read32_eq hf fun b hb hbelow => h b (by omega) (hbelow.mono hn)

theorem BoundsApart.upperBound_eq : T.upperBound mem' addr = T.upperBound mem addr :=
  Only.read32_eq hf fun b hb hbelow => h b (by bv_omega) (hbelow.mono hn)

end Bounds

theorem pushed_frame (reg : Reg) (returnAddr : Word) (s : State) :
    Frame (s.reg .rsp) 40 s.mem (run alu (checkRegs.map .push) (entered alu reg returnAddr s)).mem := by
  have hpushed := (run_push alu checkRegs (entered alu reg returnAddr s)).mem
  rw [entered_rsp, entered_mem, show s.reg .rsp - 16 = s.reg .rsp - 8 - 8 by bv_omega] at hpushed
  exact (hpushed.push (k := 32) (by decide)).push (by decide)

section Access

variable {T} {reg : Reg} {returnAddr : Word} {s : State} {lower upper addr : BitVec 32}
  (h : WatchedAccess T reg s lower upper addr) (size : AccessSize)

include h

theorem WatchedAccess.lower_pushed (returnAddr : Word) :
    T.lowerBound (run alu (checkRegs.map .push) (entered alu reg returnAddr s)).mem (s.reg reg) = lower :=
  (h.apart.lowerBound_eq (pushed_frame alu reg returnAddr s) (by decide)).trans h.lower_eq

theorem WatchedAccess.upper_pushed (returnAddr : Word) :
    T.upperBound (run alu (checkRegs.map .push) (entered alu reg returnAddr s)).mem (s.reg reg) = upper :=
  (h.apart.upperBound_eq (pushed_frame alu reg returnAddr s) (by decide)).trans h.upper_eq

theorem WatchedAccess.within (returnAddr : Word) :
    (compareBounds T alu size (entered alu reg returnAddr s)).1 =
      (!addr.slt lower && !(upper - ofNat 32 size.bytes).slt addr) := by
  rw [compareBounds_within, entered_rdi alu h.reg_ne, h.lower_pushed alu, h.upper_pushed alu, h.addr_eq]

theorem WatchedAccess.of_within (hw : (compareBounds T alu size (entered alu reg returnAddr s)).1 = true) :
    of (compareBounds T alu size (entered alu reg returnAddr s)).2.flags =
      (upper - ofNat 32 size.bytes).ssubOverflow addr := by
  rw [compareBounds_of T alu size _ hw, entered_rdi alu h.reg_ne, h.upper_pushed alu, h.addr_eq]

end Access

/-! ## What the program sees -/

section Invisible

variable {T} {reg : Reg} {returnAddr : Word} {s : State} {size : AccessSize}

theorem granaryBoundsCheckReg_eq (visit : State → State) :
    granaryBoundsCheckReg T alu visit reg size (s.push returnAddr) =
      if (compareBounds T alu size (entered alu reg returnAddr s)).1 then
        (run alu restoreAll (compareBounds T alu size (entered alu reg returnAddr s)).2).ret 0
      else granaryDetectedOverflow alu visit
        (run alu [.movImm .rsi size.word] (compareBounds T alu size (entered alu reg returnAddr s)).2) := rfl

theorem granaryDetectedOverflow_eq (visit : State → State) (v : State) :
    granaryDetectedOverflow alu visit (run alu [.movImm .rsi size.word] v) =
      (run alu restoreAll (run alu (scratchRegs.reverse.map .pop)
        (visit (run alu (scratchRegs.map .push) (atOverflow alu size v))))).ret 0 := by
  have hrestore : restoreScratch = scratchRegs.reverse.map .pop := rfl
  rw [granaryDetectedOverflow, run_saveScratch, hrestore]

theorem invisible_iff_of_within {visit : State → State}
    (hw : (compareBounds T alu size (entered alu reg returnAddr s)).1 = true) :
    Invisible returnAddr s (granaryBoundsCheckReg T alu visit reg size (s.push returnAddr)) ↔
      of (compareBounds T alu size (entered alu reg returnAddr s)).2.flags = of s.flags := by
  have hcmp := compareBounds_compared T alu size (entered alu reg returnAddr s)
  obtain ⟨hreg, hrip, hflags⟩ := hcmp.onStack.returns
  rw [granaryBoundsCheckReg_eq, if_pos hw]
  constructor
  · intro hinv
    have hof := (and_arithMask_eq_iff.mp hinv.flags).2
    rwa [hflags, of_sahf] at hof
  · intro hof
    refine ⟨hreg, hrip, and_arithMask_eq_iff.mpr ?_⟩
    rw [hflags, sahf_and, of_sahf, hcmp.ah]
    exact ⟨rfl, hof⟩

theorem flags_of_not_within {visit : State → State} (hvisit : FollowsAbi visit)
    (hw : (compareBounds T alu size (entered alu reg returnAddr s)).1 = false) :
    (granaryBoundsCheckReg T alu visit reg size (s.push returnAddr)).flags &&& ahMask =
      (visit (run alu (scratchRegs.map .push)
        (atOverflow alu size (compareBounds T alu size (entered alu reg returnAddr s)).2))).reg .rax >>> 8 &&& ahMask := by
  have hcmp := compareBounds_compared T alu size (entered alu reg returnAddr s)
  rw [granaryBoundsCheckReg_eq, if_neg (Bool.eq_false_iff.mp hw), granaryDetectedOverflow_eq,
    (hcmp.onStack.handler alu hvisit size).returns.2.2, sahf_and,
    (popped_handler alu hvisit size _).other .rax (by decide) (by decide)]

theorem followsAbi_set_rax (value : Word) : FollowsAbi (fun c => c.set .rax value) where
  rsp := fun c => by simp
  saved := by
    intro c r hr
    have hne : r ≠ .rax := fun he => absurd (he ▸ hr) (by decide)
    rw [set_reg, if_neg hne]
  frame := fun _ _ _ => rfl

theorem exists_visible_of_not_within (hw : (compareBounds T alu size (entered alu reg returnAddr s)).1 = false) :
    ∃ visit, FollowsAbi visit ∧
      ¬ Invisible returnAddr s (granaryBoundsCheckReg T alu visit reg size (s.push returnAddr)) := by
  refine ⟨fun c => c.set .rax (if s.flags.getLsbD 0 then 0 else 0x100), followsAbi_set_rax _, fun hinv => ?_⟩
  have hflags := flags_of_not_within alu
    (followsAbi_set_rax (if s.flags.getLsbD 0 then 0 else 0x100)) hw
  rw [(and_arithMask_eq_iff.mp hinv.flags).1, set_reg, if_pos rfl] at hflags
  have hcarry := congrArg (BitVec.getLsbD · 0) hflags
  simp only [BitVec.getLsbD_and] at hcarry
  cases hcf : s.flags.getLsbD 0 <;> rw [hcf] at hcarry <;> exact absurd hcarry (by decide)

end Invisible

/-! ## What the handler is told -/

section Reports

variable {T} {reg : Reg} {returnAddr : Word} {s : State} {lower upper addr : BitVec 32}
  (h : WatchedAccess T reg s lower upper addr) (size : AccessSize)

theorem overflowCall_eq :
    overflowCall T alu reg size (s.push returnAddr) =
      if (compareBounds T alu size (entered alu reg returnAddr s)).1 then none
      else some (run alu (scratchRegs.map .push)
        (atOverflow alu size (compareBounds T alu size (entered alu reg returnAddr s)).2)) := by
  simp only [overflowCall, run_saveScratch]
  rfl

include h

theorem overflowCall_isSome :
    (overflowCall T alu reg size (s.push returnAddr)).isSome =
      !(!addr.slt lower && !(upper - ofNat 32 size.bytes).slt addr) := by
  rw [← h.within alu size returnAddr, overflowCall_eq]
  cases (compareBounds T alu size (entered alu reg returnAddr s)).1 <;> rfl

section

variable (hs' : s' ∈ overflowCall T alu reg size (s.push returnAddr))

include hs'

theorem overflowCall_args :
    s'.reg .rdi = s.reg reg ∧ s'.reg .rsi = size.word ∧ T.lowerBound s'.mem (s.reg reg) = lower ∧
      T.upperBound s'.mem (s.reg reg) = upper := by
  have hcmp := compareBounds_compared T alu size (entered alu reg returnAddr s)
  rw [overflowCall_eq] at hs'
  split at hs'
  · cases hs'
  · cases hs'
    generalize (compareBounds T alu size (entered alu reg returnAddr s)).2 = v at hcmp
    have hpushed := run_push alu scratchRegs (atOverflow alu size v)
    have hrdi : v.reg .rdi = s.reg reg := by
      rw [hcmp.reg .rdi (by decide), (run_push alu checkRegs _).reg .rdi (by decide), entered_rdi alu h.reg_ne]
    have hframe : Frame (s.reg .rsp) 80 s.mem (run alu (scratchRegs.map .push) (atOverflow alu size v)).mem := by
      have hmem : (atOverflow alu size v).mem = (run alu (checkRegs.map .push) (entered alu reg returnAddr s)).mem :=
        hcmp.mem
      have hscratch := hpushed.mem
      rw [hmem, atOverflow_reg alu size v (by decide) (by decide), hcmp.onStack.rsp_eq] at hscratch
      exact ((pushed_frame alu reg returnAddr s).mono (by decide)).trans (hscratch.lower (by decide))
    refine ⟨?_, ?_, ?_, ?_⟩
    · rw [hpushed.reg .rdi (by decide), atOverflow_reg alu size v (by decide) (by decide), hrdi]
    · rw [hpushed.reg .rsi (by decide)]
      simp [atOverflow]
    · exact (h.apart.lowerBound_eq hframe (by decide)).trans h.lower_eq
    · exact (h.apart.upperBound_eq hframe (by decide)).trans h.upper_eq

theorem visitOverflow_eq :
    T.visitOverflow s'.mem (s'.reg .rdi) ((s'.reg .rsi).setWidth 32) =
      if addr < lower then .ok .underflow
      else if upper < addr + ofNat 32 size.bytes then .ok .overflow
      else .error .upperBound := by
  obtain ⟨hrdi, hrsi, hlower, hupper⟩ := overflowCall_args alu h size hs'
  have hindex := toNat_counterIndexOf (s.reg reg)
  have hsize : size.word.setWidth 32 = ofNat 32 size.bytes := by cases size <;> rfl
  unfold DescriptorTable.lowerBound at hlower
  unfold DescriptorTable.upperBound at hupper
  rw [hrdi, hrsi, hsize, DescriptorTable.visitOverflow, DescriptorTable.access_eq hindex, h.addr_eq]
  simp only [bind, Except.bind, hlower, hupper, boundCheck]
  by_cases hunder : addr < lower
  · rw [if_pos hunder, if_pos hunder]
    rfl
  · rw [if_neg hunder, if_neg hunder]
    by_cases hover : upper < addr + ofNat 32 size.bytes <;> simp only [hover, if_true, if_false] <;> rfl

theorem visitOverflow_ok_iff
    (hout : ¬ (lower.toNat ≤ addr.toNat ∧ addr.toNat + size.bytes ≤ upper.toNat)) :
    T.visitOverflow s'.mem (s'.reg .rdi) ((s'.reg .rsi).setWidth 32) =
        .ok (if addr < lower then .underflow else .overflow) ↔
      addr < lower ∨ addr.toNat + size.bytes < 2 ^ 32 ∨ upper < addr + ofNat 32 size.bytes := by
  rw [visitOverflow_eq alu h size hs']
  by_cases hunder : addr < lower
  · rw [if_pos hunder, if_pos hunder]
    exact iff_of_true rfl (.inl hunder)
  rw [if_neg hunder, if_neg hunder]
  by_cases hover : upper < addr + ofNat 32 size.bytes
  · rw [if_pos hover]
    exact iff_of_true rfl (.inr (.inr hover))
  · have hsize : (ofNat 32 size.bytes).toNat = size.bytes := by cases size <;> rfl
    have hwrap : ¬ addr.toNat + size.bytes < 2 ^ 32 := by
      intro hlt
      rw [lt_def, BitVec.toNat_add, hsize, Nat.mod_eq_of_lt hlt] at hover
      rw [lt_def] at hunder
      omega
    rw [if_neg hover]
    exact iff_of_false (by intro he; cases he) (by rintro (hu | hw | ho) <;> contradiction)

end

end Reports

/-! ## Signed and unsigned comparisons -/

theorem signed_within_iff (size : AccessSize) {lower upper addr : BitVec 32} (hle : lower ≤ upper) :
    ((!addr.slt lower && !(upper - ofNat 32 size.bytes).slt addr) = true ↔
        lower.toNat ≤ addr.toNat ∧ addr.toNat + size.bytes ≤ upper.toNat) ↔
      upper.toNat < size.bytes ∨ lower.msb = (upper - ofNat 32 size.bytes).msb ∨
        ¬ addr - lower ≤ upper - ofNat 32 size.bytes - lower := by
  have hsize : size.bytes ≤ 16 := by cases size <;> decide
  have hn : (ofNat 32 size.bytes).toNat = size.bytes := by cases size <;> rfl
  generalize ofNat 32 size.bytes = n at hn
  generalize size.bytes = k at hsize hn
  have ha := addr.isLt
  have hl := lower.isLt
  have hu := upper.isLt
  simp only [Bool.and_eq_true, Bool.not_eq_true', BitVec.slt_eq_decide, decide_eq_false_iff_not,
    BitVec.toInt_eq_toNat_cond, BitVec.msb_eq_decide, BitVec.le_def, toNat_sub, hn] at hle ⊢
  by_cases hlow : 2 * lower.toNat < 2 ^ 32 <;> by_cases haddr : 2 * addr.toNat < 2 ^ 32 <;>
    by_cases hup : 2 * ((2 ^ 32 - k + upper.toNat) % 2 ^ 32) < 2 ^ 32 <;>
    simp only [hlow, haddr, hup, if_true, if_false] <;> grind

end Granary.Watchpoints
