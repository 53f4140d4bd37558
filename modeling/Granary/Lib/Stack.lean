import Granary.Lib.X86

/-!
# Saving registers and flags

Registers that are pushed and popped again, and the flags that are kept in `ah` meanwhile.
-/

namespace Machine

open BitVec (ofNat eq_of_getLsbD_eq getLsbD_and getLsbD_or getLsbD_not twoPow and_twoPow)

variable (alu : Instr → State → Word)

/-! ## Words -/

def State.pushAll (s : State) (vs : List Word) : State := vs.foldl State.push s

@[simp] theorem pushAll_cons (s : State) (v : Word) (vs : List Word) : s.pushAll (v :: vs) = (s.push v).pushAll vs := rfl

theorem pushAll_frame (s : State) (vs : List Word) : Frame (s.reg .rsp) (8 * vs.length) s.mem (s.pushAll vs).mem := by
  induction vs generalizing s with
  | nil => exact .refl _ _ _
  | cons v vs ih =>
    have h := ih (s.push v)
    rw [push_reg, if_pos rfl] at h
    exact h.push (by rw [List.length_cons]; omega)

theorem pushAll_read (s : State) (vs : List Word) {i : Nat} (hi : i < vs.length) (hlen : 8 * vs.length ≤ 2 ^ 64) :
    (s.pushAll vs).mem.read (s.reg .rsp - ofNat 64 (8 * (i + 1))) = vs[i] := by
  induction vs generalizing s i with
  | nil => cases hi
  | cons v vs ih =>
    rw [List.length_cons] at hlen
    cases i with
    | zero =>
      have h := pushAll_frame (s.push v) vs
      rw [push_reg, if_pos rfl] at h
      have hsub : s.reg .rsp - ofNat 64 (8 * (0 + 1)) = s.reg .rsp - 8 := rfl
      rw [pushAll_cons, hsub, h.read_eq (by rw [BitVec.sub_self]; simp only [BitVec.toNat_zero]; omega), push_mem,
        read_write_self, List.getElem_cons_zero]
    | succ i =>
      have h := ih (s.push v) (Nat.lt_of_succ_lt_succ hi) (by omega)
      have hsub : s.reg .rsp - 8 - ofNat 64 (8 * (i + 1)) = s.reg .rsp - ofNat 64 (8 * (i + 1 + 1)) := by
        bv_omega
      rw [push_reg, if_pos rfl, hsub] at h
      rw [pushAll_cons, h, List.getElem_cons_succ]

/-! ## Registers -/

structure Pushed (regs : List Reg) (s s' : State) : Prop where
  rsp : s'.reg .rsp = s.reg .rsp - ofNat 64 (8 * regs.length)
  reg : ∀ q, q ≠ .rsp → s'.reg q = s.reg q
  mem : Frame (s.reg .rsp) (8 * regs.length) s.mem s'.mem

theorem run_push (regs : List Reg) (s : State) : Pushed regs s (run alu (regs.map .push) s) := by
  induction regs generalizing s with
  | nil => exact ⟨by simp, fun _ _ => rfl, .refl _ _ _⟩
  | cons r regs ih =>
    obtain ⟨hrsp, hreg, hmem⟩ := ih (s.push (s.reg r))
    simp only [push_reg, push_mem, reduceIte] at hrsp hmem
    refine ⟨?_, fun q hq => ?_, ?_⟩
    · refine hrsp.trans ?_
      rw [List.length_cons]
      bv_omega
    · exact (hreg q hq).trans (by rw [push_reg, if_neg hq])
    · exact hmem.push (by rw [List.length_cons]; omega)

def pushedWords (reg : Reg → Word) : List Reg → Word → List (Word × Word)
  | [], _ => []
  | r :: regs, sp => (sp - 8, reg r) :: pushedWords reg regs (sp - 8)

theorem pushedWords_congr {reg reg' : Reg → Word} {regs : List Reg} (h : ∀ r ∈ regs, reg r = reg' r) (sp : Word) :
    pushedWords reg regs sp = pushedWords reg' regs sp := by
  induction regs generalizing sp with
  | nil => rfl
  | cons r regs ih =>
    rw [pushedWords, pushedWords, h r List.mem_cons_self, ih fun q hq => h q (List.mem_cons_of_mem _ hq)]

theorem run_push_mem {regs : List Reg} (hregs : .rsp ∉ regs) (s : State) :
    (run alu (regs.map .push) s).mem = s.mem.writes (pushedWords s.reg regs (s.reg .rsp)) := by
  induction regs generalizing s with
  | nil => rfl
  | cons r regs ih =>
    rw [List.mem_cons, not_or] at hregs
    have hcongr : pushedWords (s.push (s.reg r)).reg regs (s.reg .rsp - 8) = pushedWords s.reg regs (s.reg .rsp - 8) := by
      refine pushedWords_congr (fun q hq => ?_) _
      have hq' : q ≠ .rsp := fun he => hregs.2 (he ▸ hq)
      rw [push_reg, if_neg hq']
    rw [List.map_cons, run_cons, exec, ih hregs.2, push_reg, if_pos rfl, hcongr]
    rfl

theorem forall_pushedWords_iff {P : Word → Prop} (reg : Reg → Word) (regs : List Reg) (sp : Word) :
    (∀ w ∈ pushedWords reg regs sp, P w.1) ↔ ∀ k < regs.length, P (sp - ofNat 64 (8 * (k + 1))) := by
  induction regs generalizing sp with
  | nil => simp [pushedWords]
  | cons r regs ih =>
    rw [pushedWords, List.forall_mem_cons, ih, List.length_cons, Nat.forall_lt_succ_left]
    refine and_congr Iff.rfl (forall₂_congr fun k _ => ?_)
    have hsub : sp - 8 - ofNat 64 (8 * (k + 1)) = sp - ofNat 64 (8 * (k + 1 + 1)) := by bv_omega
    rw [hsub]

/-- The state after they were popped again, if the code between left them on the stack. -/
structure Popped (regs : List Reg) (s v w : State) : Prop where
  rsp : w.reg .rsp = s.reg .rsp
  saved : ∀ r ∈ regs, w.reg r = s.reg r
  other : ∀ r, r ∉ regs → r ≠ .rsp → w.reg r = v.reg r
  mem : w.mem = v.mem

theorem run_pop {regs : List Reg} (hregs : .rsp ∉ regs) (hlen : 8 * regs.length ≤ 2 ^ 64) {s v : State}
    (hrsp : v.reg .rsp = (run alu (regs.map .push) s).reg .rsp)
    (hmem : ∀ b, Below (s.reg .rsp) (8 * regs.length) b → v.mem b = (run alu (regs.map .push) s).mem b) :
    Popped regs s v (run alu (regs.reverse.map .pop) v) := by
  induction regs generalizing s with
  | nil => exact ⟨hrsp, nofun, fun _ _ _ => rfl, rfl⟩
  | cons r regs ih =>
    rw [List.mem_cons, not_or] at hregs
    simp only [List.length_cons] at hlen hmem
    simp only [List.map_cons, run_cons, exec] at hrsp hmem
    have hpushed := (run_push alu regs (s.push (s.reg r))).mem
    simp only [push_reg, push_mem, reduceIte] at hpushed
    obtain ⟨hrsp', hsaved, hother, hmem'⟩ := ih hregs.2 (by omega) hrsp fun b hb => by
      refine hmem b ?_
      rw [push_reg, if_pos rfl] at hb
      unfold Below at hb ⊢
      bv_omega
    rw [push_reg, if_pos rfl] at hrsp'
    -- the word that was pushed first is the one that is popped last
    have htop : v.mem.read (s.reg .rsp - 8) = s.reg r := by
      calc v.mem.read (s.reg .rsp - 8)
          = (run alu (regs.map .push) (s.push (s.reg r))).mem.read (s.reg .rsp - 8) :=
            read_congr fun j hj => hmem _ (by unfold Below; bv_omega)
        _ = (s.mem.write (s.reg .rsp - 8) (s.reg r)).read (s.reg .rsp - 8) := hpushed.read_eq (by bv_omega)
        _ = s.reg r := read_write_self ..
    have hne : Reg.rsp ≠ r := hregs.1
    rw [List.reverse_cons, List.map_append, run_append]
    generalize run alu (regs.reverse.map .pop) v = w at hrsp' hsaved hother hmem' ⊢
    refine ⟨?_, fun q hq => ?_, fun q hq hqrsp => ?_, ?_⟩
    · simp [exec, hne, hrsp']
    · by_cases hqr : q = r
      · simpa [exec, hqr, State.top, hrsp', hmem'] using htop
      · have hmemq := (List.mem_cons.mp hq).resolve_left hqr
        have hqrsp : q ≠ .rsp := fun he => hregs.2 (he ▸ hmemq)
        simp [exec, hqr, hqrsp, hsaved q hmemq]
    · rw [List.mem_cons, not_or] at hq
      simp [exec, hq.1, hqrsp, hother q hq.2 hqrsp]
    · simp [exec, hmem']

/-! ## Flags -/

theorem ahMask_high {i : Nat} (h : 8 ≤ i) : ahMask.getLsbD i = false := by
  have hlt : ahMask.toNat < 2 ^ 8 := by decide
  exact Nat.testBit_lt_two_pow (Nat.lt_of_lt_of_le hlt (Nat.pow_le_pow_right (by decide) h))

theorem lahf_shr (rax flags : Word) :
    (rax &&& (~~~0xff00 : Word) ||| (flags &&& ahMask ||| 2) <<< 8) >>> 8 &&& ahMask = flags &&& ahMask := by
  apply eq_of_getLsbD_eq
  intro i hi
  simp only [getLsbD_and, BitVec.getLsbD_ushiftRight, getLsbD_or, BitVec.getLsbD_shiftLeft]
  rcases Nat.lt_or_ge i 8 with h | h
  · have hcases : i = 0 ∨ i = 1 ∨ i = 2 ∨ i = 3 ∨ i = 4 ∨ i = 5 ∨ i = 6 ∨ i = 7 := by omega
    rcases hcases with rfl | rfl | rfl | rfl | rfl | rfl | rfl | rfl <;> simp [ahMask]
  · simp [ahMask_high h]

theorem sahf_and (flags rax : Word) : (flags &&& ~~~ahMask ||| rax >>> 8 &&& ahMask) &&& ahMask = rax >>> 8 &&& ahMask := by
  apply eq_of_getLsbD_eq
  intro i hi
  simp only [getLsbD_and, getLsbD_or, getLsbD_not]
  cases ahMask.getLsbD i <;> simp

theorem of_sahf (flags rax : Word) : of (flags &&& ~~~ahMask ||| rax >>> 8 &&& ahMask) = of flags := by
  simp only [of, getLsbD_or, getLsbD_and, getLsbD_not, ahMask_high (by decide : 8 ≤ 11)]
  simp

theorem and_arithMask_eq_iff {flags flags' : Word} :
    flags' &&& arithMask = flags &&& arithMask ↔ flags' &&& ahMask = flags &&& ahMask ∧ of flags' = of flags := by
  constructor
  · intro h
    have hbit : ∀ i, arithMask.getLsbD i = true → flags'.getLsbD i = flags.getLsbD i := by
      intro i hi
      have hi' := congrArg (BitVec.getLsbD · i) h
      simpa only [getLsbD_and, hi, Bool.and_true] using hi'
    refine ⟨?_, hbit 11 (by decide)⟩
    apply eq_of_getLsbD_eq
    intro i hi
    rw [getLsbD_and, getLsbD_and]
    cases hah : ahMask.getLsbD i with
    | false => simp
    | true => rw [hbit i (by rw [arithMask, getLsbD_or, hah, Bool.true_or])]
  · rintro ⟨hah, hof⟩
    have hbit : flags' &&& twoPow 64 11 = flags &&& twoPow 64 11 := by
      rw [and_twoPow, and_twoPow, ← of, hof, of]
    have hmask : arithMask = ahMask ||| twoPow 64 11 := by decide
    rw [hmask, BitVec.and_or_distrib_left, BitVec.and_or_distrib_left, hah, hbit]

end Machine
