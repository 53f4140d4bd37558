import Granary.Gencode.Lemmas.DirectBranch
import Granary.Interrupts.Routines

/-!
# Interrupt routines: the ways out
-/

namespace Granary.Interrupts

open Machine Gencode
open InterruptStackFrame (instructionPointer segmentCs segmentSs stackPointer)

variable (alu : Instr → State → Word) (orFlags andFlags : State → Word) {c : Routines} {vector : Nat} {s v : State}
  {b isf sp : Word} {m : Memory}

/-! ## The stack of the routines -/

structure SavedWords (c : Routines) (s : State) (b : Word) (m : Memory) : Prop where
  isf : m.read (b + 8) = b + 56
  ret : m.read (b + 16) = c.returnAddr
  flags : m.read (b + 24) = s.flags
  rsi : m.read (b + 32) = s.reg .rsi
  rdi : m.read (b + 40) = s.reg .rdi
  sp : m.read (b + 48) = s.reg .rsp

structure Holding (c : Routines) (s : State) (b : Word) (v : State) : Prop where
  rsp : v.reg .rsp = b
  reg : ∀ r, r ≠ .rax → r ≠ .rdi → r ≠ .rsi → r ≠ .rsp → v.reg r = s.reg r
  rax : v.mem.read b = s.reg .rax
  words : SavedWords c s b v.mem

structure Ready (c : Routines) (s : State) (b : Word) (v : State) : Prop where
  rsp : v.reg .rsp = b + 8
  reg : ∀ r, r ≠ .rdi → r ≠ .rsi → r ≠ .rsp → v.reg r = s.reg r
  words : SavedWords c s b v.mem

theorem Holding.pop (h : Holding c s b v) : Ready c s b (exec alu (.pop .rax) v) := by
  refine ⟨?_, fun r hrdi hrsi hrsp => ?_, h.words⟩
  · simp only [exec, set_reg, drop_reg, reduceCtorEq, reduceIte, h.rsp]
  · by_cases hrax : r = .rax
    · simp only [exec, set_reg, hrax, reduceIte, State.top, h.rsp, h.rax]
    · simp only [exec, set_reg, drop_reg, hrax, hrsp, reduceIte, h.reg r hrax hrdi hrsi hrsp]

/-! ## Back to the vector -/

theorem slot_eqs (b : Word) : b + 8 + 8 = b + 16 ∧ b + 16 + 8 = b + 24 ∧ b + 24 + 8 = b + 32 ∧ b + 32 + 8 = b + 40 ∧
    b + 40 + 8 = b + 48 ∧ b + 8 + 24 = b + 32 ∧ b + 48 + 16 = b + 56 + 8 := by
  refine ⟨?_, ?_, ?_, ?_, ?_, ?_, ?_⟩ <;> bv_omega

theorem Ready.back (h : Ready c s b v) :
    let t := (run alu [.lea .rsp .rsp 8] v).ret 0
    t.rip = c.returnAddr ∧ t.reg .rsp = b + 24 ∧ (∀ r, r ≠ .rsp → t.reg r = v.reg r) ∧ t.mem = v.mem := by
  obtain ⟨h8, h16, -⟩ := slot_eqs b
  refine ⟨?_, ?_, fun r hr => ?_, rfl⟩
  · simp only [run_cons, run_nil, exec, State.ret, jmp_rip, State.top, set_reg, set_mem, reduceIte, h.rsp, h8, h.words.ret]
  · simp only [run_cons, run_nil, exec, State.ret, jmp_reg, drop_reg, set_reg, reduceIte, h.rsp, h8]
    exact h16
  · simp only [run_cons, run_nil, exec, State.ret, jmp_reg, drop_reg, set_reg, hr, reduceIte]

theorem Ready.leaveVector (h : Ready c s b v) :
    AtOriginal c s (leaveVector alu c ((run alu [.lea .rsp .rsp 8] v).ret 0)) := by
  obtain ⟨-, hrsp, hreg, hmem⟩ := h.back alu
  obtain ⟨-, -, h24, h32, h40, -⟩ := slot_eqs b
  generalize (run alu [.lea .rsp .rsp 8] v).ret 0 = t at hrsp hreg hmem ⊢
  refine ⟨rfl, fun r => ?_, ?_⟩
  · simp only [Interrupts.leaveVector, run_cons, run_nil, exec, jmp_reg, set_reg, drop_reg, drop_mem, set_mem, State.top,
      hrsp, hmem, reduceIte, reduceCtorEq, h24, h32, h40, h.words.rsi, h.words.rdi, h.words.sp]
    by_cases hr : r = .rsp ∨ r = .rdi ∨ r = .rsi
    · obtain rfl | rfl | rfl := hr <;> simp only [reduceIte, reduceCtorEq]
    · rw [not_or, not_or] at hr
      simp only [hr.1, hr.2.1, hr.2.2, reduceIte, hreg r hr.1, h.reg r hr.2.1 hr.2.2 hr.1]
  · simp only [Interrupts.leaveVector, run_cons, run_nil, exec, jmp_flags, set_flags, drop_flags, State.top, hrsp, hmem,
      h.words.flags]

/-! ## Out of the interrupt -/

theorem Ready.iret (h : Ready c s b v) : AtIret (b + 56) s (iretFromInterrupt alu v) := by
  obtain ⟨-, -, -, h32, h40, h24, h16⟩ := slot_eqs b
  refine ⟨?_, fun r hr => ?_⟩
  · simp only [iretFromInterrupt, run_cons, run_nil, exec, set_reg, drop_reg, reduceIte, reduceCtorEq, h.rsp, h24, h32, h40,
      h16, instructionPointer]
  · simp only [iretFromInterrupt, run_cons, run_nil, exec, set_reg, drop_reg, drop_mem, set_mem, State.top, reduceIte,
      reduceCtorEq, h.rsp, h24, h32, h.words.rsi, h.words.rdi, hr]
    by_cases hr' : r = .rdi ∨ r = .rsi
    · obtain rfl | rfl := hr' <;> simp only [reduceIte, reduceCtorEq]
    · rw [not_or] at hr'
      simp only [hr'.1, hr'.2, reduceIte, h.reg r hr'.1 hr'.2 hr]

theorem DirectlyBelow.clear (h : DirectlyBelow isf sp) : ReturnClear isf sp := by
  unfold DirectlyBelow at h
  have hsp : sp = sp - (isf + 48) + (isf + 48) := (BitVec.sub_add_cancel ..).symm
  generalize sp - (isf + 48) = pad at h hsp
  subst hsp
  have hflags : InterruptStackFrame.flags = 24 := rfl
  refine ⟨?_, ⟨?_, ?_⟩, ⟨?_, ?_, ?_⟩, ⟨?_, ?_, ?_⟩⟩ <;> unfold WordsApart <;> constructor <;> bv_omega

structure Returning (s : State) (m : Memory) (isf sp : Word) (u : State) : Prop where
  rsp : u.reg .rsp = isf - 48
  rax : u.reg .rax = sp
  reg : ∀ r, r ≠ .rax → r ≠ .rdi → r ≠ .rsi → r ≠ .rsp → u.reg r = s.reg r
  rdi : u.mem.read (isf - 16) = s.reg .rdi
  rsi : u.mem.read (isf - 24) = s.reg .rsi
  savedRip : u.mem.read (sp - 8) = m.read (isf + instructionPointer)
  savedFlags : u.mem.read (sp - 16) = m.read (isf + InterruptStackFrame.flags)
  savedRax : u.mem.read (sp - 24) = s.reg .rax

structure Reading (s : State) (m : Memory) (isf sp : Word) (u : State) : Prop where
  rsp : u.reg .rsp = isf - 48
  rax : u.reg .rax = sp
  rdi : u.reg .rdi = isf
  reg : ∀ r, r ≠ .rax → r ≠ .rdi → r ≠ .rsi → r ≠ .rsp → u.reg r = s.reg r
  savedRax : u.mem.read (isf - 48) = s.reg .rax
  savedRdi : u.mem.read (isf - 16) = s.reg .rdi
  savedRsi : u.mem.read (isf - 24) = s.reg .rsi
  ip : u.mem.read (isf + instructionPointer) = m.read (isf + instructionPointer)
  flags : u.mem.read (isf + InterruptStackFrame.flags) = m.read (isf + InterruptStackFrame.flags)

theorem Ready.reading (h : Ready c s b v) :
    Reading s v.mem (b + 56) (v.mem.read (b + 56 + stackPointer))
      (run alu [.pop .rdi, .push .rax, .load .rax .rdi stackPointer] v) := by
  obtain ⟨h8, -⟩ := slot_eqs b
  have hpush : b + 16 - 8 = b + 8 := by bv_omega
  have hrax : b + 56 - 48 = b + 8 := by bv_omega
  have hrdi : b + 56 - 16 = b + 40 := by bv_omega
  have hrsi : b + 56 - 24 = b + 32 := by bv_omega
  have hsp : b + 56 + stackPointer = b + 88 := by unfold stackPointer; bv_omega
  have hip : b + 56 + instructionPointer = b + 64 := by unfold instructionPointer; bv_omega
  have hflags : b + 56 + InterruptStackFrame.flags = b + 80 := by unfold InterruptStackFrame.flags; bv_omega
  have hread : ∀ d : Word, 16 ≤ d.toNat → d.toNat < 128 →
      (v.mem.write (b + 8) (s.reg .rax)).read (b + d) = v.mem.read (b + d) := by
    intro d hlo hhi
    refine WordsApart.read_write ⟨?_, ?_⟩ .. <;> bv_omega
  have hmem : (run alu [.pop .rdi, .push .rax, .load .rax .rdi stackPointer] v).mem = v.mem.write (b + 8) (s.reg .rax) := by
    simp only [run_cons, run_nil, exec, set_mem, push_mem, drop_mem, set_reg, drop_reg, reduceIte, reduceCtorEq, h.rsp, h8,
      hpush, h.reg .rax (by decide) (by decide) (by decide)]
  refine ⟨?_, ?_, ?_, fun r h1 h2 h3 h4 => ?_, ?_, ?_, ?_, ?_, ?_⟩
  · simp only [run_cons, run_nil, exec, set_reg, push_reg, drop_reg, reduceIte, reduceCtorEq, h.rsp, h8, hpush, hrax]
  · simp only [run_cons, run_nil, exec, set_reg, push_reg, drop_reg, set_mem, push_mem, drop_mem, State.top, reduceIte,
      reduceCtorEq, h.rsp, h8, hpush, h.words.isf, h.reg .rax (by decide) (by decide) (by decide), hsp]
    rw [hread 88 (by decide) (by decide)]
  · simp only [run_cons, run_nil, exec, set_reg, push_reg, State.top, reduceIte, reduceCtorEq, h.rsp, h.words.isf]
  · simp only [run_cons, run_nil, exec, set_reg, push_reg, drop_reg, h1, h2, h4, reduceIte, h.reg r h2 h3 h4]
  · rw [hmem, hrax, read_write_self]
  · rw [hmem, hrdi, hread _ (by decide) (by decide), h.words.rdi]
  · rw [hmem, hrsi, hread _ (by decide) (by decide), h.words.rsi]
  · rw [hmem, hip, hread _ (by decide) (by decide)]
  · rw [hmem, hflags, hread _ (by decide) (by decide)]

section Stores

def moveWord (base : Reg) (disp k : Word) : List Instr := [.load .rsi base disp, .store .rax k .rsi]

theorem moveWord_spec (base : Reg) (disp k : Word) (u : State) :
    (run alu (moveWord base disp k) u).mem = u.mem.write (u.reg .rax + k) (u.mem.read (u.reg base + disp)) ∧
      ∀ r, r ≠ .rsi → (run alu (moveWord base disp k) u).reg r = u.reg r := by
  refine ⟨?_, fun r hr => ?_⟩
  · simp only [moveWord, run_cons, run_nil, exec, set_reg, set_mem, reduceIte, reduceCtorEq]
  · simp only [moveWord, run_cons, run_nil, exec, set_reg, hr, reduceIte]

variable (u : State) (ip flags k8 k16 k24 : Word)

def returnStores : List Instr := moveWord .rdi ip k8 ++ (moveWord .rdi flags k16 ++ moveWord .rsp 0 k24)

theorem returnStores_reg {r : Reg} (hr : r ≠ .rsi) : (run alu (returnStores ip flags k8 k16 k24) u).reg r = u.reg r := by
  rw [returnStores, run_append, run_append, (moveWord_spec alu ..).2 r hr, (moveWord_spec alu ..).2 r hr,
    (moveWord_spec alu ..).2 r hr]

theorem returnStores_mem : (run alu (returnStores ip flags k8 k16 k24) u).mem =
    (let m1 := u.mem.write (u.reg .rax + k8) (u.mem.read (u.reg .rdi + ip))
     let m2 := m1.write (u.reg .rax + k16) (m1.read (u.reg .rdi + flags))
     m2.write (u.reg .rax + k24) (m2.read (u.reg .rsp + 0))) := by
  rw [returnStores, run_append, run_append]
  obtain ⟨hmem, hreg⟩ := moveWord_spec alu .rdi ip k8 u
  generalize run alu (moveWord .rdi ip k8) u = u1 at hmem hreg ⊢
  obtain ⟨hmem1, hreg1⟩ := moveWord_spec alu .rdi flags k16 u1
  generalize run alu (moveWord .rdi flags k16) u1 = u2 at hmem1 hreg1 ⊢
  rw [(moveWord_spec alu .rsp 0 k24 u2).1, hmem1, hreg1 .rax (by decide), hreg1 .rsp (by decide), hmem,
    hreg .rax (by decide), hreg .rdi (by decide), hreg .rsp (by decide)]

end Stores

theorem Reading.returning {u : State} (h : Reading s m isf sp u) (hclear : ReturnClear isf sp) :
    Returning s m isf sp (run alu (returnStores instructionPointer InterruptStackFrame.flags (-8) (-16) (-24)) u) := by
  have h8 : sp + -8 = sp - 8 := (BitVec.sub_eq_add_neg ..).symm
  have h16 : sp + -16 = sp - 16 := (BitVec.sub_eq_add_neg ..).symm
  have h24 : sp + -24 = sp - 24 := (BitVec.sub_eq_add_neg ..).symm
  have h0 : isf - 48 + 0 = isf - 48 := BitVec.add_zero _
  have h16_8 : WordsApart (sp - 8) (sp - 16) := by constructor <;> bv_omega
  have h24_8 : WordsApart (sp - 8) (sp - 24) := by constructor <;> bv_omega
  have h24_16 : WordsApart (sp - 16) (sp - 24) := by constructor <;> bv_omega
  have hmem : (run alu (returnStores instructionPointer InterruptStackFrame.flags (-8) (-16) (-24)) u).mem =
      ((u.mem.write (sp - 8) (m.read (isf + instructionPointer))).write (sp - 16)
        (m.read (isf + InterruptStackFrame.flags))).write (sp - 24) (s.reg .rax) := by
    rw [returnStores_mem]
    simp only [h.rax, h.rdi, h.rsp, h8, h16, h24, h0]
    rw [h.ip, hclear.flags.read_write, h.flags, hclear.rax.2.read_write, hclear.rax.1.read_write, h.savedRax]
  refine ⟨?_, ?_, fun r h1 h2 h3 h4 => ?_, ?_, ?_, ?_, ?_, ?_⟩
  · rw [returnStores_reg alu _ _ _ _ _ _ (by decide), h.rsp]
  · rw [returnStores_reg alu _ _ _ _ _ _ (by decide), h.rax]
  · rw [returnStores_reg alu _ _ _ _ _ _ h3, h.reg r h1 h2 h3 h4]
  · rw [hmem, hclear.rdi.2.2.read_write, hclear.rdi.2.1.read_write, hclear.rdi.1.read_write, h.savedRdi]
  · rw [hmem, hclear.rsi.2.2.read_write, hclear.rsi.2.1.read_write, hclear.rsi.1.read_write, h.savedRsi]
  · rw [hmem, h24_8.read_write, h16_8.read_write, read_write_self]
  · rw [hmem, h24_16.read_write, read_write_self]
  · rw [hmem, read_write_self]

def restoreArguments (k : Word) : List Instr := [.lea .rax .rax k, .load .rsi .rsp 24, .load .rdi .rsp 32, .mov .rsp .rax]

theorem Returning.restored {u : State} (h : Returning s m isf sp u) {k : Word} (hk : sp + k = sp - 24) :
    (run alu (restoreArguments k) u).reg .rsp = sp - 24 ∧
      (∀ r, r ≠ .rax → r ≠ .rsp → (run alu (restoreArguments k) u).reg r = s.reg r) ∧
      (run alu (restoreArguments k) u).mem = u.mem := by
  have hrsi : isf - 48 + 24 = isf - 24 := by bv_omega
  have hrdi : isf - 48 + 32 = isf - 16 := by bv_omega
  refine ⟨?_, fun r hrax hrsp => ?_, ?_⟩
  · simp only [restoreArguments, run_cons, run_nil, exec, set_reg, reduceIte, reduceCtorEq, h.rax, hk]
  · simp only [restoreArguments, run_cons, run_nil, exec, set_reg, set_mem, reduceIte, reduceCtorEq, h.rsp, hrsi, hrdi,
      h.rsi, h.rdi, hrax, hrsp]
    by_cases hr : r = .rdi ∨ r = .rsi
    · obtain rfl | rfl := hr <;> simp only [reduceIte, reduceCtorEq]
    · rw [not_or] at hr
      simp only [hr.1, hr.2, reduceIte, h.reg r hrax hr.1 hr.2 hrsp]
  · simp only [restoreArguments, run_cons, run_nil, exec, set_mem]

theorem Returning.ret {u t : State} (h : Returning s m isf sp u) (hsp : sp = m.read (isf + stackPointer))
    (hrsp : t.reg .rsp = sp - 24) (hreg : ∀ r, r ≠ .rax → r ≠ .rsp → t.reg r = s.reg r) (hmem : t.mem = u.mem) :
    AtReturn m isf s ((run alu [.pop .rax, .popf] t).ret 0) := by
  have hrax : sp - 24 + 8 = sp - 16 := by bv_omega
  have hflags : sp - 16 + 8 = sp - 8 := by bv_omega
  have hrip : sp - 8 + (8 + 0) = sp := by bv_omega
  refine ⟨?_, ?_, ?_, fun r hr => ?_⟩
  · simp only [run_cons, run_nil, exec, State.ret, State.top, jmp_rip, set_reg, drop_reg, drop_mem, set_mem, reduceIte,
      reduceCtorEq, hrsp, hmem, hrax, hflags, h.savedRip]
  · simp only [run_cons, run_nil, exec, State.ret, State.top, jmp_flags, drop_flags, set_reg, drop_reg, drop_mem, set_mem,
      reduceIte, reduceCtorEq, hrsp, hmem, hrax, h.savedFlags]
  · simp only [run_cons, run_nil, exec, State.ret, jmp_reg, set_reg, drop_reg, reduceIte, reduceCtorEq, hrsp, hrax, hflags,
      hrip]
    exact hsp
  · simp only [run_cons, run_nil, exec, State.ret, State.top, jmp_reg, set_reg, drop_reg, reduceIte, hrsp, hmem, h.savedRax,
      hr]
    by_cases hrax' : r = .rax
    · simp only [hrax', reduceIte]
    · simp only [hrax', reduceIte, hreg r hrax' hr]

theorem returnFromInterrupt_eq :
    returnFromInterrupt alu v =
      (run alu [.pop .rax, .popf]
        (run alu (restoreArguments (-24))
          (run alu (returnStores instructionPointer InterruptStackFrame.flags (-8) (-16) (-24))
            (run alu [.pop .rdi, .push .rax, .load .rax .rdi stackPointer] v)))).ret 0 := by
  rw [← run_append, ← run_append, ← run_append, returnFromInterrupt, returnStores, restoreArguments, moveWord,
    moveWord, moveWord]
  simp only [List.cons_append, List.nil_append]

theorem Ready.ret (h : Ready c s b v) (hclear : ReturnClear (b + 56) (v.mem.read (b + 56 + stackPointer))) :
    AtReturn v.mem (b + 56) s (returnFromInterrupt alu v) := by
  have hreturning := (h.reading alu).returning alu hclear
  obtain ⟨hrsp, hreg, hmem⟩ := hreturning.restored alu (k := -24) (BitVec.sub_eq_add_neg ..).symm
  rw [returnFromInterrupt_eq]
  exact hreturning.ret alu rfl hrsp hreg hmem

/-! ## Into the common routine -/

def entryWords (c : Routines) (vector : Nat) (s : State) : List Word :=
  (if hasErrorCode vector then [s.reg .rsp] else [s.reg .rsp, s.reg .rsp]) ++
    [s.reg .rdi, s.reg .rsi, s.flags, c.returnAddr, isfOf vector (s.reg .rsp), s.reg .rax]

def entered (c : Routines) (vector : Nat) (s : State) : State :=
  run alu [.push .rdi, .push .rax] ((enterVector alu vector s).call c.returnAddr c.commonRoutine)

theorem isf_eqs (rsp : Word) : rsp - 8 - 8 - 8 + 24 = rsp ∧ rsp - 8 - 8 - 8 - 8 + 24 = rsp - 8 := by
  constructor <;> bv_omega

theorem entered_mem : (entered alu c vector s).mem = (s.pushAll (entryWords c vector s)).mem := by
  obtain ⟨h, h'⟩ := isf_eqs (s.reg .rsp)
  have h0 : s.reg .rsp - 8 + 0 = s.reg .rsp - 8 := BitVec.add_zero _
  cases hec : hasErrorCode vector <;>
    simp only [entered, enterVector, entryWords, isfOf, hec, State.call, State.pushAll, if_true, List.append_nil,
      List.nil_append, List.cons_append, run_cons, run_nil, exec, List.foldl_cons, List.foldl_nil, push_mem, push_reg, set_reg,
      set_mem, jmp_mem, jmp_reg, reduceIte, reduceCtorEq, push_flags, set_flags, h, h', h0,
      read_write_self, Bool.false_eq_true]

theorem entered_reg {r : Reg} (hrdi : r ≠ .rdi) (hrsi : r ≠ .rsi) (hrsp : r ≠ .rsp) :
    (entered alu c vector s).reg r = s.reg r := by
  cases hec : hasErrorCode vector <;>
    simp only [entered, enterVector, hec, State.call, if_true, List.append_nil, List.nil_append, List.cons_append,
      run_cons, run_nil, exec, push_reg, set_reg, jmp_reg, reduceIte, hrdi, hrsi, hrsp, Bool.false_eq_true]

theorem entered_pointers : (entered alu c vector s).reg .rsp = isfOf vector (s.reg .rsp) - 56 ∧
    (entered alu c vector s).reg .rdi = isfOf vector (s.reg .rsp) := by
  have h56 : s.reg .rsp - 8 - 8 - 8 - 8 - 8 - 8 - 8 = s.reg .rsp - 56 := by bv_omega
  have h64 : s.reg .rsp - 56 - 8 = s.reg .rsp - 8 - 56 := by bv_omega
  obtain ⟨h, h'⟩ := isf_eqs (s.reg .rsp)
  cases hec : hasErrorCode vector <;>
    simp only [entered, enterVector, isfOf, hec, State.call, if_true, List.append_nil, List.nil_append, List.cons_append,
      run_cons, run_nil, exec, push_reg, set_reg, jmp_reg, reduceIte, reduceCtorEq, Bool.false_eq_true, h, h', h56, h64,
      and_self]

theorem entered_slot {i : Nat} {a : Word} (hi : i < (entryWords c vector s).length)
    (ha : a = s.reg .rsp - BitVec.ofNat 64 (8 * (i + 1))) :
    (entered alu c vector s).mem.read a = (entryWords c vector s)[i] := by
  have hlen : (entryWords c vector s).length ≤ 8 := by
    cases hec : hasErrorCode vector <;> simp [entryWords, hec]
  rw [entered_mem, ha]
  exact pushAll_read s _ hi (by omega)

theorem entered_read {k i : Nat} {w : Word} (hi : 8 * (i + 1) + k = 56)
    (hw : (s.reg .rsp :: [s.reg .rdi, s.reg .rsi, s.flags, c.returnAddr, isfOf vector (s.reg .rsp), s.reg .rax])[i]? = some w) :
    (entered alu c vector s).mem.read (isfOf vector (s.reg .rsp) - 56 + BitVec.ofNat 64 k) = w := by
  cases hec : hasErrorCode vector with
  | true =>
    have hwords : (entryWords c vector s)[i]? = some w := by
      rw [entryWords, hec]
      exact hw
    obtain ⟨hlt, rfl⟩ := List.getElem?_eq_some_iff.1 hwords
    refine entered_slot alu hlt ?_
    simp only [isfOf, hec, if_true]
    bv_omega
  | false =>
    have hwords : (entryWords c vector s)[i + 1]? = some w := by
      rw [entryWords, hec]
      exact hw
    obtain ⟨hlt, rfl⟩ := List.getElem?_eq_some_iff.1 hwords
    refine entered_slot alu hlt ?_
    simp only [isfOf, hec, Bool.false_eq_true, if_false]
    bv_omega

theorem entered_holding : Holding c s (isfOf vector (s.reg .rsp) - 56) (entered alu c vector s) where
  rsp := (entered_pointers alu).1
  reg _ _ hrdi hrsi hrsp := entered_reg alu hrdi hrsi hrsp
  rax := by
    have h : (entered alu c vector s).mem.read (isfOf vector (s.reg .rsp) - 56 + BitVec.ofNat 64 0) = s.reg .rax :=
      entered_read alu (i := 6) rfl rfl
    rwa [BitVec.add_zero] at h
  words := {
    isf := (entered_read alu (k := 8) (i := 5) rfl rfl).trans (BitVec.sub_add_cancel ..).symm
    ret := entered_read alu (k := 16) (i := 4) rfl rfl
    flags := entered_read alu (k := 24) (i := 3) rfl rfl
    rsi := entered_read alu (k := 32) (i := 2) rfl rfl
    rdi := entered_read alu (k := 40) (i := 1) rfl rfl
    sp := entered_read alu (k := 48) (i := 0) rfl rfl }

/-! ## Around the handler -/

theorem Holding.of_stack {w : State} (h : Holding c s b v) (hrsp : w.reg .rsp = v.reg .rsp)
    (hreg : ∀ r, r ≠ .rax → r ≠ .rdi → r ≠ .rsi → r ≠ .rsp → w.reg r = v.reg r)
    (hmem : ∀ d : Word, d.toNat < 56 → w.mem (b + d) = v.mem (b + d)) : Holding c s b w := by
  have hread : ∀ k : Word, k.toNat ≤ 48 → w.mem.read (b + k) = v.mem.read (b + k) := by
    intro k hk
    refine read_congr fun j hj => ?_
    rw [BitVec.add_assoc]
    exact hmem _ (by bv_omega)
  refine ⟨hrsp.trans h.rsp, fun r h1 h2 h3 h4 => (hreg r h1 h2 h3 h4).trans (h.reg r h1 h2 h3 h4), ?_, ?_⟩
  · have h0 := hread 0 (by decide)
    rw [show b + 0 = b from BitVec.add_zero b] at h0
    rw [h0, h.rax]
  · exact ⟨(hread 8 (by decide)).trans h.words.isf, (hread 16 (by decide)).trans h.words.ret,
      (hread 24 (by decide)).trans h.words.flags, (hread 32 (by decide)).trans h.words.rsi,
      (hread 40 (by decide)).trans h.words.rdi, (hread 48 (by decide)).trans h.words.sp⟩

theorem checkPrivilege_spec (u : State) :
    (∀ r, r ≠ .rax → (checkPrivilege alu orFlags andFlags u).reg r = u.reg r) ∧
      (checkPrivilege alu orFlags andFlags u).mem = u.mem ∧
      (zf (checkPrivilege alu orFlags andFlags u).flags = true ↔ ¬ InUserMode u.mem (u.reg .rdi)) := by
  refine ⟨fun r hr => ?_, rfl, ?_⟩
  · simp only [checkPrivilege, run_cons, run_nil, exec, set_reg, hr, reduceIte]
  · simp only [checkPrivilege, run_cons, run_nil, exec, set_reg, set_mem, reduceIte, reduceCtorEq, zf_setZf,
      decide_eq_true_eq, InUserMode, not_not]

theorem checkPrivilege_holding (h : Holding c s b v) : Holding c s b (checkPrivilege alu orFlags andFlags v) := by
  obtain ⟨hreg, hmem, -⟩ := checkPrivilege_spec alu orFlags andFlags v
  refine h.of_stack (hreg _ (by decide)) (fun r hrax _ _ _ => hreg r hrax) fun d _ => ?_
  rw [hmem]

theorem Holding.restored (h : Holding c s b v)
    (hreturns : HandlerReturns (routineStack c) (run alu ((savedRegs c).map .push) v)
      (callHandler alu c (run alu ((savedRegs c).map .push) v))) :
    let t := callHandler alu c (run alu ((savedRegs c).map .push) v)
    let w := saveAndRestoreRegisters alu (savedRegs c) (callHandler alu c) v
    Holding c s b w ∧ w.reg .rdi = t.reg .rdi ∧ w.mem = t.mem := by
  have hlen : 8 * (savedRegs c).length ≤ 96 := zombies_length _
  have hrsp : .rsp ∉ savedRegs c := rsp_notMem_zombies _
  have hpushed := run_push alu (savedRegs c) v
  obtain ⟨hrsp', hsaved, hstack⟩ := hreturns
  have hrdi : .rdi ∉ savedRegs c := by
    unfold savedRegs Build.zombies
    split <;> decide
  have hpopped := run_pop alu hrsp (by omega) (s := v) hrsp' fun a ha => by
    refine hstack a ?_
    rw [hpushed.rsp]
    unfold Below at ha
    unfold routineStack
    bv_omega
  refine ⟨h.of_stack hpopped.rsp (fun r hrax hrdi' hrsi hr => ?_) (fun d hd => ?_), ?_, hpopped.mem⟩
  · by_cases hmem : r ∈ savedRegs c
    · exact hpopped.saved r hmem
    · have hcallee := calleeSaved_of_notMem _ r hrax hrsi hrdi' hr hmem
      exact (hpopped.other r hmem hr).trans ((hsaved r hcallee).trans (hpushed.reg r hr))
  · have hv := h.rsp
    have hkeep : (callHandler alu c (run alu ((savedRegs c).map .push) v)).mem (b + d) =
        (run alu ((savedRegs c).map .push) v).mem (b + d) := by
      refine hstack _ ?_
      rw [hpushed.rsp, hv]
      unfold routineStack
      bv_omega
    have hframe : (run alu ((savedRegs c).map .push) v).mem (b + d) = v.mem (b + d) := by
      refine hpushed.mem _ ?_
      rw [hv]
      unfold Below
      bv_omega
    exact (congrFun hpopped.mem _).trans (hkeep.trans hframe)
  · exact hpopped.other _ hrdi (by decide)

theorem Holding.compared {w : State} (h : Holding c s b w) :
    let u := run alu [.xor .rax .rax, .cmp32 .rdi .rax, .pop .rax] w
    Ready c s b u ∧ u.mem = w.mem ∧ jl u.flags = (handledState w).slt 0 ∧ zf u.flags = decide (handledState w = 0) := by
  have hcmp : Holding c s b (run alu [.xor .rax .rax, .cmp32 .rdi .rax] w) := by
    refine h.of_stack ?_ (fun r hrax _ _ _ => ?_) fun d _ => rfl
    · simp only [run_cons, run_nil, exec, arith_reg, reduceIte, reduceCtorEq]
    · simp only [run_cons, run_nil, exec, arith_reg, hrax, reduceIte]
  have hflags : ∃ f, (run alu [.xor .rax .rax, .cmp32 .rdi .rax] w).flags = subFlags (handledState w) 0 f := by
    refine ⟨(exec alu (.xor .rax .rax) w).flags, ?_⟩
    simp only [run_cons, run_nil, exec, arith_reg, reduceIte, reduceCtorEq, BitVec.xor_self, handledState]
    rfl
  obtain ⟨f, hf⟩ := hflags
  have hpop : ∀ u : State, (exec alu (.pop .rax) u).flags = u.flags := fun _ => rfl
  refine ⟨hcmp.pop alu, rfl, ?_, ?_⟩
  · rw [run_cons, run_cons, run_cons, run_nil, hpop]
    exact (congrArg jl hf).trans (jl_subFlags ..)
  · rw [run_cons, run_cons, run_cons, run_nil, hpop]
    refine (congrArg zf hf).trans ?_
    have h0 : handledState w - 0 = handledState w := BitVec.sub_zero _
    rw [zf_subFlags, h0]

theorem Holding.handled (h : Holding c s b v)
    (hreturns : HandlerReturns (routineStack c) (run alu ((savedRegs c).map .push) v)
      (callHandler alu c (run alu ((savedRegs c).map .push) v))) :
    let t := callHandler alu c (run alu ((savedRegs c).map .push) v)
    Ready c s b (handle alu c v) ∧ (handle alu c v).mem = t.mem ∧
      jl (handle alu c v).flags = (handledState t).slt 0 ∧ zf (handle alu c v).flags = decide (handledState t = 0) := by
  obtain ⟨hholding, hrdi, hmem⟩ := h.restored alu hreturns
  obtain ⟨hready, hmem', hjl, hzf⟩ := hholding.compared alu
  have hstate : handledState (saveAndRestoreRegisters alu (savedRegs c) (callHandler alu c) v) =
      handledState (callHandler alu c (run alu ((savedRegs c).map .push) v)) := congrArg (BitVec.setWidth 32) hrdi
  rw [hstate] at hjl hzf
  exact ⟨hready, hmem'.trans hmem, hjl, hzf⟩

theorem entered_userMode :
    InUserMode (entered alu c vector s).mem ((entered alu c vector s).reg .rdi) ↔
      InUserMode s.mem (isfOf vector (s.reg .rsp)) := by
  have hframe := pushAll_frame s (entryWords c vector s)
  rw [← entered_mem alu] at hframe
  have hlen : 8 * (entryWords c vector s).length ≤ 64 := by
    cases hec : hasErrorCode vector <;> simp [entryWords, hec]
  have hread : ∀ d : Word, 16 ≤ d.toNat → d.toNat ≤ 40 →
      (entered alu c vector s).mem.read (isfOf vector (s.reg .rsp) + d) = s.mem.read (isfOf vector (s.reg .rsp) + d) := by
    intro d hlo hhi
    refine hframe.read_eq ?_
    unfold isfOf
    split <;> bv_omega
  unfold InUserMode
  rw [(entered_pointers alu).2, hread _ (by decide) (by decide), hread _ (by decide) (by decide)]

/-! ## The whole routine -/

def backTo (c : Routines) (u : State) : Resumed := if u.rip = c.returnAddr then .jump (leaveVector alu c u) else .lost u

theorem Ready.backTo (h : Ready c s b v) :
    ∃ t, backTo alu c ((run alu [.lea .rsp .rsp 8] v).ret 0) = .jump t ∧ AtOriginal c s t :=
  ⟨_, if_pos (h.back alu).1, h.leaveVector alu⟩

theorem interruptRoutine_eq :
    interruptRoutine alu orFlags andFlags c vector s =
      (let u := checkPrivilege alu orFlags andFlags (entered alu c vector s)
       if zf u.flags then
        if jl (handle alu c u).flags then .jump (returnFromInterrupt alu (handle alu c u))
        else if zf (handle alu c u).flags then backTo alu c ((run alu [.lea .rsp .rsp 8] (handle alu c u)).ret 0)
        else .iret (iretFromInterrupt alu (handle alu c u))
      else backTo alu c ((run alu [.lea .rsp .rsp 8] (exec alu (.pop .rax) u)).ret 0)) := by
  have hentered : enterCommon alu orFlags andFlags ((enterVector alu vector s).call c.returnAddr c.commonRoutine) =
      checkPrivilege alu orFlags andFlags (entered alu c vector s) := rfl
  simp only [interruptRoutine, commonInterruptRoutine, hentered]
  generalize checkPrivilege alu orFlags andFlags (entered alu c vector s) = u
  cases zf u.flags with
  | false => rfl
  | true =>
    generalize handle alu c u = v
    cases jl v.flags with
    | true => rfl
    | false => cases zf v.flags <;> rfl

end Granary.Interrupts
