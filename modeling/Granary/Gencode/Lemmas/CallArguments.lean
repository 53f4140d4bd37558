import Granary.Gencode.CallArguments
import Granary.Lib.Stack

/-!
# Lemmas about the arguments of clean calls
-/

namespace Granary.Gencode

open Function (update update_of_ne update_self)

open Machine List
open Mangle (MemOp Segment)

variable {alu : Instr → State → Word} {segBase : Segment → Word} {a : CallArgs} {arg : CallArg} {r : Reg} {s : State}
  {before after : List (Reg × CallArg)} {p : Reg × CallArg}
variable {op : MemOp} {reg reg' : Reg → Word}

/-! ## Values -/

theorem addr_congr (h : ∀ r, (CallArg.mem op).Mentions r → reg r = reg' r) : op.addr segBase reg = op.addr segBase reg' := by
  cases op with
  | relAddr seg addr => rfl
  | baseDisp op =>
    have hbase : op.base.elim 0 reg = op.base.elim 0 reg' := by
      cases hb : op.base with
      | none => rfl
      | some q => exact h q (.inl hb)
    have hindex : op.index.elim 0 (reg · * op.scale.setWidth 64) = op.index.elim 0 (reg' · * op.scale.setWidth 64) := by
      cases hi : op.index with
      | none => rfl
      | some q => exact congrArg (· * op.scale.setWidth 64) (h q (.inr hi))
    simp only [MemOp.addr, Mangle.BaseDisp.addr, hbase, hindex]

theorem CallArg.value_congr (h : ∀ r, arg.Mentions r → reg r = reg' r) (mem : Memory) :
    arg.value segBase mem reg = arg.value segBase mem reg' := by
  cases arg with
  | reg q => exact h q rfl
  | mem op => exact congrArg mem.read (addr_congr h)
  | _ => rfl

theorem CallArg.value_of_not_isMem (h : arg.isMem = false) (mem mem' : Memory) :
    arg.value segBase mem = arg.value segBase mem' := by
  cases arg with
  | mem op => cases h
  | _ => rfl

theorem CallArg.eq_reg_of_value (h : ∀ mem reg, arg.value segBase mem reg = reg r) : arg = .reg r := by
  cases arg with
  | imm v =>
    have hv : v = v + 1 := h (fun _ => 0) fun _ => v + 1
    bv_omega
  | reg q =>
    have hq : (if q = r then 1 else 0 : Word) = if r = r then 1 else 0 := h (fun _ => 0) fun x => if x = r then 1 else 0
    by_cases hqr : q = r
    · rw [hqr]
    · rw [if_neg hqr, if_pos rfl] at hq
      exact absurd hq (by decide)
  | mem op =>
    have hread : Memory.read (fun _ => 0) (op.addr segBase fun _ => 1) = 1 := h (fun _ => 0) fun _ => 1
    have hzero : Memory.read (fun _ => 0) (op.addr segBase fun _ => 1) = 0 := by simp [Memory.read]
    exact absurd (hzero.symm.trans hread) (by decide)
  | instr addr =>
    have haddr : addr = addr + 1 := h (fun _ => 0) fun _ => addr + 1
    bv_omega

def ofRegs (reg : Reg → Word) (mem : Memory) : State := { reg, flags := 0, rip := 0, mem }

/-! ## Running the code -/

theorem runArgs_move (dst : Reg) : runArgs alu segBase (arg.move dst) s = s.set dst (arg.value segBase s.mem s.reg) := by
  cases arg with
  | reg q =>
    by_cases h : dst = q
    · subst h
      simp [CallArg.move, runArgs, CallArg.value, State.set]
    · simp [CallArg.move, h, runArgs, ArgItem.exec, exec, CallArg.value]
  | _ => rfl

theorem runArgs_append (code code' : List ArgItem) :
    runArgs alu segBase (code ++ code') s = runArgs alu segBase code' (runArgs alu segBase code s) := foldl_append ..

theorem runArgs_moves (moves : List (Reg × CallArg)) :
    (runArgs alu segBase (moves.flatMap fun p => p.2.move p.1) s).reg =
      Moves.assign (CallArg.value segBase s.mem) moves s.reg := by
  induction moves generalizing s with
  | nil => rfl
  | cons p moves ih =>
    rw [flatMap_cons, runArgs_append, ih, runArgs_move]
    rfl

theorem runArgs_push (regs : List Reg) (s : State) :
    runArgs alu segBase (regs.map fun r => .instr (.push r)) s = run alu (regs.map .push) s := by
  induction regs generalizing s with
  | nil => rfl
  | cons r regs ih => exact ih _

namespace CallArgs

theorem regs_length : a.regs.length = a.args.length := by
  rw [regs, length_take, Nat.min_eq_left a.length_le]

theorem moves_map_fst : a.moves.map (·.1) = a.regs := map_fst_zip (Nat.le_of_eq regs_length)

theorem moves_map_snd : a.moves.map (·.2) = a.args := map_snd_zip (Nat.le_of_eq regs_length.symm)

theorem moves_nodup : (a.moves.map (·.1)).Nodup := by
  rw [moves_map_fst]
  exact (take_sublist _ _).nodup (by decide)

theorem rsp_not_mem_regs : .rsp ∉ a.regs := fun h => absurd (mem_of_mem_take h) (by decide)

def pushedRegs (a : CallArgs) (reg : Reg → Word) : Reg → Word :=
  update reg .rsp (reg .rsp - BitVec.ofNat 64 (8 * a.args.length))

def pushedMem (a : CallArgs) (s : State) : Memory := s.mem.writes (pushedWords s.reg a.regs (s.reg .rsp))

theorem runArgs_beforeCall :
    (runArgs alu segBase a.beforeCall s).reg =
      Moves.assign (CallArg.value segBase (a.pushedMem s)) a.moves (a.pushedRegs s.reg) := by
  obtain ⟨hrsp, hreg, -⟩ := run_push alu a.regs s
  have hregs : (run alu (a.regs.map .push) s).reg = a.pushedRegs s.reg := by
    funext q
    by_cases hq : q = .rsp
    · rw [hq, hrsp, regs_length, pushedRegs, update_self]
    · rw [hreg q hq, pushedRegs, update_of_ne hq]
  rw [beforeCall, runArgs_append, runArgs_moves, runArgs_push, hregs, run_push_mem alu rsp_not_mem_regs, pushedMem]

def regsAfter (segBase : Segment → Word) (a : CallArgs) (before : List (Reg × CallArg)) (s : State) : Reg → Word :=
  Moves.assign (CallArg.value segBase (a.pushedMem s)) before (a.pushedRegs s.reg)

theorem passesArguments_iff :
    PassesArguments alu segBase a s ↔ ∀ before p after, a.moves = before ++ p :: after →
      p.2.value segBase (a.pushedMem s) (a.regsAfter segBase before s) = p.2.value segBase s.mem s.reg := by
  rw [PassesArguments, runArgs_beforeCall]
  exact Moves.forall_assign_iff _ moves_nodup _ fun p => p.2.value segBase s.mem s.reg

theorem mem_args_of_moves (h : a.moves = before ++ p :: after) : p.2 ∈ a.args := by
  rw [← moves_map_snd, h]
  exact mem_map.mpr ⟨p, by simp, rfl⟩

theorem exists_moves (h : arg ∈ a.args) : ∃ before p after, a.moves = before ++ p :: after ∧ p.2 = arg := by
  rw [← moves_map_snd] at h
  obtain ⟨p, hp, rfl⟩ := mem_map.mp h
  obtain ⟨before, after, hmoves⟩ := append_of_mem hp
  exact ⟨before, p, after, hmoves, rfl⟩

/-! ## Arguments in order -/

theorem Ordered.regsAfter_eq (ha : a.Ordered) (hmoves : a.moves = before ++ p :: after) (hr : p.2.Mentions r) :
    a.regsAfter segBase before s r = s.reg r := by
  obtain ⟨hrsp, hkept⟩ := ha before p after hmoves r hr
  have hkeeps : ∀ q ∈ before, q.1 = r → ∀ regs, q.2.value segBase (a.pushedMem s) regs = regs r := fun q hq hqr regs => by
    rw [hkept q hq hqr]
    rfl
  rw [regsAfter, Moves.assign_keeps _ hkeeps, pushedRegs, update_of_ne hrsp]

theorem Ordered.passesArguments_iff (ha : a.Ordered) :
    PassesArguments alu segBase a s ↔
      ∀ op, .mem op ∈ a.args → (a.pushedMem s).read (op.addr segBase s.reg) = s.mem.read (op.addr segBase s.reg) := by
  have hvalue : ∀ before p after, a.moves = before ++ p :: after →
      p.2.value segBase (a.pushedMem s) (a.regsAfter segBase before s) = p.2.value segBase (a.pushedMem s) s.reg :=
    fun before p after hmoves => CallArg.value_congr (fun r hr => ha.regsAfter_eq hmoves hr) _
  rw [CallArgs.passesArguments_iff]
  constructor
  · intro h op hop
    obtain ⟨before, p, after, hmoves, hp⟩ := exists_moves hop
    have hp' := h before p after hmoves
    rw [hvalue before p after hmoves, hp] at hp'
    exact hp'
  · intro h before p after hmoves
    rw [hvalue before p after hmoves]
    cases hp : p.2 with
    | mem op => exact h op (hp ▸ mem_args_of_moves hmoves)
    | _ => rfl

theorem Ordered.forall_passesArguments_iff (ha : a.Ordered) (regs : Reg → Word) :
    (∀ s : State, s.reg = regs → PassesArguments alu segBase a s) ↔ a.Apart segBase regs := by
  have hapart : ∀ op : MemOp, (∀ m : Memory, (m.writes (pushedWords regs a.regs (regs .rsp))).read (op.addr segBase regs) =
      m.read (op.addr segBase regs)) ↔
        ∀ k < a.args.length, WordsApart (op.addr segBase regs) (regs .rsp - BitVec.ofNat 64 (8 * (k + 1))) := fun op => by
    rw [forall_writes_read_iff, and_iff_right rfl,
      forall_pushedWords_iff (P := WordsApart (op.addr segBase regs)), regs_length]
  simp only [ha.passesArguments_iff, Apart, ← hapart]
  constructor
  · intro h op hop m
    exact h (ofRegs regs m) rfl op hop
  · rintro h s rfl op hop
    exact h op hop s.mem

/-! ## Arguments out of order -/

theorem length_pos_of_moves (h : a.moves = before ++ p :: after) : 0 < a.args.length := by
  rw [← moves_map_snd, h, length_map, length_append, length_cons]
  omega

theorem sub_pushed_ne (h : 0 < a.args.length) (sp : Word) : sp - BitVec.ofNat 64 (8 * a.args.length) ≠ sp := by
  have hle : a.args.length ≤ 5 := a.length_le
  bv_omega

theorem regsAfter_rsp (hmoves : a.moves = before ++ p :: after) :
    a.regsAfter segBase before s .rsp = s.reg .rsp - BitVec.ofNat 64 (8 * a.args.length) := by
  have hrsp : .rsp ∉ before.map (·.1) := fun h => by
    refine rsp_not_mem_regs (a := a) ?_
    rw [← moves_map_fst, hmoves, map_append]
    exact mem_append_left _ h
  rw [regsAfter, Moves.assign_of_not_mem _ hrsp, pushedRegs, update_self]

theorem PassesArguments.regsAfter_eq (h : PassesArguments alu segBase a s) (hmoves : a.moves = before ++ p :: after)
    {q : Reg × CallArg} (hq : q ∈ before) : a.regsAfter segBase before s q.1 = q.2.value segBase s.mem s.reg := by
  obtain ⟨before₁, before₂, rfl⟩ := append_of_mem hq
  have hnodup := moves_nodup (a := a)
  rw [hmoves, map_append, map_append, nodup_append] at hnodup
  have hafter : q.1 ∉ before₂.map (·.1) := by
    have := (nodup_append.mp hnodup.1).2.1
    exact (nodup_cons.mp this).1
  rw [regsAfter, Moves.assign_middle _ hafter]
  exact CallArgs.passesArguments_iff.mp h before₁ q (before₂ ++ p :: after) (by simp [hmoves])

section Forall

variable (h : ∀ s, PassesArguments alu segBase a s)
include h

theorem reg_of_forall (hmoves : a.moves = before ++ p :: after) (hp : p.2 = .reg r) :
    r ≠ .rsp ∧ ∀ q ∈ before, q.1 = r → q.2 = .reg r := by
  have hreg : ∀ s : State, a.regsAfter segBase before s r = s.reg r := fun s => by
    have hs := CallArgs.passesArguments_iff.mp (h s) before p after hmoves
    rwa [hp] at hs
  constructor
  · rintro rfl
    have hs := hreg (ofRegs (fun _ => 0) fun _ => 0)
    rw [regsAfter_rsp hmoves] at hs
    exact sub_pushed_ne (length_pos_of_moves hmoves) _ hs
  · rintro q hq rfl
    have hvalue : ∀ mem reg, q.2.value segBase mem reg = reg q.1 := fun mem reg => by
      have hs := hreg (ofRegs reg mem)
      rwa [PassesArguments.regsAfter_eq (h _) hmoves hq] at hs
    exact CallArg.eq_reg_of_value hvalue

omit h in
theorem exists_constant (hmem : arg.isMem = false) : ∃ c : Word, ∀ mem, arg.value segBase mem (fun _ => c) = c := by
  cases arg with
  | imm v => exact ⟨v, fun _ => rfl⟩
  | reg q => exact ⟨0, fun _ => rfl⟩
  | mem op => cases hmem
  | instr addr => exact ⟨addr, fun _ => rfl⟩

theorem exists_regsAfter (hmoves : a.moves = before ++ p :: after) (hbefore : ∀ q ∈ before, q.2.isMem = false)
    {index : Option Reg} (hrsp : index ≠ some .rsp) :
    ∃ c : Word, ∀ idx, index = some idx → a.regsAfter segBase before (ofRegs (fun _ => c) fun _ => 0) idx = c := by
  cases index with
  | none => exact ⟨0, nofun⟩
  | some idx =>
    by_cases hidx : ∃ q ∈ before, q.1 = idx
    · obtain ⟨q, hq, rfl⟩ := hidx
      obtain ⟨c, hc⟩ : ∃ c : Word, ∀ mem, q.2.value segBase mem (fun _ => c) = c := exists_constant (hbefore q hq)
      refine ⟨c, fun idx hidx => ?_⟩
      rw [← Option.some.inj hidx, PassesArguments.regsAfter_eq (h _) hmoves hq]
      exact hc _
    · refine ⟨0, fun idx' hidx' => ?_⟩
      have hnot : idx ∉ before.map (·.1) := fun hmem => hidx (mem_map.mp hmem)
      have hne : idx ≠ .rsp := fun he => hrsp (congrArg some he)
      rw [← Option.some.inj hidx', regsAfter, Moves.assign_of_not_mem _ hnot, pushedRegs, update_of_ne hne]
      rfl

section

variable (hmoves : a.moves = before ++ p :: after) (hbefore : ∀ q ∈ before, q.2.isMem = false) (hp : p.2 = .mem op)

include hmoves hbefore hp

theorem mem_of_forall (regs : Reg → Word) :
    op.addr segBase (a.regsAfter segBase before (ofRegs regs fun _ => 0)) = op.addr segBase regs ∧
      ∀ w ∈ pushedWords regs a.regs (regs .rsp), WordsApart (op.addr segBase regs) w.1 := by
  refine forall_writes_read_iff.mp fun m => ?_
  have hregs : a.regsAfter segBase before (ofRegs regs fun _ => 0) = a.regsAfter segBase before (ofRegs regs m) :=
    Moves.assign_congr _ (fun q hq => CallArg.value_of_not_isMem (hbefore q hq) _ _) _
  have hs := CallArgs.passesArguments_iff.mp (h (ofRegs regs m)) before p after hmoves
  rw [hp] at hs
  rw [hregs]
  exact hs

theorem mentions_rsp_of_forall : (CallArg.mem op).Mentions .rsp := by
  refine Classical.byContradiction fun hrsp => ?_
  let addr := op.addr segBase fun _ => 0
  let regs : Reg → Word := update (fun _ => 0) .rsp (addr + 8)
  have haddr : op.addr segBase regs = addr := addr_congr fun r hr => by
    have hne : r ≠ .rsp := fun he => hrsp (he ▸ hr)
    exact update_of_ne hne _ _
  have hapart := (mem_of_forall h hmoves hbefore hp regs).2
  rw [forall_pushedWords_iff (P := WordsApart (op.addr segBase regs)), regs_length, haddr] at hapart
  have hfirst := hapart 0 (length_pos_of_moves hmoves)
  have hsp : regs .rsp = addr + 8 := update_self ..
  rw [hsp] at hfirst
  unfold WordsApart at hfirst
  bv_omega

theorem not_mentions_rsp_of_forall : ¬ (CallArg.mem op).Mentions .rsp := by
  intro hrsp
  cases op with
  | relAddr seg addr => exact hrsp
  | baseDisp op =>
    have hbase : op.base = some .rsp := hrsp.resolve_right op.index_ne_rsp
    -- all registers have a value that leaves the index as it is
    obtain ⟨c, hc⟩ : ∃ c : Word, ∀ idx, op.index = some idx →
        a.regsAfter segBase before (ofRegs (fun _ => c) fun _ => 0) idx = c := exists_regsAfter h hmoves hbefore op.index_ne_rsp
    have haddr := (mem_of_forall h hmoves hbefore hp fun _ => c).1
    have hindex : op.index.elim 0 (a.regsAfter segBase before (ofRegs (fun _ => c) fun _ => 0) · * op.scale.setWidth 64) =
        op.index.elim 0 fun _ => c * op.scale.setWidth 64 := by
      cases hi : op.index with
      | none => rfl
      | some idx => exact congrArg (· * op.scale.setWidth 64) (hc idx hi)
    have hpos := length_pos_of_moves hmoves
    have hle : a.args.length ≤ 5 := a.length_le
    rw [MemOp.addr, MemOp.addr, BitVec.add_right_inj, Mangle.BaseDisp.addr, Mangle.BaseDisp.addr, hbase, hindex,
      Option.elim_some, regsAfter_rsp hmoves] at haddr
    exact op.wrap_sub_ne (by omega) (by omega) _ _ _ haddr

end

theorem not_mem_of_forall : ∀ arg ∈ a.args, arg.isMem = false := by
  intro arg harg
  refine Classical.byContradiction fun hmem => ?_
  obtain ⟨before, p, after, hmoves, hp⟩ := exists_moves harg
  cases hfirst : a.moves.find? (·.2.isMem) with
  | none =>
    have := find?_eq_none.mp hfirst p (by simp [hmoves])
    rw [hp] at this
    exact this (by simpa using hmem)
  | some q =>
    obtain ⟨hq, before, after, hmoves, hbefore⟩ := find?_eq_some_iff_append.mp hfirst
    have hbefore' : ∀ q ∈ before, q.2.isMem = false := fun q hq => by simpa using hbefore q hq
    cases hop : q.2 with
    | mem op =>
      exact not_mentions_rsp_of_forall h hmoves hbefore' hop (mentions_rsp_of_forall h hmoves hbefore' hop)
    | _ => simp [hop, CallArg.isMem] at hq

end Forall

end CallArgs

end Granary.Gencode
