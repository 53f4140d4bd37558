import Granary.Registers.Lemmas.Liveness
import Granary.Registers.Zombies

/-!
# Which register is handed out
-/

namespace Granary.Registers

open Function (update update_of_ne)

open Machine

variable {rm : RegisterManager} {undead : Reg → Bool} {d : Shape} {r q : Reg}
variable {P Q : Reg → Prop} {op : Operand} {dsts : List Operand}

theorem mem_gprs : r ∈ gprs := by cases r <;> decide

namespace RegisterManager

theorem getZombie_fst : (rm.getZombie undead).1 = gprs.find? fun r => !(rm.live r || undead r) := by
  unfold getZombie
  split
  · exact Eq.symm ‹_›
  · exact Eq.symm ‹_›

theorem getZombie_eq_some_iff :
    (rm.getZombie undead).1 = some r ↔ First (fun q => rm.live q = false ∧ undead q = false) r := by
  rw [getZombie_fst, List.find?_eq_some_iff_append, First]
  simp only [Bool.not_not, Bool.not_eq_true', ← Bool.or_eq_false_iff, Bool.not_eq_false]

theorem getZombie_of_first (h : First (fun q => rm.live q = false ∧ undead q = false) r) :
    rm.getZombie undead = (some r, fun q => undead q || decide (q = r)) := by
  have hfind := getZombie_eq_some_iff.mpr h
  rw [getZombie_fst] at hfind
  rw [getZombie, hfind]

theorem getZombie_eq_none_iff : (rm.getZombie undead).1 = none ↔ ∀ r, ¬ (rm.live r = false ∧ undead r = false) := by
  rw [getZombie_fst, List.find?_eq_none]
  simp [mem_gprs]

theorem foldl_visitDest_revive {opcode : Opcode} (hop : opcode = .bsr ∨ opcode = .bsf) (ops : List Operand)
    (acc : RegisterManager × (Reg → Bool)) :
    (ops.foldl (visitDest opcode) acc).1.live q = (acc.1.live q || ops.any (·.isPartOf q)) := by
  induction ops generalizing acc with
  | nil => simp
  | cons op ops ih =>
    rw [List.foldl_cons, ih]
    cases op <;> simp [visitDest, hop, revive_live, Operand.isPartOf, Bool.or_assoc]

theorem reviveInstr_live {β : Type} (i : Instr β) (hnop : i.opcode ≠ .nop) :
    (rm.reviveInstr i).live q = (rm.live q || (i.dsts ++ i.srcs).any (·.mentions q)) := by
  simp [reviveInstr, hnop, foldl_reviveOp_live, Bool.or_assoc]

end RegisterManager

theorem First.congr (h : ∀ r, P r ↔ Q r) : First P r ↔ First Q r := by
  simp only [First, h]

theorem First.unique (h : First P r) (h' : First P q) : r = q := by
  classical
  have hfind : ∀ x, First P x → gprs.find? (fun y => decide (P y)) = some x := by
    rintro x ⟨hx, before, after, hsplit, hbefore⟩
    exact List.find?_eq_some_iff_append.mpr ⟨decide_eq_true hx, before, after, hsplit, fun y hy => by simp [hbefore y hy]⟩
  exact Option.some.inj ((hfind r h).symm.trans (hfind q h'))

theorem First.not_rax (h : First P r) (hr : r ≠ .rax) : ¬ P .rax := by
  obtain ⟨-, before, after, hsplit, hbefore⟩ := h
  cases before with
  | nil => exact absurd (List.cons.inj hsplit).1.symm hr
  | cons q before => exact hbefore .rax ((List.cons.inj hsplit).1 ▸ List.mem_cons_self)

theorem First.exists_iff (h : First P r) : (∃ q, First P q ∧ Q q) ↔ Q r :=
  ⟨fun ⟨_, hq, hQ⟩ => h.unique hq ▸ hQ, fun hQ => ⟨r, h, hQ⟩⟩

namespace Shape

theorem kills_iff : (RegisterManager.reviveAll.visit (d.plain : Instr Unit)).live r = false ↔ d.Kills r :=
  ⟨RegisterManager.killsGpr_of_dead rfl, RegisterManager.dead_of_killsGpr⟩

theorem Kills.ne_rsp (h : d.Kills r) : r ≠ .rsp := h.2.2.1

theorem visit_plain_live (hnop : d.opcode ≠ .nop) (hcti : d.opcode ≠ .cti) :
    (rm.visit (d.plain : Instr Unit)).live r =
      ((d.dsts.foldl (RegisterManager.visitDest d.opcode) (rm, forceLive)).1.live r || forceLive r ||
        d.dsts.any (·.addresses r) || (repRegs d.opcode).any (·.names r) || d.srcs.any (·.mentions r)) :=
  RegisterManager.visit_live (i := (d.plain : Instr Unit)) hnop hcti

theorem Revives.live (hcti : d.opcode ≠ .cti) (h : d.Revives r) : (rm.visit (d.plain : Instr Unit)).live r = true := by
  obtain ⟨hnop, hr⟩ := h
  rcases hr with rfl | hr | ⟨q, hq, hname⟩ | ⟨hb, op, hop, hpart⟩
  · simp [visit_plain_live hnop hcti, forceLive]
  · exact RegisterManager.visit_live_of_reads hnop hcti hr
  · have hany : (repRegs d.opcode).any (·.names r) = true := List.any_eq_true.mpr ⟨q, hq, hname⟩
    simp [visit_plain_live hnop hcti, hany]
  · have hany : d.dsts.any (·.isPartOf r) = true := List.any_eq_true.mpr ⟨op, hop, hpart⟩
    simp [visit_plain_live hnop hcti, RegisterManager.foldl_visitDest_revive hb, hany]

theorem visit_dead_of_not_revives (hcti : d.opcode ≠ .cti) (hdead : rm.live r = false) (h : ¬ d.Revives r) :
    (rm.visit (d.plain : Instr Unit)).live r = false := by
  by_cases hnop : d.opcode = .nop
  · rwa [RegisterManager.visit, if_pos (by exact hnop)]
  · rw [Revives, not_and] at h
    obtain ⟨hrsp, hreads, hrep, hbs⟩ : r ≠ .rsp ∧ ¬ ReadsGpr d.dsts d.srcs r ∧
        (¬ ∃ q ∈ repRegs d.opcode, q.names r = true) ∧
        ¬ ((d.opcode = .bsr ∨ d.opcode = .bsf) ∧ ∃ op ∈ d.dsts, op.isPartOf r = true) := by
      simpa only [not_or] using h hnop
    have hdsts : (d.dsts.foldl (RegisterManager.visitDest d.opcode) (rm, forceLive)).1.live r = false := by
      by_cases hb : d.opcode = .bsr ∨ d.opcode = .bsf
      · have hany : d.dsts.any (·.isPartOf r) = false :=
          List.any_eq_false.mpr fun op hop hpart => hbs ⟨hb, op, hop, hpart⟩
        simp [RegisterManager.foldl_visitDest_revive hb, hdead, hany]
      · simp [RegisterManager.foldl_visitDest_live hb hrsp, hdead]
    have haddr : d.dsts.any (·.addresses r) = false :=
      List.any_eq_false.mpr fun op hop ha => hreads (.inr ⟨op, hop, ha⟩)
    have hnames : (repRegs d.opcode).any (·.names r) = false := List.any_eq_false.mpr fun q hq hn => hrep ⟨q, hq, hn⟩
    have hsrcs : d.srcs.any (·.mentions r) = false := List.any_eq_false.mpr fun op hop hm => hreads (.inl ⟨op, hop, hm⟩)
    simp [visit_plain_live hnop hcti, hdsts, haddr, hnames, hsrcs, forceLive, hrsp]

theorem visit_live_eq_false_iff (hcti : d.opcode ≠ .cti) :
    (rm.visit (d.plain : Instr Unit)).live r = false ↔ d.Kills r ∨ rm.live r = false ∧ ¬ d.Revives r := by
  constructor
  · intro hdead
    cases hlive : rm.live r with
    | true => exact .inl (RegisterManager.killsGpr_of_dead hlive hdead)
    | false => exact .inr ⟨rfl, fun hr => by simp [hr.live hcti] at hdead⟩
  · rintro (hk | ⟨hdead, hr⟩)
    · exact RegisterManager.dead_of_killsGpr hk
    · exact visit_dead_of_not_revives hcti hdead hr

end Shape

/-! ## Instructions of a shape -/

theorem mask_eq_zero (h : op.isPartOf r = false) : op.mask r = 0#64 := by
  match op with
  | .reg (.gpr q w) =>
    have hq : q ≠ r := by simpa [Operand.isPartOf, RegId.names] using h
    simp [Operand.mask, hq]
  | .reg .null | .reg (.mmx _) | .reg (.xmm _) | .reg (.other _) | .baseDisp _ _ | .other => rfl

theorem writable_eq_zero (h : ∀ op ∈ dsts, op.isPartOf r = false) : writable dsts r = 0#64 := by
  induction dsts with
  | nil => rfl
  | cons op dsts ih =>
    have hdsts := ih fun op' hop' => h op' (List.mem_cons_of_mem _ hop')
    rw [writable, List.foldr_cons, mask_eq_zero (h op List.mem_cons_self), ← writable, hdsts, BitVec.or_zero]

theorem mask_and_writable (h : op ∈ dsts) : op.mask r &&& writable dsts r = op.mask r := by
  induction dsts with
  | nil => exact absurd h List.not_mem_nil
  | cons op' dsts ih =>
    rw [writable, List.foldr_cons, ← writable, BitVec.and_or_distrib_left]
    rcases List.mem_cons.mp h with rfl | hop
    · rw [BitVec.and_self]
      ext i hi
      simpa using fun hop _ => hop
    · rw [ih hop]
      ext i hi
      simpa using fun hop _ => hop

theorem Shape.writable_of_always (h : d.always r = true) : writable d.dsts r = BitVec.allOnes 64 := by
  obtain ⟨-, hdst | hdst⟩ := d.always_dst r h
  all_goals
    have hmask := mask_and_writable (r := r) hdst
    rwa [Operand.mask, if_pos rfl, Width.mask, BitVec.allOnes_and] at hmask

theorem Shape.not_reads_of_not_mentions (hnop : d.opcode ≠ .nop) (h : ¬ d.Mentions r) : ¬ ReadsGpr d.dsts d.srcs r := by
  rintro (⟨op, hop, hm⟩ | ⟨op, hop, ha⟩)
  · exact h ⟨hnop, op, List.mem_append_right _ hop, hm⟩
  · refine h ⟨hnop, op, List.mem_append_left _ hop, ?_⟩
    cases op <;> simp_all [Operand.mentions, Operand.addresses]

theorem Shape.writable_of_not_mentions (hnop : d.opcode ≠ .nop) (h : ¬ d.Mentions r) : writable d.dsts r = 0#64 := by
  refine writable_eq_zero fun op hop => Bool.eq_false_iff.mpr fun hpart => h ⟨hnop, op, List.mem_append_left _ hop, ?_⟩
  cases op <;> simp_all [Operand.mentions, Operand.isPartOf]

theorem Shape.hasShape_plain {β : Type} (d : Shape) : (d.plain : Instr β).HasShape d where
  opcode_eq := rfl
  dsts_eq := rfl
  srcs_eq := rfl
  whole r h s := if_pos h
  within r s := by
    by_cases h : d.always r = true
    · rw [d.writable_of_always h, BitVec.not_allOnes]
      exact BitVec.and_zero
    · simp [Shape.plain, h]
  eval_update _ _ := rfl

namespace Instr.HasShape

variable {β : Type} {i : Instr β} {s : RegState β} {v : BitVec 64}

section

variable (h : i.HasShape d)

include h

theorem exec_nop (hnop : d.opcode = .nop) (s : RegState β) : i.exec s = s :=
  i.nop_eval (h.opcode_eq.trans hnop) s

theorem exec_update_eq (hcti : d.opcode ≠ .cti) (hreads : ¬ ReadsGpr d.dsts d.srcs r) :
    i.exec { s with gpr := update s.gpr r v } =
      { i.exec s with gpr := update (i.exec s).gpr r (merge v ((i.eval s).gprMask r) ((i.eval s).gpr r)) } := by
  rw [Instr.exec, Instr.exec, h.eval_update hcti hreads]
  refine RegState.ext (funext fun q => ?_) rfl rfl
  by_cases hq : q = r
  · subst hq
    simp [Effect.apply]
  · simp [Effect.apply, hq]

theorem exec_update_always (hcti : d.opcode ≠ .cti) (hreads : ¬ ReadsGpr d.dsts d.srcs r)
    (halways : d.always r = true) : i.exec { s with gpr := update s.gpr r v } = i.exec s := by
  have hr : (i.exec s).gpr r = (i.eval s).gpr r := by
    simp only [Instr.exec, Effect.apply, h.whole r halways, merge_allOnes]
  rw [h.exec_update_eq hcti hreads, h.whole r halways, merge_allOnes, ← hr, Function.update_eq_self]

theorem exec_update (hcti : d.opcode ≠ .cti) (hreads : d.opcode = .nop ∨ ¬ ReadsGpr d.dsts d.srcs r) :
    ∃ w, i.exec { s with gpr := update s.gpr r v } = { i.exec s with gpr := update (i.exec s).gpr r w } := by
  rcases hreads with hnop | hreads
  · exact ⟨v, by rw [h.exec_nop hnop, h.exec_nop hnop]⟩
  · exact ⟨_, h.exec_update_eq hcti hreads⟩

theorem exec_update_of_not_mentions (hcti : d.opcode ≠ .cti) (hr : ¬ d.Mentions r) :
    i.exec { s with gpr := update s.gpr r v } = { i.exec s with gpr := update (i.exec s).gpr r v } := by
  by_cases hnop : d.opcode = .nop
  · rw [h.exec_nop hnop, h.exec_nop hnop]
  · have hmask : (i.eval s).gprMask r = 0#64 := by
      have hwithin := h.within r s
      rwa [Shape.writable_of_not_mentions hnop hr, BitVec.not_zero, BitVec.and_allOnes] at hwithin
    rw [h.exec_update_eq hcti (Shape.not_reads_of_not_mentions hnop hr), hmask, merge_zero]

theorem exec_gpr_of_not_mentions (hcti : d.opcode ≠ .cti) (hr : ¬ d.Mentions r) :
    (i.exec s).gpr r = s.gpr r := by
  have hsame := congrArg (fun t : RegState β => t.gpr r) (h.exec_update_of_not_mentions (s := s) (v := s.gpr r) hcti hr)
  simpa using hsame

end

end Instr.HasShape

end Granary.Registers
