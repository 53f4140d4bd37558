import Granary.Blocks.Lemmas.LoopRuns

/-!
# Expanded string instructions
-/

namespace Granary.Blocks

open Machine Code List BitVec Bool

attribute [local simp] Language.find expand language repComparePiece repPiece trySkipPiece

variable {addr32 : Bool} {rcx : Word}

/-! ## Prefixes -/

section Prefixes

variable {p p' : Prefixes} {ps : List PrefixByte}

theorem Prefixes.rep_foldl_read_congr (h : p.rep = p'.rep) : (ps.foldl read p).rep = (ps.foldl read p').rep := by
  induction ps generalizing p p' with
  | nil => exact h
  | cons q ps ih =>
    apply ih
    cases q with
    | rep | repne => rfl
    | opSize | addrSize | segment | rex => exact h

theorem Prefixes.isSome_rep_foldl_read (h : p.rep.isSome ∨ ∃ q ∈ ps, q.isRep = true) : (ps.foldl read p).rep.isSome := by
  induction ps generalizing p with
  | nil =>
    obtain h | ⟨q, hq, -⟩ := h
    · exact h
    · cases hq
  | cons q ps ih =>
    apply ih
    obtain h | ⟨q', hq', hrep⟩ := h
    · left
      cases q <;> first | rfl | exact h
    · obtain rfl | hmem := mem_cons.1 hq'
      · left
        cases q' <;> first | rfl | cases hrep
      · exact .inr ⟨q', hmem, hrep⟩

theorem Prefixes.addr32_foldl_read_mono (h : p.addr32 = true → p'.addr32 = true) :
    (ps.foldl read p).addr32 = true → (ps.foldl read p').addr32 = true := by
  induction ps generalizing p p' with
  | nil => exact h
  | cons q ps ih =>
    apply ih
    cases q with
    | addrSize => exact fun _ => rfl
    | rep | repne | opSize | segment | rex => exact h

theorem Prefixes.foldl_read_of_not_isRep (r : Option Rep) (h : ∀ q ∈ ps, ¬ q.isRep = true) :
    ps.foldl read { p with rep := r } = { ps.foldl read p with rep := r } := by
  induction ps generalizing p with
  | nil => rfl
  | cons q ps ih =>
    have hq : read { p with rep := r } q = { read p q with rep := r } := by
      cases q with
      | rep | repne => exact absurd rfl (h _ mem_cons_self)
      | opSize | addrSize | segment | rex => rfl
    rw [foldl_cons, foldl_cons, hq, ih fun q' hq' => h q' (mem_cons_of_mem q hq')]

theorem Prefixes.size_rep (p : Prefixes) (r : Option Rep) (op : StringOp) : { p with rep := r }.size op = p.size op := by
  cases op <;> rfl

theorem RepEncoding.decode_tail (e : RepEncoding) (h : e.startsWithRep = true) :
    ∃ r, e.decode.rep = some r ∧ e.tail.decode = { rep := none, element := e.decode.element } := by
  obtain ⟨⟨prefixes, op, bytes⟩, one_rep, hrepne⟩ := e
  cases prefixes with
  | nil => cases h
  | cons q ps =>
    have hq : q.isRep = true := h
    have hps : ∀ q' ∈ ps, ¬ q'.isRep = true := by
      simp only [countP_cons, hq, if_true, Nat.add_eq_right, countP_eq_zero] at one_rep
      exact one_rep
    obtain ⟨r, hr⟩ : ∃ r, Prefixes.read {} q = { ({} : Prefixes) with rep := some r } := by
      cases q with
      | rep => exact ⟨.rep, rfl⟩
      | repne => exact ⟨.repne, rfl⟩
      | opSize | addrSize | segment | rex => cases hq
    have hfold := Prefixes.foldl_read_of_not_isRep (p := {}) (some r) hps
    have hnone : (ps.foldl Prefixes.read {}).rep = none :=
      congrArg Prefixes.rep (Prefixes.foldl_read_of_not_isRep (p := {}) none hps)
    refine ⟨r, ?_, ?_⟩
    · simp [Encoding.decode, hr, hfold]
    · simp only [Encoding.decode, Encoding.tail, tail_cons, foldl_cons, hr, hfold, hnone, Prefixes.size_rep]
      rfl

theorem RepEncoding.decode_tail_rep (e : RepEncoding) (h : e.startsWithRep = false) :
    ∃ r, e.decode.rep = some r ∧ e.tail.decode.rep = some r ∧
      (e.tail.decode.element.addr32 = true → e.decode.element.addr32 = true) := by
  obtain ⟨⟨prefixes, op, bytes⟩, one_rep, hrepne⟩ := e
  cases prefixes with
  | nil => cases one_rep
  | cons q ps =>
    have hq : q.isRep = false := h
    obtain ⟨q', hmem, hq'⟩ : ∃ q' ∈ ps, q'.isRep = true := by
      rw [countP_cons_of_neg (by simp [hq])] at one_rep
      exact countP_pos_iff.1 (by omega)
    obtain ⟨r, hr⟩ := Option.isSome_iff_exists.1 (Prefixes.isSome_rep_foldl_read (p := {}) (.inr ⟨q', hmem, hq'⟩))
    have hread : (Prefixes.read {} q).rep = ({} : Prefixes).rep := by
      cases q with
      | rep | repne => cases hq
      | opSize | addrSize | segment | rex => rfl
    exact ⟨r, (Prefixes.rep_foldl_read_congr hread).trans hr, hr, Prefixes.addr32_foldl_read_mono nofun⟩

end Prefixes

/-! ## Counters -/

theorem counter_counter : counter addr32 (counter addr32 rcx) = counter addr32 rcx := by
  cases addr32 with
  | false => rfl
  | true => simp [counter]

theorem toNat_counter_decrement {n : Nat} (h : (counter addr32 rcx).toNat = n + 1) :
    (counter addr32 (decrement addr32 rcx)).toNat = n := by
  rw [decrement, counter_counter]
  cases addr32 with
  | false =>
    simp only [counter, false_eq_true, if_false] at h ⊢
    bv_omega
  | true =>
    simp only [counter, if_true] at h ⊢
    bv_omega

theorem counter_decrement_ne_zero (h : counter addr32 rcx = 0) : counter addr32 (decrement addr32 rcx) ≠ 0 := by
  rw [decrement, counter_counter]
  cases addr32 with
  | false =>
    simp only [counter, false_eq_true, if_false] at h ⊢
    bv_omega
  | true =>
    simp only [counter, if_true] at h ⊢
    bv_omega

/-! ## Runs of the pieces -/

section Runs

variable {ι ρ : Type} [DecidableEq ι] {sem : StringSemantics ρ}

theorem step_repJrcxz {code : List (Instr (Id ι) ρ)} {k : Id ι} {i : ι} {role : Role}
    (rest : List (Instr (Id ι) ρ)) (s : CpuState ρ) :
    (language sem (Id ι)).step code (.run (⟨k, repJrcxz i role addr32⟩ :: rest) s) =
      if counter addr32 s.rcx = 0 then (language sem (Id ι)).goto code (.new i role) s else .run rest s := by
  rw [Language.step_cons]
  have hexec : (language sem (Id ι)).exec ⟨k, repJrcxz i role addr32⟩ s =
      (s, (Target.instr (.new i role)).nextIf (decide (counter addr32 s.rcx = 0))) := rfl
  rw [hexec]
  by_cases h : counter addr32 s.rcx = 0
  · rw [decide_eq_true h, if_pos h]
    rfl
  · rw [decide_eq_false h, if_neg h]
    rfl

theorem step_jcc {code : List (Instr (Id ι) ρ)} {k k' : Id ι} {c : Cond} (rest : List (Instr (Id ι) ρ)) (s : CpuState ρ) :
    (language sem (Id ι)).step code (.run (⟨k, .jcc c (.instr k')⟩ :: rest) s) =
      if c.holds s.flags = true then (language sem (Id ι)).goto code k' s else .run rest s := by
  rw [Language.step_cons]
  have hexec : (language sem (Id ι)).exec ⟨k, .jcc c (.instr k')⟩ s = (s, (Target.instr k').nextIf (c.holds s.flags)) := rfl
  rw [hexec]
  cases c.holds s.flags <;> rfl

theorem Rep.jcc_holds (r : Rep) {op : StringOp} (hop : op.isCompare = true) (flags : Word) :
    r.jcc.holds flags = r.stops op flags := by
  cases r <;> simp [Rep.jcc, Rep.stops, Cond.holds, hop]

variable {i : ι} {e : Encoding} {r : Rep} {piece code after : List (Instr (Id ι) ρ)}

theorem Placed.reaches_after (hplaced : Placed sem code i piece after)
    (hfind : (language sem (Id ι)).find (.new i .after) piece = some [⟨.new i .after, .label⟩]) (s : CpuState ρ) :
    (language sem (Id ι)).Reaches code ((language sem (Id ι)).goto code (.new i .after) s) (.run after s) := by
  rw [hplaced .after _ hfind s]
  exact .head (.refl _)

variable (htail : e.tail.decode = { rep := none, element := e.decode.element })
include htail

theorem iteration_tail (s : CpuState ρ) :
    { e.tail.decode.exec sem s with rcx := decrement e.decode.element.addr32 (e.tail.decode.exec sem s).rcx } =
      e.decode.element.iteration sem s := by
  rw [htail]
  rfl

theorem reaches_repPiece (hplaced : Placed sem code i (repPiece i e) after) (hop : e.op.isCompare = false) (n : Nat)
    (s : CpuState ρ) (hn : (counter e.decode.element.addr32 s.rcx).toNat = n) :
    (language sem (Id ι)).Reaches code ((language sem (Id ι)).step code (.run (repPiece i e ++ after) s))
      (.run after (e.decode.element.repeated sem r n s)) := by
  have htrySkip := hplaced .trySkip (repPiece i e) (by simp)
  have hdone := hplaced .done ((repPiece i e).drop 2) (by simp)
  have hdoInstr := hplaced .doInstr ((repPiece i e).drop 3) (by simp)
  have hafter := hplaced.reaches_after (by simp)
  have hstart : ∀ s, (language sem (Id ι)).step code (.run (repPiece i e ++ after) s) = _ := fun s =>
    step_repJrcxz ((repPiece i e).drop 1 ++ after) s
  induction n generalizing s with
  | zero =>
    rw [hstart, if_pos (eq_of_toNat_eq hn), hdone]
    exact .head (hafter s)
  | succ n ih =>
    have hne : counter e.decode.element.addr32 s.rcx ≠ 0 := fun h => by simp [h] at hn
    have hjmp : (language sem (Id ι)).step code (.run ((repPiece i e).drop 1 ++ after) s) = _ := hdoInstr s
    -- The label, the element, the counter and the jump back.
    have hbody : ((language sem (Id ι)).step code)^[4] (.run ((repPiece i e).drop 3 ++ after) s) =
        .run (repPiece i e ++ after) (e.decode.element.iteration sem s) := by
      rw [← htrySkip, ← iteration_tail htail]
      rfl
    have hstops : ¬ r.stops e.decode.element.op (e.decode.element.iteration sem s).flags = true := by
      simp [Rep.stops, Encoding.decode, hop]
    rw [hstart, if_neg hne, Element.repeated, if_neg hstops]
    refine .head ?_
    rw [hjmp]
    exact .trans ⟨4, hbody⟩ (.head (ih _ (toNat_counter_decrement hn)))

theorem reaches_doInstr (hplaced : Placed sem code i (repComparePiece i r e) after) (hop : e.op.isCompare = true) (n : Nat)
    (s : CpuState ρ) (hn : (counter e.decode.element.addr32 s.rcx).toNat = n + 1) :
    (language sem (Id ι)).Reaches code (.run ((repComparePiece i r e).drop 3 ++ after) s)
      (.run after (e.decode.element.repeated sem r (n + 1) s)) := by
  have hdoInstr := hplaced .doInstr ((repComparePiece i r e).drop 3)
    (by simp)
  have hafter := hplaced.reaches_after (by simp)
  have htryDone : ∀ s, (language sem (Id ι)).step code (.run ((repComparePiece i r e).drop 6 ++ after) s) = _ := fun s =>
    step_repJrcxz ((repComparePiece i r e).drop 7 ++ after) s
  have htryStop : ∀ s, (language sem (Id ι)).step code (.run ((repComparePiece i r e).drop 7 ++ after) s) = _ := fun s =>
    step_jcc ((repComparePiece i r e).drop 8 ++ after) s
  -- The label, the element and the counter.
  have hbody : ∀ s, ((language sem (Id ι)).step code)^[3] (.run ((repComparePiece i r e).drop 3 ++ after) s) =
      .run ((repComparePiece i r e).drop 6 ++ after) (e.decode.element.iteration sem s) := by
    intro s
    rw [← iteration_tail htail]
    rfl
  induction n generalizing s with
  | zero =>
    have hzero : counter e.decode.element.addr32 (e.decode.element.iteration sem s).rcx = 0 :=
      eq_of_toNat_eq (toNat_counter_decrement hn)
    refine .trans ⟨3, hbody s⟩ (.head ?_)
    rw [htryDone, if_pos hzero, Element.repeated, Element.repeated, ite_self]
    exact hafter _
  | succ n ih =>
    have hcount : (counter e.decode.element.addr32 (e.decode.element.iteration sem s).rcx).toNat = n + 1 :=
      toNat_counter_decrement hn
    have hne : counter e.decode.element.addr32 (e.decode.element.iteration sem s).rcx ≠ 0 := fun h => by simp [h] at hcount
    refine .trans ⟨3, hbody s⟩ (.head ?_)
    rw [htryDone, if_neg hne]
    refine .head ?_
    rw [htryStop, r.jcc_holds hop, Element.repeated]
    by_cases hstops : r.stops e.op (e.decode.element.iteration sem s).flags = true
    · have hstops' : r.stops e.decode.element.op (e.decode.element.iteration sem s).flags = true := hstops
      rw [if_pos hstops, if_pos hstops']
      exact hafter _
    · have hstops' : ¬ r.stops e.decode.element.op (e.decode.element.iteration sem s).flags = true := hstops
      have hjmp : (language sem (Id ι)).step code
          (.run ((repComparePiece i r e).drop 8 ++ after) (e.decode.element.iteration sem s)) = _ := hdoInstr _
      rw [if_neg hstops, if_neg hstops']
      refine .head ?_
      rw [hjmp]
      exact ih _ hcount

theorem reaches_repComparePiece (hplaced : Placed sem code i (repComparePiece i r e) after) (hop : e.op.isCompare = true)
    (s : CpuState ρ) :
    (language sem (Id ι)).Reaches code ((language sem (Id ι)).step code (.run (repComparePiece i r e ++ after) s))
      (.run after (e.decode.element.repeated sem r (counter e.decode.element.addr32 s.rcx).toNat s)) := by
  have hdone := hplaced .done ((repComparePiece i r e).drop 2)
    (by simp)
  have hdoInstr := hplaced .doInstr ((repComparePiece i r e).drop 3)
    (by simp)
  have hafter := hplaced.reaches_after (by simp)
  have hstart : (language sem (Id ι)).step code (.run (repComparePiece i r e ++ after) s) = _ :=
    step_repJrcxz ((repComparePiece i r e).drop 1 ++ after) s
  rw [hstart]
  split
  case isTrue hzero =>
    rw [hzero, hdone]
    exact .head (hafter s)
  case isFalse hne =>
    obtain ⟨n, hn⟩ : ∃ n, (counter e.decode.element.addr32 s.rcx).toNat = n + 1 :=
      Nat.exists_eq_succ_of_ne_zero fun h => hne (eq_of_toNat_eq h)
    have hjmp : (language sem (Id ι)).step code (.run ((repComparePiece i r e).drop 1 ++ after) s) = _ := hdoInstr s
    rw [hn]
    refine .head ?_
    rw [hjmp]
    exact reaches_doInstr htail hplaced hop n s hn

omit htail

/-! ## Lists -/

/-- The rest of an expanded instruction is its element, and nothing goes to the instruction. -/
def RepsOk (sem : StringSemantics ρ) (ls : List (Instr ι ρ)) : Prop :=
  ∀ x ∈ ls, ∀ e r, x.insn = .string e → e.decode.rep = some r →
    e.tail.decode = { rep := none, element := e.decode.element } ∧ ¬ Expansion.Targeted (language sem ι) ls x.id

theorem StringInstr.exec_of_rep (hrep : e.decode.rep = some r) (s : CpuState ρ) :
    e.decode.exec sem s = e.decode.element.repeated sem r (counter e.decode.element.addr32 s.rcx).toNat s := by
  rw [StringInstr.exec, hrep]

theorem Placed.goto_trySkip (hrep : e.decode.rep = some r) (hplaced : Placed sem code i (expand true ⟨i, .string e⟩) after)
    (s : CpuState ρ) : (language sem (Id ι)).goto code (.new i .trySkip) s = .run (expand true ⟨i, .string e⟩ ++ after) s := by
  apply hplaced
  cases hop : e.op.isCompare with
  | true =>
    rw [expand_repCompare hrep hop]
    exact if_pos rfl
  | false =>
    rw [expand_rep hrep hop]
    exact if_pos rfl

theorem reaches_expand (hrep : e.decode.rep = some r) (htail : e.tail.decode = { rep := none, element := e.decode.element })
    (hplaced : Placed sem code i (expand true ⟨i, .string e⟩) after) (s : CpuState ρ) :
    (language sem (Id ι)).Reaches code ((language sem (Id ι)).step code (.run (expand true ⟨i, .string e⟩ ++ after) s))
      (.run after (e.decode.exec sem s)) := by
  rw [StringInstr.exec_of_rep hrep]
  cases hop : e.op.isCompare with
  | true =>
    rw [expand_repCompare hrep hop] at hplaced ⊢
    exact reaches_repComparePiece htail hplaced hop s
  | false =>
    rw [expand_rep hrep hop] at hplaced ⊢
    exact reaches_repPiece htail hplaced hop _ s rfl

variable {p : Bool} {pre post : List (Instr ι ρ)} {x : Instr ι ρ}

omit [DecidableEq ι] in
theorem exec_loop {i : ι} {kind : LoopKind} {addr32 : Bool} {target : Target ι} {s : CpuState ρ} :
    ((language sem ι).exec ⟨i, .loop kind addr32 target⟩ s).map id (Next.map (loopExpansion sem p ι).old) =
      ((kind.exec addr32 s).1, target.old.nextIf (kind.exec addr32 s).2) :=
  Prod.ext rfl (target.nextIf_old _)

section

variable (hnodup : ((pre ++ x :: post).map Instr.id).Nodup) (hreps : p = true → RepsOk sem (pre ++ x :: post))

include hnodup hreps

theorem does_expand :
    (loopExpansion sem p ι).Does (pre ++ x :: post) x post (expand p x) := by
  have hplaced := placed_expand sem p hnodup
  have hmem : x ∈ pre ++ x :: post := mem_append_right pre mem_cons_self
  obtain ⟨i, insn⟩ := x
  cases insn with
  | loop kind addr32 target =>
    intro s
    rw [exec_loop]
    exact reaches_loop hplaced s
  | string e =>
    cases p with
    | false => exact does_old _
    | true =>
      cases hrep : e.decode.rep with
      | none =>
        have hexpand : expand true (⟨i, .string e⟩ : Instr ι ρ) = [Instr.old ⟨i, .string e⟩] := by simp [hrep]
        rw [hexpand]
        exact does_old _
      | some r => exact reaches_expand hrep (hreps rfl _ hmem e r rfl hrep).1 hplaced
  | label | jmp | jcc | leaCounter | other => exact does_old _

theorem does_entry
    (htarget : Expansion.Targeted (language sem ι) (pre ++ x :: post) x.id) :
    ∃ piece, (language sem (Id ι)).find (.old x.id) (expand p x) = some piece ∧
      (loopExpansion sem p ι).Does (pre ++ x :: post) x post piece := by
  have hplaced := placed_expand sem p hnodup
  have hmem : x ∈ pre ++ x :: post := mem_append_right pre mem_cons_self
  have hfind : (language sem (Id ι)).find (.old x.id) [x.old] = some [x.old] := if_pos rfl
  have hold : ∃ piece, (language sem (Id ι)).find (.old x.id) [x.old] = some piece ∧
      (loopExpansion sem p ι).Does (pre ++ x :: post) x post piece := ⟨_, hfind, does_old _⟩
  obtain ⟨i, insn⟩ := x
  cases insn with
  | loop kind addr32 target =>
    refine ⟨_, by simp [loopPiece]; rfl, fun s => ?_⟩
    rw [exec_loop]
    exact reaches_loop_entry hplaced s
  | string e =>
    cases p with
    | false => exact hold
    | true =>
      cases hrep : e.decode.rep with
      | none =>
        have hexpand : expand true (⟨i, .string e⟩ : Instr ι ρ) = [Instr.old ⟨i, .string e⟩] := by simp [hrep]
        rw [hexpand]
        exact hold
      | some r => exact absurd htarget (hreps rfl _ hmem e r rfl hrep).2
  | label | jmp | jcc | leaCounter | other => exact hold

end

theorem correct_loopExpansion {ls : List (Instr ι ρ)} (hnodup : (ls.map Instr.id).Nodup) (hreps : p = true → RepsOk sem ls) :
    (loopExpansion sem p ι).Correct ls where
  start := by
    rintro pre x post rfl
    exact does_expand hnodup hreps
  entry := by
    rintro pre x post rfl
    exact does_entry hnodup hreps

/-! ## Prefixes that stay -/

def idle : StringSemantics Unit := fun _ flags _ => (flags, ())

theorem repeated_idle {x : Element} {s : CpuState Unit} (hstops : r.stops x.op s.flags = false) (n : Nat)
    (hn : (counter x.addr32 s.rcx).toNat = n) :
    counter x.addr32 (x.repeated idle r n s).rcx = 0 ∧ (x.repeated idle r n s).flags = s.flags := by
  induction n generalizing s with
  | zero => exact ⟨eq_of_toNat_eq hn, rfl⟩
  | succ n ih =>
    have hstops' : r.stops x.op (x.iteration idle s).flags = false := hstops
    rw [Element.repeated, hstops', if_neg Bool.false_ne_true]
    exact ih hstops' (toNat_counter_decrement hn)

theorem counter_eq_zero_of_imp {addr32' : Bool} (h : addr32' = true → addr32 = true)
    (hrcx : counter addr32' rcx = 0) : counter addr32 rcx = 0 := by
  cases addr32' with
  | true => rwa [h rfl]
  | false =>
    have hzero : rcx = 0 := hrcx
    rw [hzero]
    cases addr32 <;> rfl

def idleBody (e : Encoding) (s : CpuState Unit) : CpuState Unit :=
  { e.tail.decode.exec idle s with rcx := decrement e.decode.element.addr32 (e.tail.decode.exec idle s).rcx }

def GoesOn (e : Encoding) (r : Rep) (s : CpuState Unit) : Prop :=
  counter e.decode.element.addr32 s.rcx ≠ 0 ∧ r.stops e.op s.flags = false

theorem exists_goesOn : ∃ s, GoesOn e r s := by
  have hone : counter e.decode.element.addr32 1 ≠ 0 := by
    cases e.decode.element.addr32 <;> decide
  cases r with
  | rep => exact ⟨⟨1, 0x40, ()⟩, hone, and_false _⟩
  | repne => exact ⟨⟨1, 0, ()⟩, hone, and_false _⟩

theorem goesOn_idleBody (hrep : e.tail.decode.rep = some r)
    (haddr : e.tail.decode.element.addr32 = true → e.decode.element.addr32 = true) {s : CpuState Unit}
    (hs : r.stops e.op s.flags = false) : GoesOn e r (idleBody e s) := by
  obtain ⟨hzero, hflags⟩ := repeated_idle (x := e.tail.decode.element) hs _ rfl
  have hexec : e.tail.decode.exec idle s =
      e.tail.decode.element.repeated idle r (counter e.tail.decode.element.addr32 s.rcx).toNat s := by
    rw [StringInstr.exec, hrep]
  rw [← hexec] at hzero hflags
  refine ⟨counter_decrement_ne_zero (counter_eq_zero_of_imp haddr hzero), ?_⟩
  rw [idleBody, hflags]
  exact hs

section Idle

variable {code : List (Instr (Id ι) Unit)} {piece : List (Instr (Id ι) Unit)} {s t : CpuState Unit}

theorem not_reaches_of_body (hs : GoesOn e r s)
    (hstart : ∀ s, GoesOn e r s → ((language idle (Id ι)).step code)^[2] (.run piece s) = .run (piece.drop 3) s)
    (hbody : ∀ s, r.stops e.op s.flags = false → ∃ n s', r.stops e.op s'.flags = false ∧
      ((language idle (Id ι)).step code)^[n + 1] (.run (piece.drop 3) s) = .run (piece.drop 3) s')
    (hne : piece.drop 3 ≠ []) : ¬ (language idle (Id ι)).Reaches code (.run piece s) (.run [] t) := by
  have hpiece : piece ≠ [] := by
    rintro rfl
    exact hne rfl
  apply Language.not_reaches_of_recurs (P := fun c => ∃ s, r.stops e.op s.flags = false ∧
    (c = .run (piece.drop 3) s ∨ c = .run piece s ∧ GoesOn e r s))
  · rintro c ⟨s, hs, rfl | ⟨rfl, hgoes⟩⟩
    · obtain ⟨n, s', hs', hn⟩ := hbody s hs
      exact ⟨n, s', hs', .inl hn⟩
    · exact ⟨1, s, hs, .inl (hstart s hgoes)⟩
  · rfl
  · rintro ⟨s, -, h | ⟨h, -⟩⟩
    · exact hne (Config.run.inj h).1.symm
    · exact hpiece (Config.run.inj h).1.symm
  · exact ⟨s, hs.2, .inr ⟨rfl, hs⟩⟩

variable (hrep : e.tail.decode.rep = some r)
  (haddr : e.tail.decode.element.addr32 = true → e.decode.element.addr32 = true) (hs : GoesOn e r s)
include hrep haddr hs

theorem not_reaches_repPiece (hplaced : Placed idle code i (repPiece i e) []) :
    ¬ (language idle (Id ι)).Reaches code (.run (repPiece i e) s) (.run [] t) := by
  have htrySkip := hplaced .trySkip (repPiece i e) (by simp)
  have hdoInstr := hplaced .doInstr ((repPiece i e).drop 3) (by simp)
  have hstart : ∀ s, GoesOn e r s →
      ((language idle (Id ι)).step code)^[2] (.run (repPiece i e) s) = .run ((repPiece i e).drop 3) s := by
    intro s hs
    have hstep : (language idle (Id ι)).step code (.run (repPiece i e) s) = _ :=
      step_repJrcxz ((repPiece i e).drop 1) s
    rw [Function.iterate_succ_apply, hstep, if_neg hs.1]
    exact hdoInstr s
  refine not_reaches_of_body hs hstart (fun s hs => ⟨5, idleBody e s, (goesOn_idleBody hrep haddr hs).2, ?_⟩)
    (cons_ne_nil _ _)
  have hbody : ((language idle (Id ι)).step code)^[4] (.run ((repPiece i e).drop 3) s) = _ := htrySkip (idleBody e s)
  rw [Function.iterate_add_apply _ 2 4, hbody]
  exact hstart _ (goesOn_idleBody hrep haddr hs)

theorem not_reaches_repComparePiece (hplaced : Placed idle code i (repComparePiece i r e) []) (hop : e.op.isCompare = true) :
    ¬ (language idle (Id ι)).Reaches code (.run (repComparePiece i r e) s) (.run [] t) := by
  have hdoInstr := hplaced .doInstr ((repComparePiece i r e).drop 3)
    (by simp)
  have hstart : ∀ s, GoesOn e r s →
      ((language idle (Id ι)).step code)^[2] (.run (repComparePiece i r e) s) = .run ((repComparePiece i r e).drop 3) s := by
    intro s hs
    have hstep : (language idle (Id ι)).step code (.run (repComparePiece i r e) s) = _ :=
      step_repJrcxz ((repComparePiece i r e).drop 1) s
    rw [Function.iterate_succ_apply, hstep, if_neg hs.1]
    exact hdoInstr s
  refine not_reaches_of_body hs hstart (fun s hs => ⟨5, idleBody e s, (goesOn_idleBody hrep haddr hs).2, ?_⟩)
    (List.cons_ne_nil _ _)
  have hgoes := goesOn_idleBody hrep haddr hs
  have htryDone : ((language idle (Id ι)).step code)^[4] (.run ((repComparePiece i r e).drop 3) s) = _ :=
    step_repJrcxz ((repComparePiece i r e).drop 7) (idleBody e s)
  have htryStop : (language idle (Id ι)).step code (.run ((repComparePiece i r e).drop 7) (idleBody e s)) = _ :=
    step_jcc ((repComparePiece i r e).drop 8) (idleBody e s)
  rw [if_neg hgoes.1] at htryDone
  rw [r.jcc_holds hop, hgoes.2, if_neg Bool.false_ne_true] at htryStop
  rw [Function.iterate_add_apply _ 2 4, htryDone, Function.iterate_succ_apply, htryStop]
  exact hdoInstr _

theorem not_reaches_expand (hrep' : e.decode.rep = some r) (hplaced : Placed idle code i (expand true ⟨i, .string e⟩) []) :
    ¬ (language idle (Id ι)).Reaches code (.run (expand true ⟨i, .string e⟩) s) (.run [] t) := by
  cases hop : e.op.isCompare with
  | true =>
    rw [expand_repCompare hrep' hop] at hplaced ⊢
    exact not_reaches_repComparePiece hrep haddr hs hplaced hop
  | false =>
    rw [expand_rep hrep' hop] at hplaced ⊢
    exact not_reaches_repPiece hrep haddr hs hplaced

end Idle

end Runs

end Granary.Blocks
