import Granary.Blocks.Loops

/-!
# Loop instructions: pieces of the translated list
-/

namespace Granary.Blocks

open Machine List

attribute [local simp] Instr.old insertBefore replaceWith

section Pieces

variable {ι ρ : Type}

def Id.owner : Id ι → ι
  | old i => i
  | new i _ => i

@[simp] theorem Id.owner_old (i : ι) : (Id.old i).owner = i := rfl

@[simp] theorem Id.owner_new (role : Role) : (Id.new i role).owner = i := rfl

/-! ## The pieces -/

def loopPiece (i : ι) (kind : LoopKind) (addr32 : Bool) (target : Target (Id ι)) : List (Instr (Id ι) ρ) :=
  [⟨.new i .jmpTryLoop, jmpNew i .tryLoop⟩, ⟨.new i .doLoop, .label⟩, ⟨.new i .jmpTarget, .jmp target⟩,
    ⟨.new i .tryLoop, .label⟩, ⟨.old i, .loop kind addr32 (.instr (.new i .doLoop))⟩]

def trySkipPiece (i : ι) (addr32 : Bool) (rest : List (Instr (Id ι) ρ)) : List (Instr (Id ι) ρ) :=
  ⟨.new i .trySkip, repJrcxz i .done addr32⟩ :: ⟨.new i .jmpDoInstr, jmpNew i .doInstr⟩ ::
    ⟨.new i .done, jmpNew i .after⟩ :: ⟨.new i .doInstr, .label⟩ :: rest

def Encoding.tail (e : Encoding) : Encoding := { e with prefixes := e.prefixes.tail }

def repPiece (i : ι) (e : Encoding) : List (Instr (Id ι) ρ) :=
  trySkipPiece i e.decode.element.addr32
    [⟨.old i, .string e.tail⟩, ⟨.new i .lea, .leaCounter e.decode.element.addr32⟩, ⟨.new i .again, jmpNew i .trySkip⟩,
      ⟨.new i .after, .label⟩]

def repComparePiece (i : ι) (r : Rep) (e : Encoding) : List (Instr (Id ι) ρ) :=
  trySkipPiece i e.decode.element.addr32
    [⟨.old i, .string e.tail⟩, ⟨.new i .lea, .leaCounter e.decode.element.addr32⟩,
      ⟨.new i .tryDone, repJrcxz i .after e.decode.element.addr32⟩, ⟨.new i .tryStop, .jcc r.jcc (.instr (.new i .after))⟩,
      ⟨.new i .again, jmpNew i .doInstr⟩, ⟨.new i .after, .label⟩]

def expand (preMangleRep : Bool) (x : Instr ι ρ) : List (Instr (Id ι) ρ) :=
  match x.insn with
  | .loop kind addr32 target => loopPiece x.id kind addr32 target.old
  | .string e =>
    match preMangleRep, e.decode.rep with
    | true, some r => if e.op.isCompare then repComparePiece x.id r e else repPiece x.id e
    | _, _ => [x.old]
  | _ => [x.old]

theorem expand_rep {i : ι} {e : Encoding} {r : Rep} (hrep : e.decode.rep = some r) (hop : e.op.isCompare = false) :
    expand true (⟨i, .string e⟩ : Instr ι ρ) = repPiece i e := by
  simp [expand, hrep, hop]

theorem expand_repCompare {i : ι} {e : Encoding} {r : Rep} (hrep : e.decode.rep = some r) (hop : e.op.isCompare = true) :
    expand true (⟨i, .string e⟩ : Instr ι ρ) = repComparePiece i r e := by
  simp [expand, hrep, hop]

theorem owner_expand (p : Bool) (x : Instr ι ρ) : ∀ y ∈ expand p x, y.id.owner = x.id := by
  have hold : ∀ y ∈ [x.old], y.id.owner = x.id := by simp
  obtain ⟨i, insn⟩ := x
  cases insn with
  | loop kind addr32 target => simp [expand, loopPiece]
  | string e =>
    simp only [expand]
    split
    · split <;> simp [repPiece, repComparePiece, trySkipPiece]
    · exact hold
  | label | jmp | jcc | leaCounter | other => exact hold

/-! ## Insertions -/

variable {κ : Type} [DecidableEq κ] {k : κ} {y : Instr κ ρ} {before ls : List (Instr κ ρ)}

theorem insertBefore_append (h : ∀ z ∈ before, z.id ≠ k) : insertBefore k y (before ++ ls) = before ++ insertBefore k y ls := by
  induction before with
  | nil => rfl
  | cons z before ih =>
    rw [cons_append, insertBefore, if_neg (h z mem_cons_self), ih fun w hw => h w (mem_cons_of_mem z hw),
      cons_append]

theorem insertAfter_append (h : ∀ z ∈ before, z.id ≠ k) : insertAfter k y (before ++ ls) = before ++ insertAfter k y ls := by
  induction before with
  | nil => rfl
  | cons z before ih =>
    rw [cons_append, insertAfter, if_neg (h z mem_cons_self), ih fun w hw => h w (mem_cons_of_mem z hw),
      cons_append]

theorem replaceWith_append {insn : Insn κ ρ} (h : ∀ z ∈ before, z.id ≠ k) :
    replaceWith k insn (before ++ ls) = before ++ replaceWith k insn ls := by
  induction before with
  | nil => rfl
  | cons z before ih =>
    rw [cons_append, replaceWith, if_neg (h z mem_cons_self), ih fun w hw => h w (mem_cons_of_mem z hw),
      cons_append]

end Pieces

/-! ## The list -/

section List

variable {ι ρ : Type} [DecidableEq ι] {before after : List (Instr (Id ι) ρ)} {i : ι}

theorem translateInstr_append (p : Bool) (x : Instr ι ρ) (h : ∀ z ∈ before, z.id.owner ≠ x.id) :
    translateInstr p (before ++ x.old :: after) x = before ++ (expand p x ++ after) := by
  obtain ⟨i, insn⟩ := x
  have hold : ∀ z ∈ before, z.id ≠ .old i := fun z hz hzi => h z hz (hzi ▸ rfl)
  have hnew : ∀ role, ∀ z ∈ before, z.id ≠ .new i role := fun role z hz hzi => h z hz (hzi ▸ rfl)
  cases insn with
  | loop kind addr32 target =>
    simp [translateInstr, translateLoop, expand, loopPiece, insertBefore_append hold, insertBefore_append (hnew _),
      replaceWith_append hold]
  | string e =>
    simp only [translateInstr, expand]
    cases p with
    | false => rfl
    | true =>
      cases e.decode.rep with
      | none => rfl
      | some r =>
        simp only
        split
        · simp [translateRepCompare, insertTrySkip, commonRepTail, repComparePiece, trySkipPiece, Encoding.tail,
            insertBefore_append hold, insertBefore_append (hnew _), insertAfter_append hold, replaceWith_append hold,
            insertAfter]
        · simp [translateRep, insertTrySkip, commonRepTail, repPiece, trySkipPiece, Encoding.tail,
            insertBefore_append hold, insertBefore_append (hnew _), insertAfter_append hold, replaceWith_append hold,
            insertAfter]
  | label | jmp | jcc | leaCounter | other => rfl

theorem foldl_translateInstr (p : Bool) (ls : List (Instr ι ρ)) (hnodup : (ls.map Instr.id).Nodup)
    (h : ∀ z ∈ before, z.id.owner ∉ ls.map Instr.id) :
    ls.foldl (translateInstr p) (before ++ ls.map Instr.old) = before ++ ls.flatMap (expand p) := by
  induction ls generalizing before with
  | nil => rfl
  | cons x ls ih =>
    rw [map_cons, nodup_cons] at hnodup
    have hbefore : ∀ z ∈ before, z.id.owner ≠ x.id := fun z hz hzx => h z hz (hzx ▸ mem_cons_self)
    rw [foldl_cons, map_cons, translateInstr_append p x hbefore, ← append_assoc, ih hnodup.2,
      append_assoc, flatMap_cons]
    intro z hz
    obtain hz | hz := mem_append.1 hz
    · exact fun hmem => h z hz (mem_cons_of_mem _ hmem)
    · rw [owner_expand p x z hz]
      exact hnodup.1

theorem translateLoops_eq (p : Bool) {ls : List (Instr ι ρ)} (hnodup : (ls.map Instr.id).Nodup) :
    translateLoops p ls = ls.flatMap (expand p) :=
  foldl_translateInstr p ls hnodup fun _ h => absurd h not_mem_nil

end List

end Granary.Blocks
