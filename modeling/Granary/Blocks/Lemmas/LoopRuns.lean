import Granary.Blocks.Lemmas.Loops

/-!
# Loop instructions: runs of the pieces
-/

namespace Granary.Blocks

open Machine Code

section Runs

variable {ι ρ : Type} (sem : StringSemantics ρ) (p : Bool)

def loopExpansion (ι : Type) : Expansion (language sem ι) (language sem (Id ι)) where
  old := .old
  owner := Id.owner
  expand := expand p
  owner_old := Id.owner_old
  owner_expand := owner_expand p

variable {sem p} {pre post : List (Instr ι ρ)} {x : Instr ι ρ} {i : ι}

@[simp] theorem Target.nextIf_old (target : Target ι) (b : Bool) : (target.nextIf b).map Id.old = target.old.nextIf b := by
  cases b <;> cases target <;> rfl

@[simp] theorem Target.next_old (target : Target ι) : target.next.map Id.old = target.old.next := by
  cases target <;> rfl

theorem Insn.exec_old (insn : Insn ι ρ) (s : CpuState ρ) :
    insn.old.exec sem s = (insn.exec sem s).map id (Next.map Id.old) := by
  cases insn with
  | jmp target => exact Prod.ext rfl target.next_old.symm
  | jcc c target | loop kind addr32 target => exact Prod.ext rfl (target.nextIf_old _).symm
  | other exec =>
    simp only [Insn.old, Insn.exec]
    split <;> rfl
  | label | leaCounter | string => rfl

variable [DecidableEq ι]

theorem translate_eq (sem : StringSemantics ρ) (p : Bool) {ls : List (Instr ι ρ)} (hnodup : (ls.map Instr.id).Nodup) :
    (loopExpansion sem p ι).translate ls = translateLoops p ls :=
  (translateLoops_eq p hnodup).symm

theorem does_old (code : List (Instr ι ρ)) : (loopExpansion sem p ι).Does code x post [x.old] := by
  intro s
  have hexec : (language sem (Id ι)).exec x.old s = ((language sem ι).exec x s).map id (Next.map Id.old) := x.insn.exec_old s
  rw [List.singleton_append, Language.step_cons, hexec]
  exact .refl _

def Placed (sem : StringSemantics ρ) (code : List (Instr (Id ι) ρ)) (i : ι) (piece after : List (Instr (Id ι) ρ)) : Prop :=
  ∀ role rest, (language sem (Id ι)).find (.new i role) piece = some rest →
    ∀ s, (language sem (Id ι)).goto code (.new i role) s = .run (rest ++ after) s

theorem placed_expand (sem : StringSemantics ρ) (p : Bool) (hnodup : ((pre ++ x :: post).map Instr.id).Nodup) :
    Placed sem ((loopExpansion sem p ι).translate (pre ++ x :: post)) x.id (expand p x)
      ((loopExpansion sem p ι).translate post) :=
  fun _ _ hfind => Expansion.goto_translate (E := loopExpansion sem p ι) hnodup rfl hfind

/-! ## Loops -/

section Loop

variable {kind : LoopKind} {addr32 : Bool} {target : Target ι} {code after : List (Instr (Id ι) ρ)}
  (hplaced : Placed sem code i (loopPiece i kind addr32 target.old) after)
include hplaced

theorem reaches_loop_entry (s : CpuState ρ) :
    (language sem (Id ι)).Reaches code
      ((language sem (Id ι)).step code (.run (⟨.old i, .loop kind addr32 (.instr (.new i .doLoop))⟩ :: after) s))
      ((language sem (Id ι)).resume code after ((kind.exec addr32 s).1, target.old.nextIf (kind.exec addr32 s).2)) := by
  have hdoLoop := hplaced .doLoop ((loopPiece i kind addr32 target.old).drop 1) (by simp [loopPiece, Language.find, language])
  have hexec : (language sem (Id ι)).exec ⟨.old i, .loop kind addr32 (.instr (.new i .doLoop))⟩ s =
      ((kind.exec addr32 s).1, (Target.instr (.new i .doLoop)).nextIf (kind.exec addr32 s).2) := rfl
  rw [Language.step_cons, hexec]
  cases (kind.exec addr32 s).2 with
  | false => exact .refl _
  | true =>
    have hnext : (Target.instr (Id.new i .doLoop)).nextIf true = .goto (.new i .doLoop) := rfl
    rw [hnext, Language.resume_goto, hdoLoop]
    -- The label, and the jump.
    cases target <;> exact ⟨2, rfl⟩

theorem reaches_loop (s : CpuState ρ) :
    (language sem (Id ι)).Reaches code
      ((language sem (Id ι)).step code (.run (loopPiece i kind addr32 target.old ++ after) s))
      ((language sem (Id ι)).resume code after ((kind.exec addr32 s).1, target.old.nextIf (kind.exec addr32 s).2)) := by
  have htryLoop := hplaced .tryLoop ((loopPiece i kind addr32 target.old).drop 3) (by simp [loopPiece, Language.find, language])
  have hstep : (language sem (Id ι)).step code (.run (loopPiece i kind addr32 target.old ++ after) s) = _ := htryLoop s
  rw [hstep]
  -- The label.
  exact .head (.head (reaches_loop_entry hplaced s))

end Loop

end Runs

end Granary.Blocks
