import Mathlib.Data.List.Nodup
import Mathlib.Logic.Function.Basic

/-!
# Sequences of moves

Moves of the values of expressions to registers, one after the other. Later expressions see what earlier moves have written.
-/

namespace Moves

variable {R E V : Type} [DecidableEq R] (ev : E → (R → V) → V) {moves before after : List (R × E)} {p : R × E} {r : R}

def assign (moves : List (R × E)) (regs : R → V) : R → V :=
  moves.foldl (fun regs p => Function.update regs p.1 (ev p.2 regs)) regs

@[simp] theorem assign_cons (regs : R → V) :
    assign ev (p :: moves) regs = assign ev moves (Function.update regs p.1 (ev p.2 regs)) := rfl

theorem assign_append (moves' : List (R × E)) (regs : R → V) :
    assign ev (moves ++ moves') regs = assign ev moves' (assign ev moves regs) := List.foldl_append ..

theorem assign_keeps (h : ∀ p ∈ moves, p.1 = r → ∀ regs, ev p.2 regs = regs r) (regs : R → V) :
    assign ev moves regs r = regs r := by
  induction moves generalizing regs with
  | nil => rfl
  | cons p moves ih =>
    rw [assign_cons, ih fun q hq => h q (List.mem_cons_of_mem _ hq)]
    by_cases hp : p.1 = r
    · rw [hp, Function.update_self, h p List.mem_cons_self hp]
    · rw [Function.update_of_ne (Ne.symm hp)]

theorem assign_of_not_mem (h : r ∉ moves.map (·.1)) (regs : R → V) : assign ev moves regs r = regs r :=
  assign_keeps ev (fun p hp hr => absurd (List.mem_map.mpr ⟨p, hp, hr⟩) h) regs

theorem assign_middle (h : p.1 ∉ after.map (·.1)) (regs : R → V) :
    assign ev (before ++ p :: after) regs p.1 = ev p.2 (assign ev before regs) := by
  rw [assign_append, assign_cons, assign_of_not_mem ev h, Function.update_self]

theorem forall_assign_iff (hnodup : (moves.map (·.1)).Nodup) (regs : R → V) (value : R × E → V) :
    (∀ p ∈ moves, assign ev moves regs p.1 = value p) ↔
      ∀ before p after, moves = before ++ p :: after → ev p.2 (assign ev before regs) = value p := by
  have hmiddle : ∀ before p after, moves = before ++ p :: after →
      assign ev moves regs p.1 = ev p.2 (assign ev before regs) := by
    rintro before p after rfl
    rw [List.map_append, List.map_cons, List.nodup_append] at hnodup
    exact assign_middle ev (List.nodup_cons.mp hnodup.2.1).1 regs
  constructor
  · intro h before p after hmoves
    rw [← hmiddle before p after hmoves]
    exact h p (by simp [hmoves])
  · intro h p hp
    obtain ⟨before, after, hmoves⟩ := List.append_of_mem hp
    rw [hmiddle before p after hmoves, h before p after hmoves]

theorem assign_congr {ev' : E → (R → V) → V} (h : ∀ p ∈ moves, ev p.2 = ev' p.2) (regs : R → V) :
    assign ev moves regs = assign ev' moves regs := by
  induction moves generalizing regs with
  | nil => rfl
  | cons p moves ih =>
    rw [assign_cons, assign_cons, h p List.mem_cons_self, ih fun q hq => h q (List.mem_cons_of_mem _ hq)]

end Moves
