import Mathlib.Algebra.Group.Nat.Defs

/-!
# Targets of indirect branches

The set of targets that the CFG client keeps for each indirect CTI. Its slots are found in the memory that is allocated for
them, which is zeroed, and null pointers are empty slots.
-/

namespace Granary.Cfg

variable {α : Type} [DecidableEq α]

/-- The loop of `add_indirect_target`: the slots after it, unless it ran through all of them. -/
def searchAndAdd (targetAddr : α) : List (Option α) → Option (List (Option α))
  | [] => none
  | none :: slots => some (some targetAddr :: slots)
  | some target :: slots =>
    if targetAddr = target then some (some target :: slots) else (searchAndAdd targetAddr slots).map (some target :: ·)

/-- The slots are copied to an array with twice as many. Their number is an `unsigned`. -/
def resize (slots : List (Option α)) : List (Option α) :=
  let num := slots.length * 2 % 2 ^ 32
  slots.take num ++ List.replicate (num - slots.length) none

def addIndirectTarget (targetAddr : α) (slots : List (Option α)) : List (Option α) :=
  match searchAndAdd targetAddr slots with
  | some slots => slots
  | none => resize slots

/-- The slots after some calls. `instrument_indirect_cti` allocates four. -/
def targetsAfter (calls : List α) : List (Option α) :=
  calls.foldl (fun slots targetAddr => addIndirectTarget targetAddr slots) (List.replicate 4 none)

/-- The recorded targets are those that were passed, and each of them is recorded once. -/
def Recorded (calls : List α) : Prop :=
  ((targetsAfter calls).filterMap id).Nodup ∧ ∀ target, target ∈ (targetsAfter calls).filterMap id ↔ target ∈ calls

end Granary.Cfg
