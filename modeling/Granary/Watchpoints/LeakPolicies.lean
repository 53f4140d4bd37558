import Mathlib.Data.List.Basic

/-!
# Policies of the leak detector

`visit_app_instructions` of the policies in `leak_detector/instrument.cc`. Each of the three functions calls
`visit_app_instructions(cpu, bb, ls)`. In a function of a class this names the function of that class, which hides the one that
the class inherits, so it is a call of the same function.
-/

namespace Granary.Watchpoints

inductive LeakPolicy where
  | leakPolicyEnter
  | leakPolicyExit
  | leakPolicyContinue
deriving DecidableEq, Repr

/-- An instruction of the module, a label, code that saves or restores the registers of a function, and its call. -/
inductive LeakOp where
  | call
  | ret
  | other
  | label
  | saveRegs (entry : Bool)
  | restoreRegs (entry : Bool)
  | notifyEnter
  | notifyExit
deriving DecidableEq, Repr

def LeakOp.isCall : LeakOp → Bool
  | call | notifyEnter | notifyExit => true
  | _ => false

/-- An instruction, with the policy that was set on it. -/
structure LeakInstr where
  op : LeakOp
  policy : Option LeakPolicy := none
deriving DecidableEq, Repr

def instrumentEntryToCodeCache (ls : List LeakInstr) : List LeakInstr :=
  [⟨.label, none⟩, ⟨.saveRegs true, none⟩, ⟨.notifyEnter, none⟩, ⟨.restoreRegs true, none⟩] ++ ls

/-- What `instrument_exit_code_cache` inserts before an instruction. -/
def instrumentExitCodeCache : List LeakInstr :=
  [⟨.label, none⟩, ⟨.saveRegs false, none⟩, ⟨.notifyExit, none⟩, ⟨.restoreRegs false, none⟩]

/-- The loop of `leak_policy_exit::visit_app_instructions`. -/
def visitExits (ls : List LeakInstr) : List LeakInstr :=
  ls.flatMap fun i =>
    if i.op.isCall then [{ i with policy := some .leakPolicyContinue }]
    else if i.op = .ret then instrumentExitCodeCache ++ [i]
    else [i]

/-- The policy of the next blocks and the instrumented list, or `none` when more calls are needed. -/
def visitAppInstructions : Nat → LeakPolicy → List LeakInstr → Option (LeakPolicy × List LeakInstr)
  | 0, _, _ => none
  | calls + 1, .leakPolicyEnter, ls => do
      let (_, ls) ← visitAppInstructions calls .leakPolicyEnter ls
      some (.leakPolicyExit, instrumentEntryToCodeCache ls)
  | calls + 1, .leakPolicyExit, ls => do
      let (_, ls) ← visitAppInstructions calls .leakPolicyExit (visitExits ls)
      some (.leakPolicyExit, ls)
  | calls + 1, .leakPolicyContinue, ls => do
      let (_, ls) ← visitAppInstructions calls .leakPolicyContinue ls
      some (.leakPolicyContinue, ls)

/-- The function returns for this list. -/
def VisitReturns (policy : LeakPolicy) (ls : List LeakInstr) : Prop :=
  ∃ calls result, visitAppInstructions calls policy ls = some result

theorem visitAppInstructions_eq_none (calls : Nat) (policy : LeakPolicy) (ls : List LeakInstr) :
    visitAppInstructions calls policy ls = none := by
  induction calls generalizing ls with
  | zero => rfl
  | succ calls ih =>
    -- Whatever is done before it, the call of the same function is made, and it does not return.
    cases policy <;> rw [visitAppInstructions, ih] <;> rfl

theorem not_visitReturns (policy : LeakPolicy) (ls : List LeakInstr) : ¬VisitReturns policy ls := by
  rintro ⟨calls, result, h⟩
  rw [visitAppInstructions_eq_none] at h
  cases h

end Granary.Watchpoints
