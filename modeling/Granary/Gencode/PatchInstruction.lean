import Granary.Lib.Memory
import Mathlib.Algebra.Group.Int.Defs
import Mathlib.Logic.Function.Basic

/-!
# Concurrent patching of a direct branch

`patch_instruction` of `granary/dbl.cc`, run by any number of CPUs for one `direct_branch_patch_info`. Each read and write
of its fields, of the lock and of the branch instruction is a step of its own.
-/

namespace Granary.Gencode

open Machine

/-- The mangled target, the call instruction of the stub, and the branch with the `rel32` that leads to the stub. -/
structure DirectBranchPatchInfo where
  targetAddress : Word
  indirectCall : Word
  patchAddress : Word
  ctiLen : Nat
  rel32 : BitVec 32

namespace DirectBranchPatchInfo

def distance (patch : DirectBranchPatchInfo) (target : Word) : Word :=
  target - (patch.patchAddress + BitVec.ofNat 64 patch.ctiLen)

def newRel32 (patch : DirectBranchPatchInfo) (target : Word) : BitVec 32 := (patch.distance target).setWidth 32

def ctiTarget (patch : DirectBranchPatchInfo) (rel32 : BitVec 32) : Word :=
  patch.patchAddress + BitVec.ofNat 64 patch.ctiLen + rel32.signExtend 64

def InReach (patch : DirectBranchPatchInfo) (target : Word) : Prop :=
  -2 ^ 31 ≤ (patch.distance target).toInt ∧ (patch.distance target).toInt < 2 ^ 31

end DirectBranchPatchInfo

inductive PatchPc where
  | idle
  /-- `is_locked.load()` of `try_acquire` -/
  | load
  /-- `is_locked.exchange(true)` of `try_acquire` -/
  | exchange
  /-- `if(patch->translated_target_address)` without the lock -/
  | failed
  /-- `*ret_address_addr = patch->translated_target_address` without the lock -/
  | failedRead
  /-- `if(patch->translated_target_address)` with the lock -/
  | recheck
  /-- `patch->lock.release()` if there is a target already -/
  | patchedRelease
  /-- `*ret_address_addr = patch->translated_target_address` after it -/
  | patchedRead
  /-- `code_cache::find(cpu, patch->target_address)` -/
  | find
  /-- `patch->translated_target_address = target_pc` -/
  | publish (targetPc : Word)
  /-- `*ret_address_addr = patch->translated_target_address` -/
  | setReturn (targetPc : Word)
  /-- `*old_rel32 = new_rel32` -/
  | write (targetPc : Word)
  /-- `patch->lock.release()` -/
  | release (targetPc : Word)
  | returned
deriving DecidableEq, Repr

namespace PatchPc

def Unpublished : PatchPc → Prop
  | recheck | find | publish _ => True
  | _ => False

def Holds : PatchPc → Prop
  | recheck | find | publish _ | patchedRelease | setReturn _ | write _ | release _ => True
  | _ => False

def Done : PatchPc → Prop
  | idle | returned => True
  | _ => False

end PatchPc

/-- `publishes` and `writes` are the values written to `translated_target_address` and over the `rel32`. -/
structure PatchState (Cpu : Type) where
  locked : Bool
  translatedTargetAddress : Option Word
  rel32 : BitVec 32
  publishes : List Word
  writes : List (BitVec 32)
  pc : Cpu → PatchPc
  ret : Cpu → Word

namespace PatchState

variable {Cpu : Type} [DecidableEq Cpu]

def init (patch : DirectBranchPatchInfo) (ret : Cpu → Word) : PatchState Cpu :=
  { locked := false, translatedTargetAddress := none, rel32 := patch.rel32, publishes := [], writes := [],
    pc := fun _ => .idle, ret }

def goto (s : PatchState Cpu) (c : Cpu) (pc : PatchPc) : PatchState Cpu := { s with pc := Function.update s.pc c pc }

def setRet (s : PatchState Cpu) (c : Cpu) (a : Word) : PatchState Cpu := { s with ret := Function.update s.ret c a }

def setRetTranslated (s : PatchState Cpu) (c : Cpu) : PatchState Cpu := s.setRet c (s.translatedTargetAddress.getD 0)

end PatchState

section Steps

variable {Cpu : Type} [DecidableEq Cpu] (finds : Word → Word → Prop) (patch : DirectBranchPatchInfo)

/-- `finds` relates mangled addresses to what `code_cache::find` may return for them. -/
inductive PatchStep : PatchState Cpu → PatchState Cpu → Prop where
  | enter {s} (c : Cpu) : s.pc c = .idle → PatchStep s ((s.goto c .load).setRet c patch.indirectCall)
  | loadLocked {s} (c : Cpu) : s.pc c = .load → s.locked = true → PatchStep s (s.goto c .failed)
  | loadFree {s} (c : Cpu) : s.pc c = .load → s.locked = false → PatchStep s (s.goto c .exchange)
  | exchangeLocked {s} (c : Cpu) : s.pc c = .exchange → s.locked = true → PatchStep s (s.goto c .failed)
  | acquire {s} (c : Cpu) : s.pc c = .exchange → s.locked = false → PatchStep s { s.goto c .recheck with locked := true }
  | retry {s} (c : Cpu) : s.pc c = .failed → s.translatedTargetAddress = none → PatchStep s (s.goto c .returned)
  | failedSome {s} (c : Cpu) : s.pc c = .failed → s.translatedTargetAddress ≠ none → PatchStep s (s.goto c .failedRead)
  | failedRead {s} (c : Cpu) : s.pc c = .failedRead → PatchStep s ((s.goto c .returned).setRetTranslated c)
  | recheckSome {s} (c : Cpu) : s.pc c = .recheck → s.translatedTargetAddress ≠ none →
      PatchStep s (s.goto c .patchedRelease)
  | recheckNone {s} (c : Cpu) : s.pc c = .recheck → s.translatedTargetAddress = none → PatchStep s (s.goto c .find)
  | patchedRelease {s} (c : Cpu) : s.pc c = .patchedRelease → PatchStep s { s.goto c .patchedRead with locked := false }
  | patchedRead {s} (c : Cpu) : s.pc c = .patchedRead → PatchStep s ((s.goto c .returned).setRetTranslated c)
  | find {s} (c : Cpu) (targetPc : Word) : s.pc c = .find → finds patch.targetAddress targetPc →
      PatchStep s (s.goto c (.publish targetPc))
  | publish {s} (c : Cpu) (targetPc : Word) : s.pc c = .publish targetPc →
      PatchStep s { s.goto c (.setReturn targetPc) with
        translatedTargetAddress := some targetPc, publishes := targetPc :: s.publishes }
  | setReturn {s} (c : Cpu) (targetPc : Word) : s.pc c = .setReturn targetPc →
      PatchStep s ((s.goto c (.write targetPc)).setRetTranslated c)
  | write {s} (c : Cpu) (targetPc : Word) : s.pc c = .write targetPc →
      PatchStep s { s.goto c (.release targetPc) with
        rel32 := patch.newRel32 targetPc, writes := patch.newRel32 targetPc :: s.writes }
  | release {s} (c : Cpu) (targetPc : Word) : s.pc c = .release targetPc →
      PatchStep s { s.goto c .returned with locked := false }
  | leave {s} (c : Cpu) : s.pc c = .returned → PatchStep s (s.goto c .idle)

inductive PatchReachable : PatchState Cpu → Prop where
  | init (ret : Cpu → Word) : PatchReachable (PatchState.init patch ret)
  | step {s s'} : PatchReachable s → PatchStep finds patch s s' → PatchReachable s'

structure PatchSafe (s : PatchState Cpu) : Prop where
  /-- the target is set at most once, to a result of `code_cache::find` -/
  once : s.publishes = s.translatedTargetAddress.toList
  found : ∀ v, s.translatedTargetAddress = some v → finds patch.targetAddress v
  /-- the branch is the one to the stub, or the one to the target -/
  branch : s.rel32 = patch.rel32 ∨ ∃ v, s.translatedTargetAddress = some v ∧ s.rel32 = patch.newRel32 v ∧
    (patch.InReach v → patch.ctiTarget s.rel32 = v)
  writes : ∀ w ∈ s.writes, ∀ w' ∈ s.writes, w = w'
  free : (∀ c, (s.pc c).Done) → s.locked = false
  ret : ∀ c, s.pc c = .returned → s.ret c = patch.indirectCall ∨ s.translatedTargetAddress = some (s.ret c)
  /-- a CPU goes on to the target, or back to the stub while another one has the lock and has not published -/
  returns : ∀ s' c, PatchStep finds patch s s' → s.pc c ≠ .returned → s'.pc c = .returned →
    s'.translatedTargetAddress = some (s'.ret c) ∨ s'.ret c = patch.indirectCall ∧ s.translatedTargetAddress = none ∧
      s.locked = true ∧ ∃ d, d ≠ c ∧ (s.pc d).Unpublished

end Steps

end Granary.Gencode
