import Granary.Lib.Chain
import Mathlib.Logic.Relation

/-!
# The trace log

`trace_log::add_entry` of `granary/trace_log.cc`, one atomic step of a thread at a time. Items are indices into `LOGS`.
Their `code_cache_addr` and `state` are left out.
-/

namespace Granary.Debug

open Function (update)

inductive TracePc where
  | idle
  | load (item : Nat)
  | link (item : Nat) (prev : Option Nat)
  | exchange (item : Nat) (prev : Option Nat)

def TracePc.item : TracePc → Option Nat
  | idle => none
  | load item | link item _ | exchange item _ => some item

/-- `calls` are the threads that have called the function, in the order in which they took their items. -/
structure TraceLog (τ : Type) where
  trace : Option Nat
  prev : Nat → Option Nat
  pc : τ → TracePc
  calls : List τ

variable {τ : Type}

namespace TraceLog

def init : TraceLog τ where
  trace := none
  prev _ := none
  pc _ := .idle
  calls := []

def numTraceEntries (s : TraceLog τ) : Nat := s.calls.length

def goto [DecidableEq τ] (s : TraceLog τ) (t : τ) (pc : TracePc) : TraceLog τ := { s with pc := update s.pc t pc }

end TraceLog

inductive TraceStep [DecidableEq τ] (capacity : Nat) : TraceLog τ → TraceLog τ → Prop where
  | fetchAdd {s} (t : τ) : s.pc t = .idle →
      TraceStep capacity s { s.goto t (.load (s.numTraceEntries % capacity)) with calls := s.calls ++ [t] }
  | load {s} (t : τ) (item : Nat) : s.pc t = .load item → TraceStep capacity s (s.goto t (.link item s.trace))
  | link {s} (t : τ) (item : Nat) (prev : Option Nat) : s.pc t = .link item prev →
      TraceStep capacity s { s.goto t (.exchange item prev) with prev := update s.prev item prev }
  | exchange {s} (t : τ) (item : Nat) : s.pc t = .exchange item s.trace →
      TraceStep capacity s { s.goto t .idle with trace := some item }
  -- `compare_exchange_weak` may also fail for no reason
  | fail {s} (t : τ) (item : Nat) (prev : Option Nat) : s.pc t = .exchange item prev →
      TraceStep capacity s (s.goto t (.load item))

end Granary.Debug
