import Granary.Watchpoints.Rcu

/-!
# The log of the RCU debugger

`log`, `report` and `clear_log` of `rcudbg/log.h` and `rcudbg/log.cc`, called one after the other. What `sprintf` makes of a
message is a parameter, and `detach` is left out of `report`.
-/

namespace Granary.Watchpoints

open Machine

/-- A message id is any `unsigned`. The payload has as many words as `num_args` says. -/
structure MessageContainer where
  messageId : BitVec 32
  args : List Word
deriving DecidableEq, Repr

def messageNotReady : BitVec 32 := 0

def maxMessageId : BitVec 32 := 15

/-- `MESSAGE_INFO` has an entry for each id, those of `MESSAGE_NOT_READY` and `MAX_MESSAGE_ID` included. -/
def messageInfoLength : Nat := 16

/-- The number of arguments of each message, in the order of `message.h`. -/
def messageArities : List Nat := [4, 4, 4, 3, 3, 3, 2, 3, 3, 3, 3, 3, 3, 3]

def bufferSize : Nat := 4 * 4096

def bufferFlushSize : Nat := bufferSize - 4096 / 4

inductive LogFault where
  /-- an id that is no index of `MESSAGE_INFO` or `MESSAGE_PRINTERS` -/
  | badId
  /-- a null pointer in `MESSAGE_PRINTERS`, or no printer for so many arguments in `VARIADIC_PRINTERS` -/
  | noPrinter
  /-- a slot behind the end of `MESSAGES` -/
  | badSlot
  /-- text behind the end of `BUFFER` -/
  | bufferOverflow
deriving DecidableEq, Repr

structure MessageLog where
  nextLogOffset : BitVec 64
  messages : List MessageContainer

namespace MessageLog

def emptySlot : MessageContainer := { messageId := messageNotReady, args := [] }

def init : MessageLog := { nextLogOffset := 0, messages := List.replicate maxNumMessages emptySlot }

def log (m : MessageContainer) (l : MessageLog) : Except LogFault MessageLog :=
  -- no level is below `MIN_LOG_LEVEL`, but `MESSAGE_INFO[id]` is read
  if messageInfoLength ≤ m.messageId.toNat then throw .badId
  else
    let index := l.nextLogOffset.toNat
    return { nextLogOffset := l.nextLogOffset + 1
             messages := if maxNumMessages ≤ index then l.messages else l.messages.set (index % maxNumMessages) m }

def clearLog (l : MessageLog) : MessageLog := { l with nextLogOffset := 0 }

/-- What was given to `granary::log`, what is in `BUFFER`, and the messages whose printers were called. -/
structure Printing where
  chunks : List (List Char)
  buffer : List Char
  printed : List MessageContainer

variable (text : MessageContainer → List Char)

def print (m : MessageContainer) (p : Printing) : Except LogFault Printing :=
  if messageInfoLength ≤ m.messageId.toNat then throw .badId
  else if m.messageId = messageNotReady ∨ m.messageId = maxMessageId then throw .noPrinter
  else if m.args.length = 0 ∨ 4 < m.args.length then throw .noPrinter
  else if bufferSize < p.buffer.length + (text m).length + 1 then throw .bufferOverflow
  else return { p with buffer := p.buffer ++ text m, printed := p.printed ++ [m] }

def flush (p : Printing) : Printing := { p with chunks := p.chunks ++ [p.buffer], buffer := [] }

def reportSlot (m : MessageContainer) (p : Printing) : Except LogFault Printing :=
  if messageNotReady = m.messageId then return p
  -- no id is in the range that is tested for
  else if m.messageId ≤ messageNotReady ∧ maxMessageId ≤ m.messageId then return p
  else print text m (if bufferFlushSize ≤ p.buffer.length then flush p else p)

def reportLoop : Nat → List MessageContainer → Printing → Except LogFault Printing
  | 0, _, p => return p
  | _ + 1, [], _ => throw .badSlot
  | n + 1, m :: slots, p => do
      let p ← reportSlot text m p
      reportLoop n slots p

def numMessages (l : MessageLog) : Nat :=
  let n := l.nextLogOffset.toNat % 2 ^ 32
  if n < maxNumMessages then maxNumMessages else n

def report (l : MessageLog) : Except LogFault (MessageLog × Printing) := do
  let p ← reportLoop text l.numMessages l.messages { chunks := [], buffer := [], printed := [] }
  return (l.clearLog, if p.buffer = [] then p else flush p)

end MessageLog

/-! ## Histories -/

inductive LogOp where
  | log (m : MessageContainer)
  | report
  | clearLog
deriving DecidableEq, Repr

namespace LogOp

variable (text : MessageContainer → List Char)

def run : List LogOp → MessageLog → Except LogFault (List MessageLog.Printing)
  | [], _ => return []
  | log m :: ops, l => do
      let l ← l.log m
      run ops l
  | report :: ops, l => do
      let (l, p) ← l.report text
      let ps ← run ops l
      return p :: ps
  | clearLog :: ops, l => run ops l.clearLog

/-- What the reports should print, where `ms` was logged since the last report. -/
def expected (ms : List MessageContainer) : List LogOp → List (List MessageContainer)
  | [] => []
  | log m :: ops => expected (ms ++ [m]) ops
  | report :: ops => ms.take maxNumMessages :: expected [] ops
  | clearLog :: ops => expected [] ops

/-- Every report prints the right messages, and all of their text is written. -/
def Exact (ops : List LogOp) : Prop :=
  ∃ ps, run text ops MessageLog.init = .ok ps ∧ ps.map MessageLog.Printing.printed = expected [] ops ∧
    ∀ p ∈ ps, p.chunks.flatten = p.printed.flatMap text

/-- A message of the table with its own number of arguments and at most 1024 characters of text. -/
def Printable (m : MessageContainer) : Prop :=
  m.messageId ≠ messageNotReady ∧ messageArities[m.messageId.toNat - 1]? = some m.args.length ∧ (text m).length ≤ 1024

instance (m : MessageContainer) : Decidable (Printable text m) := inferInstanceAs (Decidable (_ ∧ _))

/-- After at most `most` messages in any earlier period and `n` in this one, reports find a log that is not too full and no
earlier period was longer. -/
def Reportable (most n : Nat) : List LogOp → Prop
  | [] => True
  | log m :: ops => Printable text m ∧ n < 2 ^ 64 ∧ Reportable most (n + 1) ops
  | report :: ops => n % 2 ^ 32 ≤ maxNumMessages ∧ most ≤ n ∧ Reportable (min n maxNumMessages) 0 ops
  | clearLog :: ops => Reportable (max most (min n maxNumMessages)) 0 ops

end LogOp

end Granary.Watchpoints
