import Mathlib.Algebra.Group.Nat.Defs

/-!
# `printf`

`granary/user/posix/printf.cc`. The format string is without its null character, and `none` stands for a division by zero, for
a loop that did not end, for a write outside of the buffer and for an argument that is not there or of another type.
-/

namespace Granary.User

/-! ## Integers -/

/-- The loop that looks for a power of the base which is larger than the number. -/
def growBase (data base : Nat) : Nat → Nat → Option Nat
  | 0, _ => none
  | fuel + 1, maxBase =>
    if maxBase = 0 then none
    else if data / maxBase = 0 then some maxBase
    else growBase data base fuel (maxBase * base % 2 ^ 64)

def digitChar (digit : Nat) : Char := if digit < 10 then Char.ofNat (digit + 48) else Char.ofNat ((digit - 10 + 97) % 256)

/-- The loop that writes the digits. -/
def writeDigits (base : Nat) : Nat → Nat → Nat → Option (List Char)
  | 0, _, _ => none
  | fuel + 1, data, maxBase =>
    if maxBase = 0 then some []
    else
      let digit := data / maxBase
      (writeDigits base fuel (data - digit * maxBase) (maxBase / base)).map (digitChar digit :: ·)

/-- The number as a signed one, of 64 bits or of 32 bits which are extended. -/
def signedData (is64Bit : Bool) (data : Nat) : Int :=
  if is64Bit then (BitVec.ofNat 64 data).toInt else (BitVec.ofNat 32 data).toInt

/-- What `WriteGenericInt` writes. A power of the base is 0 after 64 rounds. -/
def writeGenericInt (data : Nat) (is64Bit isSigned : Bool) (base : Nat) : Option (List Char) :=
  if data = 0 then some ['0']
  else
    let value : Int := if isSigned then signedData is64Bit data else data
    let rest := (growBase value.natAbs base 65 base).bind fun maxBase => writeDigits base 65 value.natAbs (maxBase / base)
    if value < 0 then rest.map ('-' :: ·) else rest

/-! ## Formats -/

def writeBuffSize : Nat := 255

inductive PrintfArg where
  | int (data : Nat)
  | str (text : Option (List Char))
deriving DecidableEq, Repr

/-- What is left of the format and of the arguments, and what is written and buffered. -/
structure Printf where
  format : List Char
  args : List PrintfArg
  written : List Char
  writeBuff : List Char
deriving DecidableEq, Repr

def charOf (data : Nat) : Char := Char.ofNat (data % 256)

/-- The code at `generic_int`. -/
def Printf.genericInt (s : Printf) (is64Bit isSigned : Bool) (base : Nat) : Option Printf :=
  match s.args with
  | .int data :: args => do
      let text ← writeGenericInt (if is64Bit then data % 2 ^ 64 else data % 2 ^ 32) is64Bit isSigned base
      if (s.writeBuff ++ text).length ≤ writeBuffSize + 1 then
        some { s with args := args, writeBuff := s.writeBuff ++ text }
      else none
  | _ => none

/-- The `switch` at a conversion. -/
def Printf.convert (s : Printf) (is64Bit : Bool) : List Char → Option Printf
  | [] => some { s with format := [], writeBuff := s.writeBuff ++ ['%'] }
  | ch :: format =>
    let s := { s with format := format }
    if ch = 'c' then
      match s.args with
      | .int data :: args => some { s with args := args, writeBuff := s.writeBuff ++ [charOf data] }
      | _ => none
    else if ch = 's' then
      match s.args with
      | .str text :: args => some { s with args := args, written := s.written ++ text.getD [] }
      | _ => none
    else if ch = 'd' then s.genericInt is64Bit true 10
    else if ch = 'x' then s.genericInt is64Bit false 16
    else if ch = 'p' then s.genericInt true false 16
    else if ch = 'u' then s.genericInt is64Bit false 10
    else if ch = 'l' then s.convert true format
    else if ch = 'f' then some { s with writeBuff := s.writeBuff ++ ['F'] }
    else some s

/-- Buffer parts of the string between arguments. -/
def bufferText : List Char → List Char → List Char × List Char
  | [], writeBuff => ([], writeBuff)
  | ch :: format, writeBuff =>
    if writeBuff.length < writeBuffSize ∧ ch ≠ '%' then bufferText format (writeBuff ++ [ch]) else (ch :: format, writeBuff)

/-- One round of the loop, or `none` inside if it was the last one. -/
def Printf.round (s : Printf) : Option (Option Printf × List Char) :=
  let (format, writeBuff) := bufferText s.format s.writeBuff
  let s := { s with format := format, written := s.written ++ writeBuff, writeBuff := [] }
  match format with
  | [] => some (none, s.written)
  | ch :: format =>
    if ch = '%' ∧ format.head? = some '%' then some (some { s with format := format.tail, writeBuff := ['%'] }, [])
    -- The character is taken for the one that begins a conversion.
    else (s.convert false format).map fun s => (some s, [])

def Printf.loop : Nat → Printf → Option (List Char)
  | 0, _ => none
  | fuel + 1, s =>
    if s.format = [] then some (s.written ++ s.writeBuff)
    else
      match s.round with
      | some (some s, _) => s.loop fuel
      | some (none, written) => some written
      | none => none

/-- What `printf` writes. Each round takes a character of the format. -/
def printf (format : List Char) (args : List PrintfArg) : Option (List Char) :=
  Printf.loop (format.length + 1) { format := format, args := args, written := [], writeBuff := [] }

/-! ## Expansion -/

inductive PrintfKind where
  | c | s | d | x | p | u
deriving DecidableEq, Repr

def PrintfKind.letter : PrintfKind → Char
  | c => 'c'
  | s => 's'
  | d => 'd'
  | x => 'x'
  | p => 'p'
  | u => 'u'

/-- A piece of a format, with the argument of a conversion. -/
inductive Piece where
  | literal (ch : Char)
  | percent
  | conversion (longs : Nat) (kind : PrintfKind) (arg : PrintfArg)
deriving DecidableEq, Repr

def Piece.format : Piece → List Char
  | literal ch => [ch]
  | percent => ['%', '%']
  | conversion longs kind _ => '%' :: (List.replicate longs 'l' ++ [kind.letter])

def Piece.args : Piece → List PrintfArg
  | conversion _ _ arg => [arg]
  | _ => []

def numeral (value : Int) (base : Nat) : List Char :=
  if value < 0 then '-' :: Nat.toDigits base value.natAbs else Nat.toDigits base value.natAbs

/-- The bits that an integer conversion reads. -/
def dataOf (longs : Nat) (kind : PrintfKind) (data : Nat) : Nat :=
  if 0 < longs ∨ kind = .p then data % 2 ^ 64 else data % 2 ^ 32

/-- What a conversion is replaced by. -/
def expandArg (longs : Nat) : PrintfKind → PrintfArg → List Char
  | .c, .int data => [charOf data]
  | .s, .str text => text.getD []
  | .d, .int data => numeral (signedData (0 < longs) (dataOf longs .d data)) 10
  | .x, .int data => numeral (dataOf longs .x data) 16
  | .p, .int data => numeral (dataOf longs .p data) 16
  | .u, .int data => numeral (dataOf longs .u data) 10
  | _, _ => []

def Piece.expand : Piece → List Char
  | literal ch => [ch]
  | percent => ['%']
  | conversion longs kind arg => expandArg longs kind arg

/-- A piece of a format, with an argument of the right type. The numbers are below some bounds. -/
def Piece.WellFormed (hexBound decBound : Nat) : Piece → Prop
  | literal ch => ch ≠ '%' ∧ ch ≠ '\x00'
  | percent => True
  | conversion _ .s (.str _) => True
  | conversion _ .c (.int _) => True
  | conversion _ .d (.int _) => True
  | conversion longs .x (.int data) => dataOf longs .x data < hexBound
  | conversion longs .p (.int data) => dataOf longs .p data < hexBound
  | conversion longs .u (.int data) => dataOf longs .u data < decBound
  | conversion _ _ _ => False

/-- The characters that a piece leaves in the buffer. -/
def Piece.buffered : Piece → Nat
  | conversion _ .s _ => 0
  | piece => piece.expand.length

/-- At most `bound` characters of text follow each other, with those that the piece before left in the buffer. -/
def RunsWithin (bound : Nat) : Nat → List Piece → Prop
  | _, [] => True
  | pending, .literal _ :: pieces => pending < bound ∧ RunsWithin bound (pending + 1) pieces
  | _, piece :: pieces => RunsWithin bound piece.buffered pieces

/-- The pieces of a format are written as they should be. -/
def PrintsExpansion (pieces : List Piece) : Prop :=
  printf (pieces.flatMap Piece.format) (pieces.flatMap Piece.args) = some (pieces.flatMap Piece.expand)

end Granary.User
