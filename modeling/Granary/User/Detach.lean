import Mathlib.Data.List.Basic

/-!
# Libraries of a process

How the detach points of a process are found: `parse_proc_maps` reads the memory map of the process and passes the path of each
mapped file to `visit_elf_path`. `none` stands for an access outside of a buffer, and for a loop that did not end.
-/

namespace Granary.User

/-! ## Memory maps -/

def lineSize : Nat := 4095

/-- The local variables: `readBuff` is what follows `read_ch` and `pathBuff` is what precedes `path_ch`. -/
structure ProcMaps where
  canRead : Bool
  readBuffEmpty : Bool
  findPath : Bool
  readBuff : List Char
  pathBuff : List Char
  pathLen : Nat
  /-- What the next reads return, before the end of the file. -/
  chunks : List (List Char)
  /-- The calls of `for_each_path`. -/
  visited : List (List Char × Nat)

/-- Fill up the read buffer if necessary. A null character ends it. -/
def ProcMaps.fill (s : ProcMaps) : Option ProcMaps :=
  if s.canRead && s.readBuffEmpty then
    match s.chunks with
    | [] => some { s with canRead := false, readBuffEmpty := false, readBuff := [] }
    | chunk :: chunks =>
      if chunk.length ≤ lineSize then
        some { s with
          canRead := 0 < chunk.length, readBuffEmpty := false, readBuff := chunk.takeWhile (· ≠ '\x00'), chunks := chunks }
      else none
  else some s

/-- The loops that copy a path. They end at the end of the read buffer or at the end of the line. -/
def copyPath : List Char → List Char → Nat → Option (List Char × List Char × Nat)
  | [], path, len => some ([], path, len)
  | c :: unread, path, len =>
    if c = '\n' then some (c :: unread, path, len)
    -- Both the character and the null character after it are stored.
    else if path.length + 1 ≤ lineSize then copyPath unread (path ++ [c]) (len + 1)
    else none

/-- Try to find the beginning of a path, and to complete it. The result says if the loop goes on. -/
def ProcMaps.find (s : ProcMaps) : Option (Bool × ProcMaps) :=
  if s.readBuffEmpty then some (s.canRead, s)
  else
    match s.readBuff.dropWhile (· ≠ '/') with
    | [] => some (true, { s with readBuff := [], readBuffEmpty := true })
    | c :: unread => do
        let (unread, path, len) ← copyPath (c :: unread) [] 0
        if unread.head? = some '\n' then
          some (true, { s with readBuff := unread, pathBuff := path, pathLen := 0, visited := s.visited ++ [(path, len)] })
        else some (true, { s with readBuff := unread, pathBuff := path, pathLen := len, findPath := false })

def ProcMaps.complete (s : ProcMaps) : Option (Bool × ProcMaps) := do
  let (unread, path, len) ← copyPath s.readBuff s.pathBuff s.pathLen
  if unread.head? = some '\n' then
    some (true,
      { s with
        readBuff := unread, pathBuff := path, pathLen := 0, findPath := true, visited := s.visited ++ [(path, len)] })
  else some (true, { s with readBuff := unread, pathBuff := path, pathLen := len, readBuffEmpty := true })

def ProcMaps.round (s : ProcMaps) : Option (Bool × ProcMaps) := do
  let s ← s.fill
  if s.findPath then s.find else s.complete

def ProcMaps.loop : Nat → ProcMaps → Option (List (List Char × Nat))
  | 0, _ => none
  | fuel + 1, s => do
      let (more, s) ← s.round
      if more then s.loop fuel else some s.visited

def parseProcMaps (fuel : Nat) (chunks : List (List Char)) : Option (List (List Char × Nat)) :=
  ProcMaps.loop fuel
    { canRead := true, readBuffEmpty := true, findPath := true, readBuff := [], pathBuff := [], pathLen := 0,
      chunks := chunks, visited := [] }

/-- The part of a line that is a path: what follows the first slash, and the slash itself. -/
def pathOf (line : List Char) : List Char := line.dropWhile (· ≠ '/')

def pathsOf (lines : List (List Char)) : List (List Char) := (lines.map pathOf).filter (· ≠ [])

/-! ## Visited paths -/

/-- `visit_elf_path`: whether the library is opened, and the buffer with the last path. -/
def visitElfPath (path lastPath : List Char) : Option (Bool × List Char) :=
  if path.length ≤ lastPath.length then
    if path = lastPath.take path.length then some (false, lastPath)
    else some (true, path ++ lastPath.drop path.length)
  else none

def visitPaths : List (List Char) → List Char → Option (List Bool)
  | [], _ => some []
  | path :: paths, lastPath => do
      let (opened, lastPath) ← visitElfPath path lastPath
      let rest ← visitPaths paths lastPath
      some (opened :: rest)

/-- The buffer of `init_user_detach`. -/
def initialLastPath : List Char := List.replicate 256 '\x00'

/-- What the visits are for: a path is visited unless it is the one before. -/
def changes : Option (List Char) → List (List Char) → List Bool
  | _, [] => []
  | last, path :: paths => decide (last ≠ some path) :: changes (some path) paths

/-- The character at a position of the buffer: that of the latest path that is long enough. -/
def leftAt (earlier : List (List Char)) (i : Nat) : Char :=
  ((earlier.find? fun path => i < path.length).bind fun path => path[i]?).getD '\x00'

/-- The paths fit, and a path that is not the one before differs from what earlier ones left in the buffer. -/
def TellsApart : List (List Char) → List (List Char) → Prop
  | _, [] => True
  | earlier, path :: paths =>
    path.length ≤ 256 ∧ (earlier.head? = some path ∨ ∃ i, path[i]? ≠ none ∧ path[i]? ≠ some (leftAt earlier i)) ∧
      TellsApart (path :: earlier) paths

end Granary.User
