import Granary.Lib.Bisect
import Granary.Lib.Memory

/-!
# Searching a slab through tagged pointers

`search_basic_block_info` of `granary/basic_block_info.cc` on the level of pointers. An entry of a slab is a word whose
low bit says if it points to a trace. Every read is checked, and so is the arithmetic on indices, which are `long`s.
-/

namespace Granary.Fragments.Search

open Machine

/-- The fields of a `basic_block_info` that the search reads. -/
structure BlockRecord where
  startPc : Word
  numBytes : BitVec 16
deriving DecidableEq, Repr

def BlockRecord.endPc (b : BlockRecord) : Word := b.startPc + b.numBytes.zeroExtend 64

/-- A `trace_info`, where `info` points to an array of blocks. -/
structure TraceRecord where
  startPc : Word
  numBlocks : BitVec 32
  numBytes : BitVec 32
  info : Word
deriving DecidableEq, Repr

def TraceRecord.endPc (t : TraceRecord) : Word := t.startPc + t.numBytes.zeroExtend 64

structure Heap where
  blocks : Word → Option BlockRecord
  traces : Word → Option TraceRecord

inductive SearchAbort where
  | outOfBounds
  | badPointer
  | overflow
  | assertion
deriving DecidableEq, Repr

/-- In the kernel, with interrupts delayed. -/
def sizeofBasicBlockInfo : Word := 56

def blockAt (blocks : Word) (i : Nat) : Word := blocks + sizeofBasicBlockInfo * BitVec.ofNat 64 i

namespace Heap

def block (h : Heap) (p : Word) : Except SearchAbort BlockRecord :=
  match h.blocks p with
  | some b => return b
  | none => throw .badPointer

def trace (h : Heap) (p : Word) : Except SearchAbort TraceRecord :=
  match h.traces p with
  | some t => return t
  | none => throw .badPointer

end Heap

/-! ## `generic_info_ptr` -/

def isTrace (p : Word) : Bool := p.getLsbD 0

/-- The pointer with `is_trace` reset. -/
def untraced (p : Word) : Word := p &&& ~~~1

def startPc (h : Heap) (p : Word) : Except SearchAbort Word :=
  if isTrace p then do
    let t ← h.trace (untraced p)
    return t.startPc
  else do
    let b ← h.block p
    return b.startPc

def endPc (h : Heap) (p : Word) : Except SearchAbort Word :=
  if isTrace p then do
    let t ← h.trace (untraced p)
    return t.endPc
  else do
    let b ← h.block p
    return b.endPc

def getBlockFrom (h : Heap) (blocks cachePc : Word) (i : Nat) : (left : Nat) → Except SearchAbort Word
  | 0 => throw .assertion
  | left + 1 => do
      let b ← h.block (blockAt blocks i)
      if b.startPc ≤ cachePc ∧ cachePc < b.endPc then return blockAt blocks i
      else getBlockFrom h blocks cachePc (i + 1) left

def getBlock (h : Heap) (p cachePc : Word) : Except SearchAbort Word :=
  if isTrace p then do
    let t ← h.trace (untraced p)
    getBlockFrom h t.info cachePc 0 t.numBlocks.toNat
  else return p

/-! ## The search -/

/-- A result of arithmetic on `long`s. -/
def long (x : Int) : Except SearchAbort Int :=
  if -9223372036854775808 ≤ x ∧ x < 9223372036854775808 then return x else throw .overflow

def readEntry (array : List Word) (i : Int) : Except SearchAbort Word :=
  if 0 ≤ i then
    match array[i.toNat]? with
    | some p => return p
    | none => throw .outOfBounds
  else throw .outOfBounds

def middleOf (first last : Int) : Except SearchAbort Int := do
  let sum ← long (first + last)
  return sum.tdiv 2

def searchLoop (h : Heap) (array : List Word) (cachePc : Word) (first last middle : Int) : Except SearchAbort Word :=
  if _h : first ≤ middle ∧ middle ≤ last then do
    let infoPtr ← readEntry array middle
    let traceStartPc ← startPc h infoPtr
    let traceEndPc ← endPc h infoPtr
    if traceStartPc ≤ cachePc then
      if cachePc < traceEndPc then getBlock h infoPtr cachePc
      else do
        let _ ← long (middle + 1)
        let middle' ← middleOf (middle + 1) last
        searchLoop h array cachePc (middle + 1) last middle'
    else do
      let _ ← long (middle - 1)
      let middle' ← middleOf first (middle - 1)
      searchLoop h array cachePc first (middle - 1) middle'
  else return 0
termination_by (last + 1 - first).toNat

def searchBasicBlockInfo (h : Heap) (array : List Word) (cachePc : Word) : Except SearchAbort Word := do
  let max : Int := array.length
  if max = 0 then return 0
  else do
    let last ← long (max - 1)
    let middle ← middleOf 0 last
    searchLoop h array cachePc 0 last middle

/-! ## Slabs -/

structure Entry where
  ptr : Word
  lo : Word
  hi : Word
deriving DecidableEq, Repr

def Entry.Contains (e : Entry) (pc : Word) : Prop := e.lo ≤ pc ∧ pc < e.hi

def BlockRecord.Contains (b : BlockRecord) (pc : Word) : Prop := b.startPc ≤ pc ∧ pc < b.endPc

def Heap.Tiles (h : Heap) (blocks : Word) (i : Nat) : (left : Nat) → (lo hi : Word) → Prop
  | 0, lo, hi => lo = hi
  | left + 1, lo, hi =>
    ∃ b, h.blocks (blockAt blocks i) = some b ∧ b.startPc = lo ∧ lo ≤ b.endPc ∧
      h.Tiles blocks (i + 1) left b.endPc hi

/-- The entry points to a block or to a trace that its blocks tile, and has its interval. -/
inductive Heap.Describes (h : Heap) : Entry → Prop
  | block {p : Word} {b : BlockRecord} : isTrace p = false → h.blocks p = some b → Describes h ⟨p, b.startPc, b.endPc⟩
  | trace {p : Word} {t : TraceRecord} : isTrace p = true → h.traces (untraced p) = some t →
      h.Tiles t.info 0 t.numBlocks.toNat t.startPc t.endPc → Describes h ⟨p, t.startPc, t.endPc⟩

/-- Tagged pointers, in the order of the intervals, which are disjoint. -/
structure Slab (h : Heap) where
  entries : List Entry
  fits : 8 * entries.length ≤ 2 ^ 64
  describes : ∀ e ∈ entries, h.Describes e
  nonempty : ∀ e ∈ entries, e.lo < e.hi
  sorted : entries.Pairwise fun a b => a.lo ≤ b.lo
  disjoint : entries.Pairwise fun a b => ∀ pc, ¬ (a.Contains pc ∧ b.Contains pc)

def Slab.array {h : Heap} (s : Slab h) : List Word := s.entries.map Entry.ptr

/-- The block `b` at `a` is what `p` points to, or one of the blocks of the trace that `p` points to. -/
def Heap.BlockOf (h : Heap) (p a : Word) (b : BlockRecord) : Prop :=
  h.blocks a = some b ∧
    if isTrace p then ∃ t, h.traces (untraced p) = some t ∧ ∃ i < t.numBlocks.toNat, a = blockAt t.info i else a = p

def Slab.Block {h : Heap} (s : Slab h) (a : Word) (b : BlockRecord) : Prop := ∃ p ∈ s.array, h.BlockOf p a b

end Granary.Fragments.Search
