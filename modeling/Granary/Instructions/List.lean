import Granary.Lib.DList

/-!
# Instruction lists

`instruction_list` of `granary/instruction.cc`. Instructions are cells of a heap that all lists share, and a list knows its
first and its last instruction and its length. Pointers to instructions that are not null are valid.
-/

namespace Granary.Instructions

open Function (update)

open DLinked

variable {ι α : Type} [DecidableEq ι] [DecidableEq α]

structure InstructionList (α : Type) where
  first : Option α
  last : Option α
  length : Nat
deriving DecidableEq

structure ListHeap (ι α : Type) where
  links : Links α
  lists : ι → InstructionList α

inductive ListAssert where
  /-- `!item->prev` and `!item->next` -/
  | linked
  /-- `0 < length_` -/
  | empty
  /-- `check_list_consistency` -/
  | inconsistent
  /-- a loop goes on for too long, which is no assertion of the code -/
  | running
deriving DecidableEq, Repr

def listCheck (site : ListAssert) (p : Prop) [Decidable p] : Except ListAssert Unit :=
  if p then return () else throw site

namespace ListHeap

def init : ListHeap ι α where
  links := { next := fun _ => none, prev := fun _ => none }
  lists := fun _ => { first := none, last := none, length := 0 }

section Fields

variable (h : ListHeap ι α)

def setNext (item x : Option α) : ListHeap ι α :=
  match item with
  | some a => { h with links := { h.links with next := update h.links.next a x } }
  | none => h

def setPrev (item x : Option α) : ListHeap ι α :=
  match item with
  | some a => { h with links := { h.links with prev := update h.links.prev a x } }
  | none => h

def setList (i : ι) (l : InstructionList α) : ListHeap ι α := { h with lists := update h.lists i l }

end Fields

def Consistent (h : ListHeap ι α) (l : InstructionList α) : Prop :=
  0 < l.length → l.first.isSome ∧ l.last.isSome ∧
    (1 < l.length → (l.first.bind h.links.next).isSome ∧ (l.last.bind h.links.prev).isSome)

instance (h : ListHeap ι α) (l : InstructionList α) : Decidable (h.Consistent l) :=
  inferInstanceAs (Decidable (_ → _))

def checkUnlinked (h : ListHeap ι α) (item : α) : Except ListAssert Unit :=
  listCheck .linked (h.links.prev item = none ∧ h.links.next item = none)

def checkConsistency (h : ListHeap ι α) (i : ι) : Except ListAssert Unit :=
  listCheck .inconsistent (h.Consistent (h.lists i))

def extend (i j : ι) (h : ListHeap ι α) : ListHeap ι α :=
  let this := h.lists i
  let that := h.lists j
  if that.length = 0 then h
  else
    let length := this.length + that.length
    let h :=
      match this.last with
      | none => h.setList i { first := that.first, last := that.last, length }
      | some _ =>
        ((h.setPrev that.first this.last).setNext this.last that.first).setList i { this with last := that.last, length }
    h.setList j { first := none, last := none, length := 0 }

def append (i : ι) (item : α) (h : ListHeap ι α) : Except ListAssert (ListHeap ι α) := do
  let l := h.lists i
  let beforeItem := l.last
  h.checkUnlinked item
  h.checkConsistency i
  let h := ((h.setPrev (some item) beforeItem).setNext (some item) none).setNext beforeItem (some item)
  let length := l.length + 1
  let h := h.setList i { first := if length = 1 then some item else l.first, last := some item, length }
  h.checkConsistency i
  return h

def prepend (i : ι) (item : α) (h : ListHeap ι α) : Except ListAssert (ListHeap ι α) := do
  let l := h.lists i
  let afterItem := l.first
  h.checkUnlinked item
  h.checkConsistency i
  let h := ((h.setNext (some item) afterItem).setPrev (some item) none).setPrev afterItem (some item)
  let length := l.length + 1
  let h := h.setList i { first := some item, last := if length = 1 then some item else l.last, length }
  h.checkConsistency i
  return h

def chain (i : ι) (beforeItem item afterItem : α) (h : ListHeap ι α) : Except ListAssert (ListHeap ι α) := do
  let l := h.lists i
  let h := h.setList i { l with length := l.length + 1 }
  let h := (h.setPrev (some item) (some beforeItem)).setNext (some beforeItem) (some item)
  let h := (h.setNext (some item) (some afterItem)).setPrev (some afterItem) (some item)
  h.checkConsistency i
  return h

def insertBefore (i : ι) (afterItem : Option α) (item : α) (h : ListHeap ι α) : Except ListAssert (ListHeap ι α) :=
  match afterItem with
  | none => h.prepend i item
  | some after =>
    if (h.lists i).length ≤ 1 then h.prepend i item
    else do
      h.checkUnlinked item
      match h.links.prev after with
      | none => h.prepend i item
      | some before => h.chain i before item after

def insertAfter (i : ι) (beforeItem : Option α) (item : α) (h : ListHeap ι α) : Except ListAssert (ListHeap ι α) :=
  match beforeItem with
  | none => h.append i item
  | some before =>
    if (h.lists i).length ≤ 1 then h.append i item
    else do
      h.checkUnlinked item
      match h.links.next before with
      | none => h.append i item
      | some after => h.chain i before item after

def remove (i : ι) (toRemove : Option α) (h : ListHeap ι α) : Except ListAssert (ListHeap ι α) :=
  match toRemove with
  | none => return h
  | some instr => do
      listCheck .empty (0 < (h.lists i).length)
      h.checkConsistency i
      let prev := h.links.prev instr
      let next := h.links.next instr
      let l := h.lists i
      let l := if prev.isSome then l else { l with first := next }
      let l := if next.isSome then l else { l with last := prev }
      let h := (h.setNext prev next).setPrev next prev
      let h := (h.setPrev (some instr) none).setNext (some instr) none
      let h := h.setList i { l with length := l.length - 1 }
      h.checkConsistency i
      return h

def removeTail (fuel : Nat) (i : ι) (item : Option α) (h : ListHeap ι α) : Except ListAssert (ListHeap ι α) :=
  match fuel, item with
  | _, none => return h
  | 0, some _ => throw .running
  | fuel + 1, some item => do
      let next := h.links.next item
      let h ← h.remove i (some item)
      removeTail fuel i next h

def removeTailAt (i : ι) (item : Option α) (h : ListHeap ι α) : Except ListAssert (ListHeap ι α) :=
  h.removeTail (h.lists i).length i item

end ListHeap

/-! ## Operations -/

inductive ListOp (ι α : Type) where
  | append (i : ι) (item : α)
  | prepend (i : ι) (item : α)
  | insertBefore (i : ι) (afterItem : Option α) (item : α)
  | insertAfter (i : ι) (beforeItem : Option α) (item : α)
  | remove (i : ι) (item : Option α)
  | removeTailAt (i : ι) (item : Option α)
  | extend (i j : ι)

namespace ListOp

def exec (h : ListHeap ι α) : ListOp ι α → Except ListAssert (ListHeap ι α)
  | append i item => h.append i item
  | prepend i item => h.prepend i item
  | insertBefore i afterItem item => h.insertBefore i afterItem item
  | insertAfter i beforeItem item => h.insertAfter i beforeItem item
  | remove i item => h.remove i item
  | removeTailAt i item => h.removeTailAt i item
  | extend i j => return h.extend i j

def apply (A : ι → List α) : ListOp ι α → ι → List α
  | append i item => update A i (A i ++ [item])
  | prepend i item => update A i (item :: A i)
  | insertBefore i none item => update A i (item :: A i)
  | insertBefore i (some after) item =>
    update A i ((A i).takeWhile (· ≠ after) ++ item :: (A i).dropWhile (· ≠ after))
  | insertAfter i none item => update A i (A i ++ [item])
  | insertAfter i (some before) item =>
    update A i ((A i).takeWhile (· ≠ before) ++ before :: item :: ((A i).dropWhile (· ≠ before)).tail)
  | remove _ none => A
  | remove i (some item) => update A i ((A i).erase item)
  | removeTailAt _ none => A
  | removeTailAt i (some item) => update A i ((A i).takeWhile (· ≠ item))
  | extend i j => update (update A i (A i ++ A j)) j []

/-- A list that extends itself is left empty, and its instructions stay linked to each other. -/
def lost (A : ι → List α) : ListOp ι α → List α
  | extend i j => if i = j then A i else []
  | _ => []

def Allowed (A : ι → List α) (lost : List α) : ListOp ι α → Prop
  | append _ item | prepend _ item => item ∉ lost ∧ ∀ k, item ∉ A k
  | insertBefore i x item | insertAfter i x item => (item ∉ lost ∧ ∀ k, item ∉ A k) ∧ ∀ a ∈ x, a ∈ A i
  | remove i x | removeTailAt i x => ∀ a ∈ x, a ∈ A i
  | extend _ _ => True

end ListOp

def runOps (ops : List (ListOp ι α)) (h : ListHeap ι α) : Except ListAssert (ListHeap ι α) :=
  ops.foldlM (fun h op => op.exec h) h

def applyOps (ops : List (ListOp ι α)) (A : ι → List α) : ι → List α := ops.foldl (fun A op => op.apply A) A

def AllowedOps : List (ListOp ι α) → (ι → List α) → List α → Prop
  | [], _, _ => True
  | op :: ops, A, lost => op.Allowed A lost ∧ AllowedOps ops (op.apply A) (op.lost A ++ lost)

/-- Links match, ends are null, first and last instructions and lengths agree, and no instruction is in two places. -/
structure Holds (h : ListHeap ι α) (A : ι → List α) : Prop where
  header : ∀ i, h.lists i = { first := (A i).head?, last := (A i).getLast?, length := (A i).length }
  seg : ∀ i, Seg h.links none (A i) none
  nodup : ∀ i, (A i).Nodup
  disjoint : ∀ i j, i ≠ j → ∀ a ∈ A i, a ∉ A j

structure Sound (h : ListHeap ι α) (A : ι → List α) (lost : List α) : Prop extends Holds h A where
  free : ∀ a ∉ lost, (∀ i, a ∉ A i) → h.links.next a = none ∧ h.links.prev a = none

end Granary.Instructions
