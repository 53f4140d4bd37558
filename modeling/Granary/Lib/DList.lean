import Mathlib.Data.List.Nodup
import Mathlib.Tactic.Common

/-!
# Doubly linked lists

The cells of a list are values of a type `α`, and each of them has a link to the next and to the previous cell. Cells are
inserted, removed and joined by changing the links of their neighbours, whatever the ends of the list are.
-/

namespace DLinked

open List Option

variable {α : Type}

@[ext] structure Links (α : Type) where
  next : α → Option α
  prev : α → Option α

/-- The cells of a list are linked to each other, its first cell back to `p` and its last cell on to `n`. -/
def Seg (l : Links α) : Option α → List α → Option α → Prop
  | _, [], _ => True
  | p, a :: xs, n => l.prev a = p ∧ l.next a = xs.head?.or n ∧ Seg l (some a) xs n

variable {l l' : Links α} {p p' n n' : Option α} {xs ys : List α} {a b : α}

@[simp] theorem seg_nil : Seg l p [] n := trivial

@[simp] theorem seg_cons : Seg l p (a :: xs) n ↔ l.prev a = p ∧ l.next a = xs.head?.or n ∧ Seg l (some a) xs n := Iff.rfl

theorem seg_append : Seg l p (xs ++ ys) n ↔ Seg l p xs (ys.head?.or n) ∧ Seg l (xs.getLast?.or p) ys n := by
  induction xs generalizing p with
  | nil => simp
  | cons a xs ih =>
    have hlast : (a :: xs).getLast?.or p = xs.getLast?.or (some a) := by
      rw [List.getLast?_cons]
      cases xs.getLast? <;> rfl
    simp only [List.cons_append, seg_cons, ih, List.head?_append, Option.or_assoc, hlast, and_assoc]

theorem Seg.congr (h : Seg l p xs n) (hl : ∀ x ∈ xs, l'.next x = l.next x ∧ l'.prev x = l.prev x) : Seg l' p xs n := by
  induction xs generalizing p with
  | nil => trivial
  | cons a xs ih =>
    obtain ⟨hp, hn, htail⟩ := h
    obtain ⟨hnext, hprev⟩ := hl a mem_cons_self
    exact ⟨hprev.trans hp, hnext.trans hn, ih htail fun x hx => hl x (mem_cons_of_mem _ hx)⟩

theorem Seg.prev_head (h : Seg l p xs n) (ha : xs.head? = some a) : l.prev a = p := by
  cases xs with
  | nil => cases ha
  | cons b xs =>
    cases ha
    exact h.1

theorem Seg.next_getLast (h : Seg l p xs n) (ha : xs.getLast? = some a) : l.next a = n := by
  obtain ⟨ys, rfl⟩ := getLast?_eq_some_iff.mp ha
  exact (seg_append.mp h).2.2.1

theorem Seg.neighbours (h : Seg l none (xs ++ a :: ys) none) : l.prev a = xs.getLast? ∧ l.next a = ys.head? := by
  obtain ⟨hprev, hnext, -⟩ := (seg_append.mp h).2
  exact ⟨hprev.trans (or_none), hnext.trans (or_none)⟩

theorem ne_head_of_notMem (ha : a ∉ xs) : some a ≠ xs.head? := fun he => ha (mem_of_head? he.symm)

theorem ne_getLast_of_notMem (ha : a ∉ xs) : some a ≠ xs.getLast? := fun he => ha (mem_of_getLast? he.symm)

variable [DecidableEq α]

section

variable (h : Seg l p xs n) (hnd : xs.Nodup) (hnext : ∀ x ∈ xs, l'.next x = if some x = xs.getLast? then n' else l.next x)

include h hnd hnext

theorem Seg.retarget
    (hprev : ∀ x ∈ xs, l'.prev x = if some x = xs.head? then p' else l.prev x) : Seg l' p' xs n' := by
  induction xs generalizing p p' with
  | nil => trivial
  | cons a xs ih =>
    obtain ⟨hp, hn, htail⟩ := h
    rw [nodup_cons] at hnd
    refine ⟨by rw [hprev a mem_cons_self, head?_cons, if_pos rfl], ?_, ?_⟩
    · cases xs with
      | nil => exact (hnext a mem_cons_self).trans (if_pos rfl)
      | cons b xs =>
        have hne : some a ≠ (a :: b :: xs).getLast? := by
          rw [getLast?_cons_cons]
          exact fun he => hnd.1 (mem_of_getLast? he.symm)
        rw [hnext a mem_cons_self, if_neg hne, hn]
        rfl
    · have hlast : ∀ x ∈ xs, (a :: xs).getLast? = xs.getLast? := by
        intro x hx
        cases xs with
        | nil => cases hx
        | cons b xs => rw [getLast?_cons_cons]
      refine ih htail hnd.2 (fun x hx => ?_) (fun x hx => ?_)
      · rw [hnext x (mem_cons_of_mem _ hx), hlast x hx]
      · have hxa : x ≠ a := fun he => hnd.1 (he ▸ hx)
        have hne : some x ≠ (a :: xs).head? := fun he => hxa (Option.some.inj he)
        rw [hprev x (mem_cons_of_mem _ hx), if_neg hne]
        split
        · next hhead =>
            cases xs with
            | nil => cases hx
            | cons b xs =>
              cases hhead
              exact htail.1
        · rfl

theorem Seg.setNext
    (hprev : ∀ x ∈ xs, l'.prev x = l.prev x) : Seg l' p xs n' := by
  refine h.retarget hnd hnext fun x hx => ?_
  rw [hprev x hx]
  split
  · next hhead => exact h.prev_head hhead.symm
  · rfl

end

theorem Seg.setPrev (h : Seg l p xs n) (hnd : xs.Nodup) (hnext : ∀ x ∈ xs, l'.next x = l.next x)
    (hprev : ∀ x ∈ xs, l'.prev x = if some x = xs.head? then p' else l.prev x) : Seg l' p' xs n := by
  refine h.retarget hnd (fun x hx => ?_) hprev
  rw [hnext x hx]
  split
  · next hlast => exact h.next_getLast hlast.symm
  · rfl

/-! ## Changing lists -/

def Links.insert (l : Links α) (before : Option α) (a : α) (after : Option α) : Links α where
  next := fun x => if x = a then after else if some x = before then some a else l.next x
  prev := fun x => if x = a then before else if some x = after then some a else l.prev x

def Links.remove (l : Links α) (a : α) : Links α where
  next := fun x => if x = a then none else if some x = l.prev a then l.next a else l.next x
  prev := fun x => if x = a then none else if some x = l.next a then l.prev a else l.prev x

def Links.join (l : Links α) (last first : Option α) : Links α where
  next := fun x => if some x = last then first else l.next x
  prev := fun x => if some x = first then last else l.prev x

section Apply

variable {before after last first : Option α} {x : α}

theorem insert_next :
    (l.insert before a after).next x = if x = a then after else if some x = before then some a else l.next x := rfl

theorem insert_prev :
    (l.insert before a after).prev x = if x = a then before else if some x = after then some a else l.prev x := rfl

theorem remove_next : (l.remove a).next x = if x = a then none else if some x = l.prev a then l.next a else l.next x := rfl

theorem remove_prev : (l.remove a).prev x = if x = a then none else if some x = l.next a then l.prev a else l.prev x := rfl

theorem join_next : (l.join last first).next x = if some x = last then first else l.next x := rfl

theorem join_prev : (l.join last first).prev x = if some x = first then last else l.prev x := rfl

end Apply

theorem Seg.insert (h : Seg l none (xs ++ ys) none) (hnd : (xs ++ ys).Nodup) (ha : a ∉ xs ++ ys) :
    Seg (l.insert xs.getLast? a ys.head?) none (xs ++ a :: ys) none := by
  obtain ⟨hndx, hndy, hdisj⟩ := nodup_append.mp hnd
  rw [mem_append, not_or] at ha
  obtain ⟨hsx, hsy⟩ := seg_append.mp h
  refine seg_append.mpr ⟨hsx.setNext hndx (fun x hx => ?_) fun x hx => ?_, ?_, ?_,
    hsy.setPrev hndy (fun y hy => ?_) fun y hy => ?_⟩
  · rw [insert_next, if_neg (ne_of_mem_of_not_mem hx ha.1)]
    rfl
  · have hxy : x ∉ ys := fun hy => hdisj x hx x hy rfl
    rw [insert_prev, if_neg (ne_of_mem_of_not_mem hx ha.1), if_neg (ne_head_of_notMem hxy)]
  · rw [insert_prev, if_pos rfl, or_none]
  · rw [insert_next, if_pos rfl, or_none]
  · have hyx : y ∉ xs := fun hx => hdisj y hx y hy rfl
    rw [insert_next, if_neg (ne_of_mem_of_not_mem hy ha.2), if_neg (ne_getLast_of_notMem hyx)]
  · rw [insert_prev, if_neg (ne_of_mem_of_not_mem hy ha.2)]

theorem Seg.remove (h : Seg l none (xs ++ a :: ys) none) (hnd : (xs ++ a :: ys).Nodup) :
    Seg (l.remove a) none (xs ++ ys) none := by
  obtain ⟨hprev, hnext⟩ := h.neighbours
  obtain ⟨hndx, hnday, hdisj⟩ := nodup_append.mp hnd
  obtain ⟨hay, hndy⟩ := nodup_cons.mp hnday
  have hax : a ∉ xs := fun hx => hdisj a hx a mem_cons_self rfl
  obtain ⟨hsx, -, -, hsy⟩ := seg_append.mp h
  refine seg_append.mpr ⟨hsx.setNext hndx (fun x hx => ?_) fun x hx => ?_,
    hsy.setPrev hndy (fun y hy => ?_) fun y hy => ?_⟩
  · rw [remove_next, if_neg (ne_of_mem_of_not_mem hx hax), hprev, hnext, or_none]
  · have hxy : x ∉ ys := fun hy => hdisj x hx x (mem_cons_of_mem _ hy) rfl
    rw [remove_prev, if_neg (ne_of_mem_of_not_mem hx hax), hnext, if_neg (ne_head_of_notMem hxy)]
  · have hyx : y ∉ xs := fun hx => hdisj y hx y (mem_cons_of_mem _ hy) rfl
    rw [remove_next, if_neg (ne_of_mem_of_not_mem hy hay), hprev, if_neg (ne_getLast_of_notMem hyx)]
  · rw [remove_prev, if_neg (ne_of_mem_of_not_mem hy hay), hprev, hnext, or_none]

theorem Seg.join (hsx : Seg l none xs none) (hsy : Seg l none ys none) (hnd : (xs ++ ys).Nodup) :
    Seg (l.join xs.getLast? ys.head?) none (xs ++ ys) none := by
  obtain ⟨hndx, hndy, hdisj⟩ := nodup_append.mp hnd
  refine seg_append.mpr ⟨hsx.setNext hndx (fun x hx => ?_) fun x hx => ?_,
    hsy.setPrev hndy (fun y hy => ?_) fun y hy => ?_⟩
  · rw [join_next, or_none]
  · have hxy : x ∉ ys := fun hy => hdisj x hx x hy rfl
    rw [join_prev, if_neg (ne_head_of_notMem hxy)]
  · have hyx : y ∉ xs := fun hx => hdisj y hx y hy rfl
    rw [join_next, if_neg (ne_getLast_of_notMem hyx)]
  · rw [join_prev, or_none]

end DLinked
