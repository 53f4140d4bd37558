import Granary.Lib.Outcome
import Granary.Memory.Bump
import Mathlib.Data.List.MinMax

/-!
# Slab lists

`slab_search` takes one slab out of a list and leaves the others in their order. `connect` finds the last slab.
-/

namespace Granary.Memory

open Linked Outcome

variable {slabs slabs' : SlabPtr → BumpPointerSlab} {size fuel : Nat} {head : Option SlabPtr} {l : List SlabPtr}
  {p q : SlabPtr}

def SameData (slabs slabs' : SlabPtr → BumpPointerSlab) : Prop :=
  ∀ p, (slabs' p).memory = (slabs p).memory ∧ (slabs' p).index = (slabs p).index ∧
    (slabs' p).remaining = (slabs p).remaining ∧ (slabs' p).size = (slabs p).size

theorem SameData.refl (slabs : SlabPtr → BumpPointerSlab) : SameData slabs slabs :=
  fun _ => ⟨rfl, rfl, rfl, rfl⟩

def setNext (slabs : SlabPtr → BumpPointerSlab) (p : SlabPtr) (x : Option SlabPtr) : SlabPtr → BumpPointerSlab :=
  Function.update slabs p { slabs p with next := x }

theorem nextOf_setNext (x : Option SlabPtr) : nextOf (setNext slabs p x) = Function.update (nextOf slabs) p x := by
  funext q
  by_cases hq : q = p
  · subst hq; simp [nextOf, setNext]
  · simp [nextOf, setNext, hq]

theorem sameData_setNext (x : Option SlabPtr) : SameData slabs (setNext slabs p x) := by
  intro q
  by_cases hq : q = p
  · subst hq; simp [setNext]
  · simp [setNext, hq]

theorem setNext_of_ne (x : Option SlabPtr) (hq : q ≠ p) : setNext slabs p x q = slabs q :=
  Function.update_of_ne hq _ _

/-! ## `slab_search` -/

def withLinks : SlabLink → List SlabPtr → List (SlabLink × SlabPtr)
  | _, [] => []
  | link, p :: l => (link, p) :: withLinks (.next p) l

def pick (slabs : SlabPtr → BumpPointerSlab) (size : Nat) :
    List (SlabLink × SlabPtr) → Option (SlabLink × SlabPtr) → Option (SlabLink × SlabPtr)
  | [], bigger => bigger
  | x :: xs, bigger =>
    if (slabs x.2).size = size then some x else pick slabs size xs (biggerSlab slabs size bigger x.1 x.2)

theorem slabSearchLoop_eq (size fuel : Nat) (h : Chain (nextOf slabs) head l) (link : SlabLink)
    (bigger : Option (SlabLink × SlabPtr)) :
    slabSearchLoop slabs size fuel link head bigger = none ∧ fuel ≤ l.length ∨
      slabSearchLoop slabs size fuel link head bigger = some (pick slabs size (withLinks link l) bigger) := by
  induction l generalizing fuel link head bigger with
  | nil =>
    cases chain_nil.mp h
    cases fuel with
    | zero => exact Or.inl ⟨rfl, Nat.le_refl _⟩
    | succ fuel => exact Or.inr rfl
  | cons p l ih =>
    obtain ⟨rfl, h⟩ := h
    cases fuel with
    | zero => exact Or.inl ⟨rfl, Nat.zero_le _⟩
    | succ fuel =>
      simp only [slabSearchLoop, withLinks, pick]
      by_cases hp : (slabs p).size = size
      · simp only [if_pos hp]
        exact Or.inr trivial
      · simp only [if_neg hp, List.length_cons, Nat.add_le_add_iff_right]
        exact ih fuel h _ _

theorem pick_eq_some {xs : List (SlabLink × SlabPtr)} {bigger : Option (SlabLink × SlabPtr)} {x : SlabLink × SlabPtr}
    (h : pick slabs size xs bigger = some x) : x ∈ xs ∨ bigger = some x := by
  induction xs generalizing bigger with
  | nil => exact Or.inr h
  | cons y ys ih =>
    rw [pick] at h
    split at h
    · cases h
      exact Or.inl (by simp)
    · rcases ih h with hx | hb
      · exact Or.inl (List.mem_cons_of_mem _ hx)
      · have hbigger : biggerSlab slabs size bigger y.1 y.2 = some y ∨ biggerSlab slabs size bigger y.1 y.2 = bigger := by
          unfold biggerSlab
          split_ifs
          · cases bigger with
            | none => exact Or.inl rfl
            | some b => exact ite_eq_or_eq _ _ _
          · exact Or.inr rfl
        rcases hbigger with hy | hy
        · cases hy.symm.trans hb
          exact Or.inl (by simp)
        · exact Or.inr (hy.symm.trans hb)

/-- The first slab of the requested size, or else the first one of the smallest larger size. -/
def bestFit (slabs : SlabPtr → BumpPointerSlab) (size : Nat) (l : List SlabPtr) : Option SlabPtr :=
  (l.find? fun p => (slabs p).size = size).or ((l.filter fun p => size < (slabs p).size).argmin fun p => (slabs p).size)

theorem bestFit_eq_none : bestFit slabs size l = none ↔ ∀ p ∈ l, (slabs p).size < size := by
  simp only [bestFit, Option.or_eq_none_iff, List.find?_eq_none, List.argmin_eq_none, List.filter_eq_nil_iff,
    decide_eq_true_eq, ← forall₂_and]
  exact forall₂_congr fun p _ => by omega

theorem bestFit_eq_some (h : bestFit slabs size l = some p) : p ∈ l ∧ size ≤ (slabs p).size := by
  rcases Option.or_eq_some_iff.mp h with h | ⟨-, h⟩
  · have hsize : (slabs p).size = size := by simpa using List.find?_some h
    exact ⟨List.mem_of_find?_eq_some h, hsize.ge⟩
  · obtain ⟨hmem, hsize⟩ := List.mem_filter.mp (List.argmin_mem h)
    exact ⟨hmem, Nat.le_of_lt (of_decide_eq_true hsize)⟩

theorem map_pick (slabs : SlabPtr → BumpPointerSlab) (size : Nat) (xs : List (SlabLink × SlabPtr))
    (bigger : Option (SlabLink × SlabPtr)) :
    (pick slabs size xs bigger).map Prod.snd = ((xs.map Prod.snd).find? fun p => (slabs p).size = size).or
      (((xs.map Prod.snd).filter fun p => size < (slabs p).size).foldl
        (List.argAux fun p q => (slabs p).size < (slabs q).size) (bigger.map Prod.snd)) := by
  induction xs generalizing bigger with
  | nil => rfl
  | cons x xs ih =>
    rw [pick]
    by_cases hx : (slabs x.2).size = size
    · simp [hx]
    · by_cases hlt : size < (slabs x.2).size
      · cases bigger with
        | none => simp [hx, hlt, ih, biggerSlab, List.argAux]
        | some b =>
          simp only [hx, hlt, ih, biggerSlab, List.argAux, List.map_cons, List.find?_cons, List.filter_cons, if_true,
            if_false, decide_true, decide_false, List.foldl_cons, Option.map_some]
          split_ifs <;> rfl
      · simp [hx, hlt, ih, biggerSlab]

theorem map_withLinks (link : SlabLink) : (withLinks link l).map Prod.snd = l := by
  induction l generalizing link with
  | nil => rfl
  | cons p l ih => rw [withLinks, List.map_cons, ih]

def linkAfter (link : SlabLink) (l : List SlabPtr) : SlabLink := (l.getLast?.map SlabLink.next).getD link

theorem mem_withLinks {link : SlabLink} {x : SlabLink × SlabPtr} (h : x ∈ withLinks link l) :
    ∃ l₁ l₂, l = l₁ ++ x.2 :: l₂ ∧ x.1 = linkAfter link l₁ := by
  induction l generalizing link with
  | nil => cases h
  | cons p l ih =>
    rcases List.mem_cons.mp h with rfl | h
    · exact ⟨[], l, rfl, rfl⟩
    · obtain ⟨l₁, l₂, rfl, hx⟩ := ih h
      refine ⟨p :: l₁, l₂, rfl, ?_⟩
      rw [hx]
      cases l₁ with
      | nil => rfl
      | cons q l₁ => simp [linkAfter, List.getLast?_cons]

structure Unlinked (slabs slabs' : SlabPtr → BumpPointerSlab) (head' : Option SlabPtr) (l l' : List SlabPtr)
    (p : SlabPtr) : Prop where
  perm : l.Perm (p :: l')
  chain : Chain (nextOf slabs') head' l'
  data : SameData slabs slabs'
  frame : ∀ q ∉ l, slabs' q = slabs q

/-- The search finds the best fit and takes it out of the list. -/
theorem slabSearch_eq (fuel size : Nat) (h : Chain (nextOf slabs) head l) :
    slabSearch slabs fuel head size = .error .running ∧ fuel ≤ l.length ∨
      slabSearch slabs fuel head size = .ok (none, slabs, head) ∧ bestFit slabs size l = none ∨
      ∃ p l₁ l₂ slabs' head', slabSearch slabs fuel head size = .ok (some p, slabs', head') ∧
        bestFit slabs size l = some p ∧ l = l₁ ++ p :: l₂ ∧ Unlinked slabs slabs' head' l (l₁ ++ l₂) p := by
  unfold slabSearch
  rcases slabSearchLoop_eq size fuel h .head none with ⟨hr, hlen⟩ | hr
  · rw [hr]
    exact Or.inl ⟨rfl, hlen⟩
  have hbest := map_pick slabs size (withLinks .head l) none
  rw [map_withLinks] at hbest
  rw [hr]
  cases hp : pick slabs size (withLinks .head l) none with
  | none => exact Or.inr (Or.inl ⟨rfl, by rw [bestFit, List.argmin, ← Option.map_none, ← hbest, hp]⟩)
  | some x =>
    obtain ⟨link, p⟩ := x
    obtain ⟨l₁, l₂, hl, hlink⟩ := mem_withLinks ((pick_eq_some hp).resolve_right (by simp))
    have hbest : bestFit slabs size l = some p := by rw [bestFit, List.argmin, ← Option.map_none, ← hbest, hp]; rfl
    simp only at hl hlink
    refine Or.inr (Or.inr ⟨p, l₁, l₂, ?_⟩)
    subst hl
    have hperm : (l₁ ++ p :: l₂).Perm (p :: (l₁ ++ l₂)) := List.perm_middle
    rcases List.eq_nil_or_concat l₁ with rfl | ⟨l₀, q, rfl⟩
    · cases hlink
      exact ⟨_, _, rfl, hbest, rfl, hperm, h.2, SameData.refl _, fun _ _ => rfl⟩
    · have hlink : link = .next q := by rw [hlink]; simp [linkAfter]
      subst hlink
      refine ⟨_, _, rfl, hbest, rfl, hperm, ?_, sameData_setNext _, fun r hr => setNext_of_ne _ ?_⟩
      · rw [List.concat_eq_append, List.append_assoc, List.singleton_append] at h ⊢
        have := h.unlink
        rw [← nextOf_setNext] at this
        exact this
      · rintro rfl
        exact hr (by simp)

theorem slabSearch_spec (h : Chain (nextOf slabs) head l) :
    Ends (fun e => e = .running ∧ fuel ≤ l.length) (fun r => match r with
      | (none, slabs', head') => slabs' = slabs ∧ head' = head
      | (some p, slabs', head') => size ≤ (slabs p).size ∧ ∃ l', Unlinked slabs slabs' head' l l' p)
      (slabSearch slabs fuel head size) := by
  rcases slabSearch_eq fuel size h with ⟨hr, hlen⟩ | ⟨hr, -⟩ |
    ⟨p, l₁, l₂, slabs', head', hr, hbest, -, hunlinked⟩
  · rw [hr]
    exact ⟨rfl, hlen⟩
  · rw [hr]
    exact ⟨rfl, rfl⟩
  · rw [hr]
    exact ⟨(bestFit_eq_some hbest).2, _, hunlinked⟩

/-! ## `connect` -/

theorem connect_spec (h : Chain (nextOf slabs) (some p) l) :
    Ends (fun e => e = .running ∧ fuel ≤ l.length) (fun q => l.getLast? = some q) (connect slabs fuel p) := by
  induction l generalizing fuel p with
  | nil => cases chain_nil.mp h
  | cons a l ih =>
    obtain ⟨ha, h⟩ := h
    cases ha
    cases fuel with
    | zero => exact ⟨rfl, Nat.zero_le _⟩
    | succ fuel =>
      simp only [connect]
      cases hn : (slabs a).next with
      | none =>
        rw [nextOf, hn] at h
        cases h.det (chain_nil.mpr rfl)
        rfl
      | some q =>
        rw [nextOf, hn] at h
        refine (ih h).mono ?_ ?_
        · intro r hr
          rw [List.getLast?_cons, hr]
          rfl
        · rintro e ⟨rfl, hle⟩
          exact ⟨rfl, by simpa using hle⟩

end Granary.Memory
