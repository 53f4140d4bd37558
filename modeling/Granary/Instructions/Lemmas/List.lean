import Granary.Instructions.List

/-!
# Instruction lists, one operation at a time

Every operation changes one list at one place, apart from `extend`, which moves all instructions of a list to another one.
-/

namespace Granary.Instructions

open Function (update_comm update_eq_self update_idem update_of_ne update_self)
open Function (update_apply update)
open List (append_nil length_append mem_append mem_cons nil_append)

open DLinked List Option

variable {ι α : Type}

def headerOf (xs : List α) : InstructionList α := { first := xs.head?, last := xs.getLast?, length := xs.length }

theorem listCheck_bind {β : Type} {site : ListAssert} {p : Prop} [Decidable p] (hp : p)
    (k : Unit → Except ListAssert β) : listCheck site p >>= k = k () := by
  rw [listCheck, if_pos hp]
  rfl

namespace ListHeap

section Links

variable [DecidableEq α] (h : ListHeap ι α) (o v : Option α) (x : α)

@[simp] theorem setNext_next : (h.setNext o v).links.next x = if some x = o then v else h.links.next x := by
  cases o <;> simp [setNext, update_apply]

@[simp] theorem setNext_prev : (h.setNext o v).links.prev = h.links.prev := by cases o <;> rfl

@[simp] theorem setNext_lists : (h.setNext o v).lists = h.lists := by cases o <;> rfl

@[simp] theorem setPrev_prev : (h.setPrev o v).links.prev x = if some x = o then v else h.links.prev x := by
  cases o <;> simp [setPrev, update_apply]

@[simp] theorem setPrev_next : (h.setPrev o v).links.next = h.links.next := by cases o <;> rfl

@[simp] theorem setPrev_lists : (h.setPrev o v).lists = h.lists := by cases o <;> rfl

variable {item : α} {before after : Option α}

theorem links_append (hne : some item ≠ before) :
    (((h.setPrev (some item) before).setNext (some item) none).setNext before (some item)).links =
      h.links.insert before item none := by
  ext x : 2
  · rw [setNext_next, setNext_next, setPrev_next, insert_next]
    grind
  · rw [setNext_prev, setNext_prev, setPrev_prev, insert_prev]
    grind

theorem links_prepend (hne : some item ≠ after) :
    (((h.setNext (some item) after).setPrev (some item) none).setPrev after (some item)).links =
      h.links.insert none item after := by
  ext x : 2
  · rw [setPrev_next, setPrev_next, setNext_next, insert_next]
    grind
  · rw [setPrev_prev, setPrev_prev, setNext_prev, insert_prev]
    grind

theorem links_chain (hne : some item ≠ after) :
    ((((h.setPrev (some item) before).setNext before (some item)).setNext (some item) after).setPrev after
      (some item)).links = h.links.insert before item after := by
  ext x : 2
  · rw [setPrev_next, setNext_next, setNext_next, setPrev_next, insert_next]
    grind
  · rw [setPrev_prev, setNext_prev, setNext_prev, setPrev_prev, insert_prev]
    grind

theorem links_remove :
    ((((h.setNext (h.links.prev item) (h.links.next item)).setPrev (h.links.next item) (h.links.prev item)).setPrev
      (some item) none).setNext (some item) none).links = h.links.remove item := by
  ext x : 2
  · rw [setNext_next, setPrev_next, setPrev_next, setNext_next, remove_next]
    grind
  · rw [setNext_prev, setPrev_prev, setPrev_prev, setNext_prev, remove_prev]
    grind

end Links

section Lists

variable [DecidableEq ι] (h : ListHeap ι α) (i : ι) (l : InstructionList α)

@[simp] theorem setList_links : (h.setList i l).links = h.links := rfl

@[simp] theorem setList_lists : (h.setList i l).lists = update h.lists i l := rfl

end Lists

end ListHeap

/-! ## Lists that hold sequences -/

section Sound

variable {h h' : ListHeap ι α} {A : ι → List α} {lost lost' xs ys zs : List α} {i j : ι} {item : α}

theorem Sound.init : Sound (ListHeap.init : ListHeap ι α) (fun _ => []) [] where
  header _ := rfl
  seg _ := seg_nil
  nodup _ := nodup_nil
  disjoint _ _ _ _ ha := absurd ha not_mem_nil
  free _ _ _ := ⟨rfl, rfl⟩

theorem Holds.lists_eq (hh : Holds h A) (i : ι) : h.lists i = headerOf (A i) := hh.header i

theorem Holds.consistent (hh : Holds h A) (i : ι) : h.Consistent (h.lists i) := by
  have hseg := hh.seg i
  rw [hh.header i]
  intro hpos
  obtain ⟨a, xs, hA⟩ := exists_cons_of_length_pos hpos
  refine ⟨by simp [hA], by simp [hA], fun htwo => ?_⟩
  obtain ⟨ys, b, hlast⟩ := (A i).eq_nil_or_concat'.resolve_left (ne_nil_of_length_pos hpos)
  constructor
  · rw [hA] at hseg htwo
    rw [hA, head?_cons, bind_some, hseg.2.1, or_none, isSome_head?]
    exact ne_nil_of_length_pos (Nat.lt_of_succ_lt_succ htwo)
  · rw [hlast] at hseg htwo
    rw [hlast, getLast?_concat, bind_some, (Seg.neighbours hseg).1, isSome_iff_ne_none,
      Ne, getLast?_eq_none_iff]
    rw [length_append] at htwo
    exact ne_nil_of_length_pos (Nat.lt_of_succ_lt_succ htwo)

theorem Sound.split {a : α} (hs : Sound h A lost) (ha : a ∈ A i) : ∃ xs ys, A i = xs ++ a :: ys ∧ a ∉ xs := by
  obtain ⟨xs, ys, hA⟩ := append_of_mem ha
  have hnd := hs.nodup i
  rw [hA] at hnd
  exact ⟨xs, ys, hA, fun hax => (nodup_append.mp hnd).2.2 a hax a mem_cons_self rfl⟩

theorem Sound.found (hs : Sound h A lost') (hfound : ∀ a ∈ lost', a ∈ lost ∨ ∃ i, a ∈ A i) : Sound h A lost := by
  refine ⟨hs.toHolds, fun a ha hno => hs.free a (fun hl => ?_) hno⟩
  rcases hfound a hl with hl | ⟨i, hi⟩
  · exact ha hl
  · exact hno i hi

/-! ## The fields of a list -/

theorem headerOf_append_singleton (a : α) :
    headerOf (xs ++ [a]) = { first := if xs.length + 1 = 1 then some a else xs.head?, last := some a,
                             length := xs.length + 1 } := by
  rw [headerOf, getLast?_concat, length_append, length_singleton]
  cases xs <;> rfl

theorem headerOf_cons (a : α) :
    headerOf (a :: xs) = { first := some a, last := if xs.length + 1 = 1 then some a else xs.getLast?,
                           length := xs.length + 1 } := by
  cases xs <;> simp [headerOf]

theorem getLast?_append_cons (a : α) : (xs ++ a :: ys).getLast? = (a :: ys).getLast? := by
  rw [getLast?_append, getLast?_cons]
  rfl

theorem headerOf_middle {xs ys : List α} (hx : xs ≠ []) (hy : ys ≠ []) (a : α) :
    headerOf (xs ++ a :: ys) = { headerOf (xs ++ ys) with length := (headerOf (xs ++ ys)).length + 1 } := by
  obtain ⟨x, xs, rfl⟩ := List.exists_cons_of_ne_nil hx
  obtain ⟨y, ys, rfl⟩ := List.exists_cons_of_ne_nil hy
  rw [headerOf, headerOf, getLast?_append_cons, getLast?_append_cons, List.getLast?_cons_cons]
  simp [Nat.add_assoc]

theorem headerOf_erase (a : α) :
    headerOf (xs ++ ys) =
      let l := headerOf (xs ++ a :: ys)
      let l := if xs.getLast?.isSome then l else { l with first := ys.head? }
      let l := if ys.head?.isSome then l else { l with last := xs.getLast? }
      { l with length := l.length - 1 } := by
  cases ys with
  | nil => cases xs <;> simp [headerOf]
  | cons y ys =>
    rw [headerOf, headerOf, getLast?_append_cons, getLast?_append_cons, List.getLast?_cons_cons]
    cases xs <;> simp [Nat.add_assoc]

variable [DecidableEq ι] [DecidableEq α]

/-! ## Changes at one place -/

theorem Sound.replace (hs : Sound h A lost) (hlost : lost ⊆ lost') (hlists : h'.lists = update h.lists i (headerOf zs))
    (hseg : Seg h'.links none zs none) (hnodup : zs.Nodup) (hnew : ∀ a ∈ zs, a ∉ A i → ∀ k, a ∉ A k)
    (hother : ∀ a ∉ A i, a ∉ zs → h'.links.next a = h.links.next a ∧ h'.links.prev a = h.links.prev a)
    (hgone : ∀ a ∈ A i, a ∉ zs → a ∉ lost' → h'.links.next a = none ∧ h'.links.prev a = none) :
    Sound h' (update A i zs) lost' := by
  have hne : ∀ k, k ≠ i → ∀ a ∈ A k, a ∉ A i ∧ a ∉ zs := by
    intro k hk a ha
    have hai : a ∉ A i := hs.disjoint k i hk a ha
    exact ⟨hai, fun haz => hnew a haz hai k ha⟩
  refine ⟨⟨fun k => ?_, fun k => ?_, fun k => ?_, fun k l hkl a ha => ?_⟩, fun a hal ha => ?_⟩
  · rw [hlists]
    by_cases hk : k = i
    · subst hk
      rw [update_self, update_self]
      rfl
    · rw [update_of_ne hk, update_of_ne hk, hs.header k]
  · by_cases hk : k = i
    · subst hk
      rwa [update_self]
    · rw [update_of_ne hk]
      exact (hs.seg k).congr fun a ha => hother a (hne k hk a ha).1 (hne k hk a ha).2
  · by_cases hk : k = i
    · subst hk
      rwa [update_self]
    · rw [update_of_ne hk]
      exact hs.nodup k
  · by_cases hk : k = i
    · subst hk
      rw [update_self] at ha
      rw [update_of_ne (Ne.symm hkl)]
      exact fun hl => (hne l (Ne.symm hkl) a hl).2 ha
    · rw [update_of_ne hk] at ha
      by_cases hl : l = i
      · subst hl
        rw [update_self]
        exact (hne k hk a ha).2
      · rw [update_of_ne hl]
        exact hs.disjoint k l hkl a ha
  · have haz : a ∉ zs := by
      have := ha i
      rwa [update_self] at this
    by_cases hai : a ∈ A i
    · exact hgone a hai haz hal
    · obtain ⟨hnext, hprev⟩ := hother a hai haz
      rw [hnext, hprev]
      refine hs.free a (fun hl => hal (hlost hl)) fun k => ?_
      by_cases hk : k = i
      · subst hk
        exact hai
      · have := ha k
        rwa [update_of_ne hk] at this

theorem Sound.insert (hs : Sound h A lost) (hA : A i = xs ++ ys) (hitem : ∀ k, item ∉ A k)
    (hlinks : h'.links = h.links.insert xs.getLast? item ys.head?)
    (hlists : h'.lists = update h.lists i (headerOf (xs ++ item :: ys))) :
    Sound h' (update A i (xs ++ item :: ys)) lost := by
  have hseg := hs.seg i
  have hnd := hs.nodup i
  have hi := hitem i
  rw [hA] at hseg hnd hi
  refine hs.replace (List.Subset.refl _) hlists (hlinks ▸ hseg.insert hnd hi) ?_ ?_ ?_ ?_
  · exact nodup_middle.mpr (nodup_cons.mpr ⟨hi, hnd⟩)
  · intro a ha hai
    rw [hA] at hai
    rw [mem_append, mem_cons] at ha
    have hitemA : a = item := by
      rw [mem_append] at hai
      tauto
    exact hitemA ▸ hitem
  · intro a _ ha
    rw [mem_append, mem_cons, not_or, not_or] at ha
    obtain ⟨hax, hne, hay⟩ := ha
    rw [hlinks, insert_next, insert_prev, if_neg hne, if_neg hne, if_neg (ne_getLast_of_notMem hax),
      if_neg (ne_head_of_notMem hay)]
    exact ⟨rfl, rfl⟩
  · intro a hai ha
    rw [hA, mem_append] at hai
    rw [mem_append, mem_cons] at ha
    tauto

theorem Sound.erase (hs : Sound h A lost) (hA : A i = xs ++ item :: ys) (hlinks : h'.links = h.links.remove item)
    (hlists : h'.lists = update h.lists i (headerOf (xs ++ ys))) :
    Sound h' (update A i (xs ++ ys)) lost := by
  have hseg := hs.seg i
  have hnd := hs.nodup i
  rw [hA] at hseg hnd
  obtain ⟨hprev, hnext⟩ := hseg.neighbours
  refine hs.replace (List.Subset.refl _) hlists (hlinks ▸ hseg.remove hnd) (nodup_middle.mp hnd).of_cons ?_ ?_ ?_
  · intro a ha hai
    rw [hA] at hai
    rw [mem_append] at ha
    rw [mem_append, mem_cons] at hai
    tauto
  · intro a hai ha
    rw [hA, mem_append, mem_cons, not_or, not_or] at hai
    obtain ⟨hax, hne, hay⟩ := hai
    rw [hlinks, remove_next, remove_prev, if_neg hne, if_neg hne, hprev, hnext, if_neg (ne_getLast_of_notMem hax),
      if_neg (ne_head_of_notMem hay)]
    exact ⟨rfl, rfl⟩
  · intro a hai ha _
    rw [hA, mem_append, mem_cons] at hai
    rw [mem_append] at ha
    have hitem : a = item := by tauto
    rw [hlinks, remove_next, remove_prev, if_pos hitem, if_pos hitem]
    exact ⟨rfl, rfl⟩

/-! ## Operations -/

theorem Sound.append (hs : Sound h A lost) (hitem : item ∉ lost ∧ ∀ k, item ∉ A k) :
    ∃ h', h.append i item = .ok h' ∧ Sound h' (update A i (A i ++ [item])) lost := by
  obtain ⟨hnext, hprev⟩ := hs.free item hitem.1 hitem.2
  have hs' : Sound ((((h.setPrev (some item) (h.lists i).last).setNext (some item) none).setNext
      (h.lists i).last (some item)).setList i
        { first := if (h.lists i).length + 1 = 1 then some item else (h.lists i).first,
          last := some item, length := (h.lists i).length + 1 }) (update A i (A i ++ [item])) lost := by
    rw [hs.lists_eq i]
    refine hs.insert (append_nil _).symm hitem.2 (h.links_append (ne_getLast_of_notMem (hitem.2 i))) ?_
    rw [headerOf_append_singleton]
    simp [headerOf]
  exact ⟨_, (listCheck_bind ⟨hprev, hnext⟩ _).trans ((listCheck_bind (hs.consistent i) _).trans
    (listCheck_bind (hs'.consistent i) _)), hs'⟩

theorem Sound.prepend (hs : Sound h A lost) (hitem : item ∉ lost ∧ ∀ k, item ∉ A k) :
    ∃ h', h.prepend i item = .ok h' ∧ Sound h' (update A i (item :: A i)) lost := by
  obtain ⟨hnext, hprev⟩ := hs.free item hitem.1 hitem.2
  have hs' : Sound ((((h.setNext (some item) (h.lists i).first).setPrev (some item) none).setPrev
      (h.lists i).first (some item)).setList i
        { first := some item, last := if (h.lists i).length + 1 = 1 then some item else (h.lists i).last,
          length := (h.lists i).length + 1 }) (update A i (item :: A i)) lost := by
    rw [hs.lists_eq i]
    refine hs.insert (nil_append _).symm hitem.2 (h.links_prepend (ne_head_of_notMem (hitem.2 i))) ?_
    rw [nil_append, headerOf_cons]
    simp [headerOf]
  exact ⟨_, (listCheck_bind ⟨hprev, hnext⟩ _).trans ((listCheck_bind (hs.consistent i) _).trans
    (listCheck_bind (hs'.consistent i) _)), hs'⟩

theorem Sound.chain {before after : α} (hs : Sound h A lost) (hitem : ∀ k, item ∉ A k) (hA : A i = xs ++ ys)
    (hbefore : xs.getLast? = some before) (hafter : ys.head? = some after) :
    ∃ h', h.chain i before item after = .ok h' ∧ Sound h' (update A i (xs ++ item :: ys)) lost := by
  have hi := hitem i
  rw [hA, mem_append, not_or] at hi
  have hs' : Sound (((((h.setList i { h.lists i with length := (h.lists i).length + 1 }).setPrev (some item)
      (some before)).setNext (some before) (some item)).setNext (some item) (some after)).setPrev (some after)
        (some item)) (update A i (xs ++ item :: ys)) lost := by
    rw [← hbefore, ← hafter]
    refine hs.insert hA hitem (ListHeap.links_chain _ (ne_head_of_notMem hi.2)) ?_
    have hx : xs ≠ [] := fun he => by simp [he] at hbefore
    have hy : ys ≠ [] := fun he => by simp [he] at hafter
    rw [headerOf_middle hx hy, ← hA, ← hs.lists_eq i]
    simp
  exact ⟨_, listCheck_bind (hs'.consistent i) _, hs'⟩

theorem takeWhile_ne_append {xs ys : List α} {a : α} (ha : a ∉ xs) : (xs ++ a :: ys).takeWhile (· ≠ a) = xs := by
  rw [takeWhile_append_of_pos, takeWhile_cons_of_neg, append_nil]
  · simp
  · intro x hx
    simpa using ne_of_mem_of_not_mem hx ha

theorem dropWhile_ne_append {xs ys : List α} {a : α} (ha : a ∉ xs) : (xs ++ a :: ys).dropWhile (· ≠ a) = a :: ys := by
  rw [dropWhile_append_of_pos, dropWhile_cons_of_neg]
  · simp
  · intro x hx
    simpa using ne_of_mem_of_not_mem hx ha

section

variable (hs : Sound h A lost)

include hs

theorem Sound.insertBefore {after : Option α} (hitem : item ∉ lost ∧ ∀ k, item ∉ A k)
    (hafter : ∀ a ∈ after, a ∈ A i) :
    ∃ h', h.insertBefore i after item = .ok h' ∧ Sound h' ((ListOp.insertBefore i after item).apply A) lost := by
  cases after with
  | none => exact hs.prepend hitem
  | some after =>
    obtain ⟨xs, ys, hA, hax⟩ := hs.split (hafter after rfl)
    obtain ⟨hnext, hprev⟩ := hs.free item hitem.1 hitem.2
    have hseg := hs.seg i
    rw [hA] at hseg
    rw [ListOp.apply, ListHeap.insertBefore, hs.lists_eq i, hA, takeWhile_ne_append hax, dropWhile_ne_append hax]
    have hfirst (hx : xs = []) :
        ∃ h', h.prepend i item = .ok h' ∧ Sound h' (update A i (xs ++ item :: after :: ys)) lost := by
      rw [hx, nil_append] at hA
      rw [hx, nil_append, ← hA]
      exact hs.prepend hitem
    split
    · next hone =>
        simp only [headerOf, length_append, length_cons] at hone
        exact hfirst (eq_nil_of_length_eq_zero (by omega))
    · rw [ListHeap.checkUnlinked, listCheck_bind ⟨hprev, hnext⟩, hseg.neighbours.1]
      cases hbefore : xs.getLast? with
      | none => exact hfirst (getLast?_eq_none_iff.mp hbefore)
      | some before => exact hs.chain hitem.2 hA hbefore rfl

theorem Sound.insertAfter {before : Option α} (hitem : item ∉ lost ∧ ∀ k, item ∉ A k)
    (hbefore : ∀ a ∈ before, a ∈ A i) :
    ∃ h', h.insertAfter i before item = .ok h' ∧ Sound h' ((ListOp.insertAfter i before item).apply A) lost := by
  cases before with
  | none => exact hs.append hitem
  | some before =>
    obtain ⟨xs, ys, hA, hbx⟩ := hs.split (hbefore before rfl)
    obtain ⟨hnext, hprev⟩ := hs.free item hitem.1 hitem.2
    have hseg := hs.seg i
    rw [hA] at hseg
    rw [ListOp.apply, ListHeap.insertAfter, hs.lists_eq i, hA, takeWhile_ne_append hbx, dropWhile_ne_append hbx,
      tail_cons, append_cons xs before (item :: ys)]
    have hlast (hy : ys = []) :
        ∃ h', h.append i item = .ok h' ∧ Sound h' (update A i (xs ++ [before] ++ item :: ys)) lost := by
      rw [hy] at hA
      rw [hy, ← hA]
      exact hs.append hitem
    split
    · next hone =>
        simp only [headerOf, length_append, length_cons] at hone
        exact hlast (eq_nil_of_length_eq_zero (by omega))
    · rw [ListHeap.checkUnlinked, listCheck_bind ⟨hprev, hnext⟩, hseg.neighbours.2]
      cases hafter : ys.head? with
      | none => exact hlast (head?_eq_none_iff.mp hafter)
      | some after =>
        exact hs.chain hitem.2 (hA.trans (append_cons xs before ys)) (getLast?_concat) hafter

theorem Sound.remove (hA : A i = xs ++ item :: ys) :
    ∃ h', h.remove i (some item) = .ok h' ∧ Sound h' (update A i (xs ++ ys)) lost := by
  have hseg := hs.seg i
  rw [hA] at hseg
  obtain ⟨hprev, hnext⟩ := hseg.neighbours
  have hpos : 0 < (h.lists i).length := by
    rw [hs.lists_eq i, hA]
    exact length_pos_of_mem (mem_append_right xs mem_cons_self)
  have hs' : Sound (((((h.setNext (h.links.prev item) (h.links.next item)).setPrev (h.links.next item)
      (h.links.prev item)).setPrev (some item) none).setNext (some item) none).setList i
        (let l := h.lists i
         let l := if (h.links.prev item).isSome then l else { l with first := h.links.next item }
         let l := if (h.links.next item).isSome then l else { l with last := h.links.prev item }
         { l with length := l.length - 1 })) (update A i (xs ++ ys)) lost := by
    refine hs.erase hA h.links_remove ?_
    rw [headerOf_erase item, hprev, hnext, hs.lists_eq i, hA]
    simp
  exact ⟨_, (listCheck_bind hpos _).trans ((listCheck_bind (hs.consistent i) _).trans
    (listCheck_bind (hs'.consistent i) _)), hs'⟩

theorem Sound.removeTail (hA : A i = xs ++ ys) {fuel : Nat} (hfuel : ys.length ≤ fuel) :
    ∃ h', h.removeTail fuel i ys.head? = .ok h' ∧ Sound h' (update A i xs) lost := by
  induction ys generalizing h A fuel with
  | nil =>
    rw [append_nil] at hA
    refine ⟨h, by cases fuel <;> rfl, ?_⟩
    rwa [← hA, update_eq_self]
  | cons a ys ih =>
    have hseg := hs.seg i
    rw [hA] at hseg
    obtain ⟨fuel, rfl⟩ := Nat.exists_eq_add_one_of_ne_zero (Nat.ne_zero_of_lt hfuel)
    obtain ⟨h₁, hremove, hs₁⟩ := hs.remove hA
    obtain ⟨h₂, hrest, hs₂⟩ := ih hs₁ (update_self ..) (Nat.le_of_succ_le_succ hfuel)
    rw [update_idem] at hs₂
    refine ⟨h₂, ?_, hs₂⟩
    rw [head?_cons, ListHeap.removeTail, hremove, hseg.neighbours.2]
    exact hrest

theorem Sound.removeTailAt (hA : A i = xs ++ item :: ys) :
    ∃ h', h.removeTailAt i (some item) = .ok h' ∧ Sound h' (update A i xs) lost := by
  refine hs.removeTail hA ?_
  rw [hs.lists_eq i, hA]
  simp [headerOf]

end

/-! ## Extension -/

theorem Sound.drop (hs : Sound h A lost) (hlists : h'.lists = update h.lists i (headerOf []))
    (hlinks : ∀ a ∉ A i, h'.links.next a = h.links.next a ∧ h'.links.prev a = h.links.prev a) :
    Sound h' (update A i []) (A i ++ lost) := by
  refine hs.replace (subset_append_right _ _) hlists seg_nil nodup_nil ?_ ?_ ?_
  · intro a ha
    cases ha
  · intro a ha _
    exact hlinks a ha
  · intro a ha _ hl
    exact absurd (mem_append_left _ ha) hl

theorem extend_links (hA : A i ≠ []) (hh : Holds h A) (hj : A j ≠ []) :
    (h.extend i j).links = h.links.join (A i).getLast? (A j).head? := by
  obtain ⟨a, ha⟩ := ne_none_iff_exists'.mp (mt getLast?_eq_none_iff.mp hA)
  have hlen : (headerOf (A j)).length ≠ 0 := mt eq_nil_of_length_eq_zero hj
  rw [ListHeap.extend, hh.lists_eq i, hh.lists_eq j, if_neg hlen]
  simp only [headerOf, ha, ListHeap.setList_links]
  ext x : 2
  · rw [ListHeap.setNext_next, ListHeap.setPrev_next, join_next]
  · rw [ListHeap.setNext_prev, ListHeap.setPrev_prev, join_prev]

theorem extend_links_nil (hA : A i = []) (hh : Holds h A) : (h.extend i j).links = h.links := by
  rw [ListHeap.extend, hh.lists_eq i, hA]
  split <;> rfl

theorem extend_lists (hh : Holds h A) (hj : A j ≠ []) :
    (h.extend i j).lists = update (update h.lists i (headerOf (A i ++ A j))) j (headerOf []) := by
  have hlen : (headerOf (A j)).length ≠ 0 := mt eq_nil_of_length_eq_zero hj
  rw [ListHeap.extend, hh.lists_eq i, hh.lists_eq j, if_neg hlen]
  cases hA : A i with
  | nil => simp [headerOf]
  | cons a xs =>
    obtain ⟨b, hb⟩ := ne_none_iff_exists'.mp (mt getLast?_eq_none_iff.mp (cons_ne_nil a xs))
    obtain ⟨c, ys, hc⟩ := exists_cons_of_ne_nil hj
    have happend : headerOf (a :: xs ++ c :: ys) =
        { first := some a, last := (c :: ys).getLast?, length := (a :: xs).length + (c :: ys).length } := by
      rw [headerOf, getLast?_append_cons, length_append]
      rfl
    rw [hc, happend]
    simp [headerOf, hb]

theorem Sound.extend_nil (hs : Sound h A lost) (hj : A j = []) : h.extend i j = h := by
  rw [ListHeap.extend, hs.lists_eq j, hj]
  rfl

theorem Sound.extend_self (hs : Sound h A lost) (hi : A i ≠ []) :
    Sound (h.extend i i) (update A i []) (A i ++ lost) := by
  refine hs.drop ?_ fun a ha => ?_
  · rw [extend_lists hs.toHolds hi, update_idem]
  · rw [extend_links hi hs.toHolds hi, join_next, join_prev, if_neg (ne_getLast_of_notMem ha),
      if_neg (ne_head_of_notMem ha)]
    exact ⟨rfl, rfl⟩

theorem Sound.extend_of_ne (hs : Sound h A lost) (hij : i ≠ j) (hj : A j ≠ []) :
    Sound (h.extend i j) (update (update A i (A i ++ A j)) j []) lost := by
  -- the instructions of the other list are lost for a moment, and found again at the end of this one
  have hdrop : Sound (h.setList j (headerOf [])) (update A j []) (A j ++ lost) :=
    hs.drop rfl fun _ _ => ⟨rfl, rfl⟩
  have hi : update A j [] i = A i := update_of_ne hij _ _
  have hdisj := hs.disjoint i j hij
  have hnd : (A i ++ A j).Nodup :=
    nodup_append.mpr ⟨hs.nodup i, hs.nodup j, fun a ha b hb he => hdisj a ha (he ▸ hb)⟩
  have hsound : Sound (h.extend i j) (update (update A j []) i (A i ++ A j)) (A j ++ lost) := by
    refine hdrop.replace (List.Subset.refl _) ?_ ?_ hnd ?_ ?_ ?_
    · rw [extend_lists hs.toHolds hj, update_comm hij]
      rfl
    · by_cases hA : A i = []
      · rw [extend_links_nil hA hs.toHolds, hA]
        exact hs.seg j
      · rw [extend_links hA hs.toHolds hj]
        exact (hs.seg i).join (hs.seg j) hnd
    · intro a ha hai k hk
      rw [hi] at hai
      have haj : a ∈ A j := (mem_append.mp ha).resolve_left hai
      by_cases hkj : k = j
      · rw [hkj, update_self] at hk
        cases hk
      · rw [update_of_ne hkj] at hk
        exact hs.disjoint k j hkj a hk haj
    · intro a _ ha
      rw [mem_append, not_or] at ha
      by_cases hA : A i = []
      · rw [extend_links_nil hA hs.toHolds]
        exact ⟨rfl, rfl⟩
      · rw [extend_links hA hs.toHolds hj, join_next, join_prev, if_neg (ne_getLast_of_notMem ha.1),
          if_neg (ne_head_of_notMem ha.2)]
        exact ⟨rfl, rfl⟩
    · intro a hai ha
      rw [hi] at hai
      exact absurd (mem_append_left _ hai) ha
  rw [update_comm hij]
  refine hsound.found fun a ha => (mem_append.mp ha).symm.imp_right fun haj => ⟨i, ?_⟩
  rw [update_self]
  exact mem_append_right _ haj

theorem Sound.extend (hs : Sound h A lost) (i j : ι) :
    Sound (h.extend i j) ((ListOp.extend i j).apply A) ((ListOp.extend i j).lost A ++ lost) := by
  rw [ListOp.apply, ListOp.lost]
  by_cases hj : A j = []
  · have hsame : update A j [] = A := by rw [← hj, update_eq_self]
    rw [hs.extend_nil hj, hj, append_nil, update_eq_self, hsame]
    split
    · next hij => rwa [hij, hj]
    · exact hs
  · split
    · next hij =>
        subst hij
        rw [update_idem]
        exact hs.extend_self hj
    · next hij => exact hs.extend_of_ne hij hj

/-! ## Runs -/

theorem Sound.exec (hs : Sound h A lost) {op : ListOp ι α} (hop : op.Allowed A lost) :
    ∃ h', op.exec h = .ok h' ∧ Sound h' (op.apply A) (op.lost A ++ lost) := by
  cases op with
  | append i item => exact hs.append hop
  | prepend i item => exact hs.prepend hop
  | insertBefore i after item => exact hs.insertBefore hop.1 hop.2
  | insertAfter i before item => exact hs.insertAfter hop.1 hop.2
  | remove i item =>
    cases item with
    | none => exact ⟨h, rfl, hs⟩
    | some item =>
      obtain ⟨xs, ys, hA, hax⟩ := hs.split (hop item rfl)
      rw [ListOp.apply, hA, erase_append_right _ hax, erase_cons_head]
      exact hs.remove hA
  | removeTailAt i item =>
    cases item with
    | none =>
      refine ⟨h, ?_, hs⟩
      rw [ListOp.exec, ListHeap.removeTailAt]
      cases (h.lists i).length <;> rfl
    | some item =>
      obtain ⟨xs, ys, hA, hax⟩ := hs.split (hop item rfl)
      rw [ListOp.apply, hA, takeWhile_ne_append hax]
      exact hs.removeTailAt hA
  | extend i j => exact ⟨_, rfl, hs.extend i j⟩

theorem Sound.run (hs : Sound h A lost) {ops : List (ListOp ι α)} (hops : AllowedOps ops A lost) :
    ∃ h', runOps ops h = .ok h' ∧ Holds h' (applyOps ops A) := by
  induction ops generalizing h A lost with
  | nil => exact ⟨h, rfl, hs.toHolds⟩
  | cons op ops ih =>
    obtain ⟨h₁, hexec, hs₁⟩ := hs.exec hops.1
    obtain ⟨h₂, hrun, hh⟩ := ih hs₁ hops.2
    refine ⟨h₂, ?_, hh⟩
    rw [runOps, foldlM_cons, hexec]
    exact hrun

end Sound

end Granary.Instructions
