import Mathlib.Data.List.Basic

/-!
# Binary search among ranges

A list of ranges, each with the first position it covers and the first one after it. The search keeps an inclusive
interval of signed indices, whose middle is rounded towards zero.
-/

namespace Bisect

variable {α : Type} {lo hi : α → Nat} {array : List α} {x : Nat}

/-- The element of `array` whose range contains `x`, looked for between the indices `first` and `last`. -/
def bisect (lo hi : α → Nat) (array : List α) (x : Nat) (first last : Int) : Option α :=
  let middle := (first + last).tdiv 2
  if _h : first ≤ middle ∧ middle ≤ last then
    match array[middle.toNat]? with
    | none => none
    | some a =>
      if lo a ≤ x then
        if x < hi a then some a else bisect lo hi array x (middle + 1) last
      else bisect lo hi array x first (middle - 1)
  else none
termination_by (last + 1 - first).toNat

theorem bisect_some {a : α} (first last : Int) (h : bisect lo hi array x first last = some a) :
    a ∈ array ∧ lo a ≤ x ∧ x < hi a := by
  fun_induction bisect lo hi array x first last with
  | case1 => cases h
  | case2 first last middle hm b hb hlb hhb =>
    cases h
    exact ⟨List.mem_of_getElem? hb, hlb, hhb⟩
  | case3 first last middle hm b hb hlb hhb ih => exact ih h
  | case4 first last middle hm b hb hlb ih => exact ih h
  | case5 => cases h

structure Ordered (lo hi : α → Nat) (array : List α) : Prop where
  range : ∀ a ∈ array, lo a ≤ hi a
  pairwise : array.Pairwise fun a b => hi a ≤ lo b

theorem Ordered.lt (h : Ordered lo hi array) {i j : Nat} {a b : α} (ha : array[i]? = some a) (hb : array[j]? = some b)
    (hij : i < j) : hi a ≤ lo b := by
  obtain ⟨hi', rfl⟩ := List.getElem?_eq_some_iff.mp ha
  obtain ⟨hj', rfl⟩ := List.getElem?_eq_some_iff.mp hb
  exact List.pairwise_iff_getElem.mp h.pairwise i j hi' hj' hij

theorem middle_between {first last : Int} (h0 : 0 ≤ first) (hle : first ≤ last) :
    first ≤ (first + last).tdiv 2 ∧ (first + last).tdiv 2 ≤ last := by
  rw [Int.tdiv_eq_ediv_of_nonneg (by omega)]
  omega

theorem Ordered.bisect_eq (h : Ordered lo hi array) {k : Nat} {a : α} (ha : array[k]? = some a) (hlo : lo a ≤ x)
    (hhi : x < hi a) (first last : Int) (h0 : 0 ≤ first) (hfirst : first ≤ k) (hlast : k ≤ last)
    (hlen : last < array.length) : bisect lo hi array x first last = some a := by
  -- the interval shrinks around `k`
  fun_induction bisect lo hi array x first last with
  | case1 first last middle hm hnone =>
    rw [List.getElem?_eq_none_iff] at hnone
    omega
  | case2 first last middle hm b hb hlb hhb =>
    obtain hlt | heq | hgt := Nat.lt_trichotomy middle.toNat k
    · have := h.lt hb ha hlt
      omega
    · rw [heq, ha] at hb
      exact hb.symm
    · have := h.lt ha hb hgt
      omega
  | case3 first last middle hm b hb hlb hhb ih =>
    have hlt : middle.toNat < k := by
      obtain hlt | heq | hgt := Nat.lt_trichotomy middle.toNat k
      · exact hlt
      · rw [heq, ha] at hb
        cases hb
        omega
      · have := h.lt ha hb hgt
        omega
    exact ih (by omega) (by omega) hlast hlen
  | case4 first last middle hm b hb hlb ih =>
    have hgt : k < middle.toNat := by
      obtain hlt | heq | hgt := Nat.lt_trichotomy middle.toNat k
      · have := h.lt hb ha hlt
        have := h.range b (List.mem_of_getElem? hb)
        omega
      · rw [heq, ha] at hb
        cases hb
        omega
      · exact hgt
    exact ih h0 hfirst (by omega) (by omega)
  | case5 first last middle hm => exact absurd (middle_between h0 (Int.le_trans hfirst hlast)) hm

end Bisect
