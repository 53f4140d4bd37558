import Mathlib.Algebra.Ring.Nat
import Mathlib.Algebra.Order.BigOperators.Group.List
import Mathlib.Algebra.Order.Ring.Nat
import Mathlib.Logic.Function.Basic

/-!
# Solving equations by sweeps

Each node has a value, and an equation that gives its next value from the values of all nodes. A sweep visits the nodes in
turn and replaces the values that do not satisfy their equations; sweeps are repeated until one of them changes nothing.
Every change is checked. If equations are monotone and no equation raises an initial value, then this ends with the greatest
solution.
-/

namespace RoundRobin

open Function (update update_of_ne update_self)

variable {β L : Type} [DecidableEq β]

structure Sweep (β L : Type) where
  values : β → L
  changed : Bool

inductive Failure where
  /-- a change is not allowed -/
  | check
  /-- sweeps go on for too long -/
  | running
deriving DecidableEq, Repr

section Solve

variable [DecidableEq L] (next : (β → L) → β → L) (check : L → L → Bool)

def visit (s : Sweep β L) (b : β) : Except Failure (Sweep β L) :=
  let new := next s.values b
  if new = s.values b then return s
  else if check (s.values b) new then return { values := update s.values b new, changed := true }
  else throw .check

def sweep (nodes : List β) (s : Sweep β L) : Except Failure (Sweep β L) := nodes.foldlM (visit next check) s

def solve (nodes : List β) : Nat → (β → L) → Except Failure (β → L)
  | 0, _ => throw .running
  | fuel + 1, values => do
      let s ← sweep next check nodes { values, changed := false }
      if s.changed then solve nodes fuel s.values else return s.values

end Solve

structure Solution (next : (β → L) → β → L) (nodes : List β) (init values : β → L) : Prop where
  equation : ∀ b ∈ nodes, next values b = values b
  boundary : ∀ b, b ∉ nodes → values b = init b

/-- Equations are monotone, the check accepts what is smaller, and values get smaller only finitely often. -/
structure Descends (next : (β → L) → β → L) (check : L → L → Bool) (le : L → L → Prop) (rank : L → Nat) : Prop where
  refl : ∀ a, le a a
  trans : ∀ {a b c}, le a b → le b c → le a c
  mono : ∀ {v w : β → L}, (∀ b, le (v b) (w b)) → ∀ b, le (next v b) (next w b)
  check : ∀ {a b}, le b a → check a b = true
  rank : ∀ {a b}, le a b → a ≠ b → rank a < rank b

/-- Values are still at least as large as their equations say, and as every solution. -/
structure Above (next : (β → L) → β → L) (le : L → L → Prop) (nodes : List β) (init values : β → L) : Prop where
  post : ∀ b ∈ nodes, le (next values b) (values b)
  boundary : ∀ b, b ∉ nodes → values b = init b
  solutions : ∀ w, Solution next nodes init w → (∀ b, le (w b) (init b)) → ∀ b, le (w b) (values b)

def potential (rank : L → Nat) (nodes : List β) (values : β → L) : Nat := (nodes.map fun b => rank (values b)).sum

variable {next : (β → L) → β → L} {check : L → L → Bool} {le : L → L → Prop} {rank : L → Nat} {nodes : List β}
  {init values : β → L} {s : Sweep β L} {b : β}

theorem potential_update_lt {x : L} (hb : b ∈ nodes) (hx : rank x < rank (values b)) :
    potential rank nodes (update values b x) < potential rank nodes values := by
  refine List.sum_lt_sum _ _ (fun c hc => ?_) ⟨b, hb, ?_⟩
  · rcases eq_or_ne c b with rfl | hcb
    · rw [update_self]
      exact hx.le
    · rw [update_of_ne hcb]
  · rw [update_self]
    exact hx

namespace Descends

variable (h : Descends next check le rank)
include h

theorem le_of_update {x : L} (hx : le x (values b)) (c : β) : le (update values b x c) (values c) := by
  rcases eq_or_ne c b with rfl | hcb
  · rw [update_self]
    exact hx
  · rw [update_of_ne hcb]
    exact h.refl _

theorem above_update (hv : Above next le nodes init values) (hb : b ∈ nodes) :
    Above next le nodes init (update values b (next values b)) where
  post := by
    intro c hc
    have hle := h.mono (h.le_of_update (hv.post b hb)) c
    rcases eq_or_ne c b with rfl | hcb
    · rw [update_self]
      exact hle
    · rw [update_of_ne hcb]
      exact h.trans hle (hv.post c hc)
  boundary := by
    intro c hc
    rw [update_of_ne (ne_of_mem_of_not_mem hb hc).symm]
    exact hv.boundary c hc
  solutions := by
    intro w hw hinit c
    have hle := hv.solutions w hw hinit
    rcases eq_or_ne c b with rfl | hcb
    · rw [update_self, ← hw.equation c hb]
      exact h.mono hle c
    · rw [update_of_ne hcb]
      exact hle c

variable [DecidableEq L]

theorem visit_ok (hv : Above next le nodes init s.values) (hb : b ∈ nodes) :
    ∃ s', visit next check s b = .ok s' ∧ Above next le nodes init s'.values ∧
      ((s' = s ∧ next s.values b = s.values b) ∨
        (s'.changed = true ∧ potential rank nodes s'.values < potential rank nodes s.values)) := by
  by_cases hnext : next s.values b = s.values b
  · exact ⟨s, if_pos hnext, hv, .inl ⟨rfl, hnext⟩⟩
  · have hle := hv.post b hb
    refine ⟨_, (if_neg hnext).trans (if_pos (h.check hle)), h.above_update hv hb, .inr ⟨rfl, ?_⟩⟩
    exact potential_update_lt hb (h.rank hle hnext)

theorem sweep_ok {bs : List β} (hbs : ∀ b ∈ bs, b ∈ nodes) (hv : Above next le nodes init s.values) :
    ∃ s', sweep next check bs s = .ok s' ∧ Above next le nodes init s'.values ∧
      ((s' = s ∧ ∀ b ∈ bs, next s.values b = s.values b) ∨
        (s'.changed = true ∧ potential rank nodes s'.values < potential rank nodes s.values)) := by
  induction bs generalizing s with
  | nil => exact ⟨s, rfl, hv, .inl ⟨rfl, by simp⟩⟩
  | cons b bs ih =>
    obtain ⟨s₁, hvisit, hv₁, hs₁⟩ := h.visit_ok hv (hbs b List.mem_cons_self)
    obtain ⟨s₂, hsweep, hv₂, hs₂⟩ := ih (fun c hc => hbs c (List.mem_cons_of_mem _ hc)) hv₁
    have hrun : sweep next check (b :: bs) s = .ok s₂ := by
      rw [sweep, List.foldlM_cons, hvisit]
      exact hsweep
    refine ⟨s₂, hrun, hv₂, ?_⟩
    rcases hs₁ with ⟨rfl, hb⟩ | ⟨hchanged, hlt⟩
    · rcases hs₂ with ⟨rfl, hall⟩ | hs₂
      · exact .inl ⟨rfl, List.forall_mem_cons.mpr ⟨hb, hall⟩⟩
      · exact .inr hs₂
    · rcases hs₂ with ⟨rfl, -⟩ | ⟨hchanged₂, hlt₂⟩
      · exact .inr ⟨hchanged, hlt⟩
      · exact .inr ⟨hchanged₂, hlt₂.trans hlt⟩

theorem solve_of_above {fuel : Nat} (hv : Above next le nodes init values) (hfuel : potential rank nodes values < fuel) :
    ∃ v, solve next check nodes fuel values = .ok v ∧ Above next le nodes init v ∧ ∀ b ∈ nodes, next v b = v b := by
  induction fuel generalizing values with
  | zero => exact absurd hfuel (Nat.not_lt_zero _)
  | succ fuel ih =>
    obtain ⟨s, hsweep, hs, hcase⟩ :=
      h.sweep_ok (s := { values, changed := false }) (fun b hb => hb) hv
    rw [solve, hsweep]
    change ∃ v, (if s.changed = true then solve next check nodes fuel s.values else .ok s.values) = .ok v ∧ _
    rcases hcase with ⟨rfl, hall⟩ | ⟨hchanged, hlt⟩
    · exact ⟨values, rfl, hv, hall⟩
    · rw [if_pos hchanged]
      exact ih hs (Nat.lt_of_lt_of_le hlt (Nat.le_of_lt_succ hfuel))

theorem solve_greatest (hinit : ∀ b ∈ nodes, le (next init b) (init b)) {fuel : Nat}
    (hfuel : potential rank nodes init < fuel) :
    ∃ v, solve next check nodes fuel init = .ok v ∧ Solution next nodes init v ∧
      ∀ w, Solution next nodes init w → (∀ b, le (w b) (init b)) → ∀ b, le (w b) (v b) := by
  have hv : Above next le nodes init init := ⟨hinit, fun _ _ => rfl, fun w _ hle => hle⟩
  obtain ⟨v, hsolve, hv', heq⟩ := h.solve_of_above hv hfuel
  exact ⟨v, hsolve, ⟨heq, hv'.boundary⟩, hv'.solutions⟩

end Descends

end RoundRobin
