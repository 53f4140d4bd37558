/-!
# What a fallible computation can end with

`Ends E Q x` says that `x` ends with a value that satisfies `Q` or with an error that satisfies `E`. The rules take a
computation apart in the order in which it runs.
-/

namespace Outcome

variable {ε α β : Type} {E E' : ε → Prop} {P Q : α → Prop} {R : β → Prop} {x : Except ε α} {f : α → Except ε β}

def Ends (E : ε → Prop) (Q : α → Prop) : Except ε α → Prop
  | .ok a => Q a
  | .error e => E e

@[simp] theorem ends_error {e : ε} : Ends E Q (.error e) ↔ E e := Iff.rfl

@[simp] theorem ends_pure {a : α} : Ends E Q (pure a) ↔ Q a := Iff.rfl

theorem Ends.bind (h : Ends E P x) (hf : ∀ a, P a → Ends E R (f a)) : Ends E R (x >>= f) := by
  cases x with
  | ok a => exact hf a h
  | error e => exact h

theorem Ends.mono (h : Ends E P x) (hPQ : ∀ a, P a → Q a) (hE : ∀ e, E e → E' e) : Ends E' Q x := by
  cases x with
  | ok a => exact hPQ a h
  | error e => exact hE e h

theorem Ends.imp (h : Ends E P x) (hPQ : ∀ a, P a → Q a) : Ends E Q x := h.mono hPQ fun _ => id

theorem Ends.map {g : α → β} (h : Ends E P x) (hg : ∀ a, P a → R (g a)) : Ends E R (g <$> x) := by
  cases x with
  | ok a => exact hg a h
  | error e => exact h

theorem Ends.of_ok {a : α} (h : Ends E Q x) (hx : x = .ok a) : Q a := by
  subst hx
  exact h

theorem Ends.of_error {e : ε} (h : Ends E Q x) (hx : x = .error e) : E e := by
  subst hx
  exact h

theorem bind_eq_ok {b : β} : x >>= f = .ok b ↔ ∃ a, x = .ok a ∧ f a = .ok b := by
  constructor
  · intro h
    cases x with
    | ok a => exact ⟨a, rfl, h⟩
    | error e => cases h
  · rintro ⟨a, rfl, hf⟩
    exact hf

theorem ends_of_forall (hE : ∀ e, E e) (hQ : ∀ a, Q a) : Ends E Q x := by
  cases x with
  | ok a => exact hQ a
  | error e => exact hE e

theorem Ends.mapError {ε' : Type} {F : ε' → Prop} {g : ε → ε'} (h : Ends (fun e => F (g e)) Q x) :
    Ends F Q (x.mapError g) := by
  cases x with
  | ok a => exact h
  | error e => exact h

end Outcome
