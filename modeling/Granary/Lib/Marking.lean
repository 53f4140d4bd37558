import Mathlib.Data.Finset.Card
import Mathlib.Data.Finset.Filter
import Mathlib.Logic.Relation

/-!
# Marking a graph

Nodes have edges, which are looked at one after the other. Looking at an edge and marking a node both change a state, from
which it is read whether a node is marked. A node at the end of an edge is marked and explored in turn, unless it is marked
already. However edges go in circles, this ends, and what is marked is closed under edges.
-/

namespace Marking

open Relation

variable {α E σ ε : Type}

structure Marker (α E σ : Type) where
  edges : α → List E
  target : E → Option α
  touch : E → σ → σ
  mark : α → σ → σ
  marked : σ → α → Bool

namespace Marker

section Explore

variable (X : Marker α E σ)

def visit (explore : α → σ → Except ε σ) (a : α) (s : σ) : Except ε σ :=
  if X.marked s a then return s else explore a (X.mark a s)

def follow (explore : α → σ → Except ε σ) (s : σ) (e : E) : Except ε σ :=
  match X.target e with
  | none => return X.touch e s
  | some b => X.visit explore b (X.touch e s)

def Edge (a b : α) : Prop := ∃ e ∈ X.edges a, X.target e = some b

def From (A : α → Prop) (b : α) : Prop := ∃ a, A a ∧ ReflTransGen X.Edge a b

end Explore

/-- Edges end at nodes, and marking a node marks only this node, in all states with a property that is kept on paths from `A`.
-/
structure Lawful (X : Marker α E σ) (ok : σ → Prop) (nodes : Finset α) (A : α → Prop) : Prop where
  target_mem : ∀ {a b}, X.Edge a b → b ∈ nodes
  ok_touch : ∀ {a e s}, X.From A a → e ∈ X.edges a → ok s → ok (X.touch e s)
  ok_mark : ∀ {a s}, a ∈ nodes → X.From A a → ok s → ok (X.mark a s)
  marked_touch : ∀ {e s a}, ok s → X.marked (X.touch e s) a = X.marked s a
  marked_mark : ∀ {a s b}, a ∈ nodes → ok s → (X.marked (X.mark a s) b = true ↔ b = a ∨ X.marked s b = true)

/-- Nodes have been marked along paths from `A`, and with them all nodes that they have edges to. -/
structure Explored (X : Marker α E σ) (ok : σ → Prop) (A : α → Prop) (s s' : σ) : Prop where
  ok : ok s'
  mono : ∀ b, X.marked s b = true → X.marked s' b = true
  reach : ∀ b, X.marked s' b = true → X.marked s b = true ∨ X.From A b
  closed : ∀ b c, X.marked s b ≠ true → X.marked s' b = true → X.Edge b c → X.marked s' c = true

variable {X : Marker α E σ} {ok : σ → Prop} {nodes : Finset α} {A : α → Prop} {s s' s'' : σ} {a b : α}

theorem From.step (h : X.From A a) (hab : X.Edge a b) : X.From A b := by
  obtain ⟨r, hr, hpath⟩ := h
  exact ⟨r, hr, hpath.tail hab⟩

theorem From.root (h : A a) : X.From A a := ⟨a, h, .refl⟩

theorem From.induct {P : α → Prop} (hroot : ∀ a, A a → P a) (hstep : ∀ a b, P a → X.Edge a b → P b) (h : X.From A b) :
    P b := by
  obtain ⟨a, ha, hpath⟩ := h
  induction hpath with
  | refl => exact hroot a ha
  | tail _ hab ih => exact hstep _ _ ih hab

namespace Explored

theorem of_same (hok : ok s') (hsame : ∀ b, X.marked s' b = X.marked s b) : Explored X ok A s s' where
  ok := hok
  mono b hb := (hsame b).trans hb
  reach b hb := .inl ((hsame b).symm.trans hb)
  closed b _ hb hb' := absurd ((hsame b).symm.trans hb') hb

theorem trans (h : Explored X ok A s s') (h' : Explored X ok A s' s'') : Explored X ok A s s'' where
  ok := h'.ok
  mono b hb := h'.mono b (h.mono b hb)
  reach b hb := by
    rcases h'.reach b hb with hb | hb
    · exact h.reach b hb
    · exact .inr hb
  closed b c hb hb'' hedge := by
    by_cases hb' : X.marked s' b = true
    · exact h'.mono c (h.closed b c hb hb' hedge)
    · exact h'.closed b c hb' hb'' hedge

theorem of_mark {s₁ : σ} (hmark : ∀ b, X.marked s₁ b = true ↔ b = a ∨ X.marked s b = true) (hA : X.From A a)
    (h : Explored X ok A s₁ s') (hsucc : ∀ c, X.Edge a c → X.marked s' c = true) : Explored X ok A s s' where
  ok := h.ok
  mono b hb := h.mono b ((hmark b).mpr (.inr hb))
  reach b hb := by
    rcases h.reach b hb with hb | hb
    · rcases (hmark b).mp hb with rfl | hb
      · exact .inr hA
      · exact .inl hb
    · exact .inr hb
  closed b c hb hb' hedge := by
    rcases eq_or_ne b a with rfl | hba
    · exact hsucc c hedge
    · exact h.closed b c (fun hb₁ => ((hmark b).mp hb₁).elim hba hb) hb' hedge

end Explored

section Unmarked

def unmarked (X : Marker α E σ) (nodes : Finset α) (s : σ) : Finset α := nodes.filter fun a => X.marked s a ≠ true

theorem Explored.unmarked_le (h : Explored X ok A s s') : (X.unmarked nodes s').card ≤ (X.unmarked nodes s).card := by
  refine Finset.card_le_card fun b hb => ?_
  obtain ⟨hmem, hb⟩ := Finset.mem_filter.mp hb
  exact Finset.mem_filter.mpr ⟨hmem, fun hs => hb (h.mono b hs)⟩

theorem unmarked_lt {s₁ : σ} (hmark : ∀ b, X.marked s₁ b = true ↔ b = a ∨ X.marked s b = true) (ha : a ∈ nodes)
    (hmarked : X.marked s a ≠ true) : (X.unmarked nodes s₁).card < (X.unmarked nodes s).card := by
  refine Finset.card_lt_card (Finset.ssubset_iff_of_subset (fun b hb => ?_) |>.mpr ⟨a, ?_, fun hb => ?_⟩)
  · obtain ⟨hmem, hb⟩ := Finset.mem_filter.mp hb
    exact Finset.mem_filter.mpr ⟨hmem, fun hs => hb ((hmark b).mpr (.inr hs))⟩
  · exact Finset.mem_filter.mpr ⟨ha, hmarked⟩
  · exact (Finset.mem_filter.mp hb).2 ((hmark a).mpr (.inl rfl))

end Unmarked

def Explores (X : Marker α E σ) (ok : σ → Prop) (nodes : Finset α) (A : α → Prop) (explore : α → σ → Except ε σ)
    (count : Nat) : Prop :=
  ∀ a s, X.From A a → ok s → (X.unmarked nodes s).card < count →
    ∃ s', explore a s = .ok s' ∧ Explored X ok A s s' ∧ ∀ c, X.Edge a c → X.marked s' c = true

variable {explore : α → σ → Except ε σ} {count : Nat}

theorem Explores.of_mark {s₁ : σ} (hexplore : Explores X ok nodes A explore count)
    (hmark : ∀ b, X.marked s₁ b = true ↔ b = a ∨ X.marked s b = true) (ha : a ∈ nodes) (hA : X.From A a) (hs₁ : ok s₁)
    (hmarked : X.marked s a ≠ true) (hcount : (X.unmarked nodes s).card ≤ count) :
    ∃ s', explore a s₁ = .ok s' ∧ Explored X ok A s s' ∧ X.marked s' a = true := by
  have hlt := unmarked_lt hmark ha hmarked
  obtain ⟨s', hrun, hexp, hsucc⟩ := hexplore a s₁ hA hs₁ (hlt.trans_le hcount)
  exact ⟨s', hrun, .of_mark hmark hA hexp hsucc, hexp.mono a ((hmark a).mpr (.inl rfl))⟩

theorem Lawful.visit_ok (hX : Lawful X ok nodes A) (hexplore : Explores X ok nodes A explore count) (ha : a ∈ nodes)
    (hA : X.From A a) (hs : ok s) (hcount : (X.unmarked nodes s).card ≤ count) :
    ∃ s', X.visit explore a s = .ok s' ∧ Explored X ok A s s' ∧ X.marked s' a = true := by
  by_cases hmarked : X.marked s a = true
  · exact ⟨s, if_pos hmarked, .of_same hs fun _ => rfl, hmarked⟩
  · rw [visit, if_neg hmarked]
    exact hexplore.of_mark (fun _ => hX.marked_mark ha hs) ha hA (hX.ok_mark ha hA hs) hmarked hcount

theorem Lawful.follow_ok {e : E} (hX : Lawful X ok nodes A) (hexplore : Explores X ok nodes A explore count)
    (hA : X.From A a) (he : e ∈ X.edges a) (hs : ok s) (hcount : (X.unmarked nodes s).card ≤ count) :
    ∃ s', X.follow explore s e = .ok s' ∧ Explored X ok A s s' ∧ ∀ c, X.target e = some c → X.marked s' c = true := by
  have htouch : Explored X ok A s (X.touch e s) := .of_same (hX.ok_touch hA he hs) fun _ => hX.marked_touch hs
  rw [follow]
  cases hb : X.target e with
  | none => exact ⟨_, rfl, htouch, fun _ hc => by cases hc⟩
  | some b =>
    have hedge : X.Edge a b := ⟨e, he, hb⟩
    obtain ⟨s', hrun, hexp, hmarked⟩ := hX.visit_ok hexplore (hX.target_mem hedge) (hA.step hedge) htouch.ok
      (htouch.unmarked_le.trans hcount)
    refine ⟨s', hrun, htouch.trans hexp, fun c hc => ?_⟩
    rwa [← Option.some.inj hc]

theorem Explored.foldlM {β : Type} {xs : List β} {f : σ → β → Except ε σ} {T : β → α → Prop}
    (hf : ∀ x ∈ xs, ∀ s, ok s → (X.unmarked nodes s).card ≤ count →
      ∃ s', f s x = .ok s' ∧ Explored X ok A s s' ∧ ∀ c, T x c → X.marked s' c = true)
    (hs : ok s) (hcount : (X.unmarked nodes s).card ≤ count) :
    ∃ s', xs.foldlM f s = .ok s' ∧ Explored X ok A s s' ∧ ∀ x ∈ xs, ∀ c, T x c → X.marked s' c = true := by
  induction xs generalizing s with
  | nil => exact ⟨s, rfl, .of_same hs fun _ => rfl, fun _ hx => absurd hx List.not_mem_nil⟩
  | cons x xs ih =>
    obtain ⟨s₁, hstep, hexp₁, hmarked⟩ := hf x List.mem_cons_self s hs hcount
    obtain ⟨s₂, hrun, hexp₂, hall⟩ :=
      ih (fun y hy => hf y (List.mem_cons_of_mem _ hy)) hexp₁.ok (hexp₁.unmarked_le.trans hcount)
    refine ⟨s₂, ?_, hexp₁.trans hexp₂, List.forall_mem_cons.mpr ⟨fun c hc => hexp₂.mono c (hmarked c hc), hall⟩⟩
    rw [List.foldlM_cons, hstep]
    exact hrun

theorem Lawful.explores_succ {explore' : α → σ → Except ε σ} {f : σ → E → Except ε σ} (hX : Lawful X ok nodes A)
    (hexplore : Explores X ok nodes A explore count) (hf : ∀ s e, ok s → f s e = X.follow explore s e)
    (hexplore' : ∀ a s, X.From A a → ok s → explore' a s = (X.edges a).foldlM f s) :
    Explores X ok nodes A explore' (count + 1) := by
  intro a s hA hs hcount
  have hfollow : ∀ e ∈ X.edges a, ∀ s, ok s → (X.unmarked nodes s).card ≤ count →
      ∃ s', f s e = .ok s' ∧ Explored X ok A s s' ∧ ∀ c, X.target e = some c → X.marked s' c = true := by
    intro e he s hs hcount
    rw [hf s e hs]
    exact hX.follow_ok hexplore hA he hs hcount
  obtain ⟨s', hrun, hexp, hall⟩ := Explored.foldlM hfollow hs (Nat.le_of_lt_succ hcount)
  refine ⟨s', (hexplore' a s hA hs).trans hrun, hexp, ?_⟩
  rintro c ⟨e, he, hc⟩
  exact hall e he c hc

theorem explores_zero : Explores X ok nodes A explore 0 := fun _ _ _ _ hcount => absurd hcount (Nat.not_lt_zero _)

end Marker

end Marking
