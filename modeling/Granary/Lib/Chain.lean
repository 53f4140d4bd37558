import Mathlib.Data.List.Nodup
import Mathlib.Logic.Function.Basic

/-!
# Null-terminated linked lists

The cells of a list are values of a type `α`, and `next` says where each of them points. A cell belongs to a list only
through its `next` field, so a write to a cell outside a list does not change the list.
-/

namespace Linked

open Function (update_of_ne update_self)
open Function (update)

variable {α : Type} {next next' : α → Option α} {head tail : Option α} {l l' l₁ l₂ : List α} {a b : α}

/-- Following `next` from `head` visits the cells of the list and then ends. -/
def Chain (next : α → Option α) : Option α → List α → Prop
  | head, [] => head = none
  | head, a :: l => head = some a ∧ Chain next (next a) l

@[simp] theorem chain_nil : Chain next head [] ↔ head = none := Iff.rfl

@[simp] theorem chain_cons : Chain next head (a :: l) ↔ head = some a ∧ Chain next (next a) l := Iff.rfl

theorem Chain.det (h : Chain next head l) (h' : Chain next head l') : l = l' := by
  induction l generalizing head l' with
  | nil =>
    cases l' with
    | nil => rfl
    | cons a l' => rw [chain_nil.mp h] at h'; cases h'.1
  | cons a l ih =>
    cases l' with
    | nil => rw [chain_nil.mp h'] at h; cases h.1
    | cons b l' =>
      obtain ⟨ha, h⟩ := h
      obtain ⟨hb, h'⟩ := h'
      rw [ha] at hb
      cases hb
      rw [ih h h']

theorem Chain.of_append (h : Chain next head (l₁ ++ l₂)) : ∃ mid, Chain next mid l₂ := by
  induction l₁ generalizing head with
  | nil => exact ⟨head, h⟩
  | cons a l₁ ih => exact ih h.2

theorem Chain.nodup (h : Chain next head l) : l.Nodup := by
  induction l generalizing head with
  | nil => exact List.nodup_nil
  | cons a l ih =>
    refine List.nodup_cons.mpr ⟨fun ha => ?_, ih h.2⟩
    obtain ⟨l₁, l₂, rfl⟩ := List.append_of_mem ha
    -- the rest of the list would be a proper part of itself
    obtain ⟨mid, hmid⟩ := h.2.of_append
    have hlen := congrArg List.length (hmid.2.det h.2)
    simp at hlen
    omega

theorem Chain.congr (h : Chain next head l) (hnext : ∀ a ∈ l, next' a = next a) : Chain next' head l := by
  induction l generalizing head with
  | nil => exact h
  | cons a l ih =>
    refine ⟨h.1, ?_⟩
    rw [hnext a (by simp)]
    exact ih h.2 fun b hb => hnext b (List.mem_cons_of_mem _ hb)

theorem Chain.head_eq (h : Chain next head l) : head = l.head? := by
  cases l with
  | nil => exact h
  | cons a l => exact h.1

theorem Chain.exists_cons (h : Chain next (some a) l) : ∃ l', l = a :: l' := by
  cases l with
  | nil => cases chain_nil.mp h
  | cons b l' =>
    cases h.1
    exact ⟨l', rfl⟩

theorem Chain.suffix (h : Chain next head (l₁ ++ a :: l₂)) : Chain next (next a) l₂ := by
  induction l₁ generalizing head with
  | nil => exact h.2
  | cons b l₁ ih => exact ih h.2

theorem Chain.last_next (h : Chain next head (l ++ [a])) : next a = none := h.suffix

section Update

variable [DecidableEq α]

theorem Chain.write (h : Chain next head l) (ha : a ∉ l) (x : Option α) : Chain (update next a x) head l :=
  h.congr fun b hb => update_of_ne (fun he => ha (by rwa [← he])) _ _

theorem Chain.push (h : Chain next head l) (ha : a ∉ l) : Chain (update next a head) (some a) (a :: l) := by
  refine ⟨rfl, ?_⟩
  rw [update_self]
  exact h.write ha head

theorem Chain.connect (h : Chain next head (l₁ ++ b :: l)) (h₂ : Chain next tail l₂) (hb : b ∉ l₂) :
    Chain (update next b tail) head (l₁ ++ b :: l₂) := by
  induction l₁ generalizing head with
  | nil =>
    refine ⟨h.1, ?_⟩
    rw [update_self]
    exact h₂.write hb tail
  | cons c l₁ ih =>
    have hcb : c ≠ b := fun he => (List.nodup_cons.mp h.nodup).1 (by simp [he])
    refine ⟨h.1, ?_⟩
    rw [update_of_ne hcb]
    exact ih h.2

theorem Chain.unlink (h : Chain next head (l₁ ++ b :: a :: l₂)) :
    Chain (update next b (next a)) head (l₁ ++ b :: l₂) := by
  have hnd := (List.nodup_cons.mp (List.nodup_append.mp h.nodup).2.1).1
  exact h.connect h.suffix.2 fun hb => hnd (List.mem_cons_of_mem _ hb)

end Update

/-! ## Families of lists -/

section Lists

variable {π : Type} [DecidableEq π] {heads : π → Option α} {L : π → List α} {P Q : π}

structure Lists (next : α → Option α) (heads : π → Option α) (L : π → List α) : Prop where
  chain : ∀ P, Chain next (heads P) (L P)
  place : ∀ {P Q a}, a ∈ L P → a ∈ L Q → P = Q

omit [DecidableEq π] in
theorem Lists.congr (h : Lists next heads L) (hnext : ∀ P, ∀ a ∈ L P, next' a = next a) : Lists next' heads L :=
  ⟨fun P => (h.chain P).congr (hnext P), h.place⟩

theorem Lists.shrink (h : Lists next heads L) (hl : Chain next' head l) (hsub : ∀ a ∈ l, a ∈ L P)
    (hnext : ∀ a ∉ L P, next' a = next a) : Lists next' (update heads P head) (update L P l) := by
  have hmem : ∀ {Q a}, a ∈ update L P l Q → a ∈ L Q := by
    intro Q a ha
    by_cases hQ : Q = P
    · subst hQ
      rw [update_self] at ha
      exact hsub a ha
    · rwa [update_of_ne hQ] at ha
  refine ⟨fun Q => ?_, fun ha hb => h.place (hmem ha) (hmem hb)⟩
  by_cases hQ : Q = P
  · subst hQ
    rwa [update_self, update_self]
  · rw [update_of_ne hQ, update_of_ne hQ]
    exact (h.chain Q).congr fun a ha => hnext a fun haP => hQ (h.place ha haP)

theorem mem_iff_of_perm (hl : (L P).Perm (a :: l)) {Q : π} {b : α} :
    b ∈ L Q ↔ b ∈ update L P l Q ∨ Q = P ∧ b = a := by
  by_cases hQ : Q = P
  · subst hQ
    simp [hl.mem_iff, or_comm]
  · simp [hQ]

theorem Lists.not_mem_of_perm (h : Lists next heads L) (hl : (L P).Perm (a :: l)) (Q : π) : a ∉ update L P l Q := by
  intro ha
  have haP : a ∈ L P := (mem_iff_of_perm hl).mpr (Or.inr ⟨rfl, rfl⟩)
  cases h.place ((mem_iff_of_perm hl).mpr (Or.inl ha)) haP
  rw [update_self] at ha
  exact (List.nodup_cons.mp (hl.nodup_iff.mp (h.chain _).nodup)).1 ha

theorem mem_update_cons {Q : π} {b : α} : b ∈ update L P (a :: L P) Q ↔ b ∈ L Q ∨ Q = P ∧ b = a := by
  by_cases hQ : Q = P
  · subst hQ
    simp [or_comm]
  · simp [hQ]

theorem Lists.push [DecidableEq α] (h : Lists next heads L) (ha : ∀ P, a ∉ L P) (P : π) :
    Lists (update next a (heads P)) (update heads P (some a))
      (update L P (a :: L P)) := by
  refine ⟨fun Q => ?_, fun {Q R b} hQ hR => ?_⟩
  · by_cases hQ : Q = P
    · subst hQ
      rw [update_self, update_self]
      exact (h.chain Q).push (ha Q)
    · rw [update_of_ne hQ, update_of_ne hQ]
      exact (h.chain Q).write (ha Q) _
  · rw [mem_update_cons] at hQ hR
    rcases hQ with hQ | ⟨rfl, rfl⟩
    · rcases hR with hR | ⟨rfl, rfl⟩
      · exact h.place hQ hR
      · exact absurd hQ (ha Q)
    · rcases hR with hR | ⟨rfl, _⟩
      · exact absurd hR (ha R)
      · rfl

theorem mem_update_append (hPQ : P ≠ Q) {R : π} {a : α} :
    a ∈ update (update L Q (L P ++ L Q)) P [] R ↔ R ≠ P ∧ (a ∈ L R ∨ R = Q ∧ a ∈ L P) := by
  by_cases hP : R = P
  · subst hP; simp
  · by_cases hQ : R = Q
    · subst hQ; simp [hP, or_comm]
    · simp [hP, hQ]

theorem Lists.concat [DecidableEq α] (h : Lists next heads L) (hPQ : P ≠ Q) (hb : (L P).getLast? = some b) :
    Lists (update next b (heads Q)) (update (update heads Q (heads P)) P none)
      (update (update L Q (L P ++ L Q)) P []) := by
  obtain ⟨l₀, hl₀⟩ := List.getLast?_eq_some_iff.mp hb
  have hbP : b ∈ L P := by simp [hl₀]
  refine ⟨fun R => ?_, fun {R T a} hR hT => ?_⟩
  · by_cases hR : R = P
    · subst hR; simp
    · rw [update_of_ne hR, update_of_ne hR]
      have hbR : b ∉ L R := fun hbR => hR (h.place hbR hbP)
      by_cases hRQ : R = Q
      · subst hRQ
        rw [update_self, update_self, hl₀, List.append_assoc, List.singleton_append]
        have hP := h.chain P
        rw [hl₀] at hP
        exact hP.connect (h.chain R) hbR
      · rw [update_of_ne hRQ, update_of_ne hRQ]
        exact (h.chain R).write hbR _
  · rw [mem_update_append hPQ] at hR hT
    obtain ⟨hRP, hR⟩ := hR
    obtain ⟨hTP, hT⟩ := hT
    rcases hR with hR | ⟨rfl, hR⟩
    · rcases hT with hT | ⟨rfl, hT⟩
      · exact h.place hR hT
      · exact absurd (h.place hR hT) hRP
    · rcases hT with hT | ⟨rfl, _⟩
      · exact absurd (h.place hT hR) hTP
      · rfl

end Lists

end Linked
