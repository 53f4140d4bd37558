import Mathlib.Algebra.BigOperators.Group.Finset.Basic
import Mathlib.Logic.Relation

/-!
# Worklists

Nodes wait in a list. The first of them is taken off the list, and unless it has been seen it is visited: a visit changes
some data and adds nodes to the list, or it ends the search. Whatever circles there are, a search among finitely many nodes
ends, and unless a visit ends it, it visits exactly the nodes that can be reached.
-/

namespace Worklist

open Relation

variable {α σ ε : Type}

structure Search (α σ : Type) where
  data : σ
  process : List α
  seen : List α

section Loop

variable [DecidableEq α]

def Search.add (s : Search α σ) (a : α) : Search α σ :=
  if a ∈ s.seen then s else { s with process := s.process ++ [a] }

def loop (running : ε) (visit : α → Search α σ → Except ε (Search α σ)) : Nat → Search α σ → Except ε σ
  | 0, _ => throw running
  | fuel + 1, s =>
    match s.process with
    | [] => return s.data
    | a :: process =>
      if a ∈ s.seen then loop running visit fuel { s with process }
      else do
        let s ← visit a { s with process, seen := a :: s.seen }
        loop running visit fuel s

theorem add_data (s : Search α σ) (a : α) : (s.add a).data = s.data := by
  rw [Search.add]
  split <;> rfl

theorem add_seen (s : Search α σ) (a : α) : (s.add a).seen = s.seen := by
  rw [Search.add]
  split <;> rfl

theorem foldl_add (as : List α) (s : Search α σ) :
    as.foldl .add s = { s with process := s.process ++ as.filter (· ∉ s.seen) } := by
  induction as generalizing s with
  | nil => simp
  | cons a as ih =>
    rw [List.foldl_cons, ih, add_data, add_seen, Search.add]
    by_cases ha : a ∈ s.seen
    · simp [ha]
    · simp [ha]

end Loop

/-! ## What a search visits -/

/-- What visits do: the nodes that they add, the change of data, and the nodes that end the search. -/
structure Graph (α σ ε : Type) where
  next : α → List α
  effect : α → σ → σ
  ends : α → Option ε

namespace Graph

section Spec

variable (G : Graph α σ ε)

def Reach (root : α) : α → Prop := ReflTransGen (fun a b => b ∈ G.next a) root

def Closed (nodes : Finset α) : Prop := ∀ a ∈ nodes, ∀ b ∈ G.next a, b ∈ nodes

def Outcome (root : α) (init : σ) : Except ε σ → Prop
  | .error e => ∃ a, G.Reach root a ∧ G.ends a = some e
  | .ok data => ∃ seen : List α,
      (∀ a, a ∈ seen ↔ G.Reach root a) ∧ (∀ a ∈ seen, G.ends a = none) ∧ data = seen.foldr G.effect init

structure Invariant (root : α) (init : σ) (s : Search α σ) : Prop where
  first : root ∈ s.seen ∨ root ∈ s.process
  reach : ∀ a, a ∈ s.seen ∨ a ∈ s.process → G.Reach root a
  ends : ∀ a ∈ s.seen, G.ends a = none
  next : ∀ a ∈ s.seen, ∀ b ∈ G.next a, b ∈ s.seen ∨ b ∈ s.process
  data : s.data = s.seen.foldr G.effect init

end Spec

variable {G : Graph α σ ε} {nodes : Finset α} {root a : α} {init : σ} {s : Search α σ} {process : List α}

theorem Closed.reach (h : G.Closed nodes) (hroot : root ∈ nodes) (ha : G.Reach root a) : a ∈ nodes := by
  induction ha with
  | refl => exact hroot
  | tail _ hb ih => exact h _ ih _ hb

theorem invariant_init : G.Invariant root init { data := init, process := [root], seen := [] } where
  first := .inr List.mem_cons_self
  reach a ha := by
    have ha' : a = root := by simpa using ha
    exact ha' ▸ .refl
  ends := by simp
  next := by simp
  data := rfl

theorem Invariant.skip (h : G.Invariant root init s) (hp : s.process = a :: process) (ha : a ∈ s.seen) :
    G.Invariant root init { s with process } := by
  have hmem : ∀ b, b ∈ s.seen ∨ b ∈ s.process → b ∈ s.seen ∨ b ∈ process := by
    intro b hb
    rcases hb with hb | hb
    · exact .inl hb
    · rw [hp, List.mem_cons] at hb
      rcases hb with rfl | hb
      · exact .inl ha
      · exact .inr hb
  refine ⟨hmem _ h.first, fun b hb => h.reach b ?_, h.ends, fun b hb c hc => hmem c (h.next b hb c hc), h.data⟩
  exact hb.imp_right fun hb => hp ▸ List.mem_cons_of_mem _ hb

theorem Invariant.outcome (h : G.Invariant root init s) (hp : s.process = []) : G.Outcome root init (.ok s.data) := by
  have hmem : ∀ b, b ∈ s.seen ∨ b ∈ s.process → b ∈ s.seen := by simp [hp]
  refine ⟨s.seen, fun a => ⟨fun ha => h.reach a (.inl ha), fun ha => ?_⟩, h.ends, h.data⟩
  induction ha with
  | refl => exact hmem _ h.first
  | tail _ hb ih => exact hmem _ (h.next _ ih _ hb)

/-! ## The loop -/

section Visit

variable [DecidableEq α] (G)

def visit (a : α) (s : Search α σ) : Except ε (Search α σ) :=
  match G.ends a with
  | some e => throw e
  | none => return (G.next a).foldl .add { s with data := G.effect a s.data }

def visited (a : α) (process : List α) (s : Search α σ) : Search α σ :=
  { data := G.effect a s.data, process := process ++ (G.next a).filter (· ∉ a :: s.seen), seen := a :: s.seen }

def todo (nodes : Finset α) (s : Search α σ) : Nat :=
  s.process.length + ∑ a ∈ nodes.filter (· ∉ s.seen), (G.next a).length

end Visit

variable [DecidableEq α]

theorem visit_eq (he : G.ends a = none) :
    G.visit a { s with process, seen := a :: s.seen } = .ok (G.visited a process s) := by
  rw [visit, he]
  exact congrArg Except.ok (foldl_add _ _)

theorem Invariant.visited (h : G.Invariant root init s) (hp : s.process = a :: process)
    (he : G.ends a = none) : G.Invariant root init (G.visited a process s) := by
  have hreach : G.Reach root a := h.reach a (.inr (hp ▸ List.mem_cons_self))
  have hold : ∀ b, b ∈ s.seen ∨ b ∈ s.process → b ∈ a :: s.seen ∨ b ∈ (G.visited a process s).process := by
    intro b hb
    rcases hb with hb | hb
    · exact .inl (List.mem_cons_of_mem _ hb)
    · rw [hp, List.mem_cons] at hb
      rcases hb with rfl | hb
      · exact .inl List.mem_cons_self
      · exact .inr (List.mem_append_left _ hb)
  refine ⟨hold _ h.first, fun b hb => ?_, fun b hb => ?_, fun b hb c hc => ?_, congrArg (G.effect a) h.data⟩
  · simp only [Graph.visited, List.mem_cons, List.mem_append, List.mem_filter] at hb
    rcases hb with (rfl | hb) | hb | ⟨hb, -⟩
    · exact hreach
    · exact h.reach b (.inl hb)
    · exact h.reach b (.inr (hp ▸ List.mem_cons_of_mem _ hb))
    · exact hreach.tail hb
  · rcases List.mem_cons.mp hb with rfl | hb
    · exact he
    · exact h.ends b hb
  · rcases List.mem_cons.mp hb with rfl | hb
    · by_cases hcs : c ∈ b :: s.seen
      · exact .inl hcs
      · exact .inr (List.mem_append_right _ (List.mem_filter.mpr ⟨hc, decide_eq_true hcs⟩))
    · exact hold c (h.next b hb c hc)

theorem todo_skip (hp : s.process = a :: process) : G.todo nodes { s with process } < G.todo nodes s := by
  rw [todo, todo, hp, List.length_cons]
  exact Nat.add_lt_add_right (Nat.lt_succ_self _) _

theorem todo_visited (hp : s.process = a :: process) (hn : a ∈ nodes) (ha : a ∉ s.seen) :
    G.todo nodes (G.visited a process s) < G.todo nodes s := by
  have hunseen : nodes.filter (· ∉ a :: s.seen) = (nodes.filter (· ∉ s.seen)).erase a := by
    ext b
    simp only [Finset.mem_filter, Finset.mem_erase, List.mem_cons, not_or]
    tauto
  have hsum := Finset.add_sum_erase (nodes.filter (· ∉ s.seen)) (fun b => (G.next b).length)
    (Finset.mem_filter.mpr ⟨hn, ha⟩)
  have hlen : ((G.next a).filter (· ∉ a :: s.seen)).length ≤ (G.next a).length := List.length_filter_le ..
  rw [todo, todo, hp, visited, hunseen, ← hsum, List.length_append, List.length_cons]
  omega

theorem Invariant.loop (hclosed : G.Closed nodes) (hroot : root ∈ nodes) (running : ε)
    {visit : α → Search α σ → Except ε (Search α σ)} (hvisit : ∀ a ∈ nodes, ∀ s, visit a s = G.visit a s)
    {fuel : Nat} (h : G.Invariant root init s) (hfuel : G.todo nodes s < fuel) :
    G.Outcome root init (loop running visit fuel s) := by
  induction fuel generalizing s with
  | zero => omega
  | succ fuel ih =>
    rw [Worklist.loop]
    split
    · next hp => exact h.outcome hp
    · next a process hp =>
        have hreach : G.Reach root a := h.reach a (.inr (hp ▸ List.mem_cons_self))
        have hn : a ∈ nodes := hclosed.reach hroot hreach
        split
        · next ha =>
            exact ih (h.skip hp ha) (Nat.lt_of_lt_of_le (todo_skip hp) (Nat.le_of_lt_succ hfuel))
        · next ha =>
            rw [hvisit a hn]
            cases he : G.ends a with
            | some e =>
              rw [Graph.visit, he]
              exact ⟨a, hreach, he⟩
            | none =>
              rw [visit_eq he]
              exact ih (h.visited hp he) (Nat.lt_of_lt_of_le (todo_visited hp hn ha) (Nat.le_of_lt_succ hfuel))

theorem Closed.loop (hclosed : G.Closed nodes) (hroot : root ∈ nodes) (running : ε)
    {visit : α → Search α σ → Except ε (Search α σ)} (hvisit : ∀ a ∈ nodes, ∀ s, visit a s = G.visit a s) {fuel : Nat}
    (hfuel : 1 + ∑ a ∈ nodes, (G.next a).length < fuel) :
    G.Outcome root init (loop running visit fuel { data := init, process := [root], seen := [] }) := by
  refine (invariant_init).loop hclosed hroot running hvisit ?_
  simpa [todo] using hfuel

end Graph

end Worklist
