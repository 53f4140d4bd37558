import Mathlib.Data.List.Nodup
import Mathlib.Logic.Function.Iterate

/-!
# Labelled code

Lists of instructions that run one after the other, go to other instructions of the list by name, or leave the list. A
translation that replaces each instruction by a piece of code keeps the runs if each piece does what its instruction does.
-/

namespace Code

inductive Next (ι ε : Type) where
  | fall
  | goto (i : ι)
  | leave (e : ε)

structure Language (α ι σ ε : Type) where
  id : α → ι
  exec : α → σ → σ × Next ι ε

inductive Config (α ι σ ε : Type) where
  | run (rest : List α) (s : σ)
  | left (e : ε) (s : σ)
  | missing (i : ι) (s : σ)

namespace Language

variable {α ι σ ε : Type} [DecidableEq ι] (L : Language α ι σ ε)

def find (i : ι) : List α → Option (List α)
  | [] => none
  | x :: code => if L.id x = i then some (x :: code) else find i code

def goto (code : List α) (i : ι) (s : σ) : Config α ι σ ε :=
  match L.find i code with
  | some rest => .run rest s
  | none => .missing i s

def resume (code rest : List α) : σ × Next ι ε → Config α ι σ ε
  | (s, .fall) => .run rest s
  | (s, .goto i) => L.goto code i s
  | (s, .leave e) => .left e s

def step (code : List α) : Config α ι σ ε → Config α ι σ ε
  | .run (x :: rest) s => L.resume code rest (L.exec x s)
  | c => c

variable {L} {i : ι} {x : α} {code rest pre : List α} {c d e : Config α ι σ ε}

theorem step_cons (s : σ) : L.step code (.run (x :: rest) s) = L.resume code rest (L.exec x s) := rfl

@[simp] theorem resume_goto (s : σ) : L.resume code rest (s, .goto i) = L.goto code i s := rfl

theorem goto_of_find {s : σ} (h : L.find i code = some rest) : L.goto code i s = .run rest s := by
  rw [goto, h]

theorem find_cons_of_ne (h : L.id x ≠ i) : L.find i (x :: rest) = L.find i rest := if_neg h

theorem find_append_of_forall_ne (h : ∀ x ∈ pre, L.id x ≠ i) : L.find i (pre ++ code) = L.find i code := by
  induction pre with
  | nil => rfl
  | cons x pre ih =>
    rw [List.cons_append, find_cons_of_ne (h x List.mem_cons_self), ih fun y hy => h y (List.mem_cons_of_mem x hy)]

theorem find_append_of_some (h : L.find i pre = some rest) : L.find i (pre ++ code) = some (rest ++ code) := by
  induction pre with
  | nil => cases h
  | cons x pre ih =>
    rw [find] at h
    rw [List.cons_append, find]
    split at h
    case isTrue hx =>
      cases h
      rw [if_pos hx, List.cons_append]
    case isFalse hx => rw [if_neg hx, ih h]

theorem find_eq_none : L.find i code = none ↔ ∀ x ∈ code, L.id x ≠ i := by
  induction code with
  | nil => simp [find]
  | cons x code ih =>
    rw [find]
    split
    case isTrue hx => simp [hx]
    case isFalse hx => simp [hx, ih]

theorem find_eq_some (h : L.find i code = some rest) :
    ∃ pre x post, code = pre ++ x :: post ∧ rest = x :: post ∧ L.id x = i := by
  induction code with
  | nil => cases h
  | cons x code ih =>
    rw [find] at h
    split at h
    case isTrue hx =>
      cases h
      exact ⟨[], x, code, rfl, rfl, hx⟩
    case isFalse hx =>
      obtain ⟨pre, y, post, rfl, hrest, hy⟩ := ih h
      exact ⟨x :: pre, y, post, rfl, hrest, hy⟩

/-! ## Runs -/

variable (L) in
def Reaches (code : List α) (c d : Config α ι σ ε) : Prop := ∃ n, (L.step code)^[n] c = d

theorem Reaches.refl (c : Config α ι σ ε) : L.Reaches code c c := ⟨0, rfl⟩

theorem Reaches.head (h : L.Reaches code (L.step code c) d) : L.Reaches code c d := by
  obtain ⟨n, hn⟩ := h
  exact ⟨n + 1, hn⟩

theorem Reaches.trans (h : L.Reaches code c d) (h' : L.Reaches code d e) : L.Reaches code c e := by
  obtain ⟨n, rfl⟩ := h
  obtain ⟨m, rfl⟩ := h'
  exact ⟨m + n, Function.iterate_add_apply _ m n c⟩

theorem Reaches.invariant {P : Config α ι σ ε → Prop} (hstep : ∀ c, P c → P (L.step code c)) (h : L.Reaches code c d)
    (hc : P c) : P d := by
  obtain ⟨n, rfl⟩ := h
  induction n generalizing c with
  | zero => exact hc
  | succ n ih => exact ih (hstep c hc)

theorem not_reaches_of_recurs {P : Config α ι σ ε → Prop} (hP : ∀ c, P c → ∃ n, P ((L.step code)^[n + 1] c))
    (hend : L.step code d = d) (hd : ¬ P d) (hc : P c) : ¬ L.Reaches code c d := by
  rintro ⟨m, hm⟩
  induction m using Nat.strongRecOn generalizing c with
  | ind m ih =>
    obtain ⟨n, hn⟩ := hP c hc
    obtain hlt | hle := Nat.lt_or_ge n m
    · obtain ⟨k, rfl⟩ : ∃ k, m = k + (n + 1) := ⟨m - (n + 1), by omega⟩
      rw [Function.iterate_add_apply] at hm
      exact ih k (by omega) hn hm
    · obtain ⟨k, hk⟩ : ∃ k, n + 1 = k + m := ⟨n + 1 - m, by omega⟩
      rw [hk, Function.iterate_add_apply, hm, Function.iterate_fixed hend] at hn
      exact hd hn

end Language

/-! ## Expansions -/

variable {α β ι κ σ ε : Type} {L : Language α ι σ ε} {L' : Language β κ σ ε}

/-- A piece of code for each instruction. The owner of an instruction is the one that it is a piece of. -/
structure Expansion (L : Language α ι σ ε) (L' : Language β κ σ ε) where
  old : ι → κ
  owner : κ → ι
  expand : α → List β
  owner_old : ∀ i, owner (old i) = i
  owner_expand : ∀ x, ∀ y ∈ expand x, owner (L'.id y) = L.id x

def Next.map (f : ι → κ) : Next ι ε → Next κ ε
  | fall => .fall
  | goto i => .goto (f i)
  | leave e => .leave e

namespace Expansion

variable (E : Expansion L L') {code pre post : List α} {x : α} {k : κ} {i : ι}

def translate (code : List α) : List β := code.flatMap E.expand

theorem translate_append (code' : List α) : E.translate (code ++ code') = E.translate code ++ E.translate code' :=
  List.flatMap_append

theorem translate_cons (x : α) (code : List α) : E.translate (x :: code) = E.expand x ++ E.translate code :=
  List.flatMap_cons

variable [DecidableEq κ]

variable {E} in
theorem find_translate (hnodup : ((pre ++ x :: post).map L.id).Nodup) (hk : E.owner k = L.id x) :
    L'.find k (E.translate (pre ++ x :: post)) = L'.find k (E.expand x ++ E.translate post) := by
  rw [translate_append, translate_cons]
  apply Language.find_append_of_forall_ne
  intro y hy hyk
  obtain ⟨z, hz, hyz⟩ := List.mem_flatMap.1 hy
  have hzx : L.id z = L.id x := by rw [← E.owner_expand z y hyz, hyk, hk]
  rw [List.map_append, List.nodup_append] at hnodup
  exact hnodup.2.2 _ (List.mem_map_of_mem hz) _ (List.mem_map_of_mem List.mem_cons_self) hzx

variable {E} in
theorem goto_translate (hnodup : ((pre ++ x :: post).map L.id).Nodup) (hk : E.owner k = L.id x) {piece : List β}
    (hpiece : L'.find k (E.expand x) = some piece) (s : σ) :
    L'.goto (E.translate (pre ++ x :: post)) k s = .run (piece ++ E.translate post) s :=
  Language.goto_of_find ((find_translate hnodup hk).trans (Language.find_append_of_some hpiece))

variable [DecidableEq ι]

variable {E} in
theorem find_translate_none (h : L.find i code = none) : L'.find (E.old i) (E.translate code) = none := by
  rw [Language.find_eq_none] at h ⊢
  intro y hy hyi
  obtain ⟨z, hz, hyz⟩ := List.mem_flatMap.1 hy
  apply h z hz
  rw [← E.owner_expand z y hyz, hyi, E.owner_old]

def Does (code : List α) (x : α) (post : List α) (piece : List β) : Prop :=
  ∀ s, L'.Reaches (E.translate code) (L'.step (E.translate code) (.run (piece ++ E.translate post) s))
    (L'.resume (E.translate code) (E.translate post) ((L.exec x s).map id (Next.map E.old)))

def Targeted (L : Language α ι σ ε) (code : List α) (i : ι) : Prop := ∃ x ∈ code, ∃ s s', L.exec x s = (s', .goto i)

/-- The piece of each instruction does what the instruction did, also from the instruction if that is a target. -/
structure Correct (code : List α) : Prop where
  start : ∀ pre x post, code = pre ++ x :: post → E.Does code x post (E.expand x)
  entry : ∀ pre x post, code = pre ++ x :: post → Targeted L code (L.id x) →
    ∃ piece, L'.find (E.old (L.id x)) (E.expand x) = some piece ∧ E.Does code x post piece

/-- The two configurations are at the same instruction, in the same state. -/
inductive Matches (code : List α) : Config α ι σ ε → Config β κ σ ε → Prop where
  | start {pre rest : List α} {s : σ} (h : code = pre ++ rest) : Matches code (.run rest s) (.run (E.translate rest) s)
  | entry {pre post : List α} {x : α} {piece : List β} {s : σ} (h : code = pre ++ x :: post)
      (htarget : Targeted L code (L.id x)) (hpiece : L'.find (E.old (L.id x)) (E.expand x) = some piece) :
      Matches code (.run (x :: post) s) (.run (piece ++ E.translate post) s)
  | left {e : ε} {s : σ} : Matches code (.left e s) (.left e s)
  | missing {i : ι} {s : σ} : Matches code (.missing i s) (.missing (E.old i) s)

variable {E} {c : Config α ι σ ε} {d : Config β κ σ ε}

section

variable (hcorrect : E.Correct code) (hnodup : (code.map L.id).Nodup)

include hcorrect hnodup

theorem Matches.goto (htarget : Targeted L code i) (s : σ) :
    E.Matches code (L.goto code i s) (L'.goto (E.translate code) (E.old i) s) := by
  cases hfind : L.find i code with
  | none =>
    rw [Language.goto, Language.goto, hfind, find_translate_none hfind]
    exact .missing
  | some rest =>
    obtain ⟨pre, x, post, hcode, rfl, rfl⟩ := Language.find_eq_some hfind
    obtain ⟨piece, hpiece, -⟩ := hcorrect.entry pre x post hcode htarget
    have hgoto : L'.goto (E.translate code) (E.old (L.id x)) s = .run (piece ++ E.translate post) s := by
      rw [hcode] at hnodup ⊢
      exact goto_translate hnodup (E.owner_old _) hpiece s
    rw [Language.goto_of_find hfind, hgoto]
    exact .entry hcode htarget hpiece

theorem Matches.resume (hcode : code = pre ++ x :: post) (s : σ) :
    E.Matches code (L.resume code post (L.exec x s))
      (L'.resume (E.translate code) (E.translate post) ((L.exec x s).map id (Next.map E.old))) := by
  match hexec : L.exec x s with
  | (s', .fall) =>
    have hcode' : code = (pre ++ [x]) ++ post := by simp [hcode]
    exact .start hcode'
  | (s', .goto i) => exact .goto hcorrect hnodup ⟨x, by simp [hcode], s, s', hexec⟩ s'
  | (s', .leave e) => exact .left

theorem Matches.step (h : E.Matches code c d) :
    ∃ n, E.Matches code (L.step code c) ((L'.step (E.translate code))^[n + 1] d) := by
  have hdoes : ∀ pre x post piece s, code = pre ++ x :: post → E.Does code x post piece → ∃ n,
      E.Matches code (L.step code (.run (x :: post) s))
        ((L'.step (E.translate code))^[n + 1] (.run (piece ++ E.translate post) s)) := by
    intro pre x post piece s hcode hdoes
    obtain ⟨n, hn⟩ := hdoes s
    refine ⟨n, ?_⟩
    rw [Function.iterate_succ_apply, hn]
    exact .resume hcorrect hnodup hcode s
  cases h with
  | @start pre rest s hcode =>
    cases rest with
    | nil => exact ⟨0, .start hcode⟩
    | cons x post =>
      rw [translate_cons]
      exact hdoes pre x post _ s hcode (hcorrect.start pre x post hcode)
  | @entry pre post x piece s hcode htarget hpiece =>
    obtain ⟨piece', hpiece', hdoes'⟩ := hcorrect.entry pre x post hcode htarget
    cases hpiece.symm.trans hpiece'
    exact hdoes pre x post _ s hcode hdoes'
  | left => exact ⟨0, .left⟩
  | missing => exact ⟨0, .missing⟩

theorem Matches.iterate (h : E.Matches code c d) (n : Nat) :
    ∃ m ≥ n, E.Matches code ((L.step code)^[n] c) ((L'.step (E.translate code))^[m] d) := by
  induction n generalizing c d with
  | zero => exact ⟨0, Nat.le_refl 0, h⟩
  | succ n ih =>
    obtain ⟨k, hk⟩ := h.step hcorrect hnodup
    obtain ⟨m, hm, hmatch⟩ := ih hk
    refine ⟨m + (k + 1), by omega, ?_⟩
    rw [Function.iterate_succ_apply, Function.iterate_add_apply _ m (k + 1)]
    exact hmatch

end

end Expansion

end Code
