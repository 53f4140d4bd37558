import Granary.Debug.TraceLog

/-!
# Every entry is in the trace log
-/

namespace Granary.Debug

open Linked Function

attribute [local simp] TraceLog.goto TraceLog.init TracePc.item
attribute [local grind =] TracePc.item

variable {τ : Type} {s s' : TraceLog τ} {l : List Nat} {t u : τ} {pc : TracePc} {capacity a b : Nat}

/-- The log is a list of items that threads have added, and each other item is in the hands of its thread. -/
structure Logged (s : TraceLog τ) (l : List Nat) : Prop where
  chain : Chain s.prev s.trace l
  items : ∀ a, a < s.calls.length ↔ a ∈ l ∨ ∃ t, (s.pc t).item = some a
  order : l.Pairwise fun a b => s.calls[a]? = s.calls[b]? → b < a
  hand : ∀ t a, (s.pc t).item = some a → a ∉ l ∧ s.calls[a]? = some t ∧ ∀ b ∈ l, s.calls[b]? = some t → b < a
  linked : ∀ t a p, s.pc t = .exchange a p → s.prev a = p

theorem Logged.ne_of_ne (h : Logged s l) (hu : u ≠ t) (ha : (s.pc u).item = some a) (hb : (s.pc t).item = some b) :
    a ≠ b := by
  rintro rfl
  exact hu (Option.some.inj ((h.hand u a ha).2.1.symm.trans (h.hand t a hb).2.1))

variable [DecidableEq τ]

@[grind =] theorem goto_prev : (s.goto t pc).prev = s.prev := rfl

@[grind =] theorem goto_calls : (s.goto t pc).calls = s.calls := rfl

@[grind =] theorem goto_pc : (s.goto t pc).pc u = if u = t then pc else s.pc u := update_apply ..

/-- A thread may change the link of its own item. -/
theorem Logged.move (h : Logged s l) (hitem : pc.item = (s.pc t).item) (prev : Nat → Option Nat)
    (hprev : ∀ a, (s.pc t).item ≠ some a → prev a = s.prev a) (hlinked : ∀ a p, pc = .exchange a p → prev a = p) :
    Logged { s.goto t pc with prev := prev } l := by
  have hitems : ∀ u, ((s.goto t pc).pc u).item = (s.pc u).item := by grind
  refine ⟨h.chain.congr fun a ha => hprev a fun hta => (h.hand t a hta).1 ha, ?_, h.order, ?_, fun u a p hu => ?_⟩
  · simpa only [hitems, goto_calls] using h.items
  · simpa only [hitems, goto_calls] using h.hand
  · by_cases hut : u = t
    · exact hlinked a p (by grind)
    · have hu : s.pc u = .exchange a p := by grind
      exact (hprev a fun hta => h.ne_of_ne hut (by rw [hu]; rfl) hta rfl).trans (h.linked u a p hu)

theorem Logged.fetchAdd (h : Logged s l) (hpc : s.pc t = .idle) :
    Logged { s.goto t (.load s.calls.length) with calls := s.calls ++ [t] } l := by
  obtain ⟨hchain, hitems, horder, hhand, hlinked⟩ := h
  refine ⟨hchain, fun a => ?_, horder.imp_of_mem ?_, ?_, ?_⟩
  · simp only [goto_pc]
    grind
  all_goals grind

theorem Logged.exchange (h : Logged s l) (hpc : s.pc t = .exchange a s.trace) :
    Logged { s.goto t .idle with trace := some a } (a :: l) := by
  have hchain := h.chain
  rw [← h.linked t a _ hpc] at hchain
  obtain ⟨-, hitems, horder, hhand, hlinked⟩ := h
  refine ⟨⟨rfl, hchain⟩, fun b => ?_, List.pairwise_cons.mpr ⟨?_, horder⟩, ?_, ?_⟩
  · simp only [goto_pc, goto_calls]
    grind
  all_goals grind

theorem TraceStep.length_le (h : TraceStep capacity s s') : s.calls.length ≤ s'.calls.length := by
  cases h <;> simp

theorem Logged.step (h : Logged s l) (hs : TraceStep capacity s s') (hcap : s'.calls.length ≤ capacity) :
    ∃ l', Logged s' l' := by
  cases hs with
  | fetchAdd t hpc =>
    have hlt : s.calls.length < capacity := by simpa [Nat.succ_le_iff] using hcap
    rw [TraceLog.numTraceEntries, Nat.mod_eq_of_lt hlt]
    exact ⟨l, h.fetchAdd hpc⟩
  | load t a hpc | fail t a p hpc => exact ⟨l, h.move (by rw [hpc]; rfl) s.prev (fun _ _ => rfl) nofun⟩
  | link t a p hpc =>
    refine ⟨l, h.move (by rw [hpc]; rfl) _ (fun b hb => update_of_ne ?_ _ _) ?_⟩
    · rintro rfl
      exact hb (by rw [hpc]; rfl)
    · rintro _ _ ⟨⟩
      exact update_self ..
  | exchange t a hpc => exact ⟨_, h.exchange hpc⟩

theorem Logged.of_run (hrun : Relation.ReflTransGen (TraceStep capacity) .init s) (hcap : s.calls.length ≤ capacity) :
    ∃ l, Logged s l := by
  induction hrun with
  | refl => exact ⟨[], by constructor <;> simp⟩
  | tail _ hs ih =>
    obtain ⟨l, h⟩ := ih (Nat.le_trans hs.length_le hcap)
    exact h.step hs hcap

/-- Once all calls are done, the log holds the item of each call exactly once, and those of a thread newest first. -/
theorem traceLog_holds_all_entries (hrun : Relation.ReflTransGen (TraceStep capacity) .init s)
    (hcap : s.calls.length ≤ capacity) (hdone : ∀ t, s.pc t = .idle) :
    ∃ l, Chain s.prev s.trace l ∧ l.Perm (List.range s.calls.length) ∧
      l.Pairwise fun a b => s.calls[a]? = s.calls[b]? → b < a := by
  obtain ⟨l, h⟩ := Logged.of_run hrun hcap
  refine ⟨l, h.chain, (List.perm_ext_iff_of_nodup h.chain.nodup List.nodup_range).mpr fun a => ?_, h.order⟩
  rw [List.mem_range, h.items]
  simp [hdone]

open Relation.ReflTransGen in
/-- Two threads take their items one after the other, and the one that was first has to try twice. -/
theorem traceLog_holds_two_threads :
    ∃ s : TraceLog Bool, s.calls = [false, true] ∧ ∃ l, Chain s.prev s.trace l ∧ l.Perm (List.range s.calls.length) ∧
      l.Pairwise fun a b => s.calls[a]? = s.calls[b]? → b < a := by
  have hitems := (single (.fetchAdd false rfl : TraceStep 2 .init _)).tail (.fetchAdd true rfl)
  have hloads := (hitems.tail (.load false 0 rfl)).tail (.load true 1 rfl)
  have hlinks := (hloads.tail (.link false 0 none rfl)).tail (.link true 1 none rfl)
  have hfirst := (hlinks.tail (.exchange true 1 rfl)).tail (.fail false 0 none rfl)
  have hall := ((hfirst.tail (.load false 0 rfl)).tail (.link false 0 (some 1) rfl)).tail (.exchange false 0 rfl)
  refine ⟨_, rfl, traceLog_holds_all_entries hall (by decide) fun t => ?_⟩
  cases t <;> rfl

end Granary.Debug
