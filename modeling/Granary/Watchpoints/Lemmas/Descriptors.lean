import Granary.Watchpoints.Descriptors

/-!
# Free lists of descriptors
-/

namespace Granary.Watchpoints

open Function (update update_of_ne update_self)

open Machine

def pointer (p : Word) : Option Word := if p = 0 then none else some p

theorem pointer_of_ne {p : Word} (h : p ≠ 0) : pointer p = some p := if_neg h

section Table

variable {kernel : Bool} {T : DescriptorTable kernel} {i j : Word}

section

variable (hi : i.toNat < maxNumWatchpoints)

include hi

theorem DescriptorTable.entry_ne_zero : T.entry i ≠ 0 := by
  intro h
  have hvalid := T.valid i hi
  rw [show T.base + 16 * i = 0 from h] at hvalid
  cases kernel <;> exact absurd hvalid (by decide)

theorem DescriptorTable.indexOf_entry : T.indexOf (T.entry i) = i := by
  have hlt : i.toNat < 0x8000 := hi
  have hsub : T.entry i - T.base = 16 * i := by
    rw [DescriptorTable.entry, BitVec.add_comm, BitVec.add_sub_cancel]
  have hmul : (16 * i).toNat = 16 * i.toNat := by
    rw [BitVec.toNat_mul]
    exact Nat.mod_eq_of_lt (by change 16 * i.toNat < 2 ^ 64; omega)
  have hmsb : (16 * i).msb = false := by
    rw [BitVec.msb_eq_decide, decide_eq_false_iff_not, hmul]
    omega
  apply BitVec.eq_of_toNat_eq
  rw [DescriptorTable.indexOf, hsub, BitVec.sshiftRight_eq_of_msb_false hmsb, BitVec.toNat_ushiftRight, hmul,
    Nat.shiftRight_eq_div_pow]
  omega

theorem DescriptorTable.entry_inj (hj : j.toNat < maxNumWatchpoints)
    (h : T.entry i = T.entry j) : i = j := by
  rw [← T.indexOf_entry hi, h, T.indexOf_entry hj]

theorem DescriptorTable.access_eq : T.access i = .ok (T.entry i) := by
  rw [DescriptorTable.access, boundCheck, if_pos hi]
  rfl

end

end Table

/-! ## The invariant -/

variable {kernel : Bool} {T : DescriptorTable kernel} {Cpu : Type} {s s' : BoundSystem Cpu} {c : Cpu}

structure BoundInv (T : DescriptorTable kernel) (s : BoundSystem Cpu) (L : Cpu → List Word) : Prop where
  lists : Linked.Lists (fun d => pointer (s.state.link d)) (fun c => pointer (s.state.freeList c)) L
  next_le : s.state.nextCounterIndex.toNat ≤ maxNumWatchpoints
  free : ∀ c, ∀ d ∈ L c, ∃ i : Word, i.toNat < s.state.nextCounterIndex.toNat ∧ d = T.entry i ∧ s.live i = none
  live : ∀ i d, s.live i = some d → i.toNat < s.state.nextCounterIndex.toNat ∧ d = T.entry i

theorem BoundInv.init (link : Word → Word) : BoundInv T (.init link : BoundSystem Cpu) fun _ => [] where
  lists := ⟨fun _ => rfl, fun h => (nomatch h)⟩
  next_le := Nat.zero_le _
  free _ _ h := nomatch h
  live _ _ h := nomatch h

section Allocate

variable [DecidableEq Cpu] {L : Cpu → List Word}

theorem BoundInv.allocate_free (h : BoundInv T s L) (hne : s.state.freeList c ≠ 0) :
    ∃ i l, T.allocate c s.state =
        .ok ({ s.state with freeList := update s.state.freeList c (s.state.link (T.entry i)) },
          some (T.entry i, i)) ∧
      L c = T.entry i :: l ∧ i.toNat < s.state.nextCounterIndex.toNat ∧ s.live i = none := by
  have hchain := h.lists.chain c
  rw [pointer_of_ne hne] at hchain
  obtain ⟨l, hl⟩ := hchain.exists_cons
  obtain ⟨i, hi, hd, hlive⟩ := h.free c (s.state.freeList c) (by simp [hl])
  have hi' : i.toNat < maxNumWatchpoints := Nat.lt_of_lt_of_le hi h.next_le
  refine ⟨i, l, ?_, by rw [hl, hd], hi, hlive⟩
  have hmax : i ≤ maxCounterIndex := BitVec.le_def.mpr (Nat.le_of_lt_succ hi')
  simp only [DescriptorTable.allocate, hd, if_pos (T.entry_ne_zero hi'), T.indexOf_entry hi', boundCheck, if_pos hmax,
    if_pos (Nat.le_of_lt hi')]
  rfl

theorem DescriptorTable.allocate_fresh {state : BoundState Cpu} (hzero : state.freeList c = 0)
    (hlt : state.nextCounterIndex.toNat < maxNumWatchpoints) :
    T.allocate c state = .ok ({ state with nextCounterIndex := state.nextCounterIndex + 1 },
      some (T.entry state.nextCounterIndex, state.nextCounterIndex)) := by
  have hmax : state.nextCounterIndex ≤ Watchpoints.maxCounterIndex := BitVec.le_def.mpr (Nat.le_of_lt_succ hlt)
  simp only [DescriptorTable.allocate, ne_eq, hzero, not_true_eq_false, if_neg (Nat.not_lt.mpr (Nat.le_of_lt hlt)),
    boundCheck, if_pos hmax, if_pos (Nat.le_of_lt hlt), ↓reduceIte]
  rfl

theorem DescriptorTable.allocate_end {state : BoundState Cpu} (hzero : state.freeList c = 0)
    (heq : state.nextCounterIndex.toNat = maxNumWatchpoints) : T.allocate c state = .error .maxCounterIndex := by
  have hmax : ¬ state.nextCounterIndex ≤ Watchpoints.maxCounterIndex := by
    rw [BitVec.le_def, heq]
    decide
  simp only [DescriptorTable.allocate, ne_eq, hzero, not_true_eq_false, heq, Nat.lt_irrefl, boundCheck, hmax, ↓reduceIte]
  rfl

end Allocate

section Steps

variable [DecidableEq Cpu] {L : Cpu → List Word} {i d : Word}

omit [DecidableEq Cpu] in
theorem pointer_update {α : Type} [DecidableEq α] (f : α → Word) (a : α) (v : Word) :
    (fun x => pointer (update f a v x)) = update (fun x => pointer (f x)) a (pointer v) :=
  Function.comp_update pointer f a v

omit [DecidableEq Cpu] in
theorem BoundInv.not_mem_of_live (h : BoundInv T s L) (hlive : s.live i = some d) (c : Cpu) : d ∉ L c := by
  intro hmem
  obtain ⟨hi, hd⟩ := h.live i d hlive
  obtain ⟨j, hj, hd', hnone⟩ := h.free c d hmem
  have hij : i = j := T.entry_inj (Nat.lt_of_lt_of_le hi h.next_le) (Nat.lt_of_lt_of_le hj h.next_le) (hd.symm.trans hd')
  rw [hij, hnone] at hlive
  cases hlive

theorem BoundInv.take (h : BoundInv T s L) {l : List Word} (hl : L c = T.entry i :: l)
    (hi : i.toNat < s.state.nextCounterIndex.toNat) :
    BoundInv T { state := { s.state with freeList := update s.state.freeList c (s.state.link (T.entry i)) }
                 live := update s.live i (some (T.entry i)) } (update L c l) where
  lists := by
    have hchain := h.lists.chain c
    rw [hl] at hchain
    rw [pointer_update]
    exact h.lists.shrink hchain.2 (fun d hd => by simp [hl, hd]) fun _ _ => rfl
  next_le := h.next_le
  free c' d hd := by
    have hperm : (L c).Perm (T.entry i :: l) := List.Perm.of_eq hl
    obtain ⟨j, hj, hentry, hnone⟩ := h.free c' d ((Linked.mem_iff_of_perm hperm).mpr (.inl hd))
    have hne : j ≠ i := by
      rintro rfl
      exact h.lists.not_mem_of_perm hperm c' (hentry ▸ hd)
    exact ⟨j, hj, hentry, (update_of_ne hne _ _).trans hnone⟩
  live j d hd := by
    change update s.live i (some (T.entry i)) j = some d at hd
    by_cases hji : j = i
    · subst hji
      rw [update_self] at hd
      cases hd
      exact ⟨hi, rfl⟩
    · rw [update_of_ne hji] at hd
      exact h.live j d hd

omit [DecidableEq Cpu] in
theorem BoundInv.fresh (h : BoundInv T s L) (hlt : s.state.nextCounterIndex.toNat < maxNumWatchpoints) :
    BoundInv T { state := { s.state with nextCounterIndex := s.state.nextCounterIndex + 1 }
                 live := update s.live s.state.nextCounterIndex
                   (some (T.entry s.state.nextCounterIndex)) } L := by
  have hnext : (s.state.nextCounterIndex + 1).toNat = s.state.nextCounterIndex.toNat + 1 := by
    have : s.state.nextCounterIndex.toNat < 0x8000 := hlt
    rw [BitVec.toNat_add]
    exact Nat.mod_eq_of_lt (by change _ + 1 < 2 ^ 64; omega)
  refine ⟨h.lists, Nat.le_trans (Nat.le_of_eq hnext) hlt, fun c d hd => ?_, fun j d hd => ?_⟩
  · obtain ⟨j, hj, hentry, hnone⟩ := h.free c d hd
    have hne : j ≠ s.state.nextCounterIndex := by
      rintro rfl
      exact Nat.lt_irrefl _ hj
    exact ⟨j, Nat.lt_of_lt_of_eq (Nat.lt_succ_of_lt hj) hnext.symm, hentry, (update_of_ne hne _ _).trans hnone⟩
  · change update s.live s.state.nextCounterIndex (some (T.entry s.state.nextCounterIndex)) j = some d at hd
    change j.toNat < (s.state.nextCounterIndex + 1).toNat ∧ _
    rw [hnext]
    by_cases hj : j = s.state.nextCounterIndex
    · rw [hj, update_self] at hd
      cases hd
      rw [hj]
      exact ⟨Nat.lt_succ_self _, rfl⟩
    · rw [update_of_ne hj] at hd
      exact ⟨Nat.lt_succ_of_lt (h.live j d hd).1, (h.live j d hd).2⟩

omit [DecidableEq Cpu] in
theorem BoundInv.setReturnAddress (h : BoundInv T s L) (hlive : s.live i = some d) (v : Word) :
    BoundInv T { s with state := { s.state with link := update s.state.link d v } } L where
  __ := h
  lists := by
    refine h.lists.congr fun c a ha => ?_
    have hne : a ≠ d := by
      rintro rfl
      exact h.not_mem_of_live hlive c ha
    exact congrArg pointer (update_of_ne hne _ _)

theorem BoundInv.giveBack (h : BoundInv T s L) (hlive : s.live i = some d) :
    BoundInv T { state := { s.state with
                            link := update s.state.link d (s.state.freeList c)
                            freeList := update s.state.freeList c d }
                 live := update s.live i none } (update L c (d :: L c)) := by
  obtain ⟨hi, hd⟩ := h.live i d hlive
  have hi' : i.toNat < maxNumWatchpoints := Nat.lt_of_lt_of_le hi h.next_le
  have hne : d ≠ 0 := by
    rw [hd]
    exact T.entry_ne_zero hi'
  refine ⟨?_, h.next_le, fun c' d' hd' => ?_, fun j d' hj => ?_⟩
  · rw [pointer_update, pointer_update, pointer_of_ne hne]
    exact h.lists.push (h.not_mem_of_live hlive) c
  · rcases Linked.mem_update_cons.mp hd' with hmem | ⟨_, rfl⟩
    · obtain ⟨j, hj, hentry, hnone⟩ := h.free c' d' hmem
      refine ⟨j, hj, hentry, ?_⟩
      by_cases hji : j = i
      · rw [hji]
        exact update_self _ _ _
      · exact (update_of_ne hji _ _).trans hnone
    · exact ⟨i, hi, hd, update_self _ _ _⟩
  · change update s.live i none j = some d' at hj
    by_cases hji : j = i
    · rw [hji, update_self] at hj
      cases hj
    · rw [update_of_ne hji] at hj
      exact h.live j d' hj

theorem BoundInv.free_ok (h : BoundInv T s L) (hlive : s.live i = some d) :
    T.free c d i s.state = .ok { s.state with
      link := update s.state.link d (s.state.freeList c)
      freeList := update s.state.freeList c d } := by
  obtain ⟨hi, hd⟩ := h.live i d hlive
  have hi' : i.toNat < maxNumWatchpoints := Nat.lt_of_lt_of_le hi h.next_le
  have hvalid : isValidAddress kernel d = true := by
    rw [hd]
    exact T.valid i hi'
  have hindex : i = T.indexOf d := by rw [hd, T.indexOf_entry hi']
  rw [DescriptorTable.free, boundCheck, boundCheck, if_pos hvalid, if_pos hindex]
  rfl

theorem BoundInv.step (h : BoundInv T s L) (hs : BoundStep T s s') : ∃ L', BoundInv T s' L' := by
  cases hs with
  | allocate c state desc index hok =>
    by_cases hzero : s.state.freeList c = 0
    · rcases Nat.lt_or_eq_of_le h.next_le with hlt | heq
      · rw [DescriptorTable.allocate_fresh hzero hlt] at hok
        cases hok
        exact ⟨L, h.fresh hlt⟩
      · rw [DescriptorTable.allocate_end hzero heq] at hok
        cases hok
    · obtain ⟨i, l, hfree, hl, hi, _⟩ := h.allocate_free hzero
      rw [hfree] at hok
      cases hok
      exact ⟨_, h.take hl hi⟩
  | allocateFails c state hok =>
    by_cases hzero : s.state.freeList c = 0
    · rcases Nat.lt_or_eq_of_le h.next_le with hlt | heq
      · rw [DescriptorTable.allocate_fresh hzero hlt] at hok
        cases hok
      · rw [DescriptorTable.allocate_end hzero heq] at hok
        cases hok
    · obtain ⟨i, l, hfree, _⟩ := h.allocate_free hzero
      rw [hfree] at hok
      cases hok
  | setReturnAddress desc index retAddress hlive => exact ⟨L, h.setReturnAddress hlive retAddress⟩
  | free c desc index state hlive hok =>
    rw [h.free_ok hlive] at hok
    cases hok
    exact ⟨_, h.giveBack hlive⟩

theorem BoundReachable.inv (h : BoundReachable T s) : ∃ L, BoundInv T s L := by
  induction h with
  | init link => exact ⟨_, BoundInv.init link⟩
  | step _ hs ih =>
    obtain ⟨L, hL⟩ := ih
    exact hL.step hs

theorem BoundReachable.exists_fresh (link : Word → Word) (c : Cpu) {n : Nat} (hn : n ≤ maxNumWatchpoints) :
    ∃ s, BoundReachable T s ∧ s.state.freeList c = 0 ∧ s.state.nextCounterIndex.toNat = n := by
  induction n with
  | zero => exact ⟨_, .init link, rfl, rfl⟩
  | succ n ih =>
    obtain ⟨s, hs, hzero, hnext⟩ := ih (Nat.le_of_lt hn)
    have hlt : s.state.nextCounterIndex.toNat < maxNumWatchpoints := by rw [hnext]; exact hn
    refine ⟨_, hs.step (.allocate c _ _ _ (DescriptorTable.allocate_fresh hzero hlt)), hzero, ?_⟩
    have : n < 0x8000 := hn
    change (s.state.nextCounterIndex + 1).toNat = n + 1
    rw [BitVec.toNat_add, hnext]
    exact Nat.mod_eq_of_lt (by change n + 1 < 2 ^ 64; omega)

end Steps

end Granary.Watchpoints
