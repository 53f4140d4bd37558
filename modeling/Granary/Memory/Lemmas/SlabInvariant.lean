import Granary.Memory.Lemmas.Slabs
import Mathlib.Data.List.Perm.Subperm

/-!
# The invariant of the bump-pointer allocators

`BumpInv` holds in the middle of a call of CPU `i`: it may have one slab in hand that is on no list, and what it
remembers about its last allocation need not be up to date.
-/

namespace Granary.Memory

open Function (update update_apply update_of_ne update_self)

open Linked Outcome Ranges

variable {slab : BumpPointerSlab} {n m : Nat} {α : Type} {site : BumpAssert} {e : BumpAbort}

abbrev SlabLists (ι : Type) := SlabPlace ι → List SlabPtr

variable {ι : Type} {cfg : AllocatorConfig} {i : ι} {s s' : BumpState ι}
  {L L' : SlabLists ι} {F F' : Option SlabPtr} {p : SlabPtr} {env : BumpEnv} {fuel size : Nat}

def Clean (cfg : AllocatorConfig) (s : BumpState ι) (p : SlabPtr) : Prop :=
  ∀ a, (s.slabs p).memory + (s.slabs p).index ≤ a → a < (s.slabs p).memory + (s.slabs p).size →
    s.bytes a = cfg.memsetValue

def LastOk (s : BumpState ι) (j : ι) : Prop :=
  (s.allocator j).lastAllocationSize ≠ 0 → ∃ b ∈ s.live j, (s.allocator j).curr = some b.slab ∧
    b.addr = (s.allocator j).lastAllocation ∧ b.size = (s.allocator j).lastAllocationSize ∧
    b.addr + b.size = (s.slabs b.slab).memory + (s.slabs b.slab).index

structure BumpInv (cfg : AllocatorConfig) (i : ι) (s : BumpState ι) (L : SlabLists ι)
    (F : Option SlabPtr) : Prop where
  lists : Lists (nextOf s.slabs) s.heads L
  floating : ∀ p, F = some p → ∀ P, p ∉ L P
  owned : ∀ p, p ∈ s.made ↔ F = some p ∨ ∃ P, p ∈ L P
  bounds : ∀ p ∈ s.made, cfg.slabSize ≤ (s.slabs p).size ∧ (s.slabs p).size < 2 ^ 32 ∧
    cfg.baseAlign ∣ (s.slabs p).memory
  apart : ∀ p ∈ s.made, ∀ q ∈ s.made, p ≠ q →
    Apart (s.slabs p).memory (s.slabs p).size (s.slabs q).memory (s.slabs q).size
  kept : ∀ P, ∀ p ∈ L P, (s.slabs p).index + (s.slabs p).remaining = (s.slabs p).size
  clean : ∀ j, ∀ p ∈ L (.curr j), Clean cfg s p
  inside : ∀ j, ∀ b ∈ s.live j, InSlab s L j b
  disjoint : ∀ j, (s.live j).Pairwise fun b c => Apart b.addr b.size c.addr c.size
  last : ∀ j, j ≠ i → LastOk s j

theorem InSlab.advance {b : LiveAllocation} (h : InSlab s L i b)
    (hslabs : s'.slabs = update s.slabs p slab) (hmem : slab.memory = (s.slabs p).memory)
    (hidx : (s.slabs p).index ≤ slab.index) : InSlab s' L i b := by
  have hm := h.memory_le
  have hi := h.le_index
  refine ⟨h.mem, h.pos, ?_, ?_, h.dvd⟩ <;> rw [hslabs, update_apply] <;> split
  · rename_i hb
    rwa [hmem, ← hb]
  · exact hm
  · rename_i hb
    rw [hb] at hi
    omega
  · exact hi

namespace BumpInv

theorem mem_made (h : BumpInv cfg i s L F) {P : SlabPlace ι} (hp : p ∈ L P) : p ∈ s.made :=
  (h.owned p).mpr (Or.inr ⟨P, hp⟩)

/-! ## Ways to change a state -/

section

variable (h : BumpInv cfg i s L F)
include h

theorem relink (hdata : SameData s.slabs s'.slabs) (hbytes : s'.bytes = s.bytes)
    (hlive : s'.live = s.live) (hmade : s'.made = s.made) (hother : ∀ j, j ≠ i → s'.allocator j = s.allocator j)
    (hlists : Lists (nextOf s'.slabs) s'.heads L') (hfloating : ∀ p, F' = some p → ∀ P, p ∉ L' P)
    (howned : ∀ p, (F = some p ∨ ∃ P, p ∈ L P) ↔ F' = some p ∨ ∃ P, p ∈ L' P)
    (hkept : ∀ P, ∀ p ∈ L' P, (s.slabs p).index + (s.slabs p).remaining = (s.slabs p).size)
    (hclean : ∀ j, ∀ p ∈ L' (.curr j), Clean cfg s p) (hinside : ∀ j, ∀ b ∈ s.live j, b.slab ∈ L' (.curr j)) :
    BumpInv cfg i s' L' F' where
  lists := hlists
  floating := hfloating
  owned p := by rw [hmade, h.owned p, howned p]
  bounds p hp := by
    obtain ⟨hm, _, _, hs⟩ := hdata p
    rw [hm, hs]
    exact h.bounds p (hmade ▸ hp)
  apart p hp q hq hpq := by
    obtain ⟨hm, _, _, hs⟩ := hdata p
    obtain ⟨hm', _, _, hs'⟩ := hdata q
    rw [hm, hs, hm', hs']
    exact h.apart p (hmade ▸ hp) q (hmade ▸ hq) hpq
  kept P p hp := by
    obtain ⟨_, hi, hr, hs⟩ := hdata p
    rw [hi, hr, hs]
    exact hkept P p hp
  clean j p hp a := by
    obtain ⟨hm, hi, _, hs⟩ := hdata p
    rw [hm, hi, hs, hbytes]
    exact hclean j p hp a
  inside j b hb := by
    rw [hlive] at hb
    have hin := h.inside j b hb
    obtain ⟨hm, hi, _, _⟩ := hdata b.slab
    refine ⟨hinside j b hb, hin.pos, ?_, ?_, hin.dvd⟩
    · rw [hm]; exact hin.memory_le
    · rw [hm, hi]; exact hin.le_index
  disjoint j := by rw [hlive]; exact h.disjoint j
  last j hj := by
    unfold LastOk
    rw [hother j hj, hlive]
    intro hne
    obtain ⟨b, hb, hc, ha, hsz, he⟩ := h.last j hj hne
    obtain ⟨hm, hi, _, _⟩ := hdata b.slab
    exact ⟨b, hb, hc, ha, hsz, by rw [hm, hi]; exact he⟩

theorem reuse (hp : p ∈ L (.curr i)) (hslabs : s'.slabs = update s.slabs p slab) (hnext : slab.next = (s.slabs p).next)
    (hmem : slab.memory = (s.slabs p).memory) (hsize : slab.size = (s.slabs p).size)
    (hkept : slab.index + slab.remaining = slab.size) (hmade : s'.made = s.made) (hheads : s'.heads = s.heads)
    (hother : ∀ j, j ≠ i → s'.allocator j = s.allocator j ∧ s'.live j = s.live j)
    (hbytes : ∀ a, a < slab.memory ∨ slab.memory + slab.size ≤ a → s'.bytes a = s.bytes a) (hclean : Clean cfg s' p)
    (hinside : ∀ b ∈ s'.live i, InSlab s' L i b)
    (hdisjoint : (s'.live i).Pairwise fun b c => Apart b.addr b.size c.addr c.size) : BumpInv cfg i s' L F := by
  have hpm := h.mem_made hp
  have hself : s'.slabs p = slab := by rw [hslabs, update_self]
  have hne : ∀ q, q ≠ p → s'.slabs q = s.slabs q := fun q hq => by rw [hslabs, update_of_ne hq]
  have hdata : ∀ q, (s'.slabs q).next = (s.slabs q).next ∧ (s'.slabs q).memory = (s.slabs q).memory ∧
      (s'.slabs q).size = (s.slabs q).size := by
    intro q
    by_cases hq : q = p
    · subst hq
      rw [hself]
      exact ⟨hnext, hmem, hsize⟩
    · rw [hne q hq]
      exact ⟨rfl, rfl, rfl⟩
  -- the slab is on a list of this CPU, so it is not a current slab of another one
  have hcurr : ∀ j, j ≠ i → ∀ q ∈ L (.curr j), q ≠ p := by
    rintro j hj q hq rfl
    cases h.lists.place hq hp
    exact hj rfl
  constructor
  case lists =>
    rw [hheads]
    exact h.lists.congr fun _ q _ => (hdata q).1
  case floating => exact h.floating
  case owned => rw [hmade]; exact h.owned
  case bounds =>
    intro q hq
    rw [(hdata q).2.1, (hdata q).2.2]
    exact h.bounds q (hmade ▸ hq)
  case apart =>
    intro q hq r hr hqr
    rw [(hdata q).2.1, (hdata q).2.2, (hdata r).2.1, (hdata r).2.2]
    exact h.apart q (hmade ▸ hq) r (hmade ▸ hr) hqr
  case kept =>
    intro P q hq
    by_cases hqp : q = p
    · subst hqp
      rw [hself]
      exact hkept
    · rw [hne q hqp]
      exact h.kept P q hq
  case clean =>
    intro j q hq
    by_cases hqp : q = p
    · subst hqp
      exact hclean
    · intro a hlo hhi
      rw [hne q hqp] at hlo hhi
      rw [hbytes a, h.clean j q hq a hlo hhi]
      have := h.apart q (h.mem_made hq) p hpm hqp
      have := h.kept _ q hq
      rw [hmem, hsize]
      unfold Apart at *
      omega
  case inside =>
    intro j b hb
    by_cases hj : j = i
    · subst hj
      exact hinside b hb
    · rw [(hother j hj).2] at hb
      have hin := h.inside j b hb
      have hbp := hcurr j hj _ hin.mem
      exact ⟨hin.mem, hin.pos, by rw [hne _ hbp]; exact hin.memory_le, by rw [hne _ hbp]; exact hin.le_index, hin.dvd⟩
  case disjoint =>
    intro j
    by_cases hj : j = i
    · subst hj
      exact hdisjoint
    · rw [(hother j hj).2]
      exact h.disjoint j
  case last =>
    intro j hj
    unfold LastOk
    rw [(hother j hj).1, (hother j hj).2]
    intro hn
    obtain ⟨b, hb, hc, ha, hsz, he⟩ := h.last j hj hn
    exact ⟨b, hb, hc, ha, hsz, by rw [hne _ (hcurr j hj _ (h.inside j b hb).mem)]; exact he⟩

theorem hold (hpL : ∀ P, p ∉ L P) (hF : F = none ∨ F = some p) (hslabs : s'.slabs = update s.slabs p slab)
    (hmade : ∀ q, q ∈ s'.made ↔ q = p ∨ q ∈ s.made) (hheads : s'.heads = s.heads) (hlive : s'.live = s.live)
    (hallocator : s'.allocator = s.allocator)
    (hbounds : cfg.slabSize ≤ slab.size ∧ slab.size < 2 ^ 32 ∧ cfg.baseAlign ∣ slab.memory)
    (hapart : ∀ q ∈ s.made, q ≠ p → Apart slab.memory slab.size (s.slabs q).memory (s.slabs q).size)
    (hbytes : ∀ a, a < slab.memory ∨ slab.memory + slab.size ≤ a → s'.bytes a = s.bytes a) : BumpInv cfg i s' L (some p) := by
  have hself : s'.slabs p = slab := by rw [hslabs, update_self]
  have hne : ∀ q, q ≠ p → s'.slabs q = s.slabs q := fun q hq => by rw [hslabs, update_of_ne hq]
  have hL : ∀ {P q}, q ∈ L P → q ≠ p := fun hq he => hpL _ (he ▸ hq)
  constructor
  case lists =>
    rw [hheads]
    exact h.lists.congr fun P q hq => by rw [nextOf, nextOf, hne q (hL hq)]
  case floating => rintro q ⟨⟩; exact hpL
  case owned =>
    intro q
    rw [hmade q, h.owned q]
    rcases hF with rfl | rfl <;> simp [eq_comm]
  case bounds =>
    intro q hq
    by_cases hqp : q = p
    · subst hqp; rw [hself]; exact hbounds
    · rw [hne q hqp]; exact h.bounds q (((hmade q).mp hq).resolve_left hqp)
  case apart =>
    intro q hq r hr hqr
    by_cases hqp : q = p
    · subst hqp
      have hr := ((hmade r).mp hr).resolve_left (Ne.symm hqr)
      rw [hself, hne r (Ne.symm hqr)]
      exact hapart r hr (Ne.symm hqr)
    · have hq := ((hmade q).mp hq).resolve_left hqp
      by_cases hrp : r = p
      · subst hrp
        rw [hself, hne q hqp]
        exact (hapart q hq hqp).symm
      · rw [hne q hqp, hne r hrp]
        exact h.apart q hq r (((hmade r).mp hr).resolve_left hrp) hqr
  case kept =>
    intro P q hq
    rw [hne q (hL hq)]
    exact h.kept P q hq
  case clean =>
    intro j q hq a hlo hhi
    rw [hne q (hL hq)] at hlo hhi
    rw [hbytes a, h.clean j q hq a hlo hhi]
    have := hapart q (h.mem_made hq) (hL hq)
    unfold Apart at this
    omega
  case inside =>
    intro j b hb
    rw [hlive] at hb
    have hin := h.inside j b hb
    have hb' := hne b.slab (hL hin.mem)
    exact ⟨hin.mem, hin.pos, by rw [hb']; exact hin.memory_le, by rw [hb']; exact hin.le_index, hin.dvd⟩
  case disjoint => rw [hlive]; exact h.disjoint
  case last =>
    intro j hj
    unfold LastOk
    rw [hlive, hallocator]
    intro hn
    obtain ⟨b, hb, hc, ha, hsz, he⟩ := h.last j hj hn
    exact ⟨b, hb, hc, ha, hsz, by rw [hne _ (hL (h.inside j b hb).mem)]; exact he⟩

theorem advance (hp : p ∈ L (.curr i)) {r : Nat} (hn : (s.slabs p).index ≤ n) (hr : n + r = (s.slabs p).size) :
    BumpInv cfg i (s.setSlab p { s.slabs p with index := n, remaining := r }) L F := by
  refine h.reuse hp rfl rfl rfl rfl hr rfl rfl (fun _ _ => ⟨rfl, rfl⟩) (fun _ _ => rfl) ?_ ?_ (h.disjoint i)
  · intro a hlo hhi
    simp only [BumpState.setSlab, update_self] at hlo hhi
    exact h.clean i p hp a (by omega) hhi
  · exact fun b hb => (h.inside i b hb).advance rfl rfl hn

theorem curr_cons (hc : (s.allocator i).curr = some p) : ∃ l, L (.curr i) = p :: l := by
  have hchain := h.lists.chain (.curr i)
  rw [show s.heads (.curr i) = some p from hc] at hchain
  exact hchain.exists_cons

theorem curr_mem (hc : (s.allocator i).curr = some p) : p ∈ L (.curr i) := by
  obtain ⟨l, hl⟩ := h.curr_cons hc
  simp [hl]

end

end BumpInv

theorem assert_bind {P : Prop} [Decidable P] (h : P) (f : Unit → Except BumpAbort α) : (assert site P >>= f) = f () := by
  rw [assert, if_pos h]
  rfl

theorem ends_assert {E : BumpAbort → Prop} {Q : α → Prop} {P : Prop} [Decidable P]
    {f : Unit → Except BumpAbort α} (h : P) (hf : Ends E Q (f ())) : Ends E Q (assert site P >>= f) := by
  rw [assert_bind h]
  exact hf

def Stuck (fuel n : Nat) (e : BumpAbort) : Prop := e = .running ∧ fuel ≤ n

def MayStop (env : BumpEnv) (fuel n : Nat) (e : BumpAbort) : Prop := e = .fault ∧ env.fresh = none ∨ Stuck fuel n e

theorem Stuck.mayStop (hnm : n ≤ m) (h : Stuck fuel n e) : MayStop env fuel m e :=
  .inr ⟨h.1, Nat.le_trans h.2 hnm⟩

theorem MayStop.mono (hnm : n ≤ m) (h : MayStop env fuel n e) : MayStop env fuel m e :=
  h.imp_right fun hr => ⟨hr.1, Nat.le_trans hr.2 hnm⟩

theorem BumpInv.length_le (h : BumpInv cfg i s L F) (P : SlabPlace ι) : (L P).length ≤ s.made.length :=
  (List.subperm_of_subset (h.lists.chain P).nodup fun _ hp => h.mem_made hp).length_le

end Granary.Memory
