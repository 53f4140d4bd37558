import Granary.Fragments.Translate
import Granary.Memory.Lemmas.Release

/-!
# The slabs of the fragment allocators

Between the calls of a translation each current slab is in use, and a slab in use has less than a page left: it was
taken for a trace that needs all of its pages. Memory that is given back leaves only padding behind.
-/

namespace Granary.Fragments

open Memory Outcome Ranges List Nat

variable {ι : Type} {cfg : AllocatorConfig} {r : ExecRegion} {i : ι} {s s' s₁ s₂ : BumpState ι}
  {L L' L₁ : SlabLists ι} {env : BumpEnv} {offers : List (BumpEnv × Nat)} {p q : SlabPtr}
  {b : LiveAllocation} {fuel n size : Nat}

/-! ## New memory -/

structure Grew (env : BumpEnv) (n : Nat) (s s' : BumpState ι) : Prop where
  regions : ∀ q ∈ s.made, (s'.slabs q).memory = (s.slabs q).memory ∧ (s'.slabs q).size = (s.slabs q).size
  made : s'.made = s.made ∨ ∃ p, s'.made = p :: s.made ∧ env.fresh = some (p, (s'.slabs p).memory) ∧ (s'.slabs p).size = n

theorem Grew.made_le (h : Grew env n s s') : s'.made.length ≤ s.made.length + 1 := by
  obtain hm | ⟨p, hm, _⟩ := h.made
  · rw [hm]
    exact le_succ _
  · rw [hm]
    exact le_refl _

theorem Grew.mem (h : Grew env n s s') (hq : q ∈ s.made) : q ∈ s'.made := by
  obtain hm | ⟨p, hm, _⟩ := h.made
  · rwa [hm]
  · rw [hm]
    exact mem_cons_of_mem _ hq

theorem grew_of_regions (h : SameRegions s s') : Grew env n s s' := ⟨fun q _ => h.2 q, .inl h.1⟩

theorem Grew.then (h : Grew env n s s₁) (h' : SameRegions s₁ s') : Grew env n s s' where
  regions q hq := ⟨(h'.2 q).1.trans (h.regions q hq).1, (h'.2 q).2.trans (h.regions q hq).2⟩
  made := by
    obtain hm | ⟨p, hm, hf, hs⟩ := h.made
    · exact .inl (h'.1.trans hm)
    · exact .inr ⟨p, h'.1.trans hm, by rw [(h'.2 p).1]; exact hf, (h'.2 p).2.trans hs⟩

theorem grew_of_origin (h : Origin env i s L n p s')
    (hothers : ∀ q, q ≠ p → (s'.slabs q).memory = (s.slabs q).memory ∧ (s'.slabs q).size = (s.slabs q).size) :
    Grew env n s s' := by
  cases h with
  | recycled P _ hp hm hmem hsize _ =>
    refine ⟨fun q _ => ?_, .inl hm⟩
    by_cases hq : q = p
    · exact hq ▸ ⟨hmem, hsize⟩
    · exact hothers q hq
  | new hp hm hf hsize => exact ⟨fun q hq => hothers q (fun he => hp (he ▸ hq)), .inr ⟨p, hm, hf, hsize⟩⟩

theorem Supplied.head (h : Supplied cfg s ((env, n) :: offers)) : s.Fresh cfg env n := h.fresh _ mem_cons_self

theorem Supplied.tail (h : Supplied cfg s ((env, n) :: offers)) (hg : Grew env n s s') : Supplied cfg s' offers := by
  obtain ⟨hfirst, hrest⟩ := pairwise_cons.mp h.apart
  refine ⟨fun o ho p memory hp => ?_, hrest⟩
  obtain ⟨hmade, hdvd, hapart⟩ := h.fresh o (mem_cons_of_mem _ ho) p memory hp
  have hold : ∀ q ∈ s.made, Apart memory o.2 (s'.slabs q).memory (s'.slabs q).size := fun q hq => by
    rw [(hg.regions q hq).1, (hg.regions q hq).2]
    exact hapart q hq
  obtain hm | ⟨p', hm, hf, hsize⟩ := hg.made
  · rw [hm]
    exact ⟨hmade, hdvd, hold⟩
  · obtain ⟨hne, hap⟩ := hfirst o ho _ _ p memory hf hp
    rw [hm]
    refine ⟨fun hmem => ?_, hdvd, fun q hq => ?_⟩
    · rcases mem_cons.mp hmem with rfl | hmem
      · exact hne rfl
      · exact hmade hmem
    · rcases mem_cons.mp hq with rfl | hq
      · rw [hsize]
        exact hap.symm
      · exact hold q hq

theorem Supplied.congr (h : Supplied cfg s offers) (hr : SameRegions s s') : Supplied cfg s' offers :=
  ⟨fun o ho => hr.fresh (h.fresh o ho), h.apart⟩

def Starved (offers : List (BumpEnv × Nat)) (fuel n : Nat) (e : BumpAbort) : Prop :=
  e = .fault ∧ (∃ o ∈ offers, o.1.fresh = none) ∨ Stuck fuel n e

theorem Starved.of_mayStop {m k : Nat} {e : BumpAbort} (h : MayStop env fuel m e) (ho : (env, k) ∈ offers)
    (hle : m ≤ n) : Starved offers fuel n e := by
  obtain ⟨he, hf⟩ | ⟨he, hf⟩ := h
  · exact .inl ⟨he, _, ho, hf⟩
  · exact .inr ⟨he, le_trans hf hle⟩

theorem Starved.of_stuck {m : Nat} {e : BumpAbort} (h : Stuck fuel m e) (hle : m ≤ n) : Starved offers fuel n e :=
  .inr ⟨h.1, le_trans h.2 hle⟩

theorem not_starved {e : BumpAbort} (hoffered : ∀ o ∈ offers, o.1.fresh ≠ none) (hlt : n < fuel) :
    ¬ Starved offers fuel n e := by
  rintro (⟨_, o, ho, hnone⟩ | ⟨_, hle⟩)
  · exact hoffered o ho hnone
  · omega

theorem ok_of_starved {α : Type} {Q : α → Prop} {x : Except BumpAbort α} (h : Ends (Starved offers fuel n) Q x)
    (hoffered : ∀ o ∈ offers, o.1.fresh ≠ none) (hlt : n < fuel) : ∃ a, x = .ok a ∧ Q a := by
  cases x with
  | ok a => exact ⟨a, rfl, h⟩
  | error e => exact absurd h (not_starved hoffered hlt)

/-! ## The invariant -/

/-- Each slab is whole pages of the code cache. One in use has less than a page left and is current. -/
structure SlabsOk (r : ExecRegion) (s : BumpState ι) (L : SlabLists ι) : Prop where
  pages : ∀ q ∈ s.made, pageSize ∣ (s.slabs q).size ∧ r.start ≤ (s.slabs q).memory ∧
    (s.slabs q).memory + (s.slabs q).size ≤ r.wrapperStart
  reached : ∀ q ∈ s.made, 0 < (s.slabs q).index → (s.slabs q).size < (s.slabs q).index + pageSize
  idle : ∀ q ∈ s.made, (∀ j, q ∉ L (.curr j)) → (s.slabs q).index = 0

structure FragInv (r : ExecRegion) (i : ι) (s : BumpState ι) (L : SlabLists ι) : Prop
    extends SlabsOk r s L where
  inv : BumpInv fragmentAllocatorConfig i s L none
  used : ∀ j, ∀ q ∈ L (.curr j), 0 < (s.slabs q).index

def FreeFits (i : ι) (s : BumpState ι) (L : SlabLists ι) (n : Nat) : Prop :=
  ∀ P : SlabPlace ι, P.FreeFor i → ∀ q ∈ L P, (s.slabs q).size ≤ n

theorem Padded.of_same {a b : BumpPointerSlab} (h : SameSlab a b) : Padded a b := ⟨h.1, h.2.2.2, .inl h.2.1⟩

theorem Padded.trans {a b c : BumpPointerSlab} (hm : 64 ∣ a.memory) (hs : 64 ∣ a.size) (h : Padded a b)
    (h' : Padded b c) : Padded a c := by
  obtain ⟨hm₁, hs₁, hi⟩ := h
  obtain ⟨hm₂, hs₂, hi'⟩ := h'
  refine ⟨hm₂.trans hm₁, hs₂.trans hs₁, ?_⟩
  rw [hm₁, hs₁] at hi'
  have halign : bbAlign = 64 := rfl
  rw [halign] at hi hi' ⊢
  obtain hi | ⟨hpos, hi | hi⟩ := hi
  · rwa [hi] at hi'
  · -- what is aligned needs no more padding
    have hdvd : 64 ∣ a.memory + b.index := by
      rw [hi, ← add_assoc]
      exact dvd_add_alignTo (by decide)
    rw [alignTo_of_dvd hdvd] at hi'
    refine .inr ⟨hpos, ?_⟩
    omega
  · rw [hi, alignTo_of_dvd (Nat.dvd_add hm hs)] at hi'
    refine .inr ⟨hpos, .inr ?_⟩
    omega

structure Steady (s s' : BumpState ι) (L L' : SlabLists ι) : Prop where
  live : s'.live = s.live
  made : ∀ q ∈ s.made, q ∈ s'.made
  slabs : ∀ q ∈ s.made, Padded (s.slabs q) (s'.slabs q)
  curr : ∀ j, L' (.curr j) = L (.curr j)

theorem FragInv.memory_dvd (h : FragInv r i s L) (hq : q ∈ s.made) : pageSize ∣ (s.slabs q).memory :=
  (h.inv.bounds q hq).2.2

theorem Steady.trans (h : FragInv r i s L) (h₁ : Steady s s₁ L L₁) (h₂ : Steady s₁ s' L₁ L') : Steady s s' L L' where
  live := h₂.live.trans h₁.live
  made q hq := h₂.made q (h₁.made q hq)
  slabs q hq := by
    have hpage : 64 ∣ pageSize := by decide
    refine (h₁.slabs q hq).trans ?_ ?_ (h₂.slabs q (h₁.made q hq))
    · exact dvd_trans hpage (h.memory_dvd hq)
    · exact dvd_trans hpage (h.pages q hq).1
  curr j := (h₂.curr j).trans (h₁.curr j)

/-! ## Giving back the current slab -/

structure Settled (r : ExecRegion) (i : ι) (s : BumpState ι) (L : SlabLists ι) (p : SlabPtr)
    (s' : BumpState ι) (L' : SlabLists ι) : Prop where
  inv : FragInv r i s' L'
  data : SameData s.slabs s'.slabs
  live : s'.live = s.live
  made : s'.made = s.made
  last_eq : (s'.allocator i).lastAllocationSize = (s.allocator i).lastAllocationSize
  curr : L (.curr i) = L' (.curr i) ∧ 0 < (s.slabs p).index ∨ L (.curr i) = p :: L' (.curr i) ∧ (s.slabs p).index = 0
  curr_ne : ∀ j, j ≠ i → L' (.curr j) = L (.curr j)
  free : ∀ n, FreeFits i s L n → ((s.slabs p).index = 0 → (s.slabs p).size ≤ n) → FreeFits i s' L' n

theorem SlabsOk.congr (h : SlabsOk r s L) (hslabs : s'.slabs = s.slabs) (hmade : s'.made = s.made) : SlabsOk r s' L := by
  refine ⟨?_, ?_, ?_⟩ <;> rw [hmade, hslabs]
  · exact h.pages
  · exact h.reached
  · exact h.idle

theorem SlabsOk.moved (h : SlabsOk r s L) (hdata : SameData s.slabs s'.slabs) (hmade : s'.made = s.made)
    (hidle : ∀ q ∈ s.made, (∀ j, q ∉ L' (.curr j)) → (∃ j, q ∈ L (.curr j)) → (s.slabs q).index = 0) : SlabsOk r s' L' where
  pages q hq := by
    obtain ⟨hm, _, _, hs⟩ := hdata q
    rw [hm, hs]
    exact h.pages q (hmade ▸ hq)
  reached q hq := by
    obtain ⟨_, hi, _, hs⟩ := hdata q
    rw [hi, hs]
    exact h.reached q (hmade ▸ hq)
  idle q hq hout := by
    rw [(hdata q).2.1]
    rw [hmade] at hq
    by_cases hin : ∃ j, q ∈ L (.curr j)
    · exact hidle q hq hout hin
    · exact h.idle q hq fun j hj => hin ⟨j, hj⟩

theorem settle (hinv : BumpInv fragmentAllocatorConfig i s L none) (hok : SlabsOk r s L)
    (hused : ∀ j, ∀ q ∈ L (.curr j), q ≠ p → 0 < (s.slabs q).index)
    (hr : Retired fragmentAllocatorConfig i s s' L p) : ∃ L', Settled r i s L p s' L' := by
  cases hr with
  | kept hs hidx =>
    subst hs
    have hpos : 0 < (s'.slabs p).index := Nat.pos_of_ne_zero (hidx rfl)
    refine ⟨L, ⟨hok, hinv, fun j q hq => ?_⟩, SameData.refl _, rfl, rfl, rfl, .inl ⟨rfl, hpos⟩, fun _ _ => rfl,
      fun _ hf _ => hf⟩
    by_cases hqp : q = p
    · exact hqp ▸ hpos
    · exact hused j q hq hqp
  | popped L' _ hp =>
    have hsub : ∀ j, ∀ q ∈ L' (.curr j), q ∈ L (.curr j) ∧ q ≠ p := by
      intro j q hq
      have hchain := hinv.lists.chain (.curr i)
      have hpi : p ∈ L (.curr i) := by rw [hp.curr]; exact mem_cons_self
      by_cases hj : j = i
      · subst hj
        have hnodup := hchain.nodup
        rw [hp.curr] at hnodup ⊢
        refine ⟨mem_cons_of_mem _ hq, ?_⟩
        rintro rfl
        exact (nodup_cons.mp hnodup).1 hq
      · rw [hp.curr_ne j hj] at hq
        refine ⟨hq, ?_⟩
        rintro rfl
        cases hinv.lists.place hq hpi
        exact hj rfl
    refine ⟨L', ⟨hok.moved hp.data hp.made fun q _ hout hin => ?_, hp.inv, fun j q hq => ?_⟩, hp.data, hp.live, hp.made,
      hp.last_eq, .inr ⟨hp.curr, hp.index_eq⟩, hp.curr_ne, fun n hf hle P hP q hq => ?_⟩
    · -- only the slab that was popped is no longer current
      obtain ⟨j, hj⟩ := hin
      by_cases hji : j = i
      · subst hji
        rw [hp.curr] at hj
        rcases mem_cons.mp hj with rfl | hj
        · exact hp.index_eq
        · exact absurd hj (hout j)
      · rw [← hp.curr_ne j hji] at hj
        exact absurd hj (hout j)
    · obtain ⟨hq, hqp⟩ := hsub j q hq
      rw [(hp.data q).2.1]
      exact hused j q hq hqp
    · rw [(hp.data q).2.2.2]
      obtain rfl | ⟨Q, hQ, hq⟩ := hp.free P hP q hq
      · exact hle hp.index_eq
      · exact hf Q hQ q hq

/-! ## Allocating -/

theorem slabSizeFor_pages (hpos : 0 < size) (hwrap : size + pageSize ≤ 2 ^ 32) :
    pageSize ∣ slabSizeFor fragmentAllocatorConfig size ∧ slabSizeFor fragmentAllocatorConfig size < size + pageSize := by
  have hpage : 0 < pageSize := by decide
  have hoff : alignTo size pageSize < pageSize := alignTo_lt hpage
  have hdvd : pageSize ∣ size + alignTo size pageSize := dvd_add_alignTo hpage
  have hmod : (size + alignTo size pageSize) % 2 ^ 32 = size + alignTo size pageSize := mod_eq_of_lt (by omega)
  have hslab : fragmentAllocatorConfig.slabSize = pageSize := rfl
  simp only [slabSizeFor, hslab, hmod]
  rw [if_neg (by omega)]
  exact ⟨hdvd, by omega⟩

def Offered (r : ExecRegion) (env : BumpEnv) (n : Nat) : Prop :=
  pageSize ∣ n ∧ ∀ p memory, env.fresh = some (p, memory) → r.start ≤ memory ∧ memory + n ≤ r.wrapperStart

theorem SlabsOk.pages_grew (h : SlabsOk r s L) (hg : Grew env n s s') (ho : Offered r env n) (hq : q ∈ s'.made) :
    pageSize ∣ (s'.slabs q).size ∧ r.start ≤ (s'.slabs q).memory ∧
      (s'.slabs q).memory + (s'.slabs q).size ≤ r.wrapperStart := by
  have hold : q ∈ s.made → _ := fun hq => by
    have := h.pages q hq
    rwa [← (hg.regions q hq).1, ← (hg.regions q hq).2] at this
  obtain hm | ⟨p, hm, hf, hsize⟩ := hg.made
  · exact hold (hm ▸ hq)
  · rw [hm] at hq
    rcases mem_cons.mp hq with rfl | hq
    · rw [hsize]
      exact ⟨ho.1, ho.2 _ _ hf⟩
    · exact hold hq

variable [DecidableEq ι]

theorem fits_fragment (hwrap : size + pageSize ≤ 2 ^ 32) : Fits fragmentAllocatorConfig 64 size := by
  have hslab : fragmentAllocatorConfig.slabSize = 4096 := rfl
  have hpage : pageSize = 4096 := rfl
  rw [hpage] at hwrap
  have hspec : size ≤ slabSizeFor fragmentAllocatorConfig size ∧ _ :=
    slabSizeFor_spec (by decide) (by decide) (by omega)
  obtain ⟨h₁, h₂, h₃⟩ := hspec
  exact ⟨by decide, by omega, h₁, h₂, h₃, .inr fun base => room_of_align (by decide) h₁ (.inl (by decide))⟩

structure StagedDone (r : ExecRegion) (env : BumpEnv) (i : ι) (s : BumpState ι) (L : SlabLists ι)
    (s' : BumpState ι) (L' : SlabLists ι) : Prop where
  inv : FragInv r i s' L'
  steady : Steady s s' L L'
  free : ∀ n, pageSize ≤ n → FreeFits i s L n → FreeFits i s' L' n
  grew : Grew env pageSize s s'
  last_eq : (s'.allocator i).lastAllocationSize = 0

section

omit [DecidableEq ι]

theorem not_curr_of_pushed (hinv : BumpInv cfg i s' L' none) (hc : L' (.curr i) = p :: L (.curr i))
    (hc' : ∀ j, j ≠ i → L' (.curr j) = L (.curr j)) (j : ι) : p ∉ L (.curr j) := by
  intro hj
  have hp : p ∈ L' (.curr i) := by rw [hc]; exact mem_cons_self
  by_cases hji : j = i
  · subst hji
    have hnodup := (hinv.lists.chain (.curr j)).nodup
    rw [hc] at hnodup
    exact (nodup_cons.mp hnodup).1 hj
  · rw [← hc' j hji] at hj
    cases hinv.lists.place hj hp
    exact hji rfl

theorem FragInv.index_of_taken (h : FragInv r i s L) (hinv : BumpInv cfg i s' L' none)
    (hc : L' (.curr i) = p :: L (.curr i)) (hc' : ∀ j, j ≠ i → L' (.curr j) = L (.curr j)) (hp : p ∈ s.made) :
    (s.slabs p).index = 0 :=
  h.idle p hp (not_curr_of_pushed hinv hc hc')

theorem mem_curr_of_pushed (hc : L' (.curr i) = p :: L (.curr i)) (hc' : ∀ j, j ≠ i → L' (.curr j) = L (.curr j)) {j : ι}
    (hq : q ∈ L (.curr j)) : q ∈ L' (.curr j) := by
  by_cases hj : j = i
  · subst hj
    rw [hc]
    exact mem_cons_of_mem _ hq
  · rwa [hc' j hj]

theorem mem_curr_cases (hc : L' (.curr i) = p :: L (.curr i)) (hc' : ∀ j, j ≠ i → L' (.curr j) = L (.curr j)) {j : ι}
    (hq : q ∈ L' (.curr j)) : q = p ∨ q ∈ L (.curr j) := by
  by_cases hj : j = i
  · subst hj
    rw [hc] at hq
    exact mem_cons.mp hq
  · exact .inr (hc' j hj ▸ hq)

end

theorem FragInv.staged_took (h : FragInv r i s L) (ho : Offered r env pageSize)
    (ht : Taken fragmentAllocatorConfig env i (forgetLast s i) L pageSize p s₁ L₁)
    (hr : Retired fragmentAllocatorConfig i s₁ s' L₁ p) : ∃ L', StagedDone r env i s L s' L' := by
  have hgrew : Grew env pageSize s s₁ := by
    have hg := grew_of_origin ht.origin fun q hq => ⟨(ht.data q hq).1, (ht.data q hq).2.2.2⟩
    exact ⟨hg.regions, hg.made⟩
  have hmade : ∀ q ∈ s₁.made, q ≠ p → q ∈ s.made := by
    intro q hq hqp
    cases ht.origin with
    | recycled P _ _ hm => rwa [hm] at hq
    | new _ hm =>
      rw [hm] at hq
      exact (mem_cons.mp hq).resolve_left hqp
  have hok : SlabsOk r s₁ L₁ := by
    refine ⟨fun q hq => h.pages_grew hgrew ho hq, fun q hq hpos => ?_, fun q hq hout => ?_⟩
    · by_cases hqp : q = p
      · subst hqp
        exact absurd hpos (ht.index_eq ▸ Nat.lt_irrefl 0)
      · obtain ⟨_, hi, _, hs⟩ := ht.data q hqp
        rw [hi] at hpos ⊢
        rw [hs]
        exact h.reached q (hmade q hq hqp) hpos
    · by_cases hqp : q = p
      · exact hqp ▸ ht.index_eq
      · rw [(ht.data q hqp).2.1]
        exact h.idle q (hmade q hq hqp) fun j hj => hout j (mem_curr_of_pushed ht.curr ht.curr_ne hj)
  obtain ⟨L', hset⟩ := settle ht.inv hok (fun j q hq hqp => by
    rw [(ht.data q hqp).2.1]
    exact h.used j q ((mem_curr_cases ht.curr ht.curr_ne hq).resolve_left hqp)) hr
  have hregions : SameRegions s₁ s' := ⟨hset.made, fun q => ⟨(hset.data q).1, (hset.data q).2.2.2⟩⟩
  have hpop : L₁ (.curr i) = p :: L' (.curr i) := by
    obtain ⟨_, hpos⟩ | ⟨hpop, _⟩ := hset.curr
    · exact absurd hpos (ht.index_eq ▸ Nat.lt_irrefl 0)
    · exact hpop
  refine ⟨L', hset.inv, ⟨hset.live.trans ht.live, fun q hq => hset.made ▸ hgrew.mem hq, fun q hq => ?_, fun j => ?_⟩,
    fun n hn hf => hset.free n (fun P hP q hq => ?_) fun _ => ?_, hgrew.then hregions,
    hset.last_eq.trans (ht.last_eq.trans (forgetLast_size))⟩
  · obtain ⟨hm, hs⟩ := (hgrew.then hregions).regions q hq
    refine ⟨hm, hs, .inl ?_⟩
    rw [(hset.data q).2.1]
    by_cases hqp : q = p
    · subst hqp
      rw [ht.index_eq, h.index_of_taken ht.inv ht.curr ht.curr_ne hq]
    · exact (ht.data q hqp).2.1
  · by_cases hj : j = i
    · subst hj
      exact (List.cons.inj (hpop.symm.trans ht.curr)).2
    · rw [hset.curr_ne j hj, ht.curr_ne j hj]
  · have hqL := ht.free P hP q hq
    have hqp : q ≠ p := by
      rintro rfl
      have hcurr : q ∈ L₁ (.curr i) := by rw [ht.curr]; exact mem_cons_self
      cases ht.inv.lists.place hq hcurr
      exact hP
    rw [(ht.data q hqp).2.2.2]
    exact hf P hP q hqL
  · cases ht.origin with
    | recycled P hP hp _ _ hs _ =>
      rw [hs]
      exact hf P hP p hp
    | new _ _ _ hs => exact hs ▸ hn

theorem FragInv.staged (h : FragInv r i s L) (hfresh : s.Fresh fragmentAllocatorConfig env pageSize)
    (ho : Offered r env pageSize) :
    Ends (MayStop env fuel (s.made.length + 1)) (fun x => ∃ L', StagedDone r env i s L x.2 L')
      (allocateStaged fragmentAllocatorConfig fuel env s i) := by
  have hfits : Fits fragmentAllocatorConfig fragmentAllocatorConfig.minAlign 0 := fits_fragment (by decide)
  refine (allocateStaged_spec h.inv hfits hfresh).imp ?_
  rintro ⟨ret, s'⟩ ⟨p, s₁, L₁, hst, hr⟩
  have hinv₁ := hst.inv h.inv
  have hlast := hst.last_eq
  cases hst with
  | had hc hs hL =>
    subst hs hL
    have hok : SlabsOk r (forgetLast s i) L₁ := h.toSlabsOk.congr rfl rfl
    obtain ⟨L', hset⟩ := settle hinv₁ hok (fun j q hq _ => h.used j q hq) hr
    have hpos : 0 < (s.slabs p).index := h.used i p (h.inv.curr_mem hc)
    refine ⟨L', hset.inv, ⟨hset.live, fun q hq => hset.made ▸ hq, fun q _ => .of_same (hset.data q), fun j => ?_⟩,
      fun n _ hf => hset.free n hf fun hz => absurd hpos (hz ▸ Nat.lt_irrefl 0),
      grew_of_regions ⟨hset.made, fun q => ⟨(hset.data q).1, (hset.data q).2.2.2⟩⟩, hset.last_eq.trans hlast⟩
    by_cases hj : j = i
    · subst hj
      obtain ⟨hcurr, _⟩ | ⟨_, hz⟩ := hset.curr
      · exact hcurr.symm
      · exact absurd hpos (hz ▸ Nat.lt_irrefl 0)
    · exact hset.curr_ne j hj
  | took hc ht => exact h.staged_took ho ht hr

/-- Memory for a trace was allocated, after the last page in use or in a slab that it fills up to its last page. -/
structure FragAllocated (r : ExecRegion) (env : BumpEnv) (i : ι) (s : BumpState ι) (L : SlabLists ι)
    (size : Nat) (b : LiveAllocation) (s' : BumpState ι) (L' : SlabLists ι) : Prop
    extends Allocated fragmentAllocatorConfig env i s L 64 size b s' L' where
  frag : FragInv r i s' L'
  free : FreeFits i s' L' (slabSizeFor fragmentAllocatorConfig size)
  grew : Grew env (slabSizeFor fragmentAllocatorConfig size) s s'

omit [DecidableEq ι] in
theorem padded_of_leftAlone (h : LeftAlone i s s' q)
    (hpos : 0 < (s.slabs q).index ∨ (s.allocator i).curr ≠ some q) : Padded (s.slabs q) (s'.slabs q) := by
  obtain ⟨hm, hs, hi | ⟨hc, hi⟩⟩ := h
  · exact ⟨hm, hs, .inl hi⟩
  · exact ⟨hm, hs, .inr ⟨hpos.resolve_right fun hne => hne hc, .inr hi⟩⟩

/-- After the padding of a slab in use, or at the start of a slab with just the pages it needs. -/
inductive FragSpot (env : BumpEnv) (i : ι) (s : BumpState ι) (L : SlabLists ι) (size : Nat)
    (b : LiveAllocation) (s' : BumpState ι) (L' : SlabLists ι) : Prop where
  | inPlace (pad : Nat) : (s.allocator i).curr = some b.slab → L' = L → SameRegions s s' →
      pad = alignTo ((s.slabs b.slab).memory + (s.slabs b.slab).index) bbAlign → 0 < (s.slabs b.slab).index →
      b.addr = (s.slabs b.slab).memory + (s.slabs b.slab).index + pad →
      (s'.slabs b.slab).index = (s.slabs b.slab).index + pad + size → FragSpot env i s L size b s' L'
  | taken : Origin env i s L (slabSizeFor fragmentAllocatorConfig size) b.slab s' →
      L' (.curr i) = b.slab :: L (.curr i) → (∀ j, j ≠ i → L' (.curr j) = L (.curr j)) →
      (∀ P : SlabPlace ι, P.FreeFor i → ∀ q ∈ L' P, q ∈ L P) → b.addr = (s'.slabs b.slab).memory →
      (s'.slabs b.slab).size = slabSizeFor fragmentAllocatorConfig size → (s'.slabs b.slab).index = size →
      FragSpot env i s L size b s' L'

theorem allocated_grew {align : Nat} (ha : Allocated cfg env i s L align size b s' L') :
    Grew env (slabSizeFor cfg size) s s' := by
  cases ha.spot with
  | inPlace _ _ hreg _ => exact grew_of_regions hreg
  | taken horigin _ _ _ _ => exact grew_of_origin horigin fun q hq => ⟨(ha.others q hq).1, (ha.others q hq).2.1⟩

section Allocated

variable (h : FragInv r i s L) (ha : Allocated fragmentAllocatorConfig env i s L 64 size b s' L')

include h ha

theorem allocated_padded (hqb : q ≠ b.slab) : Padded (s.slabs q) (s'.slabs q) := by
  refine padded_of_leftAlone (ha.others q hqb) ?_
  by_cases hc : (s.allocator i).curr = some q
  · exact .inl (h.used i q (h.inv.curr_mem hc))
  · exact .inr hc

theorem allocated_spot (hfits : FreeFits i s L (slabSizeFor fragmentAllocatorConfig size)) :
    FragSpot env i s L size b s' L' := by
  have hend := ha.end_eq
  have hdvd : 64 ∣ (s'.slabs b.slab).memory := by
    refine dvd_trans ?_ (ha.inv.bounds _ (ha.inv.mem_made (ha.inv.curr_mem ha.curr_eq))).2.2
    decide
  cases ha.spot with
  | inPlace hc hL hreg haddr =>
    rw [(hreg.2 _).1] at hend
    refine .inPlace _ hc hL hreg rfl (h.used i _ (h.inv.curr_mem hc)) haddr ?_
    rw [show bbAlign = 64 from rfl]
    omega
  | taken horigin hc hc' hf haddr =>
    rw [alignTo_of_dvd hdvd, add_zero] at haddr
    refine .taken horigin hc hc' hf haddr ?_ (by omega)
    cases horigin with
    | recycled P hP hp _ _ hs hle => exact hs.trans (le_antisymm (hfits P hP _ hp) hle)
    | new _ _ _ hs => exact hs

variable (hsize : 0 < size) (hwrap : size + pageSize ≤ 2 ^ 32)
  (hfits : FreeFits i s L (slabSizeFor fragmentAllocatorConfig size))
  (ho : Offered r env (slabSizeFor fragmentAllocatorConfig size))

include hfits

theorem allocated_made (hq : q ∈ s'.made) (hqb : q ≠ b.slab) : q ∈ s.made := by
  cases allocated_spot h ha hfits with
  | inPlace _ _ _ hreg _ _ _ _ => exact hreg.1 ▸ hq
  | taken horigin _ _ _ _ _ _ =>
    cases horigin with
    | recycled _ _ _ hm => exact hm ▸ hq
    | new _ hm => exact (mem_cons.mp (hm ▸ hq)).resolve_left hqb

include hsize

theorem allocated_used (j : ι) (hq : q ∈ L' (.curr j)) : 0 < (s'.slabs q).index := by
  by_cases hqb : q = b.slab
  · subst hqb
    cases allocated_spot h ha hfits with
    | inPlace pad _ _ _ _ hpos _ hidx => omega
    | taken _ _ _ _ _ _ hidx => omega
  · have hqL : q ∈ L (.curr j) := by
      cases allocated_spot h ha hfits with
      | inPlace _ _ hL _ _ _ _ _ => exact hL ▸ hq
      | taken _ hc hc' _ _ _ _ => exact (mem_curr_cases hc hc' hq).resolve_left hqb
    have hpos := h.used j q hqL
    obtain ⟨_, _, hi | ⟨_, hi | hi⟩⟩ := allocated_padded h ha hqb
    · omega
    · omega
    · have hbd := (h.inv.bounds q (h.inv.mem_made hqL)).1
      have hslab : fragmentAllocatorConfig.slabSize = 4096 := rfl
      omega

include hwrap

theorem allocated_reached (hq : q ∈ s'.made) (hpos : 0 < (s'.slabs q).index) :
    (s'.slabs q).size < (s'.slabs q).index + pageSize := by
  have hpages := slabSizeFor_pages hsize hwrap
  by_cases hqb : q = b.slab
  · subst hqb
    cases allocated_spot h ha hfits with
    | inPlace pad hc _ hreg _ hpos₀ _ hidx =>
      have := h.reached _ (h.inv.mem_made (h.inv.curr_mem hc)) hpos₀
      rw [(hreg.2 _).2]
      omega
    | taken _ _ _ _ _ hs hidx => omega
  · have hqm := allocated_made h ha hfits hq hqb
    obtain ⟨_, hs, hi⟩ := allocated_padded h ha hqb
    have := h.reached q hqm
    have hp : 0 < pageSize := by decide
    omega

omit hsize hwrap in
theorem allocated_free : FreeFits i s' L' (slabSizeFor fragmentAllocatorConfig size) := by
  intro P hP q hq
  have hold : q ∈ L P := by
    cases allocated_spot h ha hfits with
    | inPlace _ _ hL _ _ _ _ _ => exact hL ▸ hq
    | taken _ _ _ hf _ _ _ => exact hf P hP q hq
  rw [((allocated_grew ha).regions q (h.inv.mem_made hold)).2]
  exact hfits P hP q hold

include ho

theorem allocated_frag : FragAllocated r env i s L size b s' L' where
  toAllocated := ha
  free := allocated_free h ha hfits
  grew := allocated_grew ha
  frag :=
    { pages := fun _ hq => h.pages_grew (allocated_grew ha) ho hq
      reached := fun _ hq => allocated_reached h ha hsize hwrap hfits hq
      idle := fun q hq hout => by
        have hqb : q ≠ b.slab := by
          rintro rfl
          exact hout i (ha.inv.curr_mem ha.curr_eq)
        have hnot : ∀ j, q ∉ L (.curr j) := fun j hj => by
          refine hout j ?_
          cases allocated_spot h ha hfits with
          | inPlace _ _ hL _ _ _ _ _ => exact hL ▸ hj
          | taken _ hc hc' _ _ _ _ => exact mem_curr_of_pushed hc hc' hj
        have hz := h.idle q (allocated_made h ha hfits hq hqb) hnot
        obtain ⟨_, _, hi | ⟨hpos, _⟩⟩ := allocated_padded h ha hqb
        · rw [hi, hz]
        · exact absurd hpos (hz ▸ Nat.lt_irrefl 0)
      inv := ha.inv
      used := fun j _ hq => allocated_used h ha hsize hfits j hq }

end Allocated

theorem FragInv.allocate (h : FragInv r i s L) (hsize : 0 < size) (hwrap : size + pageSize ≤ 2 ^ 32)
    (hfits : FreeFits i s L (slabSizeFor fragmentAllocatorConfig size))
    (hfresh : s.Fresh fragmentAllocatorConfig env (slabSizeFor fragmentAllocatorConfig size))
    (ho : Offered r env (slabSizeFor fragmentAllocatorConfig size)) :
    Ends (MayStop env fuel s.made.length) (fun x => ∃ b L', x.1 = b.addr ∧ FragAllocated r env i s L size b x.2 L')
      (allocateArray fragmentAllocatorConfig fuel env s i 1 1 size) := by
  have hmod : 1 * size % 2 ^ 32 = size := by
    rw [Nat.one_mul]
    exact Nat.mod_eq_of_lt (Nat.lt_of_lt_of_le (Nat.lt_add_of_pos_right (by decide)) hwrap)
  rw [allocateArray, allocateUntyped, hmod]
  have hused : ∀ p, (s.allocator i).curr = some p → (s.slabs p).remaining < size → 0 < (s.slabs p).index :=
    fun p hp _ => h.used i p (h.inv.curr_mem hp)
  refine (allocateBare_spec h.inv (fits_fragment hwrap) hsize hfresh hused).imp ?_
  rintro x ⟨_, b, L', haddr, ha⟩
  exact ⟨b, L', haddr, allocated_frag h ha hsize hwrap hfits ho⟩

/-! ## Giving memory back -/

structure Released (r : ExecRegion) (i : ι) (s : BumpState ι) (L : SlabLists ι) (n : Nat) (s₁ s' : BumpState ι)
    (L' : SlabLists ι) : Prop where
  inv : FragInv r i s' L'
  steady : Steady s s' L L'
  free : FreeFits i s' L' n
  regions : SameRegions s₁ s'

omit [DecidableEq ι] in
theorem live_filter (h : BumpInv cfg i s L none) {live : List LiveAllocation} (hlive : s.live i = b :: live) :
    (s.live i).filter (fun c => c.addr ≠ b.addr) = live := by
  have hdisj := h.disjoint i
  have hb : 0 < b.size := (h.inside i b (by rw [hlive]; exact mem_cons_self)).pos
  rw [hlive] at hdisj ⊢
  rw [filter_cons_of_neg (by simp), filter_eq_self]
  intro c hc
  have hap := (pairwise_cons.mp hdisj).1 c hc
  have hcpos : 0 < c.size := (h.inside i c (by rw [hlive]; exact mem_cons_of_mem _ hc)).pos
  unfold Apart at hap
  simp only [ne_eq, decide_not, Bool.not_eq_eq_eq_not, Bool.not_true, decide_eq_false_iff_not]
  omega

section

variable (h : FragInv r i s L) (hfits : FreeFits i s L (slabSizeFor fragmentAllocatorConfig size))
  (ha : FragAllocated r env i s L size b s₁ L₁) (hu : Unbumped fragmentAllocatorConfig i s₁ L₁ b s₂)

include h hfits ha hu

theorem FragAllocated.slabsOk : SlabsOk r s₂ L₁ where
  pages q hq := by
    rw [(hu.regions.2 q).1, (hu.regions.2 q).2]
    exact ha.frag.pages q (hu.regions.1 ▸ hq)
  reached q hq hpos := by
    rw [hu.regions.1] at hq
    by_cases hqb : q = b.slab
    · subst hqb
      have hidx := hu.index_eq
      rw [ha.size_eq] at hidx
      rw [(hu.regions.2 _).2]
      cases allocated_spot h ha.toAllocated hfits with
      | inPlace pad hc _ hreg _ hpos₀ _ hidx' =>
        have := h.reached _ (h.inv.mem_made (h.inv.curr_mem hc)) hpos₀
        rw [(hreg.2 _).2]
        omega
      | taken _ _ _ _ _ _ hidx' => omega
    · rw [hu.others q hqb] at hpos ⊢
      exact ha.frag.reached q hq hpos
  idle q hq hout := by
    rw [hu.regions.1] at hq
    have hqb : q ≠ b.slab := by
      rintro rfl
      exact hout i (ha.inv.curr_mem ha.curr_eq)
    rw [hu.others q hqb]
    exact ha.frag.idle q hq hout

theorem FragAllocated.released {s₃ : BumpState ι} (hslabs : s₃.slabs = s₂.slabs) (hmade : s₃.made = s₂.made)
    (hlive : s₃.live = s₂.live) (hinv : BumpInv fragmentAllocatorConfig i s₃ L₁ none)
    (hr : Retired fragmentAllocatorConfig i s₃ s' L₁ b.slab) :
    ∃ L', Released r i s L (slabSizeFor fragmentAllocatorConfig size) s₁ s' L' := by
  have hidx := hu.index_eq
  rw [ha.size_eq] at hidx
  obtain ⟨L', hset⟩ := settle hinv ((ha.slabsOk h hfits hu).congr hslabs hmade) (fun j q hq hqb => by
    rw [hslabs, hu.others q hqb]
    exact ha.frag.used j q hq) hr
  have hregions : SameRegions s₁ s' := by
    refine ⟨hset.made.trans (hmade.trans hu.regions.1), fun q => ?_⟩
    rw [(hset.data q).1, (hset.data q).2.2.2, hslabs]
    exact hu.regions.2 q
  have hlive' : s'.live = s.live := by
    have hcons : s₁.live i = b :: s.live i := by rw [ha.live, Function.update_self]
    rw [hset.live, hlive, hu.live, live_filter ha.inv hcons, ha.live, Function.update_idem, Function.update_eq_self]
  have hindex : ∀ q, (s'.slabs q).index = (s₂.slabs q).index := fun q => by rw [(hset.data q).2.1, hslabs]
  have hfree : FreeFits i s' L' (slabSizeFor fragmentAllocatorConfig size) := by
    refine hset.free _ (fun P hP q hq => ?_) fun hz => ?_
    · rw [hslabs, (hu.regions.2 q).2]
      exact ha.free P hP q hq
    · rw [hslabs] at hz ⊢
      rw [(hu.regions.2 _).2]
      cases allocated_spot h ha.toAllocated hfits with
      | inPlace pad _ _ _ _ hpos _ hidx' => omega
      | taken _ _ _ _ _ hs _ => exact le_of_eq hs
  have hothers : ∀ q ∈ s.made, q ≠ b.slab → Padded (s.slabs q) (s'.slabs q) := fun q _ hqb => by
    obtain ⟨hm, hs, hi⟩ := allocated_padded h ha.toAllocated hqb
    rw [← (hregions.2 q).1] at hm
    rw [← (hregions.2 q).2] at hs
    refine ⟨hm, hs, ?_⟩
    rw [hindex, hu.others q hqb]
    exact hi
  refine ⟨L', hset.inv, ⟨hlive', fun q hq => hregions.1 ▸ ha.grew.mem hq, fun q hq => ?_, fun j => ?_⟩, hfree, hregions⟩
  · by_cases hqb : q = b.slab
    · subst hqb
      obtain ⟨hm, hs⟩ := (ha.grew.then hregions).regions _ hq
      refine ⟨hm, hs, ?_⟩
      rw [hindex]
      cases allocated_spot h ha.toAllocated hfits with
      | inPlace pad _ _ _ hpad hpos _ hidx' => exact .inr ⟨hpos, .inl (by omega)⟩
      | taken _ hc hc' _ _ _ hidx' =>
        have hz := h.index_of_taken ha.inv hc hc' hq
        exact .inl (by omega)
    · exact hothers q hq hqb
  · cases allocated_spot h ha.toAllocated hfits with
    | inPlace pad _ hL _ _ hpos _ hidx' =>
      subst hL
      by_cases hj : j = i
      · subst hj
        obtain ⟨hcurr, _⟩ | ⟨_, hz⟩ := hset.curr
        · exact hcurr.symm
        · rw [hslabs] at hz
          omega
      · exact hset.curr_ne j hj
    | taken _ hc hc' _ _ _ hidx' =>
      by_cases hj : j = i
      · subst hj
        obtain ⟨_, hpos⟩ | ⟨hpop, _⟩ := hset.curr
        · rw [hslabs] at hpos
          omega
        · exact (List.cons.inj (hpop.symm.trans hc)).2
      · rw [hset.curr_ne j hj, hc' j hj]

end

end Granary.Fragments
