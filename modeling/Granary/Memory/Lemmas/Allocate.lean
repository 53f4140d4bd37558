import Granary.Memory.Lemmas.SlabInvariant

/-!
# Allocation

`allocate_slab` ends with an initialised slab in hand. The loop of `allocate_bare` takes at most one slab, and the
slab it takes is big enough for the aligned request.
-/

namespace Granary.Memory

open Function (update update_eq_self update_of_ne update_self)

open Linked Outcome Ranges

attribute [local simp] BumpState.setAllocator BumpState.setLive BumpState.setSlab

variable {ι : Type} {cfg : AllocatorConfig} {env : BumpEnv} {i : ι} {s : BumpState ι} {L : SlabLists ι}
  {F : Option SlabPtr} {fuel align size : Nat} {p : SlabPtr} {s' : BumpState ι}
variable {n addr : Nat} {P : SlabPlace ι} {slabs : SlabPtr → BumpPointerSlab} {head : Option SlabPtr} {l : List SlabPtr}
  {s₁ : BumpState ι} {got : Bool}

/-! ## `allocate_slab` -/

def SlabPlace.FreeFor (i : ι) : SlabPlace ι → Prop
  | .curr _ => False
  | .free j => j = i
  | .shared => True

variable (env i s L size p s') in
inductive Origin : Prop where
  | recycled (P : SlabPlace ι) : P.FreeFor i → p ∈ L P → s'.made = s.made → (s'.slabs p).memory = (s.slabs p).memory →
      (s'.slabs p).size = (s.slabs p).size → size ≤ (s.slabs p).size → Origin
  | new : p ∉ s.made → s'.made = p :: s.made → env.fresh = some (p, (s'.slabs p).memory) → (s'.slabs p).size = size → Origin

theorem Origin.made_le (h : Origin env i s L size p s') : s'.made.length ≤ s.made.length + 1 := by
  cases h with
  | recycled P _ _ hm => rw [hm]; exact Nat.le_succ _
  | new _ hm => exact Nat.le_of_eq (by rw [hm, List.length_cons])

theorem Origin.size_le (h : Origin env i s L size p s') : size ≤ (s'.slabs p).size := by
  cases h with
  | recycled P _ _ _ _ hs hle => rw [hs]; exact hle
  | new _ _ _ hs => exact Nat.le_of_eq hs.symm

def SameSlab (a b : BumpPointerSlab) : Prop :=
  b.memory = a.memory ∧ b.index = a.index ∧ b.remaining = a.remaining ∧ b.size = a.size

variable (env i s L size p s') in
structure Fetched (L' : SlabLists ι) : Prop where
  origin : Origin env i s L size p s'
  live : s'.live = s.live
  data : ∀ q, q ≠ p → SameSlab (s.slabs q) (s'.slabs q)
  curr : ∀ j, L' (.curr j) = L (.curr j)
  free : ∀ P, ∀ q ∈ L' P, q ∈ L P
  last_eq : (s'.allocator i).lastAllocationSize = (s.allocator i).lastAllocationSize

variable (cfg env i s L size p s') in
def InHand : Prop :=
  ∃ L', BumpInv cfg i s' L' (some p) ∧ Fetched env i s L size p s' L'

theorem newSlab_spec (h : BumpInv cfg i s L none) (hfresh : s.Fresh cfg env size) (hsize : cfg.slabSize ≤ size)
    (hlt : size < 2 ^ 32) :
    Ends (MayStop env fuel s.made.length) (fun r => InHand cfg env i s L size r.1 r.2) (newSlab env s size) := by
  unfold newSlab
  cases hf : env.fresh with
  | none => exact Or.inl ⟨rfl, hf⟩
  | some r =>
    obtain ⟨p, memory⟩ := r
    obtain ⟨hp, hdvd, hapart⟩ := hfresh p memory hf
    refine ⟨L, ?_, .new hp rfl ?_ ?_, rfl, fun q hq => ?_, fun _ => rfl, fun _ _ => id, rfl⟩
    · exact h.hold (fun P hpP => hp (h.mem_made hpP)) (Or.inl rfl) rfl (fun q => List.mem_cons) rfl rfl rfl
        ⟨hsize, hlt, hdvd⟩ (fun q hq _ => hapart q hq) fun _ _ => rfl
    · simp [hf]
    · simp
    · simp [SameSlab, hq]

theorem initialiseSlab_spec (h : BumpInv cfg i s L (some p)) :
    Ends (fun _ => False) (fun s' => BumpInv cfg i s' L (some p) ∧ s'.made = s.made ∧ s'.live = s.live ∧
      s'.allocator = s.allocator ∧ Clean cfg s' p ∧
      s'.slabs = update s.slabs p
        { s.slabs p with index := 0, remaining := (s.slabs p).size, next := none }) (initialiseSlab cfg s p) := by
  have hp : p ∈ s.made := (h.owned p).mpr (Or.inl rfl)
  have hb := h.bounds p hp
  simp only [initialiseSlab, assert, if_pos hb.1]
  refine ⟨?_, rfl, rfl, rfl, ?_, rfl⟩
  · refine h.hold (h.floating p rfl) (Or.inr rfl) rfl (fun q => ?_) rfl rfl rfl hb
      (fun q hq hqp => h.apart p hp q hq (Ne.symm hqp)) fun a ha => if_neg ?_
    · exact ⟨Or.inr, fun hq => hq.elim (fun he => he ▸ hp) id⟩
    · simp only at ha
      omega
  · intro a hlo hhi
    simp only [BumpState.setSlab, BumpState.memset, update_self] at hlo hhi ⊢
    exact if_pos ⟨by omega, hhi⟩

variable (cfg env i s L size p s') in
structure Ready : Prop where
  inHand : InHand cfg env i s L size p s'
  clean : Clean cfg s' p
  index_eq : (s'.slabs p).index = 0
  remaining_eq : (s'.slabs p).remaining = (s'.slabs p).size

theorem InHand.initialise (h : InHand cfg env i s L size p s') :
    Ends (MayStop env fuel n) (fun r => Ready cfg env i s L size r.1 r.2)
      (do return (p, ← initialiseSlab cfg s' p)) := by
  obtain ⟨L', hL, hf⟩ := h
  refine ((initialiseSlab_spec hL).mono (fun _ => id) (fun _ => False.elim)).bind ?_
  rintro s'' ⟨hinv, hm, hlive, hall, hclean, hs⟩
  have hself : s''.slabs p = { s'.slabs p with index := 0, remaining := (s'.slabs p).size, next := none } := by
    rw [hs, update_self]
  refine ⟨⟨L', hinv, ?_, hlive.trans hf.live, fun q hq => ?_, hf.curr, hf.free, by rw [hall]; exact hf.last_eq⟩, hclean,
    by rw [hself], by rw [hself]⟩
  · cases hf.origin with
    | recycled P hP hp hm' hmem hsize hle =>
      exact .recycled P hP hp (hm.trans hm') (by rw [hself]; exact hmem) (by rw [hself]; exact hsize) hle
    | new hp hm' hfresh hsize => exact .new hp (hm.trans hm') (by rw [hself]; exact hfresh) (by rw [hself]; exact hsize)
  · rw [hs, update_of_ne hq]
    exact hf.data q hq

variable [DecidableEq ι]

theorem BumpInv.unlink (h : BumpInv cfg i s L none) (hP : ∀ j, P ≠ .curr j)
    (hu : Unlinked s.slabs slabs head (L P) l p) (hslabs : s'.slabs = slabs)
    (hheads : s'.heads = update s.heads P head) (hbytes : s'.bytes = s.bytes) (hlive : s'.live = s.live)
    (hmade : s'.made = s.made) (hother : ∀ j, j ≠ i → s'.allocator j = s.allocator j) :
    BumpInv cfg i s' (update L P l) (some p) := by
  subst hslabs
  have hcurr : ∀ j, update L P l (.curr j) = L (.curr j) :=
    fun j => update_of_ne (fun he => hP j he.symm) _ _
  have hmem : ∀ {Q q}, q ∈ update L P l Q → q ∈ L Q := fun hq => (mem_iff_of_perm hu.perm).mpr (Or.inl hq)
  refine h.relink hu.data hbytes hlive hmade hother ?_ ?_ ?_ ?_ ?_ ?_
  · rw [hheads]
    refine h.lists.shrink hu.chain (fun q hq => hmem (by rwa [update_self])) fun q hq => ?_
    rw [nextOf, nextOf, hu.frame q hq]
  · rintro q ⟨⟩
    exact h.lists.not_mem_of_perm hu.perm
  · intro q
    simp only [reduceCtorEq, false_or, Option.some.injEq, mem_iff_of_perm hu.perm, exists_or, exists_eq_left]
    rw [or_comm, eq_comm]
  · exact fun Q q hq => h.kept Q q (hmem hq)
  · exact fun j q hq => h.clean j q (hmem hq)
  · intro j b hb
    rw [hcurr]
    exact (h.inside j b hb).mem

theorem Unlinked.fetched (hu : Unlinked s.slabs slabs head (L P) l p) (hP : P.FreeFor i) (hsize : size ≤ (s.slabs p).size)
    (hslabs : s'.slabs = slabs) (hlive : s'.live = s.live) (hmade : s'.made = s.made)
    (hlast : (s'.allocator i).lastAllocationSize = (s.allocator i).lastAllocationSize) :
    Fetched env i s L size p s' (update L P l) := by
  subst hslabs
  obtain ⟨hm, _, _, hs⟩ := hu.data p
  refine ⟨.recycled P hP (hu.perm.mem_iff.mpr List.mem_cons_self) hmade hm hs hsize, hlive, fun q _ => hu.data q,
    fun j => ?_, fun Q q hq => ?_, hlast⟩
  · rw [update_of_ne]
    rintro rfl
    exact hP
  · exact (mem_iff_of_perm hu.perm).mpr (Or.inl hq)

theorem heads_setAllocator (a : BumpPointerAllocator) :
    (s.setAllocator i a).heads = update (update s.heads (.free i) a.free) (.curr i) a.curr := by
  funext P
  cases P with
  | curr j | free j => by_cases hj : j = i <;> simp [BumpState.heads, hj]
  | shared => rfl

theorem searchFree_spec (h : BumpInv cfg i s L none) :
    Ends (MayStop env fuel s.made.length) (fun r => match r with
      | (none, s') => s' = s
      | (some p, s') => InHand cfg env i s L size p s') (searchFree fuel s i size) := by
  simp only [searchFree]
  split
  · rfl
  · refine ((slabSearch_spec (h.lists.chain (.free i))).mono (fun _ => id) ?_).bind ?_
    · rintro e ⟨rfl, hle⟩
      exact Or.inr ⟨rfl, Nat.le_trans hle (h.length_le _)⟩
    · rintro ⟨_ | p, slabs, free⟩ hr
      · obtain ⟨rfl, rfl⟩ := hr
        simp only [ends_pure, BumpState.setAllocator]
        exact congrArg (fun a => { s with allocator := a }) (update_eq_self i s.allocator)
      · obtain ⟨hsize, l, hu⟩ := hr
        refine ⟨_, h.unlink (fun _ => by simp) hu rfl ?_ rfl rfl rfl ?_,
          hu.fetched (P := .free i) rfl hsize rfl rfl rfl ?_⟩
        · funext P
          cases P with
          | curr j | free j => by_cases hj : j = i <;> simp [BumpState.heads, hj]
          | shared => rfl
        · exact fun j hj => update_of_ne hj _ _
        · simp

theorem searchGlobalFree_spec (h : BumpInv cfg i s L none) :
    Ends (MayStop env fuel s.made.length) (fun r => match r with
      | (none, s') => s' = s
      | (some p, s') => InHand cfg env i s L size p s') (searchGlobalFree cfg fuel env s size) := by
  simp only [searchGlobalFree]
  split
  · refine ((slabSearch_spec (h.lists.chain .shared)).mono (fun _ => id) ?_).bind ?_
    · rintro e ⟨rfl, hle⟩
      exact Or.inr ⟨rfl, Nat.le_trans hle (h.length_le _)⟩
    · rintro ⟨_ | p, slabs, globalFree⟩ hr
      · obtain ⟨rfl, rfl⟩ := hr
        rfl
      · obtain ⟨hsize, l, hu⟩ := hr
        refine ⟨_, h.unlink (fun _ => by simp) hu rfl ?_ rfl rfl rfl fun _ _ => rfl,
          hu.fetched (P := .shared) trivial hsize rfl rfl rfl rfl⟩
        funext P
        cases P <;> simp [BumpState.heads]
  · rfl

theorem allocateSlab_spec (h : BumpInv cfg i s L none) (hfresh : s.Fresh cfg env size) (hsize : cfg.slabSize ≤ size)
    (hlt : size < 2 ^ 32) :
    Ends (MayStop env fuel s.made.length) (fun r => Ready cfg env i s L size r.1 r.2)
      (allocateSlab cfg fuel env s i size) := by
  refine (searchFree_spec h).bind ?_
  rintro ⟨_ | p, s'⟩ hr
  · cases hr
    refine (searchGlobalFree_spec h).bind ?_
    rintro ⟨_ | p, s'⟩ hr
    · cases hr
      exact (newSlab_spec h hfresh hsize hlt).bind fun r hr => hr.initialise
    · exact hr.initialise
  · exact hr.initialise

/-! ## `allocate_bare` -/

variable (cfg env i s L size p s') in
structure Taken (L' : SlabLists ι) : Prop where
  inv : BumpInv cfg i s' L' none
  origin : Origin env i s L size p s'
  live : s'.live = s.live
  data : ∀ q, q ≠ p → SameSlab (s.slabs q) (s'.slabs q)
  curr : L' (.curr i) = p :: L (.curr i)
  curr_ne : ∀ j, j ≠ i → L' (.curr j) = L (.curr j)
  free : ∀ P : SlabPlace ι, P.FreeFor i → ∀ q ∈ L' P, q ∈ L P
  curr_eq : (s'.allocator i).curr = some p
  last_eq : (s'.allocator i).lastAllocationSize = (s.allocator i).lastAllocationSize
  index_eq : (s'.slabs p).index = 0
  remaining_eq : (s'.slabs p).remaining = (s'.slabs p).size

theorem BumpInv.pushCurr (h : BumpInv cfg i s L (some p)) (hclean : Clean cfg s p)
    (hkept : (s.slabs p).index + (s.slabs p).remaining = (s.slabs p).size)
    (hslabs : s'.slabs = setNext s.slabs p (s.allocator i).curr)
    (hheads : s'.heads = update s.heads (.curr i) (some p)) (hbytes : s'.bytes = s.bytes)
    (hlive : s'.live = s.live) (hmade : s'.made = s.made) (hother : ∀ j, j ≠ i → s'.allocator j = s.allocator j) :
    BumpInv cfg i s' (update L (.curr i) (p :: L (.curr i))) none := by
  refine h.relink (hslabs ▸ sameData_setNext _) hbytes hlive hmade hother ?_ (by simp) ?_ ?_ ?_ ?_
  · rw [hslabs, nextOf_setNext, hheads]
    exact h.lists.push (h.floating p rfl) (.curr i)
  · intro q
    simp only [Option.some.injEq, mem_update_cons, exists_or, reduceCtorEq, false_or, exists_eq_left]
    rw [or_comm, eq_comm]
  · intro P q hq
    rcases mem_update_cons.mp hq with hq | ⟨_, rfl⟩
    · exact h.kept P q hq
    · exact hkept
  · intro j q hq
    rcases mem_update_cons.mp hq with hq | ⟨_, rfl⟩
    · exact h.clean j q hq
    · exact hclean
  · exact fun j b hb => mem_update_cons.mpr (Or.inl (h.inside j b hb).mem)

theorem takeSlab_spec (h : BumpInv cfg i s L none) (hfresh : s.Fresh cfg env (slabSizeFor cfg size))
    (hsize : cfg.slabSize ≤ slabSizeFor cfg size) (hlt : slabSizeFor cfg size < 2 ^ 32) :
    Ends (MayStop env fuel s.made.length) (fun s' => ∃ p L', Taken cfg env i s L (slabSizeFor cfg size) p s' L')
      (takeSlab cfg fuel env s i size) := by
  refine (allocateSlab_spec h hfresh hsize hlt).bind ?_
  rintro ⟨p, s'⟩ hr
  obtain ⟨L', hL', hf⟩ := hr.inHand
  have hkept : (s'.slabs p).index + (s'.slabs p).remaining = (s'.slabs p).size := by
    rw [hr.index_eq, hr.remaining_eq, Nat.zero_add]
  refine ⟨p, _, hL'.pushCurr hr.clean hkept rfl ?_ rfl rfl rfl ?_, ?_, hf.live, fun q hq => ?_, ?_, fun j hj => ?_,
    fun P hP q hq => ?_, ?_, ?_, ?_, ?_⟩
  · rw [heads_setAllocator]
    congr 1
    exact update_eq_self _ _
  · exact fun j hj => update_of_ne hj _ _
  · cases hf.origin with
    | recycled P hP hp hm hmem hsz hle =>
      exact .recycled P hP hp hm (by simpa using hmem)
        (by simpa using hsz) hle
    | new hp hm hfr hsz =>
      exact .new hp hm (by simpa using hfr)
        (by simpa using hsz)
  · simpa [hq] using hf.data q hq
  · rw [update_self, hf.curr]
  · rw [update_of_ne (by simpa using hj), hf.curr]
  · rw [update_of_ne (by rintro rfl; exact hP)] at hq
    exact hf.free P q hq
  · simp
  · simpa using hf.last_eq
  · simpa using hr.index_eq
  · simpa using hr.remaining_eq

section Alignment

variable {x : Nat}

theorem alignTo_lt (h : 0 < align) : alignTo x align < align := by
  unfold alignTo
  split <;> omega

theorem dvd_add_alignTo (h : 0 < align) : align ∣ x + alignTo x align := by
  have hlt := Nat.mod_lt x h
  have hx := Nat.mod_add_div x align
  unfold alignTo
  split
  · exact ⟨x / align + 1, by rw [Nat.mul_add]; omega⟩
  · exact ⟨x / align, by omega⟩

theorem alignTo_of_dvd (h : align ∣ x) : alignTo x align = 0 := by
  simp [alignTo, Nat.mod_eq_zero_of_dvd h]

theorem room_of_align {base base' room : Nat} (hpos : 0 < align) (hn : n ≤ room)
    (h : align ∣ base' ∨ n + align ≤ room) (hbase : base' ∣ base) : n + alignTo base align ≤ room := by
  rcases h with hdvd | hroom
  · rw [alignTo_of_dvd (Nat.dvd_trans hdvd hbase)]
    exact hn
  · have : alignTo base align < align := alignTo_lt hpos
    omega

theorem slabSizeFor_spec (hpos : 0 < cfg.slabSize) (hlt : cfg.slabSize < 2 ^ 32) (hsize : size + cfg.slabSize ≤ 2 ^ 32) :
    size ≤ slabSizeFor cfg size ∧ cfg.slabSize ≤ slabSizeFor cfg size ∧ slabSizeFor cfg size < 2 ^ 32 := by
  have hoff : alignTo size cfg.slabSize < cfg.slabSize := alignTo_lt hpos
  have hdvd : cfg.slabSize ∣ size + alignTo size cfg.slabSize := dvd_add_alignTo hpos
  have hmod : (size + alignTo size cfg.slabSize) % 2 ^ 32 = size + alignTo size cfg.slabSize :=
    Nat.mod_eq_of_lt (by omega)
  simp only [slabSizeFor, hmod]
  split
  · omega
  · exact ⟨by omega, Nat.le_of_dvd (by omega) hdvd, by omega⟩

end Alignment

def SameRegions (s s' : BumpState ι) : Prop :=
  s'.made = s.made ∧ ∀ q, (s'.slabs q).memory = (s.slabs q).memory ∧ (s'.slabs q).size = (s.slabs q).size

section

omit [DecidableEq ι]

theorem SameRegions.fresh (h : SameRegions s s') (hf : s.Fresh cfg env size) : s'.Fresh cfg env size := by
  intro p memory hp
  obtain ⟨hpm, hdvd, hap⟩ := hf p memory hp
  rw [h.1]
  refine ⟨hpm, hdvd, fun q hq => ?_⟩
  rw [(h.2 q).1, (h.2 q).2]
  exact hap q hq

theorem sameRegions_update {slab : BumpPointerSlab} (hmade : s'.made = s.made)
    (hslabs : s'.slabs = update s.slabs p slab) (hm : slab.memory = (s.slabs p).memory)
    (hs : slab.size = (s.slabs p).size) : SameRegions s s' := by
  refine ⟨hmade, fun q => ?_⟩
  rw [hslabs]
  by_cases hq : q = p
  · subst hq
    simp [hm, hs]
  · simp [hq]

theorem Origin.of_regions (h : Origin env i s₁ L size p s') (hreg : SameRegions s s₁) : Origin env i s L size p s' := by
  obtain ⟨hm, hr⟩ := hreg
  cases h with
  | recycled P hP hp hm' hmem hsize hle =>
    rw [(hr p).1] at hmem
    rw [(hr p).2] at hsize hle
    exact .recycled P hP hp (hm'.trans hm) hmem hsize hle
  | new hp hm' hf hsize => exact .new (hm ▸ hp) (hm'.trans (congrArg _ hm)) hf hsize

theorem Origin.congr (h : Origin env i s L size p s₁) (hreg : SameRegions s₁ s') : Origin env i s L size p s' := by
  obtain ⟨hm, hr⟩ := hreg
  cases h with
  | recycled P hP hp hm' hmem hsize hle =>
    exact .recycled P hP hp (hm.trans hm') ((hr p).1.trans hmem) ((hr p).2.trans hsize) hle
  | new hp hm' hf hsize => exact .new hp (hm.trans hm') (by rw [(hr p).1]; exact hf) ((hr p).2.trans hsize)

theorem placeInCurr_spec (h : BumpInv cfg i s L none) (hc : (s.allocator i).curr = some p)
    (halign : 0 < align) (hwrap : size + align ≤ 2 ^ 32) :
    Ends (fun _ => False) (fun r => r.1 = p ∧ BumpInv cfg i r.2.2 L none ∧ SameRegions s r.2.2 ∧
      r.2.2.allocator = s.allocator ∧ r.2.2.live = s.live ∧ (∀ q, q ≠ p → r.2.2.slabs q = s.slabs q) ∧
      match r.2.1 with
        | .staged => size = 0 ∧ r.2.2 = s
        | .fits => 0 < size ∧ size ≤ (r.2.2.slabs p).remaining ∧
            align ∣ (r.2.2.slabs p).memory + (r.2.2.slabs p).index ∧
            (r.2.2.slabs p).index = (s.slabs p).index + alignTo ((s.slabs p).memory + (s.slabs p).index) align
        | .wasted => 0 < size ∧ (r.2.2.slabs p).remaining = 0 ∧ (r.2.2.slabs p).index = (s.slabs p).size ∧
            (s.slabs p).remaining < size + alignTo ((s.slabs p).memory + (s.slabs p).index) align)
      (placeInCurr s i align size) := by
  have hp := h.curr_mem hc
  have hkept := h.kept _ p hp
  have hsz := (h.bounds p (h.mem_made hp)).2.1
  have hoff : alignTo ((s.slabs p).memory + (s.slabs p).index) align < align := alignTo_lt halign
  have hdvd : align ∣ _ := dvd_add_alignTo (x := (s.slabs p).memory + (s.slabs p).index) halign
  have hne : ∀ (slab : BumpPointerSlab) (q : SlabPtr), q ≠ p → (s.setSlab p slab).slabs q = s.slabs q :=
    fun slab q hq => update_of_ne hq _ _
  unfold placeInCurr
  rw [hc]
  simp only
  by_cases hz : size = 0
  · rw [if_pos hz]
    exact ⟨rfl, h, ⟨rfl, fun _ => ⟨rfl, rfl⟩⟩, rfl, rfl, fun _ _ => rfl, hz, rfl⟩
  · have hmod : (size + alignTo ((s.slabs p).memory + (s.slabs p).index) align) % 2 ^ 32 = _ :=
      Nat.mod_eq_of_lt (by omega)
    rw [if_neg hz]
    rw [assert_bind (by omega), assert_bind (by omega), hmod]
    split
    · rename_i hfits
      have hi : ((s.slabs p).index + alignTo ((s.slabs p).memory + (s.slabs p).index) align) % 2 ^ 32 = _ :=
        Nat.mod_eq_of_lt (by omega)
      have hr : ((s.slabs p).remaining + 2 ^ 32 - alignTo ((s.slabs p).memory + (s.slabs p).index) align) % 2 ^ 32 =
          (s.slabs p).remaining - alignTo ((s.slabs p).memory + (s.slabs p).index) align := by
        omega
      rw [hi, hr]
      refine ⟨rfl, h.advance hp (by omega) (by omega), sameRegions_update rfl rfl rfl rfl, rfl, rfl, hne _, by omega, ?_, ?_,
        ?_⟩
      · simp only [BumpState.setSlab, update_self]
        omega
      · simpa [Nat.add_assoc] using hdvd
      · simp
    · rename_i hfits
      refine ⟨rfl, h.advance hp (by omega) (by omega), sameRegions_update rfl rfl rfl rfl, rfl, rfl, hne _, by omega, ?_, ?_,
        by omega⟩
      · simp
      · simp

end

theorem ensureSlab_take (h : BumpInv cfg i s L none) (hfresh : s.Fresh cfg env (slabSizeFor cfg size))
    (hsize : cfg.slabSize ≤ slabSizeFor cfg size) (hlt : slabSizeFor cfg size < 2 ^ 32)
    (hneed : ∀ p, (s.allocator i).curr = some p → (s.slabs p).remaining < size ∧ 0 < (s.slabs p).index) :
    Ends (MayStop env fuel s.made.length)
      (fun r => r.1 = true ∧ ∃ p L', Taken cfg env i s L (slabSizeFor cfg size) p r.2 L')
      (ensureSlab cfg fuel env s i size got) := by
  have htake : Ends (MayStop env fuel s.made.length) _ _ := takeSlab_spec h hfresh hsize hlt
  unfold ensureSlab
  cases hc : (s.allocator i).curr with
  | none => exact htake.bind fun s' hs' => ⟨rfl, hs'⟩
  | some p =>
    obtain ⟨hrem, hidx⟩ := hneed p hc
    simp only
    rw [if_pos hrem, assert_bind hidx]
    exact htake.bind fun s' hs' => ⟨rfl, hs'⟩

theorem ensureSlab_keep (hc : (s.allocator i).curr = some p) (hle : size ≤ (s.slabs p).remaining) :
    ensureSlab cfg fuel env s i size got = .ok (got, s) := by
  simp only [ensureSlab, hc, if_neg (Nat.not_lt.mpr hle)]
  rfl

structure Fits (cfg : AllocatorConfig) (align size : Nat) : Prop where
  pos : 0 < align
  wrap : size + align ≤ 2 ^ 32
  size_le : size ≤ slabSizeFor cfg size
  slab_le : cfg.slabSize ≤ slabSizeFor cfg size
  slab_lt : slabSizeFor cfg size < 2 ^ 32
  room : size = 0 ∨ ∀ base, cfg.baseAlign ∣ base → size + alignTo base align ≤ slabSizeFor cfg size

/-- Where the loop of `allocate_bare` found room: after the padding in the current slab, or in a slab that it took. -/
inductive Spot (cfg : AllocatorConfig) (env : BumpEnv) (i : ι) (s : BumpState ι) (L : SlabLists ι) (align size : Nat)
    (p : SlabPtr) (addr : Nat) (s' : BumpState ι) (L' : SlabLists ι) : Prop where
  | inPlace : (s.allocator i).curr = some p → L' = L → SameRegions s s' →
      addr = (s.slabs p).memory + (s.slabs p).index + alignTo ((s.slabs p).memory + (s.slabs p).index) align →
      Spot cfg env i s L align size p addr s' L'
  | taken : Origin env i s L (slabSizeFor cfg size) p s' → L' (.curr i) = p :: L (.curr i) →
      (∀ j, j ≠ i → L' (.curr j) = L (.curr j)) → (∀ P : SlabPlace ι, P.FreeFor i → ∀ q ∈ L' P, q ∈ L P) →
      addr = (s'.slabs p).memory + alignTo (s'.slabs p).memory align → Spot cfg env i s L align size p addr s' L'

def LeftAlone (i : ι) (s s' : BumpState ι) (q : SlabPtr) : Prop :=
  (s'.slabs q).memory = (s.slabs q).memory ∧ (s'.slabs q).size = (s.slabs q).size ∧
    ((s'.slabs q).index = (s.slabs q).index ∨
      (s.allocator i).curr = some q ∧ (s'.slabs q).index = (s.slabs q).size)

variable (cfg env i s L align size p s') in
structure Found (L' : SlabLists ι) : Prop where
  inv : BumpInv cfg i s' L' none
  spot : Spot cfg env i s L align size p ((s'.slabs p).memory + (s'.slabs p).index) s' L'
  curr_eq : (s'.allocator i).curr = some p
  live : s'.live = s.live
  others : ∀ q, q ≠ p → LeftAlone i s s' q
  pos : 0 < size
  room : size ≤ (s'.slabs p).remaining
  dvd : align ∣ (s'.slabs p).memory + (s'.slabs p).index
  used : ∀ q, q ≠ p → (s.allocator i).curr = some q → 0 < (s'.slabs q).index

variable (cfg env i s L align size p) in
structure LoopDone (round : Option Nat) (s' : BumpState ι) : Prop where
  made_le : s'.made.length ≤ s.made.length + 1
  last_eq : (s'.allocator i).lastAllocationSize = (s.allocator i).lastAllocationSize
  staged : round = none → size = 0 ∧ ((s.allocator i).curr = some p ∧ s' = s ∨
    (s.allocator i).curr = none ∧ ∃ L', Taken cfg env i s L (slabSizeFor cfg 0) p s' L')
  found : ∀ n, round = some n → n ≤ 2 ∧ ∃ L', Found cfg env i s L align size p s' L'

theorem loop_take {rounds round : Nat} (h : BumpInv cfg i s L none) (hfits : Fits cfg align size)
    (hfresh : s.Fresh cfg env (slabSizeFor cfg size)) (hround : round ≤ 2)
    (hneed : ∀ p, (s.allocator i).curr = some p → (s.slabs p).remaining < size ∧ 0 < (s.slabs p).index) :
    Ends (MayStop env fuel s.made.length) (fun r => LoopDone cfg env i s L align size r.1 r.2.1 r.2.2)
      (allocateBareLoop cfg fuel env i align size (rounds + 1) round false s) := by
  refine ends_assert rfl ?_
  refine (ensureSlab_take h hfresh hfits.slab_le hfits.slab_lt hneed).bind ?_
  rintro ⟨got, s₁⟩ ⟨_, p, L₁, htaken⟩
  have h₁ := htaken.inv
  refine ((placeInCurr_spec h₁ htaken.curr_eq hfits.pos hfits.wrap).mono (fun _ => id) fun _ => False.elim).bind ?_
  rintro ⟨p', placement, s₂⟩ ⟨rfl, h₂, hreg, hall, hlive, hne, hpl⟩
  simp only at h₂ hreg hall hlive hne hpl ⊢
  have hcurr : (s₂.allocator i).curr = some p' := by rw [hall]; exact htaken.curr_eq
  have hmade : s₂.made.length ≤ s.made.length + 1 := by rw [hreg.1]; exact htaken.origin.made_le
  have hlast : (s₂.allocator i).lastAllocationSize = (s.allocator i).lastAllocationSize := by
    rw [hall]; exact htaken.last_eq
  cases placement with
  | staged =>
    obtain ⟨rfl, rfl⟩ := hpl
    refine ⟨hmade, hlast, fun _ => ⟨rfl, .inr ⟨?_, L₁, htaken⟩⟩, by simp⟩
    cases hc : (s.allocator i).curr with
    | none => rfl
    | some q => exact absurd (hneed q hc).1 (Nat.not_lt_zero _)
  | fits =>
    obtain ⟨hpos, hle, hdvd, hidx⟩ := hpl
    refine ⟨hmade, hlast, by simp, ?_⟩
    rintro n ⟨⟩
    refine ⟨hround, L₁, h₂, ?_, hcurr, hlive.trans htaken.live, fun q hq => ?_, hpos, hle, hdvd, fun q hq hc => ?_⟩
    · refine .taken (htaken.origin.congr hreg) htaken.curr htaken.curr_ne htaken.free ?_
      rw [hidx, htaken.index_eq, (hreg.2 p').1, Nat.add_zero, Nat.zero_add]
    · obtain ⟨hm, hi, _, hs⟩ := htaken.data q hq
      rw [LeftAlone, hne q hq]
      exact ⟨hm, hs, .inl hi⟩
    · rw [hne q hq, (htaken.data q hq).2.1]
      exact (hneed q hc).2
  | wasted =>
    obtain ⟨hpos, _, _, hlt⟩ := hpl
    have hb := h₁.bounds p' (h₁.mem_made (h₁.curr_mem htaken.curr_eq))
    have hle := htaken.origin.size_le
    rw [htaken.index_eq, htaken.remaining_eq, Nat.add_zero] at hlt
    -- a new slab is not too small for an aligned request
    rcases hfits.room with hz | hroom
    · omega
    · have : size + alignTo (s₁.slabs p').memory align ≤ slabSizeFor cfg size := hroom _ hb.2.2
      omega

variable {L' : SlabLists ι}

omit [DecidableEq ι] in
theorem Found.after_waste {c : SlabPtr}
    (h : Found cfg env i s₁ L align size p s' L') (hreg : SameRegions s s₁) (hall : s₁.allocator = s.allocator)
    (hlive : s₁.live = s.live) (hc : (s.allocator i).curr = some c) (hrem : (s₁.slabs c).remaining = 0)
    (hidx : (s₁.slabs c).index = (s.slabs c).size) (hne : ∀ q, q ≠ c → s₁.slabs q = s.slabs q) :
    Found cfg env i s L align size p s' L' where
  __ := h
  spot := by
    cases h.spot with
    | inPlace hp hL hreg' hidx' =>
      -- there is no room in the slab that was wasted
      rw [hall, hc] at hp
      cases hp
      subst hL
      have hroom := h.room
      have hpos := h.pos
      have hkept := h.inv.kept _ _ (h.inv.curr_mem h.curr_eq)
      rw [(hreg'.2 _).2, (hreg.2 _).2] at hkept
      rw [(hreg'.2 _).1, hidx] at hidx'
      omega
    | taken horigin hcurr hcurr' hfree hidx' => exact .taken (horigin.of_regions hreg) hcurr hcurr' hfree hidx'
  live := h.live.trans hlive
  others q hq := by
    obtain ⟨hm, hs, hi⟩ := h.others q hq
    rw [(hreg.2 q).1] at hm
    rw [(hreg.2 q).2] at hs hi
    refine ⟨hm, hs, ?_⟩
    by_cases hqc : q = c
    · subst hqc
      rw [hidx] at hi
      exact .inr ⟨hc, hi.elim id And.right⟩
    · rw [hne q hqc, hall] at hi
      exact hi
  used q hq hc' := h.used q hq (hall ▸ hc')

theorem loop_spec (h : BumpInv cfg i s L none) (hfits : Fits cfg align size) (hfresh : s.Fresh cfg env (slabSizeFor cfg size))
    (hused : ∀ p, (s.allocator i).curr = some p → (s.slabs p).remaining < size → 0 < (s.slabs p).index) :
    Ends (MayStop env fuel s.made.length) (fun r => LoopDone cfg env i s L align size r.1 r.2.1 r.2.2)
      (allocateBareLoop cfg fuel env i align size 3 0 false s) := by
  by_cases hkeep : ∃ p, (s.allocator i).curr = some p ∧ size ≤ (s.slabs p).remaining
  · obtain ⟨p, hc, hle⟩ := hkeep
    refine ends_assert rfl ?_
    rw [ensureSlab_keep hc hle]
    refine ((placeInCurr_spec h hc hfits.pos hfits.wrap).mono (fun _ => id) fun _ => False.elim).bind ?_
    rintro ⟨p', placement, s₁⟩ ⟨rfl, h₁, hreg, hall, hlive, hne, hpl⟩
    simp only at hc hle h₁ hreg hall hlive hne hpl ⊢
    have hcurr : (s₁.allocator i).curr = some p' := by rw [hall]; exact hc
    have hmade : s₁.made.length ≤ s.made.length + 1 := by rw [hreg.1]; exact Nat.le_succ _
    have hlast : (s₁.allocator i).lastAllocationSize = (s.allocator i).lastAllocationSize := by rw [hall]
    cases placement with
    | staged => exact ⟨hmade, hlast, fun _ => ⟨hpl.1, .inl ⟨hc, hpl.2⟩⟩, by simp⟩
    | fits =>
      obtain ⟨hpos, hroom, hdvd, hidx⟩ := hpl
      refine ⟨hmade, hlast, by simp, ?_⟩
      rintro n ⟨⟩
      refine ⟨by omega, L, h₁, .inPlace hc rfl hreg ?_, hcurr, hlive, fun q hq => ?_, hpos, hroom, hdvd,
        fun q hq hcq => absurd (Option.some.inj (hcq.symm.trans hc)) hq⟩
      · rw [hidx, (hreg.2 p').1, Nat.add_assoc]
      · rw [LeftAlone, hne q hq]
        exact ⟨rfl, rfl, .inl rfl⟩
    | wasted =>
      obtain ⟨hpos, hrem, hidx, _⟩ := hpl
      have hkept := h.kept _ p' (h.curr_mem hc)
      have hneed : ∀ q, (s₁.allocator i).curr = some q →
          (s₁.slabs q).remaining < size ∧ 0 < (s₁.slabs q).index := by
        intro q hq
        rw [hcurr] at hq
        cases hq
        rw [hrem, hidx]
        exact ⟨hpos, by omega⟩
      refine (loop_take h₁ hfits (hreg.fresh hfresh) (by omega) hneed).mono ?_ ?_
      · intro r hr
        refine ⟨?_, hr.last_eq.trans hlast, fun hn => absurd (hr.staged hn).1 (by omega), fun n hn => ?_⟩
        · rw [← hreg.1]; exact hr.made_le
        · obtain ⟨hn, L', hf⟩ := hr.found n hn
          exact ⟨hn, L', hf.after_waste hreg hall hlive hc hrem hidx hne⟩
      · rw [hreg.1]
        exact fun _ => id
  · refine loop_take h hfits hfresh (by omega) fun p hp => ?_
    have hlt : (s.slabs p).remaining < size := Nat.lt_of_not_le fun hle => hkeep ⟨p, hp, hle⟩
    exact ⟨hlt, hused p hp hlt⟩

theorem heads_keep (a : BumpPointerAllocator) (hc : a.curr = (s.allocator i).curr)
    (hf : a.free = (s.allocator i).free) : (s.setAllocator i a).heads = s.heads := by
  rw [heads_setAllocator, hc, hf, show (s.allocator i).free = s.heads (.free i) from rfl, update_eq_self,
    show (s.allocator i).curr = s.heads (.curr i) from rfl, update_eq_self]

theorem BumpInv.forgetLast (h : BumpInv cfg i s L F) : BumpInv cfg i (forgetLast s i) L F := by
  have hheads : (Memory.forgetLast s i).heads = s.heads := heads_keep _ rfl rfl
  refine h.relink (SameData.refl _) rfl rfl rfl ?_ ?_ h.floating (fun _ => Iff.rfl) h.kept h.clean
    fun j b hb => (h.inside j b hb).mem
  · exact fun j hj => update_of_ne hj _ _
  · rw [hheads]
    exact h.lists

theorem forgetLast_size : ((forgetLast s i).allocator i).lastAllocationSize = 0 := by
  simp [forgetLast]

omit [DecidableEq ι] in
theorem lastOk_of_size (h : (s.allocator i).lastAllocationSize = 0) : LastOk s i := fun hne => absurd h hne

omit [DecidableEq ι] in
theorem BumpInv.apart_of_ne (h : BumpInv cfg i s L F) {Q : SlabPlace ι} {q : SlabPtr} (hp : p ∈ L P) (hq : q ∈ L Q)
    (hpq : p ≠ q) {a m b : Nat} (ha : (s.slabs p).memory ≤ a)
    (ham : a + m ≤ (s.slabs p).memory + (s.slabs p).size) (hb : (s.slabs q).memory ≤ b)
    (hbn : b + n ≤ (s.slabs q).memory + (s.slabs q).size) : Apart a m b n :=
  (h.apart p (h.mem_made hp) q (h.mem_made hq) hpq).mono ha ham hb hbn

variable (cfg env i s L align size) in
structure Allocated (b : LiveAllocation) (s' : BumpState ι) (L' : SlabLists ι) : Prop where
  inv : BumpInv cfg i s' L' none
  spot : Spot cfg env i s L align size b.slab b.addr s' L'
  size_eq : b.size = size
  dvd : align ∣ b.addr
  curr_eq : (s'.allocator i).curr = some b.slab
  last : (s'.allocator i).lastAllocation = b.addr ∧ (s'.allocator i).lastAllocationSize = size ∧
    (s'.allocator i).lastAllocationSlab = some b.slab
  live : s'.live = update s.live i (b :: s.live i)
  others : ∀ q, q ≠ b.slab → LeftAlone i s s' q
  end_eq : b.addr + size = (s'.slabs b.slab).memory + (s'.slabs b.slab).index
  used : ∀ q, q ≠ b.slab → (s.allocator i).curr = some q → 0 < (s'.slabs q).index

theorem Allocated.lastOk {b : LiveAllocation}
    (h : Allocated cfg env i s L align size b s' L') : LastOk s' i := by
  obtain ⟨haddr, hsize, _⟩ := h.last
  intro _
  refine ⟨b, ?_, h.curr_eq, haddr.symm, h.size_eq.trans hsize.symm, by rw [h.size_eq]; exact h.end_eq⟩
  rw [h.live, update_self]
  exact List.mem_cons_self

omit [DecidableEq ι] in
theorem Spot.congr (h : Spot cfg env i s L align size p addr s₁ L') (hreg : SameRegions s₁ s') :
    Spot cfg env i s L align size p addr s' L' := by
  cases h with
  | inPlace hc hL hreg' haddr =>
    refine .inPlace hc hL ⟨hreg.1.trans hreg'.1, fun q => ⟨?_, ?_⟩⟩ haddr
    · exact (hreg.2 q).1.trans (hreg'.2 q).1
    · exact (hreg.2 q).2.trans (hreg'.2 q).2
  | taken ho hc hc' hf haddr => exact .taken (ho.congr hreg) hc hc' hf (by rw [(hreg.2 p).1]; exact haddr)

theorem checkInitialised_spec {bytes : Nat → UInt8} {value : UInt8} {size : Nat}
    (h : ∀ a, addr ≤ a → a < addr + size → bytes a = value) :
    Ends (fun _ => False) (fun _ => True) (checkInitialised bytes value size addr) := by
  induction size generalizing addr with
  | zero => trivial
  | succ size ih =>
    exact ends_assert (h addr (Nat.le_refl _) (by omega)).symm (ih fun a hlo hhi => h a (by omega) (by omega))

theorem bump_spec {s₀ : BumpState ι} {L₀ : SlabLists ι} (hf : Found cfg env i s₀ L₀ align size p s L) :
    Ends (fun _ => False) (fun r => ∃ b, r.1 = b.addr ∧ Allocated cfg env i s₀ L₀ align size b r.2 L ∧ r.2.made = s.made)
      (bump cfg s i p align size) := by
  have h := hf.inv
  have hpos := hf.pos
  have hle := hf.room
  have hc := hf.curr_eq
  have hp := h.curr_mem hc
  have hkept := h.kept _ p hp
  have hb := h.bounds p (h.mem_made hp)
  have hi : ((s.slabs p).index + size) % 2 ^ 32 = (s.slabs p).index + size := Nat.mod_eq_of_lt (by omega)
  have hr : ((s.slabs p).remaining + 2 ^ 32 - size) % 2 ^ 32 = (s.slabs p).remaining - size := by omega
  simp only [bump]
  refine ends_assert hle ((checkInitialised_spec fun a hlo hhi => ?_).bind fun _ _ => ?_)
  · exact h.clean i p hp a hlo (by omega)
  rw [hi, hr]
  refine ends_assert (by omega) (ends_assert (Nat.mod_eq_zero_of_dvd hf.dvd) ?_)
  have hnew : ∀ b ∈ s.live i, Apart ((s.slabs p).memory + (s.slabs p).index) size b.addr b.size := by
    intro b hb
    have hin := h.inside i b hb
    have hle := hin.le_index
    by_cases hbp : b.slab = p
    · rw [hbp] at hle
      exact Or.inr hle
    · have := h.kept _ _ hin.mem
      exact h.apart_of_ne hp hin.mem (Ne.symm hbp) (by omega) (by omega) hin.memory_le (by omega)
  refine ⟨{ addr := (s.slabs p).memory + (s.slabs p).index, size, align, slab := p }, rfl, ⟨?_, ?_, rfl, hf.dvd, ?_, ?_, ?_,
    fun q hq => ?_, ?_, fun q hq hcq => ?_⟩, rfl⟩
  · refine h.reuse hp rfl rfl rfl rfl ?_ rfl ?_ ?_ (fun _ _ => rfl) ?_ ?_ ?_
    · simp only
      omega
    · exact heads_keep _ rfl rfl
    · exact fun j hj => ⟨update_of_ne hj _ _, update_of_ne hj _ _⟩
    · intro a hlo hhi
      simp only [BumpState.setLive, BumpState.setSlab, BumpState.setAllocator, update_self] at hlo hhi ⊢
      exact h.clean i p hp a (by omega) hhi
    · intro b hb
      simp only [BumpState.setLive, update_self, List.mem_cons] at hb
      rcases hb with rfl | hb
      · refine ⟨hp, hpos, ?_, ?_, hf.dvd⟩
        · simp
        · simp only [BumpState.setLive, BumpState.setSlab, update_self]
          omega
      · exact (h.inside i b hb).advance rfl rfl (Nat.le_add_right _ _)
    · simp only [BumpState.setLive, update_self, List.pairwise_cons]
      exact ⟨hnew, h.disjoint i⟩
  · exact hf.spot.congr (sameRegions_update rfl rfl rfl rfl)
  · simp [hc]
  · simp
  · simp [hf.live]
  · have := hf.others q hq
    simpa [LeftAlone, show q ≠ p from hq] using this
  · simp [Nat.add_assoc]
  · simpa [show q ≠ p from hq] using hf.used q hq hcq

theorem forgetLast_curr : ((forgetLast s i).allocator i).curr = (s.allocator i).curr := by
  simp [forgetLast]

theorem Spot.of_forgetLast
    (h : Spot cfg env i (forgetLast s i) L align size p addr s' L') : Spot cfg env i s L align size p addr s' L' := by
  cases h with
  | inPlace hc hL hreg haddr => exact .inPlace (by rwa [forgetLast_curr] at hc) hL hreg haddr
  | taken ho hc hc' hf haddr => exact .taken (ho.of_regions ⟨rfl, fun _ => ⟨rfl, rfl⟩⟩) hc hc' hf haddr

theorem allocateBare_spec (h : BumpInv cfg i s L none) (hfits : Fits cfg align size) (hpos : 0 < size)
    (hfresh : s.Fresh cfg env (slabSizeFor cfg size))
    (hused : ∀ p, (s.allocator i).curr = some p → (s.slabs p).remaining < size → 0 < (s.slabs p).index) :
    Ends (MayStop env fuel s.made.length) (fun r => r.2.made.length ≤ s.made.length + 1 ∧
      ∃ b L', r.1 = b.addr ∧ Allocated cfg env i s L align size b r.2 L')
      (allocateBare cfg fuel env s i align size) := by
  have hcurr := forgetLast_curr (s := s) (i := i)
  refine ends_assert hfits.slab_le ?_
  refine (loop_spec h.forgetLast hfits hfresh fun p hp => hused p (hcurr ▸ hp)).bind ?_
  rintro ⟨p, round, s'⟩ hdone
  cases round with
  | none => exact absurd (hdone.staged rfl).1 (by omega)
  | some n =>
    obtain ⟨hn, L', hf⟩ := hdone.found n rfl
    refine ends_assert hn ((bump_spec hf).mono ?_ fun _ => False.elim)
    rintro r ⟨b, haddr, ha, hm⟩
    refine ⟨by rw [hm]; exact hdone.made_le, b, L', haddr, ha.inv, ha.spot.of_forgetLast, ha.size_eq, ha.dvd,
      ha.curr_eq, ha.last, ha.live, fun q hq => ?_, ha.end_eq, fun q hq hc => ha.used q hq (hcurr.trans hc)⟩
    obtain ⟨hm, hs, hi⟩ := ha.others q hq
    rw [hcurr] at hi
    exact ⟨hm, hs, hi⟩

variable (cfg env i s L p s') in
inductive Staged (L' : SlabLists ι) : Prop where
  | had : (s.allocator i).curr = some p → s' = forgetLast s i → L' = L → Staged L'
  | took : (s.allocator i).curr = none → Taken cfg env i (forgetLast s i) L (slabSizeFor cfg 0) p s' L' → Staged L'

section Staged

variable (hst : Staged cfg env i s L p s' L')

include hst

theorem Staged.inv (h : BumpInv cfg i s L none) : BumpInv cfg i s' L' none := by
  cases hst with
  | had _ hs hL =>
    subst hs hL
    exact h.forgetLast
  | took _ ht => exact ht.inv

theorem Staged.curr_eq : (s'.allocator i).curr = some p := by
  cases hst with
  | had hc hs _ =>
    subst hs
    simpa [forgetLast] using hc
  | took _ ht => exact ht.curr_eq

theorem Staged.last_eq : (s'.allocator i).lastAllocationSize = 0 := by
  cases hst with
  | had _ hs _ =>
    subst hs
    exact forgetLast_size
  | took _ ht => exact ht.last_eq.trans (forgetLast_size)

theorem Staged.made_le : s'.made.length ≤ s.made.length + 1 := by
  cases hst with
  | had _ hs _ =>
    subst hs
    exact Nat.le_succ _
  | took _ ht => exact ht.origin.made_le

end Staged

theorem allocateBare_staged (h : BumpInv cfg i s L none) (hfits : Fits cfg align 0)
    (hfresh : s.Fresh cfg env (slabSizeFor cfg 0)) :
    Ends (MayStop env fuel s.made.length) (fun r => ∃ p L', Staged cfg env i s L p r.2 L')
      (allocateBare cfg fuel env s i align 0) := by
  have hcurr := forgetLast_curr (s := s) (i := i)
  refine ends_assert hfits.slab_le ?_
  refine (loop_spec h.forgetLast hfits hfresh (by simp)).bind ?_
  rintro ⟨p, round, s'⟩ hdone
  cases round with
  | none =>
    obtain ⟨hc, hs⟩ | ⟨hc, L', ht⟩ := (hdone.staged rfl).2
    · exact ⟨p, L, .had (hcurr ▸ hc) hs rfl⟩
    · exact ⟨p, L', .took (hcurr ▸ hc) ht⟩
  | some n =>
    obtain ⟨_, L', hf⟩ := hdone.found n rfl
    exact absurd hf.pos (Nat.lt_irrefl 0)

end Granary.Memory
