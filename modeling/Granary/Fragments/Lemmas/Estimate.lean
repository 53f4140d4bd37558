import Granary.Fragments.Estimate
import Granary.Fragments.Lemmas.Translate
import Granary.Memory.Lemmas.Aligned

/-!
# Where an estimated trace ends up

Only the current slab of a fragment allocator can be unused: a slab is pushed on top of one that is in use. So after the
staged allocation gave an unused slab back, the next one is in use, and the trace can get memory of its own.
-/

namespace Granary.Fragments

open Memory Outcome Ranges List Nat

attribute [local simp] BumpState.setAllocator

variable {ι κ : Type} {cfg : AllocatorConfig} {i j : ι} {s s' s₁ : BumpState ι}
  {L L' L₁ : SlabLists ι} {env : BumpEnv} {b : LiveAllocation} {p q : SlabPtr} {fuel n size : Nat}

/-! ## Slabs below the current one -/

def UsedBelow (s : BumpState ι) (L : SlabLists ι) : Prop :=
  ∀ j, ∀ q ∈ (L (.curr j)).tail, 0 < (s.slabs q).index

theorem ne_of_mem_tail (h : BumpInv cfg i s L none) (hc : (s.allocator i).curr = some p) (hq : q ∈ (L (.curr j)).tail) :
    q ≠ p := by
  rintro rfl
  obtain ⟨l, hl⟩ := h.curr_cons hc
  have hcurr : q ∈ L (.curr i) := by rw [hl]; exact mem_cons_self
  cases h.lists.place (mem_of_mem_tail hq) hcurr
  have hnodup := (h.lists.chain (.curr i)).nodup
  rw [hl] at hq hnodup
  exact (nodup_cons.mp hnodup).1 hq

theorem UsedBelow.of_ne (hused : UsedBelow s L) (h : BumpInv cfg i s L none) (hq : q ∈ L (.curr i))
    (hc : (s.allocator i).curr ≠ some q) : 0 < (s.slabs q).index := by
  refine hused i q ?_
  have hhead := (h.lists.chain (.curr i)).head_eq
  cases hl : L (.curr i) with
  | nil => rw [hl] at hq; cases hq
  | cons p l =>
    rw [hl] at hq hhead
    exact (mem_cons.mp hq).resolve_left fun he => hc (he ▸ hhead)

variable [DecidableEq ι]

theorem UsedBelow.allocated {align : Nat} (hused : UsedBelow s L) (h : BumpInv cfg i s L none)
    (ha : Allocated cfg env i s L align size b s' L') : UsedBelow s' L' := by
  intro j q hq
  have hne := ne_of_mem_tail ha.inv ha.curr_eq hq
  by_cases hc : (s.allocator i).curr = some q
  · exact ha.used q hne hc
  · -- the other slabs are left alone
    have hidx : (s'.slabs q).index = (s.slabs q).index := (ha.others q hne).2.2.resolve_right fun h => hc h.1
    rw [hidx]
    cases ha.spot with
    | inPlace _ hL _ _ => exact hused j q (hL ▸ hq)
    | taken _ hcurr hcurr' _ _ =>
      by_cases hj : j = i
      · subst hj
        rw [hcurr, tail_cons] at hq
        exact hused.of_ne h hq hc
      · exact hused j q (hcurr' j hj ▸ hq)

/-! ## Between and during calls -/

structure FragmentInv (i : ι) (s : BumpState ι) (L : SlabLists ι) : Prop where
  inv : BumpInv fragmentAllocatorConfig i s L none
  pages : ∀ q ∈ s.made, pageSize ∣ (s.slabs q).size
  used : UsedBelow s L

def FragmentOk (s : BumpState ι) : Prop := ∃ L, ∀ i, FragmentInv i s L ∧ LastOk s i

omit [DecidableEq ι] in
theorem FragmentInv.ok (h : FragmentInv i s L) (hlast : LastOk s i) : FragmentOk s := by
  have hall : ∀ j, LastOk s j := by
    intro j
    by_cases hj : j = i
    · exact hj ▸ hlast
    · exact h.inv.last j hj
  exact ⟨L, fun j => ⟨⟨{ h.inv with last := fun k _ => hall k }, h.pages, h.used⟩, hall j⟩⟩

omit [DecidableEq ι] in
theorem Grew.pages (hg : Grew env n s s') (hn : pageSize ∣ n) (h : ∀ q ∈ s.made, pageSize ∣ (s.slabs q).size) :
    ∀ q ∈ s'.made, pageSize ∣ (s'.slabs q).size := by
  intro q hq
  have hold : q ∈ s.made → pageSize ∣ (s'.slabs q).size := fun hq => by
    rw [(hg.regions q hq).2]
    exact h q hq
  obtain hm | ⟨p, hm, _, hsize⟩ := hg.made
  · exact hold (hm ▸ hq)
  · rcases mem_cons.mp (hm ▸ hq) with rfl | hq
    · exact hsize ▸ hn
    · exact hold hq

namespace FragmentInv

section

variable (h : FragmentInv i s L)
include h

theorem forgetLast : FragmentInv i (forgetLast s i) L := ⟨h.inv.forgetLast, h.pages, h.used⟩

theorem taken (hc : (s.allocator i).curr = none)
    (ht : Taken fragmentAllocatorConfig env i s L pageSize p s' L') : FragmentInv i s' L' := by
  have hgrew : Grew env pageSize s s' := grew_of_origin ht.origin fun q hq => ⟨(ht.data q hq).1, (ht.data q hq).2.2.2⟩
  refine ⟨ht.inv, hgrew.pages (dvd_refl _) h.pages, fun j q hq => ?_⟩
  rw [(ht.data q (ne_of_mem_tail ht.inv ht.curr_eq hq)).2.1]
  by_cases hj : j = i
  · subst hj
    rw [ht.curr, tail_cons] at hq
    exact h.used.of_ne h.inv hq (by simp [hc])
  · exact h.used j q (ht.curr_ne j hj ▸ hq)

theorem staged (hst : Staged fragmentAllocatorConfig env i s L p s' L') : FragmentInv i s' L' := by
  cases hst with
  | had _ hs hL =>
    subst hs hL
    exact h.forgetLast
  | took hc ht =>
    refine h.forgetLast.taken ?_ ht
    simpa [Memory.forgetLast] using hc

theorem unbumped (hc : (s.allocator i).curr = some b.slab)
    (hu : Unbumped fragmentAllocatorConfig i s L b s') : FragmentInv i s' L := by
  refine ⟨hu.inv, fun q hq => ?_, fun j q hq => ?_⟩
  · rw [(hu.regions.2 q).2]
    exact h.pages q (hu.regions.1 ▸ hq)
  · rw [hu.others q (ne_of_mem_tail h.inv hc hq)]
    exact h.used j q hq

theorem popped (hp : Popped fragmentAllocatorConfig i s s' L p L') : FragmentInv i s' L' := by
  refine ⟨hp.inv, fun q hq => ?_, fun j q hq => ?_⟩
  · rw [(hp.data q).2.2.2]
    exact h.pages q (hp.made ▸ hq)
  · rw [(hp.data q).2.1]
    by_cases hj : j = i
    · subst hj
      refine h.used j q ?_
      rw [hp.curr, tail_cons]
      exact mem_of_mem_tail hq
    · exact h.used j q (hp.curr_ne j hj ▸ hq)

theorem retired (hr : Retired fragmentAllocatorConfig i s s' L p) :
    ∃ L', FragmentInv i s' L' ∧ (s'.allocator i).lastAllocationSize = (s.allocator i).lastAllocationSize := by
  cases hr with
  | kept hs _ =>
    subst hs
    exact ⟨L, h, rfl⟩
  | popped L' _ hp => exact ⟨L', h.popped hp, hp.last_eq⟩

theorem freedLast {hint : FreeMemoryHint} (hf : FreedLast fragmentAllocatorConfig i hint s L s') : FragmentOk s' := by
  cases hf with
  | nothing _ hs =>
    subst hs
    exact h.forgetLast.ok (lastOk_of_size (forgetLast_size))
  | kept b _ _ _ hc _ hex =>
    obtain ⟨s₁, hu, rfl⟩ := hex
    exact (h.unbumped hc hu).forgetLast.ok (lastOk_of_size (forgetLast_size))
  | tried b _ _ _ hc _ hex =>
    obtain ⟨s₁, s₂, hu, hr, rfl⟩ := hex
    obtain ⟨L', h', _⟩ := (h.unbumped hc hu).retired hr
    exact h'.forgetLast.ok (lastOk_of_size (forgetLast_size))

end

end FragmentInv

/-! ## Requests that are served -/

structure Served (i : ι) (s : BumpState ι) (size : Nat) : Prop where
  wrap : size + pageSize ≤ 2 ^ 32
  used : ∀ p, (s.allocator i).curr = some p → (s.slabs p).remaining < size → 0 < (s.slabs p).index

theorem FragmentInv.allocate (h : FragmentInv i s L) (hserved : Served i s size) (hpos : 0 < size)
    (hfresh : s.Fresh fragmentAllocatorConfig env (slabSizeFor fragmentAllocatorConfig size)) :
    Ends (MayStop env fuel s.made.length)
      (fun x => ∃ b L', x.1 = b.addr ∧ Allocated fragmentAllocatorConfig env i s L 64 size b x.2 L' ∧ FragmentInv i x.2 L')
      (allocateBare fragmentAllocatorConfig fuel env s i 64 size) := by
  refine (allocateBare_spec h.inv (fits_fragment hserved.wrap) hpos hfresh hserved.used).imp ?_
  rintro x ⟨_, b, L', haddr, ha⟩
  have hpages := (allocated_grew ha).pages (slabSizeFor_pages hpos hserved.wrap).1 h.pages
  exact ⟨b, L', haddr, ha, ha.inv, hpages, h.used.allocated h.inv ha⟩

/-! ## Requests that are not -/

omit [DecidableEq ι] in
theorem placeInCurr_wasted {align : Nat} (hc : (s.allocator i).curr = some p) (hpos : size ≠ 0) (hlt : size < 2 ^ 32)
    (hdvd : align ∣ (s.slabs p).memory + (s.slabs p).index) (hrem : (s.slabs p).remaining < size) :
    Ends (fun _ => True) (fun x => x.2.1 = .wasted) (placeInCurr s i align size) := by
  simp only [placeInCurr, hc, if_neg hpos, alignTo_of_dvd hdvd, add_zero, mod_eq_of_lt hlt,
    if_neg (not_le.mpr hrem)]
  refine (ends_of_forall (Q := fun _ => True) (fun _ => trivial) fun _ => trivial).bind fun _ _ => ?_
  exact (ends_of_forall (Q := fun _ => True) (fun _ => trivial) fun _ => trivial).bind fun _ _ => rfl

theorem slabSizeFor_wraps (hlt : size < 2 ^ 32) (hwrap : 2 ^ 32 < size + pageSize) :
    slabSizeFor fragmentAllocatorConfig size = pageSize := by
  have hslab : fragmentAllocatorConfig.slabSize = 4096 := rfl
  have hpage : pageSize = 4096 := rfl
  have hround : size + alignTo size 4096 = 2 ^ 32 := by
    unfold alignTo
    split <;> omega
  rw [slabSizeFor, hslab, hround]
  rfl

theorem FragmentInv.allocateBare_wraps (h : FragmentInv i s L) (hlt : size < 2 ^ 32) (hwrap : 2 ^ 32 < size + pageSize)
    (hfresh : s.Fresh fragmentAllocatorConfig env (slabSizeFor fragmentAllocatorConfig size)) :
    Ends (fun _ => True) (fun _ => False) (allocateBare fragmentAllocatorConfig fuel env s i 64 size) := by
  have hpage : pageSize = 4096 := rfl
  have hsize := slabSizeFor_wraps hlt hwrap
  have hinv := h.inv.forgetLast
  have hcurr : ((Memory.forgetLast s i).allocator i).curr = (s.allocator i).curr := by
    simp [Memory.forgetLast]
  have hsmall : ∀ q ∈ s.made, (s.slabs q).size < size := by
    intro q hq
    obtain ⟨k, hk⟩ := h.pages q hq
    have := (h.inv.bounds q hq).2.1
    rw [hpage] at hk hwrap
    omega
  by_cases hunused : ∃ p, (s.allocator i).curr = some p ∧ (s.slabs p).index = 0
  · obtain ⟨p, hc, hidx⟩ := hunused
    have hp := h.inv.curr_mem hc
    have hkept := h.inv.kept _ p hp
    have := hsmall p (h.inv.mem_made hp)
    exact allocateBare_unused hc hidx (by omega)
  · have hneed : ∀ p, ((Memory.forgetLast s i).allocator i).curr = some p →
        ((Memory.forgetLast s i).slabs p).remaining < size ∧ 0 < ((Memory.forgetLast s i).slabs p).index := by
      intro p hc
      rw [hcurr] at hc
      have hp := h.inv.curr_mem hc
      have hkept := h.inv.kept _ p hp
      have := hsmall p (h.inv.mem_made hp)
      refine ⟨(by omega : (s.slabs p).remaining < size), Nat.pos_of_ne_zero fun hz => hunused ⟨p, hc, hz⟩⟩
    unfold allocateBare
    refine ends_assert (by rw [hsize]; decide) ?_
    refine Ends.bind (P := fun _ => False) ?_ fun _ => False.elim
    rw [allocateBareLoop]
    refine ends_assert rfl ?_
    refine ((ensureSlab_take hinv hfresh (by rw [hsize]; decide) (by rw [hsize]; decide)
      hneed).mono (fun _ => id) fun _ _ => trivial).bind ?_
    rintro ⟨got, s₁⟩ ⟨rfl, q, L₁, ht⟩
    simp only at ht ⊢
    have hqsize : (s₁.slabs q).size < size := by
      cases ht.origin with
      | recycled P _ hq _ _ hs _ => exact hs ▸ hsmall q (h.inv.mem_made hq)
      | new _ _ _ hs =>
        rw [hsize, hpage] at hs
        rw [hpage] at hwrap
        omega
    have hdvd : 64 ∣ (s₁.slabs q).memory + (s₁.slabs q).index := by
      rw [ht.index_eq, add_zero]
      exact dvd_trans (by decide) (ht.inv.bounds q (ht.inv.mem_made (ht.inv.curr_mem ht.curr_eq))).2.2
    have hrem := ht.remaining_eq
    refine (placeInCurr_wasted ht.curr_eq (by omega) hlt hdvd (hrem ▸ hqsize)).bind ?_
    rintro ⟨_, placement, s₂⟩ hwasted
    cases hwasted
    exact allocateBareLoop_gotSlab _ _

theorem FragmentInv.served_of_ok {x : Nat × BumpState ι} (h : FragmentInv i s L) (hlt : size < 2 ^ 32)
    (hfresh : s.Fresh fragmentAllocatorConfig env (slabSizeFor fragmentAllocatorConfig size))
    (hok : allocateBare fragmentAllocatorConfig fuel env s i 64 size = .ok x) : Served i s size := by
  refine ⟨Nat.le_of_not_lt fun hwrap => ?_, fun p hc hrem => Nat.pos_of_ne_zero fun hz => ?_⟩
  · exact (h.allocateBare_wraps hlt hwrap hfresh).of_ok hok
  · exact (allocateBare_unused hc hz hrem).of_ok hok

/-! ## Runs -/

theorem allocateArray_eq (hlt : size < 2 ^ 32) :
    allocateArray fragmentAllocatorConfig fuel env s i 1 1 size = allocateBare fragmentAllocatorConfig fuel env s i 64 size := by
  rw [allocateArray, allocateUntyped, one_mul, mod_eq_of_lt hlt]
  rfl

omit [DecidableEq ι] in
theorem fragmentOk_init : FragmentOk (.init : BumpState ι) := by
  obtain ⟨L, _, hall⟩ := @bumpOk_init ι fragmentAllocatorConfig
  have hempty : ∀ q, q ∉ (BumpState.init : BumpState ι).made := by simp [BumpState.init]
  refine ⟨L, fun i => ⟨⟨(hall i).1, fun q hq => absurd hq (hempty q), fun j q hq => ?_⟩, (hall i).2⟩⟩
  exact absurd ((hall i).1.mem_made (mem_of_mem_tail hq)) (hempty q)

theorem FragmentRun.ok (h : FragmentRun s) : FragmentOk s := by
  have hfits : Fits fragmentAllocatorConfig 64 0 := fits_fragment (by decide)
  induction h with
  | init => exact fragmentOk_init
  | @allocateArray s s' fuel env i length addr _ hlt hfresh hok ih =>
    obtain ⟨L, hall⟩ := ih
    obtain ⟨h, _⟩ := hall i
    rw [allocateArray_eq hlt] at hok
    rcases Nat.eq_zero_or_pos length with rfl | hpos
    · obtain ⟨p, L', hst⟩ := (allocateBare_staged h.inv hfits hfresh).of_ok hok
      exact (h.staged hst).ok (lastOk_of_size hst.last_eq)
    · obtain ⟨b, L', _, ha, h'⟩ := (h.allocate (h.served_of_ok hlt hfresh hok) hpos hfresh).of_ok hok
      exact h'.ok ha.lastOk
  | @allocateStaged s s' fuel env i addr _ hfresh hok ih =>
    obtain ⟨L, hall⟩ := ih
    obtain ⟨h, _⟩ := hall i
    obtain ⟨p, s₁, L₁, hst, hr⟩ := (allocateStaged_spec h.inv hfits hfresh).of_ok hok
    obtain ⟨L', h', hlast⟩ := (h.staged hst).retired hr
    exact h'.ok (lastOk_of_size (hlast.trans hst.last_eq))
  | @freeLast s s' fuel env i hint _ hok ih =>
    obtain ⟨L, hall⟩ := ih
    exact (hall i).1.freedLast ((freeLast_spec (hall i).1.inv (hall i).2).of_ok hok)
  | @write s i b addr value _ hb hlo hhi ih =>
    obtain ⟨L, hall⟩ := ih
    refine ⟨L, fun j => ⟨⟨(hall j).1.inv.write hb fun a ha => if_neg (by omega), (hall j).1.pages, (hall j).1.used⟩, ?_⟩⟩
    exact (hall j).2

/-! ## The estimate -/

theorem allocateBare_had (hc : (s.allocator i).curr = some p) :
    allocateBare fragmentAllocatorConfig fuel env s i 64 0 =
      .ok ((s.slabs p).memory + (s.slabs p).index, forgetLast s i) := by
  have hcurr : ((forgetLast s i).allocator i).curr = some p := by
    simpa [forgetLast] using hc
  have hplace : placeInCurr (forgetLast s i) i 64 0 = .ok (p, .staged, forgetLast s i) := by
    simp only [placeInCurr, hcurr]
    rfl
  rw [allocateBare, assert_bind (by decide), allocateBareLoop, assert_bind rfl, bind_eq_ok]
  refine ⟨(p, none, forgetLast s i), ?_, rfl⟩
  rw [bind_eq_ok]
  refine ⟨(false, forgetLast s i), ensureSlab_keep hcurr (zero_le _), ?_⟩
  rw [bind_eq_ok]
  exact ⟨(p, .staged, forgetLast s i), hplace, rfl⟩

variable {call : FindCall ι κ}

structure Estimated (i : ι) (s : BumpState ι) (addr : Nat) (x : Nat × BumpState ι) : Prop where
  eq : x.1 = addr
  ok : ∃ L, FragmentInv i x.2 L
  used : ∀ p, (x.2.allocator i).curr = some p → 0 < (x.2.slabs p).index
  regions : SameRegions s x.2

theorem FragmentInv.stage (h : FragmentInv i s L) (hc : (s.allocator i).curr = some p) :
    Ends (Stuck fuel s.made.length) (Estimated i s ((s.slabs p).memory + (s.slabs p).index))
      (allocateStaged fragmentAllocatorConfig fuel env s i) := by
  have h₁ := h.forgetLast
  have hcurr : ((Memory.forgetLast s i).allocator i).curr = some p := by
    simpa [Memory.forgetLast] using hc
  unfold allocateStaged
  rw [show fragmentAllocatorConfig.minAlign = 64 from rfl, allocateBare_had hc]
  refine (retireCurr_spec h₁.inv hcurr (by simp [hc])).bind fun s' hr => ⟨rfl, ?_, ?_, ?_⟩
  · obtain ⟨L', h', _⟩ := h₁.retired hr
    exact ⟨L', h'⟩
  · intro q hq
    cases hr with
    | kept hs hidx =>
      subst hs
      cases hcurr.symm.trans hq
      exact Nat.pos_of_ne_zero (hidx rfl)
    | popped L' _ hp =>
      rw [(hp.data q).2.1]
      refine h₁.used i q ?_
      rw [hp.curr, tail_cons]
      exact hp.inv.curr_mem hq
  · cases hr with
    | kept hs _ => exact hs ▸ ⟨rfl, fun _ => ⟨rfl, rfl⟩⟩
    | popped L' _ hp => exact ⟨hp.made, fun q => ⟨(hp.data q).1, (hp.data q).2.2.2⟩⟩

theorem FragmentInv.estimate {env₁ env₂ : BumpEnv} (h : FragmentInv i s₁ L₁)
    (ha : Allocated fragmentAllocatorConfig env i s L 64 size b s₁ L₁) (hpos : 0 < size) :
    Ends (Stuck fuel s₁.made.length) (Estimated i s₁ b.addr)
      (do
        let s ← freeLast fragmentAllocatorConfig fuel env₁ s₁ i .keepSlab
        allocateStaged fragmentAllocatorConfig fuel env₂ s i) := by
  refine (freeLast_spec ha.inv ha.lastOk).bind fun s₂ hf => ?_
  obtain ⟨s₂, hu, ⟨_, rfl⟩ | ⟨hh, _⟩⟩ := freedLast_cases hf (ha.size_eq ▸ ha.last) ha.curr_eq (ha.size_eq ▸ hpos)
  · have hcurr : ((Memory.forgetLast s₂ i).allocator i).curr = some b.slab := by
      simpa [Memory.forgetLast, hu.allocator] using ha.curr_eq
    have haddr : (s₂.slabs b.slab).memory + (s₂.slabs b.slab).index = b.addr := by
      have hidx := hu.index_eq
      have hmem := (hu.regions.2 b.slab).1
      have hend := ha.end_eq
      have hsize := ha.size_eq
      omega
    refine ((h.unbumped ha.curr_eq hu).forgetLast.stage hcurr).mono
      (fun x hx => ⟨hx.eq.trans haddr, hx.ok, hx.used, ?_⟩) fun e he => ?_
    · exact ⟨hx.regions.1.trans hu.regions.1, fun q => ⟨(hx.regions.2 q).1.trans (hu.regions.2 q).1,
        (hx.regions.2 q).2.trans (hu.regions.2 q).2⟩⟩
    · exact hu.regions.1 ▸ he
  · cases hh

def reserveTrace (fuel : Nat) (call : FindCall ι κ) (s : BumpState ι) : Except BumpAbort (Nat × BumpState ι) := do
  let (_, s) ←
    allocateBare fragmentAllocatorConfig fuel (call.env .fragmentMax) s call.fragmentAllocator 64 call.traceMaxSize
  let s ← freeLast fragmentAllocatorConfig fuel (call.env .fragmentFree) s call.fragmentAllocator .keepSlab
  allocateStaged fragmentAllocatorConfig fuel (call.env .fragmentEstimate) s call.fragmentAllocator

theorem estimateTrace_eq (hlt : call.traceMaxSize < 2 ^ 32) (hbytes : call.numBytes < 2 ^ 32) :
    estimateTrace fuel call s = reserveTrace fuel call s >>= fun x => Prod.mk x.1 <$>
      allocateBare fragmentAllocatorConfig fuel (call.env .fragmentTrace) x.2 call.fragmentAllocator 64 call.numBytes := by
  simp only [estimateTrace, reserveTrace, allocateArray_eq hlt, allocateArray_eq hbytes, bind_assoc]
  rfl

section Offers

variable (h : FragmentInv call.fragmentAllocator s L) (hpos : 0 < call.traceMaxSize)
  (hsup : Supplied fragmentAllocatorConfig s call.fragmentOffers.tail)

include h hpos hsup

theorem FragmentInv.reserveTrace_spec (hserved : Served call.fragmentAllocator s call.traceMaxSize) :
    Ends (Starved call.fragmentOffers fuel (s.made.length + 1))
      (fun x => 64 ∣ x.1 ∧ (∃ L', FragmentInv call.fragmentAllocator x.2 L') ∧
        (∀ p, (x.2.allocator call.fragmentAllocator).curr = some p → 0 < (x.2.slabs p).index) ∧
        x.2.Fresh fragmentAllocatorConfig (call.env .fragmentTrace) (slabSizeFor fragmentAllocatorConfig call.numBytes) ∧
        x.2.made.length ≤ s.made.length + 1)
      (reserveTrace fuel call s) := by
  have hmem := fun {o} => @FindCall.mem_fragmentOffers ι κ call o
  refine ((h.allocate hserved hpos hsup.head).mono (fun _ => id) fun e he =>
    .of_mayStop he (hmem.mpr (.inr (.inl rfl))) (by omega)).bind ?_
  rintro ⟨_, s₁⟩ ⟨b, L₁, _, ha, h₁⟩
  have hgrew := allocated_grew ha
  have hsup₁ := hsup.tail hgrew
  have hle := hgrew.made_le
  simp only at ha h₁ hsup₁ hle ⊢
  refine (h₁.estimate ha hpos).mono (fun x hx => ?_) fun e he => .of_stuck he hle
  have hsup₂ := (hsup₁.congr hx.regions).tail (grew_of_regions ⟨rfl, fun _ => ⟨rfl, rfl⟩⟩)
  exact ⟨hx.eq ▸ ha.dvd, hx.ok, hx.used, hsup₂.head, hx.regions.1 ▸ hle⟩

theorem FragmentInv.served_of_estimateTrace {x : Nat × Nat × BumpState ι} (hlt : call.traceMaxSize < 2 ^ 32)
    (hbytes : call.numBytes < 2 ^ 32) (hok : estimateTrace fuel call s = .ok x) :
    Served call.fragmentAllocator s call.traceMaxSize ∧ call.numBytes + pageSize ≤ 2 ^ 32 := by
  rw [estimateTrace_eq hlt hbytes] at hok
  obtain ⟨y, hreserve, hok⟩ := bind_eq_ok.mp hok
  rw [map_eq_pure_bind] at hok
  obtain ⟨z, htrace, _⟩ := bind_eq_ok.mp hok
  obtain ⟨w, hmax, _⟩ := bind_eq_ok.mp hreserve
  have hserved := h.served_of_ok hlt hsup.head hmax
  obtain ⟨_, ⟨L', h'⟩, _, hfresh, _⟩ := (h.reserveTrace_spec hpos hsup hserved).of_ok hreserve
  exact ⟨hserved, (h'.served_of_ok hbytes hfresh htrace).wrap⟩

theorem FragmentInv.estimateTrace_spec (hserved : Served call.fragmentAllocator s call.traceMaxSize)
    (hnum : 0 < call.numBytes) (hwrap : call.numBytes + pageSize ≤ 2 ^ 32) :
    Ends (Starved call.fragmentOffers fuel (s.made.length + 1))
      (fun x => 64 ∣ x.1 ∧ ∃ b L', x.2.1 = b.addr ∧ 64 ∣ b.addr ∧ b.size = call.numBytes ∧
        b ∈ x.2.2.live call.fragmentAllocator ∧ FragmentInv call.fragmentAllocator x.2.2 L')
      (estimateTrace fuel call s) := by
  have hmem := fun {o} => @FindCall.mem_fragmentOffers ι κ call o
  have hpage : 0 < pageSize := by decide
  have hmax := hserved.wrap
  rw [estimateTrace_eq (by omega) (by omega)]
  refine (h.reserveTrace_spec hpos hsup hserved).bind ?_
  rintro x ⟨hdvd, ⟨L₁, h₁⟩, hused, hfresh, hle⟩
  refine ((h₁.allocate ⟨hwrap, fun p hp _ => hused p hp⟩ hnum hfresh).mono (fun _ => id) fun e he =>
    .of_mayStop he (hmem.mpr (.inr (.inr (.inr rfl)))) hle).map ?_
  rintro y ⟨b, L', haddr, ha, h'⟩
  refine ⟨hdvd, b, L', haddr, ha.dvd, ha.size_eq, ?_, h'⟩
  rw [ha.live, Function.update_self]
  exact mem_cons_self

end Offers

end Granary.Fragments
