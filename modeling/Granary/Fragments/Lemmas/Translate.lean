import Granary.Fragments.Lemmas.Locator
import Granary.Fragments.Lemmas.Slabs

/-!
# What a translation does to the fragment allocators and the locators
-/

namespace Granary.Fragments

open Memory Outcome Ranges List

variable {ι κ : Type} [DecidableEq ι] {r : ExecRegion} {i : ι} {s s' s₀ s₁ s₂ : BumpState ι}
  {L L' L₁ : SlabLists ι} {env : BumpEnv} {b : LiveAllocation} {fuel n size : Nat}
variable {cfg : AllocatorConfig} {hint : FreeMemoryHint}

/-! ## Memory for a trace -/

theorem FragAllocated.emit (ha : FragAllocated r env i s L size b s' L') (code : Nat → UInt8) :
    FragAllocated r env i s L size b (emit s' b.addr size code) L' := by
  have hb : b ∈ s'.live i := by
    rw [ha.live, Function.update_self]
    exact mem_cons_self
  have hinv : BumpInv fragmentAllocatorConfig i (Fragments.emit s' b.addr size code) L' none :=
    ha.inv.write hb fun a ha' => if_neg (by rw [ha.size_eq] at ha'; omega)
  have hok : SlabsOk r (Fragments.emit s' b.addr size code) L' := ha.frag.toSlabsOk.congr rfl rfl
  exact
    { ha with
      inv := hinv
      spot := ha.spot.congr ⟨rfl, fun _ => ⟨rfl, rfl⟩⟩
      frag := { hok with inv := hinv, used := ha.frag.used }
      free := ha.free
      grew := ha.grew.then ⟨rfl, fun _ => ⟨rfl, rfl⟩⟩ }

theorem Unbumped.congr {b' : LiveAllocation} (h : Unbumped cfg i s L b' s') (haddr : b'.addr = b.addr)
    (hsize : b'.size = b.size) (hslab : b'.slab = b.slab) : Unbumped cfg i s L b s' where
  __ := h
  live := haddr ▸ h.live
  others := hslab ▸ h.others
  index_eq := hslab ▸ hsize ▸ h.index_eq

theorem freedLast_cases (hf : FreedLast cfg i hint s L s') (hlast : (s.allocator i).lastAllocation = b.addr ∧
      (s.allocator i).lastAllocationSize = b.size ∧ (s.allocator i).lastAllocationSlab = some b.slab)
    (hcurr : (s.allocator i).curr = some b.slab) (hpos : 0 < b.size) :
    ∃ s₁, Unbumped cfg i s L b s₁ ∧ (hint = .keepSlab ∧ s' = forgetLast s₁ i ∨
      hint = .tryFreeSlab ∧ ∃ s₂, Retired cfg i s₁ s₂ L b.slab ∧ s' = forgetLast s₂ i) := by
  obtain ⟨haddr, hsize, hslab⟩ := hlast
  cases hf with
  | nothing hcond _ =>
    rcases hcond with hz | hne
    · omega
    · exact absurd (hslab.trans hcurr.symm) hne
  | kept b' _ ha hs hc hh hex =>
    obtain ⟨s₁, hu, hs'⟩ := hex
    have hslab' : b'.slab = b.slab := Option.some.inj (hc.symm.trans hcurr)
    exact ⟨s₁, Unbumped.congr hu (ha.trans haddr) (hs.trans hsize) hslab', .inl ⟨hh, hs'⟩⟩
  | tried b' _ ha hs hc hh hex =>
    obtain ⟨s₁, s₂, hu, hr, hs'⟩ := hex
    have hslab' : b'.slab = b.slab := Option.some.inj (hc.symm.trans hcurr)
    rw [hslab'] at hr
    exact ⟨s₁, Unbumped.congr hu (ha.trans haddr) (hs.trans hsize) hslab', .inr ⟨hh, s₂, hr, hs'⟩⟩

section Releasing

variable (h : FragInv r i s L) (hfits : FreeFits i s L (slabSizeFor fragmentAllocatorConfig size)) (hsize : 0 < size)
  (ha : FragAllocated r env i s L size b s₁ L₁)

include ha hsize

theorem FragAllocated.freed (hf : FreedLast fragmentAllocatorConfig i hint s₁ L₁ s') :
    ∃ s₂, Unbumped fragmentAllocatorConfig i s₁ L₁ b s₂ ∧ (hint = .keepSlab ∧ s' = forgetLast s₂ i ∨
      hint = .tryFreeSlab ∧ ∃ s₃, Retired fragmentAllocatorConfig i s₂ s₃ L₁ b.slab ∧ s' = forgetLast s₃ i) := by
  refine freedLast_cases hf ?_ ha.curr_eq (ha.size_eq ▸ hsize)
  rw [ha.size_eq]
  exact ha.last

include h hfits

theorem FragAllocated.tryFree {env' : BumpEnv} :
    Ends (Stuck fuel s₁.made.length)
      (fun s' => (∃ L', Released r i s L (slabSizeFor fragmentAllocatorConfig size) s₁ s' L') ∧ LastOk s' i)
      (freeLast fragmentAllocatorConfig fuel env' s₁ i .tryFreeSlab) := by
  refine (freeLast_spec ha.inv ha.lastOk).imp fun s' hf => ?_
  obtain ⟨s₂, hu, ⟨hh, _⟩ | ⟨_, s₃, hr, rfl⟩⟩ := ha.freed hsize hf
  · cases hh
  · obtain ⟨L', hrel⟩ := ha.released h hfits hu rfl rfl rfl hu.inv hr
    have hst := hrel.steady
    have hok : SlabsOk r (forgetLast s₃ i) L' := hrel.inv.toSlabsOk.congr rfl rfl
    exact ⟨⟨L', { hok with inv := hrel.inv.inv.forgetLast, used := hrel.inv.used },
      ⟨hst.live, hst.made, hst.slabs, hst.curr⟩, hrel.free, hrel.regions⟩, lastOk_of_size (forgetLast_size)⟩

theorem FragAllocated.freeThenStage {env₁ env₂ : BumpEnv} (hfresh : s₁.Fresh fragmentAllocatorConfig env₂ pageSize) :
    Ends (MayStop env₂ fuel (s₁.made.length + 1))
      (fun x => ∃ L', Released r i s L (slabSizeFor fragmentAllocatorConfig size) s₁ x.2 L')
      (do
        let s ← freeLast fragmentAllocatorConfig fuel env₁ s₁ i .keepSlab
        allocateStaged fragmentAllocatorConfig fuel env₂ s i) := by
  refine ((freeLast_spec ha.inv ha.lastOk).mono (fun _ => id) fun e he => he.mayStop (Nat.le_succ _)).bind ?_
  intro s₂ hf
  obtain ⟨s₂, hu, ⟨_, rfl⟩ | ⟨hh, _⟩⟩ := ha.freed hsize hf
  · have hmade : (forgetLast s₂ i).made = s₁.made := hu.regions.1
    have hfresh' : (forgetLast s₂ i).Fresh fragmentAllocatorConfig env₂ pageSize := SameRegions.fresh hu.regions hfresh
    have hfits' : Fits fragmentAllocatorConfig fragmentAllocatorConfig.minAlign 0 := fits_fragment (by decide)
    refine (allocateStaged_spec hu.inv.forgetLast hfits' hfresh').mono ?_ fun e he => by rwa [hmade] at he
    rintro x ⟨p, s₃, L₃, hst, hr⟩
    have hcurr : ((forgetLast s₂ i).allocator i).curr = some b.slab := by
      simpa [forgetLast, BumpState.setAllocator, hu.allocator] using ha.curr_eq
    cases hst with
    | had hc hs hL =>
      subst hs hL
      cases hc.symm.trans hcurr
      refine ha.released h hfits hu ?_ ?_ ?_ hu.inv.forgetLast.forgetLast hr <;> rfl
    | took hc _ => cases hc.symm.trans hcurr
  · cases hh

end Releasing

section Offers

variable {call : FindCall ι κ}

omit [DecidableEq ι]

theorem FindCall.mem_fragmentOffers {o : BumpEnv × Nat} : o ∈ call.fragmentOffers ↔ o = (call.env .fragmentStaged, pageSize) ∨
    o = (call.env .fragmentMax, slabSizeFor fragmentAllocatorConfig call.traceMaxSize) ∨
    o = (call.env .fragmentEstimate, pageSize) ∨
    o = (call.env .fragmentTrace, slabSizeFor fragmentAllocatorConfig call.numBytes) := by
  rw [FindCall.fragmentOffers, show slabSizeFor fragmentAllocatorConfig 0 = pageSize from rfl]
  simp only [mem_cons, not_mem_nil, or_false]

theorem FindCall.Snug.offered (h : call.Snug r s) {o : BumpEnv × Nat} (ho : o ∈ call.fragmentOffers) : Offered r o.1 o.2 := by
  refine ⟨?_, h.inRegion o ho⟩
  obtain rfl | rfl | rfl | rfl := FindCall.mem_fragmentOffers.mp ho
  · exact Nat.dvd_refl _
  · exact (slabSizeFor_pages h.max_pos h.max_wrap).1
  · exact Nat.dvd_refl _
  · exact (slabSizeFor_pages h.pos h.wrap).1

end Offers

structure TraceMemory (r : ExecRegion) (call : FindCall ι κ) (s : BumpState ι) (L : SlabLists ι)
    (b : LiveAllocation) (s₁ : BumpState ι) (L₁ : SlabLists ι) (s' : BumpState ι)
    (L' : SlabLists ι) : Prop where
  inv : FragInv r call.fragmentAllocator s₁ L₁
  steady : Steady s s₁ L L₁
  free : FreeFits call.fragmentAllocator s₁ L₁ (slabSizeFor fragmentAllocatorConfig call.numBytes)
  alloc : FragAllocated r (call.env .fragmentTrace) call.fragmentAllocator s₁ L₁ call.numBytes b s' L'

theorem allocateTrace_spec {call : FindCall ι κ} (h : FragInv r call.fragmentAllocator s L) (hcall : call.Snug r s₀)
    (hfits : FreeFits call.fragmentAllocator s L (slabSizeFor fragmentAllocatorConfig call.numBytes))
    (hsup : Supplied fragmentAllocatorConfig s call.fragmentOffers.tail) :
    Ends (Starved call.fragmentOffers fuel (s.made.length + 3))
      (fun x => ∃ b s₁ L₁ L', x.1 = b.addr ∧ TraceMemory r call s L b s₁ L₁ x.2 L' ∧
        x.2.made.length ≤ s.made.length + 2) (allocateTrace fuel call s) := by
  have hmem := fun {o} => @FindCall.mem_fragmentOffers ι κ call o
  have hmax : FreeFits call.fragmentAllocator s L (slabSizeFor fragmentAllocatorConfig call.traceMaxSize) := by
    rw [hcall.estimate]
    exact hfits
  unfold allocateTrace
  refine ((h.allocate hcall.max_pos hcall.max_wrap hmax hsup.head
    (hcall.offered (hmem.mpr (.inr (.inl rfl))))).mono (fun _ => id) fun e he =>
      .of_mayStop he (hmem.mpr (.inr (.inl rfl))) (by omega)).bind ?_
  rintro ⟨_, s₁⟩ ⟨b₁, L₁, _, ha₁⟩
  have hsup₁ := hsup.tail ha₁.grew
  have hle₁ := ha₁.grew.made_le
  simp only at ha₁ hsup₁ hle₁ ⊢
  rw [← bind_assoc]
  refine ((ha₁.freeThenStage h hmax hcall.max_pos hsup₁.head).mono (fun _ => id) fun e he =>
    .of_mayStop he (hmem.mpr (.inr (.inr (.inl rfl)))) (by omega)).bind ?_
  rintro ⟨_, s₂⟩ ⟨L₂, hrel⟩
  have hsup₂ := (hsup₁.congr hrel.regions).tail (grew_of_regions ⟨rfl, fun _ => ⟨rfl, rfl⟩⟩)
  have hfree₂ := hrel.free
  have hmade₂ : s₂.made = s₁.made := hrel.regions.1
  rw [hcall.estimate] at hfree₂
  refine (hrel.inv.allocate hcall.pos hcall.wrap hfree₂ hsup₂.head
    (hcall.offered (hmem.mpr (.inr (.inr (.inr rfl)))))).mono ?_ fun e he =>
      .of_mayStop he (hmem.mpr (.inr (.inr (.inr rfl)))) (by simp only [hmade₂]; omega)
  rintro x ⟨b, L', haddr, ha⟩
  have hle := ha.grew.made_le
  refine ⟨b, s₂, L₂, L', haddr, ⟨hrel.inv, hrel.steady, hfree₂, ha⟩, ?_⟩
  simp only [hmade₂] at hle
  omega

/-! ## How many traces a locator has -/

section Count

variable {layout : List SlabRange} {home : Nat → SlabRange} {table : LocatorTable} {stored : List StoredTrace}
  {t : StoredTrace} {g : SlabRange} {p : Nat}

def Spotted (t : StoredTrace) : Prop :=
  bbAlign ∣ t.startPc ∧ (t.startPc = t.slab.base ∨ t.slab.base + t.slab.size < t.startPc + pageSize)

def spotOf (g : SlabRange) (startPc : Nat) : Nat :=
  if startPc = g.base then 0 else 1 + (startPc - (g.base + g.size - pageSize)) / bbAlign

theorem length_le_of_spotted (hlayout : Layout r layout) (hg : g ∈ layout) {l : List StoredTrace}
    (hl : ∀ t ∈ l, TraceOk layout t ∧ Spotted t ∧ t.slab = g)
    (hord : l.Pairwise fun t u => u.startPc + u.size ≤ t.startPc) : l.length ≤ maxBbsPerSlab := by
  have hpage : pageSize = 4096 := rfl
  have halign : bbAlign = 64 := rfl
  have hbase : 4096 ∣ g.base := hlayout.base_dvd g hg
  have hsize : 4096 ∣ g.size := hlayout.size_dvd g hg
  have hmem : ∀ x ∈ l.map fun t => spotOf g t.startPc, x ∈ List.range maxBbsPerSlab := by
    intro x hx
    obtain ⟨t, ht, rfl⟩ := mem_map.mp hx
    obtain ⟨hok, ⟨_, hspot⟩, rfl⟩ := hl t ht
    have := hok.le_end
    have := hok.pos
    rw [mem_range, show maxBbsPerSlab = 65 from rfl, spotOf, hpage, halign]
    split <;> omega
  have hnodup : (l.map fun t => spotOf g t.startPc).Nodup := by
    rw [List.Nodup, pairwise_map]
    refine hord.imp_of_mem fun {t u} ht hu hle heq => ?_
    obtain ⟨hok, ⟨hdvd, hspot⟩, rfl⟩ := hl t ht
    obtain ⟨hok', ⟨hdvd', hspot'⟩, hg⟩ := hl u hu
    have hpos := hok'.pos
    rw [hg] at hspot'
    simp only [spotOf, hpage, halign] at heq hdvd hdvd' hspot hspot'
    split at heq <;> split at heq <;> omega
  have := (subperm_of_subset hnodup hmem).length_le
  rwa [length_map, length_range] at this

section

variable (h : LocInv r layout home table stored) (hlayout : Layout r layout) (hspots : ∀ t ∈ stored, Spotted t)

include h hlayout hspots

theorem LocInv.count {k : Nat} (hp : table.slots k = some p) :
    (table.locators p).nextIndex ≤ maxBbsPerSlab := by
  have hhome := (h.home k p hp).1
  rw [FragmentLocator.nextIndex, h.entries k p hp, length_reverse, length_map]
  refine length_le_of_spotted hlayout hhome (fun t ht => ?_) ?_
  · obtain ⟨ht, htp⟩ := mem_filter.mp ht
    exact ⟨h.traces t ht, hspots t ht, h.slab_eq hlayout (h.traces t ht) (of_decide_eq_true htp)⟩
  · refine (h.ordered.filter _).imp_of_mem fun {t u} ht hu hle => hle ?_
    obtain ⟨ht, htp⟩ := mem_filter.mp ht
    obtain ⟨hu, hup⟩ := mem_filter.mp hu
    exact (h.slab_eq hlayout (h.traces u hu) (of_decide_eq_true hup)).trans
      (h.slab_eq hlayout (h.traces t ht) (of_decide_eq_true htp)).symm

theorem LocInv.room (ht : Placed layout stored t) (hspot : Spotted t)
    (hp : table.slots (r.findFragmentSlab t.startPc) = some p) : (table.locators p).nextIndex < maxBbsPerSlab := by
  have hslab := h.slab_eq hlayout ht.traceOk hp
  have hall : ∀ u ∈ recordedIn r table p stored, TraceOk layout u ∧ Spotted u ∧ u.slab = t.slab := by
    intro u hu
    obtain ⟨hu, hup⟩ := mem_filter.mp hu
    exact ⟨h.traces u hu, hspots u hu, (h.slab_eq hlayout (h.traces u hu) (of_decide_eq_true hup)).trans hslab.symm⟩
  have hle : (t :: recordedIn r table p stored).length ≤ maxBbsPerSlab := by
    refine length_le_of_spotted hlayout ht.mem (fun u hu => ?_) ?_
    · rcases mem_cons.mp hu with rfl | hu
      · exact ⟨ht.traceOk, hspot, rfl⟩
      · exact hall u hu
    · refine pairwise_cons.mpr ⟨fun u hu => ht.after u (mem_of_mem_filter hu) (hall u hu).2.2, ?_⟩
      refine (h.ordered.filter _).imp_of_mem fun {u v} hu hv hle => hle ?_
      exact (hall v hv).2.2.trans (hall u hu).2.2.symm
  rw [FragmentLocator.nextIndex, h.entries _ p hp, length_reverse, length_map]
  exact hle

end

end Count

end Granary.Fragments
