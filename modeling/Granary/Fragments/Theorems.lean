import Granary.Fragments.Lemmas.Discard
import Granary.Fragments.Lemmas.Estimate
import Granary.Fragments.Lemmas.Search
import Granary.Memory.Theorems

/-!
# What the fragment locators guarantee
-/

namespace Granary.Fragments

open Memory List

/-! ## Search in a slab -/

/-- The search of a slab reads only records that are there, and ends with the block that contains the address or with null. -/
theorem searchBasicBlockInfo_correct (h : Search.Heap) (s : Search.Slab h) (pc : Machine.Word) :
    ∃ r, Search.searchBasicBlockInfo h s.array pc = .ok r ∧
      (∀ a b, s.Block a b → b.Contains pc → r = a) ∧ ((∀ a b, s.Block a b → ¬ b.Contains pc) → r = 0) := by
  by_cases hpc : ∃ e ∈ s.entries, e.Contains pc
  · obtain ⟨e, he, hc⟩ := hpc
    obtain ⟨a, b, hb, hbc, huniq, hsearch⟩ := s.search_found he hc
    exact ⟨a, hsearch, fun a' b' hb' hbc' => (huniq a' b' hb' hbc').symm, fun hno => absurd hbc (hno a b hb)⟩
  · refine ⟨0, s.search_missing fun e he hc => hpc ⟨e, he, hc⟩, fun a b hb hbc => ?_, fun _ => rfl⟩
    obtain ⟨e, he, hof⟩ := hb.exists_entry
    exact absurd ⟨e, he, (s.describes e he).contains hof hbc⟩ hpc

/-- A block of 16 bytes, and a trace of two blocks after a gap. -/
def smallHeap : Search.Heap where
  blocks a :=
    if a = 0x1000 then some ⟨0x400000, 16⟩
    else if a = 0x3000 then some ⟨0x400020, 8⟩
    else if a = 0x3038 then some ⟨0x400028, 24⟩
    else none
  traces a := if a = 0x2000 then some ⟨0x400020, 2, 32, 0x3000⟩ else none

theorem smallHeap_describes_trace : smallHeap.Describes ⟨0x2001, 0x400020, 0x400040⟩ := by
  have htiles : smallHeap.Tiles 0x3000 0 2 0x400020 0x400040 :=
    ⟨⟨0x400020, 8⟩, rfl, rfl, by decide, ⟨0x400028, 24⟩, rfl, rfl, by decide, rfl⟩
  exact Search.Heap.Describes.trace (p := 0x2001) (t := ⟨0x400020, 2, 32, 0x3000⟩) rfl rfl htiles

def smallSlab : Search.Slab smallHeap where
  entries := [⟨0x1000, 0x400000, 0x400010⟩, ⟨0x2001, 0x400020, 0x400040⟩]
  fits := by decide
  describes := by
    intro e he
    obtain rfl | he := mem_cons.mp he
    · exact Search.Heap.Describes.block (p := 0x1000) (b := ⟨0x400000, 16⟩) rfl rfl
    · obtain rfl := mem_singleton.mp he
      exact smallHeap_describes_trace
  nonempty := by decide
  sorted := by decide
  disjoint := by
    simp only [pairwise_cons, mem_singleton, forall_eq, Search.Entry.Contains, not_mem_nil, false_imp_iff,
      implies_true, List.Pairwise.nil, and_true]
    intro pc
    bv_omega

theorem searchBasicBlockInfo_correct_smallSlab :
    Search.searchBasicBlockInfo smallHeap smallSlab.array 0x40002a = .ok 0x3038 := by
  obtain ⟨r, hr, hfound, _⟩ := searchBasicBlockInfo_correct smallHeap smallSlab 0x40002a
  have hblock : smallSlab.Block 0x3038 ⟨0x400028, 24⟩ :=
    ⟨0x2001, by decide, rfl, ⟨0x400020, 2, 32, 0x3000⟩, rfl, 1, by decide, rfl⟩
  rw [hr, hfound _ _ hblock ⟨by decide, by decide⟩]

/-! ## Lookup -/

/-- After every history of traces that could be stored, each address of each block is found, the next such trace is stored,
and the latest one can be removed if it is a single block. -/
theorem findBasicBlockInfo_correct (r : ExecRegion) (layout : List SlabRange) (hlayout : Layout r layout)
    (s : LocatorTable) (stored : List StoredTrace) (hrun : LocatorRun r layout s stored) : s.Finds r stored ∧
    (∀ t, Placed layout stored t → Storable r s t.toEmittedTrace → ∃ s', storeTraceMetaInfo r s t.traceInfo = .ok s') ∧
    ∀ t rest, stored = t :: rest → t.sizes.length = 1 → ∃ s', removeBasicBlockInfo r s t.startPc = .ok s' := by
  obtain ⟨⟨home, h⟩, hpacked⟩ := hrun.inv hlayout
  refine ⟨h.finds hlayout hpacked, fun t ht hs => ?_, fun t rest ht hsingle => ?_⟩
  · have hstore := (h.store_spec hlayout ht hs.room).mono (fun _ => id) fun _ he => he.elim hs.empty
    obtain ⟨s', hok, _⟩ := Succeeds.exists_ok hstore
    exact ⟨s', hok⟩
  · subst ht
    obtain ⟨s', hok, _⟩ := (h.remove_spec hlayout hsingle).exists_ok
    exact ⟨s', hok⟩

/-- A slab of two pages. -/
def twoPages : SlabRange := { base := 0x600000, size := 8192 }

def bigTrace : StoredTrace := { startPc := 0x600000, sizes := [5000], slab := twoPages }

theorem twoPages_layout : Layout lowRegion [twoPages] where
  base_dvd := by decide
  size_dvd := by decide
  start_le := by decide
  le_wrapper := by decide
  apart := by simp

theorem bigTrace_placed : Placed [twoPages] [] bigTrace where
  mem := by decide
  base_le := by decide
  le_end := by decide
  pos := by decide
  after := by decide

theorem findBasicBlockInfo_correct_big_trace :
    ∃ s, LocatorRun lowRegion [twoPages] s [bigTrace] ∧
      findBasicBlockInfo lowRegion s 0x601000 = .ok { startPc := 0x600000, numBytes := 5000 } ∧
      ∃ s', removeBasicBlockInfo lowRegion s 0x600000 = .ok s' := by
  have hstorable : Storable lowRegion .init bigTrace.toEmittedTrace :=
    ⟨fun p hp => (nomatch hp), fun i _ _ => rfl, by decide⟩
  obtain ⟨s, hs⟩ := (findBasicBlockInfo_correct _ _ twoPages_layout _ _ .init).2.1 bigTrace bigTrace_placed hstorable
  have hrun : LocatorRun lowRegion [twoPages] s [bigTrace] := .store bigTrace .init bigTrace_placed hstorable hs
  obtain ⟨hfind, _, hremove⟩ := findBasicBlockInfo_correct _ _ twoPages_layout _ _ hrun
  exact ⟨s, hrun, hfind bigTrace (by decide) (0x600000, 5000) (by decide) _ (by decide) (by decide),
    hremove bigTrace [] rfl rfl⟩

/-- Removing a trace leaves its locator in the slots of further pages, so that it cannot be stored again. -/
theorem removed_trace_blocks_slot :
    (do
      let s ← storeTraceMetaInfo lowRegion .init bigTrace.traceInfo
      let s ← removeBasicBlockInfo lowRegion s bigTrace.startPc
      storeTraceMetaInfo lowRegion s bigTrace.traceInfo).map (fun _ => ()) = .error (.assertion .slotEmpty) ∧
    Placed [twoPages] [] bigTrace :=
  ⟨by decide +kernel, bigTrace_placed⟩

/-! ## Capacity -/

/-- In every run whose calls need no slab with more pages than their trace, no locator overflows, and the next such call finds
room. -/
theorem locator_capacity {ι κ : Type} [DecidableEq ι] [DecidableEq κ] (r : ExecRegion) (type : BlockStateType)
    (s : TranslatorState ι κ) (hrun : FindRun r type (fun call s => call.Snug r s.fragment) s) :
    (∀ k p, s.table.slots k = some p → (s.table.locators p).nextIndex ≤ maxBbsPerSlab) ∧
    ∀ (fuel : Nat) (call : FindCall ι κ), call.Snug r s.fragment →
      find r type fuel call s ≠ .error (.locator (.assertion .roomLeft)) := by
  obtain ⟨L, home, stored, h⟩ := hrun.inv
  exact ⟨fun k p hp => h.loc.count h.layout h.spots hp, fun fuel call hcall he =>
    (h.find_capacity hcall).of_error he rfl⟩

/-- Memory for one slab. -/
def offer (p : SlabPtr) (memory : Nat) : BumpEnv := { fresh := some (p, memory), lockSearch := true, lockShare := true }

def noOffer : BumpEnv := { fresh := none, lockSearch := true, lockShare := true }

def oneBlock (traceMaxSize size : Nat) (stored : Bool) (env : CallSite → BumpEnv) : FindCall Unit Unit :=
  { cpu := (), fragmentAllocator := (), traceMaxSize, sizes := [size], stubSize := 0, code := fun _ => 0x90,
    stubCode := fun _ => 0x90, blockState := fun _ _ => 0, stored, env }

def noBlockState : BlockStateType := { size := 0, align := 1 }

def firstCall (traceMaxSize size : Nat) (stored : Bool) : FindCall Unit Unit :=
  oneBlock traceMaxSize size stored fun
    | .blockStaged => offer 1 0x1000
    | .stubStaged => offer 1 0x5000000
    | .fragmentStaged => offer 1 0x600000
    | .fragmentMax => offer 2 0x601000
    | _ => noOffer

def smallCall (size : Nat) : FindCall Unit Unit := oneBlock size size true fun _ => noOffer

theorem recycled_of_empty {s : BumpState Unit} {size : Nat} (h : s.heads (.free ()) = none ∧ s.heads .shared = none) :
    ∀ P ∈ [SlabPlace.free (), .shared], ∀ l, Linked.Chain (nextOf s.slabs) (s.heads P) l →
      ∀ q ∈ l, (s.slabs q).size ≤ size := by
  intro P hP l hl q hq
  have hnone : s.heads P = none := by
    obtain rfl | rfl := by simpa using hP
    · exact h.1
    · exact h.2
  rw [hnone] at hl
  cases l with
  | nil => cases hq
  | cons a l => cases hl.1

theorem smallCall_snug {s : BumpState Unit} (h : s.heads (.free ()) = none ∧ s.heads .shared = none) :
    (smallCall 100).Snug lowRegion s := by
  have hnone : ∀ o ∈ (smallCall 100).fragmentOffers, ∀ x, o.1.fresh ≠ some x := by
    intro o ho
    obtain rfl | rfl | rfl | rfl := FindCall.mem_fragmentOffers.mp ho <;> exact nofun
  refine ⟨by decide, by decide, by decide, by decide, rfl, recycled_of_empty h, ⟨fun o ho p memory hp => ?_, ?_⟩,
    fun o ho p memory hp => absurd hp (hnone o ho _)⟩
  · exact absurd hp (hnone o ho _)
  · exact pairwise_of_forall_mem_list fun o ho _ _ p memory _ _ hp => absurd hp (hnone o ho _)

theorem firstCall_snug : (firstCall 1300 1300 true).Snug lowRegion .init where
  pos := by decide
  max_pos := by decide
  wrap := by decide
  max_wrap := by decide
  estimate := rfl
  recycled := recycled_of_empty ⟨rfl, rfl⟩
  supplied := by
    refine ⟨fun o ho p memory hp => ?_, ?_⟩
    · obtain rfl | rfl | rfl | rfl := FindCall.mem_fragmentOffers.mp ho <;>
        simp only [firstCall, oneBlock, offer, noOffer, Option.some.injEq, Prod.mk.injEq, reduceCtorEq] at hp
      · exact ⟨not_mem_nil, hp.2 ▸ (by decide), nofun⟩
      · exact ⟨not_mem_nil, hp.2 ▸ (by decide), nofun⟩
    · simp only [FindCall.fragmentOffers, firstCall, oneBlock, offer, noOffer, pairwise_cons, mem_cons,
        not_mem_nil, or_false, forall_eq_or_imp, forall_eq, Option.some.injEq, Prod.mk.injEq, reduceCtorEq,
        false_imp_iff, implies_true, and_true, List.Pairwise.nil]
      rintro p memory p' memory' ⟨rfl, rfl⟩ ⟨rfl, rfl⟩
      exact ⟨by decide, .inl (by decide)⟩
  inRegion o ho p memory hp := by
    obtain rfl | rfl | rfl | rfl := FindCall.mem_fragmentOffers.mp ho <;>
      simp only [firstCall, oneBlock, offer, noOffer, Option.some.injEq, Prod.mk.injEq, reduceCtorEq] at hp
    · exact hp.2 ▸ (by decide)
    · exact hp.2 ▸ (by decide)

theorem locator_capacity_two_calls :
    ∃ s : TranslatorState Unit Unit, (s.table.slots 0).any (fun p => (s.table.locators p).nextIndex == 2) = true ∧
      ∀ k p, s.table.slots k = some p → (s.table.locators p).nextIndex ≤ maxBbsPerSlab := by
  have hok : (find lowRegion noBlockState 10 (firstCall 1300 1300 true) .init).toOption.any (fun s =>
      (s.fragment.heads (.free ()) = none ∧ s.fragment.heads .shared = none) ∧
        (find lowRegion noBlockState 10 (smallCall 100) s).toOption.any fun s =>
          (s.table.slots 0).any fun p => (s.table.locators p).nextIndex == 2) = true := by
    decide +kernel
  cases hfirst : find lowRegion noBlockState 10 (firstCall 1300 1300 true) .init with
  | error e => rw [hfirst] at hok; cases hok
  | ok s =>
    rw [hfirst] at hok
    obtain ⟨hempty, hok⟩ := of_decide_eq_true hok
    cases hsecond : find lowRegion noBlockState 10 (smallCall 100) s with
    | error e => rw [hsecond] at hok; cases hok
    | ok s' =>
      rw [hsecond] at hok
      refine ⟨s', hok, (locator_capacity lowRegion noBlockState s' ?_).1⟩
      exact .call _ (.call _ .init firstCall_snug hfirst) (smallCall_snug hempty) hsecond

/-- A trace whose estimate takes a slab of two pages, which it then goes to. -/
def secondCall : FindCall Unit Unit :=
  oneBlock 4100 2900 true fun
    | .fragmentMax => offer 2 0x601000
    | _ => noOffer

/-- The traces in the first page of a slab, one that crosses into the second page and those that start there share a locator:
after 65 there is no room. -/
theorem locator_overflows :
    (runFinds lowRegion noBlockState 10 (firstCall 1300 1300 true :: secondCall :: (List.replicate 17 (smallCall 1) ++
      smallCall 65 :: List.replicate 47 (smallCall 1))) .init).map (fun _ => ()) =
        .error (.locator (.assertion .roomLeft)) := by
  decide +kernel

/-! ## Taking a trace back -/

/-- In every run whose calls can be undone, the next such call fails only for want of memory, and the state after a
discarded trace is the one before it. -/
theorem discard_restores {ι κ : Type} [DecidableEq ι] [DecidableEq κ] (r : ExecRegion) (type : BlockStateType)
    (s : TranslatorState ι κ) (hrun : FindRun r type (fun call s => call.Undoable r type s) s) (fuel : Nat)
    (call : FindCall ι κ) (hcall : call.Undoable r type s) : (∀ e, find r type fuel call s = .error e → e.Starved) ∧
    (call.Provided type fuel s → ∃ s', find r type fuel call s = .ok s') ∧
    ∀ s', find r type fuel call s = .ok s' → call.discards = true → Restored s s' := by
  obtain ⟨L, home, stored, h⟩ := hrun.undoInv
  have hspec : Outcome.Ends _ _ (find r type fuel call s) := h.find_spec hcall
  refine ⟨fun e he => (hspec.of_error he).starved, fun hp => ?_, fun s' hs' => (hspec.of_ok hs').2⟩
  cases hfind : find r type fuel call s with
  | ok s' => exact ⟨s', rfl⟩
  | error e => exact ((hspec.of_error hfind).elim hp).elim

/-- A call that is offered memory wherever it may need some. -/
def providedCall (size : Nat) (stored : Bool) : FindCall Unit Unit :=
  oneBlock size size stored fun
    | .blockStaged => offer 1 0x1000
    | .blockState _ => offer 2 0x2000
    | .stubStaged => offer 1 0x5000000
    | .stub => offer 2 0x5001000
    | .fragmentStaged => offer 1 0x600000
    | .fragmentMax => offer 2 0x601000
    | .fragmentEstimate => offer 3 0x602000
    | .fragmentTrace => offer 4 0x603000
    | _ => noOffer

/-- Memory that does not overlap can be offered to an allocator that has none. -/
theorem supplied_init {ι : Type} {cfg : AllocatorConfig} {l : List (SlabPtr × Nat × Nat)}
    (hdvd : ∀ o ∈ l, cfg.baseAlign ∣ o.2.1)
    (hapart : l.Pairwise fun o o' => o.1 ≠ o'.1 ∧ (o.2.1 + o.2.2 ≤ o'.2.1 ∨ o'.2.1 + o'.2.2 ≤ o.2.1)) :
    Supplied cfg (.init : BumpState ι) (l.map fun o => (offer o.1 o.2.1, o.2.2)) := by
  refine ⟨fun o ho p memory hp => ?_, pairwise_map.mpr (hapart.imp ?_)⟩
  · obtain ⟨o, hmem, rfl⟩ := mem_map.mp ho
    cases hp
    exact ⟨not_mem_nil, hdvd o hmem, nofun⟩
  · rintro o o' ⟨hne, hap⟩ p memory p' memory' hp hp'
    cases hp
    cases hp'
    exact ⟨hne, hap⟩

theorem providedCall_undoable : (providedCall 1300 false).Undoable lowRegion noBlockState .init where
  pos := by decide
  max_pos := by decide
  wrap := by decide
  max_wrap := by decide
  estimate := rfl
  recycled := firstCall_snug.recycled
  supplied := supplied_init (l := [(1, 0x600000, 4096), (2, 0x601000, 4096), (3, 0x602000, 4096), (4, 0x603000, 4096)])
    (by decide) (by decide)
  inRegion o ho p memory hp := by
    obtain rfl | rfl | rfl | rfl := FindCall.mem_fragmentOffers.mp ho <;> cases hp <;> decide
  packed := by decide
  discard_le := by decide
  stub_le := by decide
  state_le := by decide
  stubs := supplied_init (l := [(1, 0x5000000, 4096), (2, 0x5001000, 4096)]) (by decide) (by decide)
  blocks := supplied_init (l := [(1, 0x1000, 4096), (2, 0x2000, 4096)]) (by decide) (by decide)

theorem providedCall_provided : (providedCall 1300 false).Provided noBlockState 10 .init where
  offered := by decide
  fragment_lt := by decide
  stub_lt := by decide
  block_lt := by decide

theorem discard_restores_first_call :
    ∃ s, find lowRegion noBlockState 10 (providedCall 1300 false) .init = .ok s ∧ Restored .init s := by
  obtain ⟨_, hok, hrestored⟩ := discard_restores lowRegion noBlockState .init .init 10 _ providedCall_undoable
  obtain ⟨s, hs⟩ := hok providedCall_provided
  exact ⟨s, hs, hrestored s hs rfl⟩

/-- A trace of two pages is taken back, and the next trace cannot be stored in its place. -/
theorem discard_blocks_slot : ((find lowRegion noBlockState 10 (firstCall 5000 5000 false) .init).map fun _ => ()) = .ok () ∧
    (runFinds lowRegion noBlockState 10 [firstCall 5000 5000 false, oneBlock 5000 5000 true fun _ => noOffer] .init).map
      (fun _ => ()) = .error (.locator (.assertion .slotEmpty)) :=
  ⟨by decide +kernel, by decide +kernel⟩

/-! ## Estimating where a trace will be -/

/-- With memory for every slab that may be needed, a trace gets its memory where it was estimated to be, unless a size wraps
around or the slab that its CPU would use is unused and too small. -/
theorem estimateMatches_iff {ι κ : Type} [DecidableEq ι] (s : BumpState ι) (hrun : FragmentRun s) (fuel : Nat)
    (call : FindCall ι κ) (hmax : 0 < call.traceMaxSize) (hmax_lt : call.traceMaxSize < 2 ^ 32)
    (hbytes : 0 < call.numBytes) (hbytes_lt : call.numBytes < 2 ^ 32)
    (hsup : Supplied fragmentAllocatorConfig s call.fragmentOffers.tail)
    (hoffered : ∀ o ∈ call.fragmentOffers, o.1.fresh ≠ none) (hfuel : s.made.length + 1 < fuel) :
    EstimateMatches fuel call s ↔
      call.traceMaxSize + pageSize ≤ 2 ^ 32 ∧ call.numBytes + pageSize ≤ 2 ^ 32 ∧
      ∀ p, (s.allocator call.fragmentAllocator).curr = some p → (s.slabs p).remaining < call.traceMaxSize →
        0 < (s.slabs p).index := by
  obtain ⟨L, hall⟩ := hrun.ok
  obtain ⟨h, _⟩ := hall call.fragmentAllocator
  constructor
  · rintro ⟨_, _, _, hok, _⟩
    obtain ⟨hserved, hwrap⟩ := h.served_of_estimateTrace hmax hsup hmax_lt hbytes_lt hok
    exact ⟨hserved.wrap, hwrap, hserved.used⟩
  · rintro ⟨hmax_wrap, hwrap, hused⟩
    obtain ⟨⟨estimatorAddr, startPc, s'⟩, hok, hdvd, b, L', haddr, hdvd', hsize, hlive, h'⟩ :=
      ok_of_starved (h.estimateTrace_spec hmax hsup ⟨hmax_wrap, hused⟩ hbytes hwrap) hoffered hfuel
    refine ⟨estimatorAddr, startPc, s', hok, ?_, L', h'.inv.wellFormed, b, hlive, haddr.symm, hsize⟩
    simp only at hdvd haddr
    rw [show Instructions.cacheLineSize = 64 from rfl]
    omega

/-- A call that is offered memory for slabs of up to 16 pages. -/
def estimateCall (size : Nat) : FindCall Unit Unit :=
  oneBlock size size true fun
    | .fragmentStaged => offer 1 0x600000
    | .fragmentMax => offer 2 0x610000
    | .fragmentEstimate => offer 3 0x620000
    | .fragmentTrace => offer 4 0x630000
    | _ => noOffer

theorem estimateMatches_first_call : EstimateMatches 10 (estimateCall 1300) .init := by
  have hsup : Supplied fragmentAllocatorConfig (.init : BumpState Unit) (estimateCall 1300).fragmentOffers.tail :=
    supplied_init (l := [(2, 0x610000, 4096), (3, 0x620000, 4096), (4, 0x630000, 4096)]) (by decide) (by decide)
  refine (estimateMatches_iff _ .init 10 _ (by decide) (by decide) (by decide) (by decide) hsup (by decide)
    (by decide)).mpr ⟨by decide, by decide, ?_⟩
  intro p hp
  cases hp

def reserveAndFree : Except BumpAbort (BumpState Unit) := do
  let (_, s) ← allocateArray fragmentAllocatorConfig 10 (offer 1 0x600000) .init () 1 1 64
  freeLast fragmentAllocatorConfig 10 noOffer s () .keepSlab

/-- The slab that `free_last` kept is unused, and a trace that may need two pages is estimated wrong. -/
theorem estimate_after_free_last :
    ∃ s : BumpState Unit, FragmentRun s ∧ Supplied fragmentAllocatorConfig s (estimateCall 5000).fragmentOffers.tail ∧
      (estimateTrace 10 (estimateCall 5000) s).map (fun _ => ()) = .error (.assertion .currentSlabUsed) := by
  have hstart : (reserveAndFree.map fun s => (s.made, (s.slabs 1).memory, (s.slabs 1).size)) =
      .ok ([1], 0x600000, 4096) := by decide +kernel
  have hrun : ((do estimateTrace 10 (estimateCall 5000) (← reserveAndFree)).map fun _ => ()) =
      .error (.assertion .currentSlabUsed) := by decide +kernel
  cases hs : reserveAndFree with
  | error e =>
    rw [hs] at hstart
    cases hstart
  | ok s =>
    rw [hs] at hstart hrun
    obtain ⟨hmade, hmemory, hsize⟩ : s.made = [1] ∧ (s.slabs 1).memory = 0x600000 ∧ (s.slabs 1).size = 4096 := by
      simpa [Except.map] using hstart
    obtain ⟨x, hallocate, hfree⟩ := Outcome.bind_eq_ok.mp hs
    have hoffers : Supplied fragmentAllocatorConfig (.init : BumpState Unit) (estimateCall 5000).fragmentOffers :=
      supplied_init (l := [(1, 0x600000, 4096), (2, 0x610000, 8192), (3, 0x620000, 4096), (4, 0x630000, 8192)])
        (by decide) (by decide)
    have hgrew : Grew (offer 1 0x600000) 4096 .init s :=
      ⟨fun q hq => absurd hq not_mem_nil, .inr ⟨1, hmade, by rw [hmemory]; rfl, hsize⟩⟩
    have hfresh : (.init : BumpState Unit).Fresh fragmentAllocatorConfig (offer 1 0x600000)
        (slabSizeFor fragmentAllocatorConfig 64) := by
      rw [show slabSizeFor fragmentAllocatorConfig 64 = slabSizeFor fragmentAllocatorConfig 0 by decide]
      exact hoffers.head
    have hmax : FragmentRun x.2 := .allocateArray .init (by decide) hfresh hallocate
    exact ⟨s, .freeLast hmax hfree, hoffers.tail hgrew, hrun⟩

end Granary.Fragments
