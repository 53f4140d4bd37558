import Granary.Memory.Lemmas.Aligned
import Granary.Memory.Lemmas.Exec
import Granary.Memory.Lemmas.Heap

/-!
# What the allocators guarantee
-/

namespace Granary.Memory

/-! ## Bump-pointer allocators -/

open Linked in
/-- The search takes the best fit out of the list and leaves the other slabs in their order. -/
theorem slabSearch_best_fit {slabs : SlabPtr → BumpPointerSlab} {head : Option SlabPtr} {l : List SlabPtr} {fuel : Nat}
    (h : Chain (nextOf slabs) head l) (hfuel : l.length < fuel) (size : Nat) :
    (slabSearch slabs fuel head size = .ok (none, slabs, head) ↔ ∀ p ∈ l, (slabs p).size < size) ∧
      ((∃ p ∈ l, size ≤ (slabs p).size) → ∃ p slabs' head', slabSearch slabs fuel head size = .ok (some p, slabs', head') ∧
        bestFit slabs size l = some p ∧ Chain (nextOf slabs') head' (l.erase p) ∧ SameData slabs slabs') := by
  rcases slabSearch_eq fuel size h with ⟨-, hlen⟩ | ⟨hr, hbest⟩ | ⟨p, l₁, l₂, slabs', head', hr, hbest, rfl, hunlinked⟩
  · omega
  · have hall := bestFit_eq_none.mp hbest
    refine ⟨⟨fun _ => hall, fun _ => hr⟩, ?_⟩
    rintro ⟨p, hp, hsize⟩
    exact absurd (hall p hp) (Nat.not_lt.mpr hsize)
  · obtain ⟨hp, hsize⟩ := bestFit_eq_some hbest
    have herase : (l₁ ++ p :: l₂).erase p = l₁ ++ l₂ := by
      rw [List.erase_append_right _ (List.disjoint_of_nodup_append h.nodup · List.mem_cons_self), List.erase_cons_head]
    refine ⟨⟨fun hnone => ?_, fun hall => absurd (hall p hp) (Nat.not_lt.mpr hsize)⟩, fun _ => ?_⟩
    · cases hr.symm.trans hnone
    · exact ⟨p, slabs', head', hr, hbest, herase ▸ hunlinked.chain, hunlinked.data⟩

def threeSlabs (p : SlabPtr) : BumpPointerSlab := ⟨if p = 2 then none else some (p + 1), 0, 0, 0, 6 - p⟩

open Linked in
theorem slabSearch_best_fit_three :
    ∃ p slabs' head', slabSearch threeSlabs 4 (some 0) 3 = .ok (some p, slabs', head') ∧
      bestFit threeSlabs 3 [0, 1, 2] = some p ∧ Chain (nextOf slabs') head' ([0, 1, 2].erase p) ∧ SameData threeSlabs slabs' :=
  (slabSearch_best_fit (show Chain (nextOf threeSlabs) _ [0, 1, 2] from ⟨rfl, rfl, rfl, rfl⟩)
    (by decide) 3).2 ⟨0, by decide, by decide⟩

section Bump

variable {ι : Type} [DecidableEq ι]

/-- In every run whose calls meet their conditions the slabs and the live allocations are well formed, and the next such call
fails no assertion and ends. It can only fault for want of memory for a new slab. -/
theorem bump_wellFormed (cfg : AllocatorConfig) (hcfg : cfg ∈ allocatorConfigs) (s : BumpState ι) (hrun : BumpRun cfg s) :
    (∃ L, s.WellFormed L) ∧ ∀ call : BumpCall ι, call.Meets cfg s →
      (∀ fuel site, call.exec cfg fuel s ≠ .error (.assertion site)) ∧
      (∀ fuel, call.exec cfg fuel s = .error .fault → call.env.fresh = none) ∧
      ∀ fuel, s.made.length + 1 < fuel → call.exec cfg fuel s ≠ .error .running := by
  have hok := hrun.bumpOk hcfg
  obtain ⟨L, hL, _⟩ := id hok
  refine ⟨⟨L, hL⟩, fun call hmeets => ⟨fun fuel site he => ?_, fun fuel he => ?_, fun fuel hfuel he => ?_⟩⟩
  · rcases (BumpCall.exec_spec hcfg hok hmeets).of_error he with ⟨h, _⟩ | ⟨h, _⟩ <;> cases h
  · rcases (BumpCall.exec_spec hcfg hok hmeets).of_error he with ⟨_, h⟩ | ⟨h, _⟩
    · exact h
    · cases h
  · rcases (BumpCall.exec_spec hcfg hok hmeets).of_error he with ⟨h, _⟩ | ⟨_, h⟩
    · cases h
    · omega

/-- Memory for one new slab, and locks that are free. -/
def oneSlab (p : SlabPtr) (memory : Nat) : BumpEnv :=
  { fresh := some (p, memory), lockSearch := true, lockShare := true }

/-- Two allocations in one slab, the second of which is freed again. -/
theorem bump_wellFormed_three_calls :
    ∃ s : BumpState Unit, BumpRun fragmentAllocatorConfig s ∧ s.live () = [⟨4096, 64, 64, 1⟩] ∧ ∃ L, s.WellFormed L := by
  have hfresh : (BumpState.init : BumpState Unit).Fresh fragmentAllocatorConfig (oneSlab 1 4096) 4096 := by
    rintro p memory ⟨⟩
    exact ⟨by simp [BumpState.init], by decide, by simp [BumpState.init]⟩
  have hfirst := @BumpRun.call Unit _ fragmentAllocatorConfig .init _ 8 ⟨(), .allocate 64 64, oneSlab 1 4096⟩ .init
    ⟨hfresh, by decide, by decide, by decide, nofun⟩ rfl
  have hsecond := @BumpRun.call _ _ _ _ _ 8 ⟨(), .allocate 64 100, { oneSlab 2 4096 with fresh := none }⟩ hfirst
    ⟨nofun, by decide, by decide, by decide, by rintro p ⟨⟩; decide⟩ rfl
  have hthird := @BumpRun.call _ _ _ _ _ 8 ⟨(), .freeLast .keepSlab, oneSlab 2 4096⟩ hsecond trivial rfl
  exact ⟨_, hthird, by decide, (bump_wellFormed _ (by decide) _ hthird).1⟩

/-- A staged allocation leaves an unused slab, and the stub allocator then cannot serve a larger request. -/
theorem stub_staged_then_big_asserts :
    runBump stubAllocatorConfig 8 [⟨(), .allocateStaged, oneSlab 1 4096⟩, ⟨(), .allocate 8 5000, oneSlab 2 8192⟩]
      (.init : BumpState Unit) = .error (.assertion .currentSlabUsed) := by
  rfl

-- a staged allocation gives back the slab that `first` still points to
example : runBump transientAllocatorConfig 8 [⟨(), .allocateStaged, oneSlab 1 4096⟩, ⟨(), .freeAll, oneSlab 2 8192⟩]
    (.init : BumpState Unit) = .error (.assertion .currentSlab) := by
  rfl

/-- Every state of a run can serve exactly the requests that fit into one slab behind the longest padding. A bigger one fails
an assertion where the current slab is unused. -/
theorem allocatesAligned_iff (cfg : AllocatorConfig) (hcfg : cfg ∈ allocatorConfigs) (i : ι) (k size : Nat) (hk : k < 32)
    (hpos : 0 < size) :
    AllocatesAligned cfg i (2 ^ k) size ↔
      size ≤ cfg.slabSize ∧ (2 ^ k ≤ cfg.baseAlign ∨ size + (2 ^ k - cfg.baseAlign) ≤ cfg.slabSize) := by
  obtain ⟨m, hm⟩ : ∃ m, cfg.baseAlign = 2 ^ m := by
    unfold AllocatorConfig.baseAlign
    split
    · exact ⟨12, rfl⟩
    · exact ⟨3, rfl⟩
  have halign : 2 ^ k ≤ 2 ^ 31 := Nat.pow_le_pow_right (by decide) (by omega)
  constructor
  · intro h
    have hle := h.size_le hcfg
    have hroom := h.room hcfg hpos hle (Nat.two_pow_pos k) halign
    rw [hm] at hroom ⊢
    exact ⟨hle, (room_iff hle).mp hroom⟩
  · rintro ⟨hle, hroom⟩
    refine allocatesAligned_of_le hcfg hk hpos hle ?_
    rw [hm] at hroom ⊢
    exact (room_iff hle).mpr hroom

theorem allocatesAligned_fragment : AllocatesAligned fragmentAllocatorConfig () (2 ^ 6) 4096 :=
  (allocatesAligned_iff _ (by decide) () 6 4096 (by decide) (by decide)).mpr ⟨by decide, .inl (by decide)⟩

/-- Heap memory is aligned to 8, so a whole slab has no room for a request that is aligned to 16. -/
theorem block_slab_without_padding :
    (BumpState.init : BumpState Unit).Fresh blockAllocatorConfig (oneSlab 1 4104) (slabSizeFor blockAllocatorConfig 4096) ∧
      allocateBare blockAllocatorConfig 8 (oneSlab 1 4104) (.init : BumpState Unit) () 16 4096 =
        .error (.assertion .notGotSlab) := by
  refine ⟨?_, rfl⟩
  rintro p memory ⟨⟩
  exact ⟨by simp [BumpState.init], by decide, by simp [BumpState.init]⟩

end Bump

/-! ## The global heap -/

/-- As long as no call has faulted, or all requests so far fit in the heap, all blocks and the rest of the heap are apart and
inside it, whatever the threads do. -/
theorem heap_safe {n : Nat} (heap : Nat) (heap8 : 8 ∣ heap) (s : HeapState n) (h : HeapReachable heap s)
    (hd : s.demand ≤ heapSize ∨ ∀ t, s.pc t ≠ .faulted) : ∃ L, s.Safe heap L := by
  obtain ⟨L, B, own, hinv⟩ := h.inv heap8 hd
  exact ⟨L, hinv.safe⟩

/-- Two threads get blocks, the first one is freed and its memory is given out again. -/
theorem heap_safe_two_threads :
    ∃ s : HeapState 2, HeapReachable 4096 s ∧ s.live = [⟨4096, 30, 2⟩, ⟨4128, 100, 4⟩] ∧ s.demand ≤ heapSize ∧
      ∃ L, s.Safe 4096 L := by
  have hcall : HeapReachable 4096 _ := .step (.init fun _ => none) (.callAllocate (0 : Fin 2) 24 rfl (by decide) (by decide))
  have hfirst := (hcall.step (.headEmpty 0 24 rfl rfl)).step (.bump 0 24 rfl (by decide))
  have hcall' := (hfirst.step (.callAllocate 1 100 rfl (by decide) (by decide))).step (.headEmpty 1 100 rfl rfl)
  have hsecond := hcall'.step (.bump 1 100 rfl (by decide))
  have hfree := (hsecond.step (.callFree 0 ⟨4096, 24, 2⟩ rfl (by decide) (by decide))).step (.freeAcquire 0 4096 24 rfl rfl)
  have hlink := (hfree.step (.freeLoad 0 4096 24 rfl)).step (.freeLink 0 4096 24 none rfl)
  have hfreed := (hlink.step (.freeStore 0 4096 24 rfl)).step (.freeRelease 0 24 rfl)
  have hagain := (hfreed.step (.callAllocate 1 30 rfl (by decide) (by decide))).step (.headFull 1 30 4096 rfl rfl)
  have hload := (hagain.step (.allocAcquire 1 30 rfl rfl)).step (.loadObject 1 30 4096 rfl rfl)
  have hstore := (hload.step (.readNext 1 30 4096 rfl)).step (.storeHead 1 30 4096 none rfl)
  have hlast := hstore.step (.unlockReturn 1 30 4096 rfl)
  exact ⟨_, hlast, by decide, by decide, heap_safe 4096 (by decide) _ hlast (.inl (by decide))⟩

/-! ## The executable region -/

/-- In every interleaving in which no pointer update wraps, what was returned is disjoint and inside the region, and if all
calls return, the predicates tell the kinds of memory apart all along. -/
theorem exec_safe {n : Nat} (r : ExecRegion) (s : ExecState n) (hrun : ExecRun r (.init n r) s) :
    s.Safe r ∧ ∀ s', ExecRun r s s' → (∀ t, s'.pc t = .idle) → s.Classified r := by
  have hinv := hrun.inv (.init n r)
  refine ⟨hinv.safe, fun s' hrun' hidle => hinv.classified fun hpast => ?_⟩
  obtain ⟨t, ht⟩ := (hrun.trans hrun').past (hpast.mono (hrun'.grows hinv))
  rw [hidle t] at ht
  exact ht

/-- A region low in the address space, outside of which nothing can be written. -/
def lowRegion : ExecRegion where
  start := 0x600000
  writable mem size := decide (0x600000 ≤ mem ∧ mem + size ≤ 0x600000 + codeCacheSize)
  aligned := by decide
  fits := by decide
  writable_area _ _ hlo hhi := decide_eq_true ⟨hlo, hhi⟩

def ExecRequest.page : ExecRequest := { size := pageSize, pos := by decide, le := by decide }

theorem exec_safe_one_page :
    ∃ s : ExecState 1, ExecRun lowRegion (.init 1 lowRegion) s ∧ s.returned = [(⟨.codeCache, 0x600000, 4096⟩, 0x6900000)] ∧
      s.Safe lowRegion ∧ s.Classified lowRegion := by
  have h₁ : ExecRun lowRegion (.init 1 lowRegion) _ := .step (.call 0 .page (some .codeCache)) .refl (by decide) rfl
  have h₂ : ExecRun lowRegion (.init 1 lowRegion) _ := .step (.run 0) h₁ trivial rfl
  have h₃ : ExecRun lowRegion (.init 1 lowRegion) _ := .step (.run 0) h₂ trivial rfl
  have hsafe := exec_safe lowRegion _ h₃
  refine ⟨_, h₃, by decide, hsafe.1, hsafe.2 _ .refl fun t => ?_⟩
  rw [Subsingleton.elim t 0]
  rfl

def ExecRequest.region : ExecRequest := { size := codeCacheSize, pos := by decide, le := by decide }

/-- After a page of wrappers is allocated, two CPUs ask for as much generated code as the region has. Both fault, the second
when it fills its memory, and the start of generated code has wrapped around. Then a third is given the whole region as code
cache. -/
theorem codeCache_over_wrappers :
    ∃ s : ExecState 3, ExecState.runExec lowRegion
        [.call 0 .page (some .wrapper), .run 0, .run 0, .call 0 .region (some .genCode), .run 0, .run 0,
          .call 1 .region (some .genCode), .run 1, .run 1, .call 2 .region (some .codeCache), .run 2, .run 2]
        (.init 3 lowRegion) = some s ∧
      s.pc 0 = .faulted ∧ s.pc 1 = .faulted ∧
      s.returned = [(⟨.codeCache, 0x600000, codeCacheSize⟩, 2 ^ 64 - 0x5f00000), (⟨.wrapper, 0x6900000, 4096⟩, 0x6a00000)] ∧
      ¬ s.Safe lowRegion := by
  refine ⟨_, rfl, by decide, by decide, by decide, fun h => ?_⟩
  have hapart := List.rel_of_pairwise_cons h.disjoint (List.mem_singleton.mpr rfl)
  rw [Ranges.Apart] at hapart
  revert hapart
  decide

end Granary.Memory
