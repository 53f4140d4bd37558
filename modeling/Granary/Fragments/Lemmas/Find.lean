import Granary.Fragments.Lemmas.Translate

/-!
# Runs of translations

The slabs that the fragment allocators have made are the slabs in which the locators find traces, and each stored trace
is a live allocation.
-/

namespace Granary.Fragments

open Function (update update_of_ne update_self)

open Memory Outcome Ranges List

variable {ι κ : Type} [DecidableEq ι] {r : ExecRegion} {i : ι} {s s' s₁ : BumpState ι}
  {L L' L₁ : SlabLists ι} {b : LiveAllocation} {q q' : SlabPtr} {fuel : Nat}
variable {p : Nat} {fragment : BumpState ι} {B C : BumpState κ → Prop}

/-! ## The slabs as a layout -/

def rangeOf (s : BumpState ι) (q : SlabPtr) : SlabRange := { base := (s.slabs q).memory, size := (s.slabs q).size }

def layoutOf (s : BumpState ι) : List SlabRange := s.made.map (rangeOf s)

section

omit [DecidableEq ι]

theorem FragInv.layout (h : FragInv r i s L) : Layout r (layoutOf s) := by
  refine ⟨?_, ?_, ?_, ?_, ?_⟩
  · intro g hg
    obtain ⟨q, hq, rfl⟩ := mem_map.mp hg
    exact h.memory_dvd hq
  · intro g hg
    obtain ⟨q, hq, rfl⟩ := mem_map.mp hg
    exact (h.pages q hq).1
  · intro g hg
    obtain ⟨q, hq, rfl⟩ := mem_map.mp hg
    exact (h.pages q hq).2.1
  · intro g hg
    obtain ⟨q, hq, rfl⟩ := mem_map.mp hg
    exact (h.pages q hq).2.2
  · intro g hg g' hg' hne
    obtain ⟨q, hq, rfl⟩ := mem_map.mp hg
    obtain ⟨q', hq', rfl⟩ := mem_map.mp hg'
    exact h.inv.apart q hq q' hq' fun he => hne (he ▸ rfl)

theorem FragInv.slab_inj (h : FragInv r i s L) (hq : q ∈ s.made) (hq' : q' ∈ s.made) (he : rangeOf s q = rangeOf s q') :
    q = q' := by
  by_contra hne
  have hap := h.inv.apart q hq q' hq' hne
  have hle := (h.inv.bounds q hq).1
  have hslab : fragmentAllocatorConfig.slabSize = 4096 := rfl
  obtain ⟨hm, hs⟩ := SlabRange.mk.inj he
  unfold Apart at hap
  omega

theorem layoutOf_mono (hmade : ∀ q ∈ s.made, q ∈ s'.made) (hrange : ∀ q ∈ s.made, rangeOf s' q = rangeOf s q)
    {g : SlabRange} (hg : g ∈ layoutOf s) : g ∈ layoutOf s' := by
  obtain ⟨q, hq, rfl⟩ := mem_map.mp hg
  exact mem_map.mpr ⟨q, hmade q hq, hrange q hq⟩

theorem Steady.rangeOf (h : Steady s s' L L') (hq : q ∈ s.made) : rangeOf s' q = rangeOf s q := by
  obtain ⟨hm, hs, _⟩ := h.slabs q hq
  rw [Fragments.rangeOf, Fragments.rangeOf, hm, hs]

end

def Lives (s : BumpState ι) (t : StoredTrace) : Prop :=
  ∃ j, ∃ b ∈ s.live j, b.addr = t.startPc ∧ b.size = t.size ∧ rangeOf s b.slab = t.slab

structure SystemInv (r : ExecRegion) (s : TranslatorState ι κ) (L : SlabLists ι) (home : Nat → SlabRange)
    (stored : List StoredTrace) : Prop where
  frag : ∀ i, FragInv r i s.fragment L
  last : ∀ i, LastOk s.fragment i
  layout : Layout r (layoutOf s.fragment)
  loc : LocInv r (layoutOf s.fragment) home s.table stored
  lives : ∀ t ∈ stored, Lives s.fragment t
  spots : ∀ t ∈ stored, Spotted t

omit [DecidableEq ι] in
theorem Lives.mono {t : StoredTrace} (h : Lives s t) (hinv : FragInv r i s L)
    (hlive : ∀ j, ∀ b ∈ s.live j, b ∈ s'.live j) (hrange : ∀ q ∈ s.made, rangeOf s' q = rangeOf s q) : Lives s' t := by
  obtain ⟨j, b, hb, haddr, hsize, hslab⟩ := h
  refine ⟨j, b, hlive j b hb, haddr, hsize, ?_⟩
  rw [hrange _ (hinv.inv.mem_made (hinv.inv.inside j b hb).mem), hslab]

theorem FragInv.all (h : FragInv r i s L) (hlast : LastOk s i) (j : ι) : FragInv r j s L ∧ LastOk s j := by
  have hall : ∀ k, LastOk s k := by
    intro k
    by_cases hk : k = i
    · exact hk ▸ hlast
    · exact h.inv.last k hk
  exact ⟨{ h with inv := { h.inv with last := fun k _ => hall k } }, hall j⟩

/-! ## Where a trace is placed -/

section Placing

variable {call : FindCall ι κ} {stored : List StoredTrace} (hm : TraceMemory r call s L b s₁ L₁ s' L')

def traceAt (call : FindCall ι κ) (s : BumpState ι) (b : LiveAllocation) : StoredTrace :=
  { startPc := b.addr, sizes := call.sizes, slab := rangeOf s b.slab }

include hm

theorem TraceMemory.made (hq : q ∈ s.made) : q ∈ s'.made := hm.alloc.grew.mem (hm.steady.made q hq)

theorem TraceMemory.rangeOf (hq : q ∈ s.made) : rangeOf s' q = rangeOf s q := by
  obtain ⟨hmem, hsize⟩ := hm.alloc.grew.regions q (hm.steady.made q hq)
  rw [← hm.steady.rangeOf hq, Fragments.rangeOf, Fragments.rangeOf, hmem, hsize]

theorem TraceMemory.live (j : ι) (c : LiveAllocation) (hc : c ∈ s.live j) : c ∈ s'.live j := by
  rw [hm.alloc.live, hm.steady.live]
  by_cases hj : j = call.fragmentAllocator
  · subst hj
    rw [update_self]
    exact mem_cons_of_mem _ hc
  · rwa [update_of_ne hj]

theorem TraceMemory.slab_cases : b.addr = (s'.slabs b.slab).memory ∧ (∀ j, b.slab ∉ L (.curr j)) ∨
    (∃ j, b.slab ∈ L (.curr j)) ∧ (s'.slabs b.slab).memory + (s'.slabs b.slab).size < b.addr + pageSize := by
  cases allocated_spot hm.inv hm.alloc.toAllocated hm.free with
  | inPlace pad hc _ hreg _ hpos haddr _ =>
    refine .inr ⟨⟨call.fragmentAllocator, ?_⟩, ?_⟩
    · rw [← hm.steady.curr]
      exact hm.inv.inv.curr_mem hc
    · have hreached := hm.inv.reached _ (hm.inv.inv.mem_made (hm.inv.inv.curr_mem hc)) hpos
      rw [(hreg.2 _).1, (hreg.2 _).2]
      omega
  | taken _ hc hc' _ haddr _ _ =>
    refine .inl ⟨haddr, fun j => ?_⟩
    rw [← hm.steady.curr]
    exact not_curr_of_pushed hm.alloc.inv hc hc' j

theorem TraceMemory.spotted : Spotted (traceAt call s' b) := by
  refine ⟨hm.alloc.dvd, ?_⟩
  obtain ⟨haddr, _⟩ | ⟨_, hlast⟩ := hm.slab_cases
  · exact .inl haddr
  · exact .inr hlast

theorem TraceMemory.placed (hinv : FragInv r i s L) (hpos : 0 < call.numBytes) (hlives : ∀ t ∈ stored, Lives s t) :
    Placed (layoutOf s') stored (traceAt call s' b) := by
  have ha := hm.alloc
  have hcurr := ha.inv.curr_mem ha.curr_eq
  have hmade := ha.inv.mem_made hcurr
  have hb : b ∈ s'.live call.fragmentAllocator := by
    rw [ha.live, update_self]
    exact mem_cons_self
  have hin := ha.inv.inside _ b hb
  have hkept := ha.inv.kept _ _ hcurr
  have hend := ha.end_eq
  refine ⟨mem_map.mpr ⟨_, hmade, rfl⟩, hin.memory_le, ?_, hpos, fun u hu hslab => ?_⟩
  · change b.addr + call.numBytes ≤ (s'.slabs b.slab).memory + (s'.slabs b.slab).size
    omega
  · obtain ⟨j, c, hc, haddr, hsize, hrange⟩ := hlives u hu
    rw [← haddr, ← hsize]
    have hc₁ : c ∈ s₁.live j := hm.steady.live ▸ hc
    have hin₁ := hm.inv.inv.inside j c hc₁
    have hmade₀ := hinv.inv.mem_made (hinv.inv.inside j c hc).mem
    have heq : c.slab = b.slab := by
      refine ha.frag.slab_inj (hm.made hmade₀) hmade ?_
      rw [hm.rangeOf hmade₀, hrange, hslab]
      rfl
    have hle := hin₁.le_index
    rw [heq] at hle
    cases allocated_spot hm.inv ha.toAllocated hm.free with
    | inPlace pad _ _ _ _ _ hb _ =>
      change c.addr + c.size ≤ b.addr
      omega
    | taken _ hcurr hcurr' _ _ _ _ =>
      -- nothing is live in a slab that was just taken
      exact absurd (heq ▸ hin₁.mem) (not_curr_of_pushed ha.inv hcurr hcurr' j)

end Placing

/-! ## `translate` -/

variable {type : BlockStateType} {call : FindCall ι κ} {S S' S₁ : TranslatorState ι κ}
  {home : Nat → SlabRange} {stored : List StoredTrace}

structure Translated (r : ExecRegion) (call : FindCall ι κ) (S : TranslatorState ι κ) (L : SlabLists ι)
    (home : Nat → SlabRange) (stored : List StoredTrace) (b : LiveAllocation) (s₁ : BumpState ι)
    (L₁ : SlabLists ι) (L' : SlabLists ι) (p : Nat) (fragment : BumpState ι)
    (table : LocatorTable) : Prop where
  memory : TraceMemory r call S.fragment L b s₁ L₁ fragment L'
  recorded : Recorded r S.table (traceAt call fragment b).toEmittedTrace p table
  loc : LocInv r (layoutOf fragment) (update home p (rangeOf fragment b.slab)) table
    (traceAt call fragment b :: stored)

theorem TraceMemory.emit (hm : TraceMemory r call s L b s₁ L₁ s' L') :
    TraceMemory r call s L b s₁ L₁ (emit s' b.addr call.numBytes call.code) L' :=
  ⟨hm.inv, hm.steady, hm.free, hm.alloc.emit call.code⟩

theorem Translated.emit {table : LocatorTable} (h : Translated r call S L home stored b s₁ L₁ L' p fragment table) :
    Translated r call S L home stored b s₁ L₁ L' p (emit fragment b.addr call.numBytes call.code) table :=
  ⟨h.memory.emit, h.recorded, h.loc⟩

omit [DecidableEq ι] in
theorem FindCall.Snug.freeFits (h : call.Snug r s) (hinv : FragInv r i s L) :
    FreeFits call.fragmentAllocator s L (slabSizeFor fragmentAllocatorConfig call.numBytes) := by
  intro P hP q hq
  refine h.recycled P ?_ _ (hinv.inv.lists.chain P) q hq
  cases P with
  | curr j => exact hP.elim
  | free j => exact hP ▸ mem_cons_self
  | shared => exact mem_cons_of_mem _ mem_cons_self

theorem SystemInv.memory (h : SystemInv r S L home stored) (hcall : call.Snug r S.fragment) :
    Ends (Starved call.fragmentOffers fuel (S.fragment.made.length + 4))
      (fun x => Ends (Starved call.fragmentOffers fuel (S.fragment.made.length + 4))
        (fun y => ∃ b s₁ L₁ L', y.1 = b.addr ∧ TraceMemory r call S.fragment L b s₁ L₁ y.2 L' ∧
          y.2.made.length ≤ S.fragment.made.length + 3)
        (allocateTrace fuel call x.2))
      (allocateStaged fragmentAllocatorConfig fuel (call.env .fragmentStaged) S.fragment call.fragmentAllocator) := by
  have hfrag := h.frag call.fragmentAllocator
  have hmem := fun {o} => @FindCall.mem_fragmentOffers ι κ call o
  have hsup : Supplied fragmentAllocatorConfig S.fragment call.fragmentOffers := hcall.supplied
  refine (hfrag.staged hsup.head (hcall.offered (hmem.mpr (.inl rfl)))).mono ?_ fun e he =>
    .of_mayStop he (hmem.mpr (.inl rfl)) (by omega)
  rintro ⟨_, s₀⟩ ⟨L₀, hst⟩
  have hle : s₀.made.length ≤ S.fragment.made.length + 1 := hst.grew.made_le
  have hfits : Fits fragmentAllocatorConfig 64 call.numBytes := fits_fragment hcall.wrap
  refine (allocateTrace_spec hst.inv hcall (hst.free _ hfits.slab_le (hcall.freeFits hfrag)) (hsup.tail hst.grew)).mono ?_ ?_
  · rintro y ⟨b, s₁, L₁, L', haddr, hm, hmade⟩
    refine ⟨b, s₁, L₁, L', haddr, ⟨hm.inv, hst.steady.trans hfrag hm.steady, hm.free, hm.alloc⟩, ?_⟩
    simp only at hmade
    omega
  · rintro e (he | he)
    · exact .inl he
    · exact .of_stuck he (by simp only; omega)

/-- Storing the trace, if its locator has room whatever the slots. -/
theorem SystemInv.store (h : SystemInv r S L home stored) (hpos : 0 < call.numBytes)
    (hm : TraceMemory r call S.fragment L b s₁ L₁ fragment L') :
    Ends (Blocked r S.table (traceAt call fragment b).toEmittedTrace)
      (fun table => ∃ p, Translated r call S L home stored b s₁ L₁ L' p fragment table)
      (storeTraceMetaInfo r S.table (EmittedTrace.traceInfo ⟨b.addr, call.sizes⟩)) := by
  have hlayout : Layout r (layoutOf fragment) := hm.alloc.frag.layout
  have hloc : LocInv r (layoutOf fragment) home S.table stored :=
    h.loc.mono fun g hg => layoutOf_mono (fun q => hm.made) (fun q => hm.rangeOf) hg
  have hplaced := hm.placed (h.frag call.fragmentAllocator) hpos h.lives
  refine (hloc.store_spec hlayout hplaced fun p hp => ?_).imp fun table ⟨p, hr, hloc'⟩ => ⟨p, hm, hr, hloc'⟩
  exact hloc.room hlayout h.spots hplaced hm.spotted hp

/-! ## `find` -/

theorem SystemInv.keep (h : SystemInv r S L home stored)
    (ht : Translated r call S L home stored b s₁ L₁ L' p S'.fragment S'.table) :
    SystemInv r S' L' (update home p (rangeOf S'.fragment b.slab)) (traceAt call S'.fragment b :: stored) := by
  have hm := ht.memory
  have hall := fun j => hm.alloc.frag.all hm.alloc.lastOk j
  refine ⟨fun j => (hall j).1, fun j => (hall j).2, hm.alloc.frag.layout, ht.loc, fun t ht' => ?_, fun t ht' => ?_⟩
  · rcases mem_cons.mp ht' with rfl | ht'
    · refine ⟨call.fragmentAllocator, b, ?_, rfl, hm.alloc.size_eq, rfl⟩
      rw [hm.alloc.live, update_self]
      exact mem_cons_self
    · exact (h.lives t ht').mono (h.frag call.fragmentAllocator) hm.live fun q => hm.rangeOf
  · rcases mem_cons.mp ht' with rfl | ht'
    · exact hm.spotted
    · exact h.spots t ht'

theorem SystemInv.undo {table : LocatorTable} (h : SystemInv r S L home stored)
    (ht : Translated r call S L home stored b s₁ L₁ L' p fragment table) {L₂ : SlabLists ι}
    (hrel : Released r call.fragmentAllocator s₁ L₁ (slabSizeFor fragmentAllocatorConfig call.numBytes) fragment
      S'.fragment L₂) (hlast : LastOk S'.fragment call.fragmentAllocator)
    (hloc : LocInv r (layoutOf fragment) (update home p (rangeOf fragment b.slab)) S'.table stored) :
    SystemInv r S' L₂ (update home p (rangeOf fragment b.slab)) stored ∧
      Steady S.fragment S'.fragment L L₂ := by
  have hfrag := h.frag call.fragmentAllocator
  have hsteady := ht.memory.steady.trans hfrag hrel.steady
  have hall := fun j => hrel.inv.all hlast j
  refine ⟨⟨fun j => (hall j).1, fun j => (hall j).2, hrel.inv.layout, hloc.mono fun g hg => ?_, fun t ht' => ?_,
    h.spots⟩, hsteady⟩
  · refine layoutOf_mono (fun q hq => hrel.regions.1 ▸ hq) (fun q _ => ?_) hg
    rw [rangeOf, rangeOf, (hrel.regions.2 q).1, (hrel.regions.2 q).2]
  · refine (h.lives t ht').mono hfrag (fun j c hc => ?_) fun q hq => hsteady.rangeOf hq
    rw [hsteady.live]
    exact hc

variable [DecidableEq κ]

theorem translate_ends {E : TranslatorAbort → Prop} {F : Nat × BumpState ι → Prop}
    {T : Nat × BumpState ι → LocatorTable → Prop}
    (hb : Ends (fun e => E (.block e)) (fun x => Ends (fun e => E (.block e)) B
        (allocateBlockStates type fuel call call.sizes.length x.2))
      (allocateStaged blockAllocatorConfig fuel (call.env .blockStaged) S.block call.cpu))
    (hs : Ends (fun e => E (.stub e)) (fun x => Ends (fun e => E (.stub e)) C (allocateStubs fuel call x.2))
      (allocateStaged stubAllocatorConfig fuel (call.env .stubStaged) S.stub call.cpu))
    (hf : Ends (fun e => E (.fragment e)) (fun x => Ends (fun e => E (.fragment e)) F (allocateTrace fuel call x.2))
      (allocateStaged fragmentAllocatorConfig fuel (call.env .fragmentStaged) S.fragment call.fragmentAllocator))
    (ht : ∀ x, F x → Ends (fun e => E (.locator e)) (fun table => T x table ∧
        Ends (fun e => E (.locator e)) (fun _ => True) (findBlocks r table (EmittedTrace.blocks ⟨x.1, call.sizes⟩)))
      (storeTraceMetaInfo r S.table (EmittedTrace.traceInfo ⟨x.1, call.sizes⟩))) :
    Ends E (fun y => y.1.sizes = call.sizes ∧ ∃ fragment, F (y.1.startPc, fragment) ∧
      y.2.fragment = emit fragment y.1.startPc call.numBytes call.code ∧ B y.2.block ∧ C y.2.stub ∧
      T (y.1.startPc, fragment) y.2.table) (translate r type fuel call S) := by
  refine hb.mapError.bind fun xb hxb => hs.mapError.bind fun xs hxs => hf.mapError.bind fun xf hxf => ?_
  refine hxb.mapError.bind fun block hblock => hxf.mapError.bind fun x hx => hxs.mapError.bind fun stub hstub => ?_
  refine (ht x hx).mapError.bind fun table htable => htable.2.mapError.bind fun _ _ => ?_
  exact ⟨rfl, x.2, hx, rfl, hblock, hstub, htable.1⟩

theorem SystemInv.discard {E : TranslatorAbort → Prop}
    (h : SystemInv r S L home stored) (hpos : 0 < call.numBytes) (hsingle : call.sizes.length = 1)
    (ht : Translated r call S L home stored b s₁ L₁ L' p S₁.fragment S₁.table)
    (hf : ∀ e, Stuck fuel S₁.fragment.made.length e → E (.fragment e))
    (hs : Ends (fun e => E (.stub e)) C
      (freeLast stubAllocatorConfig fuel (call.env .discardStub) S₁.stub call.cpu .tryFreeSlab))
    (hb : Ends (fun e => E (.block e)) B
      (freeLast blockAllocatorConfig fuel (call.env .discardBlock) S₁.block call.cpu .tryFreeSlab)) :
    Ends E (fun S' => (∃ L₂ home', SystemInv r S' L₂ home' stored ∧ Steady S.fragment S'.fragment L L₂) ∧
      SameRegions S₁.fragment S'.fragment ∧ S'.table.slots = S₁.table.slots ∧
      S'.table.locators = update S₁.table.locators p ⟨(S₁.table.locators p).fragments.dropLast⟩ ∧
      C S'.stub ∧ B S'.block) (discard r fuel call b.addr S₁) := by
  have hm := ht.memory
  have hfirst : S₁.table.slots (r.findFragmentSlab b.addr) = some p := by
    have hin := (ht.loc.traces _ mem_cons_self).inRegion hm.alloc.frag.layout
    exact ht.recorded.slot_first hin (Nat.le_refl _) (Nat.lt_add_of_pos_right hpos)
  refine ((ht.loc.remove_spec hm.alloc.frag.layout hsingle).mono (fun _ => id) fun _ => False.elim).mapError.bind ?_
  rintro table ⟨hloc, hslots, p', hp', hlocs⟩
  cases hp'.symm.trans hfirst
  refine ((hm.alloc.tryFree hm.inv hm.free hpos).mono (fun _ => id) hf).mapError.bind ?_
  rintro fragment ⟨⟨L₂, hrel⟩, hlast⟩
  refine hs.mapError.bind fun stub hstub => hb.mapError.bind fun block hblock => ?_
  exact ⟨⟨L₂, _, h.undo ht hrel hlast hloc⟩, hrel.regions, hslots, hlocs, hstub, hblock⟩

section Errors

variable {table : LocatorTable} {E : LocatorAbort → Prop}

theorem ends_check {site : LocatorAssert} {P : Prop} [Decidable P] (h : E (.assertion site)) :
    Ends E (fun _ => True) (check site P) := by
  unfold check
  split
  · trivial
  · exact h

theorem findBasicBlockInfo_ne_roomLeft {pc : Nat} :
    Ends (fun e => e ≠ .assertion .roomLeft) (fun _ => True) (findBasicBlockInfo r table pc) := by
  have hbounds : Ends (fun e : LocatorAbort => e ≠ .assertion .roomLeft) (fun _ => True)
      (inBounds (r.findFragmentSlab pc)) := by
    unfold inBounds
    split
    · trivial
    · exact ends_error.mpr (by decide)
  have hget : ∀ x : GenericInfoPtr, Ends (fun e : LocatorAbort => e ≠ .assertion .roomLeft) (fun _ => True)
      (x.getBlock pc) := by
    intro x
    cases x with
    | block info => trivial
    | trace info =>
      simp only [GenericInfoPtr.getBlock]
      split
      · trivial
      · exact ends_error.mpr (by decide)
  have hsearch : ∀ array, Ends (fun e : LocatorAbort => e ≠ .assertion .roomLeft) (fun _ => True)
      (searchBasicBlockInfo array pc) := by
    intro array
    unfold searchBasicBlockInfo
    split
    · trivial
    · split
      · trivial
      · exact (hget _).map fun _ _ => trivial
  refine hbounds.bind fun _ _ => ?_
  split
  · exact ends_error.mpr (by decide)
  · refine (hsearch _).bind fun info _ => ?_
    split
    · exact ends_error.mpr (by decide)
    · exact (ends_check (by decide)).bind fun _ _ => (ends_check (by decide)).bind fun _ _ => trivial

theorem findBlocks_ends (hE : ∀ pc, Ends E (fun _ => True) (findBasicBlockInfo r table pc)) (bs : List (Nat × Nat)) :
    Ends E (fun _ => True) (findBlocks r table bs) := by
  induction bs with
  | nil => trivial
  | cons b bs ih => exact (hE b.1).bind fun _ _ => ih

end Errors

theorem SystemInv.find_capacity (h : SystemInv r S L home stored) (hcall : call.Snug r S.fragment) :
    Ends (fun e => e ≠ .locator (.assertion .roomLeft)) (fun S' => ∃ L' home' stored', SystemInv r S' L' home' stored')
      (find r type fuel call S) := by
  have hne : ∀ {e : LocatorAbort}, e ≠ .assertion .roomLeft →
      TranslatorAbort.locator e ≠ .locator (.assertion .roomLeft) := fun hne he => hne (TranslatorAbort.locator.inj he)
  have hfind : ∀ table pc, Ends (fun e => TranslatorAbort.locator e ≠ .locator (.assertion .roomLeft)) (fun _ => True)
      (findBasicBlockInfo r table pc) := fun table pc => findBasicBlockInfo_ne_roomLeft.mono (fun _ => id) fun _ => hne
  refine (translate_ends (B := fun _ => True) (C := fun _ => True)
    (T := fun x table => ∃ b s₁ L₁ L' p, x.1 = b.addr ∧ Translated r call S L home stored b s₁ L₁ L' p x.2 table)
    (ends_of_forall (fun _ => nofun) fun _ => ends_of_forall (fun _ => nofun) fun _ => trivial)
    (ends_of_forall (fun _ => nofun) fun _ => ends_of_forall (fun _ => nofun) fun _ => trivial)
    ((h.memory hcall).mono (fun _ hx => hx.mono (fun _ => id) fun _ _ => nofun) fun _ _ => nofun) ?_).bind ?_
  · rintro x ⟨b, s₁, L₁, L', haddr, hm, _⟩
    rw [haddr]
    refine (h.store hcall.pos hm).mono ?_ fun e he => hne fun heq => ?_
    · rintro table ⟨p, ht⟩
      exact ⟨⟨b, s₁, L₁, L', p, rfl, ht⟩, findBlocks_ends (hfind table) _⟩
    · cases he.1.symm.trans heq
  · rintro ⟨trace, S₁⟩ ⟨_, fragment, _, hfrag, _, _, b, s₁, L₁, L', p, haddr, ht⟩
    simp only at hfrag haddr ht ⊢
    have ht' : Translated r call S L home stored b s₁ L₁ L' p S₁.fragment S₁.table := by
      rw [hfrag, haddr]
      exact ht.emit
    refine ((hfind S₁.table trace.startPc).mapError (F := fun e => e ≠ _)).bind fun _ _ => ?_
    split
    · rename_i hdisc
      have hsingle : call.sizes.length = 1 := by
        simp only [FindCall.discards, Bool.and_eq_true, decide_eq_true_eq] at hdisc
        exact hdisc.1
      rw [haddr]
      refine (h.discard (B := fun _ => True) (C := fun _ => True) hcall.pos hsingle ht' (fun _ _ => nofun)
        (ends_of_forall (fun _ => nofun) fun _ => trivial) (ends_of_forall (fun _ => nofun) fun _ => trivial)).imp ?_
      rintro S' ⟨⟨L₂, home', hinv, _⟩, _⟩
      exact ⟨L₂, home', _, hinv⟩
    · exact ⟨_, _, _, h.keep ht'⟩

/-! ## Runs -/

omit [DecidableEq ι] [DecidableEq κ] in
theorem SystemInv.init : ∃ L home, SystemInv r (.init : TranslatorState ι κ) L home [] := by
  obtain ⟨L, _, hall⟩ := (bumpOk_init : BumpOk fragmentAllocatorConfig (.init : BumpState ι))
  refine ⟨L, fun _ => ⟨0, 0⟩, fun i => ⟨⟨nofun, nofun, nofun⟩, (hall i).1, fun j q hq => ?_⟩, fun i => (hall i).2,
    ⟨nofun, nofun, nofun, nofun, nofun⟩, .init r _ _, nofun, nofun⟩
  exact absurd ((hall i).1.mem_made hq) not_mem_nil

theorem FindRun.inv (hrun : FindRun r type (fun call s => call.Snug r s.fragment) S) :
    ∃ L home stored, SystemInv r S L home stored := by
  induction hrun with
  | init =>
    obtain ⟨L, home, h⟩ := SystemInv.init
    exact ⟨L, home, [], h⟩
  | call call _ hcall hfind ih =>
    obtain ⟨L, home, stored, h⟩ := ih
    exact (h.find_capacity hcall).of_ok hfind

end Granary.Fragments
