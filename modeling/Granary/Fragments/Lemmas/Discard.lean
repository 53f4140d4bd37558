import Granary.Fragments.Lemmas.Find

/-!
# Taking a trace back

A CPU's own allocators give back their last allocation. The locator table gives back the entry of the trace, and its
slots too if the trace did not cross into another page.
-/

namespace Granary.Fragments

open Function (update update_eq_self update_idem update_of_ne update_self)

open Memory Outcome Ranges List Nat

/-! ## The allocators of a CPU -/

section Private

variable {κ : Type} [DecidableEq κ] {cfg : AllocatorConfig} {i : κ} {s s' s₀ : BumpState κ}
  {L : SlabPlace κ → List SlabPtr} {env : BumpEnv} {fuel size align : Nat}

structure Pending (cfg : AllocatorConfig) (i : κ) (s₀ s : BumpState κ) : Prop where
  ok : ∃ L, BumpInv cfg i s L none ∧ LastOk s i
  undo : (s.allocator i).lastAllocationSize = 0 ∧ s.live = s₀.live ∨
    ∃ b : LiveAllocation, s.live = update s₀.live i (b :: s₀.live i) ∧ (s.allocator i).curr = some b.slab ∧
      (s.allocator i).lastAllocation = b.addr ∧ (s.allocator i).lastAllocationSize = b.size ∧
      (s.allocator i).lastAllocationSlab = some b.slab

theorem fits_of_le (hslab : 4096 ≤ cfg.slabSize ∧ cfg.slabSize ≤ 8192) (hpos : 0 < align)
    (hroom : align ∣ cfg.baseAlign ∧ align ≤ 4096 ∧ size ≤ 4096 ∨ size + align ≤ 4096) : Fits cfg align size := by
  have hspec : size ≤ slabSizeFor cfg size ∧ _ := slabSizeFor_spec (by omega) (by omega) (by omega)
  obtain ⟨h₁, h₂, h₃⟩ := hspec
  refine ⟨hpos, by omega, h₁, h₂, h₃, .inr fun base => room_of_align hpos h₁ ?_⟩
  rcases hroom with ⟨hdvd, _⟩ | hroom
  · exact .inl hdvd
  · exact .inr (by omega)

theorem stage_private (hcfg : cfg ∈ allocatorConfigs) (h : BumpInv cfg i s L none)
    (hfresh : s.Fresh cfg env (slabSizeFor cfg 0)) (hshare : cfg.sharesDeadSlabs = false) :
    Ends (MayStop env fuel (s.made.length + 1))
      (fun x => (∃ L', BumpInv cfg i x.2 L' none) ∧ (x.2.allocator i).lastAllocationSize = 0 ∧ x.2.live = s.live ∧
        Grew env (slabSizeFor cfg 0) s x.2)
      (allocateStaged cfg fuel env s i) := by
  obtain ⟨hslab, hmin, hmin', _⟩ := allocatorConfigs_spec hcfg
  have hfits : Fits cfg cfg.minAlign 0 := fits_of_le hslab hmin (.inr (by omega))
  refine (allocateStaged_spec h hfits hfresh).imp ?_
  rintro x ⟨p, s₁, L₁, hst, hr⟩
  have hinv := hst.inv h
  have hlast := hst.last_eq
  cases hr with
  | popped _ hs _ =>
    rw [hshare] at hs
    cases hs
  | kept hs _ =>
    rw [hs]
    refine ⟨⟨L₁, hinv⟩, hlast, ?_, ?_⟩
    · cases hst with
      | had _ hs' _ => rw [hs']; rfl
      | took _ ht => rw [ht.live]; rfl
    · cases hst with
      | had _ hs' _ =>
        subst hs'
        exact grew_of_regions ⟨rfl, fun _ => ⟨rfl, rfl⟩⟩
      | took _ ht =>
        have hg := grew_of_origin ht.origin fun q hq => ⟨(ht.data q hq).1, (ht.data q hq).2.2.2⟩
        exact ⟨hg.regions, hg.made⟩

theorem allocate_private (h : BumpInv cfg i s L none) (hfits : Fits cfg align size) (hpos : 0 < size)
    (hle : size ≤ cfg.slabSize) (hfresh : s.Fresh cfg env (slabSizeFor cfg size)) (code : Nat → UInt8) :
    Ends (MayStop env fuel s.made.length) (fun x => Pending cfg i s (emit x.2 x.1 size code) ∧
      Grew env (slabSizeFor cfg size) s (emit x.2 x.1 size code)) (allocateBare cfg fuel env s i align size) := by
  have hused : ∀ p, (s.allocator i).curr = some p → (s.slabs p).remaining < size → 0 < (s.slabs p).index := by
    intro p hc hlt
    have hp := h.curr_mem hc
    have := h.kept _ p hp
    have := (h.bounds p (h.mem_made hp)).1
    omega
  refine (allocateBare_spec h hfits hpos hfresh hused).imp ?_
  rintro x ⟨_, b, L', haddr, ha⟩
  have hb : b ∈ x.2.live i := by
    rw [ha.live, update_self]
    exact mem_cons_self
  have hinv : BumpInv cfg i (emit x.2 x.1 size code) L' none :=
    ha.inv.write hb fun a ha' => if_neg (by rw [ha.size_eq] at ha'; omega)
  refine ⟨⟨⟨L', hinv, ha.lastOk⟩, .inr ⟨b, ha.live, ha.curr_eq, ?_⟩⟩,
    (allocated_grew ha).then ⟨rfl, fun _ => ⟨rfl, rfl⟩⟩⟩
  rw [ha.size_eq]
  exact ha.last

theorem Pending.free (h : Pending cfg i s₀ s) :
    Ends (Stuck fuel s.made.length) (fun s' => BumpOk cfg s' ∧ s'.live = s₀.live)
      (freeLast cfg fuel env s i .tryFreeSlab) := by
  obtain ⟨⟨L, hinv, hlast⟩, hundo⟩ := h
  refine (freeLast_spec hinv hlast).imp fun s' hf => ?_
  obtain ⟨L', hinv', hlast', _⟩ := hf.inv hinv
  refine ⟨hinv'.bumpOk (lastOk_of_size hlast'), ?_⟩
  obtain ⟨hz, hlive⟩ | ⟨b, hlive, hcurr, hlast⟩ := hundo
  · cases hf with
    | nothing _ hs =>
      subst hs
      exact hlive
    | kept b hpos _ hsize _ _ _ => omega
    | tried b hpos _ hsize _ _ _ => omega
  · have hcons : s.live i = b :: s₀.live i := by rw [hlive, update_self]
    have hpos : 0 < b.size := (hinv.inside i b (by rw [hcons]; exact mem_cons_self)).pos
    obtain ⟨s₁, hu, ⟨hh, _⟩ | ⟨_, s₂, hr, rfl⟩⟩ := freedLast_cases hf hlast hcurr hpos
    · cases hh
    · obtain ⟨L₂, hm⟩ := hr.moved hu.inv
      change s₂.live = s₀.live
      rw [hm.live, hu.live, live_filter hinv hcons, hlive, update_idem, update_eq_self]

theorem pending_of_size (h : BumpInv cfg i s L none) (hlast : (s.allocator i).lastAllocationSize = 0)
    (hlive : s.live = s₀.live) : Pending cfg i s₀ s := ⟨⟨L, h, lastOk_of_size hlast⟩, .inl ⟨hlast, hlive⟩⟩

theorem Pending.of_live {s₁ : BumpState κ} (h : Pending cfg i s₁ s) (hlive : s₁.live = s₀.live) : Pending cfg i s₀ s := by
  refine ⟨h.ok, ?_⟩
  rw [← hlive]
  exact h.undo

theorem Pending.bumpOk (h : Pending cfg i s₀ s) : BumpOk cfg s := by
  obtain ⟨⟨L, hinv, hlast⟩, _⟩ := h
  exact hinv.bumpOk hlast

end Private

section Translation

variable {ι κ : Type} [DecidableEq ι] [DecidableEq κ] {r : ExecRegion} {type : BlockStateType} {call : FindCall ι κ}
  {S S' S₁ : TranslatorState ι κ} {fuel : Nat}

section

omit [DecidableEq ι]

theorem FindCall.Undoable.stub_pending (h : call.Undoable r type S) (hok : BumpOk stubAllocatorConfig S.stub) :
    Ends (Starved call.stubOffers fuel (S.stub.made.length + 2)) (fun x =>
      Ends (Starved call.stubOffers fuel (S.stub.made.length + 2)) (fun s => Pending stubAllocatorConfig call.cpu S.stub s ∧
        s.made.length ≤ S.stub.made.length + 2) (allocateStubs fuel call x.2))
      (allocateStaged stubAllocatorConfig fuel (call.env .stubStaged) S.stub call.cpu) := by
  obtain ⟨L, _, hall⟩ := hok
  have hsup : Supplied stubAllocatorConfig S.stub call.stubOffers := h.stubs
  refine (stage_private (by decide) (hall call.cpu).1 hsup.head rfl).mono ?_ fun e he =>
    .of_mayStop he mem_cons_self (by omega)
  rintro ⟨_, s₁⟩ ⟨⟨L₁, hinv⟩, hlast, hlive, hgrew⟩
  have hle := hgrew.made_le
  simp only at hinv hlast hlive hgrew hle ⊢
  unfold allocateStubs
  split
  · exact ⟨pending_of_size hinv hlast hlive, by omega⟩
  · rename_i hne
    have hpos : 0 < call.stubSize := Nat.pos_of_ne_zero hne
    have hsize : call.stubSize ≤ 4096 := h.stub_le
    have hmod : 1 * call.stubSize % 2 ^ 32 = call.stubSize := by
      rw [one_mul]
      exact mod_eq_of_lt (by omega)
    rw [allocateArray, allocateUntyped, hmod]
    refine ((allocate_private hinv (fits_of_le (by decide) (by decide) (.inl ⟨by decide, by decide, hsize⟩)) hpos hsize
      (hsup.tail hgrew).head call.stubCode).mono (fun _ => id) fun e he =>
        .of_mayStop he (mem_cons_of_mem _ mem_cons_self) (by omega)).bind ?_
    rintro x ⟨hp, hg⟩
    have := hg.made_le
    exact ⟨hp.of_live hlive, by omega⟩

theorem FindCall.Undoable.blockStates (h : call.Undoable r type S) {s₁ : BumpState κ} {L : SlabPlace κ → List SlabPtr}
    (hinv : BumpInv blockAllocatorConfig call.cpu s₁ L none) (hlast : (s₁.allocator call.cpu).lastAllocationSize = 0)
    {n : Nat} (hn : n ≤ call.sizes.length) (rest : List (BumpEnv × Nat))
    (hsup : Supplied blockAllocatorConfig s₁ ((List.range n).map (fun block => (call.env (.blockState block),
      slabSizeFor blockAllocatorConfig type.size)) ++ rest)) :
    Ends (Starved (call.blockOffers type) fuel (s₁.made.length + n)) (fun s => (∃ L', BumpInv blockAllocatorConfig call.cpu
        s L' none ∧ LastOk s call.cpu) ∧ (n = 0 → s = s₁) ∧ (n = 1 → Pending blockAllocatorConfig call.cpu s₁ s) ∧
        Supplied blockAllocatorConfig s rest ∧ s.made.length ≤ s₁.made.length + n)
      (allocateBlockStates type fuel call n s₁) := by
  induction n generalizing rest with
  | zero => exact ⟨⟨L, hinv, lastOk_of_size hlast⟩, fun _ => rfl, by omega, hsup, le_refl _⟩
  | succ n ih =>
    rw [range_succ, map_append, append_assoc] at hsup
    refine ((ih (by omega) _ hsup).mono (fun _ => id) fun e he => ?_).bind ?_
    · exact he.imp_right fun hs => ⟨hs.1, by have := hs.2; omega⟩
    · rintro s ⟨⟨L', hinv', hlast'⟩, hzero, _, hsup', hmade⟩
      split
      · rename_i hsize
        refine ⟨⟨L', hinv', hlast'⟩, by omega, fun h1 => ?_, ?_, by omega⟩
        · rw [hzero (by omega)]
          exact pending_of_size hinv hlast rfl
        · exact hsup'.tail (grew_of_regions ⟨rfl, fun _ => ⟨rfl, rfl⟩⟩)
      · rename_i hsize
        have hpos : 0 < type.size := Nat.pos_of_ne_zero hsize
        have hle : type.size + max type.align blockAllocatorConfig.minAlign ≤ 4096 := h.state_le hsize
        have hmin : 0 < blockAllocatorConfig.minAlign := by decide
        have hmod : type.size * 1 % 2 ^ 32 = type.size := by
          rw [mul_one]
          exact mod_eq_of_lt (by omega)
        have hmem : (call.env (.blockState n), slabSizeFor blockAllocatorConfig type.size) ∈ call.blockOffers type :=
          mem_cons_of_mem _ (mem_map.mpr ⟨n, mem_range.mpr (by omega), rfl⟩)
        have hslab : blockAllocatorConfig.slabSize = 4096 := rfl
        rw [allocateArray, allocateUntyped, hmod]
        refine ((allocate_private hinv' (fits_of_le (by decide) (by omega) (.inr hle)) hpos (by omega) hsup'.head
          (call.blockState n)).mono (fun _ => id) fun e he => .of_mayStop he hmem (by omega)).bind ?_
        rintro x ⟨hp, hg⟩
        have := hg.made_le
        refine ⟨hp.ok, by omega, fun h1 => ?_, hsup'.tail hg, by omega⟩
        have hs : s = s₁ := hzero (by omega)
        exact hp.of_live (by rw [hs])

theorem FindCall.Undoable.block_pending (h : call.Undoable r type S) (hok : BumpOk blockAllocatorConfig S.block) :
    Ends (Starved (call.blockOffers type) fuel (S.block.made.length + call.sizes.length + 1)) (fun x =>
      Ends (Starved (call.blockOffers type) fuel (S.block.made.length + call.sizes.length + 1))
        (fun s => BumpOk blockAllocatorConfig s ∧
          (call.sizes.length = 1 → Pending blockAllocatorConfig call.cpu S.block s) ∧
          s.made.length ≤ S.block.made.length + call.sizes.length + 1)
        (allocateBlockStates type fuel call call.sizes.length x.2))
      (allocateStaged blockAllocatorConfig fuel (call.env .blockStaged) S.block call.cpu) := by
  obtain ⟨L, _, hall⟩ := hok
  have hsup : Supplied blockAllocatorConfig S.block (call.blockOffers type) := h.blocks
  refine (stage_private (by decide) (hall call.cpu).1 hsup.head rfl).mono ?_ fun e he =>
    .of_mayStop he mem_cons_self (by omega)
  rintro ⟨_, s₁⟩ ⟨⟨L₁, hinv⟩, hlast, hlive, hgrew⟩
  have hle := hgrew.made_le
  simp only at hinv hlast hlive hgrew hle ⊢
  have hsup₁ := hsup.tail hgrew
  rw [← append_nil (List.map _ _)] at hsup₁
  refine (h.blockStates hinv hlast (le_refl _) [] hsup₁).mono ?_ fun e he => ?_
  · rintro s ⟨⟨L', hinv', hlast'⟩, _, hone, _, hmade⟩
    exact ⟨hinv'.bumpOk hlast', fun h1 => (hone h1).of_live hlive, by omega⟩
  · exact he.imp_right fun hs => ⟨hs.1, by have := hs.2; omega⟩

end

/-! ## The slots of a trace -/

variable {L L' L₁ : SlabLists ι} {home : Nat → SlabRange} {stored : List StoredTrace} {b : LiveAllocation}
  {s₁ fragment : BumpState ι} {table : LocatorTable} {q : SlabPtr} {k p : Nat}

/-- What holds between two calls that can be undone. Only the first page of a slab out of use may have a locator. -/
structure UndoInv (r : ExecRegion) (s : TranslatorState ι κ) (L : SlabLists ι) (home : Nat → SlabRange)
    (stored : List StoredTrace) : Prop extends SystemInv r s L home stored where
  packed : ∀ t ∈ stored, ∀ size ∈ t.sizes, size < 2 ^ 16
  ahead : ∀ q ∈ s.fragment.made, (∀ j, q ∉ L (.curr j)) → ∀ k, PageIn r (rangeOf s.fragment q) k →
    k ≠ r.findFragmentSlab (s.fragment.slabs q).memory → s.table.slots k = none
  stub : BumpOk stubAllocatorConfig s.stub
  block : BumpOk blockAllocatorConfig s.block

omit [DecidableEq ι] [DecidableEq κ] in
theorem SystemInv.slot_new (h : SystemInv r S L home stored) (hlayout : Layout r (layoutOf fragment))
    {i : ι} (hinv : FragInv r i fragment L') (hmade : ∀ q ∈ S.fragment.made, q ∈ fragment.made)
    (hrange : ∀ q ∈ S.fragment.made, rangeOf fragment q = rangeOf S.fragment q) (hq : q ∈ fragment.made)
    (hnew : q ∉ S.fragment.made) (hk : PageIn r (rangeOf fragment q) k) : S.table.slots k = none := by
  by_contra hne
  obtain ⟨p, hp⟩ := Option.ne_none_iff_exists'.mp hne
  obtain ⟨hmem, hpage⟩ := h.loc.home k p hp
  obtain ⟨q', hq', hr'⟩ := mem_map.mp hmem
  rw [← hr', ← hrange q' hq'] at hpage
  have heq := hlayout.eq_of_pageIn (mem_map_of_mem hq) (mem_map_of_mem (hmade q' hq')) hk hpage
  exact hnew (hinv.slab_inj hq (hmade q' hq') heq ▸ hq')

omit [DecidableEq κ] in
theorem TraceMemory.not_curr {s s' : BumpState ι} (hm : TraceMemory r call s L b s₁ L₁ s' L') (hq : ∀ j, q ∉ L' (.curr j))
    (j : ι) : q ∉ L (.curr j) := by
  rw [← hm.steady.curr]
  intro hj
  cases allocated_spot hm.inv hm.alloc.toAllocated hm.free with
  | inPlace _ _ hL _ _ _ _ _ => exact hq j (hL ▸ hj)
  | taken _ hc hc' _ _ _ _ => exact hq j (mem_curr_of_pushed hc hc' hj)

theorem lastPage_eq {layout : List SlabRange} {t : StoredTrace} (hlayout : Layout r layout) (ht : TraceOk layout t)
    (h : t.slab.base + t.slab.size < t.startPc + pageSize ∨ t.startPc = t.slab.base ∧ t.size ≤ pageSize) :
    t.lastPage r = r.findFragmentSlab t.startPc := by
  have hin := ht.inRegion hlayout
  have := ht.pos
  have := ht.base_le
  have := ht.le_end
  have hpage : pageSize = 4096 := rfl
  have hb : 4096 ∣ t.slab.base := hlayout.base_dvd _ ht.mem
  have hs : 4096 ∣ t.slab.size := hlayout.size_dvd _ ht.mem
  have hr : 4096 ∣ r.start := r.aligned
  have := hin.start_le
  rw [EmittedTrace.lastPage, hin.page_eq (le_refl _) (by omega), hin.page_eq (by omega) (by omega)]
  omega

section Slots

variable (h : UndoInv r S L home stored) (hm : TraceMemory r call S.fragment L b s₁ L₁ fragment L')

include h hm

omit [DecidableEq κ]

theorem UndoInv.traceOk (hpos : 0 < call.numBytes) : TraceOk (layoutOf fragment) (traceAt call fragment b) :=
  (hm.placed (h.frag call.fragmentAllocator) hpos h.lives).traceOk

theorem UndoInv.empty (hpos : 0 < call.numBytes)
    (hlo : r.findFragmentSlab (traceAt call fragment b).startPc < k) (hhi : k ≤ (traceAt call fragment b).lastPage r) :
    S.table.slots k = none := by
  have hlayout : Layout r (layoutOf fragment) := hm.alloc.frag.layout
  have hok := h.traceOk hm hpos
  have hpage : PageIn r (rangeOf fragment b.slab) k := hok.pageIn hlayout (le_of_lt hlo) hhi
  have hmade := hm.alloc.inv.mem_made (hm.alloc.inv.curr_mem hm.alloc.curr_eq)
  obtain ⟨hstart, hidle⟩ | ⟨_, hlast⟩ := hm.slab_cases
  · by_cases hold : b.slab ∈ S.fragment.made
    · have hrange := hm.rangeOf hold
      obtain ⟨hmem, _⟩ := SlabRange.mk.inj hrange
      rw [hrange] at hpage
      refine h.ahead _ hold hidle k hpage ?_
      rw [← hmem, ← hstart]
      exact ne_of_gt hlo
    · exact h.slot_new hlayout hm.alloc.frag (fun _ => hm.made) (fun _ => hm.rangeOf) hmade hold hpage
  · rw [lastPage_eq hlayout hok (.inl hlast)] at hhi
    omega

theorem UndoInv.slot_idle (hq : q ∈ fragment.made) (hidle : ∀ j, q ∉ L (.curr j)) (hk : PageIn r (rangeOf fragment q) k)
    (hne : k ≠ r.findFragmentSlab (fragment.slabs q).memory) : S.table.slots k = none := by
  have hlayout : Layout r (layoutOf fragment) := hm.alloc.frag.layout
  by_cases hold : q ∈ S.fragment.made
  · have hrange := hm.rangeOf hold
    obtain ⟨hmem, _⟩ := SlabRange.mk.inj hrange
    rw [hrange] at hk
    rw [hmem] at hne
    exact h.ahead q hold hidle k hk hne
  · exact h.slot_new hlayout hm.alloc.frag (fun _ => hm.made) (fun _ => hm.rangeOf) hq hold hk

theorem UndoInv.slab_eq (hpos : 0 < call.numBytes) (hq : q ∈ fragment.made) (hk : PageIn r (rangeOf fragment q) k)
    (hlo : r.findFragmentSlab (traceAt call fragment b).startPc ≤ k) (hhi : k ≤ (traceAt call fragment b).lastPage r) :
    q = b.slab := by
  have hlayout : Layout r (layoutOf fragment) := hm.alloc.frag.layout
  have hpage : PageIn r (rangeOf fragment b.slab) k := (h.traceOk hm hpos).pageIn hlayout hlo hhi
  have hmade := hm.alloc.inv.mem_made (hm.alloc.inv.curr_mem hm.alloc.curr_eq)
  exact hm.alloc.frag.slab_inj hq hmade
    (hlayout.eq_of_pageIn (mem_map_of_mem hq) (mem_map_of_mem hmade) hk hpage)

end Slots

/-! ## `find` -/

omit [DecidableEq κ] in
theorem UndoInv.keepTrace (h : UndoInv r S L home stored) (hcall : call.Undoable r type S)
    (ht : Translated r call S L home stored b s₁ L₁ L' p S'.fragment S'.table)
    (hstub : BumpOk stubAllocatorConfig S'.stub) (hblock : BumpOk blockAllocatorConfig S'.block) :
    UndoInv r S' L' (update home p (rangeOf S'.fragment b.slab)) (traceAt call S'.fragment b :: stored) where
  toSystemInv := h.toSystemInv.keep ht
  packed := forall_mem_cons.mpr ⟨fun size hsize => (hcall.packed size hsize).2, h.packed⟩
  ahead q hq hidle k hk hne := by
    have hm := ht.memory
    rw [ht.recorded.slots]
    split
    · next hi =>
        have hqb := h.slab_eq hm hcall.pos hq hk hi.1 hi.2
        exact absurd (hqb ▸ hm.alloc.inv.curr_mem hm.alloc.curr_eq) (hidle call.fragmentAllocator)
    · exact h.slot_idle hm hq (hm.not_curr hidle) hk hne
  stub := hstub
  block := hblock

omit [DecidableEq κ] in
theorem UndoInv.undoTrace (h : UndoInv r S L home stored) (hcall : call.Undoable r type S)
    (hpages : call.numBytes ≤ pageSize) (ht : Translated r call S L home stored b s₁ L₁ L' p fragment table)
    {L₂ : SlabLists ι} {home' : Nat → SlabRange} (hsys : SystemInv r S' L₂ home' stored)
    (hsteady : Steady S.fragment S'.fragment L L₂) (hregions : SameRegions fragment S'.fragment)
    (hslots : S'.table.slots = table.slots)
    (hlocs : S'.table.locators = update table.locators p ⟨(table.locators p).fragments.dropLast⟩)
    (hstub : BumpOk stubAllocatorConfig S'.stub ∧ S'.stub.live = S.stub.live)
    (hblock : BumpOk blockAllocatorConfig S'.block ∧ S'.block.live = S.block.live) :
    UndoInv r S' L₂ home' stored ∧ Restored S S' := by
  have hm := ht.memory
  have hlayout : Layout r (layoutOf fragment) := hm.alloc.frag.layout
  have hok := h.traceOk hm hcall.pos
  have hone : (traceAt call fragment b).lastPage r = r.findFragmentSlab b.addr := by
    refine lastPage_eq hlayout hok ?_
    obtain ⟨hstart, _⟩ | ⟨_, hlast⟩ := hm.slab_cases
    · exact .inr ⟨hstart, hpages⟩
    · exact .inl hlast
  have hslot : ∀ k, S'.table.slots k = if k = r.findFragmentSlab b.addr then some p else S.table.slots k := by
    intro k
    have hcond : (r.findFragmentSlab b.addr ≤ k ∧ k ≤ r.findFragmentSlab b.addr) ↔ k = r.findFragmentSlab b.addr := by
      omega
    rw [hslots, ht.recorded.slots, hone]
    simp only [traceAt, hcond]
  refine ⟨⟨hsys, h.packed, fun q hq hidle k hk hne => ?_, hstub.1, hblock.1⟩,
    ⟨hsteady.live, hstub.2, hblock.2, hsteady.slabs, fun i l hl => ?_, fun p' hp' => ?_, fun k => ?_⟩⟩
  · rw [hregions.1] at hq
    rw [rangeOf, (hregions.2 q).1, (hregions.2 q).2] at hk
    rw [(hregions.2 q).1] at hne
    simp only [hsteady.curr] at hidle
    rw [hslot, if_neg]
    · exact h.slot_idle hm hq hidle hk hne
    · rintro rfl
      -- the page is the first one of the slab that was taken for the trace
      have hqb := h.slab_eq hm hcall.pos hq hk (le_refl _) (le_of_eq hone.symm)
      subst hqb
      obtain ⟨hstart, _⟩ | ⟨⟨j, hj⟩, _⟩ := hm.slab_cases
      · exact hne (congrArg _ hstart)
      · exact hidle j hj
  · have hchain := (h.frag i).inv.lists.chain (.curr i)
    have hchain' := (hsys.frag i).inv.lists.chain (.curr i)
    rw [hsteady.curr, ← hl.det hchain] at hchain'
    exact hchain'
  · rw [hlocs]
    by_cases hpp : p' = p
    · subst hpp
      obtain ⟨_, _, hl⟩ | ⟨_, hnew, _⟩ := ht.recorded.locator
      · rw [hl, update_self, update_self, dropLast_concat]
      · omega
    · rw [update_of_ne hpp]
      obtain ⟨_, _, hl⟩ | ⟨_, _, _, hl⟩ := ht.recorded.locator <;> rw [hl, update_of_ne hpp]
  · rw [hslot]
    split
    · next hk =>
        subst hk
        obtain ⟨hold, _⟩ | ⟨hnone, _, _, hl⟩ := ht.recorded.locator
        · exact .inl hold.symm
        · refine .inr ⟨hnone, p, rfl, ?_⟩
          rw [hlocs, hl, update_self, update_self]
          rfl
    · exact .inl rfl

def StarvedIn (type : BlockStateType) (call : FindCall ι κ) (fuel : Nat) (s : TranslatorState ι κ) :
    TranslatorAbort → Prop
  | .fragment e => Starved call.fragmentOffers fuel (s.fragment.made.length + 4) e
  | .stub e => Starved call.stubOffers fuel (s.stub.made.length + 2) e
  | .block e => Starved (call.blockOffers type) fuel (s.block.made.length + call.sizes.length + 1) e
  | .locator _ => False

section

omit [DecidableEq ι] [DecidableEq κ]

theorem StarvedIn.starved {e : TranslatorAbort} (h : StarvedIn type call fuel S e) : e.Starved := by
  cases e with
  | locator e => exact h
  | fragment e | stub e | block e => exact h.imp (fun h => h.1) fun h => h.1

theorem StarvedIn.elim {e : TranslatorAbort} (h : StarvedIn type call fuel S e) (hp : call.Provided type fuel S) : False := by
  cases e with
  | locator e => exact h
  | fragment e =>
    refine not_starved (fun o ho => hp.offered o ?_) hp.fragment_lt h
    exact mem_append_left _ (mem_append_left _ ho)
  | stub e =>
    refine not_starved (fun o ho => hp.offered o ?_) hp.stub_lt h
    exact mem_append_left _ (mem_append_right _ ho)
  | block e => exact not_starved (fun o ho => hp.offered o (mem_append_right _ ho)) hp.block_lt h

theorem Translated.finds (h : UndoInv r S L home stored) (hcall : call.Undoable r type S) [DecidableEq ι]
    (ht : Translated r call S L home stored b s₁ L₁ L' p fragment table) {c : Nat × Nat}
    (hc : c ∈ EmittedTrace.blocks ⟨b.addr, call.sizes⟩) : Succeeds (fun _ => True) (findBasicBlockInfo r table c.1) := by
  have hpacked : ∀ t ∈ traceAt call fragment b :: stored, ∀ size ∈ t.sizes, size < 2 ^ 16 :=
    forall_mem_cons.mpr ⟨fun size hsize => (hcall.packed size hsize).2, h.packed⟩
  have hpos : 0 < c.2 := (hcall.packed c.2 (blocksFrom_mem hc).2.2).1
  rw [ht.loc.finds ht.memory.alloc.frag.layout hpacked _ mem_cons_self c hc c.1 (le_refl _) (by omega)]
  trivial

theorem findBlocks_succeeds {bs : List (Nat × Nat)}
    (h : ∀ c ∈ bs, Succeeds (fun _ => True) (findBasicBlockInfo r table c.1)) :
    Succeeds (fun _ => True) (findBlocks r table bs) := by
  induction bs with
  | nil => trivial
  | cons c bs ih =>
    exact (h c mem_cons_self).bind fun _ _ => ih fun d hd => h d (mem_cons_of_mem _ hd)

theorem FindCall.Undoable.startPc_mem (h : call.Undoable r type S) (pc : Nat) :
    ∃ c ∈ EmittedTrace.blocks ⟨pc, call.sizes⟩, c.1 = pc := by
  have hpos := h.pos
  unfold FindCall.numBytes at hpos
  cases hs : call.sizes with
  | nil =>
    rw [hs] at hpos
    cases hpos
  | cons size sizes => exact ⟨(pc, size), mem_cons_self, rfl⟩

end

theorem UndoInv.find_spec (h : UndoInv r S L home stored) (hcall : call.Undoable r type S) :
    Ends (StarvedIn type call fuel S) (fun S' => (∃ L' home' stored', UndoInv r S' L' home' stored') ∧
      (call.discards = true → Restored S S')) (find r type fuel call S) := by
  refine (translate_ends (E := StarvedIn type call fuel S)
    (T := fun x table => x.2.made.length ≤ S.fragment.made.length + 3 ∧ ∃ b s₁ L₁ L' p, x.1 = b.addr ∧
      Translated r call S L home stored b s₁ L₁ L' p x.2 table)
    (hcall.block_pending h.block) (hcall.stub_pending h.stub) (h.memory hcall.toSnug) ?_).bind ?_
  · rintro x ⟨b, s₁, L₁, L', haddr, hm, hmade⟩
    rw [haddr]
    refine (h.store hcall.pos hm).mono ?_ fun e he => ?_
    · rintro table ⟨p, ht⟩
      refine ⟨⟨hmade, b, s₁, L₁, L', p, rfl, ht⟩, ?_⟩
      exact (findBlocks_succeeds fun c hc => ht.finds h hcall hc).mono (fun _ => id) fun _ => False.elim
    · exact he.elim fun k hlo hhi => h.empty hm hcall.pos hlo hhi
  · rintro ⟨trace, S₁⟩ ⟨_, fragment, _, hfrag, ⟨hblock, hpend, hmade_b⟩, ⟨hstub, hmade_s⟩, hmade, b, s₁, L₁, L', p, haddr, ht⟩
    simp only at hfrag haddr ht hblock hpend hmade_b hstub hmade_s hmade ⊢
    have ht' : Translated r call S L home stored b s₁ L₁ L' p S₁.fragment S₁.table := by
      rw [hfrag, haddr]
      exact ht.emit
    have hmade' : S₁.fragment.made.length ≤ S.fragment.made.length + 3 := by
      rw [hfrag]
      exact hmade
    obtain ⟨c, hc, hpc⟩ := hcall.startPc_mem b.addr
    have hfound := ht'.finds h hcall hc
    rw [hpc, ← haddr] at hfound
    refine ((hfound.mono (fun _ => id) fun _ => False.elim).mapError (F := StarvedIn type call fuel S)).bind fun _ _ => ?_
    split
    · rename_i hdisc
      have hpages := hcall.discard_le hdisc
      have hsingle : call.sizes.length = 1 := by
        simp only [FindCall.discards, Bool.and_eq_true, decide_eq_true_eq] at hdisc
        exact hdisc.1
      rw [haddr]
      refine (h.discard (E := StarvedIn type call fuel S) hcall.pos hsingle ht' (fun e he => .of_stuck he (by omega))
        (hstub.free.mono (fun _ => id) fun e he => .of_stuck he hmade_s)
        ((hpend hsingle).free.mono (fun _ => id) fun e he => .of_stuck he hmade_b)).imp ?_
      rintro S' ⟨⟨L₂, home', hsys, hsteady⟩, hregions, hslots, hlocs, hstub', hblock'⟩
      obtain ⟨hinv, hres⟩ := h.undoTrace hcall hpages ht' hsys hsteady hregions hslots hlocs hstub' hblock'
      exact ⟨⟨L₂, home', _, hinv⟩, fun _ => hres⟩
    · rename_i hdisc
      exact ⟨⟨_, _, _, h.keepTrace hcall ht' hstub.bumpOk hblock⟩, fun hd => absurd hd hdisc⟩

/-! ## Runs -/

omit [DecidableEq ι] [DecidableEq κ] in
theorem UndoInv.init : ∃ L home, UndoInv r (.init : TranslatorState ι κ) L home [] := by
  obtain ⟨L, home, h⟩ := SystemInv.init
  exact ⟨L, home, h, nofun, nofun, bumpOk_init, bumpOk_init⟩

theorem FindRun.undoInv (hrun : FindRun r type (fun call s => call.Undoable r type s) S) :
    ∃ L home stored, UndoInv r S L home stored := by
  induction hrun with
  | init =>
    obtain ⟨L, home, h⟩ := UndoInv.init
    exact ⟨L, home, [], h⟩
  | call call _ hcall hfind ih =>
    obtain ⟨L, home, stored, h⟩ := ih
    exact ((h.find_spec hcall).of_ok hfind).1

end Translation

end Granary.Fragments
