import Granary.Fragments.Locator
import Granary.Lib.Outcome
import Granary.Memory.Lemmas.Exec

/-!
# What the locators record

The locator of a page lists exactly the stored traces that start in a page with the same locator. All pages of one
locator are in one slab, where the traces follow each other, so the list is ordered and binary search applies.
-/

namespace Granary.Fragments

open Function (update update_apply update_of_ne update_self)

open Bisect Memory Outcome List Nat

variable {r : ExecRegion} {layout : List SlabRange} {s s' : LocatorTable} {stored : List StoredTrace} {t u : StoredTrace}
  {g g' : SlabRange} {p q : Nat} {i a : Nat}
variable {b : Nat × Nat} {pc : Nat} {sizes : List Nat}

/-! ## Pages -/

theorem findFragmentSlab_eq (hlo : r.start ≤ a) (hhi : a < r.wrapperStart) : r.findFragmentSlab a = (a - r.start) / 4096 := by
  have hfits : r.start + 104857600 < 2 ^ 64 := r.fits
  rw [r.wrapperStart_eq] at hhi
  change (a + 2 ^ 64 - r.start) % 2 ^ 64 / 4096 % 2 ^ 32 = (a - r.start) / 4096
  omega

def PageIn (r : ExecRegion) (g : SlabRange) (i : Nat) : Prop :=
  g.base ≤ r.start + i * 4096 ∧ r.start + (i + 1) * 4096 ≤ g.base + g.size

theorem PageIn.between {i₁ i₂ : Nat} (h₁ : PageIn r g i₁) (h₂ : PageIn r g i₂) (hlo : i₁ ≤ i) (hhi : i ≤ i₂) :
    PageIn r g i := by
  have h₃ : i₁ * 4096 ≤ i * 4096 := Nat.mul_le_mul_right 4096 hlo
  have h₄ : (i + 1) * 4096 ≤ (i₂ + 1) * 4096 := Nat.mul_le_mul_right 4096 (Nat.succ_le_succ hhi)
  exact ⟨Nat.le_trans h₁.1 (Nat.add_le_add_left h₃ _), Nat.le_trans (Nat.add_le_add_left h₄ _) h₂.2⟩

namespace Layout

section

variable (h : Layout r layout) (hg : g ∈ layout)

include h hg

theorem bounds (hlo : g.base ≤ a) (hhi : a < g.base + g.size) :
    r.start ≤ a ∧ a < r.wrapperStart := by
  have := h.start_le g hg
  have := h.le_wrapper g hg
  omega

theorem pageIn (hlo : g.base ≤ a) (hhi : a < g.base + g.size) :
    PageIn r g (r.findFragmentSlab a) := by
  obtain ⟨h₁, h₂⟩ := h.bounds hg hlo hhi
  rw [findFragmentSlab_eq h₁ h₂]
  have hb : 4096 ∣ g.base := h.base_dvd g hg
  have hs : 4096 ∣ g.size := h.size_dvd g hg
  have hr : 4096 ∣ r.start := r.aligned
  unfold PageIn
  omega

theorem eq_of_pageIn (hg' : g' ∈ layout) (hi : PageIn r g i)
    (hi' : PageIn r g' i) : g = g' := by
  by_contra hne
  have := h.apart g hg g' hg' hne
  unfold PageIn at hi hi'
  unfold Ranges.Apart at this
  omega

end

end Layout

/-! ## Blocks of a trace -/

theorem blocksFrom_mem (hb : b ∈ EmittedTrace.blocksFrom pc sizes) : pc ≤ b.1 ∧ b.1 + b.2 ≤ pc + sizes.sum ∧ b.2 ∈ sizes := by
  induction sizes generalizing pc with
  | nil => cases hb
  | cons size sizes ih =>
    rw [EmittedTrace.blocksFrom] at hb
    rw [sum_cons]
    rcases mem_cons.mp hb with rfl | hb
    · exact ⟨le_refl _, by simp only; omega, mem_cons_self⟩
    · obtain ⟨h₁, h₂, h₃⟩ := ih hb
      exact ⟨by omega, by omega, mem_cons_of_mem _ h₃⟩

theorem find?_blocksFrom {x : Nat} (hb : b ∈ EmittedTrace.blocksFrom pc sizes) (hlo : b.1 ≤ x) (hhi : x < b.1 + b.2) :
    (EmittedTrace.blocksFrom pc sizes).find? (fun b => decide (b.1 ≤ x ∧ x < b.1 + b.2)) = some b := by
  induction sizes generalizing pc with
  | nil => cases hb
  | cons size sizes ih =>
    rw [EmittedTrace.blocksFrom] at hb ⊢
    rcases mem_cons.mp hb with rfl | hb
    · rw [find?_cons_of_pos (by simpa using ⟨hlo, hhi⟩)]
    · have hle := (blocksFrom_mem hb).1
      rw [find?_cons_of_neg (by simp; omega)]
      exact ih hb

namespace EmittedTrace

variable {t : EmittedTrace}

theorem blocks_length (t : EmittedTrace) : t.blocks.length = t.sizes.length := by
  unfold blocks
  generalize t.startPc = pc
  induction t.sizes generalizing pc with
  | nil => rfl
  | cons size sizes ih => rw [blocksFrom, length_cons, length_cons, ih]

theorem entry_range (hpacked : ∀ size ∈ t.sizes, size < 2 ^ 16) (hsize : t.size < 2 ^ 32) :
    t.traceInfo.entry.startPc = t.startPc ∧ t.traceInfo.entry.endPc = t.startPc + t.size := by
  have hmod : t.size % 2 ^ 32 = t.size := mod_eq_of_lt hsize
  obtain ⟨startPc, sizes⟩ := t
  match sizes with
  | [] => exact ⟨rfl, rfl⟩
  | [size] =>
    have : size < 2 ^ 16 := hpacked size (by simp)
    refine ⟨rfl, ?_⟩
    simp only [traceInfo, blocks, blocksFrom, map_cons, map_nil, TraceInfo.entry, GenericInfoPtr.endPc,
      EmittedTrace.size, sum_cons, sum_nil, mod_eq_of_lt this, add_zero]
  | _ :: _ :: _ => exact ⟨rfl, congrArg (startPc + ·) hmod⟩

theorem entry_getBlock {x : Nat} (hpacked : ∀ size ∈ t.sizes, size < 2 ^ 16) (hb : b ∈ t.blocks)
    (hlo : b.1 ≤ x) (hhi : x < b.1 + b.2) : t.traceInfo.entry.getBlock x = .ok { startPc := b.1, numBytes := b.2 } := by
  have hpack : ∀ c ∈ t.blocks, c.2 % 2 ^ 16 = c.2 := fun c hc =>
    mod_eq_of_lt (hpacked c.2 (blocksFrom_mem hc).2.2)
  have hinfo : t.traceInfo.info = t.blocks.map fun b => { startPc := b.1, numBytes := b.2 } := by
    refine map_congr_left fun c hc => ?_
    rw [hpack c hc]
  have hfind : (t.blocks.find? fun b => decide (b.1 ≤ x ∧ x < b.1 + b.2)) = some b := find?_blocksFrom hb hlo hhi
  rw [TraceInfo.entry, hinfo]
  match hbs : t.blocks with
  | [] => rw [hbs] at hb; cases hb
  | [c] =>
    rw [hbs, mem_singleton] at hb
    rw [hb]
    rfl
  | c :: d :: bs =>
    simp only [map_cons, GenericInfoPtr.getBlock, hinfo, find?_map, Function.comp_def, hfind, Option.map_some]
    rfl

end EmittedTrace

/-! ## Storing a trace -/

abbrev Succeeds {α : Type} (Q : α → Prop) (x : Except LocatorAbort α) : Prop := Ends (fun _ => False) Q x

theorem Succeeds.exists_ok {α : Type} {Q : α → Prop} {x : Except LocatorAbort α} (h : Succeeds Q x) :
    ∃ a, x = .ok a ∧ Q a := by
  cases x with
  | ok a => exact ⟨a, rfl, h⟩
  | error e => exact h.elim

theorem succeeds_check {site : LocatorAssert} {P : Prop} [Decidable P] (h : P) : Succeeds (fun _ => True) (check site P) := by
  rw [check, if_pos h]
  trivial

theorem succeeds_inBounds {slab : Nat} (h : slab < maxNumFragmentSlabs) : Succeeds (fun _ => True) (inBounds slab) := by
  rw [inBounds, if_pos h]
  trivial

theorem setSlot_slots (s : LocatorTable) (slab : Nat) (p : Nat) (i : Nat) :
    (s.setSlot slab p).slots i = if i = slab then some p else s.slots i := update_apply ..

def Occupied (s : LocatorTable) (lo hi : Nat) (e : LocatorAbort) : Prop :=
  e = .assertion .slotEmpty ∧ ∃ i, lo ≤ i ∧ i < hi ∧ s.slots i ≠ none

theorem spanSlabs_spec (p : Nat) (count next : Nat) (s : LocatorTable)
    (h : ∀ i, next ≤ i → i < next + count → i < maxNumFragmentSlabs) :
    Ends (Occupied s next (next + count)) (fun s' => (∀ i, next ≤ i → i < next + count → s.slots i = none) ∧
      s'.locators = s.locators ∧ s'.made = s.made ∧
      ∀ i, s'.slots i = if next ≤ i ∧ i < next + count then some p else s.slots i) (spanSlabs p count next s) := by
  induction count generalizing next s with
  | zero =>
    refine ⟨fun i _ _ => by omega, rfl, rfl, fun i => ?_⟩
    rw [if_neg (by omega)]
  | succ count ih =>
    refine ((succeeds_inBounds (h next (le_refl _) (by omega))).mono (fun _ => id) fun _ => False.elim).bind
      fun _ _ => ?_
    by_cases hnone : s.slots next = none
    · refine ((succeeds_check hnone).mono (fun _ => id) fun _ => False.elim).bind fun _ _ => ?_
      refine (ih (next + 1) (s.setSlot next p) fun i hlo hhi => h i (by omega) (by omega)).mono ?_ ?_
      · rintro s' ⟨he, hl, hm, hs⟩
        refine ⟨fun i hlo hhi => ?_, hl, hm, fun i => ?_⟩
        · by_cases hi : i = next
          · exact hi ▸ hnone
          · have := he i (by omega) (by omega)
            rwa [setSlot_slots, if_neg hi] at this
        · rw [hs i, setSlot_slots]
          by_cases hi : i = next
          · rw [if_neg (by omega), if_pos hi, if_pos (by omega)]
          · by_cases hlt : next ≤ i ∧ i < next + (count + 1)
            · rw [if_pos (by omega), if_pos hlt]
            · rw [if_neg (by omega), if_neg hi, if_neg hlt]
      · rintro e ⟨rfl, i, hlo, hhi, hi⟩
        rw [setSlot_slots, if_neg (by omega)] at hi
        exact ⟨rfl, i, by omega, by omega, hi⟩
    · rw [check, if_neg hnone]
      exact ⟨rfl, next, le_refl _, by omega, hnone⟩

def EmittedTrace.lastPage (r : ExecRegion) (t : EmittedTrace) : Nat := r.findFragmentSlab (t.startPc + t.size - 1)

structure Recorded (r : ExecRegion) (s : LocatorTable) (t : EmittedTrace) (p : Nat) (s' : LocatorTable) :
    Prop where
  empty : ∀ i, r.findFragmentSlab t.startPc < i → i ≤ t.lastPage r → s.slots i = none
  slots : ∀ i, s'.slots i = if r.findFragmentSlab t.startPc ≤ i ∧ i ≤ t.lastPage r then some p else s.slots i
  locator : s.slots (r.findFragmentSlab t.startPc) = some p ∧ s'.made = s.made ∧
      s'.locators = update s.locators p ⟨(s.locators p).fragments ++ [t.traceInfo.entry]⟩ ∨
    s.slots (r.findFragmentSlab t.startPc) = none ∧ p = s.made ∧ s'.made = s.made + 1 ∧
      s'.locators = update s.locators p ⟨[t.traceInfo.entry]⟩

structure InRegion (r : ExecRegion) (t : EmittedTrace) : Prop where
  start_le : r.start ≤ t.startPc
  pos : 0 < t.size
  le_wrapper : t.startPc + t.size ≤ r.wrapperStart

namespace InRegion

variable {t : EmittedTrace}

section

variable (h : InRegion r t)

include h

theorem size_lt : t.size < 2 ^ 32 := by
  have := h.start_le
  have := h.le_wrapper
  have := r.wrapperStart_eq
  omega

theorem page_eq (hlo : t.startPc ≤ a) (hhi : a < t.startPc + t.size) :
    r.findFragmentSlab a = (a - r.start) / 4096 := by
  have := h.start_le
  have := h.le_wrapper
  exact findFragmentSlab_eq (by omega) (by omega)

theorem page_between (hlo : t.startPc ≤ a) (hhi : a < t.startPc + t.size) :
    r.findFragmentSlab t.startPc ≤ r.findFragmentSlab a ∧ r.findFragmentSlab a ≤ t.lastPage r := by
  have := h.pos
  rw [EmittedTrace.lastPage, h.page_eq (Nat.le_refl _) (by omega), h.page_eq hlo hhi,
    h.page_eq (a := t.startPc + t.size - 1) (by omega) (by omega)]
  exact ⟨Nat.div_le_div_right (by omega), Nat.div_le_div_right (by omega)⟩

theorem lastPage_lt : t.lastPage r < maxNumFragmentSlabs := by
  have := h.start_le
  have := h.pos
  have := h.le_wrapper
  exact r.findFragmentSlab_lt (by omega) (by omega)

theorem endSlab_eq : endSlab r t.traceInfo = t.lastPage r := by
  have hpos := h.pos
  have hle := h.le_wrapper
  have hfits : r.start + 104857600 < 2 ^ 64 := r.fits
  rw [r.wrapperStart_eq] at hle
  have haddr : (t.startPc + t.size % 2 ^ 32 + 2 ^ 64 - 1) % 2 ^ 64 = t.startPc + t.size - 1 := by
    rw [mod_eq_of_lt h.size_lt]
    omega
  rw [endSlab, EmittedTrace.lastPage, ← haddr]
  rfl

end

end InRegion

abbrev Blocked (r : ExecRegion) (s : LocatorTable) (t : EmittedTrace) : LocatorAbort → Prop :=
  Occupied s (r.findFragmentSlab t.startPc + 1) (t.lastPage r + 1)

theorem recordTrace_spec {t : EmittedTrace} (hin : InRegion r t)
    (hp : s.slots (r.findFragmentSlab t.startPc) = some p) (hroom : (s.locators p).nextIndex < maxBbsPerSlab) :
    Ends (Blocked r s t) (fun s' => (∀ i, r.findFragmentSlab t.startPc < i → i ≤ t.lastPage r → s.slots i = none) ∧
      s'.made = s.made ∧
      s'.locators = update s.locators p ⟨(s.locators p).fragments ++ [t.traceInfo.entry]⟩ ∧
      ∀ i, s'.slots i = if r.findFragmentSlab t.startPc ≤ i ∧ i ≤ t.lastPage r then some p else s.slots i)
      (recordTrace r s p t.traceInfo) := by
  have hpos := hin.pos
  have hfirst := (hin.page_between (le_refl _) (by omega)).2
  have hlast := hin.lastPage_lt
  have hend : r.findFragmentSlab t.startPc + 1 + (t.lastPage r - r.findFragmentSlab t.startPc) = t.lastPage r + 1 := by
    omega
  have hblocks : 0 < t.traceInfo.info.length := by
    rw [EmittedTrace.traceInfo, length_map, t.blocks_length]
    exact length_pos_of_ne_nil fun h0 => by simp [EmittedTrace.size, h0] at hpos
  have hpc : t.traceInfo.startPc = t.startPc := rfl
  have hspan := spanSlabs_spec p (t.lastPage r - r.findFragmentSlab t.startPc) (r.findFragmentSlab t.startPc + 1) s
    fun i hlo hhi => by omega
  rw [hend] at hspan
  unfold recordTrace
  rw [hin.endSlab_eq, hpc]
  refine hspan.bind fun s' ⟨he, hl, hm, hs⟩ => ?_
  refine ((succeeds_check hblocks).mono (fun _ => id) fun _ => False.elim).bind fun _ _ => ?_
  refine ((succeeds_check (hl ▸ hroom)).mono (fun _ => id) fun _ => False.elim).bind fun _ _ => ?_
  refine ⟨fun i hlo hhi => he i (by omega) (by omega), hm, by rw [LocatorTable.setLocator, hl],
    fun i => (hs i).trans ?_⟩
  by_cases hi : i = r.findFragmentSlab t.startPc
  · subst hi
    rw [if_neg (by omega), if_pos ⟨le_refl _, hfirst⟩, hp]
  · by_cases hlt : r.findFragmentSlab t.startPc ≤ i ∧ i ≤ t.lastPage r
    · rw [if_pos (by omega), if_pos hlt]
    · rw [if_neg (by omega), if_neg hlt]

theorem storeTraceMetaInfo_spec {t : EmittedTrace} (hin : InRegion r t)
    (hroom : ∀ p, s.slots (r.findFragmentSlab t.startPc) = some p → (s.locators p).nextIndex < maxBbsPerSlab) :
    Ends (Blocked r s t) (fun s' => ∃ p, Recorded r s t p s') (storeTraceMetaInfo r s t.traceInfo) := by
  have hpos := hin.pos
  have hfirst := (hin.page_between (le_refl _) (by omega)).2
  have hlt := lt_of_le_of_lt hfirst hin.lastPage_lt
  refine ((succeeds_inBounds hlt).mono (fun _ => id) fun _ => False.elim).bind fun _ _ => ?_
  change Ends _ _ (recordTrace r (ensureLocator s (r.findFragmentSlab t.startPc)).2
    (ensureLocator s (r.findFragmentSlab t.startPc)).1 t.traceInfo)
  cases hold : s.slots (r.findFragmentSlab t.startPc) with
  | some p =>
    simp only [ensureLocator, hold]
    exact (recordTrace_spec hin hold (hroom p hold)).imp fun s' ⟨he, hm, hl, hs⟩ =>
      ⟨p, he, hs, .inl ⟨hold, hm, hl⟩⟩
  | none =>
    simp only [ensureLocator, hold]
    have hother : ∀ i, i ≠ r.findFragmentSlab t.startPc →
        (s.newLocator.setSlot (r.findFragmentSlab t.startPc) s.made).slots i = s.slots i := fun i hi => by
      rw [setSlot_slots, if_neg hi]
      rfl
    refine (recordTrace_spec hin ?_ ?_).mono ?_ ?_
    · rw [setSlot_slots, if_pos rfl]
    · simp [LocatorTable.setSlot, LocatorTable.newLocator, LocatorTable.setLocator, FragmentLocator.nextIndex]
      decide
    · rintro s' ⟨he, hm, hl, hs⟩
      refine ⟨s.made, fun i hlo hhi => ?_, fun i => (hs i).trans ?_, .inr ⟨hold, rfl, hm, hl.trans ?_⟩⟩
      · rw [← hother i (by omega)]
        exact he i hlo hhi
      · by_cases hi : i = r.findFragmentSlab t.startPc
        · rw [if_pos (by omega), if_pos (by omega)]
        · rw [hother i hi]
      · simp [LocatorTable.setSlot, LocatorTable.newLocator, LocatorTable.setLocator]
    · rintro e ⟨rfl, i, hlo, hhi, hi⟩
      rw [hother i (by omega)] at hi
      exact ⟨rfl, i, hlo, hhi, hi⟩

/-! ## The invariant -/

structure TraceOk (layout : List SlabRange) (t : StoredTrace) : Prop where
  mem : t.slab ∈ layout
  base_le : t.slab.base ≤ t.startPc
  le_end : t.startPc + t.size ≤ t.slab.base + t.slab.size
  pos : 0 < t.size

def recordedIn (r : ExecRegion) (s : LocatorTable) (p : Nat) (stored : List StoredTrace) : List StoredTrace :=
  stored.filter fun t => s.slots (r.findFragmentSlab t.startPc) = some p

structure LocInv (r : ExecRegion) (layout : List SlabRange) (home : Nat → SlabRange) (s : LocatorTable)
    (stored : List StoredTrace) : Prop where
  made : ∀ i p, s.slots i = some p → p < s.made
  home : ∀ i p, s.slots i = some p → home p ∈ layout ∧ PageIn r (home p) i
  traces : ∀ t ∈ stored, TraceOk layout t
  ordered : stored.Pairwise fun t u => u.slab = t.slab → u.startPc + u.size ≤ t.startPc
  covered : ∀ t ∈ stored, ∃ p, ∀ a, t.startPc ≤ a → a < t.startPc + t.size → s.slots (r.findFragmentSlab a) = some p
  entries : ∀ i p, s.slots i = some p →
    (s.locators p).fragments = ((recordedIn r s p stored).map fun t => t.traceInfo.entry).reverse

section

variable (h : TraceOk layout t) (hlayout : Layout r layout)

include h hlayout

theorem TraceOk.inRegion : InRegion r t.toEmittedTrace where
  start_le := le_trans (hlayout.start_le _ h.mem) h.base_le
  pos := h.pos
  le_wrapper := le_trans h.le_end (hlayout.le_wrapper _ h.mem)

theorem TraceOk.startPage :
    PageIn r t.slab (r.findFragmentSlab t.startPc) := by
  have := h.le_end
  have := h.pos
  exact hlayout.pageIn h.mem h.base_le (by omega)

theorem TraceOk.pageIn (hlo : r.findFragmentSlab t.startPc ≤ i)
    (hhi : i ≤ t.lastPage r) : PageIn r t.slab i := by
  have := h.base_le
  have := h.le_end
  have := h.pos
  exact (h.startPage hlayout).between (hlayout.pageIn h.mem (by omega) (by omega)) hlo hhi

end

variable {home : Nat → SlabRange}

theorem LocInv.mono {layout' : List SlabRange} (h : LocInv r layout home s stored)
    (hsub : ∀ g ∈ layout, g ∈ layout') : LocInv r layout' home s stored where
  __ := h
  home i p hp := ⟨hsub _ (h.home i p hp).1, (h.home i p hp).2⟩
  traces t ht := { h.traces t ht with mem := hsub _ (h.traces t ht).mem }

theorem LocInv.init (r : ExecRegion) (layout : List SlabRange) (home : Nat → SlabRange) : LocInv r layout home .init [] where
  made i p h := by cases h
  home i p h := by cases h
  traces t h := by cases h
  ordered := .nil
  covered t h := by cases h
  entries i p h := by cases h

namespace LocInv

theorem slot_start (h : LocInv r layout home s stored) (ht : t ∈ stored) :
    ∃ p, s.slots (r.findFragmentSlab t.startPc) = some p := by
  obtain ⟨p, hp⟩ := h.covered t ht
  have := (h.traces t ht).pos
  exact ⟨p, hp _ (le_refl _) (by omega)⟩

theorem slab_eq (h : LocInv r layout home s stored) (hlayout : Layout r layout) (ht : TraceOk layout t)
    (hp : s.slots (r.findFragmentSlab t.startPc) = some p) : t.slab = home p := by
  obtain ⟨hmem, hpage⟩ := h.home _ _ hp
  exact hlayout.eq_of_pageIn ht.mem hmem (ht.startPage hlayout) hpage

end LocInv

/-! ## Storing keeps the invariant -/

theorem Recorded.slot_first {t : EmittedTrace} (h : Recorded r s t p s') (hin : InRegion r t) (hlo : t.startPc ≤ a)
    (hhi : a < t.startPc + t.size) : s'.slots (r.findFragmentSlab a) = some p := by
  rw [h.slots, if_pos (hin.page_between hlo hhi)]

theorem Recorded.keep {t : EmittedTrace} (h : Recorded r s t p s') (hq : s.slots i = some q) : s'.slots i = some q := by
  rw [h.slots]
  split
  · next hi =>
      obtain ⟨hlo, hhi⟩ := hi
      obtain hlt | rfl := lt_or_eq_of_le hlo
      · rw [h.empty i hlt hhi] at hq
        cases hq
      · obtain ⟨hp, _⟩ | ⟨hnone, _⟩ := h.locator
        · rw [← hp, hq]
        · rw [hnone] at hq
          cases hq
  · exact hq

theorem recordedIn_cons_self (hp : s.slots (r.findFragmentSlab t.startPc) = some p) :
    recordedIn r s p (t :: stored) = t :: recordedIn r s p stored :=
  filter_cons_of_pos (by simpa using hp)

theorem recordedIn_cons_ne (hp : s.slots (r.findFragmentSlab t.startPc) ≠ some p) :
    recordedIn r s p (t :: stored) = recordedIn r s p stored :=
  filter_cons_of_neg (by simpa using hp)

theorem recordedIn_congr (h : ∀ u ∈ stored, s'.slots (r.findFragmentSlab u.startPc) = s.slots (r.findFragmentSlab u.startPc)) :
    recordedIn r s' p stored = recordedIn r s p stored :=
  filter_congr fun u hu => by rw [h u hu]

theorem LocInv.store (h : LocInv r layout home s stored) (hlayout : Layout r layout)
    (ht : TraceOk layout t) (hafter : ∀ u ∈ stored, u.slab = t.slab → u.startPc + u.size ≤ t.startPc)
    (hr : Recorded r s t.toEmittedTrace p s') : LocInv r layout (update home p t.slab) s' (t :: stored) := by
  have hin := ht.inRegion hlayout
  have hpos := ht.pos
  have hstart : s'.slots (r.findFragmentSlab t.startPc) = some p := hr.slot_first hin (le_refl _) (by omega)
  -- a slot has the new trace's locator, or what it had before
  have hcases : ∀ i q, s'.slots i = some q →
      (q = p ∧ r.findFragmentSlab t.startPc ≤ i ∧ i ≤ t.lastPage r) ∨ s.slots i = some q := by
    intro i q hq
    rw [hr.slots] at hq
    split at hq
    · next hi => exact .inl ⟨(Option.some.inj hq).symm, hi⟩
    · exact .inr hq
  have hsame : ∀ u ∈ stored,
      s'.slots (r.findFragmentSlab u.startPc) = s.slots (r.findFragmentSlab u.startPc) := by
    intro u hu
    obtain ⟨q, hq⟩ := h.slot_start hu
    rw [hr.keep hq, hq]
  have hhome : ∀ i q, s.slots i = some q → update home p t.slab q = home q := by
    intro i q hq
    by_cases hqp : q = p
    · subst hqp
      rw [update_self]
      obtain ⟨hold, _⟩ | ⟨_, hnew, _⟩ := hr.locator
      · exact h.slab_eq hlayout ht hold
      · exact absurd (h.made i q hq) (by omega)
    · rw [update_of_ne hqp]
  refine ⟨?_, ?_, ?_, ?_, ?_, ?_⟩
  · intro i q hq
    obtain ⟨hold, hm, _⟩ | ⟨_, hnew, hm, _⟩ := hr.locator
    · rw [hm]
      obtain ⟨rfl, _⟩ | hq := hcases i q hq
      · exact h.made _ _ hold
      · exact h.made i q hq
    · obtain ⟨rfl, _⟩ | hq := hcases i q hq
      · omega
      · have := h.made i q hq
        omega
  · intro i q hq
    obtain ⟨rfl, hlo, hhi⟩ | hq := hcases i q hq
    · rw [update_self]
      exact ⟨ht.mem, ht.pageIn hlayout hlo hhi⟩
    · rw [hhome i q hq]
      exact h.home i q hq
  · intro u hu
    rcases mem_cons.mp hu with rfl | hu
    · exact ht
    · exact h.traces u hu
  · exact pairwise_cons.mpr ⟨hafter, h.ordered⟩
  · intro u hu
    rcases mem_cons.mp hu with rfl | hu
    · exact ⟨p, fun a hlo hhi => hr.slot_first hin hlo hhi⟩
    · obtain ⟨q, hq⟩ := h.covered u hu
      exact ⟨q, fun a hlo hhi => hr.keep (hq a hlo hhi)⟩
  · intro i q hq
    by_cases hqp : q = p
    · subst hqp
      rw [recordedIn_cons_self hstart, recordedIn_congr hsame, map_cons, reverse_cons]
      obtain ⟨hold, _, hl⟩ | ⟨_, hnew, _, hl⟩ := hr.locator
      · rw [hl, update_self, h.entries _ _ hold]
      · have hnone : recordedIn r s q stored = [] := by
          refine filter_eq_nil_iff.mpr fun u hu huq => ?_
          have := h.made _ _ (of_decide_eq_true huq)
          omega
        rw [hl, update_self, hnone]
        rfl
    · obtain ⟨rfl, _⟩ | hq := hcases i q hq
      · exact absurd rfl hqp
      · have hne : s'.slots (r.findFragmentSlab t.startPc) ≠ some q := by
          rw [hstart]
          exact fun he => hqp (Option.some.inj he).symm
        rw [recordedIn_cons_ne hne, recordedIn_congr hsame, ← h.entries i q hq]
        obtain ⟨_, _, hl⟩ | ⟨_, _, _, hl⟩ := hr.locator <;> rw [hl, update_of_ne hqp]

/-! ## Removing the latest trace -/

theorem entry_of_single {t : EmittedTrace} (h : t.sizes.length = 1) :
    ∃ info, t.traceInfo.entry = .block info ∧ info.startPc = t.startPc := by
  obtain ⟨startPc, sizes⟩ := t
  obtain ⟨size, rfl⟩ := length_eq_one_iff.mp h
  exact ⟨_, rfl, rfl⟩

theorem LocInv.fragments_cons (h : LocInv r layout home s (t :: stored))
    (hp : s.slots (r.findFragmentSlab t.startPc) = some p) :
    (s.locators p).fragments =
      ((recordedIn r s p stored).map fun t => t.traceInfo.entry).reverse ++ [t.traceInfo.entry] := by
  rw [h.entries _ p hp, recordedIn_cons_self hp, map_cons, reverse_cons]

theorem LocInv.remove_spec (h : LocInv r layout home s (t :: stored))
    (hlayout : Layout r layout) (hsingle : t.sizes.length = 1) :
    Succeeds (fun s' => LocInv r layout home s' stored ∧ s'.slots = s.slots ∧
      ∃ p, s.slots (r.findFragmentSlab t.startPc) = some p ∧
        s'.locators = update s.locators p ⟨(s.locators p).fragments.dropLast⟩)
      (removeBasicBlockInfo r s t.startPc) := by
  have ht := h.traces t mem_cons_self
  have hin := ht.inRegion hlayout
  have hpos := ht.pos
  obtain ⟨p, hp⟩ := h.slot_start mem_cons_self
  obtain ⟨info, hentry, hstart⟩ := entry_of_single hsingle
  have hfrag := h.fragments_cons hp
  have hlt := lt_of_le_of_lt (hin.page_between (le_refl _) (by omega)).2 hin.lastPage_lt
  refine (succeeds_inBounds hlt).bind fun _ _ => ?_
  simp only [hp, hfrag, hentry, getLast?_concat, dropLast_concat]
  refine (succeeds_check (by rw [hstart])).bind fun _ _ =>
    ⟨⟨h.made, h.home, ?_, ?_, ?_, fun i q hq => ?_⟩, rfl, p, rfl, ?_⟩
  · exact fun u hu => h.traces u (mem_cons_of_mem _ hu)
  · exact (pairwise_cons.mp h.ordered).2
  · exact fun u hu => h.covered u (mem_cons_of_mem _ hu)
  · change s.slots i = some q at hq
    change (update s.locators p _ q).fragments = _
    by_cases hqp : q = p
    · subst hqp
      rw [update_self]
      rfl
    · have hne : s.slots (r.findFragmentSlab t.startPc) ≠ some q := by
        rw [hp]
        exact fun he => hqp (Option.some.inj he).symm
      rw [update_of_ne hqp, h.entries i q hq, recordedIn_cons_ne hne]
      rfl
  · rw [hfrag, dropLast_concat]
    rfl

/-! ## Finding a block -/

section

variable (h : LocInv r layout home s stored) (hlayout : Layout r layout)
  (hpacked : ∀ t ∈ stored, ∀ size ∈ t.sizes, size < 2 ^ 16)

include h hlayout hpacked

theorem LocInv.ordered_fragments (hp : s.slots i = some p) :
    Ordered GenericInfoPtr.startPc GenericInfoPtr.endPc (s.locators p).fragments := by
  have hrange : ∀ t ∈ stored, t.traceInfo.entry.startPc = t.startPc ∧ t.traceInfo.entry.endPc = t.startPc + t.size := by
    intro t ht
    exact EmittedTrace.entry_range (hpacked t ht) ((h.traces t ht).inRegion hlayout).size_lt
  rw [h.entries i p hp]
  constructor
  · intro x hx
    obtain ⟨t, ht, rfl⟩ := mem_map.mp (mem_reverse.mp hx)
    obtain ⟨h₁, h₂⟩ := hrange t (mem_of_mem_filter ht)
    omega
  · rw [pairwise_reverse, pairwise_map]
    refine (h.ordered.filter _).imp_of_mem fun {t u} ht hu hle => ?_
    obtain ⟨ht, htp⟩ := mem_filter.mp ht
    obtain ⟨hu, hup⟩ := mem_filter.mp hu
    have hslab : u.slab = t.slab := (h.slab_eq hlayout (h.traces u hu) (of_decide_eq_true hup)).trans
      (h.slab_eq hlayout (h.traces t ht) (of_decide_eq_true htp)).symm
    rw [(hrange u hu).2, (hrange t ht).1]
    exact hle hslab

theorem LocInv.finds : s.Finds r stored := by
  intro t ht b hb pc hlo hhi
  have hok := h.traces t ht
  have hin := hok.inRegion hlayout
  obtain ⟨hle, hend, _⟩ := blocksFrom_mem hb
  have hpc : t.startPc ≤ pc ∧ pc < t.startPc + t.size := ⟨by omega, lt_of_lt_of_le hhi hend⟩
  obtain ⟨p, hcov⟩ := h.covered t ht
  have hslot := hcov pc hpc.1 hpc.2
  obtain ⟨hstart, hstop⟩ := EmittedTrace.entry_range (hpacked t ht) hin.size_lt
  -- the entry of the trace is in the array that is searched
  have hmem : t.traceInfo.entry ∈ (s.locators p).fragments := by
    rw [h.entries _ p hslot, mem_reverse]
    refine mem_map_of_mem (mem_filter.mpr ⟨ht, decide_eq_true ?_⟩)
    exact hcov _ (le_refl _) (by omega)
  obtain ⟨k, hk⟩ := mem_iff_getElem?.mp hmem
  have hklt : k < (s.locators p).fragments.length := (List.getElem?_eq_some_iff.mp hk).1
  have hbisect := (h.ordered_fragments hlayout hpacked hslot).bisect_eq hk (x := pc) (by omega) (by omega) 0
    ((s.locators p).fragments.length - 1) (by omega) (by omega) (by omega) (by omega)
  have hsearch : searchBasicBlockInfo (s.locators p).fragments pc =
      .ok (some { startPc := b.1, numBytes := b.2 }) := by
    rw [searchBasicBlockInfo, if_neg (by omega), hbisect]
    simp only [EmittedTrace.entry_getBlock (hpacked t ht) hb hlo hhi]
    rfl
  have hlt : r.findFragmentSlab pc < maxNumFragmentSlabs :=
    lt_of_le_of_lt (hin.page_between hpc.1 hpc.2).2 hin.lastPage_lt
  have hfind : Succeeds (fun info => info = { startPc := b.1, numBytes := b.2 }) (findBasicBlockInfo r s pc) := by
    refine (succeeds_inBounds hlt).bind fun _ _ => ?_
    simp only [hslot, hsearch]
    exact (succeeds_check hlo).bind fun _ _ => (succeeds_check hhi).bind fun _ _ => rfl
  obtain ⟨info, hinfo, rfl⟩ := hfind.exists_ok
  exact hinfo

end

/-! ## Histories -/

theorem Placed.traceOk (h : Placed layout stored t) : TraceOk layout t := ⟨h.mem, h.base_le, h.le_end, h.pos⟩

theorem LocInv.store_spec (h : LocInv r layout home s stored) (hlayout : Layout r layout)
    (ht : Placed layout stored t)
    (hroom : ∀ p, s.slots (r.findFragmentSlab t.startPc) = some p → (s.locators p).nextIndex < maxBbsPerSlab) :
    Ends (Blocked r s t.toEmittedTrace) (fun s' => ∃ p, Recorded r s t.toEmittedTrace p s' ∧
      LocInv r layout (update home p t.slab) s' (t :: stored)) (storeTraceMetaInfo r s t.traceInfo) :=
  (storeTraceMetaInfo_spec (ht.traceOk.inRegion hlayout) hroom).imp fun _ ⟨p, hr⟩ =>
    ⟨p, hr, h.store hlayout ht.traceOk ht.after hr⟩

theorem Blocked.elim {t : EmittedTrace} {e : LocatorAbort} (h : Blocked r s t e)
    (hempty : ∀ i, r.findFragmentSlab t.startPc < i → i ≤ t.lastPage r → s.slots i = none) : False := by
  obtain ⟨_, i, hlo, hhi, hi⟩ := h
  exact hi (hempty i (by omega) (by omega))

theorem LocatorRun.inv (hlayout : Layout r layout) (hrun : LocatorRun r layout s stored) :
    (∃ home, LocInv r layout home s stored) ∧ ∀ t ∈ stored, ∀ size ∈ t.sizes, size < 2 ^ 16 := by
  induction hrun with
  | init => exact ⟨⟨fun _ => ⟨0, 0⟩, .init r layout _⟩, fun t ht => (nomatch ht)⟩
  | store t _ ht hs hok ih =>
    obtain ⟨⟨home, h⟩, hpacked⟩ := ih
    obtain ⟨p, _, h'⟩ := (h.store_spec hlayout ht hs.room).of_ok hok
    exact ⟨⟨_, h'⟩, forall_mem_cons.mpr ⟨hs.packed, hpacked⟩⟩
  | remove t _ hsingle hok ih =>
    obtain ⟨⟨home, h⟩, hpacked⟩ := ih
    exact ⟨⟨home, ((h.remove_spec hlayout hsingle).of_ok hok).1⟩, (forall_mem_cons.mp hpacked).2⟩

end Granary.Fragments
