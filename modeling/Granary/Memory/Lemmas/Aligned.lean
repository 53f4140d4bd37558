import Granary.Memory.Lemmas.Release

/-!
# Requests that every state can serve

A request is served in every state if it fits into one slab together with the padding of the worst address that a new slab
can have. A bigger request fails where the current slab is unused.
-/

namespace Granary.Memory

open Linked Outcome Ranges

attribute [local simp] BumpState.init BumpState.setAllocator forgetLast

/-! ## Padding -/

theorem room_iff {k m n room : Nat} (hn : n ≤ room) :
    (∀ base, 2 ^ m ∣ base → n + alignTo base (2 ^ k) ≤ room) ↔ 2 ^ k ≤ 2 ^ m ∨ n + (2 ^ k - 2 ^ m) ≤ room := by
  have hm : 0 < 2 ^ m := Nat.two_pow_pos m
  constructor
  · intro h
    by_cases hle : 2 ^ k ≤ 2 ^ m
    · exact .inl hle
    · have hmod : 2 ^ m % 2 ^ k = 2 ^ m := Nat.mod_eq_of_lt (by omega)
      have hbase := h (2 ^ m) (Nat.dvd_refl _)
      rw [alignTo, hmod, if_pos (by omega)] at hbase
      exact .inr hbase
  · rintro (hle | hroom) base hbase
    · have hdvd : 2 ^ k ∣ 2 ^ m := Nat.pow_dvd_pow 2 ((Nat.pow_le_pow_iff_right (by decide)).mp hle)
      rw [alignTo_of_dvd (Nat.dvd_trans hdvd hbase)]
      exact hn
    · by_cases hle : k ≤ m
      · rw [alignTo_of_dvd (Nat.dvd_trans (Nat.pow_dvd_pow 2 hle) hbase)]
        exact hn
      · -- what is left of the address is a multiple too
        have hdvd : 2 ^ m ∣ base % 2 ^ k :=
          (Nat.dvd_mod_iff (Nat.pow_dvd_pow 2 (by omega))).mpr hbase
        unfold alignTo
        split
        · have := Nat.le_of_dvd (by omega) hdvd
          omega
        · exact hn

variable {ι : Type} [DecidableEq ι] {cfg : AllocatorConfig} {i : ι} {s s' : BumpState ι} {env : BumpEnv}
  {fuel align size : Nat} {p : SlabPtr}

/-! ## Requests that fit into one slab -/

omit [DecidableEq ι] in
theorem ok_of_mayStop {α : Type} {Q : α → Prop} {x : Except BumpAbort α} {n : Nat} (h : Ends (MayStop env fuel n) Q x)
    (henv : env.fresh ≠ none) (hfuel : n < fuel) : ∃ a, x = .ok a ∧ Q a := by
  cases x with
  | ok a => exact ⟨a, rfl, h⟩
  | error e =>
    rcases h with ⟨_, hnone⟩ | ⟨_, hle⟩
    · exact absurd hnone henv
    · omega

theorem slabSizeFor_of_le (hpos : 0 < size) (hle : size ≤ cfg.slabSize) (hlt : cfg.slabSize < 2 ^ 32) :
    slabSizeFor cfg size = cfg.slabSize := by
  have hround : size + alignTo size cfg.slabSize = cfg.slabSize := by
    unfold alignTo
    rcases Nat.lt_or_eq_of_le hle with h | h
    · rw [Nat.mod_eq_of_lt h, if_pos (by omega)]
      omega
    · rw [h, Nat.mod_self, if_neg (by omega)]
      omega
  rw [slabSizeFor, hround, Nat.mod_eq_of_lt hlt, if_neg (by omega)]

theorem allocates_of_fits {L : SlabLists ι} (h : BumpInv cfg i s L none) (hfits : Fits cfg align size)
    (hpos : 0 < size) (hle : size ≤ cfg.slabSize) (henv : env.fresh ≠ none)
    (hfresh : s.Fresh cfg env (slabSizeFor cfg size)) (hfuel : s.made.length + 1 < fuel) :
    ∃ addr s' p, allocateBare cfg fuel env s i align size = .ok (addr, s') ∧ align ∣ addr ∧
      (s'.allocator i).curr = some p ∧ (s'.slabs p).memory ≤ addr ∧
      addr + size ≤ (s'.slabs p).memory + (s'.slabs p).size ∧ ∀ b ∈ s.live i, Apart addr size b.addr b.size := by
  have hused : ∀ p, (s.allocator i).curr = some p → (s.slabs p).remaining < size → 0 < (s.slabs p).index := by
    intro p hc hlt
    have hp := h.curr_mem hc
    have hkept := h.kept _ p hp
    have hsize := (h.bounds p (h.mem_made hp)).1
    omega
  obtain ⟨⟨addr, s'⟩, hok, _, b, L', haddr, ha⟩ :=
    ok_of_mayStop (allocateBare_spec h hfits hpos hfresh hused) henv (by omega : s.made.length < fuel)
  simp only at haddr ha
  subst haddr
  have hlive : s'.live i = b :: s.live i := by rw [ha.live, Function.update_self]
  have hin := ha.inv.inside i b (hlive ▸ List.mem_cons_self)
  have hkept := ha.inv.kept _ _ hin.mem
  have hend := hin.le_index
  have hdisjoint := ha.inv.disjoint i
  rw [hlive, List.pairwise_cons] at hdisjoint
  have hsize := ha.size_eq
  refine ⟨b.addr, s', b.slab, hok, ha.dvd, ha.curr_eq, hin.memory_le, by omega, fun c hc => ?_⟩
  rw [← hsize]
  exact hdisjoint.1 c hc

/-! ## An unused current slab -/

omit [DecidableEq ι] in
theorem exists_fresh (hcfg : cfg ∈ allocatorConfigs) (s : BumpState ι) (n : Nat) :
    ∃ env : BumpEnv, env.fresh ≠ none ∧ s.Fresh cfg env n := by
  obtain ⟨_, _, _, hbase, _⟩ := allocatorConfigs_spec hcfg
  have hbound : ∀ l : List SlabPtr, ∃ M : Nat, ∀ q ∈ l, @LT.lt Nat _ q M ∧ (s.slabs q).memory + (s.slabs q).size ≤ M := by
    intro l
    induction l with
    | nil => exact ⟨0, by simp⟩
    | cons q l ih =>
      obtain ⟨M, hM⟩ := ih
      refine ⟨M + q + 1 + ((s.slabs q).memory + (s.slabs q).size), fun x hx => ?_⟩
      rcases List.mem_cons.mp hx with rfl | hx
      · omega
      · have := hM x hx
        omega
  obtain ⟨M, hM⟩ := hbound s.made
  refine ⟨{ fresh := some (M, cfg.baseAlign * M), lockSearch := true, lockShare := true }, by simp, ?_⟩
  rintro p memory ⟨⟩
  refine ⟨fun hp => absurd (hM _ hp).1 (Nat.lt_irrefl _), Nat.dvd_mul_right _ _, fun q hq => .inr ?_⟩
  exact Nat.le_trans (hM q hq).2 (Nat.le_mul_of_pos_left M (Nat.pos_of_dvd_of_pos hbase (by decide)))

theorem exists_unused (hcfg : cfg ∈ allocatorConfigs) (i : ι) :
    ∃ (s : BumpState ι) (p : SlabPtr), BumpRun cfg s ∧ (s.allocator i).curr = some p ∧ (s.slabs p).index = 0 ∧
      (s.slabs p).remaining = cfg.slabSize := by
  obtain ⟨hslab, _⟩ := allocatorConfigs_spec hcfg
  obtain ⟨env, henv, hfresh⟩ := exists_fresh hcfg (.init : BumpState ι) (slabSizeFor cfg 1)
  obtain ⟨L, _, hall⟩ := @bumpOk_init ι cfg
  have hsize : slabSizeFor cfg 1 = cfg.slabSize := slabSizeFor_of_le (by decide) (by omega) (by omega)
  have hmeets : (⟨i, .allocate 1 1, env⟩ : BumpCall ι).Meets cfg .init := by
    refine ⟨hfresh, by decide, by omega, .inl (Nat.one_dvd _), fun p hp => ?_⟩
    cases hp
  have hfits : Fits cfg 1 1 := ⟨by decide, by decide, by omega, by omega, by omega,
    .inr fun base => room_of_align (by decide) (by omega) (.inl (Nat.one_dvd _))⟩
  have hfuel : (BumpState.init : BumpState ι).made.length < 8 := by simp
  obtain ⟨⟨addr, s₁⟩, hok, _, b, L₁, haddr, ha⟩ :=
    ok_of_mayStop (allocateBare_spec (hall i).1 hfits (by decide) hfresh hmeets.2.2.2.2) henv hfuel
  simp only at ha
  have hexec : (⟨i, .allocate 1 1, env⟩ : BumpCall ι).exec cfg 8 .init = .ok s₁ := congrArg (Prod.snd <$> ·) hok
  have hrun := BumpRun.call _ .init hmeets hexec
  -- the only slab is the one that was made for this
  have hspot : (s₁.slabs b.slab).size = cfg.slabSize ∧ b.addr = (s₁.slabs b.slab).memory := by
    cases ha.spot with
    | inPlace hc => cases hc
    | taken horigin _ _ _ haddr =>
      cases horigin with
      | recycled P _ hp => exact absurd ((hall i).1.mem_made hp) (by simp)
      | new _ _ _ hs => exact ⟨hs.trans hsize, by rw [haddr, alignTo_of_dvd (Nat.one_dvd _), Nat.add_zero]⟩
  have hend := ha.end_eq
  have hfreeLast : Ends (MayStop env (s₁.made.length + 1) s₁.made.length) (FreedLast cfg i .keepSlab s₁ L₁)
      (freeLast cfg (s₁.made.length + 1) env s₁ i .keepSlab) :=
    (freeLast_spec ha.inv ha.lastOk).mono (fun _ => id) fun _ he => he.mayStop (Nat.le_refl _)
  obtain ⟨s₂, hfree, hfreed⟩ := ok_of_mayStop hfreeLast henv (Nat.lt_succ_self _)
  have hrun₂ : BumpRun cfg s₂ := .call ⟨i, .freeLast .keepSlab, env⟩ hrun trivial hfree
  cases hfreed with
  | nothing hno =>
    rcases hno with hz | hne
    · rw [ha.last.2.1] at hz
      cases hz
    · exact absurd (ha.last.2.2.trans ha.curr_eq.symm) hne
  | kept b' _ _ hb' hc _ hex =>
    obtain ⟨s', hu, rfl⟩ := hex
    have hslab' : b'.slab = b.slab := Option.some.inj (hc.symm.trans ha.curr_eq)
    have hidx := hu.index_eq
    have hkept := hu.inv.kept _ _ (ha.inv.curr_mem ha.curr_eq)
    rw [hslab', hb', ha.last.2.1] at hidx
    rw [(hu.regions.2 b.slab).2] at hkept
    have hcurr : ((forgetLast s' i).allocator i).curr = some b.slab := by
      simpa [hu.allocator] using ha.curr_eq
    exact ⟨_, b.slab, hrun₂, hcurr, (by omega : (s'.slabs b.slab).index = 0),
      (by omega : (s'.slabs b.slab).remaining = cfg.slabSize)⟩
  | tried _ _ _ _ _ hh => cases hh

theorem allocateBare_unused (hc : (s.allocator i).curr = some p) (hidx : (s.slabs p).index = 0)
    (hrem : (s.slabs p).remaining < size) :
    Ends (fun _ => True) (fun _ => False) (allocateBare cfg fuel env s i align size) := by
  have hcurr : ((forgetLast s i).allocator i).curr = some p := by
    simpa using hc
  have hslab : (forgetLast s i).slabs p = s.slabs p := rfl
  have hensure : ensureSlab cfg fuel env (forgetLast s i) i size false = .error (.assertion .currentSlabUsed) := by
    simp only [ensureSlab, hcurr, hslab, if_pos hrem, hidx]
    rfl
  unfold allocateBare
  refine (ends_of_forall (Q := fun _ => True) (fun _ => trivial) fun _ => trivial).bind fun _ _ => ?_
  rw [allocateBareLoop, hensure]
  trivial

/-! ## A new slab without room for the padding -/

theorem allocateBareLoop_gotSlab (rounds round : Nat) :
    Ends (fun _ => True) (fun _ => False) (allocateBareLoop cfg fuel env i align size (rounds + 1) round true s) := by
  rw [allocateBareLoop]
  trivial

theorem allocateBare_padded (hlt : slabSizeFor cfg size < 2 ^ 32) (halign : 0 < align) (hwrap : size + align ≤ 2 ^ 32)
    (hpos : 0 < size) {base : Nat} (henv : env.fresh = some (p, base))
    (hfresh : (BumpState.init : BumpState ι).Fresh cfg env (slabSizeFor cfg size))
    (hno : slabSizeFor cfg size < size + alignTo base align) :
    Ends (fun _ => True) (fun _ => False) (allocateBare cfg fuel env (.init : BumpState ι) i align size) := by
  obtain ⟨L, _, hall⟩ := @bumpOk_init ι cfg
  have h := (hall i).1.forgetLast
  have hcurr : ((forgetLast (.init : BumpState ι) i).allocator i).curr = none := by
    simp [BumpPointerAllocator.init]
  unfold allocateBare
  by_cases hslab : cfg.slabSize ≤ slabSizeFor cfg size
  · refine ends_assert hslab ?_
    refine Ends.bind (P := fun _ => False) ?_ fun _ => False.elim
    rw [allocateBareLoop]
    refine ends_assert rfl ?_
    refine ((ensureSlab_take h hfresh hslab hlt fun p hp => by
      rw [hcurr] at hp; cases hp).mono (fun _ => id) fun _ _ => trivial).bind ?_
    rintro ⟨got, s₁⟩ ⟨rfl, q, L₁, htaken⟩
    refine ((placeInCurr_spec htaken.inv htaken.curr_eq halign hwrap).mono (fun _ => id) fun _ => False.elim).bind ?_
    rintro ⟨q', placement, s₂⟩ ⟨rfl, h₂, hreg, _, _, _, hpl⟩
    simp only at htaken h₂ hreg hpl ⊢
    cases placement with
    | staged => exact absurd hpl.1 (by omega)
    | fits =>
      obtain ⟨_, hle, _, hidx⟩ := hpl
      have hkept := h₂.kept _ _ (htaken.inv.curr_mem htaken.curr_eq)
      rw [(hreg.2 q').2] at hkept
      cases htaken.origin with
      | recycled P _ hq => exact absurd ((hall i).1.mem_made hq) (by simp)
      | new _ _ hf hs =>
        cases henv.symm.trans hf
        rw [htaken.index_eq] at hidx
        simp only [Nat.add_zero, Nat.zero_add] at hidx
        omega
    | wasted => exact allocateBareLoop_gotSlab _ _
  · rw [assert, if_neg hslab]
    trivial

/-! ## Which requests every state can serve -/

theorem allocatesAligned_of_le (hcfg : cfg ∈ allocatorConfigs) {k : Nat} (hk : k < 32) (hpos : 0 < size)
    (hle : size ≤ cfg.slabSize) (hroom : ∀ base, cfg.baseAlign ∣ base → size + alignTo base (2 ^ k) ≤ cfg.slabSize) :
    AllocatesAligned cfg i (2 ^ k) size := by
  obtain ⟨hslab, _⟩ := allocatorConfigs_spec hcfg
  have hsize : slabSizeFor cfg size = cfg.slabSize := slabSizeFor_of_le hpos hle (by omega)
  have hk' : 2 ^ k ≤ 2 ^ 31 := Nat.pow_le_pow_right (by decide) (by omega)
  have hfits : Fits cfg (2 ^ k) size :=
    ⟨Nat.two_pow_pos k, by omega, by omega, by omega, by omega, .inr (by rwa [hsize])⟩
  intro s env fuel hrun henv hfresh hfuel
  obtain ⟨L, _, hall⟩ := hrun.bumpOk hcfg
  exact allocates_of_fits (hall i).1 hfits hpos hle henv hfresh hfuel

theorem AllocatesAligned.size_le (hcfg : cfg ∈ allocatorConfigs) (h : AllocatesAligned cfg i align size) :
    size ≤ cfg.slabSize := by
  by_contra hlt
  obtain ⟨s, p, hrun, hc, hidx, hrem⟩ := exists_unused hcfg i
  obtain ⟨env, henv, hfresh⟩ := exists_fresh hcfg s (slabSizeFor cfg size)
  obtain ⟨_, _, _, hok, _⟩ := h s env _ hrun henv hfresh (Nat.lt_succ_self _)
  exact (allocateBare_unused hc hidx (by omega)).of_ok hok

theorem AllocatesAligned.room (hcfg : cfg ∈ allocatorConfigs) (hpos : 0 < size) (hle : size ≤ cfg.slabSize)
    (halign : 0 < align) (hwrap : align ≤ 2 ^ 31) (h : AllocatesAligned cfg i align size) (base : Nat)
    (hbase : cfg.baseAlign ∣ base) : size + alignTo base align ≤ cfg.slabSize := by
  obtain ⟨hslab, _⟩ := allocatorConfigs_spec hcfg
  have hsize : slabSizeFor cfg size = cfg.slabSize := slabSizeFor_of_le hpos hle (by omega)
  by_contra hno
  let env : BumpEnv := { fresh := some (0, base), lockSearch := true, lockShare := true }
  have hfresh : (BumpState.init : BumpState ι).Fresh cfg env (slabSizeFor cfg size) := by
    rintro p memory ⟨⟩
    exact ⟨by simp, hbase, by simp⟩
  obtain ⟨_, _, _, hok, _⟩ := h .init env 8 .init (by simp [env]) hfresh (by simp)
  exact (allocateBare_padded (by omega) halign (by omega) hpos rfl hfresh (by omega)).of_ok hok

end Granary.Memory
