import Granary.Memory.Lemmas.Allocate
import Mathlib.Data.List.Pairwise

/-!
# Giving memory back, and whole runs

A slab goes back to a free list only when nothing in it is live. Every operation whose condition is met keeps the
invariant, so every run does.
-/

namespace Granary.Memory

open Function (update update_comm update_of_ne update_self)

open Linked Outcome Ranges

attribute [local simp] BumpState.heads BumpState.setAllocator BumpState.setLive BumpState.setSlab

variable {ι : Type} [DecidableEq ι] {cfg : AllocatorConfig} {i : ι} {s s' : BumpState ι}
  {L : SlabLists ι} {F : Option SlabPtr} {p : SlabPtr} {env : BumpEnv} {fuel size : Nat}

/-! ## Giving slabs back -/

structure Moved (cfg : AllocatorConfig) (i : ι) (s s' : BumpState ι) (L L' : SlabLists ι) : Prop where
  inv : BumpInv cfg i s' L' none
  data : SameData s.slabs s'.slabs
  live : s'.live = s.live
  made : s'.made = s.made
  last_eq : (s'.allocator i).lastAllocationSize = (s.allocator i).lastAllocationSize
  curr_ne : ∀ j, j ≠ i → L' (.curr j) = L (.curr j)

omit [DecidableEq ι] in
theorem Moved.refl (h : BumpInv cfg i s L none) : Moved cfg i s s L L :=
  ⟨h, SameData.refl _, rfl, rfl, rfl, fun _ _ => rfl⟩

omit [DecidableEq ι] in
theorem Moved.trans {s₁ : BumpState ι} {L₁ L' : SlabLists ι} (h : Moved cfg i s s₁ L L₁)
    (h' : Moved cfg i s₁ s' L₁ L') : Moved cfg i s s' L L' where
  inv := h'.inv
  data q := by
    obtain ⟨h₁, h₂, h₃, h₄⟩ := h.data q
    obtain ⟨h₁', h₂', h₃', h₄'⟩ := h'.data q
    exact ⟨h₁'.trans h₁, h₂'.trans h₂, h₃'.trans h₃, h₄'.trans h₄⟩
  live := h'.live.trans h.live
  made := h'.made.trans h.made
  last_eq := h'.last_eq.trans h.last_eq
  curr_ne j hj := (h'.curr_ne j hj).trans (h.curr_ne j hj)

theorem BumpInv.retire (h : BumpInv cfg i s L none) {l : List SlabPtr} (hl : L (.curr i) = p :: l)
    (hidx : (s.slabs p).index = 0) (hslabs : s'.slabs = setNext s.slabs p (s.allocator i).free)
    (hheads : s'.heads = update (update s.heads (.curr i) (nextOf s.slabs p)) (.free i) (some p))
    (hbytes : s'.bytes = s.bytes) (hlive : s'.live = s.live) (hmade : s'.made = s.made)
    (hother : ∀ j, j ≠ i → s'.allocator j = s.allocator j) :
    BumpInv cfg i s' (update (update L (.curr i) l) (.free i) (p :: L (.free i))) none := by
  have hchain := h.lists.chain (.curr i)
  rw [hl] at hchain
  have hperm : (L (.curr i)).Perm (p :: l) := by rw [hl]
  have hmem : ∀ {P q}, q ∈ update L (.curr i) l P → q ∈ L P := fun hq => (mem_iff_of_perm hperm).mpr (Or.inl hq)
  have hpc : p ∈ L (.curr i) := by simp [hl]
  have h₁ := h.lists.shrink hchain.2 (fun q hq => hmem (by rwa [update_self])) fun _ _ => rfl
  have hpn := h.lists.not_mem_of_perm hperm
  have h₂ := h₁.push hpn (.free i)
  rw [update_of_ne (by simp), ← hheads] at h₂
  have hfree : s.heads (.free i) = (s.allocator i).free := rfl
  have hLfree : update L (.curr i) l (.free i) = L (.free i) := update_of_ne (by simp) _ _
  rw [hfree, ← nextOf_setNext, ← hslabs, hLfree] at h₂
  have hcons : ∀ {P q}, q ∈ update (update L (.curr i) l) (.free i) (p :: L (.free i)) P ↔
      q ∈ update L (.curr i) l P ∨ P = .free i ∧ q = p := by
    intro P q
    rw [← hLfree]
    exact mem_update_cons
  refine h.relink (hslabs ▸ sameData_setNext _) hbytes hlive hmade hother h₂ (by simp) ?_ ?_ ?_ ?_
  · intro q
    simp only [reduceCtorEq, false_or, hcons, mem_iff_of_perm hperm, exists_or, exists_eq_left]
  · intro P q hq
    rcases hcons.mp hq with hq | ⟨_, rfl⟩
    · exact h.kept P q (hmem hq)
    · exact h.kept _ q hpc
  · intro j q hq
    rcases hcons.mp hq with hq | ⟨hj, _⟩
    · exact h.clean j q (hmem hq)
    · cases hj
  · intro j b hb
    have hin := h.inside j b hb
    have hbp : b.slab ≠ p := by
      intro he
      have h₁ := hin.memory_le
      have h₂ := hin.le_index
      have h₃ := hin.pos
      rw [he] at h₁ h₂
      omega
    rcases (mem_iff_of_perm hperm).mp hin.mem with hm | ⟨_, he⟩
    · exact hcons.mpr (Or.inl hm)
    · exact absurd he hbp

theorem BumpInv.concat (h : BumpInv cfg i s L none) {P Q : SlabPlace ι} (hPQ : P ≠ Q) (hQ : ∀ j, Q ≠ .curr j)
    (hP : ∀ j, P = .curr j → s.live j = []) {b : SlabPtr} (hb : (L P).getLast? = some b)
    (hslabs : s'.slabs = setNext s.slabs b (s.heads Q))
    (hheads : s'.heads = update (update s.heads Q (s.heads P)) P none) (hbytes : s'.bytes = s.bytes)
    (hlive : s'.live = s.live) (hmade : s'.made = s.made) (hother : ∀ j, j ≠ i → s'.allocator j = s.allocator j) :
    BumpInv cfg i s' (update (update L Q (L P ++ L Q)) P []) none := by
  have h₁ := h.lists.concat hPQ hb
  rw [← hheads, ← nextOf_setNext, ← hslabs] at h₁
  refine h.relink (hslabs ▸ sameData_setNext _) hbytes hlive hmade hother h₁ (by simp) ?_ ?_ ?_ ?_
  · intro q
    simp only [reduceCtorEq, false_or, mem_update_append hPQ]
    constructor
    · rintro ⟨R, hq⟩
      by_cases hR : R = P
      · subst hR
        exact ⟨Q, hPQ.symm, Or.inr ⟨rfl, hq⟩⟩
      · exact ⟨R, hR, Or.inl hq⟩
    · rintro ⟨R, _, hq | ⟨_, hq⟩⟩
      · exact ⟨R, hq⟩
      · exact ⟨P, hq⟩
  · intro R q hq
    obtain ⟨_, hq | ⟨_, hq⟩⟩ := (mem_update_append hPQ).mp hq
    · exact h.kept R q hq
    · exact h.kept P q hq
  · intro j q hq
    obtain ⟨_, hq | ⟨hj, _⟩⟩ := (mem_update_append hPQ).mp hq
    · exact h.clean j q hq
    · exact absurd hj.symm (hQ j)
  · intro j c hc
    refine (mem_update_append hPQ).mpr ⟨fun hj => ?_, Or.inl (h.inside j c hc).mem⟩
    rw [hP j hj.symm] at hc
    cases hc

def FreeSub (i : ι) (L L' : SlabLists ι) : Prop :=
  ∀ P : SlabPlace ι, P.FreeFor i → ∀ q ∈ L' P, ∃ Q : SlabPlace ι, Q.FreeFor i ∧ q ∈ L Q

structure Popped (cfg : AllocatorConfig) (i : ι) (s s' : BumpState ι) (L : SlabLists ι) (p : SlabPtr)
    (L' : SlabLists ι) : Prop extends Moved cfg i s s' L L' where
  curr : L (.curr i) = p :: L' (.curr i)
  index_eq : (s.slabs p).index = 0
  free : ∀ P : SlabPlace ι, P.FreeFor i → ∀ q ∈ L' P, q = p ∨ ∃ Q : SlabPlace ι, Q.FreeFor i ∧ q ∈ L Q

theorem tryFreeCurr_spec {had : Bool} (h : BumpInv cfg i s L none) (hc : (s.allocator i).curr = some p)
    (hidx : had = false → (s.slabs p).index = 0) :
    Ends (fun _ => False) (fun r => match r with
      | (false, s') => s' = s ∧ (s.slabs p).index ≠ 0
      | (true, s') => ∃ L', Popped cfg i s s' L p L') (tryFreeCurr s i had) := by
  obtain ⟨l, hl⟩ := h.curr_cons hc
  unfold tryFreeCurr
  rw [hc]
  simp only
  split
  · rename_i hfree
    have hidx := hfree.elim hidx id
    refine ⟨_, ⟨h.retire hl hidx rfl ?_ rfl rfl rfl ?_, sameData_setNext _, rfl, rfl, ?_, fun j hj => ?_⟩, ?_, hidx,
      fun P hP q hq => ?_⟩
    · rw [heads_setAllocator, update_comm (by simp)]
      rfl
    · exact fun j hj => update_of_ne hj _ _
    · simp
    · rw [update_of_ne (by simp), update_of_ne (by simpa using hj)]
    · rw [update_of_ne (by simp), update_self, hl]
    · by_cases hPi : P = .free i
      · subst hPi
        rw [update_self] at hq
        rcases List.mem_cons.mp hq with rfl | hq
        · exact .inl rfl
        · exact .inr ⟨_, hP, hq⟩
      · rw [update_of_ne hPi, update_of_ne (by rintro rfl; exact hP)] at hq
        exact .inr ⟨P, hP, hq⟩
  · rename_i hfree
    exact ⟨rfl, fun hz => hfree (.inr hz)⟩

theorem tryShareFree_spec (h : BumpInv cfg i s L none) :
    Ends (Stuck fuel s.made.length) (fun s' => ∃ L', Moved cfg i s s' L L' ∧ L' (.curr i) = L (.curr i) ∧
      FreeSub i L L') (tryShareFree fuel env s i) := by
  have hsub : FreeSub i L L := fun P hP q hq => ⟨P, hP, hq⟩
  unfold tryShareFree
  cases hf : (s.allocator i).free with
  | none => exact ⟨L, .refl h, rfl, hsub⟩
  | some p =>
    simp only
    split
    · have hchain := h.lists.chain (.free i)
      rw [show s.heads (.free i) = some p from hf] at hchain
      refine ((connect_spec hchain).mono (fun _ => id) ?_).bind ?_
      · rintro e ⟨rfl, hle⟩
        exact ⟨rfl, Nat.le_trans hle (h.length_le _)⟩
      · intro b hb
        refine ⟨_, ⟨h.concat (Q := .shared) (by simp) (by simp) (by simp) hb rfl ?_ rfl rfl rfl ?_,
          sameData_setNext _, rfl, rfl, ?_, fun j hj => ?_⟩, ?_, fun P hP q hq => ?_⟩
        · funext P
          cases P with
          | curr j | free j => by_cases hj : j = i <;> simp [hj]
          | shared => simp [hf]
        · exact fun j hj => update_of_ne hj _ _
        · simp
        · rw [update_of_ne (by simp), update_of_ne (by simp)]
        · rw [update_of_ne (by simp), update_of_ne (by simp)]
        · obtain ⟨_, hq | ⟨_, hq⟩⟩ := (mem_update_append (by simp)).mp hq
          · exact ⟨P, hP, hq⟩
          · exact ⟨.free i, rfl, hq⟩
    · exact ⟨L, .refl h, rfl, hsub⟩

inductive Retired (cfg : AllocatorConfig) (i : ι) (s s' : BumpState ι) (L : SlabLists ι) (p : SlabPtr) :
    Prop where
  | kept : s' = s → (cfg.sharesDeadSlabs = true → (s.slabs p).index ≠ 0) → Retired cfg i s s' L p
  | popped (L' : SlabLists ι) : cfg.sharesDeadSlabs = true → Popped cfg i s s' L p L' →
      Retired cfg i s s' L p

theorem retireCurr_spec {had : Bool} (h : BumpInv cfg i s L none) (hc : (s.allocator i).curr = some p)
    (hidx : had = false → (s.slabs p).index = 0) :
    Ends (Stuck fuel s.made.length) (fun s' => Retired cfg i s s' L p) (retireCurr cfg fuel env s i had) := by
  unfold retireCurr
  split
  · rename_i hshare
    refine ((tryFreeCurr_spec h hc hidx).mono (fun _ => id) fun _ => False.elim).bind ?_
    rintro ⟨_ | _, s₁⟩ hr
    · exact .kept hr.1 fun _ => hr.2
    · obtain ⟨L₁, hp⟩ := hr
      refine (tryShareFree_spec hp.inv).mono ?_ ?_
      · rintro s₂ ⟨L₂, hm, hcurr, hsub⟩
        refine .popped L₂ hshare ⟨hp.toMoved.trans hm, hcurr ▸ hp.curr, hp.index_eq, fun P hP q hq => ?_⟩
        obtain ⟨Q, hQ, hq⟩ := hsub P hP q hq
        exact hp.free Q hQ q hq
      · rw [hp.made]
        exact fun _ => id
  · rename_i hshare
    exact .kept rfl fun hs => absurd hs hshare

omit [DecidableEq ι] in
theorem Retired.moved (h : BumpInv cfg i s L none) (hr : Retired cfg i s s' L p) : ∃ L', Moved cfg i s s' L L' := by
  cases hr with
  | kept he _ =>
    subst he
    exact ⟨L, .refl h⟩
  | popped L' _ hp => exact ⟨L', hp.toMoved⟩

theorem allocateStaged_spec (h : BumpInv cfg i s L none) (hfits : Fits cfg cfg.minAlign 0)
    (hfresh : s.Fresh cfg env (slabSizeFor cfg 0)) :
    Ends (MayStop env fuel (s.made.length + 1)) (fun r => ∃ p s₁ L₁, Staged cfg env i s L p s₁ L₁ ∧
      Retired cfg i s₁ r.2 L₁ p) (allocateStaged cfg fuel env s i) := by
  refine ((allocateBare_staged h hfits hfresh).mono (fun _ => id) ?_).bind ?_
  · exact fun e he => he.mono (Nat.le_succ _)
  · rintro ⟨ret, s₁⟩ ⟨p, L₁, hst⟩
    refine ((retireCurr_spec (hst.inv h) hst.curr_eq fun hhad => ?_).mono (fun _ => id) ?_).bind ?_
    · cases hst with
      | had hc _ _ => simp [hc] at hhad
      | took _ ht => exact ht.index_eq
    · exact fun e he => he.mayStop hst.made_le
    · exact fun s₂ hr => ⟨p, s₁, L₁, hst, hr⟩

/-! ## `free_last` -/

omit [DecidableEq ι] in
theorem InSlab.le_last {b c : LiveAllocation} (hc : InSlab s L i c) (hslab : c.slab = b.slab)
    (hend : b.addr + b.size = (s.slabs b.slab).memory + (s.slabs b.slab).index)
    (hapart : Apart b.addr b.size c.addr c.size) : c.addr + c.size ≤ b.addr := by
  have hle := hc.le_index
  have hpos := hc.pos
  rw [hslab] at hle
  unfold Apart at hapart
  omega

structure Unbumped (cfg : AllocatorConfig) (i : ι) (s : BumpState ι) (L : SlabLists ι)
    (b : LiveAllocation) (s' : BumpState ι) : Prop where
  inv : BumpInv cfg i s' L none
  regions : SameRegions s s'
  allocator : s'.allocator = s.allocator
  live : s'.live = update s.live i ((s.live i).filter fun c => c.addr ≠ b.addr)
  others : ∀ q, q ≠ b.slab → s'.slabs q = s.slabs q
  index_eq : (s'.slabs b.slab).index + b.size = (s.slabs b.slab).index

theorem unbump_spec {b : LiveAllocation} (h : BumpInv cfg i s L none) (hb : b ∈ s.live i)
    (haddr : b.addr = (s.allocator i).lastAllocation) (hsize : b.size = (s.allocator i).lastAllocationSize)
    (hend : b.addr + b.size = (s.slabs b.slab).memory + (s.slabs b.slab).index) :
    Ends (fun _ => False) (Unbumped cfg i s L b) (unbump cfg s i b.slab) := by
  have hin := h.inside i b hb
  have hp := hin.mem
  have hmem := hin.memory_le
  have hkept := h.kept _ _ hp
  have hbd := (h.bounds _ (h.mem_made hp)).2.1
  have hr : ((s.slabs b.slab).remaining + b.size) % 2 ^ 32 = (s.slabs b.slab).remaining + b.size :=
    Nat.mod_eq_of_lt (by omega)
  simp only [unbump, ← haddr, ← hsize]
  refine ends_assert (by omega) (ends_assert (by omega) (ends_assert hend ?_))
  rw [hr]
  refine ends_assert (by omega) (ends_assert (by omega) ?_)
  refine ⟨h.reuse hp rfl rfl rfl rfl ?_ rfl rfl ?_ ?_ ?_ ?_ ?_, sameRegions_update rfl rfl rfl rfl, rfl, rfl,
    fun q hq => update_of_ne hq _ _, ?_⟩
  · simp only
    omega
  · exact fun j hj => ⟨rfl, update_of_ne hj _ _⟩
  · intro a ha
    simp only [BumpState.setLive, BumpState.memset]
    rw [if_neg]
    · rfl
    · simp only at ha
      omega
  · intro a hlo hhi
    simp only [BumpState.setLive, BumpState.memset, BumpState.setSlab, update_self] at hlo hhi ⊢
    split
    · rfl
    · exact h.clean i _ hp a (by omega) hhi
  · intro c hc
    simp only [BumpState.setLive, update_self, List.mem_filter, decide_eq_true_eq] at hc
    have hcin := h.inside i c hc.1
    have : Std.Symm fun b c : LiveAllocation => Apart b.addr b.size c.addr c.size := ⟨fun _ _ => Or.symm⟩
    have hapart := (h.disjoint i).forall hb hc.1 fun he => hc.2 (by rw [he])
    by_cases hcb : c.slab = b.slab
    · have hle := hcin.le_last hcb hend hapart
      have hmc := hcin.memory_le
      rw [hcb] at hmc
      refine ⟨hcin.mem, hcin.pos, ?_, ?_, hcin.dvd⟩ <;>
        simp only [BumpState.setLive, BumpState.memset, BumpState.setSlab, hcb, update_self] <;> omega
    · refine ⟨hcin.mem, hcin.pos, ?_, ?_, hcin.dvd⟩ <;>
        simp only [BumpState.setLive, BumpState.memset, BumpState.setSlab, update_of_ne hcb]
      · exact hcin.memory_le
      · exact hcin.le_index
  · simp only [BumpState.setLive, update_self]
    exact (h.disjoint i).filter _
  · simp only [BumpState.setLive, BumpState.memset, BumpState.setSlab, update_self]
    omega

/-- How `free_last` ends: nothing was freed, or the allocation `b` was, and then its slab if that is unused. -/
inductive FreedLast (cfg : AllocatorConfig) (i : ι) (hint : FreeMemoryHint) (s : BumpState ι)
    (L : SlabLists ι) (s' : BumpState ι) : Prop where
  | nothing : ((s.allocator i).lastAllocationSize = 0 ∨ (s.allocator i).lastAllocationSlab ≠ (s.allocator i).curr) →
      s' = forgetLast s i → FreedLast cfg i hint s L s'
  | kept (b : LiveAllocation) : 0 < b.size → b.addr = (s.allocator i).lastAllocation →
      b.size = (s.allocator i).lastAllocationSize → (s.allocator i).curr = some b.slab → hint = .keepSlab →
      (∃ s₁, Unbumped cfg i s L b s₁ ∧ s' = forgetLast s₁ i) → FreedLast cfg i hint s L s'
  | tried (b : LiveAllocation) : 0 < b.size → b.addr = (s.allocator i).lastAllocation →
      b.size = (s.allocator i).lastAllocationSize → (s.allocator i).curr = some b.slab → hint = .tryFreeSlab →
      (∃ s₁ s₂, Unbumped cfg i s L b s₁ ∧ Retired cfg i s₁ s₂ L b.slab ∧ s' = forgetLast s₂ i) →
      FreedLast cfg i hint s L s'

theorem freeLast_spec {hint : FreeMemoryHint} (h : BumpInv cfg i s L none) (hlast : LastOk s i) :
    Ends (Stuck fuel s.made.length) (fun s' => FreedLast cfg i hint s L s') (freeLast cfg fuel env s i hint) := by
  cases hc : (s.allocator i).curr with
  | none =>
    simp only [freeLast, hc]
    refine .nothing (.inl (Classical.byContradiction fun hne => ?_)) rfl
    obtain ⟨b, _, hb, _⟩ := hlast hne
    rw [hc] at hb
    cases hb
  | some p =>
    simp only [freeLast, hc]
    split
    · rename_i hcond
      obtain ⟨b, hb, hbc, haddr, hsize, hend⟩ := hlast hcond.1
      cases hc.symm.trans hbc
      refine ((unbump_spec h hb haddr hsize hend).mono (fun _ => id) fun _ => False.elim).bind ?_
      intro s₁ hu
      have hc₁ : (s₁.allocator i).curr = some b.slab := by rw [hu.allocator]; exact hc
      cases hint with
      | tryFreeSlab =>
        rw [if_pos rfl]
        refine ((retireCurr_spec hu.inv hc₁ (by simp)).mono (fun _ => id) ?_).bind ?_
        · rw [hu.regions.1]
          exact fun _ => id
        · exact fun s₂ hr => .tried b (h.inside i b hb).pos haddr hsize hc rfl ⟨s₁, s₂, hu, hr, rfl⟩
      | keepSlab => exact .kept b (h.inside i b hb).pos haddr hsize hc rfl ⟨s₁, hu, rfl⟩
    · rename_i hcond
      refine .nothing (Classical.or_iff_not_imp_left.mpr fun hne he => hcond ⟨hne, ?_⟩) rfl
      rw [he, hc]

theorem FreedLast.inv {hint : FreeMemoryHint} (hf : FreedLast cfg i hint s L s') (h : BumpInv cfg i s L none) :
    ∃ L', BumpInv cfg i s' L' none ∧ (s'.allocator i).lastAllocationSize = 0 ∧ s'.made = s.made := by
  cases hf with
  | nothing _ hs =>
    subst hs
    exact ⟨L, h.forgetLast, forgetLast_size, rfl⟩
  | kept b _ _ _ _ _ hs =>
    obtain ⟨s₁, hu, rfl⟩ := hs
    exact ⟨L, hu.inv.forgetLast, forgetLast_size, hu.regions.1⟩
  | tried b _ _ _ _ _ hs =>
    obtain ⟨s₁, s₂, hu, hr, rfl⟩ := hs
    obtain ⟨L', hm⟩ := hr.moved hu.inv
    exact ⟨L', hm.inv.forgetLast, forgetLast_size, hm.made.trans hu.regions.1⟩

/-! ## `free_all` -/

theorem BumpInv.clearLive (h : BumpInv cfg i s L F) : BumpInv cfg i (s.setLive i []) L F where
  __ := h
  inside j b hb := by
    by_cases hj : j = i
    · subst hj
      simp at hb
    · have hin := h.inside j b (by simpa [hj] using hb)
      exact ⟨hin.mem, hin.pos, hin.memory_le, hin.le_index, hin.dvd⟩
  disjoint j := by
    by_cases hj : j = i
    · subst hj
      simp
    · simpa [hj] using h.disjoint j
  last j hj := by
    simpa [LastOk, hj] using h.last j hj

theorem freeCurrent_spec (h : BumpInv cfg i s L none) (hfirst : (s.allocator i).first = (L (.curr i)).getLast?)
    (hlive : s.live i = []) :
    Ends (fun _ => False) (fun s' => (∃ L', BumpInv cfg i s' L' none) ∧ s'.made = s.made ∧
      (s'.allocator i).lastAllocationSize = (s.allocator i).lastAllocationSize) (freeCurrent s i) := by
  have hchain := h.lists.chain (.curr i)
  cases hb : (L (.curr i)).getLast? with
  | none =>
    rw [List.getLast?_eq_none_iff] at hb
    have hnil : (s.allocator i).curr = none := by rw [hb] at hchain; exact hchain
    rw [hb] at hfirst
    simp only [freeCurrent, hfirst, List.getLast?_nil, pure_bind, hnil]
    exact ⟨⟨L, h⟩, rfl, rfl⟩
  | some b =>
    obtain ⟨l, hl⟩ := List.getLast?_eq_some_iff.mp hb
    rw [hl] at hchain
    have hnext : (s.slabs b).next = none := hchain.last_next
    obtain ⟨p, hc⟩ : ∃ p, (s.allocator i).curr = some p := by
      rw [show (s.allocator i).curr = _ from hchain.head_eq]
      cases l with
      | nil => exact ⟨b, rfl⟩
      | cons q l => exact ⟨q, rfl⟩
    simp only [freeCurrent, hfirst, hb, hnext, hc]
    refine ends_assert trivial (ends_assert (by simp) ?_)
    simp only [pure_bind, BumpState.setAllocator_self, BumpState.setAllocator_setAllocator]
    refine ⟨⟨_, h.concat (P := .curr i) (Q := .free i) (by simp) (by simp) ?_ hb rfl ?_ rfl rfl rfl ?_⟩, rfl, ?_⟩
    · rintro j ⟨⟩
      exact hlive
    · rw [heads_setAllocator, ← hc]
      rfl
    · exact fun j hj => update_of_ne hj _ _
    · simp

theorem freeAll_spec (h : BumpInv cfg i s L none) (htransient : cfg.transient = true) (hshared : cfg.shared = false)
    (hfirst : (s.allocator i).first = (L (.curr i)).getLast?) :
    Ends (Stuck fuel s.made.length) (fun s' => (∃ L', BumpInv cfg i s' L' none) ∧
      (s'.allocator i).lastAllocationSize = 0) (freeAll cfg fuel env s i) := by
  simp only [freeAll, htransient, hshared, Bool.true_eq_false, Bool.false_eq_true, or_self, ↓reduceIte]
  refine ((freeCurrent_spec h.forgetLast.clearLive ?_ ?_).mono (fun _ => id) fun _ => False.elim).bind ?_
  · simpa [forgetLast] using hfirst
  · simp
  · rintro s₁ ⟨⟨L₁, h₁⟩, hm₁, hl₁⟩
    have hl₁ := hl₁.trans (forgetLast_size)
    split
    · refine (tryShareFree_spec h₁).mono ?_ ?_
      · rintro s₂ ⟨L₂, hm₂, _⟩
        exact ⟨⟨L₂, hm₂.inv⟩, hm₂.last_eq.trans hl₁⟩
      · rw [hm₁]
        exact fun _ => id
    · exact ⟨⟨L₁, h₁⟩, hl₁⟩

/-! ## Runs -/

def BumpOk (cfg : AllocatorConfig) (s : BumpState ι) : Prop :=
  ∃ L, s.WellFormed L ∧ ∀ i, BumpInv cfg i s L none ∧ LastOk s i

omit [DecidableEq ι] in
theorem BumpInv.wellFormed (h : BumpInv cfg i s L none) : s.WellFormed L where
  __ := h
  owned p := by simpa using h.owned p
  kept p hp := by
    obtain ⟨P, hpP⟩ := ((h.owned p).mp hp).resolve_left (by simp)
    exact h.kept P p hpP
  disjoint_cpus j k hjk b hb c hc := by
    have hbin := h.inside j b hb
    have hcin := h.inside k c hc
    have hne : b.slab ≠ c.slab := by
      intro he
      cases h.lists.place (he ▸ hbin.mem) hcin.mem
      exact hjk rfl
    have h₁ := hbin.le_index
    have h₂ := hcin.le_index
    have h₃ := h.kept _ _ hbin.mem
    have h₄ := h.kept _ _ hcin.mem
    exact h.apart_of_ne hbin.mem hcin.mem hne hbin.memory_le (by omega) hcin.memory_le (by omega)

theorem BumpInv.bumpOk (h : BumpInv cfg i s L none) (hlast : LastOk s i) : BumpOk cfg s := by
  have hall : ∀ j, LastOk s j := by
    intro j
    by_cases hj : j = i
    · exact hj ▸ hlast
    · exact h.last j hj
  exact ⟨L, h.wellFormed, fun j => ⟨{ h with last := fun k _ => hall k }, hall j⟩⟩

omit [DecidableEq ι] in
theorem bumpOk_init : BumpOk cfg (.init : BumpState ι) := by
  have hheads : (BumpState.init : BumpState ι).heads = fun _ => none := by
    funext P
    cases P <;> rfl
  have hlists : Lists (nextOf (BumpState.init : BumpState ι).slabs) (BumpState.init : BumpState ι).heads
      fun _ => [] := by
    rw [hheads]
    exact ⟨fun _ => rfl, fun h => by cases h⟩
  refine ⟨fun _ => [], ⟨hlists, ?_, ?_, ?_, ?_, ?_⟩, fun i => ⟨⟨hlists, ?_, ?_, ?_, ?_, ?_, ?_, ?_, ?_, ?_⟩, ?_⟩⟩ <;>
    simp [BumpState.init, LastOk, BumpPointerAllocator.init]

omit [DecidableEq ι] in
theorem BumpInv.write (h : BumpInv cfg i s L F) {j : ι} {b : LiveAllocation} (hb : b ∈ s.live j) {bytes : Nat → UInt8}
    (hsame : ∀ a, a < b.addr ∨ b.addr + b.size ≤ a → bytes a = s.bytes a) : BumpInv cfg i { s with bytes } L F where
  __ := h
  clean k p hp a hlo hhi := by
    have hin := h.inside j b hb
    have hmem := hin.memory_le
    have hidx := hin.le_index
    have hkept := h.kept _ _ hin.mem
    refine (hsame a ?_).trans (h.clean k p hp a hlo hhi)
    by_cases hpb : p = b.slab
    · subst hpb
      exact .inr (Nat.le_trans hidx hlo)
    · have := h.apart p (h.mem_made hp) _ (h.mem_made hin.mem) hpb
      simp only at hlo hhi
      unfold Apart at this
      omega
  inside k c hc := ⟨(h.inside k c hc).mem, (h.inside k c hc).pos, (h.inside k c hc).memory_le,
    (h.inside k c hc).le_index, (h.inside k c hc).dvd⟩

theorem allocatorConfigs_spec (h : cfg ∈ allocatorConfigs) : (4096 ≤ cfg.slabSize ∧ cfg.slabSize ≤ 8192) ∧
    0 < cfg.minAlign ∧ cfg.minAlign ≤ 64 ∧ cfg.baseAlign ∣ 4096 ∧ (cfg.transient = true → cfg.shared = false) := by
  revert h cfg
  decide

theorem BumpCall.exec_spec {call : BumpCall ι} (hcfg : cfg ∈ allocatorConfigs) (h : BumpOk cfg s)
    (hmeets : call.Meets cfg s) :
    Ends (MayStop call.env fuel (s.made.length + 1)) (fun s' => BumpOk cfg s') (call.exec cfg fuel s) := by
  obtain ⟨hslab, hmin, hmin', hbase, hsh⟩ := allocatorConfigs_spec hcfg
  obtain ⟨L, _, hall⟩ := h
  obtain ⟨hinv, hlast⟩ := hall call.cpu
  obtain ⟨cpu, op, env⟩ := call
  simp only [BumpCall.exec]
  cases op with
  | allocate align size =>
    obtain ⟨hfresh, hpos, hwrap, hroom, hused⟩ := hmeets
    obtain ⟨hs₁, hs₂, hs₃⟩ := slabSizeFor_spec (by omega) (by omega) hwrap
    have hfits : Fits cfg align size := by
      refine ⟨hpos, ?_, hs₁, hs₂, hs₃, Or.inr fun base => room_of_align hpos hs₁ hroom⟩
      rcases hroom with hdvd | hroom
      · have := Nat.le_of_dvd (by omega) (Nat.dvd_trans hdvd hbase)
        omega
      · omega
    have hmod : size % 2 ^ 32 = size := Nat.mod_eq_of_lt (by omega)
    simp only [allocateUntyped, hmod]
    rcases Nat.eq_zero_or_pos size with rfl | hpos
    · refine ((allocateBare_staged hinv hfits hfresh).mono (fun _ => id) ?_).map ?_
      · exact fun e he => he.mono (Nat.le_succ _)
      · rintro r ⟨p, L', hst⟩
        exact (hst.inv hinv).bumpOk (lastOk_of_size hst.last_eq)
    · refine ((allocateBare_spec hinv hfits hpos hfresh hused).mono (fun _ => id) ?_).map ?_
      · exact fun e he => he.mono (Nat.le_succ _)
      · rintro r ⟨_, b, L', _, ha⟩
        exact ha.inv.bumpOk ha.lastOk
  | allocateStaged =>
    obtain ⟨hs₁, hs₂, hs₃⟩ : 0 ≤ slabSizeFor cfg 0 ∧ _ := slabSizeFor_spec (by omega) (by omega) (by omega)
    have hfits : Fits cfg cfg.minAlign 0 := ⟨hmin, by omega, hs₁, hs₂, hs₃, Or.inl rfl⟩
    refine (allocateStaged_spec hinv hfits hmeets).map ?_
    rintro r ⟨p, s₁, L₁, hst, hr⟩
    obtain ⟨L', hm⟩ := hr.moved (hst.inv hinv)
    exact hm.inv.bumpOk (lastOk_of_size (hm.last_eq.trans hst.last_eq))
  | freeLast hint =>
    refine (freeLast_spec hinv hlast).mono (fun s' hf => ?_) fun e he => he.mayStop (Nat.le_succ _)
    obtain ⟨L', h', hl, _⟩ := hf.inv hinv
    exact h'.bumpOk (lastOk_of_size hl)
  | freeAll =>
    obtain ⟨htransient, l, hl, hfirst⟩ := hmeets
    cases hl.det (hinv.lists.chain (.curr cpu))
    refine (freeAll_spec hinv htransient (hsh htransient) hfirst).mono ?_ fun e he => he.mayStop (Nat.le_succ _)
    rintro s' ⟨⟨L', h'⟩, hl⟩
    exact h'.bumpOk (lastOk_of_size hl)
  | write addr value =>
    obtain ⟨b, hb, hlo, hhi⟩ := hmeets
    have hwrite : ∀ i, BumpInv cfg i (s.memset addr value 1) L none := fun i =>
      (hall i).1.write hb fun a ha => if_neg (by omega)
    exact ⟨L, (hwrite cpu).wellFormed, fun i => ⟨hwrite i, (hall i).2⟩⟩

theorem BumpRun.bumpOk (hcfg : cfg ∈ allocatorConfigs) (h : BumpRun cfg s) : BumpOk cfg s := by
  induction h with
  | init => exact bumpOk_init
  | call call _ hmeets hexec ih => exact (BumpCall.exec_spec hcfg ih hmeets).of_ok hexec

end Granary.Memory
