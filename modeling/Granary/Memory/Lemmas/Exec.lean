import Granary.Memory.Exec

/-!
# The invariant of the executable region

The two pointers that move towards each other are read after they are updated. So of two calls for memory from opposite
ends, the one that reads its limit second sees the update of the other one, and `Compat` keeps what it saw.
-/

namespace Granary.Memory

open Function (update_of_ne update_self)
open Ranges

variable {n : Nat} {r : ExecRegion} {s s' : ExecState n} {t : Fin n} {b : ExecBlock} {e : ExecEvent n}
variable {s₁ s₂ s₃ : ExecState n} {p : ExecPc} {request : ExecRequest} {k : ExecutableMemoryKind}

theorem ExecRegion.execEnd_eq (r : ExecRegion) : r.execEnd = r.start + 104857600 := rfl

theorem ExecRegion.wrapperStart_eq (r : ExecRegion) : r.wrapperStart = r.start + 103809024 := by
  rw [wrapperStart, execEnd_eq, oneMB]
  omega

theorem ExecRegion.findFragmentSlab_lt (r : ExecRegion) {a : Nat} (hlo : r.start ≤ a) (hhi : a < r.wrapperStart) :
    r.findFragmentSlab a < maxNumFragmentSlabs := by
  have hfits : r.start + 104857600 < 2 ^ 64 := r.fits
  rw [wrapperStart_eq] at hhi
  change (a + 2 ^ 64 - r.start) % 2 ^ 64 / 4096 % 2 ^ 32 < 25344
  omega

/-! ## What the steps are -/

theorem ExecState.step_cases (h : s.step r e = some s') :
    (∃ t request k, e = .call t request (some k) ∧ s.pc t = .idle ∧ s' = s.update t request.size k) ∨
    (∃ t, s' = s.setPc t .faulted) ∨ (∃ t b, s.pc t = .limit b ∧ s' = s.setPc t (.check b (s.limitOf r b.kind))) ∨
    ∃ t b limit, s.pc t = .check b limit ∧ b.exceeds limit = false ∧
      s' = { s.setPc t .idle with returned := (b, limit) :: s.returned } := by
  cases e with
  | call t request kind =>
    simp only [step] at h
    split at h
    · next k hpc => exact .inl ⟨t, request, k, rfl, hpc, (Option.some.inj h).symm⟩
    · exact .inr (.inl ⟨t, (Option.some.inj h).symm⟩)
    · cases h
  | run t =>
    simp only [step] at h
    split at h
    · next b hpc => exact .inr (.inr (.inl ⟨t, b, hpc, (Option.some.inj h).symm⟩))
    · next b limit hpc =>
        split at h
        · exact .inr (.inl ⟨t, (Option.some.inj h).symm⟩)
        · next hle =>
            split at h
            · exact .inr (.inr (.inr ⟨t, b, limit, hpc, Bool.eq_false_iff.mpr hle, (Option.some.inj h).symm⟩))
            · exact .inr (.inl ⟨t, (Option.some.inj h).symm⟩)
    · cases h

structure ExecState.Grows (s s' : ExecState n) : Prop where
  codeCache : s.codeCacheEnd ≤ s'.codeCacheEnd
  genCode : s'.genCodeStart ≤ s.genCodeStart
  wrapper : s.wrapperEnd ≤ s'.wrapperEnd

theorem ExecState.Grows.refl (s : ExecState n) : s.Grows s := ⟨Nat.le_refl _, Nat.le_refl _, Nat.le_refl _⟩

theorem ExecState.grows_setPc (s : ExecState n) (t : Fin n) (p : ExecPc) : s.Grows (s.setPc t p) :=
  ⟨Nat.le_refl _, Nat.le_refl _, Nat.le_refl _⟩

theorem ExecState.Grows.trans (h : s₁.Grows s₂) (h' : s₂.Grows s₃) : s₁.Grows s₃ :=
  ⟨Nat.le_trans h.codeCache h'.codeCache, Nat.le_trans h'.genCode h.genCode, Nat.le_trans h.wrapper h'.wrapper⟩

/-! ## Blocks -/

def ExecPc.held : ExecPc → Option (ExecBlock × Option Nat)
  | .limit b => some (b, none)
  | .check b l => some (b, some l)
  | .idle | .faulted => none

/-- A block is in the part of the region that belongs to its kind, as far as the pointers have come. -/
def ExecBlock.Within (r : ExecRegion) (s : ExecState n) (b : ExecBlock) : Prop :=
  match b.kind with
  | .codeCache => r.start ≤ b.mem ∧ b.mem + b.size ≤ s.codeCacheEnd
  | .genCode => s.genCodeStart ≤ b.mem ∧ b.mem + b.size ≤ r.wrapperStart
  | .wrapper => r.wrapperStart ≤ b.mem ∧ b.mem + b.size ≤ s.wrapperEnd

def ExecBlock.LimitOk (r : ExecRegion) (b : ExecBlock) (limit : Nat) : Prop :=
  match b.kind with
  | .codeCache => limit ≤ r.wrapperStart
  | .genCode => r.start ≤ limit
  | .wrapper => limit = r.execEnd

/-- Of a block of the code cache and a block of generated code, one was taken before the limit of the other was
read. -/
def Crossed (x y : ExecBlock × Option Nat) : Prop :=
  x.1.kind = .codeCache → y.1.kind = .genCode → ∀ l ∈ x.2, ∀ l' ∈ y.2, x.1.mem + x.1.size ≤ l' ∨ l ≤ y.1.mem

structure Compat (x y : ExecBlock × Option Nat) : Prop where
  same : x.1.kind = y.1.kind → Apart x.1.mem x.1.size y.1.mem y.1.size
  crossed : Crossed x y
  crossed' : Crossed y x

theorem Compat.symm {x y : ExecBlock × Option Nat} (h : Compat x y) : Compat y x :=
  ⟨fun he => (h.same he.symm).symm, h.crossed', h.crossed⟩

theorem ExecBlock.Within.mono (h : b.Within r s) (hg : s.Grows s') : b.Within r s' := by
  have := hg.codeCache
  have := hg.genCode
  have := hg.wrapper
  unfold Within at *
  cases hk : b.kind <;> simp only [hk] at h ⊢ <;> omega

/-! ## The invariant -/

def ExecState.Other (s : ExecState n) (t : Fin n) (y : ExecBlock × Option Nat) : Prop :=
  (∃ z ∈ s.returned, y = (z.1, some z.2)) ∨ ∃ u, u ≠ t ∧ (s.pc u).held = some y

structure ExecBounds (r : ExecRegion) (s : ExecState n) : Prop where
  start_le : r.start ≤ s.codeCacheEnd
  codeCache_lt : s.codeCacheEnd < 2 ^ 64
  genCode_le : s.genCodeStart ≤ r.wrapperStart
  le_wrapper : r.wrapperStart ≤ s.wrapperEnd
  wrapper_lt : s.wrapperEnd < 2 ^ 64

structure ExecInv (r : ExecRegion) (s : ExecState n) : Prop where
  bounds : ExecBounds r s
  thread : ∀ t x, (s.pc t).held = some x → x.1.Within r s ∧ ∀ l ∈ x.2, x.1.LimitOk r l
  returned : ∀ x ∈ s.returned, x.1.Within r s ∧ x.1.LimitOk r x.2 ∧ x.1.exceeds x.2 = false
  threads : ∀ t x y, (s.pc t).held = some x → s.Other t y → Compat x y
  returns : s.returned.Pairwise fun x y => Compat (x.1, some x.2) (y.1, some y.2)

theorem ExecInv.other_within (h : ExecInv r s) {y : ExecBlock × Option Nat} (hy : s.Other t y) : y.1.Within r s := by
  rcases hy with ⟨z, hz, rfl⟩ | ⟨u, _, hu⟩
  · exact (h.returned z hz).1
  · exact (h.thread u y hu).1

theorem ExecInv.init (n : Nat) (r : ExecRegion) : ExecInv r (.init n r) where
  bounds := by
    have hfits : r.start + 104857600 < 2 ^ 64 := r.fits
    have hw := r.wrapperStart_eq
    constructor <;> simp only [ExecState.init] <;> omega
  thread t x hx := by cases hx
  returned x hx := by cases hx
  threads t x y hx := by cases hx
  returns := .nil

theorem ExecInv.move (h : ExecInv r s) (hb : ExecBounds r s') (hg : s.Grows s')
    (hpc : s'.pc = Function.update s.pc t p) (hret : s'.returned = s.returned)
    (hp : ∀ x, p.held = some x → (x.1.Within r s' ∧ ∀ l ∈ x.2, x.1.LimitOk r l) ∧ ∀ y, s.Other t y → Compat x y) :
    ExecInv r s' where
  bounds := hb
  thread u x hx := by
    rw [hpc] at hx
    by_cases hu : u = t
    · subst hu
      rw [update_self] at hx
      exact (hp x hx).1
    · rw [update_of_ne hu] at hx
      obtain ⟨hw, hl⟩ := h.thread u x hx
      exact ⟨hw.mono hg, hl⟩
  returned x hx := by
    obtain ⟨hw, hl⟩ := h.returned x (hret ▸ hx)
    exact ⟨hw.mono hg, hl⟩
  threads u x y hx hy := by
    rw [hpc] at hx
    rw [ExecState.Other, hret, hpc] at hy
    -- either of the two may be the CPU that moved
    by_cases hu : u = t
    · subst hu
      rw [update_self] at hx
      refine (hp x hx).2 y (hy.imp_right ?_)
      rintro ⟨v, hv, hvy⟩
      exact ⟨v, hv, by rwa [update_of_ne hv] at hvy⟩
    · rw [update_of_ne hu] at hx
      rcases hy with hy | ⟨v, hv, hvy⟩
      · exact h.threads u x y hx (.inl hy)
      · by_cases hvt : v = t
        · subst hvt
          rw [update_self] at hvy
          exact ((hp y hvy).2 x (.inr ⟨u, hu, hx⟩)).symm
        · rw [update_of_ne hvt] at hvy
          exact h.threads u x y hx (.inr ⟨v, hv, hvy⟩)
  returns := hret ▸ h.returns

theorem ExecInv.setPc (h : ExecInv r s)
    (hp : ∀ x, p.held = some x → (x.1.Within r s ∧ ∀ l ∈ x.2, x.1.LimitOk r l) ∧ ∀ y, s.Other t y → Compat x y) :
    ExecInv r (s.setPc t p) :=
  h.move ⟨h.bounds.1, h.bounds.2, h.bounds.3, h.bounds.4, h.bounds.5⟩ (s.grows_setPc t p) rfl rfl hp

theorem ExecInv.fault (h : ExecInv r s) : ExecInv r (s.setPc t .faulted) := h.setPc fun x hx => by cases hx

/-! ## Steps -/

def ExecState.advance (s : ExecState n) (t : Fin n) (size : Nat) : ExecutableMemoryKind → ExecState n
  | .codeCache =>
    { s.setPc t (.limit ⟨.codeCache, s.codeCacheEnd, size⟩) with codeCacheEnd := s.codeCacheEnd + size }
  | .genCode =>
    { s.setPc t (.limit ⟨.genCode, s.genCodeStart - size, size⟩) with genCodeStart := s.genCodeStart - size }
  | .wrapper =>
    { s.setPc t (.limit ⟨.wrapper, s.wrapperEnd, size⟩) with wrapperEnd := s.wrapperEnd + size }

theorem ExecBounds.genCode_lt (h : ExecBounds r s) : s.genCodeStart < 2 ^ 64 := by
  have hfits : r.start + 104857600 < 2 ^ 64 := r.fits
  have hr := r.wrapperStart_eq
  have := h.genCode_le
  omega

theorem ExecBounds.update_eq (h : ExecBounds r s)
    (hw : (ExecEvent.call t request (some k)).NoWrap s) : s.update t request.size k = s.advance t request.size k := by
  cases k with
  | codeCache | wrapper => simp only [ExecState.update, ExecState.advance, Nat.mod_eq_of_lt hw]
  | genCode =>
    have hlt := h.genCode_lt
    have hle : request.size ≤ s.genCodeStart := hw
    have hmod : (s.genCodeStart + 2 ^ 64 - request.size) % 2 ^ 64 = s.genCodeStart - request.size := by omega
    simp only [ExecState.update, ExecState.advance, hmod]

theorem ExecState.advance_grows (s : ExecState n) (t : Fin n) (size : Nat) (k : ExecutableMemoryKind) :
    s.Grows (s.advance t size k) := by
  cases k with
  | codeCache => exact ⟨Nat.le_add_right _ _, Nat.le_refl _, Nat.le_refl _⟩
  | genCode => exact ⟨Nat.le_refl _, Nat.sub_le _ _, Nat.le_refl _⟩
  | wrapper => exact ⟨Nat.le_refl _, Nat.le_refl _, Nat.le_add_right _ _⟩

theorem ExecBounds.advance (h : ExecBounds r s)
    (hw : (ExecEvent.call t request (some k)).NoWrap s) : ExecBounds r (s.advance t request.size k) := by
  have hg := s.advance_grows t request.size k
  refine ⟨Nat.le_trans h.start_le hg.codeCache, ?_, Nat.le_trans hg.genCode h.genCode_le,
    Nat.le_trans h.le_wrapper hg.wrapper, ?_⟩
  · cases k with
    | codeCache => exact hw
    | genCode => exact h.codeCache_lt
    | wrapper => exact h.codeCache_lt
  · cases k with
    | codeCache => exact h.wrapper_lt
    | genCode => exact h.wrapper_lt
    | wrapper => exact hw

theorem ExecInv.update (h : ExecInv r s)
    (hw : (ExecEvent.call t request (some k)).NoWrap s) : ExecInv r (s.update t request.size k) := by
  rw [h.bounds.update_eq hw]
  have hb := h.bounds.advance hw
  have hg := s.advance_grows t request.size k
  cases k with
  | codeCache =>
    refine h.move hb hg rfl rfl fun x hx => ?_
    obtain rfl := Option.some.inj hx
    refine ⟨⟨⟨h.bounds.start_le, Nat.le_refl _⟩, by simp⟩, fun y hy => ⟨fun hk => ?_, ?_, fun _ hk => (nomatch hk)⟩⟩
    · have hin := h.other_within hy
      unfold ExecBlock.Within at hin
      rw [← hk] at hin
      exact .inr hin.2
    · intro _ _ l hl
      cases hl
  | genCode =>
    have hle : request.size ≤ s.genCodeStart := hw
    refine h.move hb hg rfl rfl fun x hx => ?_
    obtain rfl := Option.some.inj hx
    refine ⟨⟨⟨Nat.le_refl _, ?_⟩, by simp⟩, fun y hy => ⟨fun hk => ?_, fun hk => (nomatch hk), ?_⟩⟩
    · exact Nat.le_trans (Nat.le_of_eq (Nat.sub_add_cancel hle)) h.bounds.genCode_le
    · have hin := h.other_within hy
      unfold ExecBlock.Within at hin
      rw [← hk] at hin
      exact .inl (Nat.le_trans (Nat.le_of_eq (Nat.sub_add_cancel hle)) hin.1)
    · intro _ _ l _ l' hl'
      cases hl'
  | wrapper =>
    refine h.move hb hg rfl rfl fun x hx => ?_
    obtain rfl := Option.some.inj hx
    refine ⟨⟨⟨h.bounds.le_wrapper, Nat.le_refl _⟩, by simp⟩, fun y hy => ⟨fun hk => ?_, fun hk => (nomatch hk),
      fun _ hk => (nomatch hk)⟩⟩
    have hin := h.other_within hy
    unfold ExecBlock.Within at hin
    rw [← hk] at hin
    exact .inr hin.2

theorem ExecInv.limitOk (h : ExecInv r s) (b : ExecBlock) : b.LimitOk r (s.limitOf r b.kind) := by
  unfold ExecBlock.LimitOk ExecState.limitOf
  cases b.kind with
  | codeCache => exact h.bounds.genCode_le
  | genCode => exact h.bounds.start_le
  | wrapper => rfl

theorem ExecInv.readLimit (h : ExecInv r s) (hpc : s.pc t = .limit b) :
    ExecInv r (s.setPc t (.check b (s.limitOf r b.kind))) := by
  have hheld : (s.pc t).held = some (b, none) := by rw [hpc]; rfl
  refine h.setPc fun x hx => ?_
  obtain rfl := Option.some.inj hx
  refine ⟨⟨(h.thread t _ hheld).1, ?_⟩, fun y hy => ⟨(h.threads t _ y hheld hy).same, ?_, ?_⟩⟩
  · rintro l ⟨⟩
    exact h.limitOk b
  · intro hk hk' l hl l' hl'
    have hb : b.kind = .codeCache := hk
    have hin := h.other_within hy
    simp only [ExecBlock.Within, hk'] at hin
    simp only [Option.mem_def, Option.some.injEq, hb, ExecState.limitOf] at hl
    exact .inr (hl ▸ hin.1)
  · intro hk hk' l hl l' hl'
    have hb : b.kind = .genCode := hk'
    have hin := h.other_within hy
    simp only [ExecBlock.Within, hk] at hin
    simp only [Option.mem_def, Option.some.injEq, hb, ExecState.limitOf] at hl'
    exact .inl (hl' ▸ hin.2)

theorem ExecInv.return {limit : Nat} (h : ExecInv r s) (hpc : s.pc t = .check b limit) (hle : b.exceeds limit = false) :
    ExecInv r { s.setPc t .idle with returned := (b, limit) :: s.returned } := by
  have hheld : (s.pc t).held = some (b, some limit) := by rw [hpc]; rfl
  have hidle : ExecInv r (s.setPc t .idle) := h.setPc fun x hx => by cases hx
  obtain ⟨hw, hl⟩ := h.thread t _ hheld
  refine ⟨⟨h.bounds.1, h.bounds.2, h.bounds.3, h.bounds.4, h.bounds.5⟩, hidle.thread, ?_, ?_, ?_⟩
  · intro x hx
    rcases List.mem_cons.mp hx with rfl | hx
    · exact ⟨hw, hl limit rfl, hle⟩
    · exact hidle.returned x hx
  · rintro u x y hx (⟨z, hz, rfl⟩ | hy)
    · rcases List.mem_cons.mp hz with rfl | hz
      · have hut : u ≠ t := by
          rintro rfl
          simp [ExecState.setPc, ExecPc.held] at hx
        replace hx : (Function.update s.pc t .idle u).held = some x := hx
        rw [update_of_ne hut] at hx
        exact (h.threads t _ x hheld (.inr ⟨u, hut, hx⟩)).symm
      · exact hidle.threads u x _ hx (.inl ⟨z, hz, rfl⟩)
    · exact hidle.threads u x y hx (.inr hy)
  · exact List.pairwise_cons.mpr ⟨fun z hz => h.threads t _ _ hheld (.inl ⟨z, hz, rfl⟩), h.returns⟩

theorem ExecInv.step (h : ExecInv r s) (hw : e.NoWrap s) (hs : s.step r e = some s') : ExecInv r s' := by
  obtain ⟨t, request, k, rfl, _, rfl⟩ | ⟨t, rfl⟩ | ⟨t, b, hpc, rfl⟩ | ⟨t, b, limit, hpc, hle, rfl⟩ :=
    ExecState.step_cases hs
  · exact h.update hw
  · exact h.fault
  · exact h.readLimit hpc
  · exact h.return hpc hle

theorem ExecBounds.step_grows (h : ExecBounds r s) (hw : e.NoWrap s) (hs : s.step r e = some s') : s.Grows s' := by
  obtain ⟨t, request, k, rfl, _, rfl⟩ | ⟨t, rfl⟩ | ⟨t, b, _, rfl⟩ | ⟨t, b, limit, _, _, rfl⟩ :=
    ExecState.step_cases hs
  · rw [h.update_eq hw]
    exact s.advance_grows t request.size k
  · exact s.grows_setPc t _
  · exact s.grows_setPc t _
  · exact ⟨Nat.le_refl _, Nat.le_refl _, Nat.le_refl _⟩

theorem ExecRun.trans (h : ExecRun r s₁ s₂) (h' : ExecRun r s₂ s₃) : ExecRun r s₁ s₃ := by
  induction h' with
  | refl => exact h
  | step e _ hw hs ih => exact .step e ih hw hs

theorem ExecRun.inv (hrun : ExecRun r s s') (h : ExecInv r s) : ExecInv r s' := by
  induction hrun with
  | refl => exact h
  | step e _ hw hs ih => exact ih.step hw hs

theorem ExecRun.grows (hrun : ExecRun r s s') (h : ExecInv r s) : s.Grows s' := by
  induction hrun with
  | refl => exact .refl s
  | step e hrun hw hs ih => exact ih.trans ((hrun.inv h).bounds.step_grows hw hs)

/-! ## What was returned -/

def ExecBlock.Passed (r : ExecRegion) (b : ExecBlock) (limit : Nat) : Prop :=
  match b.kind with
  | .codeCache => r.start ≤ b.mem ∧ b.mem + b.size ≤ limit ∧ limit ≤ r.wrapperStart
  | .genCode => r.start ≤ limit ∧ limit ≤ b.mem ∧ b.mem + b.size ≤ r.wrapperStart
  | .wrapper => r.wrapperStart ≤ b.mem ∧ b.mem + b.size ≤ r.execEnd

theorem ExecInv.passed (h : ExecInv r s) {x : ExecBlock × Nat} (hx : x ∈ s.returned) : x.1.Passed r x.2 := by
  obtain ⟨hw, hl, he⟩ := h.returned x hx
  have hC := h.bounds.codeCache_lt
  have hW := h.bounds.wrapper_lt
  unfold ExecBlock.Within at hw
  unfold ExecBlock.LimitOk at hl
  unfold ExecBlock.exceeds at he
  unfold ExecBlock.Passed
  cases hk : x.1.kind <;> simp only [hk, decide_eq_false_iff_not, Nat.not_lt, gt_iff_lt] at hw hl he ⊢
  · rw [Nat.mod_eq_of_lt (Nat.lt_of_le_of_lt hw.2 hC)] at he
    exact ⟨hw.1, he, hl⟩
  · exact ⟨hl, he, hw.2⟩
  · rw [Nat.mod_eq_of_lt (Nat.lt_of_le_of_lt hw.2 hW)] at he
    exact ⟨hw.1, hl ▸ he⟩

/-- Blocks from opposite ends are apart because one of the two checks saw the other block. -/
theorem Compat.apart {x y : ExecBlock × Nat} (h : Compat (x.1, some x.2) (y.1, some y.2)) (hx : x.1.Passed r x.2)
    (hy : y.1.Passed r y.2) : Apart x.1.mem x.1.size y.1.mem y.1.size := by
  unfold ExecBlock.Passed at hx hy
  cases hkx : x.1.kind <;> cases hky : y.1.kind <;> simp only [hkx, hky] at hx hy
  case codeCache.codeCache | genCode.genCode | wrapper.wrapper => exact h.same (hkx.trans hky.symm)
  case codeCache.genCode =>
    have := h.crossed hkx hky x.2 rfl y.2 rfl
    simp only at this
    left
    omega
  case genCode.codeCache =>
    have := h.crossed' hky hkx y.2 rfl x.2 rfl
    simp only at this
    right
    omega
  all_goals
    unfold Apart
    omega

theorem ExecInv.safe (h : ExecInv r s) : s.Safe r where
  disjoint := h.returns.imp_of_mem fun hx hy hc => hc.apart (h.passed hx) (h.passed hy)
  inside x hx := by
    have hp := h.passed hx
    have := r.wrapperStart_eq
    have := r.execEnd_eq
    unfold ExecBlock.Passed at hp
    cases hk : x.1.kind <;> simp only [hk] at hp <;> omega
  slab x hx hk a hlo hhi := by
    have hp := h.passed hx
    simp only [ExecBlock.Passed, hk] at hp
    exact r.findFragmentSlab_lt (by omega) (by omega)

/-! ## Runs without a fault -/

/-- A call that has faulted or is going to. -/
def ExecPc.Doomed (r : ExecRegion) (s : ExecState n) : ExecPc → Prop
  | .idle => False
  | .limit b => b.exceeds (s.limitOf r b.kind) = true
  | .check b l => b.exceeds l = true
  | .faulted => True

theorem ExecPc.Doomed.mono (h : p.Doomed r s) (hg : s.Grows s') : p.Doomed r s' := by
  have := hg.codeCache
  have := hg.genCode
  cases p with
  | idle => exact h
  | faulted => exact h
  | check b l => exact h
  | limit b =>
    unfold Doomed ExecBlock.exceeds ExecState.limitOf at *
    cases hk : b.kind <;> simp only [hk, decide_eq_true_eq, gt_iff_lt] at h ⊢ <;> omega

theorem ExecPc.Doomed.step {u : Fin n} (h : (s.pc u).Doomed r s) (hg : s.Grows s') (hs : s.step r e = some s') :
    (s'.pc u).Doomed r s' := by
  have hkeep : ∀ {p : ExecPc} (t : Fin n), s'.pc = Function.update s.pc t p →
      (t = u → p.Doomed r s') → (s'.pc u).Doomed r s' := by
    intro p t hpc hp
    rw [hpc]
    by_cases hu : u = t
    · subst hu
      rw [update_self]
      exact hp rfl
    · rw [update_of_ne hu]
      exact h.mono hg
  obtain ⟨t, request, k, rfl, hpc, rfl⟩ | ⟨t, rfl⟩ | ⟨t, b, hpc, rfl⟩ | ⟨t, b, limit, hpc, hle, rfl⟩ :=
    ExecState.step_cases hs
  · have hut : t ≠ u := by
      rintro rfl
      rw [hpc] at h
      exact h
    cases k <;> exact hkeep t rfl fun he => absurd he hut
  · exact hkeep t rfl fun _ => trivial
  · refine hkeep t rfl ?_
    rintro rfl
    rwa [hpc] at h
  · refine hkeep t rfl ?_
    rintro rfl
    rw [hpc, ExecPc.Doomed, hle] at h
    cases h

def ExecState.Past (s : ExecState n) (r : ExecRegion) : Prop :=
  s.genCodeStart < s.codeCacheEnd ∨ r.execEnd < s.wrapperEnd

theorem ExecState.advance_doomed (hw : (ExecEvent.call t request (some k)).NoWrap s) (hold : ¬ s.Past r)
    (hpast : (s.advance t request.size k).Past r) :
    ((s.advance t request.size k).pc t).Doomed r (s.advance t request.size k) := by
  simp only [Past, not_or, Nat.not_lt] at hold hpast
  cases k with
  | codeCache =>
    have hlt : s.codeCacheEnd + request.size < 2 ^ 64 := hw
    simp only [advance, setPc, update_self, ExecPc.Doomed, ExecBlock.exceeds, limitOf, decide_eq_true_eq,
      Nat.mod_eq_of_lt hlt] at hpast ⊢
    omega
  | genCode =>
    simp only [advance, setPc] at hpast
    simp only [advance, setPc, update_self, ExecPc.Doomed, ExecBlock.exceeds, limitOf]
    exact decide_eq_true (by omega)
  | wrapper =>
    have hlt : s.wrapperEnd + request.size < 2 ^ 64 := hw
    simp only [advance, setPc, update_self, ExecPc.Doomed, ExecBlock.exceeds, limitOf, decide_eq_true_eq,
      Nat.mod_eq_of_lt hlt] at hpast ⊢
    omega

theorem ExecInv.past_step (h : ExecInv r s) (hp : s.Past r → ∃ t, (s.pc t).Doomed r s) (hw : e.NoWrap s)
    (hs : s.step r e = some s') : s'.Past r → ∃ t, (s'.pc t).Doomed r s' := by
  intro hpast
  by_cases hold : s.Past r
  · obtain ⟨t, ht⟩ := hp hold
    exact ⟨t, ht.step (h.bounds.step_grows hw hs) hs⟩
  · obtain ⟨t, request, k, rfl, _, rfl⟩ | ⟨t, rfl⟩ | ⟨t, b, _, rfl⟩ | ⟨t, b, limit, _, _, rfl⟩ :=
      ExecState.step_cases hs
    · rw [h.bounds.update_eq hw] at hpast ⊢
      exact ⟨t, ExecState.advance_doomed hw hold hpast⟩
    all_goals exact absurd hpast hold

theorem ExecRun.past (hrun : ExecRun r (.init n r) s) : s.Past r → ∃ t, (s.pc t).Doomed r s := by
  induction hrun with
  | refl =>
    have hw := r.wrapperStart_eq
    have he := r.execEnd_eq
    simp only [ExecState.Past, ExecState.init]
    omega
  | step e hrun hw hs ih => exact (hrun.inv (.init n r)).past_step ih hw hs

theorem ExecState.Past.mono (h : s.Past r) (hg : s.Grows s') : s'.Past r :=
  h.imp (fun h => Nat.lt_of_le_of_lt hg.genCode (Nat.lt_of_lt_of_le h hg.codeCache))
    (fun h => Nat.lt_of_lt_of_le h hg.wrapper)

theorem ExecInv.classified (h : ExecInv r s) (hp : ¬ s.Past r) : s.Classified r := by
  intro x hx a hlo hhi k
  have hw := (h.returned x hx).1
  have hG := h.bounds.genCode_le
  have hr := r.wrapperStart_eq
  simp only [ExecState.Past, not_or, Nat.not_lt] at hp
  unfold ExecBlock.Within at hw
  cases hk : x.1.kind <;> simp only [hk] at hw <;> cases k <;>
    simp only [ExecState.isAddress, ExecState.isCodeCacheAddress, ExecState.isGencodeAddress,
      ExecState.isWrapperAddress, decide_eq_true_eq, reduceCtorEq, iff_false, iff_true] <;> omega

end Granary.Memory
