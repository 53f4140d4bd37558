import Granary.Memory.Lemmas.Sizes
import Mathlib.Algebra.Order.BigOperators.Group.Finset
import Mathlib.Data.List.Pairwise

/-!
# The invariant of the global heap

Every block that was ever cut off the heap is in a list `B`, and `own` says who has it: the program, a free list, or a
thread in the middle of `global_allocate` or `global_free`. A free list changes only under its lock, and the word that
a free block starts with only while its thread has the block in hand.
-/

namespace Granary.Memory

open Function (update update_eq_self_iff update_of_ne update_self)

open Linked Ranges

variable {n heap : Nat} {s s' : HeapState n} {L L' : Nat → List Nat} {B B' : List (Nat × Nat)} {t u : Fin n}
variable {size index a c d addr m k : Nat} {p : Pc} {o o' : HeapPart n}

inductive HeapOwner (n : Nat) where
  | program
  | list
  | thread (t : Fin n)
deriving DecidableEq

variable {own own' : Nat → HeapOwner n}

def Pc.holds : Pc → Option Nat
  | .allocLoad size | .allocNext size _ | .allocStore size _ _ | .allocUnlock size _ => some (scaleOf size)
  | .freeLoad _ size | .freeLink _ size _ | .freeStore _ size | .freeUnlock size => some (scaleOf size)
  | _ => none

def Pc.pending : Pc → Nat
  | .allocHead size | .allocBump size | .allocLock size | .allocLoad size | .allocUnlock size none =>
    allocationSize size
  | _ => 0

def Pc.size? : Pc → Option Nat
  | .allocHead size | .allocBump size | .allocLock size | .allocLoad size | .allocNext size _ => some size
  | .allocStore size _ _ | .allocUnlock size _ => some size
  | .freeLock _ size | .freeLoad _ size | .freeLink _ size _ | .freeStore _ size | .freeUnlock size => some size
  | .idle | .faulted => none

def Pc.Reads (head next : Nat → Option Nat) : Pc → Prop
  | .allocNext size a => head (scaleOf size) = some a
  | .allocStore size a w => head (scaleOf size) = some a ∧ w = next a
  | .freeLink _ size w => w = head (scaleOf size)
  | .freeStore a size => next a = head (scaleOf size)
  | _ => True

structure ThreadOk (s : HeapState n) (B : List (Nat × Nat)) (own : Nat → HeapOwner n) (t : Fin n) (pc : Pc) :
    Prop where
  small : ∀ size, pc.size? = some size → 0 < size ∧ size < 2 ^ 64
  locked : ∀ c, pc.holds = some c → s.locked c = true
  hand : ∀ x, pc.hand = some x → x ∈ B ∧ own x.1 = .thread t
  reads : pc.Reads s.head s.next

structure BlocksOk (heap index : Nat) (B : List (Nat × Nat)) : Prop where
  apart : B.Pairwise fun x y => Apart x.1 (classSize x.2) y.1 (classSize y.2)
  inside : ∀ x ∈ B, heap ≤ x.1 ∧ x.1 + classSize x.2 ≤ heap + index
  aligned : ∀ x ∈ B, 8 ∣ x.1

structure HeapInv (heap : Nat) (s : HeapState n) (L : Nat → List Nat) (B : List (Nat × Nat))
    (own : Nat → HeapOwner n) : Prop where
  lists : Lists s.next s.head L
  blocks : BlocksOk heap s.heapIndex B
  free : ∀ c, ∀ a ∈ L c, (a, c) ∈ B ∧ own a = .list
  live : ∀ b ∈ s.live, (b.addr, b.scale) ∈ B ∧ own b.addr = .program ∧ b.scale = scaleOf b.size ∧
    0 < b.size ∧ b.size ≤ heapSize
  nodup : (s.live.map LiveBlock.addr).Nodup
  threads : ∀ t, ThreadOk s B own t (s.pc t)
  exclusive : ∀ t u c, (s.pc t).holds = some c → (s.pc u).holds = some c → t = u
  below : ∀ x ∈ B, classSize x.2 < heapSize
  index : 8 ∣ s.heapIndex ∧ s.heapIndex ≤ heapSize
  demand : s.heapIndex + ∑ t, (s.pc t).pending ≤ s.demand

/-! ## Facts about the blocks -/

theorem classSize_pos (c : Nat) : 0 < classSize c := Nat.two_pow_pos _

theorem classSize_scaleOf (h : size ≤ heapSize) : classSize (scaleOf size) = allocationSize size := by
  rw [heapSize_eq] at h
  rw [allocationSize_eq_scale (by omega)]
  rfl

theorem le_heapSize_of_classSize (h : size < 2 ^ 64) (hclass : classSize (scaleOf size) < heapSize) : size ≤ heapSize := by
  have hle := le_allocationSize (Nat.le_of_lt h)
  rcases Nat.lt_or_ge (2 ^ 63) size with hbig | hsmall
  · have hlog : Nat.log2 (size - 1) = 63 := (Nat.log2_eq_iff (by omega)).mpr (by omega)
    rw [scaleOf, allocationSize_big (by omega) (by omega), hlog] at hclass
    exact absurd hclass (by decide)
  · rw [classSize, minScale, ← allocationSize_eq_scale hsmall] at hclass
    omega

section

variable (h : BlocksOk heap index B)

include h

theorem BlocksOk.apart_of_ne {b : Nat} (ha : (a, c) ∈ B) (hb : (b, d) ∈ B)
    (hne : a ≠ b) : Apart a (classSize c) b (classSize d) := by
  have : Std.Symm fun x y : Nat × Nat => Apart x.1 (classSize x.2) y.1 (classSize y.2) := ⟨fun _ _ => Or.symm⟩
  exact h.apart.forall ha hb fun he => hne (congrArg Prod.fst he)

theorem BlocksOk.ne_start {b x : Nat} (ha : (a, c) ∈ B) (hb : (b, d) ∈ B)
    (hne : a ≠ b) (hlo : a ≤ x) (hhi : x < a + classSize c) : x ≠ b := by
  rintro rfl
  have hap := h.apart_of_ne ha hb hne
  have := classSize_pos d
  unfold Apart at hap
  omega

theorem BlocksOk.cons (ha : 8 ∣ heap + index) :
    BlocksOk heap (index + classSize c) ((heap + index, c) :: B) where
  apart := by
    refine List.pairwise_cons.mpr ⟨fun x hx => ?_, h.apart⟩
    exact Or.inr (h.inside x hx).2
  inside x hx := by
    rcases List.mem_cons.mp hx with rfl | hx
    · simp only
      omega
    · have := h.inside x hx
      omega
  aligned x hx := by
    rcases List.mem_cons.mp hx with rfl | hx
    · exact ha
    · exact h.aligned x hx

theorem BlocksOk.mono {index' : Nat} (hle : index ≤ index') : BlocksOk heap index' B :=
  ⟨h.apart, fun x hx => ⟨(h.inside x hx).1, Nat.le_trans (h.inside x hx).2 (by omega)⟩, h.aligned⟩

end

/-! ## One thread moves -/

theorem sum_pending_update (pc : Fin n → Pc) (t : Fin n) (p : Pc) :
    ∑ u, (update pc t p u).pending + (pc t).pending = ∑ u, (pc u).pending + p.pending := by
  have h₁ := Finset.add_sum_erase Finset.univ (fun u => (update pc t p u).pending) (Finset.mem_univ t)
  have h₂ := Finset.add_sum_erase Finset.univ (fun u => (pc u).pending) (Finset.mem_univ t)
  have h₃ : ∑ u ∈ Finset.univ.erase t, (update pc t p u).pending =
      ∑ u ∈ Finset.univ.erase t, (pc u).pending := by
    refine Finset.sum_congr rfl fun u hu => ?_
    rw [update_of_ne (Finset.ne_of_mem_erase hu)]
  simp only [update_self] at h₁
  omega

/-- What a step of thread `t` leaves alone: the lists whose locks it does not hold, and other blocks and their owners. -/
structure Frame (s s' : HeapState n) (B B' : List (Nat × Nat)) (own own' : Nat → HeapOwner n) (t : Fin n) : Prop where
  head : ∀ c, (s.pc t).holds ≠ some c → s'.head c = s.head c
  locked : ∀ c, (s.pc t).holds ≠ some c → s.locked c = true → s'.locked c = true
  next : ∀ x ∈ B, own x.1 ≠ .program → own x.1 ≠ .thread t → s'.next x.1 = s.next x.1
  blocks : ∀ x ∈ B, x ∈ B'
  own : ∀ x ∈ B, ∀ u, u ≠ t → own x.1 = .thread u → own' x.1 = .thread u

theorem Frame.refl (s : HeapState n) (B : List (Nat × Nat)) (own : Nat → HeapOwner n) (t : Fin n) (p : Pc) :
    Frame s (s.setPc t p) B B own own t :=
  ⟨fun _ _ => rfl, fun _ _ h => h, fun _ _ _ _ => rfl, fun _ h => h, fun _ _ _ _ h => h⟩

section

variable (h : HeapInv heap s L B own)
include h

theorem HeapInv.head_mem (ha : s.head c = some a) : a ∈ L c := by
  have hch := h.lists.chain c
  rw [ha] at hch
  obtain ⟨l, hl⟩ := hch.exists_cons
  simp [hl]

theorem HeapInv.thread_keep (hhead : ∀ c, (s.pc u).holds = some c → s'.head c = s.head c)
    (hlocked : ∀ c, (s.pc u).holds = some c → s'.locked c = true)
    (hnext : ∀ x ∈ B, own x.1 = .list ∨ own x.1 = .thread u → s'.next x.1 = s.next x.1) (hblocks : ∀ x ∈ B, x ∈ B')
    (hown : ∀ x ∈ B, own x.1 = .thread u → own' x.1 = .thread u) : ThreadOk s' B' own' u (s.pc u) := by
  have hok := h.threads u
  refine ⟨hok.small, hlocked, fun x hx => ?_, ?_⟩
  · obtain ⟨hxB, hxo⟩ := hok.hand x hx
    exact ⟨hblocks x hxB, hown x hxB hxo⟩
  · have hr := hok.reads
    have hhand := hok.hand
    cases hpc : s.pc u with
    | allocNext size a | freeLink a size w =>
      rw [hpc] at hr hhead
      rw [Pc.Reads, hhead _ rfl]
      exact hr
    | allocStore size a w =>
      rw [hpc] at hr hhead
      obtain ⟨haB, hao⟩ := h.free _ a (h.head_mem hr.1)
      rw [Pc.Reads, hhead _ rfl, hnext (a, scaleOf size) haB (Or.inl hao)]
      exact hr
    | freeStore a size =>
      rw [hpc] at hr hhead hhand
      obtain ⟨haB, hao⟩ := hhand _ rfl
      rw [Pc.Reads, hhead _ rfl, hnext (a, scaleOf size) haB (Or.inr hao)]
      exact hr
    | _ => trivial

theorem HeapInv.move (hpc : s'.pc = update s.pc t p) (hf : Frame s s' B B' own own' t) (hself : ThreadOk s' B' own' t p)
    (hholds : ∀ c, p.holds = some c → (s.pc t).holds = some c ∨ s.locked c = false)
    (hlists : Lists s'.next s'.head L') (hblocks : BlocksOk heap s'.heapIndex B')
    (hfree : ∀ c, ∀ a ∈ L' c, (a, c) ∈ B' ∧ own' a = .list)
    (hlive : ∀ b ∈ s'.live, (b.addr, b.scale) ∈ B' ∧ own' b.addr = .program ∧ b.scale = scaleOf b.size ∧
      0 < b.size ∧ b.size ≤ heapSize)
    (hnodup : (s'.live.map LiveBlock.addr).Nodup) (hbelow : ∀ x ∈ B', classSize x.2 < heapSize)
    (hindex : 8 ∣ s'.heapIndex ∧ s'.heapIndex ≤ heapSize)
    (hdemand : s'.heapIndex + p.pending + s.demand ≤ s'.demand + s.heapIndex + (s.pc t).pending) :
    HeapInv heap s' L' B' own' := by
  refine ⟨hlists, hblocks, hfree, hlive, hnodup, fun u => ?_, fun u v c hu hv => ?_, hbelow, hindex, ?_⟩
  · rw [hpc]
    by_cases hu : u = t
    · subst hu
      rw [update_self]
      exact hself
    · rw [update_of_ne hu]
      have hfree : ∀ c, (s.pc u).holds = some c → (s.pc t).holds ≠ some c :=
        fun c hc ht => hu (h.exclusive u t c hc ht)
      refine h.thread_keep (fun c hc => hf.head c (hfree c hc))
        (fun c hc => hf.locked c (hfree c hc) ((h.threads u).locked c hc)) (fun x hx ho => ?_) hf.blocks
        fun x hx => hf.own x hx u hu
      refine hf.next x hx ?_ ?_
      · rcases ho with ho | ho <;> simp [ho]
      · rcases ho with ho | ho <;> simp [ho, hu]
  · -- a lock that was just acquired was free before
    have hnot : ∀ w, w ≠ t → (s.pc w).holds = some c → p.holds ≠ some c := by
      intro w hw hwc hp
      rcases hholds c hp with ht | hl
      · exact hw (h.exclusive w t c hwc ht)
      · rw [(h.threads w).locked c hwc] at hl
        cases hl
    rw [hpc] at hu hv
    by_cases hut : u = t
    · subst hut
      rw [update_self] at hu
      by_cases hvt : v = u
      · exact hvt.symm
      · rw [update_of_ne hvt] at hv
        exact absurd hu (hnot v hvt hv)
    · rw [update_of_ne hut] at hu
      by_cases hvt : v = t
      · subst hvt
        rw [update_self] at hv
        exact absurd hv (hnot u hut hu)
      · rw [update_of_ne hvt] at hv
        exact h.exclusive u v c hu hv
  · have hsum := sum_pending_update s.pc t p
    have hd := h.demand
    rw [hpc]
    omega

theorem HeapInv.setPc (hsize : ∀ size, p.size? = some size →
      (s.pc t).size? = some size) (hholds : ∀ c, p.holds = some c → (s.pc t).holds = some c)
    (hhand : ∀ x, p.hand = some x → (s.pc t).hand = some x) (hreads : p.Reads s.head s.next)
    (hpending : p.pending ≤ (s.pc t).pending) : HeapInv heap (s.setPc t p) L B own := by
  have hok := h.threads t
  refine h.move rfl (Frame.refl s B own t p) ?_ (fun c hc => Or.inl (hholds c hc)) h.lists h.blocks h.free h.live
    h.nodup h.below h.index ?_
  · exact ⟨fun size hs => hok.small size (hsize size hs), fun c hc => hok.locked c (hholds c hc),
      fun x hx => hok.hand x (hhand x hx), hreads⟩
  · simp only [HeapState.setPc]
    omega

theorem HeapInv.acquire (hfree : s.locked c = false)
    (hsize : ∀ size, p.size? = some size → (s.pc t).size? = some size) (hholds : p.holds = some c)
    (hhand : ∀ x, p.hand = some x → (s.pc t).hand = some x) (hreads : p.Reads s.head s.next)
    (hpending : p.pending ≤ (s.pc t).pending) : HeapInv heap ((s.setPc t p).setLocked c true) L B own := by
  have hok := h.threads t
  refine h.move rfl ⟨fun _ _ => rfl, fun d _ hd => ?_, fun _ _ _ _ => rfl, fun _ hx => hx, fun _ _ _ _ ho => ho⟩ ?_
    (fun d hd => Or.inr ?_) h.lists h.blocks h.free h.live h.nodup h.below h.index ?_
  · by_cases hdc : d = c
    · subst hdc
      simp [HeapState.setLocked]
    · simpa [HeapState.setLocked, HeapState.setPc, hdc] using hd
  · refine ⟨fun size hs => hok.small size (hsize size hs), fun d hd => ?_, fun x hx => hok.hand x (hhand x hx), hreads⟩
    cases hholds.symm.trans hd
    simp [HeapState.setLocked]
  · cases hholds.symm.trans hd
    exact hfree
  · simp only [HeapState.setPc, HeapState.setLocked]
    omega

end

theorem Frame.release (hc : (s.pc t).holds = some c) (hB : ∀ x ∈ B, x ∈ B')
    (hown : ∀ x ∈ B, ∀ u, u ≠ t → own x.1 = .thread u → own' x.1 = .thread u) :
    Frame s ((s.setPc t p).setLocked c false) B B' own own' t := by
  refine ⟨fun _ _ => rfl, fun d hd hl => ?_, fun _ _ _ _ => rfl, hB, hown⟩
  have hdc : d ≠ c := by
    rintro rfl
    exact hd hc
  simpa [HeapState.setLocked, HeapState.setPc, hdc] using hl

theorem HeapInv.release (h : HeapInv heap s L B own) (hc : (s.pc t).holds = some c)
    (hsize : ∀ size, p.size? = some size → (s.pc t).size? = some size) (hholds : p.holds = none)
    (hhand : p.hand = none) (hreads : p.Reads s.head s.next) (hpending : p.pending ≤ (s.pc t).pending) :
    HeapInv heap ((s.setPc t p).setLocked c false) L B own := by
  refine h.move rfl (Frame.release hc (fun _ hx => hx) fun _ _ _ _ ho => ho) ?_ (by simp [hholds]) h.lists h.blocks
    h.free h.live h.nodup h.below h.index ?_
  · exact ⟨fun size hs => (h.threads t).small size (hsize size hs), by simp [hholds], by simp [hhand], hreads⟩
  · simp only [HeapState.setPc, HeapState.setLocked]
    omega

/-! ## Blocks change hands -/

theorem update_keep {x v w : HeapOwner n} {b : Nat} (ha : own a = w) (hb : own b = v) (hne : v ≠ w) :
    update own a x b = v := by
  rw [update_of_ne, hb]
  rintro rfl
  exact hne (hb.symm.trans ha)

section

variable (h : HeapInv heap s L B own)
include h

theorem HeapInv.bump (heap8 : 8 ∣ heap) (hpc : s.pc t = .allocBump size)
    (hlt : s.heapIndex + allocationSize size < heapSize) :
    HeapInv heap { (s.setPc t .idle).give ⟨heap + s.heapIndex, size, scaleOf size⟩ with
        heapIndex := (s.heapIndex + allocationSize size) % 2 ^ 32 } L
      ((heap + s.heapIndex, scaleOf size) :: B) (update own (heap + s.heapIndex) .program) := by
  obtain ⟨hpos, hsmall⟩ := (h.threads t).small size (by rw [hpc]; rfl)
  have hle := le_allocationSize (Nat.le_of_lt hsmall)
  have hclass : classSize (scaleOf size) = allocationSize size := classSize_scaleOf (by omega)
  have hmod : (s.heapIndex + allocationSize size) % 2 ^ 32 = s.heapIndex + allocationSize size := by
    rw [heapSize_eq] at hlt
    exact Nat.mod_eq_of_lt (by omega)
  -- the new address is the start of no earlier block
  have hnew : ∀ x ∈ B, x.1 ≠ heap + s.heapIndex := by
    intro x hx he
    have := (h.blocks.inside x hx).2
    have := classSize_pos x.2
    omega
  have hown : ∀ x ∈ B, update own (heap + s.heapIndex) HeapOwner.program x.1 = own x.1 :=
    fun x hx => update_of_ne (hnew x hx) _ _
  refine h.move rfl ⟨fun _ _ => rfl, fun _ _ hl => hl, fun _ _ _ _ => rfl, fun _ hx => List.mem_cons_of_mem _ hx,
    fun x hx u _ ho => ?_⟩ ⟨by simp [Pc.size?], by simp [Pc.holds], by simp [Pc.hand], trivial⟩ (by simp [Pc.holds])
    h.lists ?_ (fun c a ha => ?_) (fun b hb => ?_) ?_ (fun x hx => ?_) ?_ ?_
  · rw [hown x hx]
    exact ho
  · simp only
    rw [hmod, ← hclass]
    exact h.blocks.cons (Nat.dvd_add heap8 h.index.1)
  · obtain ⟨haB, hao⟩ := h.free c a ha
    exact ⟨List.mem_cons_of_mem _ haB, by rw [hown _ haB]; exact hao⟩
  · rcases List.mem_cons.mp hb with rfl | hb
    · exact ⟨by simp, by simp, rfl, hpos, by simp only; omega⟩
    · obtain ⟨hbB, hbo, hrest⟩ := h.live b hb
      exact ⟨List.mem_cons_of_mem _ hbB, by rw [hown _ hbB]; exact hbo, hrest⟩
  · simp only [HeapState.give, List.map_cons, List.nodup_cons]
    refine ⟨fun hmem => ?_, h.nodup⟩
    obtain ⟨b, hb, he⟩ := List.mem_map.mp hmem
    exact hnew _ (h.live b hb).1 he
  · rcases List.mem_cons.mp hx with rfl | hx
    · simp only
      omega
    · exact h.below x hx
  · simp only
    rw [hmod]
    have hdvd : 8 ∣ allocationSize size := hclass ▸ Dvd.intro_left (2 ^ scaleOf size) (by rw [classSize, Nat.pow_add]; rfl)
    exact ⟨Nat.dvd_add h.index.1 hdvd, Nat.le_of_lt hlt⟩
  · simp only [hpc, Pc.pending, HeapState.setPc, HeapState.give]
    rw [hmod]
    omega

theorem HeapInv.bumpFault (hpc : s.pc t = .allocBump size) (hle : s.heapIndex + allocationSize size ≤ heapSize) :
    HeapInv heap { s.setPc t .faulted with heapIndex := (s.heapIndex + allocationSize size) % 2 ^ 32 } L B own := by
  have hsmall := le_allocationSize (Nat.le_of_lt ((h.threads t).small size (by rw [hpc]; rfl)).2)
  have hlt : s.heapIndex + allocationSize size < 2 ^ 32 := Nat.lt_of_le_of_lt hle (by decide)
  refine h.move rfl ⟨fun _ _ => rfl, fun _ _ hl => hl, fun _ _ _ _ => rfl, fun _ hx => hx, fun _ _ _ _ ho => ho⟩
    ⟨by simp [Pc.size?], by simp [Pc.holds], by simp [Pc.hand], trivial⟩ (by simp [Pc.holds])
    h.lists ?_ h.free h.live h.nodup h.below ?_ ?_
  · simp only
    rw [Nat.mod_eq_of_lt hlt]
    exact h.blocks.mono (Nat.le_add_right _ _)
  · simp only
    rw [Nat.mod_eq_of_lt hlt]
    exact ⟨Nat.dvd_add h.index.1 (eight_dvd_allocationSize (by omega)), hle⟩
  · simp only [hpc, Pc.pending, HeapState.setPc]
    rw [Nat.mod_eq_of_lt hlt]
    omega

theorem HeapInv.storeHead {w : Option Nat} (hpc : s.pc t = .allocStore size a w) :
    ∃ L' own', HeapInv heap ((s.setPc t (.allocUnlock size (some a))).setHead (scaleOf size) w) L' B own' := by
  have hok := h.threads t
  rw [hpc] at hok
  obtain ⟨ha, rfl⟩ := hok.reads
  obtain ⟨l, hl⟩ : ∃ l, L (scaleOf size) = a :: l := by
    have hch := h.lists.chain (scaleOf size)
    rw [ha] at hch
    exact hch.exists_cons
  have hperm : (L (scaleOf size)).Perm (a :: l) := by rw [hl]
  have hchain := h.lists.chain (scaleOf size)
  rw [hl] at hchain
  have hmem : ∀ {c b}, b ∈ update L (scaleOf size) l c → b ∈ L c :=
    fun hb => (mem_iff_of_perm hperm).mpr (Or.inl hb)
  obtain ⟨haB, hao⟩ := h.free (scaleOf size) a (by simp [hl])
  refine ⟨_, update own a (.thread t), h.move rfl ⟨fun c hc => ?_, fun _ _ hl => hl, fun _ _ _ _ => rfl,
    fun _ hx => hx, fun x hx u _ ho => ?_⟩ ⟨?_, ?_, ?_, trivial⟩ (fun c hc => Or.inl ?_)
    (h.lists.shrink hchain.2 (fun b hb => hmem (by rwa [update_self])) fun _ _ => rfl) h.blocks
    (fun c b hb => ?_) (fun b hb => ?_) h.nodup h.below h.index ?_⟩
  · rw [hpc] at hc
    refine update_of_ne (fun he => hc ?_) _ _
    rw [he]
    rfl
  · exact update_keep hao ho (by simp)
  · exact hok.small
  · exact hok.locked
  · rintro x ⟨⟩
    exact ⟨haB, update_self _ _ _⟩
  · rw [hpc]
    exact hc
  · obtain ⟨hbB, hbo⟩ := h.free c b (hmem hb)
    refine ⟨hbB, ?_⟩
    rw [update_of_ne _]
    · exact hbo
    · rintro rfl
      exact h.lists.not_mem_of_perm hperm c hb
  · obtain ⟨hbB, hbo, hrest⟩ := h.live b hb
    exact ⟨hbB, update_keep hao hbo (by simp), hrest⟩
  · simp only [hpc, Pc.pending, HeapState.setPc, HeapState.setHead]
    omega

theorem HeapInv.unlockReturn (hpc : s.pc t = .allocUnlock size (some a)) :
    HeapInv heap (((s.setPc t .idle).setLocked (scaleOf size) false).give ⟨a, size, scaleOf size⟩) L B
      (update own a .program) := by
  have hok := h.threads t
  rw [hpc] at hok
  obtain ⟨haB, hao⟩ := hok.hand _ rfl
  simp only at haB hao
  have hrel := Frame.release (p := .idle) (c := scaleOf size) (s := s) (t := t) (by rw [hpc]; rfl) (fun _ hx => hx)
    fun x (hx : x ∈ B) u (hu : u ≠ t) (ho : own x.1 = .thread u) =>
      update_keep (x := .program) hao ho (by simp [hu])
  refine h.move rfl ⟨hrel.head, hrel.locked, hrel.next, hrel.blocks, hrel.own⟩
    ⟨by simp [Pc.size?], by simp [Pc.holds], by simp [Pc.hand], trivial⟩ (by simp [Pc.holds]) h.lists h.blocks
    (fun c b hb => ?_) (fun b hb => ?_) ?_ h.below h.index ?_
  · obtain ⟨hbB, hbo⟩ := h.free c b hb
    exact ⟨hbB, update_keep hao hbo (by simp)⟩
  · rcases List.mem_cons.mp hb with rfl | hb
    · have hsmall := hok.small size rfl
      exact ⟨haB, by simp, rfl, hsmall.1, le_heapSize_of_classSize hsmall.2 (h.below _ haB)⟩
    · obtain ⟨hbB, hbo, hrest⟩ := h.live b hb
      exact ⟨hbB, update_keep hao hbo (by simp), hrest⟩
  · simp only [HeapState.give, List.map_cons, List.nodup_cons]
    refine ⟨fun hmem => ?_, h.nodup⟩
    obtain ⟨b, hb, he⟩ := List.mem_map.mp hmem
    have hbo := (h.live b hb).2.1
    rw [he] at hbo
    cases hbo.symm.trans hao
  · simp only [HeapState.give, HeapState.setLocked, HeapState.setPc, Pc.pending]
    omega

theorem HeapInv.callFree {b : LiveBlock} (hb : b ∈ s.live) (t : Fin n) :
    HeapInv heap { s.setPc t (.freeLock b.addr b.size) with live := s.live.erase b } L B
      (update own b.addr (.thread t)) := by
  obtain ⟨hbB, hbo, hscale, hsmall⟩ := h.live b hb
  have hnd : s.live.Nodup := h.nodup.of_map _
  refine h.move rfl ⟨fun _ _ => rfl, fun _ _ hl => hl, fun _ _ _ _ => rfl, fun _ hx => hx, fun x hx u _ ho => ?_⟩
    ⟨?_, by simp [Pc.holds], ?_, trivial⟩ (by simp [Pc.holds]) h.lists h.blocks (fun c a ha => ?_) (fun c hc => ?_) ?_
    h.below h.index ?_
  · exact update_keep hbo ho (by simp)
  · rintro size ⟨⟩
    exact ⟨hsmall.1, Nat.lt_of_le_of_lt hsmall.2 (by decide)⟩
  · rintro x ⟨⟩
    exact ⟨hscale ▸ hbB, update_self _ _ _⟩
  · obtain ⟨haB, hao⟩ := h.free c a ha
    exact ⟨haB, update_keep hbo hao (by simp)⟩
  · obtain ⟨hne, hc⟩ := hnd.mem_erase_iff.mp hc
    obtain ⟨hcB, hco, hrest⟩ := h.live c hc
    refine ⟨hcB, ?_, hrest⟩
    rw [update_of_ne fun he => hne (List.inj_on_of_nodup_map h.nodup hc hb he)]
    exact hco
  · exact h.nodup.sublist (List.erase_sublist.map _)
  · simp only [HeapState.setPc, Pc.pending]
    omega

theorem HeapInv.freeLink {w : Option Nat} (hpc : s.pc t = .freeLink addr size w) :
    HeapInv heap ((s.setPc t (.freeStore addr size)).setNext addr w) L B own := by
  have hok := h.threads t
  rw [hpc] at hok
  obtain ⟨haB, hao⟩ := hok.hand _ rfl
  simp only at haB hao
  have hnext : ∀ a, own a ≠ .thread t → update s.next addr w a = s.next a :=
    fun a ha => update_of_ne (fun he => ha ((congrArg own he).trans hao)) _ _
  refine h.move rfl ⟨fun _ _ => rfl, fun _ _ hl => hl, fun x _ _ hx => hnext x.1 hx, fun _ hx => hx,
    fun _ _ _ _ ho => ho⟩ ⟨hok.small, hok.locked, hok.hand, ?_⟩ (fun c hc => Or.inl (by rw [hpc]; exact hc))
    (h.lists.congr fun c a ha => hnext a ?_) h.blocks h.free h.live h.nodup h.below h.index ?_
  · have hr : w = s.head (scaleOf size) := hok.reads
    exact (update_self addr w s.next).trans hr
  · rw [(h.free c a ha).2]
    simp
  · simp only [hpc, HeapState.setPc, HeapState.setNext, Pc.pending]
    omega

theorem HeapInv.freeStore (hpc : s.pc t = .freeStore addr size) :
    ∃ L' own', HeapInv heap ((s.setPc t (.freeUnlock size)).setHead (scaleOf size) (some addr)) L' B own' := by
  have hok := h.threads t
  rw [hpc] at hok
  obtain ⟨haB, hao⟩ := hok.hand _ rfl
  simp only at haB hao
  have hnot : ∀ c, addr ∉ L c := by
    intro c ha
    cases (h.free c addr ha).2.symm.trans hao
  have hlists := h.lists.push hnot (scaleOf size)
  rw [update_eq_self_iff.mpr (hok.reads : s.next addr = s.head (scaleOf size)).symm] at hlists
  refine ⟨_, update own addr .list, h.move rfl ⟨fun c hc => ?_, fun _ _ hl => hl, fun _ _ _ _ => rfl,
    fun _ hx => hx, fun x hx u hu ho => ?_⟩ ⟨hok.small, hok.locked, by simp [Pc.hand], trivial⟩
    (fun c hc => Or.inl (by rw [hpc]; exact hc)) hlists h.blocks (fun c a ha => ?_) (fun b hb => ?_) h.nodup h.below
    h.index ?_⟩
  · rw [hpc] at hc
    refine update_of_ne (fun he => hc ?_) _ _
    rw [he]
    rfl
  · exact update_keep hao ho (by simp [hu])
  · rcases mem_update_cons.mp ha with ha | ⟨rfl, rfl⟩
    · obtain ⟨hB, ho⟩ := h.free c a ha
      exact ⟨hB, update_keep hao ho (by simp)⟩
    · exact ⟨haB, update_self _ _ _⟩
  · obtain ⟨hbB, hbo, hrest⟩ := h.live b hb
    exact ⟨hbB, update_keep hao hbo (by simp), hrest⟩
  · simp only [hpc, HeapState.setPc, HeapState.setHead, Pc.pending]
    omega

theorem HeapInv.write {b : LiveBlock} (w : Option Nat) (hb : b ∈ s.live)
    (hlo : b.addr ≤ a) (hhi : a < b.addr + b.size) : HeapInv heap (s.setNext a w) L B own := by
  obtain ⟨hbB, hbo, hscale, hsmall⟩ := h.live b hb
  have hle : b.size ≤ classSize b.scale := by
    rw [hscale, classSize_scaleOf hsmall.2]
    rw [heapSize_eq] at hsmall
    exact le_allocationSize (by omega)
  have hnext : ∀ x ∈ B, own x.1 ≠ .program → update s.next a w x.1 = s.next x.1 := by
    intro x hx ho
    refine update_of_ne (Ne.symm (h.blocks.ne_start hbB hx (fun he => ho ?_) hlo (by omega))) _ _
    rw [← he]
    exact hbo
  refine ⟨h.lists.congr fun c x hx => ?_, h.blocks, h.free, h.live, h.nodup, fun u => ?_, h.exclusive, h.below,
    h.index, h.demand⟩
  · obtain ⟨hxB, hxo⟩ := h.free c x hx
    exact hnext (x, c) hxB (by rw [hxo]; simp)
  · refine h.thread_keep (fun _ _ => rfl) (h.threads u).locked (fun x hx ho => hnext x hx ?_) (fun _ hx => hx)
      fun _ _ ho => ho
    rcases ho with ho | ho <;> simp [ho]

end

/-! ## Steps and runs -/

theorem HeapInv.init (next : Nat → Option Nat) :
    HeapInv heap (HeapState.init n next) (fun _ => []) [] (fun _ => .program) where
  lists := ⟨fun _ => rfl, fun h => by cases h⟩
  blocks := ⟨List.Pairwise.nil, by simp, by simp⟩
  free := by simp
  live := by simp [HeapState.init]
  nodup := by simp [HeapState.init]
  threads t := ⟨by simp [HeapState.init, Pc.size?], by simp [HeapState.init, Pc.holds],
    by simp [HeapState.init, Pc.hand], trivial⟩
  exclusive := by simp [HeapState.init, Pc.holds]
  below := by simp
  index := ⟨Nat.dvd_zero 8, Nat.zero_le _⟩
  demand := by simp [HeapState.init, Pc.pending]

theorem HeapStep.demand_le (h : HeapStep heap s s') : s.demand ≤ s'.demand := by
  cases h <;> first | exact Nat.le_refl _ | exact Nat.le_add_right _ _

theorem HeapStep.faulted (h : HeapStep heap s s') (hu : s.pc u = .faulted) : s'.pc u = .faulted := by
  cases h <;> first | exact hu | exact (update_of_ne (by rintro rfl; simp_all) _ _).trans hu

theorem HeapInv.pending_le (h : HeapInv heap s L B own) (t : Fin n) : s.heapIndex + (s.pc t).pending ≤ s.demand := by
  have := Finset.single_le_sum (f := fun u => (s.pc u).pending) (fun _ _ => Nat.zero_le _) (Finset.mem_univ t)
  have := h.demand
  omega

theorem HeapInv.isHeapAddress (h : HeapInv heap s L B own) {b : LiveBlock} (hb : b ∈ s.live) :
    Memory.isHeapAddress heap b.addr = true := by
  have hin := h.blocks.inside _ (h.live b hb).1
  have hle := h.index.2
  have hpos := classSize_pos b.scale
  simp only [Memory.isHeapAddress, decide_eq_true_eq]
  simp only at hin
  omega

theorem HeapInv.step (h : HeapInv heap s L B own) (heap8 : 8 ∣ heap) (hs : HeapStep heap s s')
    (hd : s'.demand ≤ heapSize ∨ ∀ t, s'.pc t ≠ .faulted) : ∃ L' B' own', HeapInv heap s' L' B' own' := by
  cases hs with
  | callAllocate t size hpc hpos hlt =>
    refine ⟨L, B, own, h.move rfl ⟨fun _ _ => rfl, fun _ _ hl => hl, fun _ _ _ _ => rfl, fun _ hx => hx,
      fun _ _ _ _ ho => ho⟩ ⟨?_, by simp [Pc.holds], by simp [Pc.hand], trivial⟩ (by simp [Pc.holds])
      h.lists h.blocks h.free h.live h.nodup h.below h.index ?_⟩
    · rintro size ⟨⟩
      exact ⟨hpos, hlt⟩
    · simp only [HeapState.setPc, Pc.pending]
      omega
  | headEmpty t size hpc _ | headFull t size a hpc _ | loadEmpty t size hpc _ =>
    refine ⟨L, B, own, h.setPc ?_ ?_ ?_ trivial ?_⟩ <;> rw [hpc] <;> simp [Pc.size?, Pc.holds, Pc.hand, Pc.pending]
  | bump t size hpc hlt => exact ⟨L, _, _, h.bump heap8 hpc hlt⟩
  | bumpFault t size hpc _ =>
    have := h.pending_le t
    rw [hpc, Pc.pending] at this
    obtain hd | hd := hd
    · exact ⟨L, B, own, h.bumpFault hpc (Nat.le_trans this hd)⟩
    · exact absurd (update_self ..) (hd t)
  | allocAcquire t size hpc hfree | freeAcquire t addr size hpc hfree =>
    refine ⟨L, B, own, h.acquire hfree ?_ rfl ?_ trivial ?_⟩ <;> rw [hpc] <;> simp [Pc.size?, Pc.hand, Pc.pending]
  | loadObject t size a hpc ha =>
    refine ⟨L, B, own, h.setPc ?_ ?_ ?_ ha ?_⟩ <;> rw [hpc] <;> simp [Pc.size?, Pc.holds, Pc.hand, Pc.pending]
  | readNext t size a hpc =>
    have hr := (h.threads t).reads
    rw [hpc] at hr
    refine ⟨L, B, own, h.setPc ?_ ?_ ?_ ⟨hr, rfl⟩ ?_⟩ <;> rw [hpc] <;>
      simp [Pc.size?, Pc.holds, Pc.hand, Pc.pending]
  | storeHead t size a w hpc =>
    obtain ⟨L', own', h'⟩ := h.storeHead hpc
    exact ⟨L', B, own', h'⟩
  | unlockRetry t size hpc | freeRelease t size hpc =>
    refine ⟨L, B, own, h.release ?_ ?_ rfl rfl trivial ?_⟩ <;> rw [hpc] <;> simp [Pc.size?, Pc.holds, Pc.pending]
  | unlockReturn t size a hpc => exact ⟨L, B, _, h.unlockReturn hpc⟩
  | callFree t b _ hb _ => exact ⟨L, B, _, h.callFree hb t⟩
  | callFreeForeign t b _ hb hforeign =>
    -- no live block is outside the heap
    exact absurd (h.isHeapAddress hb) (by simp [hforeign])
  | freeLoad t addr size hpc =>
    refine ⟨L, B, own, h.setPc ?_ ?_ ?_ rfl ?_⟩ <;> rw [hpc] <;> simp [Pc.size?, Pc.holds, Pc.hand, Pc.pending]
  | freeLink t addr size w hpc => exact ⟨L, B, own, h.freeLink hpc⟩
  | freeStore t addr size hpc =>
    obtain ⟨L', own', h'⟩ := h.freeStore hpc
    exact ⟨L', B, own', h'⟩
  | write b a w hb hlo hhi => exact ⟨L, B, own, h.write w hb hlo hhi⟩

theorem HeapReachable.inv (heap8 : 8 ∣ heap) (h : HeapReachable heap s)
    (hd : s.demand ≤ heapSize ∨ ∀ t, s.pc t ≠ .faulted) : ∃ L B own, HeapInv heap s L B own := by
  induction h with
  | init next => exact ⟨_, _, _, HeapInv.init next⟩
  | step _ hs ih =>
    obtain ⟨L, B, own, hinv⟩ := ih (hd.imp (Nat.le_trans hs.demand_le) fun hd t ht => hd t (hs.faulted ht))
    exact hinv.step heap8 hs hd

/-! ## Safety -/

def HeapPart.owner : HeapPart n → Option (HeapOwner n)
  | .live _ => some .program
  | .free _ _ => some .list
  | .hand t => some (.thread t)
  | .unbumped => none

section

variable (h : HeapInv heap s L B own)
include h

theorem HeapInv.part_block {w : HeapOwner n}
    (ho : o.owner = some w) (hp : s.Part heap L o a m) : ∃ c, (a, c) ∈ B ∧ m = classSize c ∧ own a = w := by
  cases o with
  | live b =>
    cases ho
    obtain ⟨hb, rfl, rfl⟩ := hp
    obtain ⟨hbB, hbo, _⟩ := h.live b hb
    exact ⟨_, hbB, rfl, hbo⟩
  | free c x =>
    cases ho
    obtain ⟨hx, rfl, rfl⟩ := hp
    obtain ⟨hxB, hxo⟩ := h.free c a hx
    exact ⟨_, hxB, rfl, hxo⟩
  | hand t =>
    cases ho
    obtain ⟨c, hc, rfl⟩ := hp
    obtain ⟨hB, hown⟩ := (h.threads t).hand _ hc
    exact ⟨c, hB, rfl, hown⟩
  | unbumped => cases ho

theorem HeapInv.part_inj {w w' : HeapOwner n}
    (ho : o.owner = some w) (ho' : o'.owner = some w') (hp : s.Part heap L o a m) (hp' : s.Part heap L o' a k) : o = o' := by
  obtain ⟨_, _, _, hw⟩ := h.part_block ho hp
  obtain ⟨_, _, _, hw'⟩ := h.part_block ho' hp'
  rw [hw] at hw'
  subst hw'
  cases o with
  | live b =>
    cases ho
    cases o' with
    | live b' =>
      obtain ⟨hb, hab, _⟩ := hp
      obtain ⟨hb', hab', _⟩ := hp'
      rw [List.inj_on_of_nodup_map h.nodup hb hb' (hab.symm.trans hab')]
    | _ => cases ho'
  | free c x =>
    cases ho
    cases o' with
    | free c' x' =>
      obtain ⟨hx, rfl, _⟩ := hp
      obtain ⟨hx', rfl, _⟩ := hp'
      rw [h.lists.place hx hx']
    | _ => cases ho'
  | hand t =>
    cases ho
    cases o' with
    | hand u => cases ho'; rfl
    | _ => cases ho'
  | unbumped => cases ho

theorem HeapInv.part_le {w : HeapOwner n}
    (ho : o.owner = some w) (hp : s.Part heap L o a m) : heap ≤ a ∧ a + m ≤ heap + s.heapIndex := by
  obtain ⟨c, hB, rfl, _⟩ := h.part_block ho hp
  exact h.blocks.inside (a, c) hB

theorem HeapInv.part_apart {b : Nat} (hne : o ≠ o')
    (hp : s.Part heap L o a m) (hp' : s.Part heap L o' b k) : Apart a m b k := by
  cases ho : o.owner with
  | none =>
    cases o with
    | unbumped =>
      cases ho' : o'.owner with
      | none => cases o' with
        | unbumped => exact absurd rfl hne
        | _ => cases ho'
      | some w' =>
        obtain ⟨rfl, _⟩ := hp
        exact Or.inr (h.part_le ho' hp').2
    | _ => cases ho
  | some w =>
    cases ho' : o'.owner with
    | none =>
      cases o' with
      | unbumped =>
        obtain ⟨rfl, _⟩ := hp'
        exact Or.inl (h.part_le ho hp).2
      | _ => cases ho'
    | some w' =>
      obtain ⟨c, hc, rfl, _⟩ := h.part_block ho hp
      obtain ⟨d, hd, rfl, _⟩ := h.part_block ho' hp'
      refine h.blocks.apart_of_ne hc hd fun hab => hne ?_
      subst hab
      exact h.part_inj ho ho' hp hp'

theorem HeapInv.safe : s.Safe heap L where
  lists := h.lists
  nodup := h.nodup.of_map _
  disjoint _ _ _ _ _ _ hne hp hp' := h.part_apart hne hp hp'
  inside o a m hp := by
    have hle := h.index.2
    cases ho : o.owner with
    | none =>
      cases o with
      | unbumped =>
        obtain ⟨rfl, rfl⟩ := hp
        omega
      | _ => cases ho
    | some w =>
      have := h.part_le ho hp
      omega
  returned b hb := by
    obtain ⟨hbB, _, hscale, hsmall⟩ := h.live b hb
    refine ⟨h.blocks.aligned _ hbB, ?_, hscale.symm⟩
    rw [hscale, classSize_scaleOf hsmall.2]
    rw [heapSize_eq] at hsmall
    exact le_allocationSize (by omega)

end

theorem HeapReachable.serves_lt (heap8 : 8 ∣ heap) (h : HeapReachable heap s)
    (hd : s.demand ≤ heapSize ∨ ∀ t, s.pc t ≠ .faulted) (size : Nat) (hserves : s.serves size = true) :
    allocationSize size < heapSize := by
  obtain ⟨L, B, own, hinv⟩ := h.inv heap8 hd
  simp only [HeapState.serves, decide_eq_true_eq] at hserves
  obtain ⟨hsize, hhead | hlt⟩ := hserves
  · obtain ⟨a, ha⟩ := Option.ne_none_iff_exists'.mp hhead
    have := hinv.below _ (hinv.free _ a (hinv.head_mem ha)).1
    rw [allocationSize_eq_scale hsize]
    exact this
  · omega

def HeapReachable.room (heap8 : 8 ∣ heap) (h : HeapReachable heap s)
    (hd : s.demand ≤ heapSize ∨ ∀ t, s.pc t ≠ .faulted) : HeapRoom :=
  { serves := s.serves, bounded := h.serves_lt heap8 hd }

end Granary.Memory
