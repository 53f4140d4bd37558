import Granary.Lib.X86

/-!
# XMM registers

Machine states with XMM registers, the 16 bytes of memory that one of them is kept in, and stacks that are aligned to 16
bytes.
-/

namespace Machine

structure SseState extends State where
  xmm : Fin 16 → BitVec 128

namespace Memory

def read128 (m : Memory) (a : Word) : BitVec 128 := m.read (a + 8) ++ m.read a

def write128 (m : Memory) (a : Word) (v : BitVec 128) : Memory :=
  (m.write a (v.setWidth 64)).write (a + 8) (v.extractLsb' 64 64)

end Memory

variable {a b : Word} {i j n : Nat} {m m' : Memory} {v : BitVec 128}

/-! ## Slots of 16 bytes -/

def slot (a : Word) (j : Nat) : Word := a + BitVec.ofNat 64 (16 * j)

def InSlot (a : Word) (j : Nat) (b : Word) : Prop := (b - a).toNat / 16 = j

theorem inSlot_of_inWord (hj : j < 16) (h : InWord (slot a j) b ∨ InWord (slot a j + 8) b) : InSlot a j b := by
  unfold InWord slot at h
  unfold InSlot
  bv_omega

theorem append_halves : (v.extractLsb' 64 64 ++ v.setWidth 64 : BitVec 128) = v := by
  apply BitVec.eq_of_getLsbD_eq
  intro k hk
  rw [BitVec.getLsbD_append, BitVec.getLsbD_setWidth, BitVec.getLsbD_extractLsb']
  split
  · next h => simp [h]
  · next h =>
      have hlow : k - 64 < 64 := by omega
      have hsum : 64 + (k - 64) = k := by omega
      simp [hlow, hsum]

@[simp] theorem read128_write128_self : (m.write128 a v).read128 a = v := by
  have hlow : (m.write128 a v).read a = v.setWidth 64 := by
    refine ((only_write).read_eq fun b hb => ?_).trans (read_write_self ..)
    unfold InWord at hb ⊢
    bv_omega
  rw [Memory.read128, hlow, Memory.write128, read_write_self, append_halves]

theorem only_write128 (hj : j < 16) : Only (InSlot a j) m (m.write128 (slot a j) v) := by
  refine Only.trans ((only_write).mono fun b hb => ?_) ((only_write).mono fun b hb => ?_)
  · exact inSlot_of_inWord hj (.inl hb)
  · exact inSlot_of_inWord hj (.inr hb)

theorem Only.read128_eq {P : Word → Prop} (h : Only P m m') (hj : j < 16) (hP : ∀ b, InSlot a j b → ¬ P b) :
    m'.read128 (slot a j) = m.read128 (slot a j) := by
  have hlow : m'.read (slot a j) = m.read (slot a j) :=
    h.read_eq fun b hb => hP b (inSlot_of_inWord hj (.inl hb))
  have hhigh : m'.read (slot a j + 8) = m.read (slot a j + 8) :=
    h.read_eq fun b hb => hP b (inSlot_of_inWord hj (.inr hb))
  rw [Memory.read128, Memory.read128, hlow, hhigh]

/-! ## Alignment -/

def Aligned16 (a : Word) : Prop := a.toNat % 16 = 0

instance (a : Word) : Decidable (Aligned16 a) := inferInstanceAs (Decidable (_ = _))

theorem toNat_and_neg_sixteen (a : Word) : (a &&& -16#64).toNat = a.toNat - a.toNat % 16 := by
  have hshift : a &&& -16#64 = (a >>> 4) <<< 4 := by
    apply BitVec.eq_of_getLsbD_eq
    intro k hk
    rw [BitVec.getLsbD_and, BitVec.getLsbD_shiftLeft, BitVec.getLsbD_ushiftRight]
    have hbit : (-16#64).getLsbD k = decide (4 ≤ k) := by
      revert k
      decide
    rw [hbit]
    by_cases h : 4 ≤ k
    · have hk4 : 4 + (k - 4) = k := by omega
      have hlt : ¬ k < 4 := by omega
      simp [h, hk, hk4, hlt]
    · simp [h]
  have hlt := a.isLt
  rw [hshift, BitVec.toNat_shiftLeft, BitVec.toNat_ushiftRight, Nat.shiftRight_eq_div_pow, Nat.shiftLeft_eq]
  omega

theorem aligned16_and (a : Word) : Aligned16 (a &&& -16#64) := by
  have h := toNat_and_neg_sixteen a
  unfold Aligned16
  omega

theorem and_neg_sixteen_cases (h : a.toNat % 8 = 0) : a &&& -16#64 = a ∨ a &&& -16#64 = a - 8 := by
  have hand := toNat_and_neg_sixteen a
  bv_omega

theorem Aligned16.slot (h : Aligned16 a) (j : Nat) : Aligned16 (slot a j) := by
  unfold Aligned16 at h ⊢
  unfold Machine.slot
  bv_omega

end Machine
