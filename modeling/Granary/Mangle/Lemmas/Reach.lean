import Granary.Mangle.Reach

/-!
# Lemmas about the reach of relative operands
-/

namespace Granary.Mangle

open Machine
open BitVec (ofInt ofNat toNat_add ofNat_add)

variable {area : ExecutableArea} {pc endPc estimatorPc target : Word} {size : Nat}

theorem encodable_iff : Encodable endPc target ↔ -2 ^ 31 ≤ (target - endPc).toInt ∧ (target - endPc).toInt < 2 ^ 31 := by
  constructor
  · rintro ⟨disp, rfl⟩
    rw [BitVec.add_comm, BitVec.add_sub_cancel, BitVec.toInt_signExtend_of_le (by decide)]
    exact ⟨BitVec.le_toInt disp, BitVec.toInt_lt⟩
  · rintro ⟨hlo, hhi⟩
    refine ⟨ofInt 32 (target - endPc).toInt, ?_⟩
    have hdisp : (ofInt 32 (target - endPc).toInt).toInt = (target - endPc).toInt := by
      rw [BitVec.toInt_ofInt]
      exact Int.bmod_eq_of_le (by omega) (by omega)
    rw [BitVec.signExtend, hdisp, BitVec.ofInt_toInt, BitVec.add_comm, BitVec.sub_add_cancel]

theorem toNat_ofNat_size {k : Nat} (hk : k ≤ codeCacheSize) : (ofNat 64 k).toNat = k := by
  have hsize : codeCacheSize = 104857600 := rfl
  rw [BitVec.toNat_ofNat, Nat.mod_eq_of_lt (by omega)]

theorem ExecutableArea.forall_ends_iff {p : Word → Prop} :
    (∀ (pc : Word) (size : Nat), 0 < size → area.Contains pc size → p (pc + ofNat 64 size)) ↔
      ∀ k, 0 < k → k ≤ codeCacheSize → p (area.start + ofNat 64 k) := by
  have hfits := area.fits
  constructor
  · intro h k hk hle
    have hpc : (area.start + ofNat 64 (k - 1)).toNat = area.start.toNat + (k - 1) := by
      rw [toNat_add, toNat_ofNat_size (by omega), Nat.mod_eq_of_lt (by omega)]
    have hend := h (area.start + ofNat 64 (k - 1)) 1 (by decide) ⟨by omega, by omega⟩
    rwa [BitVec.add_assoc, ← ofNat_add, Nat.sub_add_cancel hk] at hend
  · rintro h pc size hsize ⟨hlo, hhi⟩
    have hpc : pc = area.start + ofNat 64 (pc.toNat - area.start.toNat) := by
      apply BitVec.eq_of_toNat_eq
      rw [toNat_add, toNat_ofNat_size (by omega)]
      omega
    have hend := h (pc.toNat - area.start.toNat + size) (by omega) (by omega)
    rwa [ofNat_add, ← BitVec.add_assoc, ← hpc] at hend

theorem toInt_sub_size {d : Word} {k : Nat} (hk : k ≤ codeCacheSize) :
    (-2 ^ 31 ≤ (d - ofNat 64 k).toInt ∧ (d - ofNat 64 k).toInt < 2 ^ 31) ↔
      -2 ^ 31 + k ≤ d.toInt ∧ d.toInt < 2 ^ 31 + k := by
  have hsize : codeCacheSize = 104857600 := rfl
  have hd := d.isLt
  simp only [BitVec.toInt_eq_toNat_cond, BitVec.toNat_sub, toNat_ofNat_size hk]
  omega

theorem forall_encodable_iff :
    (∀ (pc : Word) (size : Nat), 0 < size → area.Contains pc size → Encodable (pc + ofNat 64 size) target) ↔
      -2 ^ 31 + codeCacheSize ≤ (target - area.start).toInt ∧ (target - area.start).toInt ≤ 2 ^ 31 := by
  refine (ExecutableArea.forall_ends_iff (p := fun endPc => Encodable endPc target)).trans ?_
  have hsub : ∀ k, target - (area.start + ofNat 64 k) = target - area.start - ofNat 64 k := fun k => by
    simp only [BitVec.sub_eq_add_neg, BitVec.neg_add, BitVec.add_assoc]
  constructor
  · intro h
    have hfirst := (toInt_sub_size (by decide)).mp (hsub 1 ▸ encodable_iff.mp (h 1 (by decide) (by decide)))
    have hlast := (toInt_sub_size Nat.le.refl).mp (hsub codeCacheSize ▸ encodable_iff.mp (h _ (by decide) Nat.le.refl))
    exact ⟨hlast.1, by omega⟩
  · rintro ⟨hlo, hhi⟩ k hk hle
    rw [encodable_iff, hsub, toInt_sub_size hle]
    omega

end Granary.Mangle
