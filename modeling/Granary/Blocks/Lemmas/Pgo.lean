import Granary.Blocks.Pgo

/-!
# Profiles and reversed branches
-/

namespace Granary.Blocks

open Machine

variable {value : BitVec 32} {α : Type} {index : Int}

/-! ## The search -/

theorem arrayGet_eq_ok {array : List α} {a : α} :
    arrayGet array index = .ok a ↔ 0 ≤ index ∧ array[index.toNat]? = some a := by
  unfold arrayGet
  split
  case isTrue h =>
    cases array[index.toNat]? <;> simp [h]
  case isFalse h => simp [h]

theorem arrayGet_of_mem_range {array : List α} (hnonneg : 0 ≤ index)
    (hlt : index < array.length) : ∃ a ∈ array, arrayGet array index = .ok a := by
  have h : index.toNat < array.length := by omega
  exact ⟨array[index.toNat], List.getElem_mem h, arrayGet_eq_ok.2 ⟨hnonneg, List.getElem?_eq_getElem h⟩⟩

theorem searchFrom_sound (array : List CtiInfo) (searchKey : BitVec 32) (first last : Int) (hfirst : 0 ≤ first)
    (hlast : last < array.length) :
    ∃ value, searchFrom array searchKey first last = .ok value ∧
      (value = 0 ∨ ∃ info ∈ array, info.key = searchKey ∧ info.value = value) := by
  fun_induction searchFrom array searchKey first last with
  | case1 first last middle h e hget =>
    have hrange : 0 ≤ middle ∧ middle < array.length := by omega
    obtain ⟨a, _, ha⟩ := arrayGet_of_mem_range hrange.1 hrange.2
    rw [ha] at hget
    cases hget
  | case2 first last middle h info hget hkey =>
    have hmem : info ∈ array := List.mem_of_getElem? (arrayGet_eq_ok.1 hget).2
    exact ⟨info.value, rfl, .inr ⟨info, hmem, hkey, rfl⟩⟩
  | case3 first last middle h info hget hkey hlt ih => exact ih (by omega) hlast
  | case4 first last middle h info hget hkey hlt ih => exact ih hfirst (by omega)
  | case5 first last middle h => exact ⟨0, rfl, .inl rfl⟩

theorem search_sound (searchKey : BitVec 32) :
    ∃ value, search profile profile.length searchKey = .ok value ∧
      (value = 0 ∨ ∃ info ∈ profile, info.key = searchKey ∧ info.value = value) :=
  searchFrom_sound profile searchKey 0 _ (Int.le_refl 0) (by omega)

theorem search_singleton (info : CtiInfo) : search [info] ([info] : List CtiInfo).length info.key = .ok info.value := by
  have hget : arrayGet [info] 0 = .ok info := rfl
  rw [search, searchFrom]
  simp [hget]

/-! ## Reversed opcodes -/

theorem Cond.exists_holds (c : Cond) : ∃ flags, c.holds flags = true := by
  cases c
  case o => exact ⟨0x800, rfl⟩
  case b => exact ⟨1, rfl⟩
  case z => exact ⟨0x40, rfl⟩
  case be => exact ⟨1, rfl⟩
  case s => exact ⟨0x80, rfl⟩
  case p => exact ⟨4, rfl⟩
  case l => exact ⟨0x80, rfl⟩
  case le => exact ⟨0x40, rfl⟩
  all_goals exact ⟨0, rfl⟩

def Cond.negate : Cond → Cond
  | o => no
  | no => o
  | b => nb
  | nb => b
  | z => nz
  | nz => z
  | be => nbe
  | nbe => be
  | s => ns
  | ns => s
  | p => np
  | np => p
  | l => nl
  | nl => l
  | le => nle
  | nle => le

theorem Cond.negate_holds (flags : Word) (c : Cond) : c.negate.holds flags = !c.holds flags := by
  cases c <;> simp [negate, holds, bne]

theorem reverse_jcc (c : Cond) : (CondOpcode.jcc c).reverse = .ok (.jcc c.negate) := by
  cases c <;> rfl

theorem reverse_jccShort (c : Cond) : (CondOpcode.jccShort c).reverse = .ok (.jccShort c.negate) := by
  cases c <;> rfl

theorem reverse_loop (kind : LoopKind) : (CondOpcode.loop kind).reverse = .error .outOfRange := by
  cases kind <;> rfl

theorem reverse_of_isJcc {opcode : CondOpcode} (h : opcode.isJcc) :
    ∃ reversed, opcode.reverse = .ok reversed ∧
      ∀ (addr32 : Bool) (target target' : Word) (s : CpuState Unit),
        Branch.exec ⟨reversed, addr32, target'⟩ s = (s, !(Branch.exec ⟨opcode, addr32, target⟩ s).2) ∧
          (Branch.exec ⟨opcode, addr32, target⟩ s).1 = s := by
  cases opcode with
  | jccShort c =>
    exact ⟨.jccShort c.negate, reverse_jccShort c, fun _ _ _ s => ⟨by simp [Branch.exec, Cond.negate_holds], rfl⟩⟩
  | jcc c => exact ⟨.jcc c.negate, reverse_jcc c, fun _ _ _ s => ⟨by simp [Branch.exec, Cond.negate_holds], rfl⟩⟩
  | loop kind => cases h

theorem exists_taken {b : Branch} (h : b.opcode.isJcc) : ∃ s : CpuState Unit, (b.exec s).2 = true := by
  obtain ⟨opcode, addr32, target⟩ := b
  cases opcode with
  | jccShort c | jcc c =>
    obtain ⟨flags, hflags⟩ := c.exists_holds
    exact ⟨⟨0, flags, ()⟩, hflags⟩
  | loop kind => cases h

theorem goes_reversed {b : Branch} {reversed : CondOpcode} {nextPc : Word}
    (hrev : ∀ (addr32 : Bool) (target target' : Word) (s : CpuState Unit),
      Branch.exec ⟨reversed, addr32, target'⟩ s = (s, !(Branch.exec ⟨b.opcode, addr32, target⟩ s).2) ∧
        (Branch.exec ⟨b.opcode, addr32, target⟩ s).1 = s) (fallThrough : Word) (s : CpuState Unit) :
    Branch.goes { b with target := nextPc, opcode := reversed } fallThrough s =
      ((b.exec s).1, if (b.exec s).2 then fallThrough else nextPc) := by
  obtain ⟨hexec, hstate⟩ := hrev b.addr32 b.target nextPc s
  unfold Branch.goes
  rw [hexec]
  cases h : (b.exec s).2 with
  | true => simp [hstate]
  | false => simp [hstate]

/-! ## Profiles -/

theorem kernelAddr_eq_base : linuxKernelBase = kernelAddr value ↔ value = 0 := by
  unfold kernelAddr linuxKernelBase
  constructor
  · intro h
    bv_omega
  · rintro rfl
    rfl

variable {blocks : Word → Option BlockEnd} {profile : List CtiInfo} {test : Bool} {blockStartPc : Word} {e : BlockEnd}

theorem IsProfile.search_names (h : IsProfile blocks profile) (searchKey : BitVec 32) :
    ∃ value, search profile profile.length searchKey = .ok value ∧
      (value ≠ 0 → ∃ e, blocks (kernelAddr searchKey) = some e ∧ e.Names (kernelAddr value)) := by
  obtain ⟨value, hsearch, hvalue⟩ := search_sound searchKey
  refine ⟨value, hsearch, fun hne => ?_⟩
  obtain rfl | ⟨info, hmem, rfl, rfl⟩ := hvalue
  · exact absurd rfl hne
  · exact h.names info hmem

theorem isProfile_singleton {info : CtiInfo} (he : blocks (kernelAddr info.key) = some e)
    (hnames : e.Names (kernelAddr info.value)) : IsProfile blocks [info] where
  sorted := List.pairwise_singleton _ _
  names := by
    rintro info' hmem
    obtain rfl := List.mem_singleton.1 hmem
    exact ⟨e, he, hnames⟩

theorem preserves_iff_of_search (hsearch : search profile profile.length (blockKey blockStartPc) = .ok value) :
    Preserves test profile blockStartPc e ↔
      value ≠ 0 → kernelAddr value ≠ e.nextPc → e.branch.opcode.isJcc ∧ e.branch.target = kernelAddr value := by
  unfold Preserves profileOptimiseJcc
  rw [hsearch]
  by_cases hzero : value = 0
  · simp only [kernelAddr_eq_base.2 hzero, if_true, hzero, ne_eq, not_true_eq_false, false_implies, iff_true]
    exact ⟨_, _, rfl, fun _ => rfl⟩
  by_cases hnext : kernelAddr value = e.nextPc
  · simp only [hnext, if_true, ite_self, ne_eq, not_true_eq_false, false_implies, implies_true, iff_true]
    exact ⟨_, _, rfl, fun _ => rfl⟩
  have hbase : linuxKernelBase ≠ kernelAddr value := fun h => hzero (kernelAddr_eq_base.1 h)
  simp only [hbase, hnext, if_false, hzero, ne_eq, not_false_eq_true, forall_const]
  cases hjcc : e.branch.opcode.isJcc with
  | false =>
    obtain ⟨kind, hkind⟩ : ∃ kind, e.branch.opcode = .loop kind := by
      cases h : e.branch.opcode with
      | loop kind => exact ⟨kind, rfl⟩
      | jcc c | jccShort c =>
        rw [h] at hjcc
        cases hjcc
    rw [hkind, reverse_loop]
    split <;> simp
  | true =>
    obtain ⟨reversed, hreverse, hrev⟩ := reverse_of_isJcc hjcc
    rw [hreverse]
    by_cases htarget : e.branch.target = kernelAddr value
    · simp only [htarget, not_true_eq_false, and_false, if_false, and_self, iff_true]
      refine ⟨_, _, rfl, fun s => ?_⟩
      rw [goes_reversed hrev, ← htarget]
      rfl
    · simp only [htarget, and_false, iff_false]
      rintro ⟨b, fallThrough, hok, hgoes⟩
      split at hok
      · cases hok
      · cases hok
        obtain ⟨s, hs⟩ := exists_taken hjcc
        have := hgoes s
        rw [goes_reversed hrev] at this
        simp only [Branch.goes, hs, if_true, Prod.mk.injEq, true_and] at this
        exact htarget this.symm

end Granary.Blocks
