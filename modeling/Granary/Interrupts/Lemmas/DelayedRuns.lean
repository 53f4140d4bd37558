import Granary.Interrupts.Lemmas.DelayedCopy

/-!
# Copies of delay regions: runs
-/

namespace Granary.Interrupts

open Code

attribute [local simp] CopyIns.redirect Language.step Machine.State.top Next.map copyLanguage
  regionLanguage

section Runs

variable {ι : Type} (o : Outcomes ι) (ip : Nat)

def CopyId.owner : CopyId → Nat
  | .delayIn => ip
  | .part pc _ => pc

theorem owner_of_mem_copyPiece {x : RegionIns ι} {y : CopyIns ι} (hy : y ∈ copyPiece ip x) : y.id.owner ip = x.pc := by
  obtain hy | hy := List.mem_append.1 hy
  · obtain ⟨rfl, rfl⟩ := mem_delayIn hy
    rfl
  · rw [mangleDelayedInstruction] at hy
    split at hy <;> simp only [List.mem_cons, List.not_mem_nil, or_false] at hy
    case h_3 => obtain rfl | rfl | rfl | rfl | rfl | rfl := hy <;> rfl
    all_goals
      subst hy
      rfl

theorem owner_of_mem_redirected (x : RegionIns ι) (y : CopyIns ι) (hy : y ∈ (copyPiece ip x).map CopyIns.redirect) :
    y.id.owner ip = x.pc := by
  obtain ⟨z, hz, rfl⟩ := List.mem_map.1 hy
  rw [CopyIns.redirect_id]
  exact owner_of_mem_copyPiece ip hz

def copyExpansion : Expansion (regionLanguage o) (copyLanguage o) where
  old pc := .part pc 0
  owner := CopyId.owner ip
  expand x := (copyPiece ip x).map CopyIns.redirect
  owner_old _ := rfl
  owner_expand := owner_of_mem_redirected ip

variable {o ip} {r : Region ι} {code post : List (RegionIns ι)} {x : RegionIns ι} {n : Nat}

theorem translate_copy (h : ∀ y ∈ (code.flatMap (copyPiece ip)).drop n, ¬ y.Escapes) :
    ((code.flatMap (copyPiece ip)).take n).map CopyIns.redirect ++ (code.flatMap (copyPiece ip)).drop n =
      (copyExpansion o ip).translate code := by
  have hdrop : ((code.flatMap (copyPiece ip)).drop n).map CopyIns.redirect = (code.flatMap (copyPiece ip)).drop n :=
    (List.map_congr_left fun y hy => CopyIns.redirect_of_not_escapes (h y hy)).trans (List.map_id' _)
  rw [← hdrop, ← List.map_append, List.take_append_drop, List.map_flatMap]
  rfl

/-! ## The pieces -/

theorem delayIn_redirect (pc : Nat) : (delayIn ip pc : List (CopyIns ι)).map CopyIns.redirect = delayIn ip pc := by
  rw [delayIn]
  split <;> rfl

theorem does_mangled : (copyExpansion o ip).Does code x post ((mangleDelayedInstruction x).map CopyIns.redirect) := by
  intro s
  rw [mangleDelayedInstruction]
  cases hop : x.op with
  | popf =>
    -- the label and the masking, up to the instruction itself
    refine ⟨5, ?_⟩
    simp [hop, Language.resume]
  | branch i target =>
    refine ⟨0, ?_⟩
    cases htaken : o.taken s.done i <;>
      simp [hop, RegionOp.toCopy, htaken, CopyTarget.next, copyExpansion]
  | plain i | cli | sti | away i =>
    refine ⟨0, ?_⟩
    simp [hop, RegionOp.toCopy]

theorem does_copyPiece : (copyExpansion o ip).Does code x post ((copyPiece ip x).map CopyIns.redirect) := by
  intro s
  rw [copyPiece, List.map_append, delayIn_redirect, delayIn]
  split
  case isTrue => exact .head (does_mangled s)
  case isFalse => exact does_mangled s

theorem find_copyPiece :
    (copyLanguage o).find (.part x.pc 0) ((copyPiece ip x).map CopyIns.redirect) =
      some ((mangleDelayedInstruction x).map CopyIns.redirect) := by
  rw [copyPiece, List.map_append, delayIn_redirect, Language.find_append_of_forall_ne]
  · rw [mangleDelayedInstruction]
    split <;> exact if_pos (CopyIns.redirect_id)
  · intro y hy
    rw [(mem_delayIn hy).2]
    exact CopyId.noConfusion

theorem copyExpansion_correct : (copyExpansion o ip).Correct code where
  start _ _ _ _ := does_copyPiece
  entry _ _ _ _ _ := ⟨_, find_copyPiece, does_mangled⟩

/-! ## Runs of the region -/

def Kept (code : List (RegionIns ι)) : Config (RegionIns ι) Nat (RegionState ι) (RegionExit ι) → Prop
  | .run rest s => rest <:+ code ∧ s.interrupts = false
  | .left _ s => s.interrupts = false
  | .missing .. => False

theorem kept_goto {target : Nat} (htarget : target ∈ code.map RegionIns.pc) {s : RegionState ι} (hs : s.interrupts = false) :
    Kept code ((regionLanguage o).goto code target s) := by
  cases hfind : (regionLanguage o).find target code with
  | none =>
    obtain ⟨x, hx, hxt⟩ := List.mem_map.1 htarget
    exact absurd hxt (Language.find_eq_none.1 hfind x hx)
  | some rest =>
    obtain ⟨pre, x, post, hcode, rfl, -⟩ := Language.find_eq_some hfind
    rw [Language.goto_of_find hfind]
    exact ⟨⟨pre, hcode.symm⟩, hs⟩

theorem Region.Contained.kept_step (h : r.Contained) (c : Config (RegionIns ι) Nat (RegionState ι) (RegionExit ι))
    (hc : Kept r.code c) : Kept r.code ((regionLanguage o).step r.code c) := by
  match c, hc with
  | .run [] _, hc => exact hc
  | .left .., hc => exact hc
  | .run (x :: rest) s, ⟨hsuffix, hs⟩ =>
    have hrest : rest <:+ r.code := (List.suffix_cons x rest).trans hsuffix
    rw [Language.step_cons, regionLanguage]
    cases hop : x.op with
    | branch i target =>
      cases htaken : o.taken s.done i with
      | true =>
        simp only [hop, htaken]
        exact kept_goto (h x (hsuffix.subset List.mem_cons_self) i target hop) hs
      | false =>
        simp only [hop, htaken]
        exact ⟨hrest, hs⟩
    | popf =>
      simp only [hop]
      exact ⟨hrest, rfl⟩
    | away i =>
      simp only [hop]
      exact hs
    | plain i | cli | sti =>
      simp only [hop]
      exact ⟨hrest, hs⟩

theorem copyPiece_ne_nil : copyPiece ip x ≠ [] := by
  obtain ⟨y, hy, -⟩ := exists_mem_copyPiece
  exact List.ne_nil_of_mem hy

theorem translate_eq_nil {rest : List (RegionIns ι)} : rest = [] ↔ (copyExpansion o ip).translate rest = [] := by
  cases rest with
  | nil => simp [Expansion.translate]
  | cons x rest => simp [Expansion.translate, copyExpansion, copyPiece_ne_nil]

theorem sameProgress_of_matches {c : Config (RegionIns ι) Nat (RegionState ι) (RegionExit ι)}
    {d : Config (CopyIns ι) CopyId (RegionState ι) (RegionExit ι)} (hkept : Kept code c)
    (h : (copyExpansion o ip).Matches code c d) : SameProgress c d := by
  cases h with
  | start => exact .run translate_eq_nil hkept.2
  | entry hcode htarget hpiece =>
    obtain ⟨_, _, _, _, hrest, -⟩ := Language.find_eq_some hpiece
    refine .run ?_ hkept.2
    simp [hrest]
  | left => exact .left hkept
  | missing => exact hkept.elim

theorem resumes_translate (h : r.Contained) (hip : ip ∈ r.pcs) (copy : List (CopyIns ι))
    (hcopy : ∀ o : Outcomes ι, copy = (copyExpansion o ip).translate r.code) : Resumes ip r.code copy := by
  intro o done n
  rw [hcopy o]
  have hstart : Kept r.code ((regionLanguage o).goto r.code ip ⟨done, false, false⟩) := kept_goto hip rfl
  have hkept := Language.Reaches.invariant (h.kept_step (o := o)) ⟨n, rfl⟩ hstart
  have hmatch : (copyExpansion o ip).Matches r.code ((regionLanguage o).goto r.code ip ⟨done, false, false⟩)
      ((copyLanguage o).goto ((copyExpansion o ip).translate r.code) .delayIn ⟨done, false, false⟩) := by
    cases hfind : (regionLanguage o).find ip r.code with
    | none =>
      rw [Language.goto, hfind] at hstart
      exact hstart.elim
    | some rest =>
      obtain ⟨pre, x, post, hcode, rfl, hx⟩ := Language.find_eq_some hfind
      have hnodup := r.nodup
      have hpiece : (copyLanguage o).find .delayIn ((copyExpansion o ip).expand x) = some ((copyExpansion o ip).expand x) := by
        have hxip : ip = x.pc := hx.symm
        simp [copyExpansion, copyPiece, delayIn, hxip, Language.find]
      have howner : (copyExpansion o ip).owner .delayIn = (regionLanguage o).id x := hx.symm
      have hgoto := Expansion.goto_translate (hcode ▸ hnodup) howner hpiece ⟨done, false, false⟩
      rw [Language.goto_of_find hfind, hcode, hgoto, ← Expansion.translate_cons]
      exact .start rfl
  obtain ⟨m, hm, hmatch⟩ := hmatch.iterate (copyExpansion_correct) r.nodup n
  exact ⟨m, hm, sameProgress_of_matches hkept hmatch⟩

end Runs

/-! ## The flags that are popped -/

theorem maskedPopf_eq (alu : Machine.Instr → Machine.State → Machine.Word) (andFlags : Machine.Word) (s : Machine.State) :
    maskedPopf alu andFlags s =
      { Machine.exec alu .popf s with
        flags := Machine.clearIf s.top
        mem := (s.mem.write (s.reg .rsp - 8) (s.reg .rax)).write (s.reg .rsp) (Machine.clearIf s.top) } := by
  have hflags : (s.mem.write (s.reg .rsp - 8#64) (s.reg .rax)).read (s.reg .rsp) = s.mem.read (s.reg .rsp) :=
    Machine.read_add_write ..
  have hrax : ∀ v, ((s.mem.write (s.reg .rsp - 8#64) (s.reg .rax)).write (s.reg .rsp) v).read (s.reg .rsp - 8#64) = s.reg .rax :=
    fun v => by rw [Machine.read_sub_write, Machine.read_write_self]
  simp only [maskedPopf, Machine.run_cons, Machine.run_nil, Machine.exec, Machine.State.mk.injEq]
  refine ⟨?_, ?_, rfl, ?_⟩
  · funext q
    cases q <;> simp [hrax]
  · simp [Machine.clearIf, hflags]
  · simp [Machine.clearIf, hflags]

end Granary.Interrupts
