import Granary.Blocks.Flags

/-!
# Dead flags
-/

namespace Granary.Blocks

open Machine List

variable {outside : Flag → Prop} {ls rest pre : List FlagInstr} {x : FlagInstr} {f : Flag}

/-! ## The search -/

theorem FlagInstr.reads_eq_false (h : x.eflags &&& eflagsReadAll = 0) (f : Flag) : x.reads f = false := by
  by_contra hreads
  have hbit := x.reads_eflags f (Bool.not_eq_false _ ▸ hreads)
  have hmask : eflagsReadAll.getLsbD f.bit = true := by cases f <;> rfl
  have hand : (x.eflags &&& eflagsReadAll).getLsbD f.bit = true := by
    rw [BitVec.getLsbD_and, hbit, hmask]
    rfl
  rw [h] at hand
  simp at hand

theorem findFrom_cons_of_stops (user redzoneSafe : Bool) (h : x.Stops) :
    (findFrom user redzoneSafe (x :: rest)).1 = some (x :: rest) := by
  unfold FlagInstr.Stops at h
  unfold findFrom
  cases hkind : x.kind with
  | call | ret => simp
  | jump target =>
    rw [hkind] at h
    simp [Kind.isJump, h]
  | cbr target =>
    rw [hkind] at h
    cases h
  | other =>
    rw [hkind] at h
    have hflags : ¬ (x.eflags &&& eflagsWriteAll = 0 ∨ x.eflags &&& eflagsReadAll ≠ 0) := by
      rintro (hwrites | hreads)
      · exact h.1 hwrites
      · exact hreads h.2
    simp only [Kind.isJump, reduceCtorEq, false_or, if_false, Bool.false_eq_true, false_and, hflags]

theorem stops_of_findFrom (user redzoneSafe : Bool) (h : (findFrom user redzoneSafe ls).1 = some (x :: rest)) : x.Stops := by
  fun_induction findFrom user redzoneSafe ls with
  | case1 => cases h
  | case2 y ls hcall =>
    cases h
    obtain hkind | hkind := hcall <;> simp [FlagInstr.Stops, hkind]
  | case3 y ls hcall hjump =>
    cases h
    cases hkind : x.kind with
    | jump target =>
      rw [hkind] at hjump
      simp only [FlagInstr.Stops, hkind]
      exact fun htarget => hjump.2 (htarget ▸ rfl)
    | call | ret | cbr | other =>
      rw [hkind] at hjump
      cases hjump.1
  | case4 => cases h
  | case5 y ls hcall hjump hflags hcbr ih => exact ih h
  | case6 y ls hcall hjump hflags hcbr =>
    cases h
    cases hkind : x.kind with
    | call => exact absurd (.inl hkind) hcall
    | ret => exact absurd (.inr hkind) hcall
    | jump target =>
      have hwrites := x.writes_jump (hkind ▸ rfl)
      exact absurd (Or.inl hwrites) hflags
    | cbr target => exact (hcbr target hkind).elim
    | other =>
      simp only [FlagInstr.Stops, hkind]
      rw [not_or, ne_eq, not_not] at hflags
      exact hflags

/-! ## Dead flags -/

theorem FlagInstr.overwrites_eq_false (h : x.eflags &&& eflagsWriteAll = 0) (f : Flag) : x.overwrites f = false := by
  by_contra hwrites
  have hbit := x.overwrites_eflags f (Bool.not_eq_false _ ▸ hwrites)
  have hmask : eflagsWriteAll.getLsbD (f.bit + 11) = true := by cases f <;> rfl
  have hand : (x.eflags &&& eflagsWriteAll).getLsbD (f.bit + 11) = true := by
    rw [BitVec.getLsbD_and, hbit, hmask]
    rfl
  rw [h] at hand
  simp at hand

theorem FlagInstr.Stops.reads_eq_false (h : x.Stops) (f : Flag) : x.reads f = false := by
  cases hkind : x.kind with
  | call | ret | jump => exact x.reads_unconditional (by rw [hkind]; rfl) f
  | cbr =>
    simp only [FlagInstr.Stops, hkind] at h
  | other =>
    simp only [FlagInstr.Stops, hkind] at h
    exact FlagInstr.reads_eq_false h.2 f

theorem findInstr_append (hnodup : ((pre ++ x :: rest).map FlagInstr.id).Nodup) :
    findInstr x.id (pre ++ x :: rest) = some (x :: rest) := by
  induction pre with
  | nil => exact if_pos rfl
  | cons y pre ih =>
    rw [cons_append, map_cons, nodup_cons] at hnodup
    have hne : y.id ≠ x.id := by
      intro h
      apply hnodup.1
      rw [h]
      exact mem_map_of_mem (mem_append_right pre mem_cons_self)
    rw [cons_append, findInstr, if_neg hne, ih hnodup.2]

theorem flagsDead_of_kills (hnodup : ((pre ++ x :: rest).map FlagInstr.id).Nodup) (hstops : x.Stops)
    (hkills : x.Kills outside) : FlagsDead outside (pre ++ x :: rest) (x :: rest) := by
  intro f
  -- By induction on the path, which comes back to a jump to itself.
  suffices hpath : ∀ l, MayRead outside (pre ++ x :: rest) f l → l ≠ x :: rest from fun h => hpath _ h rfl
  intro l h hl
  induction h with
  | nil => cases hl
  | reads hreads =>
    cases hl
    rw [hstops.reads_eq_false f] at hreads
    cases hreads
  | fall hkeeps hgo =>
    cases hl
    obtain hkind | ⟨target, hkind⟩ := hgo
    · simp only [FlagInstr.Kills, hkind] at hkills
      rw [hkills f] at hkeeps
      cases hkeeps
    · simp only [FlagInstr.Stops, hkind] at hstops
  | goto hkeeps hgo hfind _ ih =>
    cases hl
    obtain hkind | hkind := hgo
    · simp only [FlagInstr.Kills, hkind] at hkills
      rw [hkills, findInstr_append hnodup] at hfind
      exact ih (Option.some.inj hfind).symm
    · simp only [FlagInstr.Stops, hkind] at hstops
  | missing hkeeps hgo hfind =>
    cases hl
    obtain hkind | hkind := hgo
    · simp only [FlagInstr.Kills, hkind] at hkills
      rw [hkills, findInstr_append hnodup] at hfind
      cases hfind
    · simp only [FlagInstr.Stops, hkind] at hstops
  | leave hkeeps hgo houtside =>
    cases hl
    obtain hkind | hkind | hkind := hgo
    · simp only [FlagInstr.Stops, hkind] at hstops
      exact hstops rfl
    · simp only [FlagInstr.Kills, hkind] at hkills
      exact hkills f houtside
    · simp only [FlagInstr.Stops, hkind] at hstops

def reader (i : Nat) (f : Flag) : FlagInstr where
  id := i
  kind := .other
  eflags := eflagsReadAll
  reads f' := f' = f
  overwrites _ := false
  reads_eflags f' _ := by cases f' <;> rfl
  overwrites_eflags _ h := absurd h Bool.false_ne_true
  reads_unconditional h := absurd h Bool.false_ne_true
  writes_jump h := absurd h Bool.false_ne_true

theorem reader_reads (i : Nat) : (reader i f).reads f = true := decide_eq_true rfl

/-- If no flag lives through the instruction whatever comes after it, it kills them. -/
theorem kills_of_flagsDead (hstops : x.Stops)
    (hdead : ∀ rest, ((x :: rest).map FlagInstr.id).Nodup → FlagsDead outside (x :: rest) (x :: rest)) : x.Kills outside := by
  have hpair : ∀ i ≠ x.id, ∀ f, ((x :: [reader i f]).map FlagInstr.id).Nodup := by
    intro i hi f
    simp [reader, Ne.symm hi]
  unfold FlagInstr.Kills
  cases hkind : x.kind with
  | call | ret => trivial
  | jump target =>
    have hkeeps := FlagInstr.overwrites_eq_false (x.writes_jump (by rw [hkind]; rfl))
    cases target with
    | indirect => trivial
    | pc =>
      simp only [FlagInstr.Stops, hkind] at hstops
      exact absurd rfl hstops
    | farPc =>
      intro f hf
      have hgo : x.MayGo (.leave (true, (0 : Word))) := .inr (.inl hkind)
      exact hdead [] (nodup_singleton _) f (.leave (hkeeps f) hgo hf)
    | instr i =>
      by_contra hi
      have hfind : findInstr i [x, reader i .cf] = some [reader i .cf] := by
        rw [findInstr, if_neg (Ne.symm hi)]
        exact if_pos rfl
      exact hdead _ (hpair i hi .cf) .cf (.goto (hkeeps .cf) (.inl hkind) hfind (.reads (reader_reads i)))
  | cbr target => simp only [FlagInstr.Stops, hkind] at hstops
  | other =>
    intro f
    by_contra hf
    have hne : x.id + 1 ≠ x.id := Nat.succ_ne_self x.id
    exact hdead _ (hpair _ hne f) f (.fall (Bool.not_eq_true _ ▸ hf) (.inl hkind) (.reads (reader_reads _)))

/-! ## Runs -/

section Runs

variable {δ : Type} {sem : FlagSemantics δ} {c c' : Code.Config FlagInstr Nat (δ × FlagState) (Bool × Word)}

theorem find_language (i : Nat) : sem.language.find i ls = findInstr i ls := by
  induction ls with
  | nil => rfl
  | cons x ls ih =>
    rw [Code.Language.find, findInstr, ih]
    rfl

theorem SameButDead.step (h : SameButDead outside ls c c') :
    SameButDead outside ls (sem.language.step ls c) (sem.language.step ls c') := by
  cases h with
  | left h => exact .left h
  | missing h => exact .missing h
  | @run rest d flags flags' h =>
    cases rest with
    | nil => exact .run h
    | cons x rest =>
      have hreads : ∀ f, x.reads f = true → flags f = flags' f := fun f hf => h f (.reads hf)
      obtain ⟨hdata, hnext⟩ := sem.data_eq x d flags flags' hreads
      have hgo := sem.mayGo x (d, flags)
      -- A flag that may be read after the instruction is written by it, or may be read before it.
      have hflag : ∀ f, (x.overwrites f = false → MayRead outside ls f (x :: rest)) →
          (sem.exec x (d, flags)).1.2 f = (sem.exec x (d, flags')).1.2 f := by
        intro f hf
        apply sem.flag_eq x d flags flags' f hreads
        cases hoverwrites : x.overwrites f with
        | true => exact .inl rfl
        | false => exact .inr (h f (hf hoverwrites))
      rw [Code.Language.step_cons, Code.Language.step_cons]
      change SameButDead outside ls (sem.language.resume ls rest (sem.exec x (d, flags)))
        (sem.language.resume ls rest (sem.exec x (d, flags')))
      generalize sem.exec x (d, flags) = r at hdata hnext hgo hflag ⊢
      generalize sem.exec x (d, flags') = r' at hdata hnext hflag ⊢
      obtain ⟨⟨e, fl⟩, next⟩ := r
      obtain ⟨⟨e', fl'⟩, next'⟩ := r'
      cases hdata
      cases hnext
      cases next with
      | fall => exact .run fun f hf => hflag f fun hkeeps => .fall hkeeps hgo hf
      | goto i =>
        rw [Code.Language.resume_goto, Code.Language.resume_goto, Code.Language.goto, Code.Language.goto, find_language]
        cases hfind : findInstr i ls with
        | none => exact .missing fun f hf => hflag f fun hkeeps => .missing hkeeps hgo hfind hf
        | some rest' => exact .run fun f hf => hflag f fun hkeeps => .goto hkeeps hgo hfind hf
      | leave out =>
        obtain ⟨keeps, pc⟩ := out
        refine .left ?_
        rintro rfl f hf
        exact hflag f fun hkeeps => .leave hkeeps hgo hf

theorem FlagsDead.iterate (h : FlagsDead outside ls rest) (d : δ) (flags flags' : FlagState) (n : Nat) :
    SameButDead outside ls ((sem.language.step ls)^[n] (.run rest (d, flags)))
      ((sem.language.step ls)^[n] (.run rest (d, flags'))) := by
  have hrun : SameButDead outside ls (.run rest (d, flags)) (.run rest (d, flags')) := .run fun f hf => absurd hf (h f)
  induction n with
  | zero => exact hrun
  | succ n ih =>
    rw [Function.iterate_succ_apply', Function.iterate_succ_apply']
    exact ih.step

end Runs

end Granary.Blocks
