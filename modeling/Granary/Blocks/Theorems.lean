import Granary.Blocks.Lemmas.Encode
import Granary.Blocks.Lemmas.Flags
import Granary.Blocks.Lemmas.Pgo
import Granary.Blocks.Lemmas.StringLoops

/-!
# Results about basic blocks
-/

namespace Granary.Blocks

open Machine List

/-! ## Profile-guided optimisation -/

/-- Every profile keeps where a block goes, exactly if each address it may have for it is the instruction after the branch, or
the target of a Jcc. -/
theorem preserves_iff (test : Bool) (blocks : Word → Option BlockEnd) (blockStartPc : Word) (e : BlockEnd) :
    (∀ profile, IsProfile blocks profile → Preserves test profile blockStartPc e) ↔
      ∀ value ≠ 0, (∃ e', blocks (kernelAddr (blockKey blockStartPc)) = some e' ∧ e'.Names (kernelAddr value)) →
        kernelAddr value ≠ e.nextPc → e.branch.opcode.isJcc ∧ e.branch.target = kernelAddr value := by
  constructor
  · rintro h value hne ⟨e', he', hnames⟩
    have hprofile : IsProfile blocks [⟨blockKey blockStartPc, value⟩] := isProfile_singleton he' hnames
    exact (preserves_iff_of_search (search_singleton ⟨blockKey blockStartPc, value⟩)).1 (h _ hprofile) hne
  · intro h profile hprofile
    obtain ⟨value, hsearch, hvalue⟩ := hprofile.search_names (blockKey blockStartPc)
    exact (preserves_iff_of_search hsearch).2 fun hne => h value hne (hvalue hne)

/-- A LOOP at the start of the kernel that goes back to itself. -/
def delayLoop : BlockEnd where
  branch := { opcode := .loop .loop, addr32 := false, target := 0xffffffff80000010 }
  nextPc := 0xffffffff80000012

def delayProfile : List CtiInfo := [{ key := 0x10, value := 0x10 }]

/-- The opcode of LOOP is 27 after the first of a table of 16. -/
theorem not_preserves_delayLoop :
    IsProfile (fun pc => if pc = 0xffffffff80000010 then some delayLoop else none) delayProfile ∧
      profileOptimiseJcc false delayProfile delayLoop.branch 0xffffffff80000010 delayLoop.nextPc = .error .outOfRange ∧
      ¬ Preserves false delayProfile 0xffffffff80000010 delayLoop := by
  have hsearch : search delayProfile delayProfile.length (blockKey 0xffffffff80000010) = .ok 0x10 :=
    search_singleton ⟨0x10, 0x10⟩
  refine ⟨isProfile_singleton (e := delayLoop) rfl (.inl rfl), ?_, ?_⟩
  · unfold profileOptimiseJcc
    rw [hsearch]
    rfl
  · rw [preserves_iff_of_search hsearch]
    intro h
    exact absurd (h (by decide) (by decide)).1 (by decide)

/-! ## Loop instructions -/

/-- Every run of a list is matched by a run of the translated list, through the same instructions in the same states. -/
theorem translateLoops_matches {ι ρ : Type} [DecidableEq ι] (sem : StringSemantics ρ) (ls : InstrList ι ρ) (s : CpuState ρ)
    (n : Nat) :
    ∃ m ≥ n, (loopExpansion sem false ι).Matches ls.instrs
      (((language sem ι).step ls.instrs)^[n] (.run ls.instrs s))
      (((language sem (Id ι)).step (translateLoops false ls.instrs))^[m] (.run (translateLoops false ls.instrs) s)) := by
  rw [← translate_eq sem _ ls.nodup]
  have hcorrect : (loopExpansion sem false ι).Correct ls.instrs :=
    correct_loopExpansion ls.nodup fun h => absurd h Bool.false_ne_true
  exact Code.Expansion.Matches.iterate hcorrect ls.nodup (.start (nil_append _).symm) n

/-- The same with string instructions, if nothing goes to them and each starts with its REP prefix. -/
theorem translateLoops_matches_of_repsOk {ι ρ : Type} [DecidableEq ι] (sem : StringSemantics ρ) (ls : InstrList ι ρ)
    (hreps : RepsOk sem ls.instrs) (s : CpuState ρ) (n : Nat) :
    ∃ m ≥ n, (loopExpansion sem true ι).Matches ls.instrs
      (((language sem ι).step ls.instrs)^[n] (.run ls.instrs s))
      (((language sem (Id ι)).step (translateLoops true ls.instrs))^[m] (.run (translateLoops true ls.instrs) s)) := by
  rw [← translate_eq sem _ ls.nodup]
  exact Code.Expansion.Matches.iterate (correct_loopExpansion ls.nodup fun _ => hreps) ls.nodup (.start (nil_append _).symm) n

def repMovsb : Encoding := { prefixes := [.rep], op := .movs, bytes := true }

/-- REP MOVSB alone, which nothing goes to. -/
theorem translateLoops_matches_repMovsb :
    RepsOk idle [(⟨0, .string repMovsb⟩ : Instr Nat Unit)] ∧
    ∃ m ≥ 1, (loopExpansion idle true Nat).Matches [⟨0, .string repMovsb⟩]
      (((language idle Nat).step [⟨0, .string repMovsb⟩])^[1] (.run [⟨0, .string repMovsb⟩] ⟨1, 0, ()⟩))
      (((language idle (Id Nat)).step (translateLoops true [⟨0, .string repMovsb⟩]))^[m]
        (.run (translateLoops true [⟨0, .string repMovsb⟩]) ⟨1, 0, ()⟩)) := by
  have hreps : RepsOk idle [(⟨0, .string repMovsb⟩ : Instr Nat Unit)] := by
    intro x hx e r he hr
    obtain rfl := mem_singleton.mp hx
    obtain rfl := Insn.string.inj he
    refine ⟨by decide, ?_⟩
    rintro ⟨y, hy, s, s', hexec⟩
    obtain rfl := mem_singleton.mp hy
    cases (Prod.mk.inj hexec).2
  exact ⟨hreps, translateLoops_matches_of_repsOk idle ⟨[⟨0, .string repMovsb⟩], nodup_singleton 0⟩ hreps _ 1⟩

/-- The loop does what the string instruction did, exactly if that starts with its REP prefix. -/
theorem expanded_iff (e : RepEncoding) : e.Expanded ↔ e.startsWithRep = true := by
  constructor
  · intro hexpanded
    by_contra hfirst
    rw [Bool.not_eq_true] at hfirst
    obtain ⟨r, hrep, hrep', haddr⟩ := e.decode_tail_rep hfirst
    obtain ⟨s, hs⟩ := exists_goesOn
    have hnodup : (([] ++ ⟨0, .string e.toEncoding⟩ :: [] : List (Instr Nat Unit)).map Instr.id).Nodup :=
      nodup_singleton 0
    have hplaced : Placed idle _ 0 (expand true ⟨0, .string e.toEncoding⟩) [] :=
      placed_expand idle true hnodup
    have hreaches := hexpanded Unit idle 0 [] [] hnodup s
    rw [← translate_eq idle true hnodup, hplaced.goto_trySkip hrep, append_nil] at hreaches
    exact not_reaches_expand hrep' haddr hs hrep hplaced hreaches
  · intro hfirst ρ sem i pre post hnodup s
    obtain ⟨r, hrep, htail⟩ := e.decode_tail hfirst
    have hplaced := placed_expand sem true hnodup
    have hpost : (post.map Instr.id).Nodup := by
      rw [map_append, map_cons] at hnodup
      exact hnodup.of_append_right.of_cons
    rw [← translate_eq sem true hnodup, ← translate_eq sem true hpost, hplaced.goto_trySkip hrep]
    exact .head (reaches_expand hrep htail hplaced s)

/-- REP MOVSW with the operand-size prefix first. -/
def repMovsw : Encoding := { prefixes := [.opSize, .rep], op := .movs, bytes := false }

/-- The instruction moves one word. Its loop moves doublewords with the prefix and never ends. -/
theorem not_expanded_repMovsw :
    (repMovsw.decode.exec idle ⟨1, 0, ()⟩).rcx = 0 ∧
      ∀ t, ¬ (language idle (Id Nat)).Reaches (translateLoops true [⟨0, .string repMovsw⟩])
        ((language idle (Id Nat)).goto (translateLoops true [⟨0, .string repMovsw⟩]) (.new 0 .trySkip) ⟨1, 0, ()⟩)
        (.run [] t) := by
  refine ⟨by decide, fun t => ?_⟩
  have hnodup : (([] ++ ⟨0, .string repMovsw⟩ :: [] : List (Instr Nat Unit)).map Instr.id).Nodup := nodup_singleton 0
  have hplaced : Placed idle (translateLoops true [⟨0, .string repMovsw⟩]) 0 (expand true ⟨0, .string repMovsw⟩) [] := by
    have htranslate := translate_eq idle true hnodup
    rw [nil_append] at htranslate
    rw [← htranslate]
    exact placed_expand idle true hnodup
  have hs : GoesOn repMovsw .rep ⟨1, 0, ()⟩ := ⟨by decide, by decide⟩
  rw [hplaced.goto_trySkip (r := .rep) rfl, append_nil]
  exact not_reaches_expand (r := .rep) rfl nofun hs rfl hplaced

/-! ## Dead flags -/

/-- The flags are dead wherever the search finds an instruction, exactly if that is a call, a return, an indirect jump or a
jump that does not lead to flags being read, or overwrites all arithmetic flags. -/
theorem flagsDead_iff (user : Bool) (outside : Flag → Prop) (x : FlagInstr) :
    (∀ pre rest, ((pre ++ x :: rest).map FlagInstr.id).Nodup →
      (findArithFlagsDeadAfter user (pre ++ x :: rest)).1 = some (x :: rest) →
        FlagsDead outside (pre ++ x :: rest) (x :: rest)) ↔ (x.Stops → x.Kills outside) := by
  constructor
  · intro hdead hstops
    apply kills_of_flagsDead hstops
    intro rest hnodup
    exact hdead [] rest hnodup (findFrom_cons_of_stops _ _ hstops)
  · intro hkills pre rest hnodup hfind
    have hstops := stops_of_findFrom _ _ hfind
    exact flagsDead_of_kills hnodup hstops (hkills hstops)

/-- STC, which only writes the carry flag. -/
def stc : FlagInstr where
  id := 0
  kind := .other
  eflags := 0x800
  reads _ := false
  overwrites f := f = .cf
  reads_eflags _ h := absurd h Bool.false_ne_true
  overwrites_eflags f := by cases f <;> decide
  reads_unconditional _ _ := rfl
  writes_jump h := absurd h Bool.false_ne_true

def jz : FlagInstr where
  id := 1
  kind := .cbr none
  eflags := 8
  reads f := f = .zf
  overwrites _ := false
  reads_eflags f := by cases f <;> decide
  overwrites_eflags _ h := absurd h Bool.false_ne_true
  reads_unconditional h := absurd h Bool.false_ne_true
  writes_jump h := absurd h Bool.false_ne_true

/-- An increment before the STC changes where the JZ goes. -/
theorem not_flagsDead_stc_jz :
    (findArithFlagsDeadAfter false [stc, jz]).1 = some [stc, jz] ∧
      MayRead (fun _ => False) [stc, jz] .zf [stc, jz] ∧ ¬ FlagsDead (fun _ => False) [stc, jz] [stc, jz] := by
  have hread : MayRead (fun _ => False) [stc, jz] .zf [stc, jz] := .fall rfl (.inl rfl) (.reads rfl)
  have hstops : stc.Stops := ⟨by decide, by decide⟩
  exact ⟨findFrom_cons_of_stops _ _ hstops, hread, fun hdead => hdead .zf hread⟩

/-- Whatever is done to the flags before the instruction that the search finds, every run goes on through the same
instructions with the same data, and leaves with the same flags wherever they may be read. -/
theorem flags_clobbered_sameButDead {δ : Type} (sem : FlagSemantics δ) (user : Bool) (outside : Flag → Prop)
    (pre rest : List FlagInstr) (x : FlagInstr) (hnodup : ((pre ++ x :: rest).map FlagInstr.id).Nodup)
    (hfind : (findArithFlagsDeadAfter user (pre ++ x :: rest)).1 = some (x :: rest)) (hkills : x.Kills outside) (d : δ)
    (flags flags' : FlagState) (n : Nat) :
    SameButDead outside (pre ++ x :: rest) ((sem.language.step (pre ++ x :: rest))^[n] (.run (x :: rest) (d, flags)))
      ((sem.language.step (pre ++ x :: rest))^[n] (.run (x :: rest) (d, flags'))) :=
  (flagsDead_of_kills hnodup (stops_of_findFrom _ _ hfind) hkills).iterate d flags flags' n

/-- ADD, which writes all flags. -/
def add : FlagInstr where
  id := 0
  kind := .other
  eflags := 0x8f800
  reads _ := false
  overwrites _ := true
  reads_eflags _ h := absurd h Bool.false_ne_true
  overwrites_eflags f := by cases f <;> decide
  reads_unconditional _ _ := rfl
  writes_jump h := absurd h Bool.false_ne_true

/-- One of the ways that an instruction may go. -/
def Kind.next : Kind → Code.Next Nat (Bool × Word)
  | .call | .ret | .jump .indirect => .leave (false, 0)
  | .jump (.instr i) => .goto i
  | .jump _ => .leave (true, 0)
  | _ => .fall

/-- Every written flag is cleared. -/
def clearing : FlagSemantics Unit where
  exec x s := ((s.1, fun f => !x.overwrites f && s.2 f), x.kind.next)
  mayGo x _ := by
    cases hkind : x.kind with
    | call => exact .inl hkind
    | ret => exact .inr (.inl hkind)
    | jump target => cases target <;> simp [Kind.next, FlagInstr.MayGo, hkind]
    | cbr target => exact .inr ⟨target, hkind⟩
    | other => exact .inl hkind
  data_eq _ _ _ _ _ := ⟨rfl, rfl⟩
  flag_eq x _ flags flags' f _ h := by
    change (!x.overwrites f && flags f) = (!x.overwrites f && flags' f)
    obtain h | h := h
    · rw [h, Bool.not_true, Bool.false_and, Bool.false_and]
    · rw [h]

theorem flags_clobbered_sameButDead_add_jz :
    (findArithFlagsDeadAfter false [add, jz]).1 = some [add, jz] ∧
      SameButDead (fun _ => False) [add, jz]
        ((clearing.language.step [add, jz])^[2] (.run [add, jz] ((), fun _ => false)))
        ((clearing.language.step [add, jz])^[2] (.run [add, jz] ((), fun _ => true))) :=
  ⟨rfl, flags_clobbered_sameButDead clearing false _ [] [jz] add (by decide) rfl (fun _ => rfl) () _ _ 2⟩

/-! ## Encoding -/

/-- A trace and its stubs are encoded without gaps, and every branch to one of their instructions has the displacement to
where that instruction is in the end. -/
theorem encodeTrace_resolves {α ι : Type} [DecidableEq ι] {E : Encoder α ι} (test : Bool) (p : Encoder.TracePair E)
    (startPc stubPc : Nat) (s : EncodeState ι) (hfresh : p.Fresh startPc stubPc s.mem) :
    ∃ s', E.encodeTrace test p.trace p.stubs startPc stubPc s =
        .ok (s', startPc + E.encodedSize p.trace, stubPc + E.encodedSize p.stubs) ∧
      p.Resolved startPc stubPc s'.mem := by
  obtain ⟨s', hencode, htrace, hstubs⟩ := p.encodeTrace_spec test s hfresh
  exact ⟨s', hencode, p.resolved_of_encoded htrace hstubs⟩

/-- Labels and jumps. -/
inductive JumpCode where
  | label (i : Nat)
  | jmp (i target : Nat)

def jumpEncoder : Encoder JumpCode Nat where
  id
    | .label i => i
    | .jmp i _ => i
  target
    | .label _ => none
    | .jmp _ t => some t
  size
    | .label _ => 0
    | .jmp _ _ => 5
  plain
    | .label _, _ => []
    | .jmp _ _, _ => List.replicate 5 0x90
  branch x displacement :=
    match x with
    | .label _ => none
    | .jmp _ _ => some (0xe9 :: (List.range 4).map fun i => (BitVec.ofInt 32 displacement).extractLsb' (8 * i) 8)
  plain_length x _ := by cases x <;> simp
  branch_length x _ _ h := by cases x <;> simp at h; simp [← h]
  branch_self x h := by cases x <;> simp at h ⊢
  size_pos x h := by cases x <;> simp at h ⊢

def detour : Encoder.TracePair jumpEncoder where
  trace := [.jmp 0 2, .label 1]
  stubs := [.label 2, .jmp 3 1]
  nodup := by decide
  targets x hx t ht := by
    simp only [List.cons_append, List.nil_append, List.mem_cons, List.not_mem_nil, or_false] at hx
    obtain rfl | rfl | rfl | rfl := hx <;> cases ht <;> decide
  stub_branches _ := ⟨.jmp 3 1, by simp, nofun⟩

theorem encodeTrace_resolves_detour :
    ∃ s', jumpEncoder.encodeTrace true detour.trace detour.stubs 0x1000 0x2000 { note := fun _ => 0, mem := fun _ => 0xcc } =
        .ok (s', 0x1005, 0x2005) ∧ detour.Resolved 0x1000 0x2000 s'.mem :=
  encodeTrace_resolves true detour 0x1000 0x2000 _ ⟨fun _ _ _ => rfl, fun _ _ _ => rfl, .inl (by decide)⟩

end Granary.Blocks
