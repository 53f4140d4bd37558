import Granary.Blocks.Encode

/-!
# Encoded lists
-/

namespace Granary.Blocks

open List Option Function Nat

variable {mem mem' : Nat → Byte} {pc a : Nat} {bytes : List Byte}

/-! ## Bytes -/

theorem writeBytes_of_outside (h : a < pc ∨ pc + bytes.length ≤ a) : writeBytes mem pc bytes a = mem a := by
  unfold writeBytes
  split
  case isTrue hle =>
    have hlength : bytes.length ≤ a - pc := by omega
    rw [getElem?_eq_none hlength]
    rfl
  case isFalse => rfl

namespace Encoder

theorem holds_writeBytes (mem : Nat → Byte) (pc : Nat) (bytes : List Byte) : Holds (writeBytes mem pc bytes) pc bytes := by
  intro i b hb
  rw [writeBytes, if_pos (Nat.le_add_right pc i), Nat.add_sub_cancel_left, hb]
  rfl

theorem Holds.congr (h : Holds mem a bytes) (hmem : ∀ a', a ≤ a' → a' < a + bytes.length → mem' a' = mem a') :
    Holds mem' a bytes := by
  intro i b hb
  obtain ⟨hi, -⟩ := List.getElem?_eq_some_iff.1 hb
  rw [hmem (a + i) (Nat.le_add_right a i) (by omega), h i b hb]

variable {α ι : Type} {E : Encoder α ι} {x : α} {xs : List α} {s : EncodeState ι} {note : ι → Nat}

@[simp] theorem encodedSize_nil : E.encodedSize [] = 0 := rfl

@[simp] theorem encodedSize_cons (x : α) (xs : List α) : E.encodedSize (x :: xs) = E.size x + E.encodedSize xs := by
  simp [encodedSize]

theorem encodedSize_append (ys : List α) : E.encodedSize (xs ++ ys) = E.encodedSize xs + E.encodedSize ys := by
  simp [encodedSize]

/-! ## Layouts -/

def FirstEncoded (E : Encoder α ι) (note : ι → Nat) (mem : Nat → Byte) : Nat → List α → Prop
  | _, [] => True
  | pc, x :: xs =>
    note (E.id x) = pc ∧ (E.target x = none → Holds mem pc (E.plain x pc)) ∧ FirstEncoded E note mem (pc + E.size x) xs

theorem FirstEncoded.congr (h : FirstEncoded E note mem pc xs) (hmem : ∀ a, pc ≤ a → mem' a = mem a) :
    FirstEncoded E note mem' pc xs := by
  induction xs generalizing pc with
  | nil => trivial
  | cons x xs ih =>
    obtain ⟨hnote, hplain, hrest⟩ := h
    exact ⟨hnote, fun hx => (hplain hx).congr fun a ha _ => hmem a ha, ih hrest fun a ha => hmem a (by omega)⟩

def CorrectAt (E : Encoder α ι) (note : ι → Nat) (mem : Nat → Byte) (pc : Nat) (x : α) : Prop :=
  (E.target x = none → Holds mem pc (E.plain x pc)) ∧
    ∀ t, E.target x = some t → ∀ bytes, E.branch x (note t - (pc + E.size x)) = some bytes → Holds mem pc bytes

def Encoded (E : Encoder α ι) (note : ι → Nat) (mem : Nat → Byte) : Nat → List α → Prop
  | _, [] => True
  | pc, x :: xs => note (E.id x) = pc ∧ CorrectAt E note mem pc x ∧ Encoded E note mem (pc + E.size x) xs

theorem CorrectAt.congr (h : CorrectAt E note mem pc x) (hmem : ∀ a, pc ≤ a → a < pc + E.size x → mem' a = mem a) :
    CorrectAt E note mem' pc x := by
  refine ⟨fun hx => (h.1 hx).congr ?_, fun t ht bytes hbytes => (h.2 t ht bytes hbytes).congr ?_⟩
  · rw [E.plain_length]
    exact hmem
  · rw [E.branch_length x _ bytes hbytes]
    exact hmem

theorem Encoded.congr (h : Encoded E note mem pc xs)
    (hmem : ∀ a, pc ≤ a → a < pc + E.encodedSize xs → mem' a = mem a) : Encoded E note mem' pc xs := by
  induction xs generalizing pc with
  | nil => trivial
  | cons x xs ih =>
    rw [encodedSize_cons] at hmem
    obtain ⟨hnote, hcorrect, hrest⟩ := h
    exact ⟨hnote, hcorrect.congr fun a ha ha' => hmem a ha (by omega),
      ih hrest fun a ha ha' => hmem a (by omega) (by omega)⟩

theorem Encoded.note_eq {note' : ι → Nat} (h : Encoded E note mem pc xs) (h' : Encoded E note' mem' pc xs) {i : ι}
    (hi : i ∈ xs.map E.id) : note i = note' i := by
  induction xs generalizing pc with
  | nil => cases hi
  | cons x xs ih =>
    obtain ⟨hnote, -, hrest⟩ := h
    obtain ⟨hnote', -, hrest'⟩ := h'
    obtain rfl | hi := mem_cons.1 hi
    · rw [hnote, hnote']
    · exact ih hrest hrest' hi

theorem Encoded.of_placedAt (h : Encoded E note mem pc xs) (hx : E.PlacedAt pc xs x a) :
    note (E.id x) = a ∧ CorrectAt E note mem a x := by
  obtain ⟨pre, post, rfl, rfl⟩ := hx
  induction pre generalizing pc with
  | nil => exact ⟨h.1, h.2.1⟩
  | cons y pre ih =>
    rw [encodedSize_cons, ← add_assoc]
    exact ih h.2.2

theorem exists_placedAt {i : ι} (hi : i ∈ xs.map E.id) : ∃ y a, E.id y = i ∧ E.PlacedAt pc xs y a := by
  obtain ⟨y, hy, rfl⟩ := mem_map.1 hi
  obtain ⟨pre, post, hxs⟩ := append_of_mem hy
  exact ⟨y, _, rfl, pre, post, hxs, rfl⟩

theorem encodedSize_pos_of_mem (hx : x ∈ xs) (htarget : E.target x ≠ none) : 0 < E.encodedSize xs := by
  obtain ⟨pre, post, rfl⟩ := append_of_mem hx
  have hpos := E.size_pos x htarget
  rw [encodedSize_append, encodedSize_cons]
  omega

theorem PlacedAt.mem_list (h : E.PlacedAt pc xs x a) : x ∈ xs := by
  obtain ⟨pre, post, rfl, -⟩ := h
  exact mem_append_right pre mem_cons_self

theorem fill_mem_of_outside {size : Nat} (h : a < pc ∨ pc + size ≤ a) : (fill pc size s).mem a = s.mem a :=
  writeBytes_of_outside (by simpa using h)

theorem fill_mem {size : Nat} (h : pc ≤ a) (h' : a < pc + size) : (fill pc size s).mem a = 0xcc := by
  have hlt : a - pc < size := by omega
  simp [fill, writeBytes, h, hlt]

section Resolved

variable (p : TracePair E) {startPc stubPc : Nat}

theorem TracePair.encodedSize_stubs_pos {t : ι} (hx : p.At startPc stubPc x a) (ht : E.target x = some t)
    (hstub : t ∈ p.stubs.map E.id) : 0 < E.encodedSize p.stubs := by
  obtain hx | hx := hx
  · obtain ⟨y, hy, hbranch⟩ := p.stub_branches ⟨x, hx.mem_list, t, hstub, ht⟩
    exact encodedSize_pos_of_mem hy hbranch
  · exact encodedSize_pos_of_mem hx.mem_list (by simp [ht])

theorem TracePair.resolved_of_encoded (htrace : Encoded E note mem startPc p.trace)
    (hstubs : 0 < E.encodedSize p.stubs → Encoded E note mem stubPc p.stubs) : p.Resolved startPc stubPc mem := by
  intro x a hx
  have hmem : x ∈ p.trace ++ p.stubs := mem_append.2 (hx.imp PlacedAt.mem_list PlacedAt.mem_list)
  have hcorrect : CorrectAt E note mem a x := by
    obtain hx | hx := hx
    · exact (htrace.of_placedAt hx).2
    · obtain hsize | hsize := Nat.eq_zero_or_pos (E.encodedSize p.stubs)
      · -- Only labels, which have no bytes.
        have htarget : E.target x = none := by
          by_contra h
          exact absurd (encodedSize_pos_of_mem hx.mem_list h) (by omega)
        have hbytes : E.plain x a = [] := by
          obtain ⟨pre, post, hsplit, -⟩ := hx
          rw [hsplit, encodedSize_append, encodedSize_cons] at hsize
          exact length_eq_zero_iff.1 (by rw [E.plain_length]; omega)
        refine ⟨fun _ => ?_, fun t ht => ?_⟩
        · rw [hbytes]
          exact nofun
        · rw [htarget] at ht
          cases ht
      · exact ((hstubs hsize).of_placedAt hx).2
  refine ⟨hcorrect.1, fun t ht => ?_⟩
  have htarget := p.targets x hmem t ht
  rw [map_append, mem_append] at htarget
  obtain htarget | htarget := htarget
  · obtain ⟨y, b, rfl, hy⟩ := exists_placedAt htarget
    obtain rfl := (htrace.of_placedAt hy).1
    exact ⟨y, _, rfl, .inl hy, hcorrect.2 _ ht⟩
  · have hsize := p.encodedSize_stubs_pos hx ht htarget
    obtain ⟨y, b, rfl, hy⟩ := exists_placedAt htarget
    obtain rfl := ((hstubs hsize).of_placedAt hy).1
    exact ⟨y, _, rfl, .inr hy, hcorrect.2 _ ht⟩

end Resolved

/-! ## The first pass -/

variable [DecidableEq ι]

theorem encodeInstr_self (x : α) (pc : Nat) (s : EncodeState ι) :
    ∃ bytes, E.encodeInstr x ((E.target x).map fun _ => E.id x) pc s =
        ({ note := Function.update s.note (E.id x) pc, mem := writeBytes s.mem pc bytes }, some (pc + E.size x)) ∧
      bytes.length = E.size x ∧ (E.target x = none → bytes = E.plain x pc) := by
  cases htarget : E.target x with
  | none => exact ⟨E.plain x pc, rfl, E.plain_length x pc, fun _ => rfl⟩
  | some t =>
    obtain ⟨bytes, hbytes⟩ := isSome_iff_exists.1 (E.branch_self x (by simp [htarget]))
    have hlength := E.branch_length x _ bytes hbytes
    have hdisplacement : (pc : Int) + ((pc : Int) - pc) - (pc + E.size x) = -(E.size x : Int) := by omega
    refine ⟨bytes, ?_, hlength, nofun⟩
    simp only [map_some, encodeInstr, update_self, hdisplacement, hbytes, hlength]

theorem firstPass_spec (hnodup : (xs.map E.id).Nodup) (pc : Nat) (s : EncodeState ι) :
    ∃ s', E.firstPass xs pc s = .ok (s', pc + E.encodedSize xs) ∧ (∀ i ∉ xs.map E.id, s'.note i = s.note i) ∧
      (∀ a, a < pc ∨ pc + E.encodedSize xs ≤ a → s'.mem a = s.mem a) ∧ FirstEncoded E s'.note s'.mem pc xs := by
  induction xs generalizing pc s with
  | nil => exact ⟨s, rfl, fun _ _ => rfl, fun _ _ => rfl, trivial⟩
  | cons x xs ih =>
    rw [map_cons, nodup_cons] at hnodup
    obtain ⟨bytes, hencode, hlength, hplain⟩ := encodeInstr_self (E := E) x pc s
    obtain ⟨s', hpass, hnotes, hmem, hfirst⟩ := ih hnodup.2 (pc + E.size x)
      { note := Function.update s.note (E.id x) pc, mem := writeBytes s.mem pc bytes }
    refine ⟨s', ?_, ?_, ?_, ?_, ?_, hfirst⟩
    · rw [firstPass, hencode, encodedSize_cons, ← add_assoc]
      exact hpass
    · intro i hi
      rw [map_cons, mem_cons, not_or] at hi
      exact (hnotes i hi.2).trans (update_of_ne hi.1 _ _)
    · intro a ha
      rw [encodedSize_cons] at ha
      exact (hmem a (by omega)).trans (writeBytes_of_outside (by omega))
    · exact (hnotes _ hnodup.1).trans (update_self ..)
    · intro hx
      rw [← hplain hx]
      exact (holds_writeBytes s.mem pc bytes).congr fun a _ ha => hmem a (by omega)

/-! ## The second pass -/

theorem encodeInstr_again {t : ι} (hnote : s.note (E.id x) = pc) :
    ∃ mem, (E.encodeInstr x (some t) (s.note (E.id x)) s).1 = { note := s.note, mem := mem } ∧
      (∀ a, a < pc ∨ pc + E.size x ≤ a → mem a = s.mem a) ∧
      ∀ bytes, E.branch x (s.note t - (pc + E.size x)) = some bytes → Holds mem pc bytes := by
  have hupdate : Function.update s.note (E.id x) pc = s.note := hnote ▸ update_eq_self _ _
  have hdisplacement : (pc : Int) + ((s.note t : Int) - pc) - (pc + E.size x) = s.note t - (pc + E.size x) := by omega
  simp only [encodeInstr, hupdate, hnote, hdisplacement]
  cases hbranch : E.branch x (s.note t - (pc + E.size x)) with
  | none => exact ⟨s.mem, rfl, fun _ _ => rfl, nofun⟩
  | some bytes =>
    have hlength := E.branch_length x _ bytes hbranch
    refine ⟨writeBytes s.mem pc bytes, rfl, fun a ha => writeBytes_of_outside (by omega), ?_⟩
    rintro _ ⟨⟩
    exact holds_writeBytes s.mem pc bytes

theorem secondPass_spec (h : FirstEncoded E s.note s.mem pc xs) :
    (E.secondPass xs s).note = s.note ∧
      (∀ a, a < pc ∨ pc + E.encodedSize xs ≤ a → (E.secondPass xs s).mem a = s.mem a) ∧
      Encoded E s.note (E.secondPass xs s).mem pc xs := by
  induction xs generalizing pc s with
  | nil => exact ⟨rfl, fun _ _ => rfl, trivial⟩
  | cons x xs ih =>
    obtain ⟨hnote, hplain, hrest⟩ := h
    rw [encodedSize_cons]
    cases htarget : E.target x with
    | none =>
      obtain ⟨hnotes, hmem, hencoded⟩ := ih hrest
      have hpass : E.secondPass (x :: xs) s = E.secondPass xs s := by simp [secondPass, htarget]
      rw [hpass]
      refine ⟨hnotes, fun a ha => hmem a (by omega), hnote, ⟨fun _ => ?_, ?_⟩, hencoded⟩
      · refine (hplain htarget).congr fun a _ ha => hmem a ?_
        rw [E.plain_length] at ha
        exact .inl ha
      · rw [htarget]
        exact nofun
    | some t =>
      obtain ⟨mem, hencode, hmem, hholds⟩ := encodeInstr_again (t := t) hnote
      have hpass : E.secondPass (x :: xs) s = E.secondPass xs { note := s.note, mem := mem } := by
        simp [secondPass, htarget, hencode]
      have hrest' : FirstEncoded E s.note mem (pc + E.size x) xs := hrest.congr fun a ha => hmem a (.inr ha)
      obtain ⟨hnotes, hmem', hencoded⟩ := ih (s := { note := s.note, mem := mem }) hrest'
      rw [hpass]
      refine ⟨hnotes, fun a ha => ?_, hnote, ⟨?_, ?_⟩, hencoded⟩
      · rw [hmem' a (by omega)]
        exact hmem a (by omega)
      · rw [htarget]
        exact nofun
      · intro t' ht' bytes hbytes
        cases htarget.symm.trans ht'
        refine (hholds bytes hbytes).congr fun a _ ha => hmem' a (.inl ?_)
        rwa [E.branch_length x _ bytes hbytes] at ha

theorem secondPass_of_no_jump (h : E.hasLocalJump xs = false) (s : EncodeState ι) : E.secondPass xs s = s := by
  induction xs with
  | nil => rfl
  | cons x xs ih =>
    rw [hasLocalJump, any_cons, Bool.or_eq_false_iff] at h
    have htarget : E.target x = none := isSome_eq_false_iff.1 h.1 |> isNone_iff_eq_none.1
    simp only [secondPass, htarget]
    exact ih h.2

/-! ## Lists -/

theorem encode_spec (test : Bool) (hnodup : (xs.map E.id).Nodup) (pc : Nat) (s : EncodeState ι)
    (hfresh : ∀ a, pc ≤ a → a < pc + E.encodedSize xs → s.mem a = 0xcc) :
    ∃ s', E.encode test xs pc (E.encodedSize xs) s = .ok (s', pc + E.encodedSize xs) ∧
      (∀ i ∉ xs.map E.id, s'.note i = s.note i) ∧ (∀ a, a < pc ∨ pc + E.encodedSize xs ≤ a → s'.mem a = s.mem a) ∧
      Encoded E s'.note s'.mem pc xs := by
  by_cases hlength : xs.length = 0
  · obtain rfl := length_eq_zero_iff.1 hlength
    exact ⟨s, rfl, fun _ _ => rfl, fun _ _ => rfl, trivial⟩
  obtain ⟨s₁, hpass, hnotes, hmem, hfirst⟩ := firstPass_spec hnodup pc s
  obtain ⟨hnotes', hmem', hencoded⟩ := secondPass_spec hfirst
  have hcheck : (List.range (E.encodedSize xs)).all (fun i => s.mem (pc + i) == 0xcc) = true := by
    rw [List.all_eq_true]
    intro i hi
    rw [mem_range] at hi
    rw [hfresh (pc + i) (le_add_right pc i) (by omega)]
    rfl
  have hsecond : (if E.hasLocalJump xs then E.secondPass xs s₁ else s₁) = E.secondPass xs s₁ := by
    split
    case isTrue => rfl
    case isFalse h => exact (secondPass_of_no_jump (Bool.not_eq_true _ ▸ h) s₁).symm
  refine ⟨E.secondPass xs s₁, ?_, ?_, ?_, ?_⟩
  · have hle : decide (pc + E.encodedSize xs ≤ pc + E.encodedSize xs) = true := decide_eq_true (le_refl _)
    simp only [encode, hlength, if_false, hcheck, hpass, hsecond, hle, Bool.not_true, Bool.and_false, Bool.false_eq_true]
  · intro i hi
    rw [hnotes', hnotes i hi]
  · intro a ha
    rw [hmem' a ha, hmem a ha]
  · rw [hnotes']
    exact hencoded

/-! ## A trace and its stubs -/

section Trace

variable (p : TracePair E) {startPc stubPc : Nat}

theorem TracePair.encodeTrace_spec (test : Bool) (s : EncodeState ι) (hfresh : p.Fresh startPc stubPc s.mem) :
    ∃ s', E.encodeTrace test p.trace p.stubs startPc stubPc s =
        .ok (s', startPc + E.encodedSize p.trace, stubPc + E.encodedSize p.stubs) ∧
      Encoded E s'.note s'.mem startPc p.trace ∧
      (0 < E.encodedSize p.stubs → Encoded E s'.note s'.mem stubPc p.stubs) := by
  have hnodup := p.nodup
  rw [map_append, nodup_append] at hnodup
  obtain ⟨htraceNodup, hstubsNodup, hne⟩ := hnodup
  have hdisjoint := hfresh.disjoint
  obtain hsize | hsize := Nat.eq_zero_or_pos (E.encodedSize p.stubs)
  · obtain ⟨s', hencode, -, -, hencoded⟩ := encode_spec test htraceNodup startPc s hfresh.trace
    refine ⟨s', ?_, hencoded, fun h => absurd hsize (by omega)⟩
    simp [encodeTrace, hsize, hencode]
  · have hlength : p.stubs.length ≠ 0 := fun h => by
      rw [length_eq_zero_iff.1 h, encodedSize_nil] at hsize
      exact absurd hsize (lt_irrefl 0)
    obtain ⟨s₁, hencode₁, -, hmem₁, hencoded₁⟩ := encode_spec test hstubsNodup stubPc s hfresh.stubs
    obtain ⟨s₂, hencode₂, hnotes₂, hmem₂, hencoded₂⟩ := encode_spec test htraceNodup startPc s₁
      fun a ha ha' => (hmem₁ a (by omega)).trans (hfresh.trace a ha ha')
    obtain ⟨s₃, hencode₃, hnotes₃, hmem₃, hencoded₃⟩ := encode_spec test hstubsNodup stubPc
      (fill stubPc (E.encodedSize p.stubs) s₂) fun a ha ha' => fill_mem ha ha'
    -- The stubs get the notes that they had when the trace was encoded.
    have hnotes : s₃.note = s₂.note := by
      funext i
      by_cases hi : i ∈ p.stubs.map E.id
      · have hi' : i ∉ p.trace.map E.id := fun h => hne i h i hi rfl
        rw [hnotes₂ i hi', hencoded₃.note_eq hencoded₁ hi]
      · exact hnotes₃ i hi
    refine ⟨s₃, ?_, ?_, fun _ => hencoded₃⟩
    · simp [encodeTrace, hlength, ne_of_gt hsize, hencode₁, hencode₂, hencode₃]
    · rw [hnotes]
      exact hencoded₂.congr fun a ha ha' => (hmem₃ a (by omega)).trans (fill_mem_of_outside (by omega))

end Trace

end Encoder

end Granary.Blocks
