import Mathlib.Algebra.Group.Nat.Defs

/-!
# Memory and stacks

Byte-addressed memory with 64-bit addresses that wrap around, words in it, and what is left alone by code that only
writes below its stack pointer.
-/

namespace Machine

open BitVec (eq_of_getLsbD_eq ofNat getLsbD_extractLsb' allOnes getLsbD_allOnes getLsbD)

abbrev Word := BitVec 64

abbrev Memory := Word → BitVec 8

namespace Memory

def read (m : Memory) (a : Word) : Word :=
  m (a + 7) ++ m (a + 6) ++ m (a + 5) ++ m (a + 4) ++ m (a + 3) ++ m (a + 2) ++ m (a + 1) ++ m a

def read32 (m : Memory) (a : Word) : BitVec 32 := m (a + 3) ++ m (a + 2) ++ m (a + 1) ++ m a

def write (m : Memory) (a v : Word) : Memory := fun b =>
  if (b - a).toNat < 8 then v.extractLsb' (8 * (b - a).toNat) 8 else m b

end Memory

variable {a b d v : Word} {n k : Nat} {m m' m'' : Memory} {vs : List Word} {ws : List (Word × Word)}

/-! ## Reading a word back -/

theorem append_bytes :
    (v.extractLsb' 56 8 ++ v.extractLsb' 48 8 ++ v.extractLsb' 40 8 ++ v.extractLsb' 32 8 ++ v.extractLsb' 24 8 ++
      v.extractLsb' 16 8 ++ v.extractLsb' 8 8 ++ v.extractLsb' 0 8 : BitVec 64) = v := by
  ext i hi
  refine Eq.trans ?_ (BitVec.getLsbD_eq_getElem hi)
  simp only [BitVec.getElem_append, BitVec.getElem_extractLsb']
  repeat' split
  all_goals exact congrArg v.getLsbD (by omega)

theorem read_congr (h : ∀ j : Word, j.toNat < 8 → m' (b + j) = m (a + j)) : m'.read b = m.read a := by
  have h₀ : m' (b + 0) = m (a + 0) := h 0 (by decide)
  rw [show b + 0 = b from BitVec.add_zero b, show a + 0 = a from BitVec.add_zero a] at h₀
  rw [Memory.read, Memory.read, h 7 (by decide), h 6 (by decide), h 5 (by decide), h 4 (by decide), h 3 (by decide),
    h 2 (by decide), h 1 (by decide), h₀]

@[simp] theorem read_write_self (m : Memory) (a v : Word) : (m.write a v).read a = v := by
  have h : ∀ k : Word, k.toNat < 8 → m.write a v (a + k) = v.extractLsb' (8 * k.toNat) 8 := by
    intro k hk
    have hsub : a + k - a = k := by bv_omega
    rw [Memory.write, hsub, if_pos hk]
  have h₀ := h 0 (by decide)
  rw [show a + 0 = a from BitVec.add_zero a] at h₀
  rw [Memory.read, h 7 (by decide), h 6 (by decide), h 5 (by decide), h 4 (by decide), h 3 (by decide), h 2 (by decide),
    h 1 (by decide), h₀]
  exact append_bytes

theorem read_setWidth : (m.read a).setWidth 32 = m.read32 a := by
  apply eq_of_getLsbD_eq
  intro i hi
  simp only [Memory.read, Memory.read32, BitVec.getLsbD_setWidth, BitVec.getLsbD_append, hi, decide_true, Bool.true_and]
  repeat' split
  all_goals first | rfl | omega

/-! ## What may have changed -/

def Only (P : Word → Prop) (m m' : Memory) : Prop := ∀ b, ¬ P b → m' b = m b

def InWord (a b : Word) : Prop := (b - a).toNat < 8

def Below (a : Word) (n : Nat) (b : Word) : Prop := (a - 1 - b).toNat < n

instance (a : Word) (n : Nat) (b : Word) : Decidable (Below a n b) := inferInstanceAs (Decidable (_ < _))

theorem Below.mono (h : Below a n b) (hn : n ≤ k) : Below a k b := Nat.lt_of_lt_of_le h hn

theorem Below.lower (h : Below (a - d) n b) (hk : d.toNat + n ≤ k) : Below a k b := by
  unfold Below at h ⊢
  bv_omega

theorem Below.apart (h : Below a n b) (hn : n ≤ d.toNat) (hk : d.toNat + k ≤ 2 ^ 64) : ¬ Below (a - d) k b := by
  unfold Below at h ⊢
  bv_omega

theorem inWord_self : InWord a a := by
  rw [InWord, BitVec.sub_self]
  decide

theorem InWord.below (h : InWord (a - d) b) (hlo : 8 ≤ d.toNat) (hhi : d.toNat ≤ n) : Below a n b := by
  unfold InWord at h
  unfold Below
  bv_omega

theorem Below.not_inWord (h : Below a n b) (hn : n + 8 ≤ 2 ^ 64) : ¬ InWord a b := by
  unfold Below at h
  unfold InWord
  bv_omega

section Only

variable {P Q : Word → Prop}

theorem Only.refl (P : Word → Prop) (m : Memory) : Only P m m := fun _ _ => rfl

theorem Only.mono (h : Only P m m') (hPQ : ∀ b, P b → Q b) : Only Q m m' := fun b hb => h b fun hp => hb (hPQ b hp)

theorem Only.trans (h : Only P m m') (h' : Only P m' m'') : Only P m m'' := fun b hb => (h' b hb).trans (h b hb)

theorem only_write : Only (InWord a) m (m.write a v) := fun _ hb => if_neg hb

theorem Only.write (h : Only P m m') (a v : Word) : Only P (m.write a v) (m'.write a v) := by
  intro b hb
  unfold Memory.write
  rw [h b hb]

theorem Only.read_eq (h : Only P m m') (ha : ∀ b, InWord a b → ¬ P b) : m'.read a = m.read a := by
  refine read_congr fun j hj => h _ (ha _ ?_)
  have hsub : a + j - a = j := by bv_omega
  unfold InWord
  rwa [hsub]

def WordsApart (a b : Word) : Prop := 8 ≤ (a - b).toNat ∧ 8 ≤ (b - a).toNat

instance (a b : Word) : Decidable (WordsApart a b) := inferInstanceAs (Decidable (_ ∧ _))

theorem WordsApart.symm (h : WordsApart a b) : WordsApart b a := ⟨h.2, h.1⟩

theorem WordsApart.not_inWord (h : WordsApart a b) {c : Word} (hc : InWord a c) : ¬ InWord b c := by
  unfold WordsApart at h
  unfold InWord at hc ⊢
  bv_omega

theorem WordsApart.read_write (h : WordsApart a b) (m : Memory) (v : Word) : (m.write b v).read a = m.read a :=
  Only.read_eq (only_write) fun _ hc => h.not_inWord hc

theorem read_sub_write (m : Memory) (a v : Word) : (m.write a v).read (a - 8#64) = m.read (a - 8#64) :=
  WordsApart.read_write (by unfold WordsApart; bv_omega) m v

theorem read_add_write (m : Memory) (a v : Word) : (m.write (a - 8#64) v).read a = m.read a :=
  WordsApart.read_write (by unfold WordsApart; bv_omega) m v

theorem write_write (w : Word) : (m.write a v).write a w = m.write a w := by
  funext b
  unfold Memory.write
  split <;> rfl

theorem zero_write : Memory.write (fun _ => 0) a 0 = fun _ => 0 := by
  funext b
  unfold Memory.write
  split
  · exact BitVec.extractLsb'_zero
  · rfl

theorem getLsbD_read {i : Nat} (hi : i < 64) : (m.read a).getLsbD i = (m (a + ofNat 64 (i / 8))).getLsbD (i % 8) := by
  have hcases : i / 8 = 0 ∨ i / 8 = 1 ∨ i / 8 = 2 ∨ i / 8 = 3 ∨ i / 8 = 4 ∨ i / 8 = 5 ∨ i / 8 = 6 ∨ i / 8 = 7 := by omega
  have h₀ : m a = m (a + 0#64) := by rw [BitVec.add_zero]
  rw [Memory.read, h₀]
  simp only [BitVec.getLsbD_append]
  rcases hcases with h | h | h | h | h | h | h | h <;> rw [h]
  all_goals
    repeat' split
    all_goals first | omega | exact congrArg _ (by omega)

theorem byte_eq_read (m : Memory) (h : InWord a b) : m b = (m.read a).extractLsb' (8 * (b - a).toNat) 8 := by
  unfold InWord at h
  refine eq_of_getLsbD_eq fun k hk => ?_
  have hb : a + ofNat 64 ((8 * (b - a).toNat + k) / 8) = b := by bv_omega
  rw [getLsbD_extractLsb', decide_eq_true hk, Bool.true_and, getLsbD_read (by omega), hb]
  exact congrArg _ (by omega)

def Memory.writes (m : Memory) (ws : List (Word × Word)) : Memory := ws.foldl (fun m w => m.write w.1 w.2) m

theorem writes_cases :
    (∀ m m' : Memory, m.writes ws b = m'.writes ws b) ∨ (∀ w ∈ ws, ¬ InWord w.1 b) ∧ ∀ m : Memory, m.writes ws b = m b := by
  induction ws with
  | nil => exact .inr ⟨fun w hw => absurd hw List.not_mem_nil, fun _ => rfl⟩
  | cons w ws ih =>
    rcases ih with hover | ⟨hout, hsame⟩
    · exact .inl fun m m' => hover _ _
    · by_cases hin : InWord w.1 b
      · refine .inl fun m m' => ?_
        rw [Memory.writes, Memory.writes, List.foldl_cons, List.foldl_cons]
        exact ((hsame _).trans ((if_pos hin).trans (if_pos hin).symm)).trans (hsame _).symm
      · refine .inr ⟨fun w' hw' => ?_, fun m => (hsame _).trans (if_neg hin)⟩
        rcases List.mem_cons.mp hw' with rfl | hw'
        · exact hin
        · exact hout w' hw'

theorem writes_read (h : ∀ w ∈ ws, WordsApart a w.1) (m : Memory) : (m.writes ws).read a = m.read a := by
  induction ws generalizing m with
  | nil => rfl
  | cons w ws ih =>
    have hws := ih (fun w' hw' => h w' (List.mem_cons_of_mem _ hw')) (m.write w.1 w.2)
    exact hws.trans (WordsApart.read_write (h w List.mem_cons_self) _ _)

/-- A word is read as it was, whatever the memory, exactly when none of it was overwritten. -/
theorem forall_writes_read_iff : (∀ m : Memory, (m.writes ws).read b = m.read a) ↔ b = a ∧ ∀ w ∈ ws, WordsApart a w.1 := by
  constructor
  · intro h
    -- a byte that was zero, and is all ones when the word is all ones, was neither overwritten nor outside the word
    have hbyte : ∀ c, InWord b c → InWord a c ∧ ∀ w ∈ ws, ¬ InWord w.1 c := by
      intro c hc
      have hzero : Memory.writes (fun _ => 0) ws c = 0#8 := by
        rw [byte_eq_read (Memory.writes (fun _ => 0) ws) hc, h]
        simp [Memory.read]
      have hones : Memory.writes (Memory.write (fun _ => 0) a (allOnes 64)) ws c = allOnes 8 := by
        rw [byte_eq_read (Memory.writes (Memory.write (fun _ => 0) a (allOnes 64)) ws) hc, h, read_write_self]
        unfold InWord at hc
        refine eq_of_getLsbD_eq fun k hk => ?_
        rw [getLsbD_extractLsb', getLsbD_allOnes, getLsbD_allOnes, decide_eq_true hk, Bool.true_and]
        exact decide_eq_true (by omega)
      rcases writes_cases with hover | ⟨hout, hsame⟩
      · rw [hover _ fun _ => 0, hzero] at hones
        exact absurd hones (by decide)
      · refine ⟨Classical.byContradiction fun ha => ?_, hout⟩
        have hbad : 0#8 = allOnes 8 := (if_neg ha).symm.trans ((hsame _).symm.trans hones)
        exact absurd hbad (by decide)
    have hsame : b = a := by
      have hfirst := (hbyte b (inWord_self)).1
      have hlast := (hbyte (b + 7) (by unfold InWord; bv_omega)).1
      unfold InWord at hfirst hlast
      bv_omega
    subst hsame
    refine ⟨rfl, fun w hw => ⟨?_, ?_⟩⟩
    · exact Nat.le_of_not_lt ((hbyte b (inWord_self)).2 w hw)
    · exact Nat.le_of_not_lt fun hlt => (hbyte w.1 hlt).2 w hw (inWord_self)
  · rintro ⟨rfl, hapart⟩ m
    exact writes_read hapart m

theorem read_write_overlap (h : ¬ WordsApart a b) : (Memory.write (fun _ => 0) b (allOnes 64)).read a ≠ 0 := by
  have hbyte : ∀ c, InWord a c → InWord b c → (Memory.write (fun _ => 0) b (allOnes 64)).read a ≠ 0 := by
    intro c ha hb hzero
    have hones := (byte_eq_read (Memory.write (fun _ => 0) b (allOnes 64)) ha).symm.trans
      (byte_eq_read (Memory.write (fun _ => 0) b (allOnes 64)) hb)
    rw [hzero, read_write_self] at hones
    have hbit := congrArg (getLsbD · 0) hones
    unfold InWord at hb
    simp only [getLsbD_extractLsb', getLsbD_allOnes, decide_eq_true (show 8 * (c - b).toNat + 0 < 64 by omega)] at hbit
    simp at hbit
  rcases Nat.lt_or_ge (a - b).toNat 8 with hlt | hge
  · exact hbyte a (inWord_self) hlt
  · refine hbyte b ?_ (inWord_self)
    unfold WordsApart at h
    unfold InWord
    omega

theorem read_write_ne_allOnes (h : a ≠ b) : (Memory.write (fun _ => 0) b (allOnes 64)).read a ≠ allOnes 64 := by
  have hbyte : ∀ c, InWord a c → ¬ InWord b c →
      (Memory.write (fun _ => 0) b (allOnes 64)).read a ≠ allOnes 64 := by
    intro c ha hb hones
    have hzero := (if_neg hb).symm.trans (byte_eq_read (Memory.write (fun _ => 0) b (allOnes 64)) ha)
    rw [hones] at hzero
    have hbit := congrArg (getLsbD · 0) hzero
    unfold InWord at ha
    simp only [getLsbD_extractLsb', getLsbD_allOnes, decide_eq_true (show 8 * (c - a).toNat + 0 < 64 by omega)] at hbit
    simp at hbit
  by_cases hin : InWord b a
  · refine hbyte (a + 7) ?_ ?_
    all_goals
      unfold InWord at *
      bv_omega
  · exact hbyte a (inWord_self) hin

theorem Only.read32_eq (h : Only P m m') (ha : ∀ b, (b - a).toNat < 4 → ¬ P b) : m'.read32 a = m.read32 a := by
  have hbyte : ∀ j : Word, j.toNat < 4 → m' (a + j) = m (a + j) := fun j hj => h _ (ha _ (by bv_omega))
  have h₀ := hbyte 0 (by decide)
  rw [show a + 0 = a from BitVec.add_zero a] at h₀
  rw [Memory.read32, Memory.read32, hbyte 3 (by decide), hbyte 2 (by decide), hbyte 1 (by decide), h₀]

end Only

/-- Only the `n` bytes below `a` may have changed, which is what pushing to a stack does. -/
def Frame (a : Word) (n : Nat) (m m' : Memory) : Prop := Only (Below a n) m m'

theorem Frame.refl (a : Word) (n : Nat) (m : Memory) : Frame a n m m := Only.refl _ m

theorem Frame.mono (h : Frame a n m m') (hn : n ≤ k) : Frame a k m m' :=
  Only.mono h fun _ hb => hb.mono hn

theorem Frame.trans (h : Frame a n m m') (h' : Frame a n m' m'') : Frame a n m m'' := Only.trans h h'

theorem frame_write (a : Word) (m : Memory) (v : Word) : Frame a 8 m (m.write (a - 8) v) :=
  Only.mono (only_write) fun _ hb => hb.below (Nat.le_refl _) (Nat.le_refl _)

theorem Frame.lower (h : Frame (a - d) n m m') (hk : d.toNat + n ≤ k) : Frame a k m m' :=
  Only.mono h fun _ hb => hb.lower hk

theorem Frame.push (h : Frame (a - 8) n (m.write (a - 8) v) m') (hk : 8 + n ≤ k) : Frame a k m m' :=
  ((frame_write a m v).mono (by omega)).trans (h.lower hk)

theorem Frame.read_eq (h : Frame a n m m') (hb : (b - a).toNat + 8 + n ≤ 2 ^ 64) : m'.read b = m.read b := by
  refine Only.read_eq h fun c hc => ?_
  unfold InWord at hc
  unfold Below
  bv_omega

end Machine
