import Granary.User.Printf
import Mathlib.Algebra.Order.Group.Nat

/-!
# Lemmas about `printf`
-/

namespace Granary.User

variable {n fuel K maxBase bound pending : Nat} {text : List Char} {is64Bit isSigned : Bool} {value : Int}
  {pieces : List Piece}

/-! ## Numerals -/

section

variable {base : Nat}

/-- The digits of a number, with `n` after the first one. -/
def padded (base : Nat) : Nat → Nat → List Char
  | 0, data => [digitChar data]
  | n + 1, data => digitChar (data / base ^ (n + 1)) :: padded base n (data % base ^ (n + 1))

@[simp] theorem length_padded : (padded base n data).length = n + 1 := by
  induction n generalizing data with
  | zero => rfl
  | succ n ih => simp [padded, ih]

theorem padded_succ : padded base (n + 1) data = padded base n (data / base) ++ [digitChar (data % base)] := by
  induction n generalizing data with
  | zero => simp [padded]
  | succ n ih =>
    have hrest : data % base ^ (n + 2) / base = data / base % base ^ (n + 1) := by
      rw [Nat.pow_succ', Nat.mod_mul_right_div_self]
    have hlast : data % base ^ (n + 2) % base = data % base := Nat.mod_mod_of_dvd _ ⟨_, Nat.pow_succ'⟩
    have hfirst : data / base ^ (n + 2) = data / base / base ^ (n + 1) := by
      rw [Nat.div_div_eq_div_mul, ← Nat.pow_succ']
    rw [padded, ih, hrest, hlast, hfirst, padded, List.cons_append]

theorem digitChar_eq : ∀ digit < 16, digitChar digit = Nat.digitChar digit := by decide

variable {data : Nat}

theorem toDigits_eq_padded (hbase : 1 < base) (hle : base ≤ 16) (hmin : n = 0 ∨ base ^ n ≤ data)
    (hmax : data < base ^ (n + 1)) : Nat.toDigits base data = padded base n data := by
  induction n generalizing data with
  | zero =>
    rw [Nat.zero_add, Nat.pow_one] at hmax
    rw [Nat.toDigits_of_lt_base hmax, padded, digitChar_eq _ (by omega)]
  | succ n ih =>
    have hmin : base ^ (n + 1) ≤ data := hmin.resolve_left (Nat.succ_ne_zero n)
    have hrest : base ^ n ≤ data / base := (Nat.le_div_iff_mul_le (by omega)).mpr (by rwa [← Nat.pow_succ])
    have hlast : data % base < base := Nat.mod_lt _ (by omega)
    have hnext : data / base < base ^ (n + 1) := Nat.div_lt_of_lt_mul (by rwa [← Nat.pow_succ'])
    have happend := Nat.toDigits_append_toDigits hbase (Nat.lt_of_lt_of_le (Nat.pow_pos (by omega)) hrest) hlast
    rw [Nat.div_add_mod] at happend
    rw [← happend, ih (.inr hrest) hnext, Nat.toDigits_of_lt_base hlast, padded_succ, digitChar_eq _ (by omega)]

theorem writeDigits_eq (hbase : 1 < base) (hfuel : n + 1 < fuel) :
    writeDigits base fuel data (base ^ n) = some (padded base n data) := by
  induction n generalizing fuel data with
  | zero =>
    obtain ⟨fuel, rfl⟩ : ∃ k, fuel = k + 2 := ⟨fuel - 2, by omega⟩
    simp [writeDigits, padded, Nat.div_eq_of_lt hbase]
  | succ n ih =>
    obtain ⟨fuel, rfl⟩ : ∃ k, fuel = k + 1 := ⟨fuel - 1, by omega⟩
    have hpos : base ^ (n + 1) ≠ 0 := (Nat.pow_pos (by omega)).ne'
    have hdiv : base ^ (n + 1) / base = base ^ n := by rw [Nat.pow_succ, Nat.mul_div_cancel _ (by omega)]
    simp only [writeDigits, hpos, if_false, hdiv, ← Nat.mod_eq_sub_div_mul, ih (show n + 1 < fuel by omega)]
    rfl

/-- As long as no power of the base is too large, the loop finds the first one above the number. -/
theorem growBase_eq (hbase : 1 < base) (hK : base ^ K < 2 ^ 64) (hdata : data < base ^ K) {i : Nat}
    (hi : i ≤ K) (hfuel : K - i < fuel) :
    ∃ j, growBase data base fuel (base ^ i) = some (base ^ j) ∧ i ≤ j ∧ j ≤ K ∧ data < base ^ j ∧
      (j = i ∨ base ^ (j - 1) ≤ data) := by
  induction fuel generalizing i with
  | zero => omega
  | succ fuel ih =>
    have hpos : 0 < base ^ i := Nat.pow_pos (by omega)
    rw [growBase, if_neg (by omega)]
    by_cases hlt : data < base ^ i
    · exact ⟨i, by rw [if_pos (Nat.div_eq_of_lt hlt)], Nat.le_refl i, hi, hlt, .inl rfl⟩
    · have hne : i ≠ K := fun heq => hlt (heq ▸ hdata)
      have hdiv : data / base ^ i ≠ 0 := by
        rw [Nat.div_ne_zero_iff]
        omega
      have hsmall : base ^ i * base % 2 ^ 64 = base ^ (i + 1) := by
        rw [← Nat.pow_succ, Nat.mod_eq_of_lt (Nat.lt_of_le_of_lt (Nat.pow_le_pow_right (by omega) (by omega)) hK)]
      rw [if_neg hdiv, hsmall]
      obtain ⟨j, hgrow, hij, hjK, hj, hlast⟩ := ih (show i + 1 ≤ K by omega) (by omega)
      refine ⟨j, hgrow, by omega, hjK, hj, .inr ?_⟩
      rcases hlast with rfl | hlast
      · exact Nat.not_lt.mp hlt
      · exact hlast

/-- A number below a power of the base that is not too large is written with its digits. -/
theorem write_eq_toDigits (hbase : 1 < base) (hle : base ≤ 16) (hK : base ^ K < 2 ^ 64) (hpos : 0 < K)
    (hdata : data < base ^ K) :
    ((growBase data base 65 base).bind fun maxBase => writeDigits base 65 data (maxBase / base)) =
        some (Nat.toDigits base data) ∧ (Nat.toDigits base data).length ≤ 64 := by
  have hK' : K < 64 := by
    by_contra hge
    have htwo : 2 ^ 64 ≤ base ^ K := (Nat.pow_le_pow_right (by decide) (by omega)).trans (Nat.pow_le_pow_left hbase K)
    omega
  obtain ⟨j, hgrow, hj, hjK, hlt, hmin⟩ := growBase_eq hbase hK hdata hpos (show K - 1 < 65 by omega)
  obtain ⟨n, rfl⟩ : ∃ n, j = n + 1 := ⟨j - 1, by omega⟩
  have hdigits : Nat.toDigits base data = padded base n data :=
    toDigits_eq_padded hbase hle (hmin.imp_left fun h => by omega) hlt
  rw [Nat.pow_one] at hgrow
  rw [hgrow, Option.bind_some, Nat.pow_succ, Nat.mul_div_cancel _ (by omega), writeDigits_eq hbase (by omega), hdigits,
    length_padded]
  exact ⟨rfl, by omega⟩

theorem growBase_lt {data r : Nat} (hlt : maxBase < 2 ^ 64) (h : growBase data base fuel maxBase = some r) : r < 2 ^ 64 := by
  induction fuel generalizing maxBase with
  | zero => cases h
  | succ fuel ih =>
    rw [growBase] at h
    split_ifs at h
    · cases h
      exact hlt
    · exact ih (Nat.mod_lt _ (by decide)) h

theorem length_writeDigits (hlt : maxBase < base ^ n)
    (h : writeDigits base fuel data maxBase = some text) : text.length ≤ n := by
  induction fuel generalizing n data maxBase text with
  | zero => cases h
  | succ fuel ih =>
    rw [writeDigits] at h
    split_ifs at h with hzero
    · cases h
      exact Nat.zero_le n
    · obtain ⟨text, htext, rfl⟩ := Option.map_eq_some_iff.mp h
      cases n with
      | zero => exact absurd (Nat.lt_one_iff.mp hlt) hzero
      | succ n => exact Nat.succ_le_succ (ih (Nat.div_lt_of_lt_mul (by rwa [← Nat.pow_succ'])) htext)

/-- A number with more digits than every power of the base that fits in 64 bits is not written with all of them. -/
theorem write_ne_toDigits (hbase : 1 < base) (hle : base ≤ 16) (hK : 2 ^ 64 ≤ base ^ (K + 1))
    (hmin : base ^ K ≤ data) (hdata : data < 2 ^ 64) :
    ((growBase data base 65 base).bind fun maxBase => writeDigits base 65 data (maxBase / base)) ≠
      some (Nat.toDigits base data) := by
  intro h
  obtain ⟨maxBase, hgrow, hwrite⟩ := Option.bind_eq_some_iff.mp h
  have hlt : maxBase / base < base ^ K :=
    Nat.div_lt_of_lt_mul (by rw [← Nat.pow_succ']; exact (growBase_lt (by omega) hgrow).trans_le hK)
  have hlen := length_writeDigits hlt hwrite
  rw [toDigits_eq_padded hbase hle (.inr hmin) (hdata.trans_le hK), length_padded] at hlen
  omega

end

theorem signedData_zero : signedData is64Bit 0 = 0 := by cases is64Bit <;> decide

theorem natAbs_signedData_lt : (signedData is64Bit data).natAbs < 10 ^ 19 := by
  rw [signedData]
  split
  · have hlo := BitVec.le_toInt (BitVec.ofNat 64 data)
    have hhi := BitVec.toInt_lt (x := BitVec.ofNat 64 data)
    omega
  · have hlo := BitVec.le_toInt (BitVec.ofNat 32 data)
    have hhi := BitVec.toInt_lt (x := BitVec.ofNat 32 data)
    omega

/-- An integer below the largest power of the base is written as its numeral. -/
theorem writeGenericInt_eq {base : Nat} (hbase : 1 < base) (hle : base ≤ 16) (hK : base ^ K < 2 ^ 64) (hpos : 0 < K)
    (hvalue : (if isSigned then signedData is64Bit data else data) = value) (hlt : value.natAbs < base ^ K) :
    writeGenericInt data is64Bit isSigned base = some (numeral value base) ∧
      (numeral value base).length ≤ writeBuffSize + 1 := by
  obtain ⟨hwrite, hlen⟩ := write_eq_toDigits hbase hle hK hpos hlt
  by_cases hzero : data = 0
  · subst hzero
    have hvalue' : value = 0 := by simpa [signedData_zero, eq_comm] using hvalue
    subst hvalue'
    rw [numeral, if_neg (by decide), Int.natAbs_zero, Nat.toDigits_of_lt_base (by omega)]
    exact ⟨rfl, by decide⟩
  · simp only [writeGenericInt, hzero, if_false, hvalue, hwrite, numeral, writeBuffSize]
    split
    · exact ⟨rfl, Nat.succ_le_succ (by omega)⟩
    · exact ⟨rfl, by omega⟩

theorem writeGenericInt_eq_iff {base : Nat} (hbase : 1 < base) (hle : base ≤ 16) (hK : base ^ K < 2 ^ 64) (hpos : 0 < K)
    (hmax : 2 ^ 64 ≤ base ^ (K + 1))
    (hvalue : (if isSigned then signedData is64Bit data else data) = value) (hdata : value.natAbs < 2 ^ 64) :
    writeGenericInt data is64Bit isSigned base = some (numeral value base) ↔ value.natAbs < base ^ K := by
  refine ⟨fun h => Nat.not_le.mp fun hmin => ?_, fun hlt => (writeGenericInt_eq hbase hle hK hpos hvalue hlt).1⟩
  have hwrite := write_ne_toDigits hbase hle hmax hmin hdata
  have hzero : data ≠ 0 := by
    rintro rfl
    have hvalue' : value = 0 := by simpa [signedData_zero, eq_comm] using hvalue
    rw [hvalue'] at hmin
    exact absurd hmin (Nat.not_le.mpr (Nat.pow_pos (by omega)))
  simp only [writeGenericInt, hzero, if_false, hvalue, numeral] at h
  split_ifs at h
  · obtain ⟨text, htext, heq⟩ := Option.map_eq_some_iff.mp h
    cases heq
    exact hwrite htext
  · exact hwrite h

/-! ## Conversions -/

section

variable {longs data : Nat} {kind : PrintfKind} {arg : PrintfArg} {format w b : List Char} {args : List PrintfArg}

theorem convert_longs {s : Printf} :
    s.convert is64Bit (List.replicate longs 'l' ++ format) = s.convert (is64Bit || decide (0 < longs)) format := by
  have hformat : ∀ (f format : List Char) (b : Bool), { s with format := f }.convert b format = s.convert b format := by
    intro f format b
    cases format with
    | nil => rfl
    | cons ch format => rw [Printf.convert, Printf.convert]
  induction longs generalizing is64Bit with
  | zero => simp
  | succ longs ih =>
    rw [List.replicate_succ, List.cons_append, Printf.convert]
    simp [hformat, ih]

theorem genericInt_eq {base : Nat}
    (hwrite : writeGenericInt (if is64Bit then data % 2 ^ 64 else data % 2 ^ 32) is64Bit isSigned base = some text ∧
      text.length ≤ writeBuffSize + 1) :
    (Printf.mk format (.int data :: args) w []).genericInt is64Bit isSigned base = some ⟨format, args, w, text⟩ := by
  simp only [Printf.genericInt, hwrite.1, Option.bind_eq_bind, Option.bind_some, List.nil_append, if_pos hwrite.2]

variable (format args) in
theorem convert_conversion (hwf : (Piece.conversion longs kind arg).WellFormed (16 ^ 15) (10 ^ 19)) (f : List Char) :
    ∃ w' b, (Printf.mk f (arg :: args) w []).convert false (List.replicate longs 'l' ++ kind.letter :: format) =
        some ⟨format, args, w', b⟩ ∧ w' ++ b = w ++ expandArg longs kind arg ∧
      b.length = (Piece.conversion longs kind arg).buffered := by
  rw [convert_longs, Bool.false_or]
  have hdata : ∀ kind data, kind ≠ .p →
      (if decide (0 < longs) then data % 2 ^ 64 else data % 2 ^ 32) = dataOf longs kind data := by
    intro kind data hkind
    simp [dataOf, hkind]
  cases arg with
  | str text =>
    cases kind with
    | s => exact ⟨_, [], rfl, List.append_nil _, rfl⟩
    | c | d | x | p | u => cases hwf
  | int data =>
    cases kind with
    | s => cases hwf
    | c => exact ⟨w, [charOf data], rfl, rfl, rfl⟩
    | d =>
      refine ⟨w, _, genericInt_eq ?_, rfl, rfl⟩
      rw [hdata .d data nofun]
      exact writeGenericInt_eq (K := 19) (by decide) (by decide) (by decide) (by decide) rfl (natAbs_signedData_lt ..)
    | x =>
      refine ⟨w, _, genericInt_eq ?_, rfl, rfl⟩
      rw [hdata .x data nofun]
      exact writeGenericInt_eq (K := 15) (by decide) (by decide) (by decide) (by decide) rfl hwf
    | p =>
      refine ⟨w, _, genericInt_eq ?_, rfl, rfl⟩
      have hp : dataOf longs .p data = data % 2 ^ 64 := if_pos (.inr rfl)
      rw [if_pos rfl, ← hp]
      exact writeGenericInt_eq (K := 15) (by decide) (by decide) (by decide) (by decide) rfl hwf
    | u =>
      refine ⟨w, _, genericInt_eq ?_, rfl, rfl⟩
      rw [hdata .u data nofun]
      exact writeGenericInt_eq (K := 19) (by decide) (by decide) (by decide) (by decide) rfl hwf

/-! ## The loop -/

theorem loop_literal {ch : Char} (hch : ch ≠ '%') (hlt : b.length < writeBuffSize) :
    Printf.loop (fuel + 1) ⟨ch :: format, args, w, b⟩ = Printf.loop (fuel + 1) ⟨format, args, w, b ++ [ch]⟩ := by
  have hround : (Printf.mk (ch :: format) args w b).round = (Printf.mk format args w (b ++ [ch])).round := by
    simp [Printf.round, bufferText, hlt, hch]
  rw [Printf.loop, if_neg (List.cons_ne_nil _ _), hround, Printf.loop]
  cases format with
  | nil => rfl
  | cons ch' format => rw [if_neg (List.cons_ne_nil _ _)]

theorem bufferText_percent : bufferText ('%' :: format) b = ('%' :: format, b) := by simp [bufferText]

theorem loop_percent :
    Printf.loop (fuel + 1) ⟨'%' :: '%' :: format, args, w, b⟩ = Printf.loop fuel ⟨format, args, w ++ b, ['%']⟩ := by
  simp [Printf.loop, Printf.round, bufferText_percent]

theorem loop_conversion (hwf : (Piece.conversion longs kind arg).WellFormed (16 ^ 15) (10 ^ 19)) :
    ∃ w' b', Printf.loop (fuel + 1)
        ⟨(Piece.conversion longs kind arg).format ++ format, arg :: args, w, b⟩ = Printf.loop fuel ⟨format, args, w', b'⟩ ∧
      w' ++ b' = w ++ b ++ expandArg longs kind arg ∧ b'.length = (Piece.conversion longs kind arg).buffered := by
  have hhead : (List.replicate longs 'l' ++ kind.letter :: format).head? ≠ some '%' := by
    cases longs with
    | zero => cases kind <;> simp [PrintfKind.letter]
    | succ longs => simp [List.replicate_succ]
  obtain ⟨w', b', hconvert, happend, hlen⟩ := convert_conversion format args (w := w ++ b) hwf
    ('%' :: (List.replicate longs 'l' ++ kind.letter :: format))
  refine ⟨w', b', ?_, happend, hlen⟩
  simp only [Piece.format, List.cons_append, List.append_assoc, List.nil_append, Printf.loop, reduceCtorEq, if_false,
    Printf.round, bufferText_percent, hhead, and_false, hconvert, Option.map_some]

end

/-- What is written for the pieces that are left, with the characters in the buffer before it. -/
theorem loop_pieces {w b : List Char} (hruns : RunsWithin writeBuffSize b.length pieces)
    (hwf : ∀ piece ∈ pieces, piece.WellFormed (16 ^ 15) (10 ^ 19)) (hfuel : (pieces.flatMap Piece.format).length < fuel) :
    Printf.loop fuel ⟨pieces.flatMap Piece.format, pieces.flatMap Piece.args, w, b⟩ =
      some (w ++ b ++ pieces.flatMap Piece.expand) := by
  obtain ⟨fuel, rfl⟩ : ∃ k, fuel = k + 1 := ⟨fuel - 1, by omega⟩
  induction pieces generalizing w b fuel with
  | nil => simp [Printf.loop]
  | cons piece pieces ih =>
    rw [List.forall_mem_cons] at hwf
    simp only [List.flatMap_cons, List.length_append] at hfuel ⊢
    cases piece with
    | literal ch =>
      obtain ⟨hlt, hruns⟩ := hruns
      have h := ih (w := w) (b := b ++ [ch]) (by simpa using hruns) hwf.2 fuel (by omega)
      simp only [Piece.format, Piece.args, Piece.expand, List.cons_append, List.nil_append, loop_literal hwf.1.1 hlt, h]
      simp
    | percent =>
      simp only [Piece.format, List.length_cons] at hfuel
      obtain ⟨fuel, rfl⟩ : ∃ k, fuel = k + 1 := ⟨fuel - 1, by omega⟩
      have h := ih (w := w ++ b) (b := ['%']) hruns hwf.2 fuel (by omega)
      simp only [Piece.format, Piece.args, Piece.expand, List.cons_append, List.nil_append, loop_percent, h]
      simp
    | conversion longs kind arg =>
      simp only [Piece.format, List.length_cons] at hfuel
      obtain ⟨fuel, rfl⟩ : ∃ k, fuel = k + 1 := ⟨fuel - 1, by omega⟩
      obtain ⟨w', b', hloop, happend, hlen⟩ := loop_conversion hwf.1
      rw [Piece.args, List.cons_append, List.nil_append, hloop,
        ih (by rw [hlen]; exact hruns) hwf.2 fuel (by omega), happend, Piece.expand]
      simp

/-! ## Bounds -/

theorem RunsWithin.mono {bound' : Nat} (h : RunsWithin bound pending pieces)
    (hle : bound ≤ bound') : RunsWithin bound' pending pieces := by
  induction pieces generalizing pending with
  | nil => trivial
  | cons piece pieces ih =>
    cases piece with
    | literal ch => exact ⟨Nat.lt_of_lt_of_le h.1 hle, ih h.2⟩
    | percent | conversion => exact ih h

theorem runsWithin_replicate (ch : Char) (h : pending + n ≤ bound) :
    RunsWithin bound pending (List.replicate n (.literal ch)) := by
  induction n generalizing pending with
  | zero => trivial
  | succ n ih => exact ⟨by omega, ih (by omega)⟩

theorem Piece.WellFormed.mono {hexBound decBound : Nat} {piece : Piece} (h : piece.WellFormed hexBound decBound)
    (hhex : hexBound ≤ 16 ^ 15) (hdec : decBound ≤ 10 ^ 19) : piece.WellFormed (16 ^ 15) (10 ^ 19) := by
  cases piece with
  | literal | percent => exact h
  | conversion longs kind arg =>
    cases kind <;> cases arg <;> first | exact h | exact Nat.lt_of_lt_of_le h hhex | exact Nat.lt_of_lt_of_le h hdec

/-! ## What is not written -/

instance (pieces : List Piece) : Decidable (PrintsExpansion pieces) := inferInstanceAs (Decidable (_ = _))

theorem not_prints_long_text : ¬ PrintsExpansion (List.replicate 256 (.literal 'a')) := by decide +kernel

theorem not_prints_large_pointer : ¬ PrintsExpansion [.conversion 0 .p (.int (16 ^ 15))] := by decide +kernel

theorem not_prints_large_unsigned : ¬ PrintsExpansion [.conversion 1 .u (.int (10 ^ 19))] := by decide +kernel

end Granary.User
