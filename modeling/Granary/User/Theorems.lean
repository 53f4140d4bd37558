import Granary.User.Lemmas.Detach
import Granary.User.Lemmas.Printf

/-!
# User space: theorems
-/

namespace Granary.User

/-! ## Libraries of a process -/

/-- However the file is split by the reads, the paths of its lines are visited in their order. -/
theorem parseProcMaps_eq (lines chunks : List (List Char)) (hlines : ∀ line ∈ lines, '\n' ∉ line ∧ '\x00' ∉ line)
    (hlen : ∀ line ∈ lines, (pathOf line).length ≤ lineSize) (hchunks : chunks.flatten = lines.flatMap (· ++ ['\n']))
    (hsizes : ∀ chunk ∈ chunks, chunk ≠ [] ∧ chunk.length ≤ lineSize) :
    ∃ enough, ∀ fuel, enough ≤ fuel →
      parseProcMaps fuel chunks = some ((pathsOf lines).map fun path => (path, path.length)) := by
  have hnull : ∀ chunk ∈ chunks, '\x00' ∉ chunk := by
    intro chunk hchunk hmem
    have hflat := List.mem_flatten_of_mem hchunk hmem
    rw [hchunks] at hflat
    obtain ⟨line, hline, hmem⟩ := List.mem_flatMap.mp hflat
    simp [(hlines line hline).2] at hmem
  refine ⟨_, fun fuel hfuel => ProcMaps.Inv.loop_eq ⟨fun _ => rfl, fun h => by simp at h, ?_, fun h => by simp at h, ?_⟩ hfuel⟩
  · exact fun chunk hchunk => ⟨(hsizes chunk hchunk).1, (hsizes chunk hchunk).2, hnull chunk hchunk⟩
  · rw [if_pos rfl, List.nil_append, hchunks]
    exact scan_lines (fun line hline => (hlines line hline).1) hlen

theorem parseProcMaps_eq_libc : ∃ enough, ∀ fuel, enough ≤ fuel →
    parseProcMaps fuel ["7f /l".toList, "ib\n7f \n".toList] = some [("/lib".toList, 4)] :=
  parseProcMaps_eq ["7f /lib".toList, "7f ".toList] ["7f /l".toList, "ib\n7f \n".toList] (by decide) (by decide)
    (by decide) (by decide)

/-- The right libraries are opened, without an access outside of the buffer, exactly when the paths fit into it and a path
that is not the one before can be told from what earlier ones left there. -/
theorem visitPaths_changes_iff (paths : List (List Char)) :
    visitPaths paths initialLastPath = some (changes none paths) ↔ TellsApart [] paths :=
  holds_initial.visitPaths_iff paths

/-- A path that begins the one before is not visited, and a long path does not fit. -/
theorem visitPaths_short_after_long :
    visitPaths ["/lib/libc.so.6".toList, "/lib/libc.so".toList] initialLastPath = some [true, false] ∧
      changes none ["/lib/libc.so.6".toList, "/lib/libc.so".toList] = [true, true] ∧
      visitPaths [List.replicate 257 'a'] initialLastPath = none := by
  decide +kernel

/-! ## `printf` -/

/-- Formats are written right, and without an access outside of the buffer, exactly if no more text stands in one place than
fits into the buffer and no hexadecimal or unsigned number needs the largest power of the base. -/
theorem printsExpansion_iff (bound hexBound decBound : Nat) :
    (∀ pieces, RunsWithin bound 0 pieces → (∀ piece ∈ pieces, piece.WellFormed hexBound decBound) → PrintsExpansion pieces) ↔
      bound ≤ writeBuffSize ∧ hexBound ≤ 16 ^ 15 ∧ decBound ≤ 10 ^ 19 := by
  constructor
  · intro h
    refine ⟨Nat.not_lt.mp fun hlt => ?_, Nat.not_lt.mp fun hlt => ?_, Nat.not_lt.mp fun hlt => ?_⟩
    · unfold writeBuffSize at hlt
      refine not_prints_long_text (h _ (runsWithin_replicate 'a' (by omega)) fun piece hpiece => ?_)
      rw [List.eq_of_mem_replicate hpiece]
      exact ⟨by decide, by decide⟩
    · exact not_prints_large_pointer (h _ trivial (List.forall_mem_singleton.mpr hlt))
    · exact not_prints_large_unsigned (h _ trivial (List.forall_mem_singleton.mpr hlt))
  · rintro ⟨hbound, hhex, hdec⟩ pieces hruns hwf
    exact loop_pieces (hruns.mono hbound) (fun piece hpiece => (hwf piece hpiece).mono hhex hdec) (Nat.lt_succ_self _)

/-- The character after a full buffer is taken for a `%`, and a large number ends in a division by zero. -/
theorem printf_full_buffer :
    printf (List.replicate 256 'a') [] = some (List.replicate 255 'a' ++ ['%']) ∧
      printf ['%', 'p'] [.int (16 ^ 15)] = none ∧
      printf ['%', 'l', 'u'] [.int (10 ^ 19)] ≠ some (Nat.toDigits 10 (10 ^ 19)) := by
  decide +kernel

/-- Exactly the numbers below the last power of the base that fits in 64 bits, or below the one before it for the base 16, are
written as their numerals. -/
theorem writeGenericInt_numeral_iff {data base : Nat} (hdata : data < 2 ^ 64) (hbase : base = 10 ∨ base = 16)
    (is64Bit isSigned : Bool) :
    writeGenericInt data is64Bit isSigned base = some (numeral (if isSigned then signedData is64Bit data else data) base) ↔
      (if isSigned then signedData is64Bit data else data).natAbs < if base = 10 then 10 ^ 19 else 16 ^ 15 := by
  have habs : (if isSigned then signedData is64Bit data else data).natAbs < 2 ^ 64 := by
    cases isSigned with
    | false => exact hdata
    | true => exact (natAbs_signedData_lt).trans (by decide)
  rcases hbase with rfl | rfl
  · exact writeGenericInt_eq_iff (by decide) (by decide) (by decide) (by decide) (by decide) rfl habs
  · exact writeGenericInt_eq_iff (by decide) (by decide) (by decide) (by decide) (by decide) rfl habs

theorem writeGenericInt_numeral_min :
    writeGenericInt (2 ^ 63) true true 10 = some (numeral (signedData true (2 ^ 63)) 10) ∧ signedData true (2 ^ 63) < 0 :=
  ⟨(writeGenericInt_numeral_iff (by decide) (.inl rfl) true true).mpr (by decide), by decide⟩

theorem writeGenericInt_large :
    writeGenericInt (16 ^ 15) true false 16 = none ∧
      writeGenericInt (10 ^ 19) true false 10 ≠ some (numeral (10 ^ 19 : Nat) 10) := by
  decide +kernel

end Granary.User
