import Granary.Fragments.Search

/-!
# The search of a slab finds its blocks
-/

namespace Granary.Fragments.Search

open Machine Bisect List BitVec

attribute [local simp] Except.bind Except.pure

variable {h : Heap} {s : Slab h} {e : Entry} {pc : Word}
variable {p blocks lo hi a : Word} {b : BlockRecord} {first last middle : Int} {left : Nat}

/-! ## Reads -/

theorem Heap.block_of_some (hb : h.blocks p = some b) : h.block p = .ok b := by
  rw [Heap.block, hb]
  rfl

theorem Heap.trace_of_some {t : TraceRecord} (ht : h.traces p = some t) : h.trace p = .ok t := by
  rw [Heap.trace, ht]
  rfl

theorem Heap.Describes.startPc_eq (he : h.Describes e) : startPc h e.ptr = .ok e.lo := by
  cases he with
  | block htag hb => simp [startPc, htag, h.block_of_some hb, bind, pure]
  | trace htag ht _ => simp [startPc, htag, h.trace_of_some ht, bind, pure]

theorem Heap.Describes.endPc_eq (he : h.Describes e) : endPc h e.ptr = .ok e.hi := by
  cases he with
  | block htag hb => simp [endPc, htag, h.block_of_some hb, bind, pure]
  | trace htag ht _ => simp [endPc, htag, h.trace_of_some ht, bind, pure]

theorem readEntry_array {i : Int} (h0 : 0 ≤ i) (he : s.entries[i.toNat]? = some e) : readEntry s.array i = .ok e.ptr := by
  have hp : s.array[i.toNat]? = some e.ptr := by
    rw [Slab.array, getElem?_map, he]
    rfl
  rw [readEntry, if_pos h0, hp]
  rfl

theorem long_of_le {x : Int} (hlo : -1 ≤ x) (hhi : x ≤ 4611686018427387904) : long x = .ok x :=
  if_pos ⟨by omega, by omega⟩

theorem middleOf_of_le (h0 : 0 ≤ first) (hl : -1 ≤ last) (hsum : first + last ≤ 4611686018427387904) :
    middleOf first last = .ok ((first + last).tdiv 2) := by
  rw [middleOf, long_of_le (by omega) hsum]
  rfl

/-! ## Tiles -/

theorem Heap.Tiles.le {i : Nat} (ht : h.Tiles blocks i left lo hi) : lo ≤ hi := by
  induction left generalizing i lo with
  | zero =>
    cases ht
    exact BitVec.le_refl _
  | succ left ih =>
    obtain ⟨b, _, _, hle, hrest⟩ := ht
    exact BitVec.le_trans hle (ih hrest)

theorem Heap.Tiles.contains {i j : Nat} (ht : h.Tiles blocks i left lo hi)
    (hij : i ≤ j) (hj : j < i + left) (hb : h.blocks (blockAt blocks j) = some b) (hc : b.Contains pc) :
    lo ≤ pc ∧ pc < hi := by
  induction left generalizing i lo with
  | zero => omega
  | succ left ih =>
    obtain ⟨c, hc', rfl, hle, hrest⟩ := ht
    obtain rfl | hlt := Nat.eq_or_lt_of_le hij
    · rw [hc'] at hb
      cases hb
      exact ⟨hc.1, Nat.lt_of_lt_of_le hc.2 hrest.le⟩
    · obtain ⟨hlo, hhi⟩ := ih hrest hlt (by omega)
      exact ⟨BitVec.le_trans hle hlo, hhi⟩

theorem Heap.Tiles.getBlockFrom_eq {i : Nat} (ht : h.Tiles blocks i left lo hi) (hlo : lo ≤ pc) (hhi : pc < hi) :
    ∃ j b, i ≤ j ∧ j < i + left ∧ h.blocks (blockAt blocks j) = some b ∧ b.Contains pc ∧
      (∀ k c, i ≤ k → k < i + left → h.blocks (blockAt blocks k) = some c → c.Contains pc → k = j) ∧
      getBlockFrom h blocks pc i left = .ok (blockAt blocks j) := by
  induction left generalizing i lo with
  | zero =>
    cases ht
    exact absurd hlo (BitVec.not_le.mpr hhi)
  | succ left ih =>
    obtain ⟨b, hb, rfl, hle, hrest⟩ := ht
    by_cases hin : pc < b.endPc
    · refine ⟨i, b, Nat.le_refl _, by omega, hb, ⟨hlo, hin⟩, fun k c hk hkl hc hcc => ?_, ?_⟩
      · obtain rfl | hlt := Nat.eq_or_lt_of_le hk
        · rfl
        · exact absurd (hrest.contains hlt (by omega) hc hcc).1 (BitVec.not_le.mpr hin)
      · simp [getBlockFrom, h.block_of_some hb, bind, pure, hlo, hin]
    · obtain ⟨j, c, hij, hjl, hc, hcc, huniq, hget⟩ := ih hrest (BitVec.not_lt.mp hin)
      refine ⟨j, c, by omega, by omega, hc, hcc, fun k d hk hkl hd hdc => ?_, ?_⟩
      · obtain rfl | hlt := Nat.eq_or_lt_of_le hk
        · rw [hb] at hd
          cases hd
          exact absurd hdc.2 hin
        · exact huniq k d hlt (by omega) hd hdc
      · simp [getBlockFrom, h.block_of_some hb, bind, hin, hget]

/-! ## Entries -/

theorem Heap.Describes.contains (he : h.Describes e) (hb : h.BlockOf e.ptr a b) (hc : b.Contains pc) : e.Contains pc := by
  obtain ⟨hab, hof⟩ := hb
  cases he with
  | block htag hb =>
    simp only [htag, Bool.false_eq_true, if_false] at hof
    rw [hof, hb] at hab
    cases hab
    exact hc
  | trace htag ht htiles =>
    simp only [htag, if_true] at hof
    obtain ⟨t, ht', i, hi, rfl⟩ := hof
    rw [ht] at ht'
    cases ht'
    exact htiles.contains (Nat.zero_le _) (by omega) hab hc

theorem Heap.Describes.getBlock_eq (he : h.Describes e) (hpc : e.Contains pc) :
    ∃ a b, h.BlockOf e.ptr a b ∧ b.Contains pc ∧ (∀ a' b', h.BlockOf e.ptr a' b' → b'.Contains pc → a' = a) ∧
      getBlock h e.ptr pc = .ok a := by
  cases he with
  | @block p b htag hb =>
    refine ⟨p, b, ⟨hb, by simp [htag]⟩, hpc, fun a' b' hof _ => ?_, by simp [getBlock, htag, pure]⟩
    simpa [htag] using hof.2
  | @trace p t htag ht htiles =>
    obtain ⟨j, b, _, hj, hb, hbc, huniq, hget⟩ := htiles.getBlockFrom_eq hpc.1 hpc.2
    refine ⟨blockAt t.info j, b, ⟨hb, ?_⟩, hbc, fun a' b' hof hbc' => ?_, ?_⟩
    · simp only [htag, if_true]
      exact ⟨t, ht, j, by omega, rfl⟩
    · obtain ⟨hab, hof⟩ := hof
      simp only [htag, if_true] at hof
      obtain ⟨t', ht', i, hi, rfl⟩ := hof
      rw [ht] at ht'
      cases ht'
      rw [huniq i b' (Nat.zero_le _) (by omega) hab hbc']
    · simp [getBlock, htag, h.trace_of_some ht, bind, hget]

/-! ## The loop -/

theorem Slab.ordered (s : Slab h) : Ordered (fun e : Entry => e.lo.toNat) (fun e => e.hi.toNat) s.entries where
  range e he := BitVec.le_def.mp (BitVec.le_of_lt (s.nonempty e he))
  pairwise := by
    have hpair := s.sorted.and s.disjoint
    refine hpair.imp_of_mem fun {a b} ha hb hab => ?_
    by_contra hlt
    have hlt' : b.lo < a.hi := by
      rw [BitVec.lt_def]
      omega
    exact hab.2 b.lo ⟨⟨hab.1, hlt'⟩, ⟨BitVec.le_refl _, s.nonempty b hb⟩⟩

section

variable (h0 : 0 ≤ first) (hm : first ≤ middle ∧ middle ≤ last)

include h0 hm

theorem searchLoop_inside
    (he : s.entries[middle.toNat]? = some e) (hlo : e.lo.toNat ≤ pc.toNat) (hhi : pc.toNat < e.hi.toNat) :
    searchLoop h s.array pc first last middle = getBlock h e.ptr pc := by
  have hd := s.describes e (mem_of_getElem? he)
  rw [searchLoop, dif_pos hm, readEntry_array (by omega) he]
  simp only [bind, Except.bind, hd.startPc_eq, hd.endPc_eq]
  rw [if_pos (le_def.mpr hlo), if_pos (lt_def.mpr hhi)]

theorem searchLoop_above
    (hlen : last < 2305843009213693952) (he : s.entries[middle.toNat]? = some e) (hlo : e.lo.toNat ≤ pc.toNat)
    (hhi : ¬ pc.toNat < e.hi.toNat) :
    searchLoop h s.array pc first last middle =
      searchLoop h s.array pc (middle + 1) last ((middle + 1 + last).tdiv 2) := by
  have hd := s.describes e (mem_of_getElem? he)
  have hlong : long (middle + 1) = .ok (middle + 1) := long_of_le (by omega) (by omega)
  have hmiddle : middleOf (middle + 1) last = .ok ((middle + 1 + last).tdiv 2) :=
    middleOf_of_le (by omega) (by omega) (by omega)
  rw [searchLoop, dif_pos hm, readEntry_array (by omega) he]
  simp only [bind, Except.bind, hd.startPc_eq, hd.endPc_eq]
  rw [if_pos (le_def.mpr hlo), if_neg (by rwa [lt_def])]
  simp only [hlong, hmiddle]

theorem searchLoop_below
    (hlen : last < 2305843009213693952) (he : s.entries[middle.toNat]? = some e) (hlo : ¬ e.lo.toNat ≤ pc.toNat) :
    searchLoop h s.array pc first last middle =
      searchLoop h s.array pc first (middle - 1) ((first + (middle - 1)).tdiv 2) := by
  have hd := s.describes e (mem_of_getElem? he)
  have hlong : long (middle - 1) = .ok (middle - 1) := long_of_le (by omega) (by omega)
  have hmiddle : middleOf first (middle - 1) = .ok ((first + (middle - 1)).tdiv 2) :=
    middleOf_of_le (by omega) (by omega) (by omega)
  rw [searchLoop, dif_pos hm, readEntry_array (by omega) he]
  simp only [bind, Except.bind, hd.startPc_eq, hd.endPc_eq]
  rw [if_neg (by rwa [le_def])]
  simp only [hlong, hmiddle]

end

theorem searchLoop_eq (h0 : 0 ≤ first) (hfirst : first ≤ s.entries.length) (hl : -1 ≤ last) (hlen : last < s.entries.length) :
    searchLoop h s.array pc first last ((first + last).tdiv 2) =
      match bisect (fun e : Entry => e.lo.toNat) (fun e => e.hi.toNat) s.entries pc.toNat first last with
      | none => .ok 0
      | some e => getBlock h e.ptr pc := by
  have hfits := s.fits
  fun_induction bisect (fun e : Entry => e.lo.toNat) (fun e => e.hi.toNat) s.entries pc.toNat first last with
  | case1 first last middle hm hnone =>
    rw [List.getElem?_eq_none_iff] at hnone
    omega
  | case2 first last middle hm e he hlo hhi => exact searchLoop_inside h0 hm he hlo hhi
  | case3 first last middle hm e he hlo hhi ih =>
    exact (searchLoop_above h0 hm (by omega) he hlo hhi).trans (ih (by omega) (by omega) hl hlen)
  | case4 first last middle hm e he hlo ih =>
    exact (searchLoop_below h0 hm (by omega) he hlo).trans (ih h0 hfirst (by omega) (by omega))
  | case5 first last middle hm =>
    rw [searchLoop, dif_neg hm]
    rfl

/-- This is how `Fragments.searchBasicBlockInfo` searches its records. -/
theorem searchBasicBlockInfo_eq :
    searchBasicBlockInfo h s.array pc =
      match bisect (fun e : Entry => e.lo.toNat) (fun e => e.hi.toNat) s.entries pc.toNat 0 (s.entries.length - 1) with
      | none => .ok 0
      | some e => getBlock h e.ptr pc := by
  have hfits := s.fits
  have hlen : s.array.length = s.entries.length := length_map _
  by_cases hzero : s.entries.length = 0
  · have hnil : s.entries = [] := eq_nil_of_length_eq_zero hzero
    rw [searchBasicBlockInfo, hlen, hzero, bisect]
    rfl
  · have hmiddle : middleOf 0 (s.entries.length - 1) = .ok ((0 + (s.entries.length - 1 : Int)).tdiv 2) :=
      middleOf_of_le (by omega) (by omega) (by omega)
    have hlast : long (s.entries.length - 1) = .ok (s.entries.length - 1 : Int) := long_of_le (by omega) (by omega)
    rw [searchBasicBlockInfo, hlen]
    simp only [Int.natCast_eq_zero, hzero, if_false, hlast, bind,
      Except.bind, hmiddle]
    exact searchLoop_eq (by omega) (by omega) (by omega) (by omega)

theorem Slab.Block.exists_entry (hb : s.Block a b) : ∃ e ∈ s.entries, h.BlockOf e.ptr a b := by
  obtain ⟨p, hp, hof⟩ := hb
  obtain ⟨e, he, rfl⟩ := mem_map.mp hp
  exact ⟨e, he, hof⟩

theorem Slab.search_found (s : Slab h) (he : e ∈ s.entries) (hpc : e.Contains pc) :
    ∃ a b, s.Block a b ∧ b.Contains pc ∧ (∀ a' b', s.Block a' b' → b'.Contains pc → a' = a) ∧
      searchBasicBlockInfo h s.array pc = .ok a := by
  obtain ⟨k, hk⟩ := mem_iff_getElem?.mp he
  have hklen : k < s.entries.length := (List.getElem?_eq_some_iff.mp hk).1
  have hfind : ∀ (k' : Nat) (e' : Entry), s.entries[k']? = some e' → e'.Contains pc →
      bisect (fun e : Entry => e.lo.toNat) (fun e => e.hi.toNat) s.entries pc.toNat 0 (s.entries.length - 1) =
        some e' := by
    intro k' e' hk' hpc'
    have hlen : k' < s.entries.length := (List.getElem?_eq_some_iff.mp hk').1
    exact s.ordered.bisect_eq hk' hpc'.1 hpc'.2 0 _ (by omega) (by omega) (by omega) (by omega)
  obtain ⟨a, b, hof, hbc, huniq, hget⟩ := (s.describes e he).getBlock_eq hpc
  refine ⟨a, b, ⟨e.ptr, mem_map_of_mem he, hof⟩, hbc, fun a' b' hb' hbc' => ?_, ?_⟩
  · obtain ⟨e', he', hof'⟩ := hb'.exists_entry
    obtain ⟨k', hk'⟩ := mem_iff_getElem?.mp he'
    -- the search finds one entry only
    have hsame := (hfind k' e' hk' ((s.describes e' he').contains hof' hbc')).symm.trans (hfind k e hk hpc)
    cases hsame
    exact huniq a' b' hof' hbc'
  · rw [searchBasicBlockInfo_eq, hfind k e hk hpc]
    exact hget

theorem Slab.search_missing (s : Slab h) (hpc : ∀ e ∈ s.entries, ¬ e.Contains pc) :
    searchBasicBlockInfo h s.array pc = .ok 0 := by
  rw [searchBasicBlockInfo_eq]
  cases hb : bisect (fun e : Entry => e.lo.toNat) (fun e => e.hi.toNat) s.entries pc.toNat 0 (s.entries.length - 1) with
  | none => rfl
  | some e =>
    obtain ⟨he, hlo, hhi⟩ := bisect_some _ _ hb
    exact absurd ⟨hlo, hhi⟩ (hpc e he)

end Granary.Fragments.Search
