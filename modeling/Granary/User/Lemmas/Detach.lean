import Granary.User.Detach
import Mathlib.Data.List.TakeWhile

/-!
# Lemmas about the libraries of a process
-/

namespace Granary.User

/-! ## Texts -/

inductive Scan : Option (List Char) → List Char → List (List Char) → Prop
  | nil : Scan none [] []
  | skip {c text paths} (hc : c ≠ '/') (h : Scan none text paths) : Scan none (c :: text) paths
  | start {text paths} (h : Scan (some ['/']) text paths) : Scan none ('/' :: text) paths
  | copy {path c text paths} (hc : c ≠ '\n') (hlen : path.length + 1 ≤ lineSize)
      (h : Scan (some (path ++ [c])) text paths) : Scan (some path) (c :: text) paths
  | complete {path text paths} (h : Scan none ('\n' :: text) paths) : Scan (some path) ('\n' :: text) (path :: paths)

section

variable {paths : List (List Char)} {path rest later : List Char}

theorem Scan.copied (h : Scan none ('\n' :: rest) paths) {text : List Char} (hline : '\n' ∉ text)
    (hlen : path.length + text.length ≤ lineSize) : Scan (some path) (text ++ '\n' :: rest) ((path ++ text) :: paths) := by
  induction text generalizing path with
  | nil => simpa using h.complete
  | cons c text ih =>
    simp only [List.length_cons] at hlen
    have hcopied : Scan (some (path ++ [c])) (text ++ '\n' :: rest) ((path ++ [c] ++ text) :: paths) :=
      ih (fun hmem => hline (List.mem_cons_of_mem _ hmem)) (by simp; omega)
    rw [List.append_assoc, List.singleton_append] at hcopied
    exact .copy (fun hc => hline (hc ▸ List.mem_cons_self)) (by omega) hcopied

theorem Scan.line (h : Scan none rest paths) {line : List Char} (hline : '\n' ∉ line)
    (hlen : (pathOf line).length ≤ lineSize) : Scan none (line ++ '\n' :: rest) ([pathOf line].filter (· ≠ []) ++ paths) := by
  have hend : Scan none ('\n' :: rest) paths := .skip (by decide) h
  induction line with
  | nil => exact hend
  | cons c line ih =>
    have hrest : '\n' ∉ line := fun hmem => hline (List.mem_cons_of_mem _ hmem)
    by_cases hc : c = '/'
    · subst hc
      have hpath : pathOf ('/' :: line) = '/' :: line := by simp [pathOf]
      rw [hpath] at hlen ⊢
      refine .start (hend.copied hrest ?_)
      simp only [List.length_cons] at hlen
      simp only [List.length_singleton]
      omega
    · have hpath : pathOf (c :: line) = pathOf line := by simp [pathOf, hc]
      rw [hpath] at hlen ⊢
      exact .skip hc (ih hrest hlen)

theorem scan_lines {lines : List (List Char)} (hlines : ∀ line ∈ lines, '\n' ∉ line)
    (hlen : ∀ line ∈ lines, (pathOf line).length ≤ lineSize) : Scan none (lines.flatMap (· ++ ['\n'])) (pathsOf lines) := by
  induction lines with
  | nil => exact .nil
  | cons line lines ih =>
    obtain ⟨hline, hlines⟩ := List.forall_mem_cons.mp hlines
    obtain ⟨hlen, hlens⟩ := List.forall_mem_cons.mp hlen
    have hscan := (ih hlines hlens).line hline hlen
    have hpaths : pathsOf (line :: lines) = [pathOf line].filter (· ≠ []) ++ pathsOf lines := by
      rw [pathsOf, pathsOf, ← List.filter_append, List.map_cons, List.singleton_append]
    rw [hpaths, List.flatMap_cons, List.append_assoc, List.singleton_append]
    exact hscan

/-! ## The loops in a round -/

theorem Scan.dropWhile {buff : List Char} (h : Scan none (buff ++ later) paths) :
    (buff.dropWhile (· ≠ '/') = [] ∧ Scan none later paths) ∨
      ∃ unread, buff.dropWhile (· ≠ '/') = '/' :: unread ∧ unread.length < buff.length ∧
        Scan (some ['/']) (unread ++ later) paths := by
  induction buff with
  | nil => exact .inl ⟨rfl, h⟩
  | cons c buff ih =>
    cases h with
    | skip hc h =>
      rw [List.dropWhile_cons, if_pos (by simpa using hc)]
      rcases ih h with hleft | ⟨unread, hdrop, hlt, hscan⟩
      · exact .inl hleft
      · exact .inr ⟨unread, hdrop, Nat.lt_succ_of_lt hlt, hscan⟩
    | start h => exact .inr ⟨buff, by simp, Nat.lt_succ_self _, h⟩

theorem Scan.copyPath {buff : List Char} (h : Scan (some path) (buff ++ later) paths) :
    (∃ path', User.copyPath buff path path.length = some ([], path', path'.length) ∧ Scan (some path') later paths) ∨
      ∃ unread path' paths', User.copyPath buff path path.length = some ('\n' :: unread, path', path'.length) ∧
        unread.length < buff.length ∧ paths = path' :: paths' ∧ Scan none ('\n' :: unread ++ later) paths' := by
  induction buff generalizing path with
  | nil => exact .inl ⟨path, rfl, h⟩
  | cons c buff ih =>
    cases h with
    | copy hc hlen h =>
      have hstep : User.copyPath (c :: buff) path path.length =
          User.copyPath buff (path ++ [c]) (path ++ [c]).length := by
        rw [User.copyPath, if_neg hc, if_pos hlen, List.length_append, List.length_singleton]
      rw [hstep]
      rcases ih h with hleft | ⟨unread, path', paths', hcopy, hlt, hpaths, hscan⟩
      · exact .inl hleft
      · exact .inr ⟨unread, path', paths', hcopy, Nat.lt_succ_of_lt hlt, hpaths, hscan⟩
    | complete h => exact .inr ⟨buff, path, _, rfl, Nat.lt_succ_self _, rfl, h⟩

end

/-! ## Rounds -/

structure ProcMaps.Inv (s : ProcMaps) (paths : List (List Char)) : Prop where
  empty : s.readBuffEmpty = true → s.readBuff = []
  ended : s.canRead = false → s.chunks = []
  chunks : ∀ chunk ∈ s.chunks, chunk ≠ [] ∧ chunk.length ≤ lineSize ∧ '\x00' ∉ chunk
  path : s.findPath = false → s.pathLen = s.pathBuff.length
  scan : Scan (if s.findPath then none else some s.pathBuff) (s.readBuff ++ s.chunks.flatten) paths

def ProcMaps.rank (s : ProcMaps) : Nat :=
  4 * (s.readBuff.length + s.chunks.flatten.length) + (if s.findPath then 0 else 2) + (if s.readBuffEmpty then 0 else 1) +
    (if s.canRead then 2 else 0)

def callsFor (paths : List (List Char)) : List (List Char × Nat) := paths.map fun path => (path, path.length)

def ProcMaps.GoesOn (s : ProcMaps) (paths : List (List Char)) (rank : Nat) (result : Option (Bool × ProcMaps)) : Prop :=
  ∃ s' paths', result = some (true, s') ∧ s'.Inv paths' ∧ s'.rank < rank ∧
    s'.visited ++ callsFor paths' = s.visited ++ callsFor paths

namespace ProcMaps

variable {s : ProcMaps} {paths : List (List Char)}

theorem Inv.fill_spec (h : s.Inv paths) :
    ∃ t, s.fill = some t ∧ t.Inv paths ∧ t.visited = s.visited ∧ (t.readBuffEmpty = true → t.canRead = false) ∧
      t.rank ≤ s.rank + min 1 t.readBuff.length := by
  by_cases hfill : (s.canRead && s.readBuffEmpty) = true
  · obtain ⟨hcan, hempty⟩ := Bool.and_eq_true_iff.mp hfill
    have hbuff := h.empty hempty
    have hscan := h.scan
    rw [fill, if_pos hfill]
    cases hchunks : s.chunks with
    | nil =>
      rw [hbuff, hchunks] at hscan
      refine ⟨_, rfl, ⟨fun _ => rfl, fun _ => rfl, fun _ hmem => absurd hmem List.not_mem_nil, h.path, hscan⟩, rfl,
        fun h => absurd h Bool.false_ne_true, ?_⟩
      simp only [rank, hbuff, hcan, hempty, hchunks, List.flatten_nil, List.length_nil, if_true, Bool.false_eq_true,
        if_false]
      omega
    | cons chunk chunks =>
      obtain ⟨⟨hne, hlen, hnull⟩, hrest⟩ := List.forall_mem_cons.mp (hchunks ▸ h.chunks)
      have hwhole : chunk.takeWhile (· ≠ '\x00') = chunk :=
        List.takeWhile_eq_self_iff.mpr fun c hc => by
          simpa using ne_of_mem_of_not_mem hc hnull
      have hpos : 0 < chunk.length := List.length_pos_iff.mpr hne
      rw [hbuff, hchunks] at hscan
      simp only [if_pos hlen, hwhole]
      refine ⟨_, rfl, ⟨fun h => absurd h Bool.false_ne_true, fun h => ?_, hrest, h.path, hscan⟩, rfl,
        fun h => absurd h Bool.false_ne_true, ?_⟩
      · simp [hpos] at h
      · simp only [rank, hbuff, hcan, hempty, hchunks, hpos, List.flatten_cons, List.length_append, List.length_nil,
          decide_true, if_true, Bool.false_eq_true, if_false]
        omega
  · rw [fill, if_neg hfill]
    refine ⟨s, rfl, h, rfl, fun hempty => ?_, Nat.le_add_right _ _⟩
    simpa [hempty] using hfill

theorem find_of_drop {unread : List Char} (hfull : s.readBuffEmpty = false)
    (hdrop : s.readBuff.dropWhile (· ≠ '/') = '/' :: unread) :
    s.find = (copyPath unread ['/'] ['/'].length).bind fun (unread, path, len) =>
      if unread.head? = some '\n' then
        some (true, { s with readBuff := unread, pathBuff := path, pathLen := 0, visited := s.visited ++ [(path, len)] })
      else some (true, { s with readBuff := unread, pathBuff := path, pathLen := len, findPath := false }) := by
  have hfirst : copyPath ('/' :: unread) [] 0 = copyPath unread ['/'] ['/'].length := by
    rw [copyPath, if_neg (by decide), if_pos (by decide), List.nil_append, List.length_singleton]
  rw [find, if_neg (by simp [hfull]), hdrop]
  simp only [hfirst]
  rfl

theorem Inv.find_spec (h : s.Inv paths) (hfind : s.findPath = true) (hfull : s.readBuffEmpty = false) :
    s.GoesOn paths (s.rank - min 1 s.readBuff.length) s.find := by
  have hscan := h.scan
  have hnot : s.readBuffEmpty ≠ true := by simp [hfull]
  rw [if_pos hfind] at hscan
  rcases hscan.dropWhile with ⟨hdrop, hscan⟩ | ⟨unread, hdrop, hlt, hscan⟩
  · rw [find, if_neg hnot, hdrop]
    refine ⟨_, paths, rfl, ⟨fun _ => rfl, h.ended, h.chunks, h.path, by simpa [hfind] using hscan⟩, ?_, rfl⟩
    simp only [rank, hfind, hfull, List.length_nil, if_true, Bool.false_eq_true, if_false]
    omega
  · rw [find_of_drop hfull hdrop]
    rcases hscan.copyPath with ⟨path, hcopy, hscan⟩ | ⟨unread', path, paths', hcopy, hlt', hpaths, hscan⟩
    · rw [hcopy]
      refine ⟨_, paths, rfl, ⟨fun h => absurd h hnot, h.ended, h.chunks, fun _ => rfl, hscan⟩, ?_, rfl⟩
      simp only [rank, hfind, hfull, List.length_nil, if_true, Bool.false_eq_true, if_false]
      omega
    · rw [hcopy]
      refine ⟨_, paths', rfl, ⟨fun h => absurd h hnot, h.ended, h.chunks,
        fun h => by simp [hfind] at h, by simpa [hfind] using hscan⟩, ?_,
        by simp [hpaths, callsFor]⟩
      simp only [rank, hfind, hfull, List.length_cons, if_true, Bool.false_eq_true, if_false]
      omega

theorem Inv.complete_spec (h : s.Inv paths) (hfind : s.findPath = false) (hfull : s.readBuffEmpty = false) :
    s.GoesOn paths (s.rank - min 1 s.readBuff.length) s.complete := by
  have hscan := h.scan
  rw [if_neg (by simp [hfind])] at hscan
  rw [complete, h.path hfind]
  rcases hscan.copyPath with ⟨path, hcopy, hscan⟩ | ⟨unread, path, paths', hcopy, hlt, hpaths, hscan⟩
  · rw [hcopy]
    refine ⟨_, paths, rfl, ⟨fun _ => rfl, h.ended, h.chunks, fun _ => rfl, by simpa [hfind] using hscan⟩, ?_, rfl⟩
    simp only [rank, hfind, hfull, List.length_nil, if_true, Bool.false_eq_true, if_false]
    omega
  · rw [hcopy]
    refine ⟨_, paths', rfl, ⟨fun h => by simp [hfull] at h, h.ended, h.chunks, fun h => by simp at h, hscan⟩, ?_,
      by simp [hpaths, callsFor]⟩
    simp only [rank, hfind, hfull, List.length_cons, if_true, Bool.false_eq_true, if_false]
    omega

/-- A round either ends the loop, when no paths are to come, or brings it closer to its end. -/
theorem Inv.round_spec (h : s.Inv paths) :
    s.GoesOn paths s.rank s.round ∨ ∃ t, s.round = some (false, t) ∧ t.visited = s.visited ∧ paths = [] := by
  obtain ⟨t, hfill, ht, hvisited, hlast, hrank⟩ := h.fill_spec
  rw [round, hfill, Option.bind_eq_bind, Option.bind_some]
  cases hempty : t.readBuffEmpty with
  | true =>
    have hscan := ht.scan
    rw [ht.empty hempty, ht.ended (hlast hempty)] at hscan
    cases hfind : t.findPath with
    | true =>
      rw [if_pos hfind] at hscan
      cases hscan
      exact .inr ⟨t, by rw [if_pos rfl, find, if_pos hempty, hlast hempty], hvisited, rfl⟩
    | false =>
      rw [hfind] at hscan
      cases hscan
  | false =>
    left
    have hgoes : t.GoesOn paths (t.rank - min 1 t.readBuff.length) (if t.findPath then t.find else t.complete) := by
      cases hfind : t.findPath with
      | true => exact ht.find_spec hfind hempty
      | false => exact ht.complete_spec hfind hempty
    obtain ⟨s', paths', hround, hinv, hlt, hcalls⟩ := hgoes
    exact ⟨s', paths', hround, hinv, by omega, hvisited ▸ hcalls⟩

theorem Inv.loop_eq (h : s.Inv paths) {fuel : Nat} (hfuel : s.rank < fuel) :
    s.loop fuel = some (s.visited ++ callsFor paths) := by
  induction fuel generalizing s paths with
  | zero => exact absurd hfuel (Nat.not_lt_zero _)
  | succ fuel ih =>
    rcases h.round_spec with ⟨s', paths', hround, hinv, hlt, hcalls⟩ | ⟨t, hround, hvisited, rfl⟩
    · rw [loop, hround]
      exact (ih hinv (by omega)).trans (congrArg some hcalls)
    · rw [loop, hround]
      exact congrArg some (hvisited.trans (List.append_nil _).symm)

end ProcMaps

/-! ## Visited paths -/

section

variable {path lastPath : List Char} {earlier : List (List Char)}

theorem leftAt_cons (i : Nat) : leftAt (path :: earlier) i = path[i]?.getD (leftAt earlier i) := by
  rw [leftAt, List.find?_cons]
  by_cases hi : i < path.length
  · simp [hi]
  · simp [hi, leftAt]

/-- The buffer with the last path holds what earlier paths left there. -/
def Holds (lastPath : List Char) (earlier : List (List Char)) : Prop :=
  lastPath.length = 256 ∧ ∀ i, i < 256 → lastPath[i]? = some (leftAt earlier i)

theorem holds_initial : Holds initialLastPath [] :=
  ⟨List.length_replicate, fun i hi => by rw [initialLastPath, List.getElem?_replicate, if_pos hi]; rfl⟩

section

variable (h : Holds lastPath earlier) (hlen : path.length ≤ 256)

include h hlen

theorem Holds.eq_take_iff :
    path = lastPath.take path.length ↔ ¬∃ i, path[i]? ≠ none ∧ path[i]? ≠ some (leftAt earlier i) := by
  rw [List.ext_getElem?_iff, not_exists]
  refine forall_congr' fun i => ?_
  rw [List.getElem?_take]
  by_cases hi : i < path.length
  · rw [if_pos hi, h.2 i (by omega)]
    simp [hi]
  · rw [if_neg hi]
    simp [hi]

theorem Holds.eq_take_of_head (hhead : earlier.head? = some path) :
    path = lastPath.take path.length := by
  obtain ⟨earlier, rfl⟩ := List.head?_eq_some_iff.mp hhead
  refine (h.eq_take_iff hlen).mpr ?_
  rintro ⟨i, hsome, hne⟩
  obtain ⟨c, hc⟩ := Option.ne_none_iff_exists'.mp hsome
  exact hne (by rw [leftAt_cons, hc, Option.getD_some])

theorem Holds.cons_of_eq (heq : path = lastPath.take path.length) :
    Holds lastPath (path :: earlier) := by
  refine ⟨h.1, fun i hi => ?_⟩
  rw [h.2 i hi, leftAt_cons]
  cases hc : path[i]? with
  | none => rfl
  | some c =>
    by_contra hne
    refine (h.eq_take_iff hlen).mp heq ⟨i, by simp [hc], fun hleft => hne ?_⟩
    rw [← hleft, hc, Option.getD_some]

theorem Holds.cons :
    Holds (path ++ lastPath.drop path.length) (path :: earlier) := by
  refine ⟨by rw [List.length_append, List.length_drop, h.1]; omega, fun i hi => ?_⟩
  rw [leftAt_cons, List.getElem?_append]
  by_cases hlt : i < path.length
  · simp [hlt]
  · rw [if_neg hlt, List.getElem?_drop, show path.length + (i - path.length) = i by omega, h.2 i hi]
    simp [hlt]

end

theorem visitPaths_cons :
    visitPaths (path :: paths) lastPath =
      (visitElfPath path lastPath).bind fun r => (visitPaths paths r.2).map fun rest => r.1 :: rest := by
  rw [visitPaths]
  cases visitElfPath path lastPath with
  | none => rfl
  | some r => cases hrest : visitPaths paths r.2 <;> simp [hrest]

end

theorem Holds.visitPaths_iff {lastPath : List Char} {earlier : List (List Char)} (h : Holds lastPath earlier)
    (paths : List (List Char)) :
    visitPaths paths lastPath = some (changes earlier.head? paths) ↔ TellsApart earlier paths := by
  induction paths generalizing lastPath earlier with
  | nil => simp [visitPaths, changes, TellsApart]
  | cons path paths ih =>
    rw [visitPaths_cons, visitElfPath, changes, TellsApart, h.1]
    by_cases hlen : path.length ≤ 256
    · rw [if_pos hlen, and_iff_right hlen]
      by_cases heq : path = lastPath.take path.length
      · have hrest := ih (h.cons_of_eq hlen heq)
        rw [if_pos heq, or_iff_left ((h.eq_take_iff hlen).mp heq), ← hrest]
        simp [and_comm]
      · have hrest := ih (h.cons hlen)
        have hhead : earlier.head? ≠ some path := mt (h.eq_take_of_head hlen) heq
        rw [if_neg heq, or_iff_right hhead, and_iff_right (not_not.mp (mt (h.eq_take_iff hlen).mpr heq)), ← hrest]
        simp [hhead]
    · rw [if_neg hlen]
      simp [hlen]

end Granary.User
