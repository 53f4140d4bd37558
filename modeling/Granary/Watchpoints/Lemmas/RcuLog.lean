import Granary.Watchpoints.RcuLog

/-!
# Reports of the RCU debugger

The slots hold the messages of this period, then what is left of earlier periods, then nothing.
-/

namespace Granary.Watchpoints

open Machine MessageLog LogOp
open List (replicate length_nil nil_append not_mem_nil length_append length_singleton)

variable {text : MessageContainer → List Char} {m : MessageContainer} {ms stale : List MessageContainer}
  {l l' : MessageLog} {p p' : Printing} {k most n : Nat} {ops : List LogOp}

/-! ## Printing -/

theorem LogOp.Printable.id_lt (h : Printable text m) : 0 < m.messageId.toNat ∧ m.messageId.toNat < 15 := by
  obtain ⟨hid, harity, -⟩ := h
  have hlt := (List.getElem?_eq_some_iff.mp harity).1
  have hlen : messageArities.length = 14 := rfl
  have hne : m.messageId.toNat ≠ 0 := fun he => hid (BitVec.eq_of_toNat_eq he)
  omega

theorem LogOp.Printable.args_length (h : Printable text m) : m.args.length ≠ 0 ∧ m.args.length ≤ 4 := by
  have hall : ∀ k ∈ messageArities, k ≠ 0 ∧ k ≤ 4 := by decide
  exact hall _ (List.mem_of_getElem? h.2.1)

def MessageLog.Printing.written (p : Printing) : List Char := p.chunks.flatten ++ p.buffer

theorem written_flush (p : Printing) : (flush p).written = p.written := by
  simp [flush, Printing.written]

theorem print_printable (h : Printable text m) (hb : p.buffer.length < bufferFlushSize) :
    print text m p = .ok { p with buffer := p.buffer ++ text m, printed := p.printed ++ [m] } := by
  obtain ⟨hpos, hlt⟩ := h.id_lt
  obtain ⟨hargs, hargs'⟩ := h.args_length
  have htext := h.2.2
  have hid : ¬messageInfoLength ≤ m.messageId.toNat := by
    unfold messageInfoLength
    omega
  have hnull : ¬(m.messageId = messageNotReady ∨ m.messageId = maxMessageId) := by
    rintro (he | he) <;> rw [he] at hpos hlt <;> revert hpos hlt <;> decide
  have hroom : ¬bufferSize < p.buffer.length + (text m).length + 1 := by
    unfold bufferFlushSize bufferSize at *
    omega
  rw [print, if_neg hid, if_neg hnull, if_neg (by omega), if_neg hroom]
  rfl

theorem reportSlot_printable (h : Printable text m) (p : Printing) :
    ∃ p', reportSlot text m p = .ok p' ∧ p'.printed = p.printed ++ [m] ∧ p'.written = p.written ++ text m := by
  have hrange : ¬(m.messageId ≤ messageNotReady ∧ maxMessageId ≤ m.messageId) := by
    intro hr
    exact absurd (BitVec.le_def.mp hr.1) (Nat.not_le_of_lt h.id_lt.1)
  have hflush : (flush p).buffer.length < bufferFlushSize := show 0 < bufferFlushSize by decide
  rw [reportSlot, if_neg h.1.symm, if_neg hrange]
  split
  · refine ⟨_, print_printable h hflush, rfl, ?_⟩
    rw [← written_flush p]
    simp [Printing.written]
  · next hb =>
      refine ⟨_, print_printable h (Nat.lt_of_not_le hb), rfl, ?_⟩
      simp [Printing.written]

theorem reportLoop_empty : reportLoop text k (replicate k emptySlot) p = .ok p := by
  induction k with
  | zero => rfl
  | succ k ih => exact ih

theorem reportLoop_printable (h : ∀ m ∈ ms, Printable text m) (p : Printing) :
    ∃ p', reportLoop text (ms.length + k) (ms ++ replicate k emptySlot) p = .ok p' ∧
      p'.printed = p.printed ++ ms ∧ p'.written = p.written ++ ms.flatMap text := by
  induction ms generalizing p with
  | nil =>
    refine ⟨p, ?_, by simp, by simp⟩
    rw [length_nil, Nat.zero_add]
    exact reportLoop_empty
  | cons m ms ih =>
    obtain ⟨p₁, hslot, hprinted, hwritten⟩ := reportSlot_printable (h m List.mem_cons_self) p
    obtain ⟨p₂, hloop, hprinted', hwritten'⟩ := ih (fun x hx => h x (List.mem_cons_of_mem _ hx)) p₁
    refine ⟨p₂, ?_, by simp [hprinted', hprinted], by simp [hwritten', hwritten]⟩
    rw [List.length_cons, Nat.add_right_comm, List.cons_append, reportLoop, hslot]
    exact hloop

theorem report_messages (hmessages : l.messages = ms ++ replicate k emptySlot)
    (hlen : ms.length + k = maxNumMessages) (hnum : l.numMessages = maxNumMessages)
    (hprintable : ∀ m ∈ ms, Printable text m) :
    ∃ p, l.report text = .ok (l.clearLog, p) ∧ p.printed = ms ∧ p.chunks.flatten = p.printed.flatMap text := by
  obtain ⟨p, hloop, hprinted, hwritten⟩ := reportLoop_printable hprintable { chunks := [], buffer := [], printed := [] }
  rw [hlen, ← hmessages, ← hnum] at hloop
  rw [nil_append] at hprinted
  have hall : p.written = p.printed.flatMap text := by
    rw [hwritten, hprinted]
    rfl
  refine ⟨if p.buffer = [] then p else flush p, ?_, ?_, ?_⟩
  · rw [MessageLog.report, hloop]
    rfl
  · split
    · exact hprinted
    · exact hprinted
  · split
    · next hb => rwa [Printing.written, hb, List.append_nil] at hall
    · rw [← written_flush] at hall
      simpa [Printing.written, flush] using hall

/-! ## Slots -/

/-- This period's messages are in the first slots, and `stale` is what earlier periods left behind them. -/
structure Stored (text : MessageContainer → List Char) (l : MessageLog) (most : Nat) (ms stale : List MessageContainer) :
    Prop where
  offset : l.nextLogOffset = BitVec.ofNat 64 ms.length
  messages : l.messages = ms.take maxNumMessages ++ (stale ++
    replicate (maxNumMessages - max most (min ms.length maxNumMessages)) emptySlot)
  printable : ∀ m ∈ ms, Printable text m
  stale_length : stale.length = most - min ms.length maxNumMessages
  most_le : most ≤ maxNumMessages

theorem stored_init : Stored text MessageLog.init 0 [] [] where
  offset := rfl
  messages := by simp [MessageLog.init]
  printable _ hm := absurd hm not_mem_nil
  stale_length := rfl
  most_le := Nat.zero_le _

theorem set_slot (hk : stale = [] → 0 < k) :
    (ms ++ (stale ++ replicate k emptySlot)).set ms.length m =
      ms ++ [m] ++ (stale.tail ++ replicate (if stale = [] then k - 1 else k) emptySlot) := by
  rw [List.set_append_right _ _ (Nat.le_refl _), Nat.sub_self, List.append_assoc]
  congr 1
  cases stale with
  | nil =>
    obtain ⟨k, rfl⟩ := Nat.exists_eq_add_one.mpr (hk rfl)
    rfl
  | cons x stale => rfl

theorem slots_succ {c : Nat} (hn : n < c) :
    (if most ≤ n then c - max most (min n c) - 1 else c - max most (min n c)) = c - max most (min (n + 1) c) ∧
      most - min n c - 1 = most - min (n + 1) c := by
  split <;> omega

section

variable (h : Stored text l most ms stale)

include h

theorem Stored.log (hm : Printable text m) (hn : ms.length < 2 ^ 64) :
    ∃ l' stale', l.log m = .ok l' ∧ Stored text l' most (ms ++ [m]) stale' := by
  have hid : ¬messageInfoLength ≤ m.messageId.toNat := by
    have := hm.id_lt
    unfold messageInfoLength
    omega
  have hindex : l.nextLogOffset.toNat = ms.length := by
    rw [h.offset, BitVec.toNat_ofNat, Nat.mod_eq_of_lt hn]
  have hoffset : l.nextLogOffset + 1 = BitVec.ofNat 64 (ms ++ [m]).length := by
    rw [h.offset, length_append, length_singleton, BitVec.ofNat_add]
    rfl
  have hprintable : ∀ x ∈ ms ++ [m], Printable text x := by
    intro x hx
    rcases List.mem_append.mp hx with hx | hx
    · exact h.printable x hx
    · exact List.mem_singleton.mp hx ▸ hm
  have hmost := h.most_le
  have hlen := h.stale_length
  rw [MessageLog.log, if_neg hid, hindex]
  dsimp only
  by_cases hfull : maxNumMessages ≤ ms.length
  · rw [if_pos hfull]
    refine ⟨_, stale, rfl, hoffset, ?_, hprintable, ?_, hmost⟩
    · have hmin : min (ms ++ [m]).length maxNumMessages = min ms.length maxNumMessages := by
        rw [length_append, length_singleton]
        omega
      rw [hmin, List.take_append_of_le_length hfull]
      exact h.messages
    · rw [length_append, length_singleton]
      omega
  · have hlt : ms.length < maxNumMessages := Nat.lt_of_not_le hfull
    rw [if_neg hfull, Nat.mod_eq_of_lt hlt]
    have hmessages := h.messages
    rw [List.take_of_length_le (Nat.le_of_lt hlt)] at hmessages
    have hnil : stale = [] ↔ most ≤ ms.length := by
      rw [← List.length_eq_zero_iff]
      omega
    refine ⟨_, stale.tail, rfl, hoffset, ?_, hprintable, ?_, hmost⟩
    · have hk : (if stale = [] then maxNumMessages - max most (min ms.length maxNumMessages) - 1
          else maxNumMessages - max most (min ms.length maxNumMessages)) =
            maxNumMessages - max most (min (ms.length + 1) maxNumMessages) := by
        rw [if_congr hnil rfl rfl]
        exact (slots_succ hlt).1
      rw [hmessages, set_slot (fun he => by rw [hnil] at he; omega), hk, length_append, length_singleton,
        List.take_of_length_le (by rw [length_append]; exact hlt)]
    · rw [List.length_tail, length_append, length_singleton, hlen]
      exact (slots_succ hlt).2

theorem Stored.clearLog :
    Stored text l.clearLog (max most (min ms.length maxNumMessages)) [] (ms.take maxNumMessages ++ stale) where
  offset := rfl
  messages := by
    have hmost := h.most_le
    have hk : max (max most (min ms.length maxNumMessages)) (min 0 maxNumMessages) =
        max most (min ms.length maxNumMessages) := by omega
    rw [length_nil, hk, List.take_nil, nil_append, List.append_assoc]
    exact h.messages
  printable _ hm := absurd hm not_mem_nil
  stale_length := by
    rw [length_append, List.length_take, h.stale_length, length_nil]
    omega
  most_le := by
    have := h.most_le
    omega

theorem Stored.numMessages (hn : ms.length % 2 ^ 32 ≤ maxNumMessages) :
    l.numMessages = maxNumMessages := by
  have hoffset : l.nextLogOffset.toNat % 2 ^ 32 = ms.length % 2 ^ 32 := by
    rw [h.offset, BitVec.toNat_ofNat]
    omega
  rw [MessageLog.numMessages, hoffset]
  split <;> omega

theorem Stored.report (hn : ms.length % 2 ^ 32 ≤ maxNumMessages)
    (hmost : most ≤ ms.length) :
    ∃ p, l.report text = .ok (l.clearLog, p) ∧ p.printed = ms.take maxNumMessages ∧
      p.chunks.flatten = p.printed.flatMap text := by
  have hle := h.most_le
  have hstale : stale = [] := List.eq_nil_of_length_eq_zero (by rw [h.stale_length]; omega)
  have hmessages := h.messages
  have hmax : max most (min ms.length maxNumMessages) = (ms.take maxNumMessages).length := by
    rw [List.length_take]
    omega
  rw [hstale, nil_append, hmax] at hmessages
  refine report_messages hmessages ?_ (h.numMessages hn) fun x hx => h.printable x (List.mem_of_mem_take hx)
  exact Nat.add_sub_cancel' (List.length_take_le _ _)

end

/-! ## Histories -/

theorem run_log (hlog : l.log m = .ok l') : LogOp.run text (.log m :: ops) l = LogOp.run text ops l' := by
  rw [LogOp.run, hlog]
  rfl

theorem run_report {ps : List Printing} (hreport : l.report text = .ok (l', p)) (hrun : LogOp.run text ops l' = .ok ps) :
    LogOp.run text (.report :: ops) l = .ok (p :: ps) := by
  rw [LogOp.run, hreport]
  exact congrArg (fun r => r >>= fun qs => pure (p :: qs)) hrun

theorem Stored.run (h : Stored text l most ms stale) (hops : Reportable text most ms.length ops) :
    ∃ ps, LogOp.run text ops l = .ok ps ∧ ps.map Printing.printed = expected ms ops ∧
      ∀ p ∈ ps, p.chunks.flatten = p.printed.flatMap text := by
  induction ops generalizing l most ms stale with
  | nil => exact ⟨[], rfl, rfl, fun _ hp => absurd hp not_mem_nil⟩
  | cons op ops ih =>
    cases op with
    | log m =>
      obtain ⟨hm, hn, hops⟩ := hops
      obtain ⟨l', stale', hlog, hstored⟩ := h.log hm hn
      obtain ⟨ps, hrun, hps⟩ := ih hstored (by rwa [length_append])
      exact ⟨ps, (run_log hlog).trans hrun, hps⟩
    | report =>
      obtain ⟨hn, hmost, hops⟩ := hops
      obtain ⟨p, hreport, hprinted, htext⟩ := h.report hn hmost
      have hmax : max most (min ms.length maxNumMessages) = min ms.length maxNumMessages := by
        have := h.most_le
        omega
      have hclear := h.clearLog
      rw [hmax] at hclear
      obtain ⟨ps, hrun, hps, htexts⟩ := ih hclear hops
      refine ⟨p :: ps, run_report hreport hrun, ?_, ?_⟩
      · rw [List.map_cons, hprinted, hps, expected]
      · exact List.forall_mem_cons.mpr ⟨htext, htexts⟩
    | clearLog => exact ih h.clearLog hops

theorem run_report_twice (h : Printable text m) :
    ∃ p p', LogOp.run text [.log m, .report, .report] MessageLog.init = .ok [p, p'] ∧ p'.printed = [m] := by
  have hinit : Stored text MessageLog.init 0 [] [] := stored_init
  obtain ⟨l, stale, hlog, hstored⟩ := hinit.log h (by decide)
  obtain ⟨p, hreport, -⟩ := hstored.report (show 1 % 2 ^ 32 ≤ maxNumMessages by decide) (Nat.zero_le _)
  have hstale : stale = [] := List.eq_nil_of_length_eq_zero hstored.stale_length
  have hmessages : l.clearLog.messages = [m] ++ replicate 4095 emptySlot := by
    have := hstored.messages
    rw [hstale] at this
    exact this
  have hprintable : ∀ x ∈ [m], Printable text x := fun x hx => List.mem_singleton.mp hx ▸ h
  obtain ⟨p', hreport', hprinted, -⟩ := report_messages hmessages rfl rfl hprintable
  exact ⟨p, p', (run_log hlog).trans (run_report hreport (run_report hreport' rfl)), hprinted⟩

end Granary.Watchpoints
