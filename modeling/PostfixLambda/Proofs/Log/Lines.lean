import PostfixLambda.Log.Lines

/-! The lines that are logged depend on the text alone, and not on how it was cut into writes. At every moment the log
    holds what follows the last line feed of the text written since it was last closed, and has logged each line before
    that once. -/

namespace PostfixLambda.LineLog

/-! ### The lines of a text -/

/-- The lines of a text that a line feed ends. -/
def endedLines (text : Bytes) : List Bytes := (text.splitOn Bytes.lineFeed).dropLast

/-- What follows the last line feed of a text. -/
def openLine (text : Bytes) : Bytes := (text.splitOn Bytes.lineFeed).getLastD []

/-- All lines of a text; what follows the last line feed is one, unless it is empty. -/
def allLines (text : Bytes) : List Bytes :=
  endedLines text ++ if (openLine text).isEmpty then [] else [openLine text]

theorem endedLines_of_not_mem {text : Bytes} (h : Bytes.lineFeed ∉ text) : endedLines text = [] := by
  rw [endedLines, List.splitOn_eq_singleton h]
  rfl

theorem openLine_of_not_mem {text : Bytes} (h : Bytes.lineFeed ∉ text) : openLine text = text := by
  rw [openLine, List.splitOn_eq_singleton h]
  rfl

theorem endedLines_lineFeed {front : Bytes} (h : Bytes.lineFeed ∉ front) (rest : Bytes) :
    endedLines (front ++ Bytes.lineFeed :: rest) = front :: endedLines rest := by
  rw [endedLines, List.splitOn_append_cons_self_of_not_mem h, List.dropLast_cons_of_ne_nil (List.splitOn_ne_nil _ _),
    endedLines]

theorem openLine_lineFeed {front : Bytes} (h : Bytes.lineFeed ∉ front) (rest : Bytes) :
    openLine (front ++ Bytes.lineFeed :: rest) = openLine rest := by
  obtain ⟨line, lines, hlines⟩ := List.exists_cons_of_ne_nil (List.splitOn_ne_nil Bytes.lineFeed rest)
  rw [openLine, List.splitOn_append_cons_self_of_not_mem h, openLine, hlines]
  rfl

/-- More text goes on where the last line feed was. -/
theorem lines_append (text more : Bytes) :
    endedLines (text ++ more) = endedLines text ++ endedLines (openLine text ++ more) ∧
      openLine (text ++ more) = openLine (openLine text ++ more) ∧ Bytes.lineFeed ∉ openLine text := by
  by_cases h : Bytes.lineFeed ∈ text
  · obtain ⟨front, rest, rfl, hfront⟩ := List.eq_append_cons_of_mem h
    obtain ⟨hended, hopen, hnone⟩ := lines_append rest more
    rw [openLine_lineFeed hfront, List.append_assoc, List.cons_append]
    refine ⟨?_, ?_, hnone⟩
    · rw [endedLines_lineFeed hfront, endedLines_lineFeed hfront, hended, List.cons_append]
    · rw [openLine_lineFeed hfront, hopen]
  · rw [openLine_of_not_mem h, endedLines_of_not_mem h]
    exact ⟨rfl, rfl, h⟩
termination_by text.length

/-- Cutting goes on with the line that is held, and holds the last one in the end. -/
theorem cut_eq {held : Collected} (h : Bytes.lineFeed ∉ held.toBytes) (lines : List Bytes) (p : Bytes) :
    (cut held lines p).1.toBytes = openLine (held.toBytes ++ p) ∧
      (cut held lines p).2 = lines.reverse ++ endedLines (held.toBytes ++ p) := by
  induction p generalizing held lines with
  | nil => simp [cut, endedLines_of_not_mem h, openLine_of_not_mem h]
  | cons b rest ih =>
    by_cases hb : b = Bytes.lineFeed
    · subst hb
      obtain ⟨hheld, hlines⟩ := @ih .empty (by simp) (held.toBytes :: lines)
      rw [Collected.toBytes_empty, List.nil_append] at hheld hlines
      rw [cut, if_pos rfl, hheld, hlines, openLine_lineFeed h, endedLines_lineFeed h]
      simp
    · have hpush : Bytes.lineFeed ∉ (held.push b).toBytes := by
        rw [Collected.toBytes_push, List.mem_append, List.mem_singleton]
        rintro (hmem | rfl)
        · exact h hmem
        · exact hb rfl
      rw [cut, if_neg hb, ← List.singleton_append (l := rest), ← List.append_assoc, ← Collected.toBytes_push]
      exact ih hpush lines

/-! ### Calls -/

/-- A call on a log of lines. -/
inductive Call where
  | write (p : Bytes)
  | close
  deriving DecidableEq, Repr

/-- Takes a call, with the lines that are logged. -/
def take (log : LineLog) : Call → LineLog × List Bytes
  | .write p => log.write p
  | .close => log.close

/-- Takes the calls in order, with all lines that are logged. -/
def takeAll (log : LineLog) : List Call → LineLog × List Bytes
  | [] => (log, [])
  | c :: rest =>
    let (log', lines) := log.take c
    let (log'', more) := log'.takeAll rest
    (log'', lines ++ more)

/-- The texts that calls write: those that were closed, and the one written since. -/
structure Texts where
  closed : List Bytes := []
  current : Bytes := []

/-- What a call adds to the texts; it does not matter in how many writes a text comes. -/
def Texts.add (t : Texts) : Call → Texts
  | .write p => { t with current := t.current ++ p }
  | .close => ⟨t.closed ++ [t.current], []⟩

/-- The texts that the calls write. -/
def textsOf (calls : List Call) : Texts := calls.foldl Texts.add {}

/-- The lines of texts that are to be logged: all lines of those that were closed, and of the last one those that have
    ended. -/
def Texts.lines (t : Texts) : List Bytes := t.closed.flatMap allLines ++ endedLines t.current

/-- The log holds the line under way of the last text. -/
def Follows (log : LineLog) (t : Texts) : Prop := log.held.toBytes = openLine t.current

theorem Follows.close_eq {log : LineLog} {t : Texts} (h : log.Follows t) :
    log.close.2 = if (openLine t.current).isEmpty then [] else [openLine t.current] := by
  rw [← h, LineLog.close, Collected.isEmpty, Collected.toBytes, List.isEmpty_reverse]

theorem Follows.take {log : LineLog} {t : Texts} (h : log.Follows t) (c : Call) :
    (log.take c).1.Follows (t.add c) ∧ (t.add c).lines = t.lines ++ (log.take c).2 := by
  cases c with
  | write p =>
    obtain ⟨hended, hopen, hnone⟩ := lines_append t.current p
    obtain ⟨hheld, hlines⟩ := cut_eq (h ▸ hnone) [] p
    rw [h] at hheld hlines
    refine ⟨hheld.trans hopen.symm, ?_⟩
    change _ ++ endedLines (t.current ++ p) = t.lines ++ (cut log.held [] p).2
    rw [hended, hlines, Texts.lines, List.append_assoc]
    rfl
  | close =>
    have hnone : Bytes.lineFeed ∉ ([] : Bytes) := List.not_mem_nil
    refine ⟨(openLine_of_not_mem hnone).symm, ?_⟩
    rw [LineLog.take, h.close_eq]
    simp [Texts.lines, Texts.add, allLines, endedLines_of_not_mem hnone]

theorem Follows.takeAll {log : LineLog} {t : Texts} (h : log.Follows t) (calls : List Call) :
    (log.takeAll calls).1.Follows (calls.foldl Texts.add t) ∧
      (calls.foldl Texts.add t).lines = t.lines ++ (log.takeAll calls).2 := by
  induction calls generalizing log t with
  | nil => exact ⟨h, (List.append_nil _).symm⟩
  | cons c rest ih =>
    obtain ⟨hnext, hlines⟩ := h.take c
    obtain ⟨hlast, hall⟩ := ih hnext
    refine ⟨hlast, ?_⟩
    rw [List.foldl_cons, hall, hlines, List.append_assoc]
    rfl

/-- Whatever was written and closed, exactly the lines of the texts were logged: those that have ended, and of a text
    that was closed also the last one, unless it is empty. A write logs at once the lines that it ends, closing logs
    the line under way, and it does not matter how the texts were cut into writes. -/
theorem lines_logged_once (calls : List Call) :
    let log := (({} : LineLog).takeAll calls).1
    let texts := textsOf calls
    (({} : LineLog).takeAll calls).2 = texts.lines ∧
      (∀ p, endedLines (texts.current ++ p) = endedLines texts.current ++ (log.write p).2) ∧
      log.close.2 = (if (openLine texts.current).isEmpty then [] else [openLine texts.current]) ∧
      ∀ calls', textsOf calls' = texts → (({} : LineLog).takeAll calls').2 = (({} : LineLog).takeAll calls).2 := by
  intro log texts
  have hnone : Bytes.lineFeed ∉ ([] : Bytes) := List.not_mem_nil
  have hstart : ({} : LineLog).Follows {} := (openLine_of_not_mem hnone).symm
  have hall : ∀ calls, (({} : LineLog).takeAll calls).2 = (textsOf calls).lines := by
    intro calls
    rw [textsOf, (hstart.takeAll calls).2, Texts.lines, endedLines_of_not_mem hnone]
    rfl
  obtain ⟨hfollows, -⟩ := hstart.takeAll calls
  refine ⟨hall calls, fun p => ?_, ?_, fun calls' hsame => ?_⟩
  · obtain ⟨-, hwrite⟩ := hfollows.take (.write p)
    rw [Texts.lines, Texts.lines, List.append_assoc] at hwrite
    exact List.append_cancel_left hwrite
  · exact hfollows.close_eq
  · rw [hall, hall, hsame]

end PostfixLambda.LineLog
