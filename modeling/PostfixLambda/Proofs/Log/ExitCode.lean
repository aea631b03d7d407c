import PostfixLambda.Log.Logger

/-! What a logger sends, and how its exit code sums that up. A record is put together anew, whatever a write that failed
    has left in the buffer, and offered to the output of the moment in one write; so an output was offered just the
    records since it was set. The exit code remembers the worst that ever happened: a record that was not written whole,
    or else an error that was reported. -/

namespace PostfixLambda

/-- A sink after texts were offered to it, each in one write. -/
def Sink.offered (s : Sink) (texts : List Bytes) : Sink := texts.foldl (fun s p => (s.write p).1) s

/-- A write of a text failed, or fell short of it. -/
def Written.Failed (p : Bytes) (w : Written) : Prop := w.error? ≠ none ∨ w.count < p.length

/-- What a buffer holds is sent in one write, and not at all if it holds nothing. -/
theorem Buffering.flushHeld_cases (s : Sink) (held : Collected) :
    held.toBytes = [] ∧ flushHeld s held = (s, held, none) ∨
      held.toBytes ≠ [] ∧ ∃ held' error?, flushHeld s held = ((s.write held.toBytes).1, held', error?) ∧
        (error?.isSome = true ↔ (s.write held.toBytes).2.Failed held.toBytes) := by
  unfold flushHeld
  split
  · rename_i hempty
    exact Or.inl ⟨(Collected.isEmpty_iff held).mp hempty, rfl⟩
  · rename_i hfull
    refine Or.inr ⟨fun hnil => hfull ((Collected.isEmpty_iff held).mpr hnil), ?_⟩
    rw [Written.Failed, ← Collected.size_eq_length]
    rcases s.write held.toBytes with ⟨s', count, error?⟩
    cases error? with
    | some e => exact ⟨_, some e, rfl, by simp⟩
    | none =>
      by_cases hshort : count < held.size
      · simp only [if_pos hshort]
        exact ⟨_, some .shortWrite, rfl, by simp [hshort]⟩
      · simp only [if_neg hshort]
        exact ⟨_, none, rfl, by simp [hshort]⟩

namespace Logger

/-! ### Records -/

/-- The message, behind its level if there is one. -/
def labelled (level message : Bytes) : Bytes := if level = [] then message else level ++ ": " ++ message

/-- The record of a message: it ends in a line feed, unless it is empty. -/
def record (level message : Bytes) : Bytes :=
  if labelled level message = [] ∨ (labelled level message).getLast? = some Bytes.lineFeed then labelled level message
  else labelled level message ++ [Bytes.lineFeed]

theorem labelled_eq_nil_iff {level message : Bytes} : labelled level message = [] ↔ level = [] ∧ message = [] := by
  unfold labelled
  split <;> simp [*]

theorem record_eq_nil_iff {level message : Bytes} : record level message = [] ↔ level = [] ∧ message = [] := by
  rw [← labelled_eq_nil_iff]
  unfold record
  split
  · exact Iff.rfl
  · rename_i hopen
    rw [not_or] at hopen
    simp [hopen.1]

theorem getLast?_record {level message : Bytes} (h : record level message ≠ []) :
    (record level message).getLast? = some Bytes.lineFeed := by
  unfold record at h ⊢
  split
  · rename_i hclosed
    rw [if_pos hclosed] at h
    exact hclosed.resolve_left h
  · exact List.getLast?_concat

/-- Nothing that the buffer held gets into a record. -/
theorem toBytes_compose_clear (buffer : Collected) (level message : Bytes) :
    (compose buffer.clear level message).toBytes = record level message := by
  have htext : ((if level.isEmpty then buffer.clear else (buffer.clear.append level).append ": ").append message).toBytes =
      labelled level message := by
    cases level <;> simp [labelled]
  unfold compose record
  simp only [Collected.last?_eq, ← htext]
  generalize (if level.isEmpty then buffer.clear else (buffer.clear.append level).append ": ").append message = text
  cases hlast : text.toBytes.getLast? with
  | none => rw [if_pos (Or.inl (List.getLast?_eq_none_iff.mp hlast))]
  | some b =>
    have hfull : text.toBytes ≠ [] := by
      intro hnil
      rw [hnil] at hlast
      cases hlast
    by_cases hb : b = Bytes.lineFeed
    · simp [hb]
    · simp [hb, hfull]

/-- The record that is sent, unless there is nothing to send. -/
def record? (level message : Bytes) : Option Bytes :=
  if record level message = [] then none else some (record level message)

/-! ### Calls -/

/-- A report: a message at a level, sent directly or by the function that was made for the level, an error, or an error
    that there may be. -/
inductive Report where
  | print (level message : Bytes)
  | leveled (level message : Bytes)
  | error (message : Bytes)
  | errorIf (message? : Option Bytes)
  deriving DecidableEq, Repr

/-- A call on a logger. -/
inductive Call where
  | setOutput (output? : Option Sink)
  | report (r : Report)

/-- Takes a report. -/
def report (log : Logger) : Report → Logger
  | .print level message => log.print level message
  | .leveled level message => leveled level log message
  | .error message => log.error message
  | .errorIf message? => log.errorIf message?

/-- Takes a call. -/
def call (log : Logger) : Call → Logger
  | .setOutput output? => log.setOutput output?
  | .report r => log.report r

/-- Takes the calls in order. -/
def callAll (log : Logger) (calls : List Call) : Logger := calls.foldl call log

/-- The level and message of a report. -/
def Report.entry? : Report → Option (Bytes × Bytes)
  | .print level message | .leveled level message => some (level, message)
  | .error message | .errorIf (some message) => some ("ERROR", message)
  | .errorIf none => none

/-- The record of a report. -/
def Report.record? (r : Report) : Option Bytes := r.entry?.bind fun (level, message) => Logger.record? level message

/-- An error is reported. -/
def Report.isError : Report → Bool
  | .error _ | .errorIf (some _) => true
  | .print _ _ | .leveled _ _ | .errorIf none => false

/-- The output of the moment does not take the record whole. -/
def Fails (log : Logger) (record? : Option Bytes) : Prop :=
  ∃ s p, log.output? = some s ∧ record? = some p ∧ (s.write p).2.Failed p

/-! ### One report -/

/-- What is left of a logger after a record was sent: the output of the moment was offered it, the exit code is two if
    that failed and else what it was, and no other output is touched. -/
structure Sent (log : Logger) (record? : Option Bytes) (log' : Logger) : Prop where
  output : log'.output? = log.output?.map (·.offered record?.toList)
  retired : log'.retired = log.retired
  failed : log.Fails record? → log'.exitCode = 2
  whole : ¬log.Fails record? → log'.exitCode = log.exitCode

theorem sent_print (log : Logger) (level message : Bytes) :
    log.Sent (record? level message) (log.print level message) := by
  unfold print
  split
  · rename_i hnone
    refine ⟨by rw [hnone]; rfl, rfl, ?_, fun _ => rfl⟩
    rintro ⟨s, p, hs, -⟩
    rw [hnone] at hs
    cases hs
  · rename_i s hs
    have htext := toBytes_compose_clear log.held level message
    unfold record?
    rcases Buffering.flushHeld_cases s (compose log.held.clear level message) with
      ⟨hnil, hflush⟩ | ⟨hfull, held', error?, hflush, herror⟩
    · rw [htext] at hnil
      simp only [hflush, if_pos hnil]
      refine ⟨by rw [hs]; rfl, rfl, ?_, fun _ => rfl⟩
      rintro ⟨_, p, -, hp, -⟩
      cases hp
    · rw [htext] at hfull hflush herror
      simp only [hflush, if_neg hfull]
      refine ⟨by rw [hs]; rfl, rfl, ?_, fun hwhole => ?_⟩
      · rintro ⟨s', p, hs', hp, hfailed⟩
        rw [hs] at hs'
        cases hs'
        cases hp
        rw [if_pos (herror.mpr hfailed)]
      · rw [if_neg fun hsome => hwhole ⟨s, _, hs, rfl, herror.mp hsome⟩]

/-- A report that brings nothing leaves the logger; any other sends its message, an error after it was counted. -/
theorem report_cases (log : Logger) (r : Report) :
    r.entry? = none ∧ r.isError = false ∧ log.report r = log ∨
      ∃ level message base, r.entry? = some (level, message) ∧ log.report r = print base level message ∧
        base.output? = log.output? ∧ base.retired = log.retired ∧
        base.exitCode = if r.isError = true ∧ log.exitCode = 0 then 1 else log.exitCode := by
  have herror : ∀ message, ∃ base : Logger, log.error message = base.print "ERROR" message ∧
      base.output? = log.output? ∧ base.retired = log.retired ∧
      base.exitCode = if true = true ∧ log.exitCode = 0 then 1 else log.exitCode := by
    intro message
    exact ⟨{ log with exitCode := if log.exitCode = 0 then 1 else log.exitCode }, rfl, rfl, rfl, by simp⟩
  cases r with
  | print level message => exact Or.inr ⟨level, message, log, rfl, rfl, rfl, rfl, by simp [Report.isError]⟩
  | leveled level message => exact Or.inr ⟨level, message, log, rfl, rfl, rfl, rfl, by simp [Report.isError]⟩
  | error message =>
    obtain ⟨base, hbase⟩ := herror message
    exact Or.inr ⟨"ERROR", message, base, rfl, hbase⟩
  | errorIf message? =>
    cases message? with
    | none => exact Or.inl ⟨rfl, rfl, rfl⟩
    | some message =>
      obtain ⟨base, hbase⟩ := herror message
      exact Or.inr ⟨"ERROR", message, base, rfl, hbase⟩

theorem report_output (log : Logger) (r : Report) :
    (log.report r).output? = log.output?.map (·.offered r.record?.toList) ∧ (log.report r).retired = log.retired := by
  rcases log.report_cases r with ⟨hentry, -, hreport⟩ | ⟨level, message, base, hentry, hreport, houtput, hretired, -⟩
  · rw [hreport, Report.record?, hentry]
    exact ⟨Option.map_id'.symm, rfl⟩
  · have hsent := sent_print base level message
    rw [hreport, hsent.output, hsent.retired, houtput, hretired, Report.record?, hentry]
    exact ⟨rfl, rfl⟩

/-! ### What the exit code sums up -/

/-- The exit code for what happened: two if a record was not written whole, else one if an error was reported, else
    zero. -/
inductive Sums (failed reported : Prop) : Nat → Prop where
  | failed (h : failed) : Sums failed reported 2
  | reported (h : ¬failed) (h' : reported) : Sums failed reported 1
  | silent (h : ¬failed) (h' : ¬reported) : Sums failed reported 0

namespace Sums

variable {failed reported failed' reported' : Prop} {n m : Nat}

theorem eq_two_iff (h : Sums failed reported n) : n = 2 ↔ failed := by
  cases h <;> simp [*]

theorem eq_one_iff (h : Sums failed reported n) : n = 1 ↔ ¬failed ∧ reported := by
  cases h <;> simp [*]

theorem eq_zero_iff (h : Sums failed reported n) : n = 0 ↔ ¬failed ∧ ¬reported := by
  cases h <;> simp [*]

/-- What has happened stays, so the exit code never decreases. -/
theorem le (h : Sums failed reported n) (h' : Sums failed' reported' m) (hfailed : failed → failed')
    (hreported : reported → reported') : n ≤ m := by
  cases h with
  | failed hf => exact Nat.le_of_eq (h'.eq_two_iff.mpr (hfailed hf)).symm
  | silent => exact Nat.zero_le m
  | reported _ hr =>
    have hsome : m ≠ 0 := fun hm => (h'.eq_zero_iff.mp hm).2 (hreported hr)
    omega

end Sums

/-- An error is counted only where nothing happened before. -/
theorem Sums.counted {failed reported : Prop} {code : Nat} (h : Sums failed reported code) (error : Bool) :
    Sums failed (reported ∨ error = true) (if error = true ∧ code = 0 then 1 else code) := by
  cases h with
  | failed hf =>
    rw [if_neg fun hc => absurd hc.2 (by decide)]
    exact .failed hf
  | reported hf hr =>
    rw [if_neg fun hc => absurd hc.2 (by decide)]
    exact .reported hf (Or.inl hr)
  | silent hf hr =>
    cases error with
    | true => exact .reported hf (Or.inr rfl)
    | false => exact .silent hf (by simp [hr])

/-- A report adds what happens to its record, and that it is an error. -/
theorem Sums.report {failed reported : Prop} {log : Logger} (h : Sums failed reported log.exitCode) (r : Report) :
    Sums (failed ∨ log.Fails r.record?) (reported ∨ r.isError = true) (log.report r).exitCode := by
  rcases log.report_cases r with ⟨hentry, herror, hreport⟩ | ⟨level, message, base, hentry, hreport, houtput, -, hcode⟩
  · have hnone : ¬log.Fails r.record? := by
      rintro ⟨s, p, -, hp, -⟩
      rw [Report.record?, hentry] at hp
      cases hp
    rw [hreport, herror]
    simpa only [hnone, Bool.false_eq_true, or_false] using h
  · have hsent := sent_print base level message
    have hrecord : r.record? = record? level message := by rw [Report.record?, hentry]; rfl
    have hfails : base.Fails (record? level message) ↔ log.Fails r.record? := by
      rw [Fails, Fails, houtput, hrecord]
    rw [hreport]
    by_cases hfailed : log.Fails r.record?
    · rw [hsent.failed (hfails.mpr hfailed)]
      exact .failed (Or.inr hfailed)
    · rw [hsent.whole fun hbase => hfailed (hfails.mp hbase), hcode]
      simpa only [hfailed, or_false] using h.counted r.isError

/-! ### All calls -/

/-- At some of the calls a record was not written whole. -/
def SomeFailed (log : Logger) (calls : List Call) : Prop :=
  ∃ before r after, calls = before ++ .report r :: after ∧ (log.callAll before).Fails r.record?

/-- Some of the calls report an error. -/
def SomeError (calls : List Call) : Prop := ∃ r, .report r ∈ calls ∧ r.isError = true

theorem someFailed_nil (log : Logger) : ¬log.SomeFailed [] := by
  rintro ⟨before, r, after, hcalls, -⟩
  exact absurd hcalls.symm (List.append_ne_nil_of_right_ne_nil before (List.cons_ne_nil _ _))

theorem someFailed_cons_iff (log : Logger) (c : Call) (rest : List Call) :
    log.SomeFailed (c :: rest) ↔
      (∃ r, c = .report r ∧ log.Fails r.record?) ∨ (log.call c).SomeFailed rest := by
  constructor
  · rintro ⟨before, r, after, hcalls, hfails⟩
    cases before with
    | nil =>
      obtain ⟨rfl, -⟩ := List.cons.inj hcalls
      exact Or.inl ⟨r, rfl, hfails⟩
    | cons first before =>
      obtain ⟨rfl, hrest⟩ := List.cons.inj hcalls
      exact Or.inr ⟨before, r, after, hrest, hfails⟩
  · rintro (⟨r, rfl, hfails⟩ | ⟨before, r, after, rfl, hfails⟩)
    · exact ⟨[], r, rest, rfl, hfails⟩
    · exact ⟨c :: before, r, after, rfl, hfails⟩

theorem someError_cons_iff (c : Call) (rest : List Call) :
    SomeError (c :: rest) ↔ (∃ r, c = .report r ∧ r.isError = true) ∨ SomeError rest := by
  constructor
  · rintro ⟨r, hr, herror⟩
    rcases List.mem_cons.mp hr with hc | hr
    · exact Or.inl ⟨r, hc.symm, herror⟩
    · exact Or.inr ⟨r, hr, herror⟩
  · rintro (⟨r, rfl, herror⟩ | ⟨r, hr, herror⟩)
    · exact ⟨r, List.mem_cons_self, herror⟩
    · exact ⟨r, List.mem_cons_of_mem c hr, herror⟩

theorem SomeFailed.append {log : Logger} {calls : List Call} (h : log.SomeFailed calls) (more : List Call) :
    log.SomeFailed (calls ++ more) := by
  obtain ⟨before, r, after, rfl, hfails⟩ := h
  exact ⟨before, r, after ++ more, by simp, hfails⟩

theorem SomeError.append {calls : List Call} (h : SomeError calls) (more : List Call) : SomeError (calls ++ more) := by
  obtain ⟨r, hr, herror⟩ := h
  exact ⟨r, List.mem_append_left more hr, herror⟩

theorem Sums.call {failed reported : Prop} {log : Logger} (h : Sums failed reported log.exitCode) (c : Call) :
    Sums (failed ∨ ∃ r, c = .report r ∧ log.Fails r.record?) (reported ∨ ∃ r, c = .report r ∧ r.isError = true)
      (log.call c).exitCode := by
  cases c with
  | setOutput output? =>
    have hsame : (log.call (.setOutput output?)).exitCode = log.exitCode := rfl
    simpa [hsame] using h
  | report r =>
    have hsame : log.call (.report r) = log.report r := rfl
    simpa [hsame] using h.report r

theorem Sums.callAll {failed reported : Prop} {log : Logger} (h : Sums failed reported log.exitCode)
    (calls : List Call) :
    Sums (failed ∨ log.SomeFailed calls) (reported ∨ SomeError calls) (log.callAll calls).exitCode := by
  induction calls generalizing log failed reported with
  | nil =>
    have hnone : ¬SomeError [] := fun ⟨_, hr, _⟩ => List.not_mem_nil hr
    have hsame : log.callAll [] = log := rfl
    rw [hsame]
    simpa only [someFailed_nil, hnone, or_false] using h
  | cons c rest ih =>
    have hrest := ih (h.call c)
    rw [or_assoc, or_assoc, ← someFailed_cons_iff, ← someError_cons_iff] at hrest
    exact hrest

theorem sums_callAll (calls : List Call) :
    Sums (({} : Logger).SomeFailed calls) (SomeError calls) (({} : Logger).callAll calls).exitCode := by
  have hstart : Sums False False ({} : Logger).exitCode := .silent id id
  simpa only [false_or] using hstart.callAll calls

theorem callAll_append (log : Logger) (calls more : List Call) :
    log.callAll (calls ++ more) = (log.callAll calls).callAll more := List.foldl_append

/-- Since it was set, an output was offered the records of the reports, and nothing else. -/
theorem output_callAll_reports (log : Logger) (reports : List Report) :
    (log.callAll (reports.map .report)).output? = log.output?.map (·.offered (reports.filterMap Report.record?)) ∧
      (log.callAll (reports.map .report)).retired = log.retired := by
  induction reports generalizing log with
  | nil => exact ⟨Option.map_id'.symm, rfl⟩
  | cons r rest ih =>
    obtain ⟨houtput, hretired⟩ := log.report_output r
    obtain ⟨hrest, hretired'⟩ := ih (log.report r)
    refine ⟨hrest.trans ?_, hretired'.trans hretired⟩
    rw [houtput, Option.map_map]
    congr 1
    funext s
    cases hr : r.record? <;> simp [Sink.offered, hr]

theorem retired_setOutput (log : Logger) (output? : Option Sink) :
    (log.setOutput output?).retired = (log.output?.map Sink.close).toList ++ log.retired := by
  unfold setOutput
  cases log.output? <;> rfl

theorem Report.record?_eq_none_iff (r : Report) :
    r.record? = none ↔ ∀ level message, r.entry? = some (level, message) → level = [] ∧ message = [] := by
  unfold Report.record?
  cases r.entry? with
  | none => simp
  | some entry =>
    obtain ⟨level, message⟩ := entry
    simp [Logger.record?, record_eq_nil_iff]

theorem Report.of_record? {r : Report} {p : Bytes} (h : r.record? = some p) :
    p.getLast? = some Bytes.lineFeed ∧ ∃ level message, r.entry? = some (level, message) ∧
      (p = labelled level message ∨ p = labelled level message ++ [Bytes.lineFeed]) := by
  obtain ⟨⟨level, message⟩, hentry, hrecord⟩ := Option.bind_eq_some_iff.mp h
  simp only [Logger.record?] at hrecord
  split at hrecord
  · cases hrecord
  · rename_i hfull
    cases hrecord
    refine ⟨getLast?_record hfull, level, message, hentry, ?_⟩
    unfold record
    split
    · exact Or.inl rfl
    · exact Or.inr rfl

/-- Whatever was called, the exit code is two exactly if some record was not written whole, one exactly if all were and
    an error was reported, and zero otherwise; whatever is called next, it does not decrease. The reports that follow
    offer the output of the moment their records, each in one write and nothing else, whatever was left in the buffer,
    and touch no other output; without an output nothing is sent. Setting an output closes the one before. There is no
    record exactly if there is no level and no message; a record is the level and the message, and ends in a line
    feed. -/
theorem exitCode_sums_up (calls : List Call) :
    let log := ({} : Logger).callAll calls
    (log.exitCode = 2 ↔ ({} : Logger).SomeFailed calls) ∧
    (log.exitCode = 1 ↔ ¬({} : Logger).SomeFailed calls ∧ SomeError calls) ∧
    (log.exitCode = 0 ↔ ¬({} : Logger).SomeFailed calls ∧ ¬SomeError calls) ∧
    (∀ more, log.exitCode ≤ (log.callAll more).exitCode) ∧
    (∀ reports : List Report, let log' := log.callAll (reports.map .report)
      log'.output? = log.output?.map (·.offered (reports.filterMap Report.record?)) ∧ log'.retired = log.retired) ∧
    (∀ output?, (log.setOutput output?).output? = output? ∧
      (log.setOutput output?).retired = (log.output?.map Sink.close).toList ++ log.retired) ∧
    (∀ r : Report, r.record? = none ↔ ∀ level message, r.entry? = some (level, message) → level = [] ∧ message = []) ∧
    ∀ (r : Report) p, r.record? = some p → p.getLast? = some Bytes.lineFeed ∧
      ∃ level message, r.entry? = some (level, message) ∧
        (p = labelled level message ∨ p = labelled level message ++ [Bytes.lineFeed]) := by
  intro log
  have hsums := sums_callAll calls
  refine ⟨hsums.eq_two_iff, hsums.eq_one_iff, hsums.eq_zero_iff, fun more => ?_, log.output_callAll_reports,
    fun output? => ⟨rfl, log.retired_setOutput output?⟩, Report.record?_eq_none_iff, fun r p => Report.of_record?⟩
  have hmore := sums_callAll (calls ++ more)
  rw [callAll_append] at hmore
  exact hsums.le hmore (fun h => h.append more) fun h => h.append more

/-- The output takes three bytes of the first record without an error. What is left of it in the buffer does not get
    into the next one, and the exit code stays two when an error is reported. -/
theorem exitCode_sums_up_short :
    let s : Sink := { kind := .plain, policy := fun _ calls offered => ⟨if calls = 0 then 3 else offered, none⟩ }
    let log := ({} : Logger).callAll [.setOutput (some s), .report (.leveled "INFO" "hello"), .report (.print "" "")]
    log.exitCode = 2 ∧ log.exitCode ≤ (log.callAll [.report (.error "bad")]).exitCode ∧
      (log.callAll [.report (.error "bad")]).output?.map Sink.text = some "INFERROR: bad\n" := by
  intro s log
  obtain ⟨htwo, -, -, hmore, hreports, -, -, -⟩ := exitCode_sums_up
    [.setOutput (some s), .report (.leveled "INFO" "hello"), .report (.print "" "")]
  refine ⟨htwo.mpr ⟨[.setOutput (some s)], .leveled "INFO" "hello", [.report (.print "" "")], rfl, s, "INFO: hello\n",
    rfl, by decide, Or.inr (by decide)⟩, hmore _, ?_⟩
  have houtput := (hreports [.error "bad"]).1
  rw [List.map_singleton] at houtput
  rw [houtput]
  decide

end Logger

end PostfixLambda
