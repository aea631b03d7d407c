import PostfixLambda.Proofs.Session.Definitions
import PostfixLambda.Proofs.Stream.Leaves
import PostfixLambda.Proofs.Stream.Scanning
import PostfixLambda.Session.Prompt

/-! No line poisons the next. At every prompt the session is clean or waits for more of a program of at least two
    operands, and after a word that fails it is as if the line had begun after the end of the program that failed. -/

namespace PostfixLambda

/-! ### Outputs that never fail -/

/-- What a session may make of an output: bytes are written to it or past its buffers, and it is flushed. -/
inductive Output.Reached (out : Output) : Output → Prop where
  | refl : Reached out out
  | write {out' : Output} (h : Reached out out') (p : Bytes) : Reached out (out'.write p).1
  | flush {out' : Output} (h : Reached out out') : Reached out out'.flush.1
  | past {out' : Output} (h : Reached out out') (place : Nat) (p : Bytes) : Reached out (out'.writePast place p)

/-- Whatever a session makes of the output, all of it can be flushed. -/
def Output.AlwaysFlushes (out : Output) : Prop := ∀ out', out.Reached out' → out'.flush.2 = none

theorem Output.Reached.writePieces {out out' : Output} (h : out.Reached out') (count : Nat) (pieces : List Bytes) :
    out.Reached (PostfixLambda.writePieces Output.write count out' pieces).1 := by
  induction pieces generalizing out' count with
  | nil => exact h
  | cons piece pieces ih =>
    have hwritten := h.write piece
    rw [PostfixLambda.writePieces]
    split
    · rename_i out'' n e hwrite
      rwa [hwrite] at hwritten
    · rename_i out'' n hwrite
      rw [hwrite] at hwritten
      exact ih hwritten _

theorem Output.flush_memory {s : Sink} (h : s.kind = .memory) : (ofSink s).flush = (ofSink s, none) := by
  simp [ofSink, ofSinks, outletOf, Buffering.ofKind, flush, flushTo, flushAt, onOutlet, Buffering.flush, h]

theorem Output.alwaysFlushes_memory {s : Sink} (h : s.kind = .memory) : (ofSink s).AlwaysFlushes := by
  have hreached : ∀ out', (ofSink s).Reached out' → ∃ s', s'.kind = .memory ∧ out' = ofSink s' := by
    intro out' hout'
    induction hout' with
    | refl => exact ⟨s, h, rfl⟩
    | write _ p ih =>
      obtain ⟨s', hs', rfl⟩ := ih
      rw [write_memory hs']
      exact ⟨{ s' with content := s'.content.append p }, hs', rfl⟩
    | flush _ ih =>
      obtain ⟨s', hs', rfl⟩ := ih
      rw [flush_memory hs']
      exact ⟨s', hs', rfl⟩
    | past _ place p ih =>
      obtain ⟨s', hs', rfl⟩ := ih
      cases place with
      | zero =>
        have hkind : (s'.write p).1.kind = s'.kind := by simp [Sink.write, hs']
        refine ⟨(s'.write p).1, hkind.trans hs', ?_⟩
        simp [writePast, ofSink, ofSinks, outletOf, hkind]
      | succ place => exact ⟨s', hs', rfl⟩
  intro out' hout'
  obtain ⟨s', hs', rfl⟩ := hreached out' hout'
  rw [flush_memory hs']

theorem Parser.eq_empty_of_depth {V S : Type} {p : Parser V S} (h : p.depth = 0) : p = {} := by
  obtain ⟨operands⟩ := p
  cases List.length_eq_zero_iff.mp h
  rfl

namespace Session

variable {s s' t t' : Session} {fuel : Nat} {outer? : Option Interruption}

/-! ### Clean sessions, and sessions that wait -/

/-- Nothing of a program is under way. -/
structure Clean (s : Session) : Prop where
  parser : s.parser = {}
  define? : s.define? = none
  failed : s.failed = false

/-- The program under way has operands for more words, and neither failed nor named what it defines. -/
structure Waits (s : Session) : Prop where
  operands : 2 ≤ s.parser.depth
  define? : s.define? = none
  failed : s.failed = false

theorem Clean.pending (h : s.Clean) : s.pending = false := pending_eq_false_iff.mpr ⟨h.parser, h.define?, h.failed⟩

theorem Waits.pending (h : s.Waits) : s.pending = true := by
  cases hpending : s.pending with
  | true => rfl
  | false =>
    have hoperands := h.operands
    rw [(pending_eq_false_iff.mp hpending).1] at hoperands
    cases hoperands

theorem Leaves.clean {definition? : Option (Bytes × Arith.Term)} (h : Leaves s definition? s') : s'.Clean :=
  ⟨h.parser, h.define?, h.failed⟩

/-- At the end of a line nothing is left of a program, or too much. -/
theorem clean_or_waits_of_settle (h : Prompter.settle s fuel outer? = some s') : s'.Clean ∨ s'.Waits := by
  rw [Prompter.settle] at h
  split at h
  · cases h
    exact Or.inl s.leaves_reset.clean
  · rename_i hfailed
    have hfailed : s.failed = false := by simpa using hfailed
    split at h
    · exact Or.inl (leaves_finish hfailed h).clean
    · rename_i hopen
      cases h
      simp only [Bool.or_eq_true, decide_eq_true_eq, not_or, Bool.not_eq_true, Option.isSome_eq_false_iff,
        Option.isNone_iff_eq_none] at hopen
      obtain ⟨hone, hdefine⟩ := hopen
      rcases Nat.lt_or_ge s.parser.depth 2 with hfew | hmany
      · have hnone : s.parser.depth = 0 := by omega
        exact Or.inl ⟨Parser.eq_empty_of_depth hnone, hdefine, hfailed⟩
      · exact Or.inr ⟨hmany, hdefine, hfailed⟩

/-! ### Sessions alike -/

/-- Two sessions that differ in their log and output only, and in what has been counted, or where a program began, that
    is over. -/
structure Alike (s t : Session) : Prop where
  options : s.options = t.options
  reducer : ∃ n, s.reducer = { t.reducer with steps := n }
  deadlines : s.deadlines = t.deadlines
  env : s.env = t.env
  parser : s.parser = t.parser
  define? : s.define? = t.define?
  failed : s.failed = t.failed
  start : s.pending = true → s.start = t.start

theorem Alike.pending (h : Alike s t) : s.pending = t.pending := by
  rw [Session.pending, Session.pending, h.parser, h.define?, h.failed]

theorem Alike.started (h : Alike s t) (loc : Location) :
    Alike (s.started loc) (t.started loc) ∧ (s.started loc).start = (t.started loc).start := by
  unfold Session.started
  rw [← h.pending]
  split
  · rename_i hpending
    exact ⟨h, h.start hpending⟩
  · exact ⟨⟨h.options, h.reducer, h.deadlines, h.env, h.parser, h.define?, h.failed, fun _ => rfl⟩, rfl⟩

/-- Sessions without a program under way are alike if they have the options, the reducer, the time and the definitions
    in common. -/
theorem Clean.alike (hs : s.Clean) (ht : t.Clean) (hoptions : s.options = t.options)
    (hreducer : ∃ n, s.reducer = { t.reducer with steps := n }) (hdeadlines : s.deadlines = t.deadlines)
    (henv : s.env = t.env) : Alike s t where
  options := hoptions
  reducer := hreducer
  deadlines := hdeadlines
  env := henv
  parser := by rw [hs.parser, ht.parser]
  define? := by rw [hs.define?, ht.define?]
  failed := by rw [hs.failed, ht.failed]
  start hpending := by
    rw [hs.pending] at hpending
    cases hpending

/-- Sessions alike that end programs with the same definition, in the same time, are alike. -/
theorem Alike.leaves (h : Alike s t) {definition? : Option (Bytes × Arith.Term)} (hs : Leaves s definition? s')
    (ht : Leaves t definition? t') (hdeadlines : s'.deadlines = t'.deadlines) : Alike s' t' := by
  obtain ⟨i, hi⟩ := h.reducer
  obtain ⟨j, hj⟩ := hs.reducer
  obtain ⟨k, hk⟩ := ht.reducer
  refine hs.clean.alike ht.clean ?_ ⟨j, ?_⟩ hdeadlines ?_
  · rw [hs.options, ht.options, h.options]
  · rw [hj, hk, hi]
  · rw [hs.env, ht.env, h.env]

theorem Alike.trans {u : Session} (h : Alike s t) (h' : Alike t u) : Alike s u where
  options := h.options.trans h'.options
  reducer := by
    obtain ⟨m, hm⟩ := h.reducer
    obtain ⟨n, hn⟩ := h'.reducer
    exact ⟨m, by rw [hm, hn]⟩
  deadlines := h.deadlines.trans h'.deadlines
  env := h.env.trans h'.env
  parser := h.parser.trans h'.parser
  define? := h.define?.trans h'.define?
  failed := h.failed.trans h'.failed
  start hpending := (h.start hpending).trans (h'.start (h.pending ▸ hpending))

theorem Alike.reset (h : Alike s t) : Alike s.reset t.reset := h.leaves s.leaves_reset t.leaves_reset h.deadlines

/-- A failure takes no time. -/
theorem Alike.fail (h : Alike s t) (loc loc' : Location) (e : ProgramError) :
    Alike (s.fail loc e).reset (t.fail loc' e).reset := h.leaves (s.leaves_fail _ _) (t.leaves_fail _ _) h.deadlines

theorem deadlines_conclude (s : Session) (run : Reducer.Run Arith.Value Bytes Arith.Value.Fault) :
    (s.conclude run).deadlines = s.deadlines.tail := by
  rw [Session.conclude]
  split
  · rfl
  · rename_i e _
    split
    · rfl
    · obtain ⟨out, log, hprint⟩ := (s.afterRun run).print_frame e
      rw [hprint]
      rfl

theorem Alike.conclude (h : Alike s t) (run : Reducer.Run Arith.Value Bytes Arith.Value.Fault) :
    Alike (s.conclude run).reset (t.conclude run).reset := by
  have hs := s.leaves_conclude run
  rw [h.define?] at hs
  refine h.leaves hs (t.leaves_conclude run) ?_
  change (s.conclude run).deadlines = (t.conclude run).deadlines
  rw [deadlines_conclude, deadlines_conclude, h.deadlines]

theorem Alike.finish (h : Alike s t) : Option.Rel Alike (s.finish fuel outer?) (t.finish fuel outer?) := by
  have hbound : s.bound = t.bound := by
    funext e
    rw [Session.bound, Session.bound, Session.rename?, Session.rename?, h.env, h.options]
  have hcontext : s.context outer? = t.context outer? := by simp only [Session.context, h.options, h.deadlines]
  obtain ⟨n, hreducer⟩ := h.reducer
  rw [Session.finish, Session.finish, h.parser, h.define?]
  split
  · exact .some h.reset
  · split
    · exact .some (h.fail _ _ _)
    · rename_i e hresult
      simp only [hbound, hcontext, hreducer, Reducer.normalize_steps]
      split
      · exact .some (h.fail _ _ _)
      · rename_i e' hbound'
        cases t.reducer.normalize (F := Arith.Value.Fault) fuel (t.context outer?) e' with
        | none => exact .none
        | some run => exact .some (h.conclude run)

theorem Alike.endProgram (h : Alike s t) : Option.Rel Alike (s.endProgram fuel outer?) (t.endProgram fuel outer?) := by
  rw [Session.endProgram, Session.endProgram, h.failed]
  split
  · exact .some h.reset
  · rw [Option.map_eq_bind, Option.map_eq_bind]
    exact rel_bind h.finish fun s' t' h' => .some h'.reset

theorem Alike.takeWord (h : Alike s t) (hstart : s.start = t.start) (word : Bytes) (loc : Location) :
    Alike (s.takeWord word loc) (t.takeWord word loc) := by
  have hfail : ∀ e, Alike (s.fail loc e) (t.fail loc e) := fun e =>
    ⟨h.options, h.reducer, h.deadlines, h.env, h.parser, h.define?, rfl, fun _ => hstart⟩
  unfold Session.takeWord
  rw [h.define?, h.parser]
  split
  · exact hfail _
  · split
    · exact ⟨h.options, h.reducer, h.deadlines, h.env, rfl, rfl, h.failed, fun _ => hstart⟩
    · split
      · exact hfail _
      · split
        · exact hfail _
        · exact ⟨h.options, h.reducer, h.deadlines, h.env, rfl, rfl, h.failed, fun _ => hstart⟩

theorem Alike.feedWord (h : Alike s t) (word : Bytes) (loc : Location) :
    Option.Rel Alike (s.feedWord fuel outer? word loc) (t.feedWord fuel outer? word loc) := by
  obtain ⟨hstarted, hstart⟩ := h.started loc
  by_cases hword : word = endWord
  · rw [hword, feedWord_end, feedWord_end]
    exact hstarted.endProgram
  · cases hfailed : s.failed with
    | true =>
      rw [feedWord_of_failed hfailed hword, feedWord_of_failed (h.failed ▸ hfailed) hword]
      exact .some h
    | false =>
      rw [feedWord_of_not_failed hfailed hword, feedWord_of_not_failed (h.failed ▸ hfailed) hword]
      exact .some (hstarted.takeWord hstart word loc)

theorem Alike.feedWords (h : Alike s t) (words : List (Bytes × Location)) :
    Option.Rel Alike (s.feedWords fuel outer? words) (t.feedWords fuel outer? words) := by
  induction words generalizing s t with
  | nil => exact .some h
  | cons w words ih => exact rel_bind (h.feedWord w.1 w.2) fun s' t' h' => ih h'

theorem Alike.settle (h : Alike s t) :
    Option.Rel Alike (Prompter.settle s fuel outer?) (Prompter.settle t fuel outer?) := by
  rw [Prompter.settle, Prompter.settle, h.failed, h.parser, h.define?]
  split
  · exact .some h.reset
  · split
    · exact h.finish
    · exact .some h

theorem rel_trans {x y z : Option Session} (hxy : Option.Rel Alike x y) (hyz : Option.Rel Alike y z) :
    Option.Rel Alike x z := by
  cases hxy with
  | none => exact hyz
  | some hab =>
    cases hyz with
    | some hbc => exact .some (hab.trans hbc)

/-! ### Lines -/

/-- Takes the words of a whole line. -/
def feedLine (s : Session) (fuel : Nat) (outer? : Option Interruption) (words : List (Bytes × Location)) :
    Option Session :=
  (s.feedWords fuel outer? words).bind fun s' => Prompter.settle s' fuel outer?

theorem Alike.feedLine (h : Alike s t) (words : List (Bytes × Location)) :
    Option.Rel Alike (s.feedLine fuel outer? words) (t.feedLine fuel outer? words) :=
  rel_bind (h.feedWords words) fun _ _ h' => h'.settle

theorem feedLine_append {front : List (Bytes × Location)} (h : s.feedWords fuel outer? front = some s')
    (words : List (Bytes × Location)) :
    s.feedLine fuel outer? (front ++ words) = s'.feedLine fuel outer? words := by
  rw [feedLine, feedWords_append, h]
  rfl

/-- A clean session with the options, the reducer, the time and the definitions of another. -/
structure CleanAs (s c : Session) : Prop extends Clean c where
  options : c.options = s.options
  reducer : ∃ n, c.reducer = { s.reducer with steps := n }
  deadlines : c.deadlines = s.deadlines
  env : c.env = s.env

theorem CleanAs.alike {c d : Session} (hc : CleanAs s c) (hd : CleanAs s d) : Alike c d := by
  obtain ⟨m, hm⟩ := hc.reducer
  obtain ⟨n, hn⟩ := hd.reducer
  refine hc.toClean.alike hd.toClean (hc.options.trans hd.options.symm) ⟨m, ?_⟩
    (hc.deadlines.trans hd.deadlines.symm) (hc.env.trans hd.env.symm)
  rw [hm, hn]

theorem Clean.cleanAs (h : s.Clean) : CleanAs s s := ⟨h, rfl, ⟨s.reducer.steps, rfl⟩, rfl, rfl⟩

theorem clean_of_end {front : List (Bytes × Location)} {loc : Location}
    (h : s.feedWords fuel outer? (front ++ [(endWord, loc)]) = some s') : s'.Clean := by
  rw [feedWords_append] at h
  obtain ⟨s₁, -, hlast⟩ := Option.bind_eq_some_iff.mp h
  obtain ⟨s₂, hend, hnil⟩ := Option.bind_eq_some_iff.mp hlast
  cases hnil
  rw [feedWord_end] at hend
  exact (leaves_endProgram hend).clean

/-- A word that fails costs the session nothing but the program. -/
theorem cleanAs_of_failure {word : Bytes} {loc : Location} (hok : s.failed = false)
    (hword : s.feedWord fuel outer? word loc = some s') (hfails : s'.failed = true) : CleanAs s s'.reset := by
  obtain ⟨start, hstart⟩ := s.started_frame loc
  rcases feedWord_cases hword with ⟨-, hend⟩ | ⟨-, hfailed, -⟩ | ⟨-, -, rfl⟩
  · rw [(leaves_endProgram hend).failed] at hfails
    cases hfails
  · rw [hok] at hfailed
    cases hfailed
  · obtain ⟨log, parser, define?, failed, htaken⟩ := (s.started loc).takeWord_frame word loc
    rw [htaken, hstart]
    exact ⟨⟨rfl, rfl, rfl⟩, rfl, ⟨s.reducer.steps, rfl⟩, rfl, rfl⟩

theorem feedLine_of_failed {words : List (Bytes × Location)} (h : s.failed = true)
    (hwords : ∀ w ∈ words, w.1 ≠ endWord) : s.feedLine fuel outer? words = some s.reset := by
  rw [feedLine, feedWords_of_failed hwords h, Option.bind_some, Prompter.settle, if_pos h]

/-- After a failure, a line goes on after the end of the program as from a session without it. -/
theorem feedLine_of_failed_end {mid after : List (Bytes × Location)} {loc : Location} (h : s.failed = true)
    (hmid : ∀ w ∈ mid, w.1 ≠ endWord) :
    s.feedLine fuel outer? (mid ++ (endWord, loc) :: after) = s.reset.feedLine fuel outer? after := by
  have hpending : s.pending = true := by simp [Session.pending, h]
  rw [feedLine_append (feedWords_of_failed hmid h), feedLine, feedWords, feedWord_end, started_of_pending hpending,
    endProgram, if_pos h]
  rfl

/-! ### What becomes of the output -/

/-- The session writes to what has become of an output, and shares it with no log. -/
structure WritesTo (out : Output) (s : Session) : Prop where
  logPlace? : s.logPlace? = none
  reached : out.Reached s.out

theorem WritesTo.finish {out : Output} (h : WritesTo out s) (hfinish : s.finish fuel outer? = some s') :
    WritesTo out s' := by
  rw [Session.finish] at hfinish
  split at hfinish
  · cases hfinish
    exact ⟨h.logPlace?, h.reached⟩
  · split at hfinish
    · cases hfinish
      exact ⟨h.logPlace?, h.reached⟩
    · split at hfinish
      · cases hfinish
        exact ⟨h.logPlace?, h.reached⟩
      · obtain ⟨run, -, rfl⟩ := Option.map_eq_some_iff.mp hfinish
        refine ⟨(s.leaves_conclude run).logPlace?.trans h.logPlace?, ?_⟩
        change out.Reached (s.conclude run).out
        rw [Session.conclude]
        split
        · exact h.reached
        · split
          · exact h.reached
          · rw [out_print (by exact h.logPlace?)]
            exact h.reached.writePieces 0 _

theorem WritesTo.feedWord {out : Output} (h : WritesTo out s) {word : Bytes} {loc : Location}
    (hfeed : s.feedWord fuel outer? word loc = some s') : WritesTo out s' := by
  obtain ⟨start, hstart⟩ := s.started_frame loc
  have hstarted : WritesTo out (s.started loc) := by
    rw [hstart]
    exact ⟨h.logPlace?, h.reached⟩
  rcases feedWord_cases hfeed with ⟨-, hend⟩ | ⟨-, -, rfl⟩ | ⟨-, -, rfl⟩
  · rw [endProgram] at hend
    split at hend
    · cases hend
      exact ⟨hstarted.logPlace?, hstarted.reached⟩
    · obtain ⟨s'', hfinish, rfl⟩ := Option.map_eq_some_iff.mp hend
      have hfinished := hstarted.finish hfinish
      exact ⟨hfinished.logPlace?, hfinished.reached⟩
  · exact h
  · obtain ⟨log, parser, define?, failed, htaken⟩ := (s.started loc).takeWord_frame word loc
    rw [htaken]
    exact ⟨hstarted.logPlace?, hstarted.reached⟩

theorem WritesTo.feedWords {out : Output} (h : WritesTo out s) {words : List (Bytes × Location)}
    (hfeed : s.feedWords fuel outer? words = some s') : WritesTo out s' := by
  induction words generalizing s with
  | nil =>
    cases hfeed
    exact h
  | cons w words ih =>
    obtain ⟨s₁, hword, hrest⟩ := Option.bind_eq_some_iff.mp hfeed
    exact ih (h.feedWord hword) hrest

theorem WritesTo.feedLine {out : Output} (h : WritesTo out s) {words : List (Bytes × Location)}
    (hfeed : s.feedLine fuel outer? words = some s') : WritesTo out s' := by
  obtain ⟨s₁, hwords, hsettle⟩ := Option.bind_eq_some_iff.mp hfeed
  have hfed := h.feedWords hwords
  rw [Prompter.settle] at hsettle
  split at hsettle
  · cases hsettle
    exact ⟨hfed.logPlace?, hfed.reached⟩
  · split at hsettle
    · exact hfed.finish hsettle
    · cases hsettle
      exact hfed

/-- Flushing touches the output and the log only. -/
theorem flush_frame (s : Session) : ∃ out log, s.flush.1 = { s with out := out, log := log } := by
  simp only [flush, onOutput]
  split <;> exact ⟨_, _, rfl⟩

theorem WritesTo.flush {out : Output} (h : WritesTo out s) (hout : out.AlwaysFlushes) :
    WritesTo out s.flush.1 ∧ s.flush.2 = none := by
  simp only [Session.flush, onOutput, h.logPlace?, hout s.out h.reached]
  exact ⟨⟨rfl, h.reached.flush⟩, rfl⟩

end Session

namespace Prompter

open Session

variable {p p' : Prompter} {fuel : Nat} {outer? : Option Interruption}

/-! ### The words of a line -/

/-- The words of a line, given as the answer to the prompt of that number. -/
def lineWords (number : Nat) (text : Bytes) : List (Bytes × Location) :=
  ({ queue := [.named (sourceName number) text] } : Input).words.2.1

theorem words_line (number : Nat) (text : Bytes) :
    (∃ inp' loc, ({ queue := [.named (sourceName number) text] } : Input).words =
        (inp', lineWords number text, .ended loc)) ∧
      (lineWords number text).map Prod.fst = Input.wordsIn (Utf8.chars text) := by
  have hread : ({ queue := [.named (sourceName number) text] } : Input).Readable :=
    List.forall_mem_singleton.mpr (Source.readable_named _ _)
  obtain ⟨inp', words, loc, hwords, -, hfound⟩ := @Input.wordsFrom_eq _ [] hread
  have hline : lineWords number text = words := by rw [lineWords, Input.words, hwords]
  rw [hline]
  refine ⟨⟨inp', loc, hwords⟩, hfound.trans ?_⟩
  simp [Input.streams, Input.sources, Source.chars_named]

theorem wordsIn_of_blank {cs : List Char} (h : ∀ c ∈ cs, Text.isBlank c = true) : Input.wordsIn cs = [] := by
  induction cs with
  | nil => exact Input.wordsIn_nil
  | cons c cs ih =>
    rw [List.forall_mem_cons] at h
    rw [Input.wordsIn_of_separates (by simp [Input.separates, h.1]), ih h.2]

theorem lineWords_of_blank {text : Bytes} (h : Text.isAllBlank text = true) (number : Nat) :
    lineWords number text = [] := by
  have hblank : ∀ c ∈ Utf8.chars text, Text.isBlank c = true := by
    intro c hc
    obtain ⟨r, hr, rfl⟩ := List.mem_map.mp hc
    exact List.all_eq_true.mp h r hr
  have hwords := (words_line number text).2
  rw [wordsIn_of_blank hblank] at hwords
  exact List.map_eq_nil_iff.mp hwords

/-! ### Answers -/

/-- Asks, and takes the answers, up to the next prompt; failures of the output are let pass. -/
def ask (p : Prompter) (fuel : Nat) (outer? : Option Interruption) : List Answer → Option Prompter
  | [] => some p
  | answer :: rest => (p.showPrompt.takeAnswer fuel outer? answer).bind fun result => result.1.ask fuel outer? rest

theorem takeAnswer_line {text : Bytes} (h : Text.isAllBlank text = false) :
    p.takeAnswer fuel outer? (.line text) =
      (p.session.feedLine fuel outer? (lineWords p.number text)).map fun s =>
        (⟨s.flush.1, p.number + 1, remember p.history text⟩, s.flush.2) := by
  obtain ⟨⟨inp', loc, hwords⟩, -⟩ := words_line p.number text
  have hfeed : p.session.feed fuel outer? {} [.given (.named (sourceName p.number) text)] =
      (p.session.feedWords fuel outer? (lineWords p.number text)).map fun s => (s, inp', none) := by
    rw [feed, Origin.source, hwords, Option.map_eq_bind]
    rfl
  rw [takeAnswer, if_neg (by simp [h]), hfeed, feedLine]
  cases p.session.feedWords fuel outer? (lineWords p.number text) with
  | none => rfl
  | some s => exact (Option.map_eq_bind ..).symm

/-- An answer leaves a session that is clean or waits, if that is what it finds. -/
theorem clean_or_waits_of_takeAnswer (hp : p.session.Clean ∨ p.session.Waits) {answer : Answer}
    {error? : Option SessionError} (h : p.takeAnswer fuel outer? answer = some (p', error?)) :
    p'.session.Clean ∨ p'.session.Waits := by
  cases answer with
  | aborted =>
    cases h
    exact Or.inl p.session.leaves_reset.clean
  | line text =>
    cases hblank : Text.isAllBlank text with
    | true =>
      simp only [takeAnswer, hblank, if_true] at h
      cases h
      exact hp
    | false =>
      rw [takeAnswer_line hblank] at h
      obtain ⟨s, hfed, heq⟩ := Option.map_eq_some_iff.mp h
      cases heq
      obtain ⟨s', -, hsettle⟩ := Option.bind_eq_some_iff.mp hfed
      obtain ⟨out, log, hflush⟩ := s.flush_frame
      rw [hflush]
      rcases clean_or_waits_of_settle hsettle with hclean | hwaits
      · exact Or.inl ⟨hclean.parser, hclean.define?, hclean.failed⟩
      · exact Or.inr ⟨hwaits.operands, hwaits.define?, hwaits.failed⟩

theorem clean_or_waits_of_ask {answers : List Answer} (hp : p.session.Clean ∨ p.session.Waits)
    (h : p.ask fuel outer? answers = some p') : p'.session.Clean ∨ p'.session.Waits := by
  induction answers generalizing p with
  | nil =>
    cases h
    exact hp
  | cons answer answers ih =>
    obtain ⟨⟨p₁, error?⟩, hanswer, hrest⟩ := Option.bind_eq_some_iff.mp h
    have hshown : p.showPrompt.session.Clean ∨ p.showPrompt.session.Waits :=
      hp.imp (fun h => ⟨h.parser, h.define?, h.failed⟩) fun h => ⟨h.operands, h.define?, h.failed⟩
    exact ih (clean_or_waits_of_takeAnswer hshown hanswer) hrest

theorem writesTo_of_takeAnswer {out : Output} (hout : out.AlwaysFlushes) (hp : WritesTo out p.session)
    {answer : Answer} {error? : Option SessionError} (h : p.takeAnswer fuel outer? answer = some (p', error?)) :
    WritesTo out p'.session ∧ error? = none := by
  cases answer with
  | aborted =>
    cases h
    exact ⟨⟨hp.logPlace?, hp.reached⟩, rfl⟩
  | line text =>
    cases hblank : Text.isAllBlank text with
    | true =>
      simp only [takeAnswer, hblank, if_true] at h
      cases h
      exact ⟨hp, rfl⟩
    | false =>
      rw [takeAnswer_line hblank] at h
      obtain ⟨s, hfed, heq⟩ := Option.map_eq_some_iff.mp h
      cases heq
      exact (hp.feedLine hfed).flush hout

theorem writesTo_showPrompt {out : Output} (hp : WritesTo out p.session) :
    WritesTo out p.showPrompt.session := ⟨hp.logPlace?, hp.reached.past 0 p.prompt⟩

theorem writesTo_of_ask {out : Output} (hout : out.AlwaysFlushes) (hp : WritesTo out p.session)
    {answers : List Answer} (h : p.ask fuel outer? answers = some p') : WritesTo out p'.session := by
  induction answers generalizing p with
  | nil =>
    cases h
    exact hp
  | cons answer answers ih =>
    obtain ⟨⟨p₁, error?⟩, hanswer, hrest⟩ := Option.bind_eq_some_iff.mp h
    exact ih (writesTo_of_takeAnswer hout (writesTo_showPrompt hp) hanswer).1 hrest

/-- While the output does not fail, a loop asks as long as there are answers. -/
theorem run_append {out : Output} (hout : out.AlwaysFlushes) (hp : WritesTo out p.session)
    (answers more : List Answer) :
    p.run fuel outer? (answers ++ more) = (p.ask fuel outer? answers).bind fun p' => p'.run fuel outer? more := by
  induction answers generalizing p with
  | nil => rfl
  | cons answer answers ih =>
    have hshown : WritesTo out p.showPrompt.session := writesTo_showPrompt hp
    rw [List.cons_append, run, ask]
    cases hanswer : p.showPrompt.takeAnswer fuel outer? answer with
    | none => rfl
    | some result =>
      obtain ⟨p₁, error?⟩ := result
      obtain ⟨hwrites, rfl⟩ := writesTo_of_takeAnswer hout hshown hanswer
      exact ih hwrites

/-- What a line makes of the session is what its words make of it. -/
theorem ask_line {text : Bytes} (h : lineWords p.number text ≠ []) :
    Option.Rel Alike ((p.ask fuel outer? [.line text]).map session)
      (p.session.feedLine fuel outer? (lineWords p.number text)) := by
  have hblank : Text.isAllBlank text = false := by
    cases hblank : Text.isAllBlank text with
    | true => exact absurd (lineWords_of_blank hblank p.number) h
    | false => rfl
  have hshown : Alike p.showPrompt.session p.session :=
    ⟨rfl, ⟨p.session.reducer.steps, rfl⟩, rfl, rfl, rfl, rfl, rfl, fun _ => rfl⟩
  have hflush : ∀ s : Session, Alike s.flush.1 s := by
    intro s
    obtain ⟨out, log, hflush⟩ := s.flush_frame
    rw [hflush]
    exact ⟨rfl, ⟨s.reducer.steps, rfl⟩, rfl, rfl, rfl, rfl, rfl, fun _ => rfl⟩
  have hasked : (p.ask fuel outer? [.line text]).map session =
      (p.showPrompt.session.feedLine fuel outer? (lineWords p.number text)).map fun s => s.flush.1 := by
    have hnumber : p.showPrompt.number = p.number := rfl
    rw [ask, takeAnswer_line hblank, hnumber]
    cases p.showPrompt.session.feedLine fuel outer? (lineWords p.number text) <;> rfl
  rw [hasked, Option.map_eq_bind]
  have hline : Option.Rel Alike (p.showPrompt.session.feedLine fuel outer? (lineWords p.number text))
      (p.session.feedLine fuel outer? (lineWords p.number text)) := hshown.feedLine _
  have hflushed := rel_bind hline fun s t hst => Option.Rel.some ((hflush s).trans hst)
  rwa [Option.bind_fun_some] at hflushed

/-- After the first words of a line, it goes on as the words that are left would from there. -/
theorem ask_line_from {text : Bytes} {front rest : List (Bytes × Location)} {w : Bytes × Location} {s : Session}
    (hwords : lineWords p.number text = front ++ w :: rest)
    (hfed : p.session.feedWords fuel outer? (front ++ [w]) = some s) :
    Option.Rel Alike ((p.ask fuel outer? [.line text]).map session) (s.feedLine fuel outer? rest) := by
  have hne : lineWords p.number text ≠ [] := by simp [hwords]
  have hline := @ask_line p fuel outer? text hne
  rwa [hwords, List.append_cons, feedLine_append hfed] at hline

theorem clean_of_alike {asked : Option Prompter} {s c : Session} (hc : CleanAs s c)
    (h : Option.Rel Alike (asked.map session) (some c)) :
    ∃ p', asked = some p' ∧ p'.session.Clean ∧ p'.session.env = s.env := by
  cases asked with
  | none => cases h
  | some p' =>
    cases h with
    | some h =>
      refine ⟨p', rfl, ⟨?_, ?_, ?_⟩, h.env.trans hc.env⟩
      · exact h.parser.trans hc.parser
      · exact h.define?.trans hc.define?
      · exact h.failed.trans hc.failed

/-- What a prompt shows goes to the first sink at once, behind all that has reached it, and changes nothing else. -/
structure Shows (p : Prompter) (text : Bytes) : Prop where
  sink : ∀ s, p.session.out.sinks[0]? = some s → p.showPrompt.session.out.sinks[0]? = some (s.write text).1 ∧
    (s.Keeps → (s.write text).1.text = s.text ++ text.take (s.write text).2.count)
  elsewhere : ∀ place, place ≠ 0 → p.showPrompt.session.out.sinks[place]? = p.session.out.sinks[place]?
  rest : { p.showPrompt with
    session := { p.showPrompt.session with out := { p.showPrompt.session.out with sinks := p.session.out.sinks } } } = p

theorem shows_prompt (p : Prompter) : p.Shows p.prompt := by
  cases hsink : p.session.out.sinks[0]? with
  | none =>
    have hshown : p.showPrompt = p := by simp only [showPrompt, Output.writePast, hsink]
    refine ⟨fun s hs => ?_, fun place _ => by rw [hshown], by rw [hshown]⟩
    rw [hsink] at hs
    cases hs
  | some s =>
    have hlt : 0 < p.session.out.sinks.length := (List.getElem?_eq_some_iff.mp hsink).1
    have hshown : p.showPrompt.session.out.sinks = p.session.out.sinks.set 0 (s.write p.prompt).1 := by
      simp only [showPrompt, Output.writePast, hsink]
    refine ⟨fun s' hs' => ?_, fun place hplace => ?_, ?_⟩
    · rw [hsink] at hs'
      cases hs'
      exact ⟨by rw [hshown, List.getElem?_set_self hlt], fun hkeeps => (hkeeps.write rfl).2.1⟩
    · rw [hshown, List.getElem?_set_ne (Ne.symm hplace)]
    · simp only [showPrompt, Output.writePast, hsink]

/-- No line poisons the next, whatever time the reductions have. While the output does not fail, a loop asks as long as
    there are answers, and then flushes. At every prompt the session is clean, or else it waits for more words, and then
    the prompt that is shown says so. A line with a word that fails leaves a clean session, or what the words after the
    end of the program that failed make of a clean session with the same definitions; and so does any end word in a
    line. -/
theorem lines_never_poisoned (o : SessionOptions) (log : Logger) (out : Output) (hout : out.AlwaysFlushes)
    (deadlines : List (Option Nat)) (fuel : Nat) (outer? : Option Interruption) (answers : List Answer) :
    let start : Prompter := { session := { new o log out with deadlines := deadlines } }
    (∀ more, start.run fuel outer? (answers ++ more) =
      (start.ask fuel outer? answers).bind fun p => p.run fuel outer? more) ∧
    ∀ p, start.ask fuel outer? answers = some p →
      (p.session.Clean ∧ p.prompt = Bytes.ofString "λ> " ∨ p.session.Waits ∧ p.prompt = Bytes.ofString ".. ") ∧
      p.Shows p.prompt ∧
      p.run fuel outer? [] = some ({ p.showPrompt with session := p.showPrompt.session.flush.1 }, none) ∧
      (∀ text front word loc rest s s', lineWords p.number text = front ++ (word, loc) :: rest →
        p.session.feedWords fuel outer? front = some s → s.failed = false →
        s.feedWord fuel outer? word loc = some s' → s'.failed = true →
          ((∀ w ∈ rest, w.1 ≠ endWord) →
            ∃ p', p.ask fuel outer? [.line text] = some p' ∧ p'.session.Clean ∧ p'.session.env = s.env) ∧
          ∀ mid loc' after, rest = mid ++ (endWord, loc') :: after → (∀ w ∈ mid, w.1 ≠ endWord) →
            ∀ c, CleanAs s c → Option.Rel Alike ((p.ask fuel outer? [.line text]).map session)
              (c.feedLine fuel outer? after)) ∧
      ∀ text front loc after s, lineWords p.number text = front ++ (endWord, loc) :: after →
        p.session.feedWords fuel outer? (front ++ [(endWord, loc)]) = some s → s.Clean ∧
          ∀ c, CleanAs s c → Option.Rel Alike ((p.ask fuel outer? [.line text]).map session)
            (c.feedLine fuel outer? after) := by
  intro start
  have hclean : start.session.Clean := ⟨rfl, rfl, rfl⟩
  have hwrites : WritesTo out start.session := ⟨rfl, .refl⟩
  refine ⟨fun more => run_append hout hwrites answers more, fun p hp => ⟨?_, p.shows_prompt, ?_, ?_, ?_⟩⟩
  · rcases clean_or_waits_of_ask (Or.inl hclean) hp with hclean | hwaits
    · exact Or.inl ⟨hclean, by rw [prompt, hclean.pending]; rfl⟩
    · exact Or.inr ⟨hwaits, by rw [prompt, hwaits.pending]; rfl⟩
  · have hshown : WritesTo out p.showPrompt.session := writesTo_showPrompt (writesTo_of_ask hout hwrites hp)
    rw [run, ← (hshown.flush hout).2]
  · intro text front word loc rest s s' hwords hfront hok hword hfails
    have hdrop := cleanAs_of_failure hok hword hfails
    have hfed : p.session.feedWords fuel outer? (front ++ [(word, loc)]) = some s' := by
      rw [feedWords_append, hfront, Option.bind_some, feedWords, hword]
      rfl
    have hline := ask_line_from hwords hfed
    refine ⟨fun hrest => ?_, fun mid loc' after heq hmid c hc => ?_⟩
    · rw [feedLine_of_failed hfails hrest] at hline
      exact clean_of_alike hdrop hline
    · rw [heq, feedLine_of_failed_end hfails hmid] at hline
      exact rel_trans hline ((hdrop.alike hc).feedLine after)
  · intro text front loc after s hwords hfed
    have hclean := clean_of_end hfed
    exact ⟨hclean, fun c hc => rel_trans (ask_line_from hwords hfed) ((hclean.cleanAs.alike hc).feedLine after)⟩

/-- The time of a first program is over before its reduction begins. The line after it is continued by one whose second
    word fails; after its end word, two operands are waiting again. -/
theorem lines_never_poisoned_recovery :
    let start : Prompter :=
      { session := { new { timeout := 5 } {} (Output.ofSink { kind := .memory }) with deadlines := [some 0, none] } }
    let loc : Location := ⟨Bytes.ofString "<repl 3>", 1⟩
    ∃ p s, start.ask 10 none [.line (Bytes.ofString "7"), .line (Bytes.ofString "1 2")] = some p ∧ p.session.Waits ∧
      p.session.out.textAt 0 = Bytes.ofString "λ> λ> " ∧ p.Shows (Bytes.ofString ".. ") ∧
      p.session.feedWords 10 none [(Bytes.ofString "@", loc)] = some s ∧
      ((p.ask 10 none [.line (Bytes.ofString "@ @ ; 5 6")]).map fun p' => p'.session.parser.depth) = some 2 ∧
      ∀ c, CleanAs s c → Option.Rel Alike ((p.ask 10 none [.line (Bytes.ofString "@ @ ; 5 6")]).map session)
        (c.feedLine 10 none [(Bytes.ofString "5", loc), (Bytes.ofString "6", loc)]) := by
  intro start loc
  have hstates : ((start.ask 10 none [.line (Bytes.ofString "7"), .line (Bytes.ofString "1 2")]).bind fun p =>
      (p.session.feedWords 10 none [(Bytes.ofString "@", loc)]).bind fun s =>
        (s.feedWord 10 none (Bytes.ofString "@") loc).map fun s' =>
          (p.session.pending, p.number, p.session.out.textAt 0, s.failed, s'.failed)) =
      some (true, 3, Bytes.ofString "λ> λ> ", false, true) := by
    decide +kernel
  have hwords : lineWords 3 (Bytes.ofString "@ @ ; 5 6") = [(Bytes.ofString "@", loc)] ++ (Bytes.ofString "@", loc) ::
      ([] ++ (endWord, loc) :: [(Bytes.ofString "5", loc), (Bytes.ofString "6", loc)]) := by
    decide +kernel
  have hdepth : ((start.ask 10 none [.line (Bytes.ofString "7"), .line (Bytes.ofString "1 2")]).bind fun p =>
      (p.ask 10 none [.line (Bytes.ofString "@ @ ; 5 6")]).map fun p' => p'.session.parser.depth) = some 2 := by
    decide +kernel
  obtain ⟨p, hp, hrest⟩ := Option.bind_eq_some_iff.mp hstates
  obtain ⟨s, hs, hrest⟩ := Option.bind_eq_some_iff.mp hrest
  obtain ⟨s', hs', hflags⟩ := Option.map_eq_some_iff.mp hrest
  simp only [Prod.mk.injEq] at hflags
  obtain ⟨hpending, hnumber, htext, hok, hfails⟩ := hflags
  obtain ⟨-, hprompts⟩ := lines_never_poisoned { timeout := 5 } {} (Output.ofSink { kind := .memory })
    (Output.alwaysFlushes_memory rfl) [some 0, none] 10 none [.line (Bytes.ofString "7"), .line (Bytes.ofString "1 2")]
  obtain ⟨hstate, hshows, -, hfailure, -⟩ := hprompts p hp
  have hwaits : p.session.Waits ∧ p.prompt = Bytes.ofString ".. " := by
    rcases hstate with ⟨hclean, -⟩ | hwaits
    · rw [hclean.pending] at hpending
      cases hpending
    · exact hwaits
  refine ⟨p, s, hp, hwaits.1, htext, hwaits.2 ▸ hshows, hs, ?_, fun c hc => ?_⟩
  · rwa [hp, Option.bind_some] at hdepth
  · rw [← hnumber] at hwords
    exact (hfailure _ _ _ _ _ s s' hwords hs hok hs' hfails).2 _ _ _ rfl (by simp) c hc

end Prompter

end PostfixLambda
