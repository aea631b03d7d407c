import Mathlib.Data.Option.Basic
import PostfixLambda.Proofs.Session.Outcomes
import PostfixLambda.Proofs.Stream.Words

/-! Programs of a session are isolated: a session that is fed words does what its programs come to one by one. Between
    two programs a session is idle, and of what went before it holds nothing but the definitions. -/

namespace PostfixLambda

open Program

/-! ### Results that may be missing -/

theorem rel_bind {α β γ δ : Type} {r : α → β → Prop} {q : γ → δ → Prop} {x : Option α} {y : Option β} {f : α → Option γ}
    {g : β → Option δ} (h : Option.Rel r x y) (hfg : ∀ a b, r a b → Option.Rel q (f a) (g b)) :
    Option.Rel q (x.bind f) (y.bind g) := by
  cases h with
  | some hab => exact hfg _ _ hab
  | none => exact .none

theorem rel_mono {α β : Type} {r q : α → β → Prop} {x : Option α} {y : Option β} (h : Option.Rel r x y)
    (hrq : ∀ a b, r a b → q a b) : Option.Rel q x y := by
  cases h with
  | some hab => exact .some (hrq _ _ hab)
  | none => exact .none

theorem rel_map {α β γ : Type} {r : α → β → Prop} {q : α → γ → Prop} {x : Option α} {y : Option β} {g : β → γ}
    (h : Option.Rel r x y) (hg : ∀ a b, r a b → q a (g b)) : Option.Rel q x (y.map g) := by
  cases h with
  | some hab => exact .some (hg _ _ hab)
  | none => exact .none

theorem map_eq_of_rel {α β γ : Type} {r : α → β → Prop} {x : Option α} {y : Option β} {f : α → γ} {g : β → γ}
    (h : Option.Rel r x y) (hfg : ∀ a b, r a b → f a = g b) : x.map f = y.map g := by
  cases h with
  | some hab => exact congrArg some (hfg _ _ hab)
  | none => rfl

/-- The steps that a reducer counted do not matter to a run. -/
theorem Reducer.normalize_steps {V S F : Type} [DecidableEq S] [Domain V F] [Shown S] (red : Reducer S) (n fuel : Nat)
    (ctx : Context) (e : Term V S) :
    Reducer.normalize (F := F) { red with steps := n } fuel ctx e = red.normalize fuel ctx e := by
  have hrounds : ∀ (fuel : Nat) (p : Progress V S),
      Reducer.rounds (F := F) { red with steps := n } ctx fuel p = red.rounds ctx fuel p := by
    intro fuel
    induction fuel with
    | zero => exact fun p => rfl
    | succ fuel ih =>
      intro p
      have hround : Reducer.round (F := F) { red with steps := n } ctx p = red.round ctx p := rfl
      rw [rounds, rounds, hround]
      split
      · rfl
      · exact ih _
  rw [normalize, normalize, hrounds]
  rfl

namespace Session

variable {o : SessionOptions} {s : Session} {fuel : Nat} {outer? : Option Interruption}

/-- The session has the options and goes by them alone: no sink is shared between its log and its output. -/
structure Plain (o : SessionOptions) (s : Session) : Prop where
  options : s.options = o
  reducer : ∃ n, s.reducer = { Program.reducer o with steps := n }
  logPlace? : s.logPlace? = none

/-- No program is under way. -/
structure Idle (o : SessionOptions) (s : Session) : Prop extends Plain o s where
  parser : s.parser = {}
  define? : s.define? = none
  failed : s.failed = false

theorem Plain.reset (h : Plain o s) : Idle o s.reset := ⟨⟨h.options, h.reducer, h.logPlace?⟩, rfl, rfl, rfl⟩

theorem idle_new (o : SessionOptions) (log : Logger) (out : Output) : Idle o (new o log out) :=
  ⟨⟨rfl, ⟨0, rfl⟩, rfl⟩, rfl, rfl, rfl⟩

/-- The second session is idle and holds what the outcome makes of the first. -/
structure Follows (o : SessionOptions) (s : Session) (outcomes : List Outcome) (env : Env Arith.Value Bytes)
    (s' : Session) : Prop extends Idle o s' where
  env : s'.env = env
  out : s'.out = s.out.writeAll (outcomes.flatMap (Outcome.pieces o))
  log : s'.log = s.log.takeAll (outcomes.flatMap (Outcome.entries o))

/-! ### Ending a program -/

/-- Ends the program under way, which may have failed. -/
def endProgram (s : Session) (fuel : Nat) (outer? : Option Interruption) : Option Session :=
  if s.failed then some s.reset else (s.finish fuel outer?).map reset

theorem log_fail (h : s.options = o) (loc : Location) (e : ProgramError) :
    (s.fail loc e).log = s.log.takeAll (failureEntries o loc e) := by
  simp only [fail, failureEntries, Logger.takeAll, h]
  split <;> rfl

theorem log_traceLines (h : Plain o s) (lines : List Bytes) :
    (s.traceLines lines).log = s.log.takeAll (lines.map (.note ((Program.reducer o).logLevel?.getD []))) := by
  obtain ⟨n, hreducer⟩ := h.reducer
  simp only [traceLines, Logger.takeAll, List.foldl_map, hreducer]
  rfl

theorem print_eq (h : Plain o s) (hout : s.out.NeverFails) (e : Arith.Term) :
    s.print e = { s with out := s.out.writeAll (Text.terminalPieces (line o e ++ [Bytes.lineFeed])) } := by
  have hline : s.lineOf e = line o e := by rw [lineOf, line, h.options]
  obtain ⟨hwritten, herror⟩ := hout.writePieces 0 (Text.terminalPieces (line o e ++ [Bytes.lineFeed]))
  simp only [print, onOutput, h.logPlace?, hline, herror, hwritten]

theorem Plain.fail (h : Plain o s) (loc : Location) (e : ProgramError) : Plain o (s.fail loc e) :=
  ⟨h.options, h.reducer, h.logPlace?⟩

/-- A session that reports a failure and drops the program is idle again, and has logged the failure. -/
theorem follows_fail (lines : List Bytes) {s' : Session} (hs' : Plain o s') (henv : s'.env = s.env)
    (hout : s'.out = s.out) (hlog : s'.log = s.log.takeAll (lines.map (.note ((Program.reducer o).logLevel?.getD []))))
    (loc : Location) (e : ProgramError) : Follows o s [⟨lines, .failed loc e⟩] s.env (s'.fail loc e).reset where
  toIdle := (hs'.fail loc e).reset
  env := henv
  out := hout
  log := by
    change (s'.fail loc e).log = _
    rw [log_fail hs'.options, hlog, ← Logger.takeAll_append]
    simp [Outcome.entries]

theorem follows_conclude (h : Plain o s) (hout : s.out.NeverFails)
    (run : Reducer.Run Arith.Value Bytes Arith.Value.Fault) :
    Follows o s [⟨run.log, fateOf s.start s.define? run.result⟩]
      (Outcome.envAfter ⟨run.log, fateOf s.start s.define? run.result⟩ s.env) (s.conclude run).reset := by
  have htrace : Plain o (s.afterRun run) := by
    obtain ⟨n, hreducer⟩ := h.reducer
    refine ⟨h.options, ⟨run.steps, ?_⟩, h.logPlace?⟩
    change { s.reducer with steps := run.steps } = _
    rw [hreducer]
  have hlog := log_traceLines h run.log
  simp only [conclude]
  split
  · rename_i halt hresult
    rw [hresult]
    exact follows_fail (s := s) run.log htrace rfl rfl hlog s.start (.halt halt)
  · rename_i e hresult
    rw [hresult]
    split
    · rename_i name hdefine
      change s.define? = some name at hdefine
      rw [hdefine]
      refine ⟨⟨⟨htrace.options, htrace.reducer, htrace.logPlace?⟩, rfl, rfl, rfl⟩, rfl, rfl, hlog.trans ?_⟩
      simp [Outcome.entries, fateOf]
    · rename_i hdefine
      change s.define? = none at hdefine
      rw [hdefine, print_eq htrace hout]
      refine ⟨⟨⟨htrace.options, htrace.reducer, htrace.logPlace?⟩, rfl, rfl, rfl⟩, rfl, ?_, hlog.trans ?_⟩
      · simp [Outcome.pieces, fateOf]
        rfl
      · simp [Outcome.entries, fateOf]

/-- Ending a program that was read gives its outcome. -/
theorem endProgram_of_read (fuel : Nat) (h : Plain o s) (hout : s.out.NeverFails) (htimeout : o.timeout = 0)
    (hfailed : s.failed = false) (hunder : s.pending = true) :
    Option.Rel (fun s' outcome => Follows o s [outcome] (outcome.envAfter s.env) s') (s.endProgram fuel none)
      (Program.conclude o fuel s.env s.start s.define? s.parser) := by
  have hsome : (s.parser.isEmpty && s.define?.isNone) = false := by
    simp only [pending, hfailed] at hunder
    cases hp : s.parser.isEmpty <;> cases hd : s.define? <;> simp_all
  have hrename : s.rename? = Program.rename? o := by rw [Session.rename?, Program.rename?, h.options]
  have hcontext : s.context none = .background := by simp [context, h.options, htimeout]
  obtain ⟨n, hreducer⟩ := h.reducer
  rw [endProgram, if_neg (by simp [hfailed]), finish, if_neg (by simp [hsome]), Program.conclude]
  cases hresult : s.parser.result with
  | error fault => exact .some (follows_fail [] h rfl rfl rfl s.start (.parse fault))
  | ok e =>
    simp only [bound, hrename]
    split
    · rename_i stop hbound
      rw [hbound]
      exact .some (follows_fail [] h rfl rfl rfl s.start (.bind stop))
    · rename_i e' hbound
      rw [hbound, hcontext, hreducer, Reducer.normalize_steps]
      simp only
      cases (Program.reducer o).normalize fuel .background e' with
      | none => exact .none
      | some run => exact .some (follows_conclude h hout run)

/-! ### Reading a program -/

/-- A program that begins with a word starts there. -/
def started (s : Session) (loc : Location) : Session := if s.pending then s else { s with start := loc }

theorem started_of_pending (h : s.pending = true) (loc : Location) : s.started loc = s := by rw [started, if_pos h]

theorem started_eq {loc : Location} (h : s.pending = true ∨ s.start = loc) : s.started loc = s := by
  rcases h with h | rfl
  · exact started_of_pending h loc
  · unfold started
    split <;> rfl

theorem feedWord_end (s : Session) (loc : Location) :
    s.feedWord fuel outer? endWord loc = (s.started loc).endProgram fuel outer? := by
  rw [feedWord, if_pos rfl]
  rfl

theorem feedWord_of_not_failed (h : s.failed = false) {word : Bytes} (hword : word ≠ endWord) (loc : Location) :
    s.feedWord fuel outer? word loc = some ((s.started loc).takeWord word loc) := by
  have hfailed : (s.started loc).failed = false := by
    unfold started
    split <;> exact h
  rw [feedWord, if_neg hword]
  change (if (s.started loc).failed then _ else _) = _
  rw [hfailed, if_neg Bool.false_ne_true]
  rfl

theorem feedWords_cons (hfailed : s.failed = false) {word : Bytes} (hword : word ≠ endWord) {loc : Location}
    (hstart : s.pending = true ∨ s.start = loc) (words : List (Bytes × Location)) :
    s.feedWords fuel none ((word, loc) :: words) = (s.takeWord word loc).feedWords fuel none words := by
  rw [feedWords, feedWord_of_not_failed hfailed hword, started_eq hstart]
  rfl

theorem feedWords_append (s : Session) (words more : List (Bytes × Location)) :
    s.feedWords fuel outer? (words ++ more) =
      (s.feedWords fuel outer? words).bind fun s' => s'.feedWords fuel outer? more := by
  induction words generalizing s with
  | nil => rfl
  | cons w words ih =>
    rw [List.cons_append, feedWords, feedWords]
    cases s.feedWord fuel outer? w.1 w.2 with
    | none => rfl
    | some s' => exact ih s'

theorem feedWord_of_failed (h : s.failed = true) {word : Bytes} (hword : word ≠ endWord) (loc : Location) :
    s.feedWord fuel outer? word loc = some s := by
  have hpending : s.pending = true := by simp [pending, h]
  simp [feedWord, hpending, hword, h]

/-- After a failure the words of a program are skipped. -/
theorem feedWords_of_failed {words : List (Bytes × Location)} (hwords : ∀ w ∈ words, w.1 ≠ endWord)
    (h : s.failed = true) : s.feedWords fuel outer? words = some s := by
  induction words with
  | nil => rfl
  | cons w words ih =>
    rw [List.forall_mem_cons] at hwords
    rw [feedWords, feedWord_of_failed h hwords.1]
    exact ih hwords.2

/-- What a session is after it has read words of a program, by what reading them apart comes to. -/
inductive Reads (s : Session) :
    Except (Location × ProgramError) (Option Bytes × Parser Arith.Value Bytes) → Session → Prop where
  | ok (define? : Option Bytes) (p : Parser Arith.Value Bytes) :
      Reads s (.ok (define?, p)) { s with parser := p, define? := define? }
  | error (loc : Location) (e : ProgramError) (p : Parser Arith.Value Bytes) (define? : Option Bytes) :
      Reads s (.error (loc, e)) ({ s with parser := p, define? := define? }.fail loc e)

theorem Reads.of_parser {p : Parser Arith.Value Bytes}
    {r : Except (Location × ProgramError) (Option Bytes × Parser Arith.Value Bytes)} {s' : Session}
    (h : Reads { s with parser := p } r s') : Reads s r s' := by
  cases h with
  | ok define? q => exact .ok define? q
  | error loc e q define? => exact .error loc e q define?

/-- A session reads the words of a program as they are read apart from it. -/
theorem feedWords_reads (fuel : Nat) {words : List (Bytes × Location)} (hwords : ∀ w ∈ words, w.1 ≠ endWord)
    (hfailed : s.failed = false) (hdefine : s.define? = none)
    (hstart : ∀ w ∈ words.head?, s.pending = true ∨ s.start = w.2) :
    ∃ s', s.feedWords fuel none words = some s' ∧ Reads s (Program.read s.parser words) s' := by
  induction words generalizing s with
  | nil =>
    refine ⟨s, rfl, ?_⟩
    have hsame : { s with define? := none } = s := by rw [← hdefine]
    exact hsame ▸ .ok none s.parser
  | cons w words ih =>
    obtain ⟨word, loc⟩ := w
    rw [List.forall_mem_cons] at hwords
    have hskip : ∀ s' : Session, s'.failed = true → s'.feedWords fuel none words = some s' :=
      fun s' hs' => feedWords_of_failed hwords.2 hs'
    rw [feedWords_cons hfailed hwords.1 (hstart _ rfl), Program.read, takeWord]
    simp only [hdefine]
    cases hname : definedName? word with
    | some name =>
      -- After the name the program has to end: a further word is the one that is reported.
      cases words with
      | nil => exact ⟨_, rfl, .ok (some name) s.parser⟩
      | cons w rest =>
        obtain ⟨next, loc'⟩ := w
        rw [List.forall_mem_cons] at hwords
        have hpending : ({ s with define? := some name } : Session).pending = true := by simp [pending]
        simp only
        rw [feedWords_cons (by exact hfailed) hwords.2.1 (Or.inl hpending)]
        exact ⟨_, feedWords_of_failed hwords.2.2 rfl, .error loc' (.expectedEnd name next) s.parser (some name)⟩
    | none =>
      simp only
      cases hread : Arith.readWord word with
      | error e => exact ⟨_, hskip _ rfl, .error loc (.word e) s.parser s.define?⟩
      | ok token =>
        simp only
        cases hpush : s.parser.push token with
        | error fault => exact ⟨_, hskip _ rfl, .error loc (.parse fault) s.parser s.define?⟩
        | ok p =>
          have hpending : ({ s with parser := p } : Session).pending = true := by
            simp [pending, Parser.isEmpty_of_push hpush]
          obtain ⟨s', hs', hreads⟩ :=
            ih (s := { s with parser := p }) hwords.2 hfailed hdefine fun w _ => Or.inl hpending
          refine ⟨s', ?_, ?_⟩
          · simpa [hdefine] using hs'
          · exact hreads.of_parser

/-! ### One program -/

/-- Where there is no program, ending it does nothing. -/
theorem endProgram_of_idle (fuel : Nat) (h : Idle o s) (loc : Location) :
    ∃ s', (s.started loc).endProgram fuel none = some s' ∧ Follows o s [⟨[], .nothing⟩] s.env s' := by
  obtain ⟨start, hstart⟩ : ∃ start, s.started loc = { s with start := start } := by
    unfold started
    split
    · exact ⟨s.start, rfl⟩
    · exact ⟨loc, rfl⟩
  have hidle : Idle o { s with start := start }.reset.reset := ⟨⟨h.options, h.reducer, h.logPlace?⟩, rfl, rfl, rfl⟩
  refine ⟨{ s with start := start }.reset.reset, ?_, hidle, rfl, rfl, rfl⟩
  rw [hstart]
  simp [endProgram, finish, h.failed, h.parser, h.define?, Parser.isEmpty]

/-- Ending a program after its words were read gives its outcome. -/
theorem endProgram_of_reads (fuel : Nat) (h : Idle o s) (hout : s.out.NeverFails) (htimeout : o.timeout = 0)
    {words : List (Bytes × Location)} (hne : words ≠ []) {s' : Session}
    (hreads : Reads s (Program.read s.parser words) s') :
    s'.pending = true ∧ Option.Rel (fun s'' outcome => Follows o s [outcome] (outcome.envAfter s.env) s'')
      (s'.endProgram fuel none)
      (match Program.read {} words with
        | .error (loc, e) => some ⟨[], .failed loc e⟩
        | .ok (define?, p) => Program.conclude o fuel s.env s.start define? p) := by
  rw [h.parser] at hreads
  generalize hread : Program.read {} words = r at hreads
  cases hreads with
  | ok define? p =>
    have hpending : ({ s with parser := p, define? := define? } : Session).pending = true := by
      rcases under_way_of_read (Or.inl hne) hread with hp | hd
      · simp [pending, hp]
      · simp [pending, hd]
    have hplain : Plain o { s with parser := p, define? := define? } := ⟨h.options, h.reducer, h.logPlace?⟩
    refine ⟨hpending, ?_⟩
    refine rel_mono (endProgram_of_read fuel hplain hout htimeout h.failed hpending) fun s'' outcome hfollows => ?_
    exact ⟨hfollows.toIdle, hfollows.env, hfollows.out, hfollows.log⟩
  | error loc e p define? =>
    have hplain : Plain o { s with parser := p, define? := define? } := ⟨h.options, h.reducer, h.logPlace?⟩
    refine ⟨by simp [pending, fail], .some ?_⟩
    exact follows_fail (s := s) [] hplain rfl rfl rfl loc e

/-- An idle session that is fed the words of a program, and then its end, does what the program comes to by itself. -/
theorem endProgram_of_words (fuel : Nat) (h : Idle o s) (hout : s.out.NeverFails) (htimeout : o.timeout = 0)
    {words : List (Bytes × Location)} (hwords : ∀ w ∈ words, w.1 ≠ endWord) :
    ∃ s', s.feedWords fuel none words = some s' ∧ ∀ loc,
      Option.Rel (fun s'' outcome => Follows o s [outcome] (outcome.envAfter s.env) s'')
        ((s'.started loc).endProgram fuel none) (evaluate o fuel s.env words) := by
  match words with
  | [] =>
    refine ⟨s, rfl, fun loc => ?_⟩
    obtain ⟨s', hs', hfollows⟩ := endProgram_of_idle fuel h loc
    rw [hs']
    exact .some hfollows
  | (word, start) :: rest =>
    have hidle : s.pending = false := by simp [pending, h.failed, h.parser, h.define?, Parser.isEmpty]
    have hbegin : s.feedWords fuel none ((word, start) :: rest) =
        ({ s with start := start } : Session).feedWords fuel none ((word, start) :: rest) := by
      simp [feedWords, feedWord, hidle]
    have h' : Idle o { s with start := start } := ⟨⟨h.options, h.reducer, h.logPlace?⟩, h.parser, h.define?, h.failed⟩
    obtain ⟨s', hs', hreads⟩ := feedWords_reads fuel (s := { s with start := start }) hwords h.failed h.define? <| by
      intro w hw
      cases hw
      exact Or.inr rfl
    obtain ⟨hpending, hend⟩ := endProgram_of_reads fuel h' hout htimeout (List.cons_ne_nil _ _) hreads
    refine ⟨s', hbegin.trans hs', fun loc => ?_⟩
    rw [started_of_pending hpending, evaluate]
    exact rel_mono hend fun s'' outcome hfollows => ⟨hfollows.toIdle, hfollows.env, hfollows.out, hfollows.log⟩

/-! ### All programs -/

theorem Follows.trans {s₁ s₂ : Session} {outcomes more : List Outcome} {env env' : Env Arith.Value Bytes}
    (h₁ : Follows o s outcomes env s₁) (h₂ : Follows o s₁ more env' s₂) : Follows o s (outcomes ++ more) env' s₂ where
  toIdle := h₂.toIdle
  env := h₂.env
  out := by rw [h₂.out, h₁.out, List.flatMap_append, Output.writeAll_append]
  log := by rw [h₂.log, h₁.log, List.flatMap_append, Logger.takeAll_append]

/-- An idle session that is fed words, and then their end, does what their programs come to one by one. `front` holds
    the words of the program under way. -/
theorem endProgram_of_segments (fuel : Nat) (h : Idle o s) (hout : s.out.NeverFails) (htimeout : o.timeout = 0)
    (front : List (Bytes × Location)) (hfront : ∀ w ∈ front, w.1 ≠ endWord) (words : List (Bytes × Location)) :
    Option.Rel (fun s' result => Follows o s result.1 result.2 s')
      ((s.feedWords fuel none (front ++ words)).bind fun s' => s'.endProgram fuel none)
      (evaluateAll o fuel s.env (segments (front ++ words))) := by
  -- Words are moved to `front` up to an end word, which leaves an idle session to go on from.
  induction words generalizing s front with
  | nil =>
    obtain ⟨s', hs', hend⟩ := endProgram_of_words fuel h hout htimeout hfront
    have hlast := hend s'.start
    have hone : segments front = [front] := List.splitOnP_eq_singleton fun w hw => decide_eq_false (hfront w hw)
    rw [started_eq (Or.inr rfl)] at hlast
    rw [List.append_nil, hs', hone, evaluateAll, Option.bind_some, ← Option.bind_fun_some (s'.endProgram fuel none)]
    exact rel_bind hlast fun s'' outcome hfollows => .some hfollows
  | cons w words ih =>
    by_cases hw : w.1 = endWord
    · obtain ⟨s', hs', hend⟩ := endProgram_of_words fuel h hout htimeout hfront
      have hcut : segments (front ++ w :: words) = front :: segments words :=
        List.splitOnP_append_cons_of_forall_mem (fun w hw => decide_eq_false (hfront w hw)) w (decide_eq_true hw) words
      have hfeed : (s.feedWords fuel none (front ++ w :: words)).bind (fun s' => s'.endProgram fuel none) =
          ((s'.started w.2).endProgram fuel none).bind fun s'' =>
            (s''.feedWords fuel none words).bind fun s' => s'.endProgram fuel none := by
        rw [feedWords_append, hs', Option.bind_some, feedWords, hw, feedWord_end]
        exact Option.bind_assoc ..
      rw [hfeed, hcut, evaluateAll]
      refine rel_bind (hend w.2) fun s'' outcome hfollows => ?_
      have hnext := ih hfollows.toIdle (hfollows.out ▸ hout.writeAll _) [] (by simp)
      rw [List.nil_append, hfollows.env] at hnext
      exact rel_map hnext fun t result hrest => hfollows.trans hrest
    · have hlonger : ∀ w' ∈ front ++ [w], w'.1 ≠ endWord := by
        intro w' hw'
        rcases List.mem_append.mp hw' with hw' | hw'
        · exact hfront w' hw'
        · rw [List.mem_singleton.mp hw']
          exact hw
      have hnext := ih h hout (front ++ [w]) hlonger
      rwa [List.append_assoc, List.singleton_append] at hnext

/-! ### Sources -/

/-- What sources give is fed as one sequence of words, up to a failure of reading. -/
theorem feed_given (s : Session) (fuel : Nat) (inp : Input) (sources : List Source) :
    s.feed fuel none inp (sources.map .given) = (s.feedWords fuel none (inp.wordsOver sources).2.1).map fun s' =>
      (s', (inp.wordsOver sources).1, (inp.wordsOver sources).2.2.map .read) := by
  induction sources generalizing s inp with
  | nil => rfl
  | cons source rest ih =>
    rw [List.map_cons, feed, Origin.source, Input.wordsOver]
    generalize hscan : ({ inp with queue := [source] } : Input).words = scanned
    obtain ⟨inp', words, loc | ⟨message, loc⟩⟩ := scanned
    · change (s.feedWords fuel none words).bind (fun s' => s'.feed fuel none inp' (rest.map .given)) = _
      simp only [ih]
      rw [feedWords_append, Option.map_bind]
      rfl
    · change (s.feedWords fuel none words).bind (fun s' => some (s', inp', some (SessionError.read message))) = _
      rw [Option.map_eq_bind]
      rfl

/-- Flushing an idle session flushes its output. -/
theorem Idle.flush (h : Idle o s) :
    s.flush = ({ s with out := s.out.flush.1 }, s.out.flush.2.map .write) := by
  simp only [Session.flush, onOutput, h.logPlace?]

theorem runOrigins_given {inp inp' : Input} {sources : List Source} {words : List (Bytes × Location)}
    (hread : inp.wordsOver sources = (inp', words, none)) :
    s.runOrigins fuel none inp (sources.map .given) =
      ((s.feedWords fuel none words).bind fun s' => s'.endProgram fuel none).map fun s' =>
        (s'.flush.1, inp', s'.flush.2) := by
  rw [runOrigins, feed_given, hread]
  cases s.feedWords fuel none words with
  | none => rfl
  | some s' =>
    rw [Option.map_some, Option.bind_some, endProgram]
    change (if s'.failed then some (s'.reset.flush.1, inp', s'.reset.flush.2)
      else (s'.finish fuel none).bind fun t => some (t.reset.flush.1, inp', t.reset.flush.2)) = _
    split
    · rfl
    · rw [Option.map_map, Option.map_eq_bind]
      rfl

/-- Programs of a session are isolated. A session that is given sources leaves the output, the log and the definitions
    that its programs come to, each evaluated by itself from the definitions before it; and every program does one
    thing. -/
theorem programs_isolated (o : SessionOptions) (htimeout : o.timeout = 0) (log : Logger) (out : Output)
    (hout : out.NeverFails) (fuel : Nat) (inp inp' : Input) (sources : List Source) (words : List (Bytes × Location))
    (hread : inp.wordsOver sources = (inp', words, none)) :
    ((new o log out).runOrigins fuel none inp (sources.map .given)).map
        (fun (s, inp'', error?) => (s.out, s.log, s.env, inp'', error?)) =
      (evaluateAll o fuel [] (segments words)).map
        (fun (outcomes, env) =>
          let (out', error?) := (out.writeAll (outcomes.flatMap (Outcome.pieces o))).flush
          (out', log.takeAll (outcomes.flatMap (Outcome.entries o)), env, inp', error?.map .write)) ∧
    ∀ outcomes env, evaluateAll o fuel [] (segments words) = some (outcomes, env) →
      List.Forall₂ (fun program outcome => outcome.Does o program) (segments words) outcomes := by
  constructor
  · have hprograms := endProgram_of_segments fuel (idle_new o log out) hout htimeout [] (by simp) words
    rw [runOrigins_given hread, Option.map_map]
    refine map_eq_of_rel hprograms fun s' result hfollows => ?_
    simp only [Function.comp_apply, hfollows.toIdle.flush, hfollows.out, hfollows.log, hfollows.env]
    rfl
  · intro outcomes env houtcomes
    have htidy := Input.tidy_of_wordsOver inp sources
    rw [hread] at htidy
    refine does_of_evaluateAll (fun s r hr => by cases hr) (fun program hprogram w hw => ?_) houtcomes
    have hmem : w ∈ (segments words).flatten := List.mem_flatten.mpr ⟨program, hprogram, hw⟩
    rw [flatten_segments] at hmem
    exact htidy w (List.mem_of_mem_filter hmem)

/-- A definition, its use, no program, one that fails, and a last one that the end of the source ends. -/
theorem programs_isolated_five :
    let o : SessionOptions := { delta := true }
    let source := Source.named "in" "+ 1 @ :inc ; inc 4 @ ; ; 4 @ 5 ; inc 5 @"
    let log : Logger := { output? := some { kind := .memory } }
    let run := (new o log (Output.ofSink { kind := .memory })).runOrigins 10 none {} [.given source]
    let words := (Input.wordsOver {} [source]).2.1
    (run.map fun (s, _, error?) => (s.out.textAt 0, s.log.output?.map Sink.text, error?)) =
        some (Bytes.ofString "5\n6\n", some (Bytes.ofString "ERROR: in:1: stack underflow\n"), none) ∧
      (run.map fun (s, _, _) => s.env) = some [(Bytes.ofString "inc", .const ⟨.add, 0, [1]⟩)] ∧
      ∃ outcomes env, evaluateAll o 10 [] (segments words) = some (outcomes, env) ∧ outcomes.length = 5 ∧
        List.Forall₂ (fun program outcome => outcome.Does o program) (segments words) outcomes := by
  intro o source log run words
  have hread : Input.wordsOver {} [source] = ((Input.wordsOver {} [source]).1, words, none) :=
    Prod.ext rfl (Prod.ext rfl (by decide +kernel))
  obtain ⟨hrun, hdoes⟩ := programs_isolated o rfl log (Output.ofSink { kind := .memory }) (Output.neverFails_memory rfl)
    10 {} _ [source] words hread
  refine ⟨?_, ?_, ?_⟩
  · have htexts := congrArg
      (Option.map fun (out, log, _, _, error?) => (out.textAt 0, log.output?.map Sink.text, error?)) hrun
    rw [Option.map_map] at htexts
    exact htexts.trans (by decide +kernel)
  · have henv := congrArg (Option.map fun (_, _, env, _, _) => env) hrun
    rw [Option.map_map] at henv
    exact henv.trans (by decide +kernel)
  · have hfive : (evaluateAll o 10 [] (segments words)).map (fun result => result.1.length) = some 5 := by
      decide +kernel
    obtain ⟨⟨outcomes, env⟩, houtcomes, hlength⟩ := Option.map_eq_some_iff.mp hfive
    exact ⟨outcomes, env, houtcomes, hlength, hdoes outcomes env houtcomes⟩

end Session

end PostfixLambda
