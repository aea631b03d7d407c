import PostfixLambda.Proofs.Arith.Lines
import PostfixLambda.Proofs.Arith.Safety
import PostfixLambda.Proofs.Reduction.NormalOrder
import PostfixLambda.Proofs.Session.Programs

/-! A program does one thing: nothing, or one error at its place, or one line, or one definition. That a result is one
    line rests on the words of the programs: they have no control characters, so neither have the names in a result. -/

namespace PostfixLambda.Program

open Arith (tidyTerms)
open Text (Tidy)

variable {o : SessionOptions} {fuel : Nat} {env : Env Arith.Value Bytes} {words : List (Bytes × Location)}

/-! ### Reading -/

theorem read_token {p p' : Parser Arith.Value Bytes} {word : Bytes} {token : Arith.Token}
    (hname : Session.definedName? word = none) (hread : Arith.readWord word = .ok token) (hpush : p.push token = .ok p')
    (loc : Location) (rest : List (Bytes × Location)) : read p ((word, loc) :: rest) = read p' rest := by
  simp only [read, hname, hread, hpush]

/-- A program that is read ends in the name that it defines, or begins with a token. -/
theorem read_cons_cases {p q : Parser Arith.Value Bytes} {word : Bytes} {loc : Location}
    {rest : List (Bytes × Location)} {define? : Option Bytes} (h : read p ((word, loc) :: rest) = .ok (define?, q)) :
    (Session.definedName? word = define? ∧ define?.isSome = true ∧ rest = [] ∧ q = p) ∨
      ∃ token p', Session.definedName? word = none ∧ Arith.readWord word = .ok token ∧ p.push token = .ok p' ∧
        read p' rest = .ok (define?, q) := by
  rw [read] at h
  split at h
  · rename_i name hname
    split at h
    · cases h
      exact Or.inl ⟨hname, rfl, rfl, rfl⟩
    · cases h
  · rename_i hname
    split at h
    · cases h
    · rename_i token hread
      split at h
      · cases h
      · rename_i p' hpush
        exact Or.inr ⟨token, p', hname, hread, hpush, h⟩

theorem read_append {p q : Parser Arith.Value Bytes} {front : List (Bytes × Location)}
    (h : read p front = .ok (none, q)) (more : List (Bytes × Location)) : read p (front ++ more) = read q more := by
  induction front generalizing p with
  | nil =>
    cases h
    rfl
  | cons w front ih =>
    rcases read_cons_cases h with ⟨-, hsome, -, -⟩ | ⟨token, p', hname, hread, hpush, hrest⟩
    · cases hsome
    · rw [List.cons_append, read_token hname hread hpush]
      exact ih hrest

/-- What a program was read to when a word was refused is what was read before the word. -/
theorem located_of_read {front : List (Bytes × Location)} {p : Parser Arith.Value Bytes} {loc : Location}
    {e : ProgramError} (hfront : read {} front = .ok (none, p)) (h : read p words = .error (loc, e)) :
    Located (front ++ words) loc e := by
  induction words generalizing front p with
  | nil => cases h
  | cons w rest ih =>
    obtain ⟨word, here⟩ := w
    rw [read] at h
    split at h
    · rename_i name hname
      split at h
      · cases h
      · rename_i next loc' rest'
        cases h
        exact ⟨front, (word, here), rest', p, rfl, hfront, hname⟩
    · rename_i hname
      split at h
      · rename_i cause hread
        cases h
        exact ⟨front, word, rest, p, rfl, hfront, hread⟩
      · rename_i token hread
        split at h
        · rename_i fault hpush
          cases h
          have hplace : ∃ front' word' rest' p' token', front ++ (word, loc) :: rest = front' ++ (word', loc) :: rest' ∧
              read {} front' = .ok (none, p') ∧ Arith.readWord word' = .ok token' ∧ p'.push token' = .error fault :=
            ⟨front, word, rest, p, token, rfl, hfront, hread, hpush⟩
          -- Where an error stands goes by its fault, and only the fault of a whole program stands at its start.
          cases fault with
          | endOfInput => exact absurd rfl (Parser.push_ne_endOfInput hpush)
          | stackUnderflow => exact hplace
          | notAVariable => exact hplace
          | unexpectedToken kind => exact hplace
        · rename_i p' hpush
          have hfront' : read {} (front ++ [(word, here)]) = .ok (none, p') := by
            rw [read_append hfront, read_token hname hread hpush]
            rfl
          have hrest := ih hfront' h
          rwa [List.append_assoc, List.singleton_append] at hrest

/-- The name that a program defines is that of its last word. -/
theorem defined_of_read {p q : Parser Arith.Value Bytes} {define? : Option Bytes} (h : read p words = .ok (define?, q))
    (hne : words ≠ []) : ∃ w ∈ words.getLast?, Session.definedName? w.1 = define? := by
  induction words generalizing p with
  | nil => exact absurd rfl hne
  | cons w rest ih =>
    rcases read_cons_cases h with ⟨hname, -, rfl, -⟩ | ⟨token, p', hname, -, -, hrest⟩
    · exact ⟨w, rfl, hname⟩
    · cases rest with
      | nil =>
        cases hrest
        exact ⟨w, rfl, hname⟩
      | cons next rest =>
        rw [List.getLast?_cons_cons]
        exact ih hrest (List.cons_ne_nil _ _)

/-- A program that was read has an operand, or defines a name. -/
theorem under_way_of_read {p q : Parser Arith.Value Bytes} {define? : Option Bytes}
    (hp : words ≠ [] ∨ p.isEmpty = false) (h : read p words = .ok (define?, q)) :
    q.isEmpty = false ∨ define?.isSome = true := by
  induction words generalizing p with
  | nil =>
    cases h
    exact Or.inl (hp.resolve_left fun hne => hne rfl)
  | cons w rest ih =>
    rcases read_cons_cases h with ⟨-, hsome, -, -⟩ | ⟨token, p', -, -, hpush, hrest⟩
    · exact Or.inr hsome
    · exact ih (Or.inr (Parser.isEmpty_of_push hpush)) hrest

/-! ### Names without control characters -/

theorem allows_of_readWord {word : Bytes} {t : Arith.Token} (hword : Tidy word) (h : Arith.readWord word = .ok t) :
    tidyTerms.Allows t := by
  rcases Arith.readWord_cases h with rfl | rfl | ⟨v, rfl, -⟩ | rfl
  · trivial
  · trivial
  · trivial
  · exact ⟨hword, hword⟩

theorem over_of_read {p q : Parser Arith.Value Bytes} {define? : Option Bytes} (hwords : ∀ w ∈ words, Tidy w.1)
    (hp : ∀ e ∈ p.operands, e.Over tidyTerms) (h : read p words = .ok (define?, q)) :
    ∀ e ∈ q.operands, e.Over tidyTerms := by
  induction words generalizing p with
  | nil =>
    cases h
    exact hp
  | cons w rest ih =>
    rw [List.forall_mem_cons] at hwords
    rcases read_cons_cases h with ⟨-, -, -, rfl⟩ | ⟨token, p', -, hread, hpush, hrest⟩
    · exact hp
    · exact ih hwords.2 (Parser.over_push (fun s hs => hs) hp (allows_of_readWord hwords.1 hread) hpush) hrest

theorem strategy_reducer (o : SessionOptions) : (reducer o).strategy = ⟨o.delta, rename? o⟩ := by
  obtain ⟨delta, renames, tokens, showStacks, trace, maxSteps, timeout⟩ := o
  cases renames <;> cases trace <;> rfl

theorem keepsTo_of_rename? (o : SessionOptions) : ∀ rename, rename? o = some rename → rename.KeepsTo tidyTerms := by
  intro rename hrename
  have hprime : ∀ b, Tidy b → Tidy (Renamer.prime b) ∧ Tidy (Renamer.prime b) := by
    intro b hb
    have htidy : Tidy (Renamer.prime b) := hb.append (Arith.tidy_byte (by decide))
    exact ⟨htidy, htidy⟩
  rw [rename?] at hrename
  split at hrename
  · cases hrename
    exact Renamer.search_keepsTo hprime
  · cases hrename

theorem primesOnly_rename? (o : SessionOptions) : Arith.PrimesOnly (rename? o) := by
  intro rename hrename
  rw [rename?] at hrename
  split at hrename
  · cases hrename
    rfl
  · cases hrename

theorem keepsTo_reducer (o : SessionOptions) : (reducer o).strategy.KeepsTo (F := Arith.Value.Fault) tidyTerms := by
  rw [strategy_reducer]
  exact ⟨(primesOnly_rename? o).honours, keepsTo_of_rename? o, fun _ _ _ _ _ _ _ => trivial⟩

theorem tidy_line (o : SessionOptions) {e : Arith.Term} (h : e.Over tidyTerms) : Tidy (line o e) := by
  rw [line]
  split
  · exact Arith.tidy_format h
  · exact Arith.tidy_textOnto h Text.tidy_nil

/-! ### What a program does -/

theorem errors_trace (level : Bytes) (lines : List Bytes) (entries : List LogEntry) :
    errors (lines.map (.note level) ++ entries) = errors entries := by
  simp [errors, List.filterMap_map]

theorem does_failed {loc : Location} {e : ProgramError} (h : Located words loc e) (trace : List Bytes) :
    Outcome.Does o words ⟨trace, .failed loc e⟩ := by
  refine ⟨h, ?_, rfl, fun _ => rfl⟩
  refine (errors_trace _ _ _).trans ?_
  simp only [failureEntries]
  split <;> rfl

theorem does_printed {e : Arith.Term} (hlast : ∃ w ∈ words.getLast?, Session.definedName? w.1 = none)
    (hnormal : Normal o e) (he : e.Over tidyTerms) (trace : List Bytes) :
    Outcome.Does o words ⟨trace, .printed e⟩ := by
  have hline := tidy_line o he
  exact ⟨hlast, hnormal, hline.terminal_line, hline.lineFeed_not_mem, errors_trace _ _ _, fun _ => rfl⟩

theorem does_defined {name : Bytes} {e : Arith.Term}
    (hlast : ∃ w ∈ words.getLast?, Session.definedName? w.1 = some name) (hnormal : Normal o e) (trace : List Bytes) :
    Outcome.Does o words ⟨trace, .defined name e⟩ :=
  ⟨hlast, hnormal, rfl, errors_trace _ _ _, fun _ => rfl⟩

/-- A program that was read does what its outcome says. -/
theorem does_of_conclude {start : Location} {define? : Option Bytes} {p : Parser Arith.Value Bytes} {outcome : Outcome}
    (henv : env.Over tidyTerms) (hp : ∀ e ∈ p.operands, e.Over tidyTerms)
    (hstart : words.head?.map Prod.snd = some start)
    (hlast : ∃ w ∈ words.getLast?, Session.definedName? w.1 = define?)
    (h : conclude o fuel env start define? p = some outcome) :
    outcome.Does o words ∧ (outcome.envAfter env).Over tidyTerms := by
  rw [conclude] at h
  split at h
  · rename_i fault hresult
    cases Parser.result_error hresult
    cases h
    have hlocated : Located words start (.parse .endOfInput) := hstart
    exact ⟨does_failed hlocated [], henv⟩
  · rename_i e hresult
    have he : e.Over tidyTerms := hp e (by simp [Parser.result_eq_ok_iff.mp hresult])
    split at h
    · rename_i stop hbound
      cases h
      have hlocated : Located words start (.bind stop) := hstart
      exact ⟨does_failed hlocated [], henv⟩
    · rename_i e' hbound
      have he' : e'.Over tidyTerms := by
        split at hbound
        · cases hbound
          exact he
        · exact Term.bind_over he henv (keepsTo_of_rename? o) hbound
      obtain ⟨run, hrun, rfl⟩ := Option.map_eq_some_iff.mp h
      cases hresult : run.result with
      | error halt =>
        have hlocated : Located words start (.halt halt) := hstart
        exact ⟨does_failed hlocated run.log, henv⟩
      | ok r =>
        have hnormal : Normal o r := Reducer.no_step_of_normalize hrun hresult
        have hr : r.Over tidyTerms := Reducer.normalize_over (keepsTo_reducer o) he' hrun hresult
        cases define? with
        | none => exact ⟨does_printed hlast hnormal hr run.log, henv⟩
        | some name => exact ⟨does_defined hlast hnormal run.log, henv.insert name hr⟩

theorem does_of_evaluate {outcome : Outcome} (henv : env.Over tidyTerms) (hwords : ∀ w ∈ words, Tidy w.1)
    (h : evaluate o fuel env words = some outcome) :
    outcome.Does o words ∧ (outcome.envAfter env).Over tidyTerms := by
  cases words with
  | nil =>
    cases h
    exact ⟨⟨rfl, rfl, rfl, fun _ => rfl⟩, henv⟩
  | cons w rest =>
    obtain ⟨word, start⟩ := w
    rw [evaluate] at h
    split at h
    · rename_i loc e hread
      cases h
      have hlocated : Located ([] ++ (word, start) :: rest) loc e := located_of_read rfl hread
      exact ⟨does_failed hlocated [], henv⟩
    · rename_i define? p hread
      have hp : ∀ e ∈ p.operands, e.Over tidyTerms := over_of_read hwords (by simp) hread
      exact does_of_conclude henv hp rfl (defined_of_read hread (List.cons_ne_nil _ _)) h

/-- Every program does what its outcome says. -/
theorem does_of_evaluateAll {programs : List (List (Bytes × Location))} {outcomes : List Outcome}
    {env' : Env Arith.Value Bytes} (henv : env.Over tidyTerms)
    (hprograms : ∀ words ∈ programs, ∀ w ∈ words, Tidy w.1)
    (h : evaluateAll o fuel env programs = some (outcomes, env')) :
    List.Forall₂ (fun words outcome => outcome.Does o words) programs outcomes := by
  induction programs generalizing env outcomes with
  | nil =>
    cases h
    exact .nil
  | cons words rest ih =>
    rw [List.forall_mem_cons] at hprograms
    obtain ⟨outcome, houtcome, hrest⟩ := Option.bind_eq_some_iff.mp h
    obtain ⟨⟨outcomes', env''⟩, hall, heq⟩ := Option.map_eq_some_iff.mp hrest
    cases heq
    obtain ⟨hdoes, henv'⟩ := does_of_evaluate henv hprograms.1 houtcome
    exact .cons hdoes (ih henv' hprograms.2 hall)

/-- The programs hold all words but the end words, in order. -/
theorem flatten_segments (words : List (Bytes × Location)) :
    (segments words).flatten = words.filter fun w => w.1 ≠ endWord := by
  induction words with
  | nil => rfl
  | cons w words ih =>
    rw [segments, List.splitOnP_cons_eq_if_modifyHead]
    change (if _ then [] :: segments words else (segments words).modifyHead (List.cons w)).flatten = _
    split
    · rename_i hend
      simpa [hend] using ih
    · rename_i hend
      cases hsegments : segments words with
      | nil => exact absurd hsegments (List.splitOnP_ne_nil _ _)
      | cons first rest => simpa [hend, hsegments] using ih

end PostfixLambda.Program
