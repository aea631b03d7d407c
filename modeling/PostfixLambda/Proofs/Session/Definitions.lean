import Mathlib.Data.List.Induction
import PostfixLambda.Proofs.Session.Isolation

/-! Definitions are stable values. A session defines a name when the end word ends a program that ends in the name, and
    only then; what it defines has no hole, and its reducer finds no step in it. So a definition holds until the name is
    defined anew, and its name is a program that comes to it at once. -/

namespace PostfixLambda

/-! ### The last binding of a name counts -/

namespace Env

variable {V S : Type} [DecidableEq S]

theorem find?_insert (env : Env V S) (s s' : S) (e : Term V S) :
    (env.insert s e).find? s' = if s = s' then some e else env.find? s' := by
  rw [insert, find?]
  split
  · rfl
  · rename_i hne
    exact find?_filter_ne hne

/-- The environment after further bindings, of which the last of a name counts. -/
def insertAll (env : Env V S) (bindings : List (S × Term V S)) : Env V S :=
  bindings.foldl (fun env binding => env.insert binding.1 binding.2) env

theorem insertAll_append (env : Env V S) (bindings more : List (S × Term V S)) :
    env.insertAll (bindings ++ more) = (env.insertAll bindings).insertAll more := List.foldl_append

theorem find?_insertAll_of_not_mem {env : Env V S} {bindings : List (S × Term V S)} {s : S}
    (h : s ∉ bindings.map Prod.fst) : (env.insertAll bindings).find? s = env.find? s := by
  induction bindings generalizing env with
  | nil => rfl
  | cons binding bindings ih =>
    rw [List.map_cons, List.mem_cons, not_or] at h
    have hrest : (env.insertAll (binding :: bindings)).find? s = (env.insert binding.1 binding.2).find? s := ih h.2
    rw [hrest, find?_insert, if_neg (Ne.symm h.1)]

/-- A name is bound to the last of its bindings. -/
theorem find?_insertAll_nil {bindings : List (S × Term V S)} {s : S} {e : Term V S} :
    (insertAll [] bindings).find? s = some e ↔
      ∃ earlier later, bindings = earlier ++ (s, e) :: later ∧ s ∉ later.map Prod.fst := by
  constructor
  · intro h
    induction bindings using List.reverseRecOn with
    | nil => cases h
    | append_singleton bindings binding ih =>
      obtain ⟨name, e'⟩ := binding
      rw [insertAll_append] at h
      change ((insertAll [] bindings).insert name e').find? s = some e at h
      rw [find?_insert] at h
      split at h
      · rename_i hname
        cases h
        exact ⟨bindings, [], by rw [hname], by simp⟩
      · rename_i hname
        obtain ⟨earlier, later, rfl, hlater⟩ := ih h
        refine ⟨earlier, later ++ [(name, e')], by simp, ?_⟩
        simp [hlater, Ne.symm hname]
  · rintro ⟨earlier, later, rfl, hlater⟩
    rw [insertAll_append]
    change (((insertAll [] earlier).insert s e).insertAll later).find? s = some e
    rw [find?_insertAll_of_not_mem hlater, find?_insert, if_pos rfl]

end Env

/-! ### Programs of one name -/

/-- A variable is bound to the term of its name. -/
theorem Term.bind_var {V S : Type} [DecidableEq S] {env : Env V S} (henv : ∀ s r, env.find? s = some r → r.Whole)
    {n : S} {e : Term V S} (h : env.find? n = some e) (rename? : Option (Renamer S)) :
    ((Term.var n).bind env rename?).result = .ok e := by
  refine Walk.run_result_of_rebuild (Walk.rebuild_var ?_)
  cases rename? with
  | none => rw [Walk.rulesFor, Walk.plain, Walk.leaf_substituting henv, Walk.active?_nil, h, Option.getD_some]
  | some rename => rw [Walk.rulesFor, Walk.leaf_substituting henv, Walk.active?_nil, h, Option.getD_some]

/-- A term without a step is its own normal form. -/
theorem Reducer.normalize_of_no_step {V S F : Type} [DecidableEq S] [Domain V F] [Shown S] {red : Reducer S}
    {e : Term V S} (h : (red.step (F := F) e).result = .ok (e, false)) {fuel : Nat} (hfuel : 0 < fuel) :
    ∃ run, red.normalize (F := F) fuel .background e = some run ∧ run.result = .ok e ∧ run.steps = 0 := by
  obtain ⟨more, rfl⟩ := Nat.exists_eq_succ_of_ne_zero (Nat.ne_of_gt hfuel)
  have hp : (red.step (F := F) (⟨e, 0, 0, [], []⟩ : Progress V S).term).result = .ok (e, false) := h
  obtain ⟨last, hround, hterm, hsteps⟩ := round_of_no_step hp
  refine ⟨red.close (.returned none) last, ?_, ?_, ?_⟩
  · rw [normalize, rounds, hround]
    rfl
  · rw [close_result, hterm]
    rfl
  · rw [close_steps, hsteps]

/-- A run that is interrupted before it begins has no result. -/
theorem Reducer.result_of_interrupted {V S F : Type} [DecidableEq S] [Domain V F] [Shown S] {red : Reducer S}
    {e e' : Term V S} {fuel : Nat} {i : Interruption} {run : Run V S F}
    (hrun : red.normalize fuel (.interrupted i) e = some run) : run.result ≠ .ok e' := by
  cases fuel with
  | zero => cases hrun
  | succ fuel =>
    cases hrun
    intro h
    rw [close_result] at h
    cases h

namespace Session

variable {o : SessionOptions} {s s' : Session} {fuel : Nat} {outer? : Option Interruption}

/-! ### What ending a program leaves -/

/-- What the program under way comes to, and in how many steps, if it has a normal form. -/
def value? (s : Session) (fuel : Nat) (outer? : Option Interruption) : Option (Arith.Term × Nat) :=
  match s.parser.result with
  | .error _ => none
  | .ok e =>
    match s.bound e with
    | .error _ => none
    | .ok e' =>
      (s.reducer.normalize fuel (s.context outer?) e').bind fun run =>
        run.result.toOption.map fun value => (value, run.steps)

/-- The definition that the program under way makes when it ends. -/
def definition? (s : Session) (fuel : Nat) (outer? : Option Interruption) : Option (Bytes × Arith.Term) :=
  (if s.failed then none else s.define?).bind fun name => (s.value? fuel outer?).map fun (e, _) => (name, e)

/-- The second session is what the first leaves of itself when it ends a program: the definitions, with what the program
    defined, and nothing of the program. -/
structure Leaves (s : Session) (definition? : Option (Bytes × Arith.Term)) (s' : Session) : Prop where
  options : s'.options = s.options
  reducer : ∃ n, s'.reducer = { s.reducer with steps := n }
  logPlace? : s'.logPlace? = s.logPlace?
  deadlines : s'.deadlines = s.deadlines ∨ s'.deadlines = s.deadlines.tail
  env : s'.env = s.env.insertAll definition?.toList
  parser : s'.parser = {}
  define? : s'.define? = none
  failed : s'.failed = false

theorem leaves_reset (s : Session) : Leaves s none s.reset :=
  ⟨rfl, ⟨s.reducer.steps, rfl⟩, rfl, Or.inl rfl, rfl, rfl, rfl, rfl⟩

theorem Leaves.reset {definition? : Option (Bytes × Arith.Term)} (h : Leaves s definition? s') :
    Leaves s definition? s'.reset := ⟨h.options, h.reducer, h.logPlace?, h.deadlines, h.env, rfl, rfl, rfl⟩

/-- Printing touches the output and the log only. -/
theorem print_frame (s : Session) (e : Arith.Term) : ∃ out log, s.print e = { s with out := out, log := log } := by
  simp only [print, onOutput]
  split <;> split <;> exact ⟨_, _, rfl⟩

/-- A result that is not to be a definition is printed, after the trace of its reduction. -/
theorem conclude_of_ok {e : Arith.Term} {run : Reducer.Run Arith.Value Bytes Arith.Value.Fault}
    (hresult : run.result = .ok e) (hdefine : s.define? = none) :
    s.conclude run = (s.afterRun run).print e := by
  have htraced : (s.afterRun run).define? = none := hdefine
  simp only [conclude, hresult, htraced]

theorem leaves_conclude (s : Session) (run : Reducer.Run Arith.Value Bytes Arith.Value.Fault) :
    Leaves s (s.define?.bind fun name => run.result.toOption.map fun e => (name, e)) (s.conclude run).reset := by
  cases hresult : run.result with
  | error h =>
    simp only [conclude, hresult]
    refine ⟨rfl, ⟨run.steps, rfl⟩, rfl, Or.inr rfl, ?_, rfl, rfl, rfl⟩
    cases s.define? <;> rfl
  | ok e =>
    cases hdefine : s.define? with
    | some name =>
      have htraced : (s.afterRun run).define? = some name := hdefine
      simp only [conclude, hresult, htraced]
      exact ⟨rfl, ⟨run.steps, rfl⟩, rfl, Or.inr rfl, rfl, rfl, rfl, rfl⟩
    | none =>
      obtain ⟨out, log, hprint⟩ := (s.afterRun run).print_frame e
      rw [conclude_of_ok hresult hdefine, hprint]
      exact ⟨rfl, ⟨run.steps, rfl⟩, rfl, Or.inr rfl, rfl, rfl, rfl, rfl⟩

theorem value?_of_run {e e' : Arith.Term} {run : Reducer.Run Arith.Value Bytes Arith.Value.Fault}
    (hresult : s.parser.result = .ok e) (hbound : s.bound e = .ok e')
    (hrun : s.reducer.normalize fuel (s.context outer?) e' = some run) :
    s.value? fuel outer? = run.result.toOption.map fun value => (value, run.steps) := by
  simp only [value?, hresult, hbound, hrun, Option.bind_some]

theorem definition?_of_value?_none (h : s.value? fuel outer? = none) : s.definition? fuel outer? = none := by
  simp [definition?, h]

theorem leaves_fail (s : Session) (loc : Location) (e : ProgramError) : Leaves s none (s.fail loc e).reset :=
  ⟨rfl, ⟨s.reducer.steps, rfl⟩, rfl, Or.inl rfl, rfl, rfl, rfl, rfl⟩

theorem leaves_finish (hfailed : s.failed = false) (h : s.finish fuel outer? = some s') :
    Leaves s (s.definition? fuel outer?) s' := by
  rw [finish] at h
  split at h
  · rename_i hnothing
    cases h
    simp only [Bool.and_eq_true, Option.isNone_iff_eq_none] at hnothing
    have hnone : s.definition? fuel outer? = none := by simp [definition?, hnothing.2]
    rw [hnone]
    exact s.leaves_reset
  · split at h
    · rename_i fault hresult
      cases h
      rw [definition?_of_value?_none (by simp [value?, hresult])]
      exact s.leaves_fail _ _
    · rename_i e hresult
      split at h
      · rename_i stop hbound
        cases h
        rw [definition?_of_value?_none (by simp [value?, hresult, hbound])]
        exact s.leaves_fail _ _
      · rename_i e' hbound
        obtain ⟨run, hrun, rfl⟩ := Option.map_eq_some_iff.mp h
        have hdefinition : s.definition? fuel outer? =
            s.define?.bind fun name => run.result.toOption.map fun e => (name, e) := by
          rw [definition?, hfailed, value?_of_run hresult hbound hrun]
          cases s.define? <;> cases run.result <;> rfl
        rw [hdefinition]
        exact s.leaves_conclude run

theorem leaves_endProgram (h : s.endProgram fuel outer? = some s') : Leaves s (s.definition? fuel outer?) s' := by
  rw [endProgram] at h
  split at h
  · rename_i hfailed
    cases h
    have hnone : s.definition? fuel outer? = none := by simp [definition?, hfailed]
    rw [hnone]
    exact s.leaves_reset
  · rename_i hfailed
    obtain ⟨s'', hfinish, rfl⟩ := Option.map_eq_some_iff.mp h
    exact (leaves_finish (Bool.not_eq_true _ ▸ hfailed) hfinish).reset

/-! ### What a word leaves -/

/-- A word that does not end the program makes it fail, names what it defines, or is one more token of it. -/
theorem takeWord_cases (s : Session) (word : Bytes) (loc : Location) :
    (∃ e, s.takeWord word loc = s.fail loc e) ∨
      (∃ name, s.define? = none ∧ s.takeWord word loc = { s with define? := some name }) ∨
      ∃ token p, s.define? = none ∧ Arith.readWord word = .ok token ∧ s.parser.push token = .ok p ∧
        s.takeWord word loc = { s with parser := p } := by
  unfold takeWord
  split
  · exact Or.inl ⟨_, rfl⟩
  · rename_i hdefine
    split
    · exact Or.inr (Or.inl ⟨_, hdefine, rfl⟩)
    · split
      · exact Or.inl ⟨_, rfl⟩
      · rename_i token hread
        split
        · exact Or.inl ⟨_, rfl⟩
        · rename_i p hpush
          exact Or.inr (Or.inr ⟨token, p, hdefine, hread, hpush, rfl⟩)

/-- Such a word touches the program only, and the log. -/
theorem takeWord_frame (s : Session) (word : Bytes) (loc : Location) :
    ∃ log parser define? failed, s.takeWord word loc =
      { s with log := log, parser := parser, define? := define?, failed := failed } := by
  rcases s.takeWord_cases word loc with ⟨e, heq⟩ | ⟨name, -, heq⟩ | ⟨token, p, -, -, -, heq⟩
  · exact ⟨_, s.parser, s.define?, true, heq⟩
  · exact ⟨s.log, s.parser, some name, s.failed, heq⟩
  · exact ⟨s.log, p, s.define?, s.failed, heq⟩

/-- A program may start at a word; nothing else changes by that. -/
theorem started_frame (s : Session) (loc : Location) : ∃ start, s.started loc = { s with start := start } := by
  unfold started
  split
  · exact ⟨s.start, rfl⟩
  · exact ⟨loc, rfl⟩

theorem feedWord_cases {word : Bytes} {loc : Location} (h : s.feedWord fuel outer? word loc = some s') :
    (word = endWord ∧ (s.started loc).endProgram fuel outer? = some s') ∨
      (word ≠ endWord ∧ s.failed = true ∧ s' = s) ∨
      (word ≠ endWord ∧ s.failed = false ∧ s' = (s.started loc).takeWord word loc) := by
  by_cases hword : word = endWord
  · rw [hword, feedWord_end] at h
    exact Or.inl ⟨hword, h⟩
  · cases hfailed : s.failed with
    | true =>
      rw [feedWord_of_failed hfailed hword] at h
      cases h
      exact Or.inr (Or.inl ⟨hword, rfl, rfl⟩)
    | false =>
      rw [feedWord_of_not_failed hfailed hword] at h
      cases h
      exact Or.inr (Or.inr ⟨hword, rfl, rfl⟩)

/-! ### The history of definitions -/

/-- The definition that a word makes. -/
def definitionBy? (s : Session) (fuel : Nat) (outer? : Option Interruption) (word : Bytes) :
    Option (Bytes × Arith.Term) :=
  if word = endWord then s.definition? fuel outer? else none

/-- The definitions that the words make, in order. -/
def definitions (s : Session) (fuel : Nat) (outer? : Option Interruption) :
    List (Bytes × Location) → List (Bytes × Arith.Term)
  | [] => []
  | (word, loc) :: rest =>
    (s.definitionBy? fuel outer? word).toList ++
      match s.feedWord fuel outer? word loc with
      | some s' => s'.definitions fuel outer? rest
      | none => []

theorem definition?_started (s : Session) (loc : Location) :
    (s.started loc).definition? fuel outer? = s.definition? fuel outer? := by
  obtain ⟨start, hstart⟩ := s.started_frame loc
  rw [hstart]
  rfl

theorem env_feedWord {word : Bytes} {loc : Location} (h : s.feedWord fuel outer? word loc = some s') :
    s'.env = s.env.insertAll (s.definitionBy? fuel outer? word).toList := by
  obtain ⟨start, hstart⟩ := s.started_frame loc
  rcases feedWord_cases h with ⟨hword, hend⟩ | ⟨hword, -, rfl⟩ | ⟨hword, -, rfl⟩
  · rw [(leaves_endProgram hend).env, definition?_started, definitionBy?, if_pos hword, hstart]
  · rw [definitionBy?, if_neg hword]
    rfl
  · obtain ⟨log, parser, define?, failed, htaken⟩ := (s.started loc).takeWord_frame word loc
    rw [definitionBy?, if_neg hword, htaken, hstart]
    rfl

/-- The environment holds the definitions made so far, and nothing else. -/
theorem env_feedWords {words : List (Bytes × Location)} (h : s.feedWords fuel outer? words = some s') :
    s'.env = s.env.insertAll (s.definitions fuel outer? words) := by
  induction words generalizing s with
  | nil =>
    cases h
    rfl
  | cons w words ih =>
    obtain ⟨s₁, hword, hrest⟩ := Option.bind_eq_some_iff.mp h
    rw [ih hrest, env_feedWord hword, definitions, hword, Env.insertAll_append]

/-! ### Definitions are values -/

/-- The vocabulary of all terms without a hole. -/
def wholeTerms : Vocabulary Arith.Value Bytes := ⟨fun _ => True, fun _ => True, fun _ => True⟩

theorem keepsTo_wholeTerms (o : SessionOptions) :
    (Program.reducer o).strategy.KeepsTo (F := Arith.Value.Fault) wholeTerms := by
  rw [Program.strategy_reducer]
  exact ⟨(Program.primesOnly_rename? o).honours, fun _ _ _ _ _ _ _ => ⟨trivial, trivial⟩, fun _ _ _ _ _ _ _ => trivial⟩

/-- What holds of a session after every word: its operands and definitions have no hole, its reducer finds no step in a
    definition, and where it has one, the time limit is not over before a reduction begins. The time of no reduction is
    over later. -/
structure Stable (o : SessionOptions) (s : Session) : Prop extends Plain o s where
  operands : ∀ e ∈ s.parser.operands, e.Over wholeTerms
  whole : s.env.Over wholeTerms
  normal : ∀ n e, s.env.find? n = some e → Program.Normal o e
  timely : s.env ≠ [] → ¬o.timeout < 0
  deadlines : s.deadlines = []

theorem stable_new (o : SessionOptions) (log : Logger) (out : Output) : Stable o (new o log out) where
  toPlain := (idle_new o log out).toPlain
  operands := by simp [new]
  whole := by intro n e h; cases h
  normal := by intro n e h; cases h
  timely h := absurd rfl h
  deadlines := rfl

theorem Plain.normalize (h : Plain o s) (fuel : Nat) (ctx : Context) (e : Arith.Term) :
    s.reducer.normalize (F := Arith.Value.Fault) fuel ctx e = (Program.reducer o).normalize fuel ctx e := by
  obtain ⟨n, hreducer⟩ := h.reducer
  rw [hreducer, Reducer.normalize_steps]

theorem Stable.bound (h : Stable o s) {e e' : Arith.Term} (he : e.Over wholeTerms) (hbound : s.bound e = .ok e') :
    e'.Over wholeTerms := by
  rw [Session.bound] at hbound
  split at hbound
  · cases hbound
    exact he
  · exact Term.bind_over he h.whole (fun _ _ _ _ _ _ _ => ⟨trivial, trivial⟩) hbound

/-- What the program under way comes to is a value. -/
theorem Stable.value (h : Stable o s) {e : Arith.Term} {steps : Nat} (hvalue : s.value? fuel none = some (e, steps)) :
    e.Over wholeTerms ∧ Program.Normal o e ∧ ¬o.timeout < 0 := by
  rw [value?] at hvalue
  split at hvalue
  · cases hvalue
  · rename_i e₀ hresult
    have he₀ : e₀.Over wholeTerms := h.operands e₀ (by simp [Parser.result_eq_ok_iff.mp hresult])
    split at hvalue
    · cases hvalue
    · rename_i e₁ hbound
      have he₁ : e₁.Over wholeTerms := h.bound he₀ hbound
      obtain ⟨run, hrun, hok⟩ := Option.bind_eq_some_iff.mp hvalue
      rw [h.toPlain.normalize] at hrun
      cases hr : run.result with
      | error halt =>
        rw [hr] at hok
        cases hok
      | ok r =>
        rw [hr] at hok
        cases hok
        refine ⟨Reducer.normalize_over (keepsTo_wholeTerms o) he₁ hrun hr, Reducer.no_step_of_normalize hrun hr, ?_⟩
        intro hover
        have hcontext : s.context none = .interrupted .deadlineExceeded := by
          simp [context, h.options, hover, Int.ne_of_lt hover]
        rw [hcontext] at hrun
        exact Reducer.result_of_interrupted hrun hr

theorem value?_of_definition? {name : Bytes} {e : Arith.Term} (h : s.definition? fuel outer? = some (name, e)) :
    ∃ steps, s.value? fuel outer? = some (e, steps) := by
  obtain ⟨name', -, hvalue⟩ := Option.bind_eq_some_iff.mp h
  obtain ⟨⟨e', steps⟩, hvalue, heq⟩ := Option.map_eq_some_iff.mp hvalue
  cases heq
  exact ⟨steps, hvalue⟩

theorem Stable.leaves (h : Stable o s) (hl : Leaves s (s.definition? fuel none) s') : Stable o s' := by
  obtain ⟨n, hreducer⟩ := h.reducer
  obtain ⟨n', hreducer'⟩ := hl.reducer
  have hplain : Plain o s' :=
    ⟨hl.options.trans h.options, ⟨n', by rw [hreducer', hreducer]⟩, hl.logPlace?.trans h.logPlace?⟩
  have hoperands : ∀ e ∈ s'.parser.operands, e.Over wholeTerms := by simp [hl.parser]
  have hdeadlines : s'.deadlines = [] := by
    rcases hl.deadlines with hkept | hnext
    · rw [hkept, h.deadlines]
    · rw [hnext, h.deadlines]
      rfl
  have henv := hl.env
  cases hdefinition : s.definition? fuel none with
  | none =>
    rw [hdefinition] at henv
    change s'.env = s.env at henv
    exact ⟨hplain, hoperands, henv ▸ h.whole, henv ▸ h.normal, henv ▸ h.timely, hdeadlines⟩
  | some definition =>
    obtain ⟨name, e⟩ := definition
    rw [hdefinition] at henv
    change s'.env = s.env.insert name e at henv
    obtain ⟨steps, hvalue⟩ := value?_of_definition? hdefinition
    obtain ⟨hwhole, hnormal, htimely⟩ := h.value hvalue
    refine ⟨hplain, hoperands, henv ▸ h.whole.insert name hwhole, ?_, fun _ => htimely, hdeadlines⟩
    intro n r hr
    rw [henv, Env.find?_insert] at hr
    split at hr
    · cases hr
      exact hnormal
    · exact h.normal n r hr

theorem Stable.started (h : Stable o s) (loc : Location) : Stable o (s.started loc) := by
  obtain ⟨start, hstart⟩ := s.started_frame loc
  rw [hstart]
  exact ⟨⟨h.options, h.reducer, h.logPlace?⟩, h.operands, h.whole, h.normal, h.timely, h.deadlines⟩

theorem Stable.takeWord (h : Stable o s) (word : Bytes) (loc : Location) : Stable o (s.takeWord word loc) := by
  rcases s.takeWord_cases word loc with ⟨e, heq⟩ | ⟨name, -, heq⟩ | ⟨token, p, -, hread, hpush, heq⟩
  · rw [heq]
    exact ⟨h.toPlain.fail loc e, h.operands, h.whole, h.normal, h.timely, h.deadlines⟩
  · rw [heq]
    exact ⟨⟨h.options, h.reducer, h.logPlace?⟩, h.operands, h.whole, h.normal, h.timely, h.deadlines⟩
  · have hallows : wholeTerms.Allows token := by cases token <;> trivial
    have hoperands := Parser.over_push (fun _ _ => trivial) h.operands hallows hpush
    rw [heq]
    exact ⟨⟨h.options, h.reducer, h.logPlace?⟩, hoperands, h.whole, h.normal, h.timely, h.deadlines⟩

theorem Stable.feedWord (h : Stable o s) {word : Bytes} {loc : Location}
    (hfeed : s.feedWord fuel none word loc = some s') : Stable o s' := by
  rcases feedWord_cases hfeed with ⟨-, hend⟩ | ⟨-, -, rfl⟩ | ⟨-, -, rfl⟩
  · exact (h.started loc).leaves (leaves_endProgram hend)
  · exact h
  · exact (h.started loc).takeWord word loc

theorem Stable.feedWords (h : Stable o s) {words : List (Bytes × Location)}
    (hfeed : s.feedWords fuel none words = some s') : Stable o s' := by
  induction words generalizing s with
  | nil =>
    cases hfeed
    exact h
  | cons w words ih =>
    obtain ⟨s₁, hword, hrest⟩ := Option.bind_eq_some_iff.mp hfeed
    exact ih (h.feedWord hword) hrest

/-! ### A defined name as a program -/

theorem pending_eq_false_iff : s.pending = false ↔ s.parser = {} ∧ s.define? = none ∧ s.failed = false := by
  obtain ⟨options, reducer, log, out, logPlace?, deadlines, env, ⟨operands⟩, start, define?, failed⟩ := s
  cases operands <;> cases define? <;> simp [pending, Parser.isEmpty]

theorem feedWord_name (fuel : Nat) {n : Bytes} (hread : Arith.readWord n = .ok (.ident n)) (hend : n ≠ endWord)
    (hmark : definedName? n = none) (hidle : s.pending = false) (loc : Location) :
    s.feedWord fuel none n loc = some { s with start := loc, parser := ⟨[.var n]⟩ } := by
  obtain ⟨hparser, hdefine, hfailed⟩ := pending_eq_false_iff.mp hidle
  have hstarted : s.started loc = { s with start := loc } := by simp [started, hidle]
  rw [feedWord_of_not_failed hfailed hend, hstarted]
  simp [takeWord, hdefine, hmark, hread, Parser.push, Parser.put, hparser]

theorem finish_of_run {e e' : Arith.Term} {run : Reducer.Run Arith.Value Bytes Arith.Value.Fault}
    (hresult : s.parser.result = .ok e) (hbound : s.bound e = .ok e')
    (hrun : s.reducer.normalize fuel (s.context outer?) e' = some run) :
    s.finish fuel outer? = some (s.conclude run).reset := by
  have hsome : s.parser.isEmpty = false := by simp [Parser.isEmpty, Parser.result_eq_ok_iff.mp hresult]
  simp [finish, hsome, hresult, hbound, hrun]

theorem out_print (h : s.logPlace? = none) (e : Arith.Term) :
    (s.print e).out =
      (writePieces Output.write 0 s.out (Text.terminalPieces (s.lineOf e ++ [Bytes.lineFeed]))).1 := by
  simp only [print, onOutput, h]
  split <;> rfl

/-- The name of a definition is a program whose reduction is over at once. -/
theorem Stable.run_name (h : Stable o s) {n : Bytes} {e : Arith.Term} (he : s.env.find? n = some e)
    (hfuel : 0 < fuel) :
    ∃ run, s.bound (.var n) = .ok e ∧ s.reducer.normalize (F := Arith.Value.Fault) fuel (s.context none) e = some run ∧
      run.result = .ok e ∧ run.steps = 0 := by
  have hne : s.env ≠ [] := by
    intro hnil
    rw [hnil] at he
    cases he
  have hcontext : s.context none = .background := by
    simp [context, h.options, h.timely hne, h.deadlines, Context.deadline]
  obtain ⟨run, hrun, hresult, hsteps⟩ :=
    Reducer.normalize_of_no_step (Reducer.step_of_none (h.normal n e he)) hfuel
  refine ⟨run, ?_, ?_, hresult, hsteps⟩
  · rw [Session.bound, if_neg (by simpa using hne)]
    exact Term.bind_var h.whole.whole he s.rename?
  · rw [hcontext, h.toPlain.normalize]
    exact hrun

/-- Where its name is the program under way, a definition is what the program comes to and what its end prints. -/
theorem Stable.end_name (h : Stable o s) {n : Bytes} {e : Arith.Term} (he : s.env.find? n = some e)
    (hparser : s.parser = ⟨[.var n]⟩) (hdefine : s.define? = none) (hfailed : s.failed = false) (hfuel : 0 < fuel)
    (loc : Location) :
    s.value? fuel none = some (e, 0) ∧ ∃ s', s.feedWord fuel none endWord loc = some s' ∧ s'.reducer.steps = 0 ∧
      s'.env = s.env ∧ s'.out = (s.print e).out ∧ s'.pending = false := by
  have hparsed : s.parser.result = .ok (.var n) := by
    rw [hparser]
    rfl
  have hpending : s.pending = true := by simp [pending, hparser, Parser.isEmpty]
  obtain ⟨run, hbound, hrun, hresult, hsteps⟩ := h.run_name he hfuel
  have hprints := conclude_of_ok hresult hdefine
  obtain ⟨out, log, hframe⟩ := (s.afterRun run).print_frame e
  refine ⟨?_, (s.conclude run).reset.reset, ?_, ?_, ?_, ?_, rfl⟩
  · rw [value?_of_run hparsed hbound hrun, hresult, hsteps]
    rfl
  · rw [feedWord_end, started_of_pending hpending, endProgram, hfailed, finish_of_run hparsed hbound hrun]
    rfl
  · rw [hprints, hframe]
    exact hsteps
  · rw [hprints, hframe]
    rfl
  · change (s.conclude run).out = _
    rw [hprints, out_print h.logPlace?, out_print (by exact h.logPlace?)]
    rfl

/-- Definitions are stable values. After any words the definitions of a session have no hole, and its reducer finds no
    step in them. A name is defined as what it was last defined as, whatever came after; and if it is not a mark of the
    session's own, it is a program that comes to its definition in no step, and prints it. -/
theorem definitions_stable (o : SessionOptions) (log : Logger) (out : Output) (fuel : Nat)
    (words : List (Bytes × Location)) (s : Session) (h : (new o log out).feedWords fuel none words = some s) :
    (∀ n e, s.env.find? n = some e → e.Whole ∧ (s.reducer.step (F := Arith.Value.Fault) e).result = .ok (e, false)) ∧
    (∀ n e, s.env.find? n = some e ↔ ∃ earlier later,
      (new o log out).definitions fuel none words = earlier ++ (n, e) :: later ∧ n ∉ later.map Prod.fst) ∧
    ∀ n e, s.env.find? n = some e → Arith.readWord n = .ok (.ident n) → n ≠ endWord → definedName? n = none →
      s.pending = false → ∀ fuel' loc loc', 0 < fuel' →
        ∃ s₁ s₂, s.feedWord fuel' none n loc = some s₁ ∧ s₁.value? fuel' none = some (e, 0) ∧
          s₁.feedWord fuel' none endWord loc' = some s₂ ∧ s₂.reducer.steps = 0 ∧ s₂.env = s.env ∧
          s₂.out = (s.print e).out ∧ s₂.pending = false := by
  have hstable := (stable_new o log out).feedWords h
  obtain ⟨steps, hreducer⟩ := hstable.reducer
  refine ⟨fun n e he => ⟨(hstable.whole n e he).whole, ?_⟩, fun n e => ?_, ?_⟩
  · rw [hreducer]
    exact Reducer.step_of_none (hstable.normal n e he)
  · rw [env_feedWords h]
    exact Env.find?_insertAll_nil
  · intro n e he hread hend hmark hidle fuel' loc loc' hfuel
    have hbegun := feedWord_name fuel' hread hend hmark hidle loc
    obtain ⟨-, hdefine, hfailed⟩ := pending_eq_false_iff.mp hidle
    obtain ⟨hvalue, s₂, hended, hsteps, henv, hout, hpending⟩ :=
      (hstable.feedWord hbegun).end_name he rfl hdefine hfailed hfuel loc'
    refine ⟨_, s₂, hbegun, hvalue, hended, hsteps, henv, ?_, hpending⟩
    rw [hout, out_print hstable.logPlace?, out_print (by exact hstable.logPlace?)]
    rfl

/-- A definition, one that uses it, and a program that fails before it can define the name anew. -/
theorem definitions_stable_after_failure :
    let words : List Bytes := ["+", "1", "@", ":inc", ";", "inc", "2", "@", ":three", ";", "4", "@", ":inc", ";"]
    let inc : Arith.Term := .const ⟨.add, 0, [1]⟩
    ∃ s, (new { delta := true } {} (Output.ofSink { kind := .memory })).feedWords 10 none (words.map (·, {})) = some s ∧
      s.env.find? (Bytes.ofString "inc") = some inc ∧ ∃ s₁ s₂,
        s.feedWord 1 none (Bytes.ofString "inc") {} = some s₁ ∧ s₁.value? 1 none = some (inc, 0) ∧
          s₁.feedWord 1 none endWord {} = some s₂ ∧ s₂.reducer.steps = 0 := by
  intro words inc
  have hfed : ((new { delta := true } {} (Output.ofSink { kind := .memory })).feedWords 10 none
      (words.map (·, {}))).map (fun s => (s.env.find? (Bytes.ofString "inc"), s.pending)) = some (some inc, false) := by
    decide +kernel
  obtain ⟨s, hs, hstate⟩ := Option.map_eq_some_iff.mp hfed
  obtain ⟨henv, hidle⟩ := Prod.mk.inj hstate
  obtain ⟨-, -, hprogram⟩ := definitions_stable { delta := true } {} (Output.ofSink { kind := .memory }) 10 _ s hs
  obtain ⟨s₁, s₂, hbegun, hvalue, hended, hsteps, -⟩ := hprogram (Bytes.ofString "inc") inc henv (by decide +kernel)
    (by decide +kernel) (by decide +kernel) hidle 1 {} {} Nat.one_pos
  exact ⟨s, hs, henv, s₁, s₂, hbegun, hvalue, hended, hsteps⟩

/-- A name may be one that the session takes for a mark of its own: it is defined, it is read as an identifier, and
    still it is no program that comes to its definition. -/
theorem marks_not_programs :
    let fed (words : List Bytes) :=
      (new {} {} (Output.ofSink { kind := .memory })).feedWords 10 none (words.map (·, {}))
    let one : Arith.Term := .const (.int 1)
    ∀ n ∈ ([":x", ";"] : List Bytes),
      Arith.readWord n = .ok (.ident n) ∧
        ((fed ["1", defineMark ++ n, endWord]).map fun s => (s.env.find? n, s.pending)) = some (some one, false) ∧
        ((fed ["1", defineMark ++ n, endWord, n]).map fun s => s.value? 10 none) = some none ∧
        ((fed ["1", defineMark ++ n, endWord, n, endWord]).map fun s => s.out.textAt 0) = some [] := by
  intro fed one
  simp only [List.forall_mem_cons]
  refine ⟨⟨?_, ?_, ?_, ?_⟩, ⟨?_, ?_, ?_, ?_⟩, by simp⟩
  all_goals decide +kernel

end Session

end PostfixLambda
