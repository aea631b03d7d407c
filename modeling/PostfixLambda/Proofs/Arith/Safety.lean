import PostfixLambda.Proofs.Arith.Words
import PostfixLambda.Proofs.Reduction.Vocabulary

/-! Programs of words do not go wrong inside. Whatever is parsed from words, bound to such terms and reduced, holds only
    integers and primitives with at most one operand; and of all the ways in which a run can fail, only those are left
    that a program can be blamed for: a capture without a renamer, three faults of the arithmetic, the step limit and an
    interruption. -/

namespace PostfixLambda.Arith

open Relation

/-- The renamer, if there is one, appends primes. -/
def PrimesOnly (rename? : Option (Renamer Bytes)) : Prop := ∀ rename, rename? = some rename → rename = Renamer.primes

/-- The terms that programs lead to: those parsed, those bound to such terms, and the results of runs from such terms,
    whatever the reducers and contexts. -/
inductive FromWords : Term → Prop where
  | parsed {program : Bytes} {e : Term} (h : parse program = .ok e) : FromWords e
  | bound {e e' : Term} {env : Env Value Bytes} {rename? : Option (Renamer Bytes)} (he : FromWords e)
      (henv : ∀ s r, env.find? s = some r → FromWords r) (hrename : PrimesOnly rename?)
      (h : (e.bind env rename?).result = .ok e') : FromWords e'
  | reduced {e e' : Term} {red : Reducer Bytes} {ctx : Context} {fuel : Nat} {run : Reducer.Run Value Bytes Value.Fault}
      (he : FromWords e) (hrename : PrimesOnly red.strategy.rename?) (hrun : red.normalize fuel ctx e = some run)
      (h : run.result = .ok e') : FromWords e'

/-- What terms from words are made of: integers and primitives with at most one operand, and any names. -/
def properTerms : Vocabulary Value Bytes := ⟨Value.Proper 1, fun _ => True, fun _ => True⟩

/-- The errors of runs that programs can be blamed for, each where it can occur. -/
inductive Foreseen (red : Reducer Bytes) (ctx : Context) : Halt Value Bytes Value.Fault → Prop where
  | capture (h : red.strategy.rename? = none) (b v : Bytes) : Foreseen red ctx (.returned (.reduce (.term (.capture b v))))
  | notCallable (h : red.strategy.delta = true) (fn arg : Value) :
      Foreseen red ctx (.returned (.reduce (.combine fn arg (.notCallable fn))))
  | notANumber (h : red.strategy.delta = true) (fn arg : Value) :
      Foreseen red ctx (.returned (.reduce (.combine fn arg (.notANumber fn.op arg))))
  | divideByZero (h : red.strategy.delta = true) (fn arg : Value) :
      Foreseen red ctx (.returned (.reduce (.combine fn arg .divideByZero)))
  | stepLimit (h : 0 < red.maxSteps) (steps : Nat) : Foreseen red ctx (.returned (.stepLimit steps))
  | interrupted {lines steps : Nat} {i : Interruption} (h : ctx lines steps = some i) :
      Foreseen red ctx (.returned (.interrupted i))

variable {red : Reducer Bytes} {ctx : Context}

/-! ### What a reducer of words keeps to -/

theorem PrimesOnly.honours {rename? : Option (Renamer Bytes)} (h : PrimesOnly rename?) :
    ∀ rename, rename? = some rename → rename.Honours := by
  intro rename hrename
  rw [h rename hrename]
  exact Renamer.primes_honours

/-- A reducer of words keeps to the constants that words stand for, and with delta to those with one operand. -/
theorem keepsTo_proper {most : Nat} {binder name : Bytes → Prop} {strategy : Strategy Bytes}
    (hrename : PrimesOnly strategy.rename?) (hmost : strategy.delta = true → most = 1)
    (hprimes : ∀ rename, strategy.rename? = some rename → rename.KeepsTo ⟨Value.Proper most, binder, name⟩) :
    strategy.KeepsTo (F := Value.Fault) ⟨Value.Proper most, binder, name⟩ where
  honours := hrename.honours
  renames := hprimes
  combines hdelta fn arg v hfn harg hv := by
    cases hmost hdelta
    rcases Value.combine_cases hfn harg with ⟨v', hv', hproper⟩ | hfault | hfault | hfault
    · cases hv.symm.trans hv'
      exact hproper
    · cases hv.symm.trans hfault
    · cases hv.symm.trans hfault
    · cases hv.symm.trans hfault

theorem keepsTo_properTerms {strategy : Strategy Bytes} (h : PrimesOnly strategy.rename?) :
    strategy.KeepsTo (F := Value.Fault) properTerms :=
  keepsTo_proper h (fun _ => rfl) fun _ _ _ _ _ _ _ => ⟨trivial, trivial⟩

theorem FromWords.over {e : Term} (h : FromWords e) : e.Over properTerms := by
  induction h with
  | @parsed program e h =>
    refine over_of_parse h fun word _ t ht => ?_
    rcases readWord_cases ht with rfl | rfl | ⟨v, rfl, hv⟩ | rfl
    · trivial
    · trivial
    · exact hv.mono (Nat.zero_le 1)
    · exact ⟨trivial, trivial⟩
  | bound _ _ _ h ihe ihenv => exact Term.bind_over ihe ihenv (fun _ _ _ _ _ _ _ => ⟨trivial, trivial⟩) h
  | reduced _ hrename hrun h ih => exact Reducer.normalize_over (keepsTo_properTerms hrename) ih hrun h

/-- Of the ways in which applying a constant to a constant can fail, proper constants leave three faults. -/
theorem faults_of_combineFails {fn arg : Value} (hfn : fn.Proper 1) (harg : arg.Proper 1)
    {stop : Stop (ReduceError Value Bytes Value.Fault)} (h : Nameless.CombineFails fn arg stop) :
    stop = .error (.combine fn arg (.notCallable fn)) ∨ stop = .error (.combine fn arg (.notANumber fn.op arg)) ∨
      stop = .error (.combine fn arg .divideByZero) := by
  have hcases := Value.combine_cases hfn harg
  rcases h with ⟨fault, hfault, rfl⟩ | ⟨message, hpanic, -⟩
  · change Value.combine fn arg = .fault fault at hfault
    rw [hfault] at hcases
    rcases hcases with ⟨v, hv, -⟩ | hf | hf | hf
    · cases hv
    · cases hf
      exact Or.inl rfl
    · cases hf
      exact Or.inr (Or.inl rfl)
    · cases hf
      exact Or.inr (Or.inr rfl)
  · change Value.combine fn arg = .panic message at hpanic
    rw [hpanic] at hcases
    rcases hcases with ⟨v, hv, -⟩ | hf | hf | hf
    · cases hv
    · cases hf
    · cases hf
    · cases hf

theorem foreseen_of_fails {how : Ending (HaltCause Value Bytes Value.Fault)} (h : Reducer.Fails properTerms red ctx how)
    {halt : Halt Value Bytes Value.Fault} (hhalt : recover "reduce" how = some halt) : Foreseen red ctx halt := by
  cases h with
  | error h =>
    cases hhalt
    cases h with
    | capture hnone b v => exact .capture hnone b v
    | combine hdelta hfn harg hfails =>
      rcases faults_of_combineFails hfn harg hfails with hstop | hstop | hstop
      · cases hstop
        exact .notCallable hdelta _ _
      · cases hstop
        exact .notANumber hdelta _ _
      · cases hstop
        exact .divideByZero hdelta _ _
  | panic h =>
    -- The arithmetic returns all its faults; a panic would be one of another domain.
    cases h with
    | combine hdelta hfn harg hfails =>
      rcases faults_of_combineFails hfn harg hfails with hstop | hstop | hstop
      · cases hstop
      · cases hstop
      · cases hstop
  | stepLimit hlimit steps =>
    cases hhalt
    exact .stepLimit hlimit steps
  | interrupted hi =>
    cases hhalt
    exact .interrupted hi

/-- Programs of words do not go wrong inside. A term that programs lead to is bound to others such without any failure
    but a capture, and that only without a renamer. A run from it, whatever the reducer and the context, passes only
    whole terms whose constants are integers without operands and primitives with at most one; and it ends in such a
    term or in a foreseen error, never in a panic. -/
theorem never_goes_wrong (e : Term) (he : FromWords e) :
    (∀ (env : Env Value Bytes) (rename? : Option (Renamer Bytes)) (stop : Stop (TermError Bytes)),
      (∀ s r, env.find? s = some r → FromWords r) → PrimesOnly rename? →
      (e.bind env rename?).result = .error stop → rename? = none ∧ ∃ b v, stop = .error (.capture b v)) ∧
    ∀ (red : Reducer Bytes) (ctx : Context), PrimesOnly red.strategy.rename? →
      (∀ p, ReflTransGen (red.Proceeds (F := Value.Fault) ctx) ⟨e, 0, 0, [], []⟩ p → p.term.Over properTerms) ∧
      ∀ (fuel : Nat) (run : Reducer.Run Value Bytes Value.Fault), red.normalize fuel ctx e = some run →
        (∀ e', run.result = .ok e' → e'.Over properTerms) ∧
        ∀ halt, run.result = .error halt → Foreseen red ctx halt := by
  refine ⟨fun env rename? stop henv hrename h => ?_, fun red ctx hrename => ⟨fun p hp => ?_, fun fuel run hrun =>
    ⟨fun e' h => ?_, fun halt h => ?_⟩⟩⟩
  · exact Term.bind_error he.over.whole (fun s r hr => (henv s r hr).over.whole) hrename.honours h
  · exact Reducer.over_of_proceeds (keepsTo_properTerms hrename) he.over hp
  · exact Reducer.normalize_over (keepsTo_properTerms hrename) he.over hrun h
  · obtain ⟨how, hfails, hhalt⟩ := Reducer.normalize_fails (keepsTo_properTerms hrename) he.over hrun h
    exact foreseen_of_fails hfails hhalt

/-- A definition `f` of `+ 1 @`, reduced to a primitive that holds an operand, is bound in the program `f * @`, which
    then fails by a foreseen fault. -/
theorem never_goes_wrong_partial :
    ∃ e run, FromWords e ∧ Reducer.normalize ⟨⟨true, none⟩, 0, none, 0⟩ 9 .background e = some run ∧
      run.result = .error (.returned (.reduce (.combine ⟨.add, 0, [1]⟩ (.prim .mul) (.notANumber .add (.prim .mul))))) ∧
      ∀ halt, run.result = .error halt → Foreseen ⟨⟨true, none⟩, 0, none, 0⟩ .background halt := by
  have habsent : PrimesOnly none := by
    intro rename h
    cases h
  have hadd : parse "+ 1 @" = .ok (.app (.const (.prim .add)) (.const (.int 1))) := by decide +kernel
  have hmul : parse "f * @" = .ok (.app (.var "f") (.const (.prim .mul))) := by decide +kernel
  obtain ⟨run, hrun, hresult⟩ : ∃ run, Reducer.normalize (F := Value.Fault) ⟨⟨true, none⟩, 0, none, 0⟩ 9 .background
      (.app (.const (.prim .add)) (.const (.int 1)) : Term) = some run ∧ run.result = .ok (.const ⟨.add, 0, [1]⟩) :=
    Option.map_eq_some_iff.mp (by decide +kernel)
  have hpartial : FromWords (.const ⟨.add, 0, [1]⟩) := .reduced (.parsed hadd) habsent hrun hresult
  have hbound : FromWords (.app (.const ⟨.add, 0, [1]⟩) (.const (.prim .mul))) := by
    have hbind : ((.app (.var "f") (.const (.prim .mul)) : Term).bind [("f", .const ⟨.add, 0, [1]⟩)] none).result =
        .ok (.app (.const ⟨.add, 0, [1]⟩) (.const (.prim .mul))) := by decide +kernel
    refine .bound (.parsed hmul) ?_ habsent hbind
    intro s r hr
    simp only [Env.find?] at hr
    split at hr
    · cases hr
      exact hpartial
    · cases hr
  obtain ⟨run', hrun', hresult'⟩ : ∃ run, Reducer.normalize ⟨⟨true, none⟩, 0, none, 0⟩ 9 .background
      (.app (.const ⟨.add, 0, [1]⟩) (.const (.prim .mul)) : Term) = some run ∧ run.result =
        .error (.returned (.reduce (.combine ⟨.add, 0, [1]⟩ (.prim .mul) (.notANumber .add (.prim .mul))))) :=
    Option.map_eq_some_iff.mp (by decide +kernel)
  obtain ⟨-, hruns⟩ := never_goes_wrong _ hbound
  exact ⟨_, run', hbound, hrun', hresult', ((hruns _ _ habsent).2 _ _ hrun').2⟩

end PostfixLambda.Arith
