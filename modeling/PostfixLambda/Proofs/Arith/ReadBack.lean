import PostfixLambda.Proofs.Arith.Identifiers
import PostfixLambda.Proofs.Arith.Safety
import PostfixLambda.Proofs.Reduction.NormalOrder

/-! A printed normal form reads back. Its words parse to the normal form with the primitives that hold an operand
    spelled out, and each of those takes one step to be held again, so the same reducer leads back to the normal form.
    What does not read back is a caret that a renamer gave primes to. -/

namespace PostfixLambda.Arith

open PostfixLambda.Step (first rule?)
open Text (Solid)

/-! ### Normal forms with operands spelled out -/

/-- The first term is the second with so many primitives that hold an operand spelled out. -/
inductive Spells : Nat → Term → Term → Prop where
  | const (v : Value) : Spells 0 (.const v) (.const v)
  | var (s : Bytes) : Spells 0 (.var s) (.var s)
  | applied {op : Op} (h : op.IsPrimitive) (a : Int64) :
      Spells 1 (.app (.const (.prim op)) (.const (.int a))) (.const ⟨op, 0, [a]⟩)
  | lam {k : Nat} {e r : Term} (b : Bytes) (h : Spells k e r) : Spells k (.lam b e) (.lam b r)
  | app {j k : Nat} {fn fn' arg arg' : Term} (hfn : Spells j fn fn') (harg : Spells k arg arg') :
      Spells (j + k) (.app fn arg) (.app fn' arg')

/-- The constants of a term that hold one operand. -/
def partials : Term → Nat
  | .const v => if v.args.length = 1 then 1 else 0
  | .lam _ body => partials body
  | .app fn arg => partials fn + partials arg
  | .var _ | .hole => 0

/-- A term of constants that hold at most one operand is spelled out at just the constants that hold one. -/
theorem spells_spelledOut {binder name : Bytes → Prop} {e : Term} (h : e.Over ⟨Value.Proper 1, binder, name⟩) :
    Spells (partials e) (spelledOut e) e := by
  induction e with
  | const v =>
    cases h with
    | int n => exact .const _
    | @prim op args hop hargs =>
      match args with
      | [] => exact .const _
      | [a] => exact .applied hop a
      | _ :: _ :: _ => simp at hargs
  | var s => exact .var s
  | lam b body ih => exact .lam b (ih h.2)
  | app fn arg ihfn iharg => exact .app (ihfn h.1) (iharg h.2)
  | hole => exact absurd h id

/-- Constants without operands are not spelled out. -/
theorem spelledOut_of_proper_zero {binder name : Bytes → Prop} {e : Term}
    (h : e.Over ⟨Value.Proper 0, binder, name⟩) : spelledOut e = e := by
  induction e with
  | const v =>
    cases h with
    | int n => rfl
    | @prim op args hop hargs =>
      match args with
      | [] => rfl
      | _ :: _ => simp at hargs
  | var s => rfl
  | lam b body ih => rw [spelledOut, ih h.2]
  | app fn arg ihfn iharg => rw [spelledOut, ihfn h.1, iharg h.2]
  | hole => rfl

/-! ### Steps back to the normal form -/

theorem Spells.eq_of_zero {e r : Term} (h : Spells 0 e r) : e = r := by
  generalize hn : 0 = n at h
  induction h with
  | const v => rfl
  | var s => rfl
  | applied => cases hn
  | lam b h ih => rw [ih hn]
  | app hfn harg ihfn iharg => rw [ihfn (by omega), iharg (by omega)]

/-- Spelling out makes no redex of an application that was none. -/
theorem rule?_app_of_spells {delta : Bool} {j k : Nat} {fn fn' arg arg' : Term} (hfn : Spells j fn fn')
    (harg : Spells k arg arg') (h : rule? delta (.app fn' arg') = none) : rule? delta (.app fn arg) = none := by
  cases hfn with
  | const v =>
    cases harg with
    | const w => exact h
    | var s => rfl
    | applied hop a => rfl
    | lam b hbody => rfl
    | app hfn' harg' => rfl
  | var s => rfl
  | applied hop a => rfl
  | lam b hbody => cases h
  | app hfn' harg' => rfl

/-- From a normal form with operands spelled out there is a step, and it takes one of them back. -/
theorem Spells.step_back {strategy : Strategy Bytes} (hdelta : strategy.delta = true) {k : Nat} {e r : Term}
    (h : Spells (k + 1) e r) (hr : first (F := Value.Fault) strategy r = none) :
    ∃ attempt c, first (F := Value.Fault) strategy e = some attempt ∧ attempt.result = .ok c ∧ Spells k c.whole r := by
  generalize hn : k + 1 = n at h
  induction h generalizing k with
  | const v => cases hn
  | var s => cases hn
  | @applied op hop a =>
    cases hn
    have hcombine : Domain.combine (F := Value.Fault) (Value.prim op) (Value.int a) = .value ⟨op, 0, [a]⟩ :=
      Value.combine_prim hop a
    refine ⟨Step.here strategy (.app (.const (.prim op)) (.const (.int a))) .delta,
      ⟨.delta, .app (.const (.prim op)) (.const (.int a)), .const ⟨op, 0, [a]⟩, .const ⟨op, 0, [a]⟩⟩, ?_, ?_, .const _⟩
    · simp only [first, rule?, hdelta, if_true]
    · simp only [Step.here, Step.contract, PostfixLambda.Term.deltaReduce, hcombine]
      rfl
  | @lam k' body body' b h ih =>
    obtain ⟨attempt, c, hfirst, hresult, hspells⟩ := ih (Option.map_eq_none_iff.mp hr) hn
    refine ⟨Step.within (.body b) attempt, { c with whole := .lam b c.whole }, ?_, ?_, .lam b hspells⟩
    · simp only [first, hfirst]
      rfl
    · simp only [Step.within, hresult]
      rfl
  | @app i j fn fn' arg arg' hfn harg ihfn iharg =>
    obtain ⟨hrule, hfn', harg'⟩ := (Step.first_app_eq_none_iff strategy).mp hr
    have hnot := rule?_app_of_spells hfn harg hrule
    cases i with
    | succ i =>
      obtain ⟨attempt, c, hfirst, hresult, hspells⟩ := ihfn hfn' rfl
      refine ⟨Step.within (.fn arg) attempt, { c with whole := .app c.whole arg }, ?_, ?_, ?_⟩
      · simp only [first, hnot, hfirst]
      · simp only [Step.within, hresult]
        rfl
      · have hk : k = i + j := by omega
        rw [hk]
        exact .app hspells harg
    | zero =>
      -- The function is spelled as it is, so the first redex is in the argument.
      have hsame := hfn.eq_of_zero
      obtain ⟨attempt, c, hfirst, hresult, hspells⟩ := iharg harg' (k := k) (by omega)
      refine ⟨Step.within (.arg fn) attempt, { c with whole := .app fn c.whole }, ?_, ?_, ?_⟩
      · rw [← hsame] at hfn'
        simp only [first, hnot, hfn', hfirst]
        rfl
      · simp only [Step.within, hresult]
        rfl
      · rw [← Nat.zero_add k]
        exact .app hfn hspells

theorem Spells.reaches {red : Reducer Bytes} (hdelta : red.strategy.delta = true) {k : Nat} {e r : Term}
    (h : Spells k e r) (hr : first (F := Value.Fault) red.strategy r = none) : red.Reaches (F := Value.Fault) k e r := by
  induction k generalizing e with
  | zero =>
    rw [h.eq_of_zero]
    exact .refl r
  | succ k ih =>
    obtain ⟨attempt, c, hfirst, hresult, hspells⟩ := h.step_back hdelta hr
    have hstep := PostfixLambda.Term.step_eq_some_iff.mpr ⟨attempt, hfirst, hresult⟩
    exact .step (Reducer.step_of_some hstep) (ih hspells)

/-! ### Normal forms of programs -/

/-- The operands that constants hold at most in terms from programs: none without the delta rule. -/
def mostOperands (strategy : Strategy Bytes) : Nat := if strategy.delta then 1 else 0

theorem mostOperands_eq_one {strategy : Strategy Bytes} (h : strategy.delta = true) : mostOperands strategy = 1 := by
  rw [mostOperands, if_pos h]

theorem over_of_program (most : Nat) {program : Bytes} {e : Term} (h : parse program = .ok e) :
    e.Over ⟨Value.Proper most, IsName, IsName⟩ := by
  refine over_of_parse h fun word hword t ht => ?_
  have hsolid := Text.solid_of_mem_fields hword
  rcases readWord_cases ht with rfl | rfl | ⟨v, rfl, hv⟩ | rfl
  · trivial
  · trivial
  · exact hv.mono (Nat.zero_le most)
  · exact ⟨⟨hsolid, ht⟩, ⟨hsolid, ht⟩⟩

section Program

variable {program : Bytes} {e res : Term} {red : Reducer Bytes} {ctx : Context} {fuel : Nat}
  {run : Reducer.Run Value Bytes Value.Fault}

/-- The names in the normal form of a program are names, or a caret with primes. -/
theorem names_of_run (hparse : parse program = .ok e) (hrename : PrimesOnly red.strategy.rename?)
    (hrun : red.normalize fuel ctx e = some run) (hres : run.result = .ok res) :
    res.Over ⟨Value.Proper (mostOperands red.strategy), fun s => IsName s ∨ PrimedCaret s,
      fun s => IsName s ∨ PrimedCaret s⟩ := by
  refine Reducer.normalize_over (keepsTo_proper hrename mostOperands_eq_one fun rename hsome => ?_) ?_ hrun hres
  · rw [hrename rename hsome]
    refine Renamer.search_keepsTo fun b hb => ?_
    have hprime : IsName (Renamer.prime b) ∨ PrimedCaret (Renamer.prime b) := by
      rcases hb with hb | hb
      · by_cases hcaret : b = [0x5E]
        · rw [hcaret]
          exact Or.inr primedCaret_caret
        · exact Or.inl (hb.prime hcaret)
      · exact Or.inr hb.prime
    exact ⟨hprime, hprime⟩
  · refine PostfixLambda.Term.Over.mono ?_ ?_ ?_ (over_of_program (mostOperands red.strategy) hparse)
    · exact fun v hv => hv
    · exact fun b hb => Or.inl hb
    · exact fun s hs => Or.inl hs

/-- Where no caret is renamed, the names in the normal form are names. -/
theorem names_of_run_of_no_caret (hparse : parse program = .ok e) (hrename : PrimesOnly red.strategy.rename?)
    (hcaret : red.strategy.rename? = none ∨ ¬e.Binds [0x5E]) (hrun : red.normalize fuel ctx e = some run)
    (hres : run.result = .ok res) : res.Over ⟨Value.Proper (mostOperands red.strategy), IsName, IsName⟩ := by
  rcases hcaret with hnone | hcaret
  · refine Reducer.normalize_over (keepsTo_proper hrename mostOperands_eq_one fun rename hsome => ?_)
      (over_of_program _ hparse) hrun hres
    rw [hnone] at hsome
    cases hsome
  · have hbinders : e.Over ⟨Value.Proper (mostOperands red.strategy), fun b => IsName b ∧ b ≠ [0x5E], IsName⟩ := by
      refine (over_of_program _ hparse).restrict fun b hb heq => ?_
      rw [heq] at hb
      exact hcaret hb
    have hover : res.Over ⟨Value.Proper (mostOperands red.strategy), fun b => IsName b ∧ b ≠ [0x5E], IsName⟩ := by
      refine Reducer.normalize_over (keepsTo_proper hrename mostOperands_eq_one fun rename hsome => ?_) hbinders hrun hres
      rw [hrename rename hsome]
      refine Renamer.search_keepsTo fun b hb => ⟨⟨hb.1.prime hb.2, ?_⟩, hb.1.prime hb.2⟩
      intro heq
      have hlast := congrArg List.getLast? heq
      simp [Renamer.prime] at hlast
    refine PostfixLambda.Term.Over.mono ?_ ?_ ?_ hover
    · exact fun v hv => hv
    · exact fun b hb => hb.1
    · exact fun s hs => hs

/-- A normal form whose names are names is read back from its words and found again. -/
theorem gives_of_names (hlimit : red.maxSteps = 0) (hnormal : (res.step (F := Value.Fault) red.strategy).result = .ok none)
    (h : res.Over ⟨Value.Proper (mostOperands red.strategy), IsName, IsName⟩) :
    ∃ e' k, parse (format res.encode) = .ok e' ∧ red.Gives (F := Value.Fault) e' (.ok res) k := by
  have hend : (red.step (F := Value.Fault) res).result = .ok (res, false) := Reducer.step_of_none hnormal
  cases hdelta : red.strategy.delta with
  | true =>
    rw [mostOperands_eq_one hdelta] at h
    have hreaches := (spells_spelledOut h).reaches hdelta (PostfixLambda.Term.step_eq_none_iff.mp hnormal)
    exact ⟨spelledOut res, partials res, parse_format h, Reducer.gives_of_reaches hreaches hend (Or.inl hlimit)⟩
  | false =>
    have hmost : mostOperands red.strategy = 0 := by rw [mostOperands, hdelta]; rfl
    rw [hmost] at h
    refine ⟨res, 0, ?_, Reducer.gives_of_reaches (.refl res) hend (Or.inl hlimit)⟩
    rw [parse_format h, spelledOut_of_proper_zero h]

theorem mem_tokens_of_mentions {e : Term} {s : Bytes} (h : e.Mentions s) : .ident s ∈ e.tokens := by
  induction e with
  | var t =>
    cases h
    exact List.mem_singleton.mpr rfl
  | lam b body ih =>
    rcases h with rfl | h
    · exact List.mem_cons_self
    · exact List.mem_cons_of_mem _ (List.mem_append_left _ (ih h))
  | app fn arg ihfn iharg =>
    rcases h with h | h
    · exact List.mem_append_left _ (ihfn h)
    · exact List.mem_append_right _ (List.mem_append_left _ (iharg h))
  | const v => cases h
  | hole => cases h

/-- A caret with primes among the words is where reading back fails. -/
theorem parse_format_primedCaret {most : Nat}
    (h : res.Over ⟨Value.Proper most, fun s => IsName s ∨ PrimedCaret s, fun s => IsName s ∨ PrimedCaret s⟩)
    (hcaret : ∃ s, res.Mentions s ∧ PrimedCaret s) :
    ∃ s, PrimedCaret s ∧ parse (format res.encode) = .error (.word (.badRune s .badForm)) := by
  have hwords : ∀ word ∈ res.tokens.flatMap wordsOf, Solid word ∧ (PrimedCaret word ∨ ∃ t, readWord word = .ok t) := by
    have hnames : List.Forall₂ (fun word _ => (Solid word ∧ (PrimedCaret word ∨ ∃ t, readWord word = .ok t)) ∧ True)
        (res.tokens.flatMap wordsOf) (spelledOut res).tokens := by
      refine (names_words h).imp fun word t hword => ⟨?_, trivial⟩
      rcases hword with ⟨hsolid, hread⟩ | ⟨-, hname | hcaret⟩
      · exact ⟨hsolid, Or.inr ⟨t, hread⟩⟩
      · exact ⟨hname.1, Or.inr ⟨_, hname.2⟩⟩
      · exact ⟨hcaret.solid, Or.inl hcaret⟩
    exact ((List.forall₂_and_left _ _).mp hnames).1
  obtain ⟨s, hmentions, hs⟩ := hcaret
  have hmem : s ∈ res.tokens.flatMap wordsOf :=
    List.mem_flatMap.mpr ⟨.ident s, mem_tokens_of_mentions hmentions, List.mem_singleton.mpr rfl⟩
  obtain ⟨s', hs', hread⟩ := readWords_primedCaret (fun word hword => (hwords word hword).2) ⟨s, hmem, hs⟩
  refine ⟨s', hs', ?_⟩
  rw [parse, PostfixLambda.Term.encode_eq_tokens, format_eq_joinWith,
    Text.fields_joinWith fun word hword => (hwords word hword).1, hread]

end Program

/-- A printed normal form reads back, unless a caret was renamed. The normal form of a program, found without a step
    limit and with primes for renamed binders or no renaming, is parsed from its words to a term from which the same
    reducer finds it again, if none of its names is a caret with primes; and if one is, the words are refused for such
    a name. There is none where nothing is renamed, or where the program has no caret for a binder. -/
theorem printed_reads_back (program : Bytes) (e res : Term) (red : Reducer Bytes) (ctx : Context) (fuel : Nat)
    (run : Reducer.Run Value Bytes Value.Fault) (hparse : parse program = .ok e) (hlimit : red.maxSteps = 0)
    (hrename : PrimesOnly red.strategy.rename?) (hrun : red.normalize fuel ctx e = some run)
    (hres : run.result = .ok res) :
    ((∀ s, res.Mentions s → ¬PrimedCaret s) →
      ∃ e' k, parse (format res.encode) = .ok e' ∧ red.Gives (F := Value.Fault) e' (.ok res) k) ∧
    ((∃ s, res.Mentions s ∧ PrimedCaret s) →
      ∃ s, PrimedCaret s ∧ parse (format res.encode) = .error (.word (.badRune s .badForm))) ∧
    (red.strategy.rename? = none ∨ ¬e.Binds [0x5E] → ∀ s, res.Mentions s → ¬PrimedCaret s) := by
  have hnames := names_of_run hparse hrename hrun hres
  refine ⟨fun hnone => ?_, parse_format_primedCaret hnames, fun hcaret s hs => ?_⟩
  · refine gives_of_names hlimit (Reducer.no_step_of_normalize hrun hres) (hnames.of_all_mentions fun s hs => ?_)
    rcases hnames.of_mentions hs with hname | hcaret
    · exact hname
    · exact absurd hcaret (hnone s hs)
  · have hover := names_of_run_of_no_caret hparse hrename hcaret hrun hres
    exact (hover.of_mentions hs).not_primedCaret

/-- The normal form of `x y x + 1 @ @ \ \ y @`, in which a binder is renamed and a primitive holds an operand, reads
    back. -/
theorem printed_reads_back_partial :
    ∃ e run res, parse "x y x + 1 @ @ \\ \\ y @" = .ok e ∧
      Reducer.normalize ⟨⟨true, some Renamer.primes⟩, 0, none, 0⟩ 3 .background e = some run ∧ run.result = .ok res ∧
      format res.encode = "y' y + 1 @ @ \\" ∧ ∃ e' k, parse (format res.encode) = .ok e' ∧
        Reducer.Gives (F := Value.Fault) ⟨⟨true, some Renamer.primes⟩, 0, none, 0⟩ e' (.ok res) k := by
  have hparse : parse "x y x + 1 @ @ \\ \\ y @" = .ok (.app (.lam "x" (.lam "y" (.app (.var "x")
      (.app (.const (.prim .add)) (.const (.int 1)))))) (.var "y")) := by decide +kernel
  obtain ⟨run, hrun, hres⟩ : ∃ run, Reducer.normalize (F := Value.Fault) ⟨⟨true, some Renamer.primes⟩, 0, none, 0⟩ 3
      .background (.app (.lam "x" (.lam "y" (.app (.var "x") (.app (.const (.prim .add)) (.const (.int 1))))))
        (.var "y") : Term) = some run ∧
      run.result = .ok (.lam "y'" (.app (.var "y") (.const ⟨.add, 0, [1]⟩))) :=
    Option.map_eq_some_iff.mp (by decide +kernel)
  have hprimes : PrimesOnly (some Renamer.primes) := by
    intro rename h
    cases h
    rfl
  obtain ⟨hback, -, hfree⟩ := printed_reads_back _ _ _ _ _ _ run hparse rfl hprimes hrun hres
  refine ⟨_, run, _, hparse, hrun, hres, by decide +kernel, hback (hfree (Or.inr ?_))⟩
  simp only [PostfixLambda.Term.Binds]
  decide +kernel

/-- The program `x ^ x \ \ ^ @` has a normal form whose binder is a caret with a prime, and its words are refused. -/
theorem primed_caret_not_read_back :
    ∃ e run, parse "x ^ x \\ \\ ^ @" = .ok e ∧
      Reducer.normalize (F := Value.Fault) ⟨⟨false, some Renamer.primes⟩, 0, none, 0⟩ 2 .background e = some run ∧
      run.result = .ok (.lam "^'" (.var "^")) ∧
      parse (format (.lam "^'" (.var "^") : Term).encode) = .error (.word (.badRune "^'" .badForm)) := by
  have hparse : parse "x ^ x \\ \\ ^ @" = .ok (.app (.lam "x" (.lam "^" (.var "x"))) (.var "^")) := by decide +kernel
  obtain ⟨run, hrun, hres⟩ : ∃ run, Reducer.normalize (F := Value.Fault) ⟨⟨false, some Renamer.primes⟩, 0, none, 0⟩ 2
      .background (.app (.lam "x" (.lam "^" (.var "x"))) (.var "^") : Term) = some run ∧
      run.result = .ok (.lam "^'" (.var "^")) := Option.map_eq_some_iff.mp (by decide +kernel)
  exact ⟨_, run, hparse, hrun, hres, by decide +kernel⟩

end PostfixLambda.Arith
