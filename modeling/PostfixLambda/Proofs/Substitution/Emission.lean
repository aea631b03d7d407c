import Mathlib.Control.Monad.Basic
import PostfixLambda.Proofs.Substitution.FreeNames

/-! What a walk emits is always accepted. The agenda of a walk and the operands of the parser that it emits into fit each
    other: whatever terms are put for the parts still to be visited, each mark will find its operands, and one term is
    left at the end. Every task keeps this, so a walk is stopped only by its rules or at a hole. A substitution gives a
    whole term therefore, or it is refused for a hole or for a capture, with any renamer that chooses some name. -/

namespace PostfixLambda

variable {V S : Type} [DecidableEq S]

namespace Walk

/-! ### Agenda and operands -/

omit [DecidableEq S] in
/-- The operands are those that the agenda needs: each mark finds its parts on top of what was emitted before, and one
    term is left. -/
def Fits : (agenda : List (Task V S)) → (operands : List (Term V S)) → Prop
  | [], operands => ∃ e, operands = [e]
  | .visit _ :: rest, operands => ∀ e, Fits rest (e :: operands)
  | .apply :: rest, operands => ∃ fn arg more, operands = arg :: fn :: more ∧ Fits rest (.app fn arg :: more)
  | .close _ :: rest, operands => ∃ b body more, operands = body :: .var b :: more ∧ Fits rest (.lam b body :: more)

/-- What stops a walk: a hole, its rules, or a constant that cannot be copied. -/
inductive StoppedBy (rules : Rules V S) : Refusal S → Prop where
  | hole (st : State S) : StoppedBy rules ⟨.error .invalidTerm, st.asked⟩
  | const (st : State S) {v : V} {message : Bytes} (h : rules.dup v = some message) :
      StoppedBy rules ⟨.panic message, st.asked⟩
  | leaf {st : State S} {s : S} {r : Refusal S} (h : rules.leaf st s = .error r) : StoppedBy rules r
  | enter {st : State S} {b : S} {body : Term V S} {r : Refusal S} (h : rules.enter st b body = .error r) :
      StoppedBy rules r

/-- A task leaves tasks and operands that fit again, or it is stopped by the rules or at a hole: no mark is refused. -/
theorem Fits.advance (rules : Rules V S) (st : State S) {out : Parser V S} {t : Task V S} {rest : List (Task V S)}
    (h : Fits (t :: rest) out.operands) :
    (∃ left st' out', advance rules st out t = .ok (left, st', out') ∧ Fits (left ++ rest) out'.operands) ∨
      ∃ r, Walk.advance rules st out t = .error r ∧ StoppedBy rules r := by
  cases t with
  | apply =>
    obtain ⟨fn, arg, more, ho, hrest⟩ := h
    exact Or.inl ⟨[], st, ⟨.app fn arg :: more⟩, by simp [Walk.advance, emitMark, Parser.push, ho], hrest⟩
  | close suspended =>
    obtain ⟨b, body, more, ho, hrest⟩ := h
    refine Or.inl ⟨[], st.leave suspended, ⟨.lam b body :: more⟩, ?_, hrest⟩
    cases suspended <;> simp [Walk.advance, emitMark, Parser.push, ho, State.leave]
  | visit e =>
    cases e with
    | const v =>
      cases hdup : rules.dup v with
      | none => exact Or.inl ⟨[], st, out.put (.const v), by simp only [Walk.advance, hdup], h _⟩
      | some message => exact Or.inr ⟨_, by simp only [Walk.advance, hdup], .const st hdup⟩
    | hole => exact Or.inr ⟨_, rfl, .hole st⟩
    | var s =>
      cases hr : rules.leaf st s with
      | ok r => exact Or.inl ⟨[], st, out.put r, by simp only [Walk.advance, hr], h r⟩
      | error r => exact Or.inr ⟨r, by simp only [Walk.advance, hr], .leaf hr⟩
    | app fn arg =>
      -- Whatever is put for the function and the argument, the mark finds both.
      refine Or.inl ⟨_, st, out, rfl, fun fn' arg' => ⟨fn', arg', out.operands, rfl, h _⟩⟩
    | lam b body =>
      cases hr : rules.enter st b body with
      | ok scope =>
        refine Or.inl ⟨[.visit scope.inner, .close scope.suspended], scope.state, out.put (.var scope.binder), ?_, ?_⟩
        · simp only [Walk.advance, hr]
        · exact fun body' => ⟨scope.binder, body', out.operands, rfl, h _⟩
      | error r => exact Or.inr ⟨r, by simp only [Walk.advance, hr], .enter hr⟩

/-- A walk whose operands fit its agenda comes to a term, or it is stopped by its rules or at a hole. -/
theorem drain_of_fits {rules : Rules V S} {agenda : List (Task V S)} {out : Parser V S} (h : Fits agenda out.operands)
    (st : State S) :
    (∃ built, drain rules agenda st out = .ok built) ∨
      ∃ r, drain rules agenda st out = .error r ∧ StoppedBy rules r := by
  fun_induction drain rules agenda st out with
  | case1 st out e hr => exact Or.inl ⟨(e, st), rfl⟩
  | case2 st out fault hr =>
    obtain ⟨e, ho⟩ := h
    rw [Parser.result_eq_ok_iff.mpr ho] at hr
    cases hr
  | case3 st out t rest left st' out' ha ih =>
    rcases h.advance rules st with ⟨_, _, _, hok, hfits⟩ | ⟨r, herr, -⟩
    · rw [ha] at hok
      cases hok
      exact ih hfits
    · rw [ha] at herr
      cases herr
  | case4 st out t rest r ha =>
    rcases h.advance rules st with ⟨_, _, _, hok, -⟩ | ⟨r', herr, hstopped⟩
    · rw [ha] at hok
      cases hok
    · rw [ha] at herr
      cases herr
      exact Or.inr ⟨r, rfl, hstopped⟩

theorem drain_visit_cases (rules : Rules V S) (st : State S) (e : Term V S) :
    (∃ built, drain rules [.visit e] st {} = .ok built) ∨
      ∃ r, drain rules [.visit e] st {} = .error r ∧ StoppedBy rules r := by
  have hfits : Fits [.visit e] (Parser.operands ({} : Parser V S)) := fun e' => ⟨e', rfl⟩
  exact drain_of_fits hfits st

theorem stoppedBy_of_rebuild {rules : Rules V S} {st : State S} {e : Term V S} {r : Refusal S}
    (h : rebuild rules st e = .error r) : StoppedBy rules r := by
  rw [← drain_eq_rebuild] at h
  rcases drain_visit_cases rules st e with ⟨built, hok⟩ | ⟨r', herr, hstopped⟩
  · rw [h] at hok
    cases hok
  · rw [h] at herr
    cases herr
    exact hstopped

theorem stoppedBy_of_run {rules : Rules V S} {st : State S} {e : Term V S} {stop : Stop (TermError S)}
    (h : (run rules st e).result = .error stop) : ∃ r, StoppedBy rules r ∧ r.cause = stop := by
  rw [run, drain_eq_rebuild] at h
  split at h
  · cases h
  · rename_i r hr
    cases h
    exact ⟨r, stoppedBy_of_rebuild hr, rfl⟩

end Walk

/-! ### Copying -/

namespace Term

theorem whole_of_copy {e e' : Term V S} (h : e.copy = .ok e') : e'.Whole := by
  obtain ⟨st', hbuilt⟩ := Walk.rebuild_of_run h
  refine Walk.whole_of_rebuild (fun st s r hr => ?_) hbuilt
  cases hr
  exact whole_var

/-- A term without a hole is copied as it is, and one with a hole is refused. -/
theorem copy_cases (e : Term V S) : e.Whole ∧ e.copy = .ok e ∨ ¬e.Whole ∧ e.copy = .error (.error .invalidTerm) := by
  by_cases he : e.Whole
  · exact Or.inl ⟨he, copy_of_whole he⟩
  · refine Or.inr ⟨he, ?_⟩
    cases h : e.copy with
    | ok e' =>
      obtain rfl := eq_of_copy h
      exact absurd (whole_of_copy h) he
    | error stop =>
      obtain ⟨r, hstopped, rfl⟩ := Walk.stoppedBy_of_run h
      cases hstopped with
      | hole st => rfl
      | const st hdup => cases hdup
      | leaf hr => cases hr
      | enter hr => cases hr

end Term

/-! ### Substitution -/

/-- A refusal for a hole, or for a capture. -/
def TermError.Foreseen (stop : Stop (TermError S)) : Prop :=
  stop = .error .invalidTerm ∨ ∃ b v, stop = .error (.capture b v)

/-- A renamer that always chooses some name, be it a taken one. -/
def Renamer.Chooses (rename : Renamer S) : Prop := ∀ b taken, ∃ s, (rename b taken).chosen = .ok s

namespace Walk

open TermError (Foreseen)

theorem enter_substituting_error {env : Env V S} {onCapture : OnCapture V S} {st : State S} {b : S} {body : Term V S}
    {r : Refusal S} (h : (substituting env onCapture).enter st b body = .error r) :
    ∃ v, onCapture (st.below env b body) b v body = .error r := by
  rcases enter_substituting_split env onCapture st b body with
    henter | ⟨v, -, ⟨fresh, inner, st', -, henter⟩ | ⟨r', hon, henter⟩⟩ <;> rw [henter] at h <;> cases h
  exact ⟨v, hon⟩

theorem leaf_substituting_cases (env : Env V S) (onCapture : OnCapture V S) (st : State S) (s : S) :
    (∃ r, (substituting env onCapture).leaf st s = .ok r ∧ r.Whole) ∨
      (substituting env onCapture).leaf st s = .error ⟨.error .invalidTerm, st.asked⟩ := by
  simp only [substituting]
  cases active? env st.shadow s with
  | none => exact Or.inl ⟨.var s, rfl, Term.whole_var⟩
  | some r =>
    rcases r.copy_cases with ⟨hr, hcopy⟩ | ⟨-, hcopy⟩
    · exact Or.inl ⟨r, by simp only [hcopy], hr⟩
    · exact Or.inr (by simp only [hcopy])

theorem foreseen_of_stoppedBy {env : Env V S} {onCapture : OnCapture V S}
    (hon : ∀ st b v body r, onCapture st b v body = .error r → Foreseen r.cause) {r : Refusal S}
    (h : StoppedBy (substituting env onCapture) r) : Foreseen r.cause := by
  cases h with
  | hole st => exact Or.inl rfl
  | const st hdup => cases hdup
  | @leaf st s _ hr =>
    rcases leaf_substituting_cases env onCapture st s with ⟨r', hok, -⟩ | herr
    · rw [hok] at hr
      cases hr
    · rw [herr] at hr
      cases hr
      exact Or.inl rfl
  | @enter st b body _ hr =>
    obtain ⟨v, hon'⟩ := enter_substituting_error hr
    exact hon _ _ _ _ _ hon'

omit [DecidableEq S] in
theorem foreseen_of_refuse (st : State S) (b v : S) (body : Term V S) (r : Refusal S)
    (h : refuse st b v body = .error r) : Foreseen r.cause := by
  cases h
  exact Or.inr ⟨b, v, rfl⟩

/-- A renamer that chooses a name lets the renaming of a binder fail only where the chosen name cannot be put in the
    binder's place. -/
theorem renameBinder_error {env : Env V S} {rename : Renamer S} (hrename : rename.Chooses) {st : State S} {b v : S}
    {body : Term V S} {r : Refusal S} (h : renameBinder env rename st b v body = .error r) :
    ∃ fresh stᵢ rᵢ, rebuild (plain [(b, .var fresh)]) stᵢ body = .error rᵢ ∧ r.cause = rᵢ.cause := by
  simp only [renameBinder, renameBinderBy] at h
  split at h
  · rename_i message hm
    obtain ⟨s, hs⟩ := hrename b (b :: body.symbols ++ (learnActive env st.shadow body.freeVars st.known).2 ++
      env.names.filter (· ∉ st.shadow))
    rw [hs] at hm
    cases hm
  · split at h
    · cases h
    · rename_i fresh _ rᵢ hdrain
      cases h
      rw [drain_eq_rebuild] at hdrain
      exact ⟨fresh, _, rᵢ, hdrain, rfl⟩

theorem foreseen_of_renameBinder {env : Env V S} {rename : Renamer S} (hrename : rename.Chooses) (st : State S) (b v : S)
    (body : Term V S) (r : Refusal S) (h : renameBinder env rename st b v body = .error r) : Foreseen r.cause := by
  obtain ⟨fresh, stᵢ, rᵢ, hrefused, hcause⟩ := renameBinder_error hrename h
  rw [hcause]
  exact foreseen_of_stoppedBy foreseen_of_refuse (stoppedBy_of_rebuild hrefused)

theorem whole_of_rebuild_substituting {env : Env V S} {onCapture : OnCapture V S} {st st' : State S} {e e' : Term V S}
    (h : rebuild (substituting env onCapture) st e = .ok (e', st')) : e'.Whole := by
  refine whole_of_rebuild (fun st s r hr => ?_) h
  rcases leaf_substituting_cases env onCapture st s with ⟨r', hok, hwhole⟩ | herr
  · rw [hok] at hr
    cases hr
    exact hwhole
  · rw [herr] at hr
    cases hr

/-! ### Substitution in whole terms -/

/-- On whole terms a substitution is stopped by a capture only, if what is done about a capture in a whole body gives a
    whole body or fails by a capture. -/
theorem capture_of_rebuild {env : Env V S} (henv : ∀ s r, env.find? s = some r → r.Whole) {onCapture : OnCapture V S}
    (hok : ∀ st b v body fresh inner st', onCapture st b v body = .ok (fresh, inner, st') → inner.1.Whole)
    (herr : ∀ st b v body r, body.Whole → onCapture st b v body = .error r → ∃ b v, r.cause = .error (.capture b v))
    {st : State S} {e : Term V S} (he : e.Whole) {r : Refusal S}
    (h : rebuild (substituting env onCapture) st e = .error r) : ∃ b v, r.cause = .error (.capture b v) := by
  fun_induction rebuild (substituting env onCapture) st e with
  | case4 st s r' hr =>
    rw [leaf_substituting henv] at hr
    cases hr
  | case5 st fn arg r' hfn ihfn =>
    cases h
    exact ihfn he.1 hfn
  | case6 st fn arg fn' st₁ hfn r' harg ihfn iharg =>
    cases h
    exact iharg he.2 harg
  | case8 st b body r' henter =>
    cases h
    obtain ⟨v, hon⟩ := enter_substituting_error henter
    exact herr _ _ _ _ _ (Term.whole_lam.mp he) hon
  | case9 st b body scope henter r' hinner ih =>
    cases h
    refine ih ?_ hinner
    rcases enter_substituting_cases henter with ⟨-, hsame⟩ | ⟨v, inner, st', hon, hsame⟩
    · rw [hsame]
      exact he
    · rw [hsame]
      exact hok _ _ _ _ _ _ _ hon
  | case11 st => exact absurd he Term.not_whole_hole
  | case2 st v message hdup => cases hdup
  | case1 | case3 | case7 | case10 => cases h

theorem capture_of_rebuild_plain {env : Env V S} (henv : ∀ s r, env.find? s = some r → r.Whole) {st : State S}
    {e : Term V S} (he : e.Whole) {r : Refusal S} (h : rebuild (plain env) st e = .error r) :
    ∃ b v, r.cause = .error (.capture b v) := by
  refine capture_of_rebuild henv ?_ ?_ he h
  · intro st b v body fresh inner st' hon
    cases hon
  · intro st b v body r _ hon
    cases hon
    exact ⟨b, v, rfl⟩

theorem capture_of_rebuild_renaming {env : Env V S} (henv : ∀ s r, env.find? s = some r → r.Whole) {rename : Renamer S}
    (hrename : rename.Chooses) {st : State S} {e : Term V S} (he : e.Whole) {r : Refusal S}
    (h : rebuild (substituting env (renameBinder env rename)) st e = .error r) :
    ∃ b v, r.cause = .error (.capture b v) := by
  refine capture_of_rebuild henv ?_ ?_ he h
  · intro st b v body fresh inner st' hon
    obtain ⟨taken, stᵢ, stᵢ', -, hbuilt⟩ := renameBinder_ok hon
    exact whole_of_rebuild_substituting hbuilt
  · intro st b v body r hbody hon
    obtain ⟨fresh, stᵢ, rᵢ, hrefused, hcause⟩ := renameBinder_error hrename hon
    rw [hcause]
    exact capture_of_rebuild_plain (Term.whole_of_find?_single Term.whole_var) hbody hrefused

end Walk

/-! ### What a substitution comes to -/

namespace Term

/-- A whole term, or a refusal for a hole or for a capture. -/
def BuiltOrRefused (result : Except (Stop (TermError S)) (Term V S)) : Prop :=
  (∃ e', result = .ok e' ∧ e'.Whole) ∨ result = .error (.error .invalidTerm) ∨
    ∃ b v, result = .error (.error (.capture b v))

theorem builtOrRefused_of_run {env : Env V S} {onCapture : Walk.OnCapture V S}
    (hon : ∀ st b v body r, onCapture st b v body = .error r → TermError.Foreseen r.cause) (st : Walk.State S)
    (e : Term V S) : BuiltOrRefused (Walk.run (Walk.substituting env onCapture) st e).result := by
  cases h : (Walk.run (Walk.substituting env onCapture) st e).result with
  | ok e' =>
    obtain ⟨st', hbuilt⟩ := Walk.rebuild_of_run h
    exact Or.inl ⟨e', rfl, Walk.whole_of_rebuild_substituting hbuilt⟩
  | error stop =>
    obtain ⟨r, hstopped, rfl⟩ := Walk.stoppedBy_of_run h
    rcases Walk.foreseen_of_stoppedBy hon hstopped with hcause | ⟨b, v, hcause⟩
    · exact Or.inr (Or.inl (by rw [hcause]))
    · exact Or.inr (Or.inr ⟨b, v, by rw [hcause]⟩)

section Bind

variable {rename? : Option (Renamer S)} (hrename : ∀ rename, rename? = some rename → rename.Chooses)

include hrename

theorem bind_builtOrRefused (e : Term V S) (env : Env V S) : BuiltOrRefused (e.bind env rename?).result := by
  cases rename? with
  | none => exact builtOrRefused_of_run Walk.foreseen_of_refuse _ e
  | some rename => exact builtOrRefused_of_run (Walk.foreseen_of_renameBinder (hrename rename rfl)) _ e

/-- A substitution is refused for a hole only if there is one, in the term or in a replacement. -/
theorem bind_ne_invalidTerm {e : Term V S} (he : e.Whole) {env : Env V S} (henv : ∀ s r, env.find? s = some r → r.Whole) :
    (e.bind env rename?).result ≠ .error (.error .invalidTerm) := by
  intro h
  rw [bind, Walk.run, Walk.drain_eq_rebuild] at h
  split at h
  · cases h
  · rename_i r hr
    have hcapture : ∃ b v, r.cause = .error (.capture b v) := by
      cases rename? with
      | none => exact Walk.capture_of_rebuild_plain henv he hr
      | some rename => exact Walk.capture_of_rebuild_renaming henv (hrename rename rfl) he hr
    obtain ⟨b, v, hcause⟩ := hcapture
    rw [hcause] at h
    cases h

end Bind

/-- No substitution misfires. A walk, by whatever rules, emits only what its parser accepts, so it comes to a term unless
    its rules or a hole stop it. With any renamer that chooses names, taken ones too, or without one, binding a term in
    an environment and substituting for one name come to a whole term or are refused for a hole, if there is one, or for
    a capture, and never because the parser refused a token or the end. Copying gives the term itself if it has no hole,
    and otherwise refuses it. -/
theorem bind_never_misfires (e : Term V S) :
    (∀ (rules : Walk.Rules V S) st, (∃ built, Walk.drain rules [.visit e] st {} = .ok built) ∨
      ∃ r, Walk.drain rules [.visit e] st {} = .error r ∧ Walk.StoppedBy rules r) ∧
    (∀ (env : Env V S) rename?, (∀ rename, rename? = some rename → rename.Chooses) →
      BuiltOrRefused (e.bind env rename?).result ∧
      (∀ fault, (e.bind env rename?).result ≠ .error (.error (.misparse fault))) ∧
      (e.Whole → (∀ s r, env.find? s = some r → r.Whole) →
        (e.bind env rename?).result ≠ .error (.error .invalidTerm))) ∧
    (∀ v r rename?, (∀ rename, rename? = some rename → rename.Chooses) →
      BuiltOrRefused (e.substitute v r rename?).result) ∧
    (e.copy = .ok e ↔ e.Whole) ∧ (¬e.Whole → e.copy = .error (.error .invalidTerm)) := by
  refine ⟨fun rules st => Walk.drain_visit_cases rules st e, fun env rename? hrename => ⟨?_, ?_, ?_⟩,
    fun v r rename? hrename => bind_builtOrRefused hrename e [(v, r)], ⟨whole_of_copy, copy_of_whole⟩, ?_⟩
  · exact bind_builtOrRefused hrename e env
  · intro fault hfault
    rcases bind_builtOrRefused hrename e env with ⟨e', hresult, -⟩ | hresult | ⟨b, v, hresult⟩ <;>
      rw [hfault] at hresult <;> cases hresult
  · exact fun he henv => bind_ne_invalidTerm hrename he henv
  · intro he
    rcases e.copy_cases with ⟨hwhole, -⟩ | ⟨-, hcopy⟩
    · exact absurd hwhole he
    · exact hcopy

/-- A renamer that gives `z` for every binder renames the `y` of `λy. λz. x y`, in which `x` is bound to `y`, to a name
    that the inner binder captures. -/
theorem bind_never_misfires_taken :
    (∀ rename : Renamer Bytes, some (fun _ _ => ⟨[], .ok [0x7a]⟩) = some rename → rename.Chooses) ∧
    BuiltOrRefused ((lam [0x79] (lam [0x7a] (app (var [0x78]) (var [0x79]))) : Term Nat Bytes).bind
      [([0x78], var [0x79])] (some fun _ _ => ⟨[], .ok [0x7a]⟩)).result ∧
    ((lam [0x79] (lam [0x7a] (app (var [0x78]) (var [0x79]))) : Term Nat Bytes).bind
      [([0x78], var [0x79])] (some fun _ _ => ⟨[], .ok [0x7a]⟩)).result = .error (.error (.capture [0x7a] [0x79])) := by
  have hchooses : ∀ rename : Renamer Bytes, some (fun _ _ => ⟨[], .ok [0x7a]⟩) = some rename → rename.Chooses := by
    intro rename h
    cases h
    exact fun _ _ => ⟨[0x7a], rfl⟩
  obtain ⟨-, hbind, -⟩ := bind_never_misfires
    (lam [0x79] (lam [0x7a] (app (var [0x78]) (var [0x79]))) : Term Nat Bytes)
  exact ⟨hchooses, (hbind [([0x78], var [0x79])] _ hchooses).1, by decide +kernel⟩

end Term

end PostfixLambda
