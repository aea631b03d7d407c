import PostfixLambda.Proofs.Substitution.CaptureAvoiding
import PostfixLambda.Proofs.Term.Vocabulary

/-! Substitution keeps to a vocabulary: what it builds is made of the term, of the replacements and of the names that
    the renamer chooses for binders. -/

namespace PostfixLambda

variable {V S : Type} [DecidableEq S] {voc : Vocabulary V S}

/-- Every term of the environment is over the vocabulary. -/
def Env.Over (voc : Vocabulary V S) (env : Env V S) : Prop := ∀ s r, env.find? s = some r → r.Over voc

/-- A renamer's choices for binders of the vocabulary are in it, as binders and as variables. -/
def Renamer.KeepsTo (voc : Vocabulary V S) (rename : Renamer S) : Prop :=
  ∀ b taken s, voc.binder b → (rename b taken).chosen = .ok s → voc.binder s ∧ voc.name s

theorem Env.find?_filter_ne {env : Env V S} {s s' : S} (h : s ≠ s') :
    Env.find? (env.filter fun (name, _) => name ≠ s) s' = env.find? s' := by
  induction env with
  | nil => rfl
  | cons binding env ih =>
    obtain ⟨name, e⟩ := binding
    by_cases hname : name = s
    · have hne : name ≠ s' := hname ▸ h
      simp only [List.filter_cons, hname, ne_eq, not_true_eq_false, decide_false, Bool.false_eq_true, if_false, ih]
      rw [Env.find?, if_neg (hname ▸ hne)]
    · simp only [List.filter_cons, hname, ne_eq, not_false_eq_true, decide_true, if_true, Env.find?, ih]

theorem Env.Over.insert {env : Env V S} (h : env.Over voc) (s : S) {e : Term V S} (he : e.Over voc) :
    (env.insert s e).Over voc := by
  intro s' r hr
  rw [Env.insert, Env.find?] at hr
  split at hr
  · cases hr
    exact he
  · rename_i hne
    rw [Env.find?_filter_ne hne] at hr
    exact h s' r hr

/-- A search keeps to a vocabulary in which the name derived from a binder may be a binder and a variable. -/
theorem Renamer.search_keepsTo {next : S → S} (h : ∀ b, voc.binder b → voc.binder (next b) ∧ voc.name (next b)) :
    (Renamer.search next).KeepsTo voc := by
  intro b taken s hb hs
  have hnext : ∀ s, voc.binder s ∧ voc.name s → voc.binder (next s) ∧ voc.name (next s) := fun s hs => h s hs.1
  exact Renamer.search_induct (P := fun s => voc.binder s ∧ voc.name s) hnext (h b hb) hs

theorem Env.Over.whole {env : Env V S} (h : env.Over voc) : ∀ s r, env.find? s = some r → r.Whole :=
  fun s r hr => (h s r hr).whole

theorem Env.Over.single {v : S} {r : Term V S} (h : r.Over voc) : Env.Over voc [(v, r)] := by
  intro s r' hr
  simp only [Env.find?] at hr
  split at hr
  · cases hr
    exact h
  · cases hr

namespace Walk

theorem rebuild_over {rules : Rules V S} (hleaf : ∀ st s r, voc.name s → rules.leaf st s = .ok r → r.Over voc)
    (henter : ∀ st b body scope, voc.binder b → body.Over voc → rules.enter st b body = .ok scope →
      voc.binder scope.binder ∧ scope.inner.Over voc)
    {st st' : State S} {e e' : Term V S} (he : e.Over voc) (h : rebuild rules st e = .ok (e', st')) : e'.Over voc := by
  fun_induction rebuild rules st e generalizing e' st' with
  | case1 st v =>
    cases h
    exact he
  | case3 st s r hr =>
    cases h
    exact hleaf st s _ he hr
  | case7 st fn arg fn' st₁ hfn arg' st₂ harg ihfn iharg =>
    cases h
    exact ⟨ihfn he.1 hfn, iharg he.2 harg⟩
  | case10 st b body scope hscope inner st₁ hinner ih =>
    cases h
    obtain ⟨hb, hbody⟩ := henter st b body scope he.1 he.2 hscope
    exact ⟨hb, ih hbody hinner⟩
  | case2 | case4 | case5 | case6 | case8 | case9 | case11 => cases h

theorem leaf_substituting_over {env : Env V S} (henv : env.Over voc) {onCapture : OnCapture V S} {st : State S} {s : S}
    {r : Term V S} (hs : voc.name s) (h : (substituting env onCapture).leaf st s = .ok r) : r.Over voc := by
  rw [leaf_substituting henv.whole] at h
  cases h
  cases hactive : active? env st.shadow s with
  | none => exact hs
  | some r => exact henv s r (env_find?_of_active? hactive)

/-- A scope of a substitution has the binder and body that it had, or those that the capture came to. -/
theorem enter_substituting_cases {env : Env V S} {onCapture : OnCapture V S} {st : State S} {b : S} {body : Term V S}
    {scope : Scope body} (h : (substituting env onCapture).enter st b body = .ok scope) :
    scope.binder = b ∧ scope.inner = body ∨
      ∃ v inner st', onCapture (st.below env b body) b v body = .ok (scope.binder, inner, st') ∧
        scope.inner = inner.1 := by
  rcases enter_substituting_split env onCapture st b body with
    henter | ⟨v, -, ⟨fresh, inner, st', hon, henter⟩ | ⟨r, -, henter⟩⟩ <;> rw [henter] at h <;> cases h
  · exact Or.inl ⟨rfl, rfl⟩
  · exact Or.inr ⟨v, inner, st', hon, rfl⟩

theorem rebuild_plain_over {env : Env V S} (henv : env.Over voc) {st st' : State S} {e e' : Term V S} (he : e.Over voc)
    (h : rebuild (plain env) st e = .ok (e', st')) : e'.Over voc := by
  refine rebuild_over (fun st s r hs hr => leaf_substituting_over henv hs hr) ?_ he h
  intro st b body scope hb hbody hscope
  rcases enter_substituting_cases hscope with ⟨hbinder, hinner⟩ | ⟨v, inner, st', hon, -⟩
  · rw [hbinder, hinner]
    exact ⟨hb, hbody⟩
  · cases hon

/-- A binder that is renamed has the chosen name put in its place throughout the body. -/
theorem renameBinder_ok {env : Env V S} {rename : Renamer S} {st st' : State S} {b v fresh : S} {body : Term V S}
    {inner : { inner : Term V S // inner.size = body.size }}
    (h : renameBinder env rename st b v body = .ok (fresh, inner, st')) :
    ∃ taken stᵢ stᵢ', (rename b taken).chosen = .ok fresh ∧
      rebuild (plain [(b, .var fresh)]) stᵢ body = .ok (inner.1, stᵢ') := by
  simp only [renameBinder, renameBinderBy] at h
  split at h
  · cases h
  · rename_i s hchosen
    split at h
    · rename_i renamed stᵢ' hdrain
      cases h
      rw [drain_eq_rebuild] at hdrain
      exact ⟨_, _, stᵢ', hchosen, hdrain⟩
    · cases h

theorem renameBinder_over {env : Env V S} {rename : Renamer S} (hrename : rename.KeepsTo voc) {st st' : State S}
    {b v fresh : S} {body : Term V S} {inner : { inner : Term V S // inner.size = body.size }} (hb : voc.binder b)
    (hbody : body.Over voc) (h : renameBinder env rename st b v body = .ok (fresh, inner, st')) :
    voc.binder fresh ∧ inner.1.Over voc := by
  obtain ⟨taken, stᵢ, stᵢ', hchosen, hbuilt⟩ := renameBinder_ok h
  obtain ⟨hbinder, hname⟩ := hrename _ _ _ hb hchosen
  have hsingle : Env.Over voc [(b, .var fresh)] := .single hname
  exact ⟨hbinder, rebuild_plain_over hsingle hbody hbuilt⟩

theorem rebuild_renaming_over {env : Env V S} (henv : env.Over voc) {rename : Renamer S} (hrename : rename.KeepsTo voc)
    {st st' : State S} {e e' : Term V S} (he : e.Over voc)
    (h : rebuild (substituting env (renameBinder env rename)) st e = .ok (e', st')) : e'.Over voc := by
  refine rebuild_over (fun st s r hs hr => leaf_substituting_over henv hs hr) ?_ he h
  intro st b body scope hb hbody hscope
  rcases enter_substituting_cases hscope with ⟨hbinder, hinner⟩ | ⟨v, inner, st', hon, hinner⟩
  · rw [hbinder, hinner]
    exact ⟨hb, hbody⟩
  · rw [hinner]
    exact renameBinder_over hrename hb hbody hon

theorem rebuild_of_run {rules : Rules V S} {st : State S} {e e' : Term V S} (h : (run rules st e).result = .ok e') :
    ∃ st', rebuild rules st e = .ok (e', st') := by
  rw [run, drain_eq_rebuild] at h
  split at h
  · rename_i built st' hbuilt
    cases h
    exact ⟨st', hbuilt⟩
  · cases h

end Walk

/-- Binding a term over a vocabulary in an environment over it gives a term over it, if the renamer keeps to it. -/
theorem Term.bind_over {e e' : Term V S} {env : Env V S} {rename? : Option (Renamer S)} (he : e.Over voc)
    (henv : env.Over voc) (hrename : ∀ rename, rename? = some rename → rename.KeepsTo voc)
    (h : (e.bind env rename?).result = .ok e') : e'.Over voc := by
  obtain ⟨st', hbuilt⟩ := Walk.rebuild_of_run h
  cases rename? with
  | none => exact Walk.rebuild_plain_over henv he hbuilt
  | some rename => exact Walk.rebuild_renaming_over henv (hrename rename rfl) he hbuilt

end PostfixLambda
