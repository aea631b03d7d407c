import Mathlib.Control.Monad.Basic
import PostfixLambda.Proofs.Substitution.FreeNames

/-! Passing over binders changes nothing. A substitution looks for a capture only below binders that are free in some
    replacement of the term it began with, although the bodies that it comes to may have been renamed since. A walk that
    looks at every free name of every body goes the same way to the same end, with the same calls of the renamer: what a
    body can receive was known before the walk, and a fresh name receives nothing. -/

namespace PostfixLambda

variable {V S : Type} [DecidableEq S]

namespace Walk

/-! ### Looking at every binder -/

/-- How a scope is entered, by what is known then and the capture that was found, if any. -/
def enterScope (env : Env V S) (onCapture : OnCapture V S) (st : State S) (b : S) (body : Term V S)
    (search : Known S × Option S) : Except (Refusal S) (Scope body) :=
  match search with
  | (known, none) =>
    (copying.enter ⟨shadowBelow env st.shadow b, known, st.asked⟩ b body).map fun scope =>
      { scope with suspended := suspendedBy env st.shadow b }
  | (known, some v) =>
    match onCapture ⟨shadowBelow env st.shadow b, known, st.asked⟩ b v body with
    | .ok (b', ⟨inner, hsize⟩, st') => .ok ⟨b', inner, suspendedBy env st.shadow b, st', hsize⟩
    | .error r => .error r

theorem enter_substituting (env : Env V S) (onCapture : OnCapture V S) (st : State S) (b : S) (body : Term V S) :
    (substituting env onCapture).enter st b body =
      enterScope env onCapture st b body (capture? env (shadowBelow env st.shadow b) st.known b body) := by
  simp only [substituting, enterScope, shadowBelow, suspendedBy]
  rcases capture? env _ st.known b body with ⟨known, _ | v⟩
  · rfl
  · simp only
    rcases onCapture _ b v body with r | ⟨b', ⟨inner, hsize⟩, st'⟩ <;> rfl

/-- The rules of substitution with a capture looked for at every binder, among all free names of the body. -/
def searching (env : Env V S) (onCapture : OnCapture V S) : Rules V S where
  leaf := (substituting env onCapture).leaf
  enter st b body :=
    enterScope env onCapture st b body
      (firstCapture env (shadowBelow env st.shadow b) b body.freeVars st.known)

/-! ### Walks that go the same way -/

/-- The states differ at most in how much is known of the replacements, and nothing wrong is known in either. -/
structure Alike (env : Env V S) (st st' : State S) : Prop where
  shadow : st'.shadow = st.shadow
  asked : st'.asked = st.asked
  right : Known.Right env st.known
  right' : Known.Right env st'.known

theorem Alike.leave {env : Env V S} {st st' : State S} (h : Alike env st st') (suspended : Option S) :
    Alike env (st.leave suspended) (st'.leave suspended) := by
  cases suspended with
  | none => exact h
  | some s => exact ⟨congrArg (·.erase s) h.shadow, h.asked, h.right, h.right'⟩

/-- Both succeed, with results that are related, or both stop short for the same reason after the same calls. -/
def SameEnd {α β : Type} (related : α → β → Prop) : Except (Refusal S) α → Except (Refusal S) β → Prop
  | .ok a, out => ∃ b, out = .ok b ∧ related a b
  | .error r, out => out = .error r

/-- The same term is built, in states that are alike. -/
def SameTerm (env : Env V S) (built built' : Term V S × State S) : Prop :=
  built'.1 = built.1 ∧ Alike env built.2 built'.2

/-- What is done about a capture is the same in states that are alike. -/
def Agree (env : Env V S) (onCapture onCapture' : OnCapture V S) : Prop :=
  ∀ st st' b v body, Alike env st st' →
    SameEnd (fun chosen chosen' => chosen'.1 = chosen.1 ∧ chosen'.2.1 = chosen.2.1 ∧ Alike env chosen.2.2 chosen'.2.2)
      (onCapture st b v body) (onCapture' st' b v body)

theorem agree_refuse (env : Env V S) : Agree env refuse refuse := by
  intro st st' b v body h
  simp only [SameEnd, refuse, h.asked]

theorem leaf_searching {env : Env V S} {st st' : State S} (h : Alike env st st') (onCapture onCapture' : OnCapture V S)
    (s : S) : (searching env onCapture').leaf st' s = (substituting env onCapture).leaf st s := by
  simp only [searching, substituting, h.shadow, h.asked]

/-- The scopes have the same binder, body and suspended name, in states that are alike and ready for the body. -/
structure SameScope (env : Env V S) {body : Term V S} (scope scope' : Scope body) : Prop where
  binder : scope'.binder = scope.binder
  inner : scope'.inner = scope.inner
  suspended : scope'.suspended = scope.suspended
  state : Alike env scope.state scope'.state
  ready : Ready env scope.state scope.inner

theorem enter_searching {env : Env V S} {onCapture onCapture' : OnCapture V S} (hon : RenamesFresh env onCapture)
    (hagree : Agree env onCapture onCapture') {st st' : State S} {b : S} {body : Term V S}
    (hready : Ready env st (.lam b body)) (h : Alike env st st') :
    SameEnd (SameScope env) ((substituting env onCapture).enter st b body)
      ((searching env onCapture').enter st' b body) := by
  have hcovers := hready.covers.below
  have hgrows := capture?_grows env (shadowBelow env st.shadow b) st.known b body
  have hgrows' := firstCapture_grows env (shadowBelow env st.shadow b) b body.freeVars st'.known
  -- Both searches find the first free name of the body that is captured, if there is one.
  have hsame : (capture? env (shadowBelow env st.shadow b) st.known b body).2 =
      (firstCapture env (shadowBelow env st.shadow b) b body.freeVars st'.known).2 :=
    (capture?_eq hready.right hcovers).trans (firstCapture_eq body.freeVars h.right').symm
  rw [enter_substituting]
  simp only [searching, h.shadow]
  generalize capture? env (shadowBelow env st.shadow b) st.known b body = left at hsame hgrows ⊢
  generalize firstCapture env (shadowBelow env st.shadow b) b body.freeVars st'.known = right at hsame hgrows' ⊢
  obtain ⟨known, found⟩ := left
  obtain ⟨known', found'⟩ := right
  obtain rfl : found = found' := hsame
  have hbelow : Alike env ⟨shadowBelow env st.shadow b, known, st.asked⟩
      ⟨shadowBelow env st.shadow b, known', st'.asked⟩ :=
    ⟨rfl, h.asked, hgrows.right h.right, hgrows'.right h.right'⟩
  cases found with
  | none =>
    simp only [enterScope, h.shadow]
    exact ⟨_, rfl, rfl, rfl, rfl, hbelow, hbelow.right, hcovers.grow hgrows⟩
  | some v =>
    simp only [enterScope, h.shadow]
    have hchosen := hagree _ _ b v body hbelow
    cases hok : onCapture ⟨shadowBelow env st.shadow b, known, st.asked⟩ b v body with
    | ok chosen =>
      obtain ⟨fresh, inner, st₁⟩ := chosen
      rw [hok] at hchosen
      obtain ⟨⟨fresh', inner', st₁'⟩, hok', rfl, rfl, halike⟩ := hchosen
      obtain ⟨hfresh, hinner, hshadow, hgrows₁⟩ := hon _ _ _ _ _ _ _ hbelow.right hok
      rw [hok']
      refine ⟨_, rfl, rfl, rfl, rfl, halike, halike.right, ?_⟩
      simp only at hinner
      simp only [hshadow, hinner]
      exact (hcovers.renamed hfresh b).grow (hgrows.trans hgrows₁)
    | error r =>
      rw [hok] at hchosen
      rw [hchosen]
      rfl

theorem Ready.fn {env : Env V S} {st : State S} {fn arg : Term V S} (h : Ready env st (.app fn arg)) :
    Ready env st fn :=
  h.of_grows (fun _ => Or.inl) rfl (.refl _)

theorem Ready.arg {env : Env V S} {onCapture : OnCapture V S} (hon : RenamesFresh env onCapture) {st st₁ : State S}
    {fn arg fn' : Term V S} (h : Ready env st (.app fn arg))
    (hfn : rebuild (substituting env onCapture) st fn = .ok (fn', st₁)) : Ready env st₁ arg :=
  have hleft := rebuild_replaces hon h.fn hfn
  h.of_grows (fun _ => Or.inr) hleft.shadow hleft.grows

theorem rebuild_searching {env : Env V S} {onCapture onCapture' : OnCapture V S} (hon : RenamesFresh env onCapture)
    (hagree : Agree env onCapture onCapture') {st st' : State S} {e : Term V S} (hready : Ready env st e)
    (h : Alike env st st') :
    SameEnd (SameTerm env) (rebuild (substituting env onCapture) st e) (rebuild (searching env onCapture') st' e) := by
  fun_induction rebuild (substituting env onCapture) st e generalizing st' with
  | case1 st v => exact ⟨_, rebuild_const rfl, rfl, h⟩
  | case2 st v message hdup => cases hdup
  | case3 st s r hr =>
    rw [← leaf_searching h onCapture onCapture'] at hr
    exact ⟨_, rebuild_var hr, rfl, h⟩
  | case4 st s r hr =>
    rw [← leaf_searching h onCapture onCapture'] at hr
    simp only [SameEnd]
    rw [rebuild, hr]
  | case5 st fn arg r hfn ihfn =>
    have hleft := ihfn hready.fn h
    rw [hfn] at hleft
    simp only [SameEnd] at hleft ⊢
    rw [rebuild, hleft]
  | case6 st fn arg fn' st₁ hfn r harg ihfn iharg =>
    have hleft := ihfn hready.fn h
    rw [hfn] at hleft
    obtain ⟨⟨fn'', st₁'⟩, hfn', rfl, halike₁⟩ := hleft
    have hright := iharg (hready.arg hon hfn) halike₁
    rw [harg] at hright
    simp only [SameEnd] at hright ⊢
    rw [rebuild, hfn']
    simp only [hright]
  | case7 st fn arg fn' st₁ hfn arg' st₂ harg ihfn iharg =>
    have hleft := ihfn hready.fn h
    rw [hfn] at hleft
    obtain ⟨⟨fn'', st₁'⟩, hfn', rfl, halike₁⟩ := hleft
    have hright := iharg (hready.arg hon hfn) halike₁
    rw [harg] at hright
    obtain ⟨⟨arg'', st₂'⟩, harg', rfl, halike₂⟩ := hright
    exact ⟨_, rebuild_app hfn' harg', rfl, halike₂⟩
  | case8 st b body r henter =>
    have hscope := enter_searching hon hagree hready h
    rw [henter] at hscope
    simp only [SameEnd] at hscope ⊢
    rw [rebuild, hscope]
  | case9 st b body scope henter r hinner ih =>
    have hscope := enter_searching hon hagree hready h
    rw [henter] at hscope
    obtain ⟨scope', henter', hs⟩ := hscope
    have hbelow := ih hs.ready hs.state
    rw [hinner] at hbelow
    simp only [SameEnd, ← hs.inner] at hbelow ⊢
    rw [rebuild, henter']
    simp only [hbelow]
  | case10 st b body scope henter inner st₁ hinner ih =>
    have hscope := enter_searching hon hagree hready h
    rw [henter] at hscope
    obtain ⟨scope', henter', hs⟩ := hscope
    have hbelow := ih hs.ready hs.state
    rw [hinner] at hbelow
    obtain ⟨⟨inner', st₁'⟩, hinner', rfl, halike⟩ := hbelow
    rw [← hs.inner] at hinner'
    refine ⟨_, rebuild_lam henter' hinner', ?_, ?_⟩
    · rw [hs.binder]
    · rw [hs.suspended]
      exact halike.leave scope.suspended
  | case11 st =>
    simp only [SameEnd]
    rw [rebuild, h.asked]

/-! ### Renaming -/

/-- Before a walk, all is known that the walk needs. -/
theorem ready_ofTerm (env : Env V S) (e : Term V S) : Ready env ⟨[], Known.ofTerm env e, []⟩ e :=
  ⟨Known.ofTerm_right env e, Known.ofTerm_covers env [] e⟩

theorem Alike.refl {env : Env V S} {st : State S} (h : Known.Right env st.known) : Alike env st st := ⟨rfl, rfl, h, h⟩

/-- From its start, a walk that looks at every binder comes to the same end. -/
theorem drain_searching {env : Env V S} {onCapture onCapture' : OnCapture V S} (hon : RenamesFresh env onCapture)
    (hagree : Agree env onCapture onCapture') (e : Term V S) :
    SameEnd (SameTerm env) (drain (substituting env onCapture) [.visit e] ⟨[], Known.ofTerm env e, []⟩ {})
      (drain (searching env onCapture') [.visit e] ⟨[], Known.ofTerm env e, []⟩ {}) := by
  rw [drain_eq_rebuild, drain_eq_rebuild]
  exact rebuild_searching hon hagree (ready_ofTerm env e) (.refl (Known.ofTerm_right env e))

theorem size_of_searching_var {b fresh : S} {st' : State S} {e e' : Term V S}
    (h : drain (searching [(b, .var fresh)] refuse) [.visit e] ⟨[], Known.ofTerm [(b, .var fresh)] e, []⟩ {} =
      .ok (e', st')) : e'.size = e.size := by
  have hsame := drain_searching (refuse_renamesFresh [(b, .var fresh)]) (agree_refuse _) e
  rw [h] at hsame
  cases hplain : drain (plain [(b, .var fresh)]) [.visit e] ⟨[], Known.ofTerm [(b, .var fresh)] e, []⟩ {} with
  | error r =>
    rw [plain] at hplain
    rw [hplain] at hsame
    cases hsame
  | ok built =>
    have hsize := size_of_plain_var hplain
    rw [plain] at hplain
    rw [hplain] at hsame
    obtain ⟨_, hbuilt, hterm, -⟩ := hsame
    cases hbuilt
    obtain rfl : e' = built.1 := hterm
    exact hsize

/-- Renames the binder within its body as `renameBinder` does, with every binder of the body looked at. -/
def renameBinderSearching (env : Env V S) (rename : Renamer S) : OnCapture V S := fun st b _ body =>
  let (known, received) := learnActive env st.shadow body.freeVars st.known
  let taken := b :: body.symbols ++ received ++ env.names.filter (· ∉ st.shadow)
  let answer := rename b taken
  let asked := ⟨b, answer.tried.map fun s => (s, decide (s ∈ taken))⟩ :: st.asked
  match answer.chosen with
  | .error message => .error ⟨.panic message, asked⟩
  | .ok fresh =>
    match h : drain (searching [(b, .var fresh)] refuse) [.visit body]
        ⟨[], Known.ofTerm [(b, .var fresh)] body, []⟩ {} with
    | .ok (inner, _) => .ok (fresh, ⟨inner, size_of_searching_var h⟩, ⟨st.shadow, known, asked⟩)
    | .error r => .error ⟨r.cause, asked⟩

theorem agree_renameBinder (env : Env V S) (rename : Renamer S) :
    Agree env (renameBinder env rename) (renameBinderSearching env rename) := by
  intro st st' b v body h
  have hgrows := learnActive_grows env st.shadow body.freeVars st.known
  have hgrows' := learnActive_grows env st.shadow body.freeVars st'.known
  have hreceived : (learnActive env st.shadow body.freeVars st.known).2 =
      (learnActive env st.shadow body.freeVars st'.known).2 :=
    (learnActive_snd st.shadow body.freeVars h.right).trans (learnActive_snd st.shadow body.freeVars h.right').symm
  simp only [renameBinder, renameBinderBy, renameBinderSearching, h.shadow, h.asked]
  generalize learnActive env st.shadow body.freeVars st.known = left at hreceived hgrows ⊢
  generalize learnActive env st.shadow body.freeVars st'.known = right at hreceived hgrows' ⊢
  obtain ⟨known, received⟩ := left
  obtain ⟨known', received'⟩ := right
  obtain rfl : received = received' := hreceived
  simp only
  generalize b :: body.symbols ++ received ++ env.names.filter (· ∉ st.shadow) = taken
  cases (rename b taken).chosen with
  | error message => rfl
  | ok fresh =>
    have hsame := drain_searching (refuse_renamesFresh [(b, .var fresh)]) (agree_refuse _) body
    simp only
    split
    · rename_i inner stᵢ hplain
      rw [plain] at hplain
      rw [hplain] at hsame
      obtain ⟨⟨inner', stᵢ'⟩, hsearching, rfl, -⟩ := hsame
      split
      · rename_i h'
        rw [hsearching] at h'
        cases h'
        exact ⟨_, rfl, rfl, rfl, rfl, rfl, hgrows.right h.right, hgrows'.right h.right'⟩
      · rename_i h'
        rw [hsearching] at h'
        cases h'
    · rename_i r hplain
      rw [plain] at hplain
      rw [hplain] at hsame
      split
      · rename_i h'
        rw [hsame] at h'
        cases h'
      · rename_i h'
        rw [hsame] at h'
        cases h'
        rfl

/-- The rules of substitution, with a renamer or without, that look for a capture at every binder. -/
def searchingFor (env : Env V S) : Option (Renamer S) → Rules V S
  | none => searching env refuse
  | some rename => searching env (renameBinderSearching env rename)

end Walk

/-- The substitution of an environment, with a capture looked for at every binder among all free names of its body. -/
def Term.bindSearching (e : Term V S) (env : Env V S) (rename? : Option (Renamer S)) :
    Attempt S (Stop (TermError S)) (Term V S) :=
  Walk.run (Walk.searchingFor env rename?) ⟨[], Walk.Known.ofTerm env e, []⟩ e

theorem Walk.run_of_sameEnd {env : Env V S} {rules rules' : Rules V S} {st st' : State S} {e : Term V S}
    (h : SameEnd (SameTerm env) (drain rules [.visit e] st {}) (drain rules' [.visit e] st' {})) :
    run rules' st' e = run rules st e := by
  simp only [run]
  generalize drain rules [.visit e] st {} = out at h ⊢
  cases out with
  | ok built =>
    obtain ⟨built', hbuilt, hterm, halike⟩ := h
    simp only [hbuilt, hterm, halike.asked]
  | error r =>
    have hstopped : drain rules' [.visit e] st' {} = .error r := h
    rw [hstopped]

/-- With a renamer that honours its contract or without one, a substitution that passes over the binders that no
    replacement reaches is the one that looks at every binder: the result or error is the same, and the calls. -/
theorem Term.bindSearching_eq (e : Term V S) (env : Env V S) (rename? : Option (Renamer S))
    (hrename : ∀ rename, rename? = some rename → rename.Honours) :
    e.bindSearching env rename? = e.bind env rename? := by
  cases rename? with
  | none => exact Walk.run_of_sameEnd (Walk.drain_searching (Walk.refuse_renamesFresh env) (Walk.agree_refuse env) e)
  | some rename =>
    have hon := Walk.renameBinder_renamesFresh env (hrename rename rfl)
    exact Walk.run_of_sameEnd (Walk.drain_searching hon (Walk.agree_renameBinder env rename) e)

namespace Term

/-- Both binders are renamed, the inner one in the body that the renaming of the outer one made. -/
theorem bindSearching_eq_renames :
    (lam [0x79] (lam [0x7a] (app (var [0x78]) (var [0x79]))) : Term Nat Bytes).bindSearching
        [([0x78], app (var [0x79]) (var [0x7a]))] (some Renamer.primes) =
      (lam [0x79] (lam [0x7a] (app (var [0x78]) (var [0x79])))).bind
        [([0x78], app (var [0x79]) (var [0x7a]))] (some Renamer.primes) ∧
    ((lam [0x79] (lam [0x7a] (app (var [0x78]) (var [0x79]))) : Term Nat Bytes).bind
        [([0x78], app (var [0x79]) (var [0x7a]))] (some Renamer.primes)).result =
      .ok (lam [0x79, 0x27] (lam [0x7a, 0x27]
        (app (app (var [0x79]) (var [0x7a])) (var [0x79, 0x27])))) := by
  refine ⟨bindSearching_eq _ _ _ ?_, by decide +kernel⟩
  rintro rename ⟨⟩
  exact Renamer.primes_honours

/-- A renamer that chooses a name with a replacement brings in a free name that was not known before the walk: only
    the walk that looks at every binder finds its capture. -/
example :
    ((lam [0x79] (lam [0x7a] (app (var [0x78]) (var [0x79]))) : Term Nat Bytes).bindSearching
        [([0x78], var [0x79]), ([0x77], var [0x7a])] (some fun _ _ => ⟨[], .ok [0x77]⟩)).asked.length = 2 ∧
      ((lam [0x79] (lam [0x7a] (app (var [0x78]) (var [0x79]))) : Term Nat Bytes).bind
        [([0x78], var [0x79]), ([0x77], var [0x7a])] (some fun _ _ => ⟨[], .ok [0x77]⟩)).asked.length = 1 := by
  decide +kernel

end Term

end PostfixLambda
