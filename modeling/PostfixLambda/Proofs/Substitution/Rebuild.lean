import PostfixLambda.Proofs.Term.Whole
import PostfixLambda.Substitution.Basic

/-! The walk as a recursion on the term. What a walk emits for a part of its agenda stands on top of the operands when
    the part is done, so the marks always find the operands that they need (`drain_visit`): a walk fails only by its
    rules or at a hole, and what it emits is the term that `rebuild` builds. -/

namespace PostfixLambda.Walk

variable {V S : Type} [DecidableEq S]

/-- What is carried on after a scope: the name that its binder suspended, if any, is suspended once less. -/
def State.leave (st : State S) : (suspended : Option S) → State S
  | some s => { st with shadow := st.shadow.erase s }
  | none => st

/-- The calls of a renamer that a walk knows of when it ends, whether it comes to a term or is stopped. -/
def callsAtEnd : Except (Refusal S) (Term V S × State S) → List (Call S)
  | .ok (_, st) => st.asked
  | .error r => r.asked

/-- The term that the rules make of a term, by recursion on it. A scope that is entered may have another body, but one
    of the same size. -/
def rebuild (rules : Rules V S) (st : State S) (e : Term V S) : Except (Refusal S) (Term V S × State S) :=
  match e with
  | .const v =>
    match rules.dup v with
    | none => .ok (.const v, st)
    | some message => .error ⟨.panic message, st.asked⟩
  | .var s =>
    match rules.leaf st s with
    | .ok r => .ok (r, st)
    | .error r => .error r
  | .app fn arg =>
    match rebuild rules st fn with
    | .error r => .error r
    | .ok (fn', st₁) =>
      match rebuild rules st₁ arg with
      | .error r => .error r
      | .ok (arg', st₂) => .ok (.app fn' arg', st₂)
  | .lam b body =>
    match rules.enter st b body with
    | .error r => .error r
    | .ok scope =>
      match rebuild rules scope.state scope.inner with
      | .error r => .error r
      | .ok (inner, st') => .ok (.lam scope.binder inner, st'.leave scope.suspended)
  | .hole => .error ⟨.error .invalidTerm, st.asked⟩
termination_by e.size
decreasing_by
  all_goals simp only [Term.size, Scope.size_eq]
  all_goals omega

section Rebuild

variable {rules : Rules V S} {st : State S}

theorem rebuild_const {v : V} (h : rules.dup v = none) : rebuild rules st (.const v) = .ok (.const v, st) := by
  rw [rebuild, h]

theorem rebuild_var {s : S} {r : Term V S} (h : rules.leaf st s = .ok r) : rebuild rules st (.var s) = .ok (r, st) := by
  rw [rebuild, h]

theorem rebuild_app {fn arg fn' arg' : Term V S} {st₁ st₂ : State S} (hfn : rebuild rules st fn = .ok (fn', st₁))
    (harg : rebuild rules st₁ arg = .ok (arg', st₂)) :
    rebuild rules st (.app fn arg) = .ok (.app fn' arg', st₂) := by
  rw [rebuild, hfn]
  simp only [harg]

theorem rebuild_lam {b : S} {body inner : Term V S} {scope : Scope body} {st' : State S}
    (henter : rules.enter st b body = .ok scope) (hinner : rebuild rules scope.state scope.inner = .ok (inner, st')) :
    rebuild rules st (.lam b body) = .ok (.lam scope.binder inner, st'.leave scope.suspended) := by
  rw [rebuild, henter]
  simp only [hinner]

end Rebuild

/-! ### The agenda -/

theorem drain_nil (rules : Rules V S) (st : State S) (e : Term V S) :
    drain rules [] st (Parser.put {} e) = .ok (e, st) := by
  rw [drain]
  rfl

theorem drain_cons (rules : Rules V S) (t : Task V S) (rest : List (Task V S)) (st : State S) (out : Parser V S) :
    drain rules (t :: rest) st out =
      match advance rules st out t with
      | .ok (left, st', out') => drain rules (left ++ rest) st' out'
      | .error r => .error r := by
  rw [drain]
  split
  · rename_i h
    rw [h]
  · rename_i h
    rw [h]

theorem drain_apply (rules : Rules V S) (rest : List (Task V S)) (st : State S) (out : Parser V S)
    (fn arg : Term V S) :
    drain rules (.apply :: rest) st ((out.put fn).put arg) = drain rules rest st (out.put (.app fn arg)) := by
  rw [drain_cons]
  rfl

theorem drain_close (rules : Rules V S) (suspended : Option S) (rest : List (Task V S)) (st : State S)
    (out : Parser V S) (b : S) (body : Term V S) :
    drain rules (.close suspended :: rest) st ((out.put (.var b)).put body) =
      drain rules rest (st.leave suspended) (out.put (.lam b body)) := by
  rw [drain_cons]
  cases suspended <;> rfl

/-- A part that is visited is emitted as `rebuild` builds it, on top of what was emitted before. -/
theorem drain_visit (rules : Rules V S) (e : Term V S) (rest : List (Task V S)) (st : State S) (out : Parser V S) :
    drain rules (.visit e :: rest) st out =
      match rebuild rules st e with
      | .ok (e', st') => drain rules rest st' (out.put e')
      | .error r => .error r := by
  -- The parts of an application or a scope go on the agenda in front of their mark, which then finds both emitted.
  fun_induction rebuild rules st e generalizing rest out with
  | case1 st v hdup =>
    rw [drain_cons]
    simp only [advance, hdup, List.nil_append]
  | case2 st v message hdup =>
    rw [drain_cons]
    simp only [advance, hdup]
  | case3 st s r hr =>
    rw [drain_cons]
    simp only [advance, hr, List.nil_append]
  | case4 st s r hr =>
    rw [drain_cons]
    simp only [advance, hr]
  | case5 st fn arg r hfn ihfn =>
    rw [drain_cons]
    simp only [advance, List.cons_append, List.nil_append]
    rw [ihfn, hfn]
  | case6 st fn arg fn' st₁ hfn r harg ihfn iharg =>
    rw [drain_cons]
    simp only [advance, List.cons_append, List.nil_append]
    rw [ihfn, hfn]
    simp only
    rw [iharg, harg]
  | case7 st fn arg fn' st₁ hfn arg' st₂ harg ihfn iharg =>
    rw [drain_cons]
    simp only [advance, List.cons_append, List.nil_append]
    rw [ihfn, hfn]
    simp only
    rw [iharg, harg]
    exact drain_apply rules rest st₂ out fn' arg'
  | case8 st b body r henter =>
    rw [drain_cons]
    simp only [advance, henter]
  | case9 st b body scope henter r hinner ih =>
    rw [drain_cons]
    simp only [advance, henter, List.cons_append, List.nil_append]
    rw [ih, hinner]
  | case10 st b body scope henter inner st' hinner ih =>
    rw [drain_cons]
    simp only [advance, henter, List.cons_append, List.nil_append]
    rw [ih, hinner]
    exact drain_close rules scope.suspended rest st' out scope.binder inner
  | case11 st =>
    rw [drain_cons]
    rfl

theorem drain_eq_rebuild (rules : Rules V S) (st : State S) (e : Term V S) :
    drain rules [.visit e] st {} = rebuild rules st e := by
  rw [drain_visit]
  cases h : rebuild rules st e with
  | error r => rfl
  | ok built => exact drain_nil rules built.2 built.1

theorem run_result_of_rebuild {rules : Rules V S} {st st' : State S} {e e' : Term V S}
    (h : rebuild rules st e = .ok (e', st')) : (run rules st e).result = .ok e' := by
  rw [run, drain_eq_rebuild, h]

/-! ### What the rules keep -/

/-- If the rules put whole terms in the place of variables, what they build is whole. -/
theorem whole_of_rebuild {rules : Rules V S} (hleaf : ∀ st s r, rules.leaf st s = .ok r → r.Whole) {st st' : State S}
    {e e' : Term V S} (h : rebuild rules st e = .ok (e', st')) : e'.Whole := by
  fun_induction rebuild rules st e generalizing e' st' with
  | case1 st v =>
    cases h
    exact Term.whole_const
  | case3 st s r hr =>
    cases h
    exact hleaf st s _ hr
  | case7 st fn arg fn' st₁ hfn arg' st₂ harg ihfn iharg =>
    cases h
    exact ⟨ihfn hfn, iharg harg⟩
  | case10 st b body scope henter inner st₁ hinner ih =>
    cases h
    exact Term.whole_lam.mpr (ih hinner)
  | case2 | case4 | case5 | case6 | case8 | case9 | case11 => cases h

/-! ### Copying -/

theorem rebuild_copying {e : Term V S} (h : e.Whole) (st : State S) : rebuild copying st e = .ok (e, st) := by
  induction e generalizing st with
  | const v => exact rebuild_const rfl
  | var s => exact rebuild_var rfl
  | hole => exact absurd h Term.not_whole_hole
  | app fn arg ihfn iharg => exact rebuild_app (ihfn h.1 st) (iharg h.2 st)
  | lam b body ih =>
    have henter : copying.enter st b body = .ok ⟨b, body, none, st, rfl⟩ := rfl
    exact rebuild_lam henter (ih h st)

end PostfixLambda.Walk

namespace PostfixLambda.Term

variable {V S : Type} [DecidableEq S]

theorem copy_of_whole {e : Term V S} (h : e.Whole) : e.copy = .ok e :=
  Walk.run_result_of_rebuild (Walk.rebuild_copying h {})

end PostfixLambda.Term
