import PostfixLambda.Substitution.Basic

/-! The two rules of reduction, each for one redex: an abstraction applied to a term, and a constant applied to a
    constant. -/

namespace PostfixLambda

/-- Why a term cannot be reduced. -/
inductive ReduceError (V S F : Type) where
  /-- A substitution failed, or there is a hole where a redex is looked for. -/
  | term (e : TermError S)
  /-- The term is no redex of the rule. -/
  | notReducible (e : Term V S)
  /-- The domain gives the application of `fn` to `arg` no meaning. -/
  | combine (fn arg : V) (fault : F)
  deriving DecidableEq, Repr

/-- The text of a reduction error. -/
def ReduceError.message {V S F : Type} [Domain V F] [Shown S] : ReduceError V S F → Bytes
  | term e => e.message
  | notReducible e => "not reducible: " ++ Shown.text e
  | combine fn arg fault =>
    "cannot combine " ++ Shown.text fn ++ " with " ++ Shown.text arg ++ ": " ++ Domain.faultText V fault

namespace Term

variable {V S F : Type} [DecidableEq S]

/-- The beta rule: an abstraction applied to a term is its body with the term for its binder. -/
def betaReduce (e : Term V S) (rename? : Option (Renamer S)) (dup : Dup V := .sound) :
    Attempt S (Stop (ReduceError V S F)) (Term V S) :=
  match e with
  | .app (.lam binder body) arg =>
    let attempt := body.substitute binder arg rename? dup
    ⟨attempt.asked, attempt.result.mapError (Stop.map .term)⟩
  | _ => ⟨[], .error (.error (.notReducible e))⟩

/-- The delta rule: a constant applied to a constant is what the domain combines copies of them to. -/
def deltaReduce [Domain V F] (e : Term V S) (dup : Dup V := .sound) : Except (Stop (ReduceError V S F)) (Term V S) :=
  match e with
  | .app (.const fn) (.const arg) =>
    match (dup fn).or (dup arg) with
    | some message => .error (.panic message)
    | none =>
      match Domain.combine fn arg with
      | .value v => .ok (.const v)
      | .fault fault => .error (.error (.combine fn arg fault))
      | .panic message => .error (.panic message)
  | _ => .error (.error (.notReducible e))

end Term

end PostfixLambda
