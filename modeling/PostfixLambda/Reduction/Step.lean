import PostfixLambda.Reduction.Contract

/-! One step of normal order: the leftmost of the outermost redexes is contracted, and the result put back in its
    place. -/

namespace PostfixLambda

/-- The rule by which a redex is contracted. -/
inductive Rule where
  | beta
  | delta
  deriving DecidableEq, Repr

instance : Shown Rule where
  text
    | .beta => "beta"
    | .delta => "delta"

/-- How redexes are contracted: whether constants are applied to constants, and who renames binders. -/
structure Strategy (S : Type) where
  delta : Bool := false
  rename? : Option (Renamer S) := none

/-- A step: the rule, the redex, what it was contracted to, and the whole term with that in its place. -/
structure Contraction (V S : Type) where
  rule : Rule
  redex : Term V S
  reduct : Term V S
  whole : Term V S
  deriving DecidableEq, Repr

namespace Step

variable {V S F : Type} [DecidableEq S]

/-- One level of what surrounds a part of a term. -/
inductive Frame (V S : Type) where
  /-- The part is the function of an application. -/
  | fn (arg : Term V S)
  /-- The part is the argument of an application. -/
  | arg (fn : Term V S)
  /-- The part is the body of an abstraction. -/
  | body (binder : S)

/-- The term one level up. -/
def Frame.fill : Frame V S → Term V S → Term V S
  | fn a, e => .app e a
  | arg f, e => .app f e
  | body b, e => .lam b e

/-- The whole term around a part, the innermost level first. -/
def plug (path : List (Frame V S)) (e : Term V S) : Term V S := path.foldl (fun e frame => frame.fill e) e

/-- The rule that contracts the term itself. -/
def rule? (delta : Bool) : Term V S → Option Rule
  | .app (.lam _ _) _ => some .beta
  | .app (.const _) (.const _) => if delta then some .delta else none
  | _ => none

/-- Contracts a redex by its rule. -/
def contract [Domain V F] (strategy : Strategy S) (e : Term V S) (rule : Rule) (dup : Dup V := .sound) :
    Attempt S (Stop (ReduceError V S F)) (Term V S) :=
  match rule with
  | .beta => e.betaReduce strategy.rename? dup
  | .delta => ⟨[], e.deltaReduce dup⟩

/-- The number of nodes of all the parts. -/
def partsSize : List (Term V S × List (Frame V S)) → Nat
  | [] => 0
  | (e, _) :: rest => e.size + partsSize rest

/-- Looks for a redex in the parts, the first part first and outside before inside, and contracts it. -/
def search [Domain V F] (strategy : Strategy S) (parts : List (Term V S × List (Frame V S))) (dup : Dup V := .sound) :
    Attempt S (Stop (ReduceError V S F)) (Option (Contraction V S)) :=
  match parts with
  | [] => ⟨[], .ok none⟩
  | (e, path) :: rest =>
    match rule? strategy.delta e with
    | some rule =>
      let attempt := contract strategy e rule dup
      ⟨attempt.asked, attempt.result.map fun reduct => some ⟨rule, e, reduct, plug path reduct⟩⟩
    | none =>
      match e with
      | .app fn arg => search strategy ((fn, .fn arg :: path) :: (arg, .arg fn :: path) :: rest) dup
      | .lam binder body => search strategy ((body, .body binder :: path) :: rest) dup
      | .const _ => search strategy rest dup
      | .var _ => search strategy rest dup
      | .hole => ⟨[], .error (.error (.term .invalidTerm))⟩
termination_by partsSize parts
decreasing_by
  all_goals simp only [partsSize, Term.size]
  all_goals omega

end Step

/-- The first step from a term in normal order, if there is a redex. -/
def Term.step {V S F : Type} [DecidableEq S] [Domain V F] (strategy : Strategy S) (e : Term V S)
    (dup : Dup V := .sound) : Attempt S (Stop (ReduceError V S F)) (Option (Contraction V S)) :=
  Step.search strategy [(e, [])] dup

end PostfixLambda
