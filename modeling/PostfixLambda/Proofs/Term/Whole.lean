import PostfixLambda.Term.Basic

/-! Whole terms: those without a hole. Programs denote whole terms, and every operation that builds a term anew
    gives one. -/

namespace PostfixLambda.Term

variable {V S : Type}

/-- The term has no hole. -/
def Whole : Term V S → Prop
  | lam _ body => body.Whole
  | app fn arg => fn.Whole ∧ arg.Whole
  | const _ | var _ => True
  | hole => False

/-- Wholeness is decided along the term. -/
def decideWhole : (e : Term V S) → Decidable e.Whole
  | lam _ body => decideWhole body
  | app fn arg =>
    match decideWhole fn, decideWhole arg with
    | .isTrue hfn, .isTrue harg => .isTrue ⟨hfn, harg⟩
    | .isFalse hfn, _ => .isFalse fun h => hfn h.1
    | _, .isFalse harg => .isFalse fun h => harg h.2
  | const _ => .isTrue trivial
  | var _ => .isTrue trivial
  | hole => .isFalse id

instance (e : Term V S) : Decidable e.Whole := decideWhole e

@[simp] theorem whole_lam {b : S} {body : Term V S} : (lam b body).Whole ↔ body.Whole := Iff.rfl
@[simp] theorem whole_app {fn arg : Term V S} : (app fn arg).Whole ↔ fn.Whole ∧ arg.Whole := Iff.rfl
@[simp] theorem whole_const {v : V} : (const v : Term V S).Whole := trivial
@[simp] theorem whole_var {s : S} : (var s : Term V S).Whole := trivial
@[simp] theorem not_whole_hole : ¬(hole : Term V S).Whole := id

end PostfixLambda.Term
