import PostfixLambda.Proofs.Nameless.Basic
import PostfixLambda.Reduction.Contract

/-! Reduction of nameless terms. A redex is an abstraction applied to a term or, with the delta rule, a constant applied
    to a constant. Normal order contracts the first redex from outside and from the left. -/

namespace PostfixLambda.Nameless

variable {V S F : Type}

/-! ### Redexes -/

/-- The term itself is a redex. -/
def isRedex (delta : Bool) : Nameless V S → Bool
  | app (lam _) _ => true
  | app (const _) (const _) => delta
  | _ => false

/-- No part of the term is a redex. -/
def Normal (delta : Bool) : Nameless V S → Prop
  | app fn arg => (app fn arg).isRedex delta = false ∧ fn.Normal delta ∧ arg.Normal delta
  | lam body => body.Normal delta
  | ref _ | const _ | hole => True

/-- The first redex in normal order, and what surrounds it: outside before inside, the function of an application before
    its argument. -/
def first? (delta : Bool) : Nameless V S → Option (Nameless V S × (Nameless V S → Nameless V S))
  | app fn arg =>
    if (app fn arg).isRedex delta then some (app fn arg, id)
    else
      match fn.first? delta with
      | some (redex, around) => some (redex, fun t => app (around t) arg)
      | none => (arg.first? delta).map fun (redex, around) => (redex, fun t => app fn (around t))
  | lam body => (body.first? delta).map fun (redex, around) => (redex, fun t => lam (around t))
  | ref _ | const _ | hole => none

/-- How the application of one constant to another fails. -/
def CombineFails [Domain V F] (fn arg : V) (failure : Stop (ReduceError V S F)) : Prop :=
  (∃ fault, Domain.combine fn arg = .fault fault ∧ failure = .error (.combine fn arg fault)) ∨
    ∃ message, Domain.combine fn arg = .panic message ∧ failure = .panic message

/-- Contracts a redex; what is none stays as it is. -/
def contract [Domain V F] : Nameless V S → Except (Stop (ReduceError V S F)) (Nameless V S)
  | app (lam body) arg => .ok (body.instantiate arg)
  | app (const fn) (const arg) =>
    match Domain.combine fn arg with
    | .value v => .ok (const v)
    | .fault fault => .error (.error (.combine fn arg fault))
    | .panic message => .error (.panic message)
  | t => .ok t

/-- The step of normal order: the first redex is contracted in its place. There is none without a redex. -/
def leftmost? [Domain V F] (delta : Bool) (t : Nameless V S) :
    Option (Except (Stop (ReduceError V S F)) (Nameless V S)) :=
  (t.first? delta).map fun (redex, around) => redex.contract.map around

theorem first?_eq_none_iff {delta : Bool} {t : Nameless V S} : t.first? delta = none ↔ t.Normal delta := by
  induction t with
  | ref r => simp [first?, Normal]
  | const v => simp [first?, Normal]
  | hole => simp [first?, Normal]
  | lam body ih => simpa [first?, Normal] using ih
  | app fn arg ihfn iharg =>
    simp only [first?, Normal]
    cases hr : (app fn arg).isRedex delta with
    | true => simp
    | false =>
      cases hfn : fn.first? delta with
      | some split => simp [← ihfn, hfn]
      | none => simp [← ihfn, ← iharg, hfn]

section Leftmost

variable [Domain V F] {delta : Bool}

theorem leftmost?_eq_none_iff {t : Nameless V S} : t.leftmost? delta = none ↔ t.Normal delta := by
  rw [leftmost?, Option.map_eq_none_iff, first?_eq_none_iff]

theorem leftmost?_of_isRedex {fn arg : Nameless V S} (h : (app fn arg).isRedex delta = true) :
    (app fn arg).leftmost? delta = some (app fn arg).contract := by
  simp only [leftmost?, first?, h, if_true, Option.map_some]
  cases (app fn arg).contract <;> rfl

/-- Without a redex at the root, the function of an application comes first. -/
theorem leftmost?_app {fn arg : Nameless V S} (h : (app fn arg).isRedex delta = false) :
    (app fn arg).leftmost? delta =
      match fn.leftmost? delta with
      | some outcome => some (outcome.map fun t => app t arg)
      | none => (arg.leftmost? delta).map fun outcome => outcome.map (app fn) := by
  simp only [leftmost?, first?, h]
  cases fn.first? delta with
  | some split =>
    obtain ⟨redex, around⟩ := split
    simp only [Bool.false_eq_true, if_false, Option.map_some]
    cases redex.contract <;> rfl
  | none =>
    cases arg.first? delta with
    | none => rfl
    | some split =>
      obtain ⟨redex, around⟩ := split
      simp only [Bool.false_eq_true, if_false, Option.map_some, Option.map_none]
      cases redex.contract <;> rfl

theorem leftmost?_lam {body : Nameless V S} :
    (lam body).leftmost? delta = (body.leftmost? delta).map fun outcome => outcome.map lam := by
  simp only [leftmost?, first?]
  cases body.first? delta with
  | none => rfl
  | some split =>
    obtain ⟨redex, around⟩ := split
    simp only [Option.map_some]
    cases redex.contract <;> rfl

theorem contract_const_eq_error_iff {fn arg : V} {failure : Stop (ReduceError V S F)} :
    (app (const fn) (const arg) : Nameless V S).contract = .error failure ↔ CombineFails fn arg failure := by
  simp only [contract, CombineFails]
  cases Domain.combine fn arg <;> simp [eq_comm]

theorem contract_eq_error_iff {t : Nameless V S} {failure : Stop (ReduceError V S F)} :
    t.contract = .error failure ↔ ∃ fn arg, t = app (const fn) (const arg) ∧ CombineFails fn arg failure := by
  constructor
  · intro h
    unfold contract at h
    split at h
    · cases h
    · exact ⟨_, _, rfl, contract_const_eq_error_iff.mp h⟩
    · cases h
  · rintro ⟨fn, arg, rfl, hfails⟩
    exact contract_const_eq_error_iff.mpr hfails

/-- A step of normal order fails exactly when its redex is an application of constants that the domain refuses. -/
theorem leftmost?_eq_error_iff {t : Nameless V S} {failure : Stop (ReduceError V S F)} :
    t.leftmost? delta = some (.error failure) ↔
      ∃ fn arg around, t.first? delta = some (app (const fn) (const arg), around) ∧ CombineFails fn arg failure := by
  simp only [leftmost?, Option.map_eq_some_iff, Prod.exists]
  constructor
  · rintro ⟨redex, around, hfirst, hcontract⟩
    cases hc : redex.contract with
    | ok t =>
      rw [hc] at hcontract
      cases hcontract
    | error failure' =>
      rw [hc] at hcontract
      cases hcontract
      obtain ⟨fn, arg, rfl, hfails⟩ := contract_eq_error_iff.mp hc
      exact ⟨fn, arg, around, hfirst, hfails⟩
  · rintro ⟨fn, arg, around, hfirst, hfails⟩
    refine ⟨_, around, hfirst, ?_⟩
    rw [contract_eq_error_iff.mpr ⟨fn, arg, rfl, hfails⟩]
    rfl

end Leftmost

end PostfixLambda.Nameless
