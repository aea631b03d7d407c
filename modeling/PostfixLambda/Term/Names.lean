import PostfixLambda.Term.Basic

/-! The names of a term: those that occur free, and all of them. Both are collected by a walk over the parts that
    are still to be visited, the function of an application before its argument. -/

namespace PostfixLambda.Term

variable {V S : Type}

/-! ### Free names -/

/-- A stop of the walk: a part to enter, or the end of a scope of the binder. -/
inductive Visit (V S : Type) where
  | enter (e : Term V S)
  | leave (binder : S)

/-- The work that a stop stands for. -/
def Visit.weight : Visit V S → Nat
  | enter e => 2 * e.size
  | leave _ => 1

/-- The work that all stops stand for. -/
def visitsWeight : List (Visit V S) → Nat
  | [] => 0
  | visit :: rest => visit.weight + visitsWeight rest

/-- The free occurrences among the parts to visit, after those found so far, which are held last one first;
    `bound` are the binders whose scopes the walk is in, each as often as it has been entered and not left. -/
def freeOccurrencesFrom [DecidableEq S] : List (Visit V S) → (bound found : List S) → List S
  | [], _, found => found.reverse
  | .leave b :: rest, bound, found => freeOccurrencesFrom rest (bound.erase b) found
  | .enter (.var s) :: rest, bound, found =>
    freeOccurrencesFrom rest bound (if s ∈ bound then found else s :: found)
  | .enter (.lam b body) :: rest, bound, found =>
    freeOccurrencesFrom (.enter body :: .leave b :: rest) (b :: bound) found
  | .enter (.app fn arg) :: rest, bound, found => freeOccurrencesFrom (.enter fn :: .enter arg :: rest) bound found
  | .enter (.const _) :: rest, bound, found => freeOccurrencesFrom rest bound found
  | .enter .hole :: rest, bound, found => freeOccurrencesFrom rest bound found
termination_by visits => visitsWeight visits
decreasing_by
  all_goals simp only [visitsWeight, Visit.weight, size]
  all_goals omega

/-- The symbols that occur free in a term, each once, in the order of their first free occurrence. That order is the one
    of the library that takes the repetitions out: of equal symbols it keeps the first and leaves the rest in place, as
    `eraseDups` does. -/
def freeVars [DecidableEq S] (e : Term V S) : List S := (freeOccurrencesFrom [.enter e] [] []).eraseDups

/-- Whether a symbol occurs free in a term. The library looks for it by equality, as `contains` does. -/
def isFree [DecidableEq S] (e : Term V S) (s : S) : Bool := e.freeVars.contains s

/-! ### All names -/

/-- The symbols of the terms, bound or free, before those found so far. -/
def symbolsOnto : List (Term V S) → (found : List S) → List S
  | [], found => found
  | .var s :: rest, found => symbolsOnto rest (s :: found)
  | .lam b body :: rest, found => symbolsOnto (body :: rest) (b :: found)
  | .app fn arg :: rest, found => symbolsOnto (fn :: arg :: rest) found
  | .const _ :: rest, found => symbolsOnto rest found
  | .hole :: rest, found => symbolsOnto rest found
termination_by terms => totalSize terms
decreasing_by
  all_goals simp only [totalSize, size]
  all_goals omega

/-- The symbols of a term, bound or free. -/
def symbols (e : Term V S) : List S := symbolsOnto [e] []

end PostfixLambda.Term
