import PostfixLambda.Term.Basic

/-! Environments: finitely many names, each bound to a term. -/

namespace PostfixLambda

/-- An environment: its bindings, of which the first of a name counts. -/
abbrev Env (V S : Type) := List (S × Term V S)

namespace Env

variable {V S : Type} [DecidableEq S]

/-- The term that a name is bound to. -/
def find? (env : Env V S) (s : S) : Option (Term V S) :=
  match env with
  | [] => none
  | (name, e) :: rest => if name = s then some e else find? rest s

/-- The environment with the name bound to the term, whatever it was bound to before. -/
def insert (env : Env V S) (s : S) (e : Term V S) : Env V S := (s, e) :: env.filter fun (name, _) => name ≠ s

/-- The names that are bound. -/
def names (env : Env V S) : List S := env.map Prod.fst

/-- The environment of a list of bindings, of which the last of a name counts. -/
def ofList (bindings : List (S × Term V S)) : Env V S :=
  bindings.foldl (fun env (s, e) => env.insert s e) []

end Env

end PostfixLambda
