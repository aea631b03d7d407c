import PostfixLambda.Domain

/-! Terms of the lambda calculus with constants. -/

namespace PostfixLambda

/-- A term over constants `V` and symbols `S`. -/
inductive Term (V S : Type) where
  /-- An abstraction. -/
  | lam (binder : S) (body : Term V S)
  /-- A constant. -/
  | const (value : V)
  /-- A variable: it refers to the nearest enclosing binder of its name, or is free. -/
  | var (name : S)
  /-- An application. -/
  | app (fn arg : Term V S)
  /-- A missing term: no program denotes it, and no operation accepts it. -/
  | hole
  deriving DecidableEq, Repr, Inhabited

namespace Term

variable {V S : Type}

/-- The number of nodes. -/
def size : Term V S → Nat
  | lam _ body => body.size + 1
  | app fn arg => fn.size + arg.size + 1
  | _ => 1

/-- The number of nodes of all the terms. -/
def totalSize : List (Term V S) → Nat
  | [] => 0
  | e :: rest => e.size + totalSize rest

/-- The text of a term in front of `rest`: every abstraction and application in parentheses. -/
def textOnto [Shown V] [Shown S] : Term V S → Bytes → Bytes
  | lam binder body, rest =>
    Bytes.ofString "(λ" ++ (Shown.text binder ++ (Bytes.ofString ". " ++ body.textOnto (0x29 :: rest)))
  | const v, rest => Shown.text v ++ rest
  | var s, rest => Shown.text s ++ rest
  | app fn arg, rest => 0x28 :: fn.textOnto (0x20 :: arg.textOnto (0x29 :: rest))
  | hole, rest => Bytes.ofString "<nil>" ++ rest

instance [Shown V] [Shown S] : Shown (Term V S) := ⟨fun e => e.textOnto []⟩

end Term

end PostfixLambda
