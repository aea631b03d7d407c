import PostfixLambda.Term.Basic
import PostfixLambda.Text.Integer

/-! Postfix tokens, and a term as the sequence of tokens that builds it. -/

namespace PostfixLambda

/-- One element of a postfix program. -/
inductive Token (V S : Type) where
  /-- Pushes a variable. -/
  | ident (name : S)
  /-- Pushes a constant. -/
  | const (value : V)
  /-- Pops a body and then a binder, pushes their abstraction. -/
  | lambda
  /-- Pops an argument and then a function, pushes their application. -/
  | apply
  /-- A token of no known kind. -/
  | unknown (kind : UInt8)
  deriving DecidableEq, Repr

namespace Token

variable {V S : Type}

/-- The name of a token's kind. -/
def kindText : Token V S → Bytes
  | ident _ => "ident"
  | const _ => "const"
  | lambda => "lambda"
  | apply => "apply"
  | unknown kind => "TokenKind(" ++ Text.natural kind.toNat ++ ")"

instance [Shown V] [Shown S] : Shown (Token V S) where
  text
    | ident s => Shown.text s
    | const v => Shown.text v
    | lambda => [0x5C]
    | apply => [0x40]
    | t@(unknown _) => "<invalid " ++ t.kindText ++ ">"

end Token

namespace Term

variable {V S : Type}

/-- What is left to write of a term: parts of it, and the marks that follow their parts. -/
inductive Pending (V S : Type) where
  | part (e : Term V S)
  | mark (t : Token V S)

/-- The work that a pending item stands for. -/
def Pending.weight : Pending V S → Nat
  | part e => 2 * e.size
  | mark _ => 1

/-- The work that all pending items stand for. -/
def pendingWeight : List (Pending V S) → Nat
  | [] => 0
  | item :: rest => item.weight + pendingWeight rest

/-- Writes what is pending after the tokens written so far, which are held last one first. A hole writes
    nothing. -/
def encodeOnto : List (Pending V S) → List (Token V S) → List (Token V S)
  | [], written => written.reverse
  | .mark t :: rest, written => encodeOnto rest (t :: written)
  | .part (.const v) :: rest, written => encodeOnto rest (.const v :: written)
  | .part (.var s) :: rest, written => encodeOnto rest (.ident s :: written)
  | .part (.lam b body) :: rest, written => encodeOnto (.part body :: .mark .lambda :: rest) (.ident b :: written)
  | .part (.app fn arg) :: rest, written => encodeOnto (.part fn :: .part arg :: .mark .apply :: rest) written
  | .part .hole :: rest, written => encodeOnto rest written
termination_by pending => pendingWeight pending
decreasing_by
  all_goals simp only [pendingWeight, Pending.weight, size]
  all_goals omega

/-- The postfix tokens of a term. -/
def encode (e : Term V S) : List (Token V S) := encodeOnto [.part e] []

end Term

end PostfixLambda
