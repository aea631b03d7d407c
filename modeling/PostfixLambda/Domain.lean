import PostfixLambda.Text.Bytes

/-! What the calculus asks of its constants and symbols. Both are open: a domain of constants says how a constant
    is shown and what applying one constant to another means; symbols need only be shown and told apart. -/

namespace PostfixLambda

/-- Things with a text form. -/
class Shown (α : Type) where
  text : α → Bytes

instance : Shown Bytes := ⟨id⟩

/-- What applying one constant to another comes to. -/
inductive Combined (V F : Type) where
  /-- The application has a value. -/
  | value (v : V)
  /-- The domain gives the pair no meaning. -/
  | fault (f : F)
  /-- The domain broke down with a message. -/
  | panic (message : Bytes)
  deriving DecidableEq, Repr

/-- How copying a constant breaks down: with a message, or not at all. Otherwise the copy is the constant. -/
abbrev Dup (V : Type) := V → Option Bytes

/-- Every constant can be copied. -/
def Dup.sound {V : Type} : Dup V := fun _ => none

/-- How a log function breaks down over a line: with a message, or not at all. Otherwise it has taken the line. -/
abbrev LogFunction := (line : Bytes) → Option Bytes

/-- Every line is taken. -/
def LogFunction.sound : LogFunction := fun _ => none

/-- What else a run calls of its host, besides the domain and a renamer. -/
structure Host (V : Type) where
  dup : Dup V
  log : LogFunction

/-- A host whose copies and log function never break down. -/
abbrev Host.sound {V : Type} : Host V := ⟨.sound, .sound⟩

/-- A domain of constants `V`, whose faults are `F`. -/
class Domain (V : Type) (F : outParam Type) extends Shown V where
  combine : (fn arg : V) → Combined V F
  faultText : F → Bytes

/-- How a computation that may call into a domain or a renamer stops short: with an error of its own, or because
    the callee broke down. -/
inductive Stop (E : Type) where
  | error (e : E)
  | panic (message : Bytes)
  deriving DecidableEq, Repr

/-- The same stop with another error. -/
def Stop.map {E E' : Type} (f : E → E') : Stop E → Stop E'
  | .error e => .error (f e)
  | .panic message => .panic message

end PostfixLambda
