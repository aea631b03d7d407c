import PostfixLambda.Text.Integer

/-! Recovery: a function that panics or exits is turned into one that returns an error. The errors keep how they
    came about, so that a recovered panic can be told from an error returned. -/

namespace PostfixLambda

/-- An error as a caller sees it, over errors `E` of the function's own. -/
inductive Fault (E : Type) where
  /-- An error that was returned. -/
  | returned (e : E)
  /-- An error with a context put in front. -/
  | wrapped (context : Bytes) (inner : Fault E)
  /-- A recovered panic whose value, here its text, is no error. -/
  | panicked (name value : Bytes)
  /-- A recovered panic whose value is an error. -/
  | panickedWith (name : Bytes) (inner : Fault E)
  /-- A recovered exit. -/
  | exited (name : Bytes)
  deriving DecidableEq, Repr

/-- How a function ends. -/
inductive Ending (E : Type) where
  /-- It returns, without an error or with one. -/
  | returned (error? : Option (Fault E))
  /-- It panics with a value that is no error. -/
  | panicked (value : Bytes)
  /-- It panics with an error. -/
  | panickedWith (error : Fault E)
  /-- It ends its thread without returning. -/
  | exited
  deriving DecidableEq, Repr

namespace Fault

variable {E : Type}

/-- A label in front of what happened, if there is one. -/
def labelled (name : Bytes) (text : String) : Bytes :=
  if name.isEmpty then text else name ++ " " ++ Bytes.ofString text

/-- The text of an error, given that of the errors of the function's own. -/
def message (own : E → Bytes) : Fault E → Bytes
  | returned e => own e
  | wrapped context inner => context ++ ": " ++ inner.message own
  | panicked name value => labelled name "panicked: " ++ value
  | panickedWith name inner => labelled name "panicked: " ++ inner.message own
  | exited name => if name.isEmpty then "runtime.Goexit called" else name ++ " called runtime.Goexit"

/-- The error that an error wraps, if any. -/
def unwrap? : Fault E → Option (Fault E)
  | wrapped _ inner => some inner
  | panickedWith _ inner => some inner
  | returned _ | panicked _ _ | exited _ => none

/-- Whether the error itself is a recovered panic. -/
def isOwnPanic : Fault E → Bool
  | panicked _ _ | panickedWith _ _ => true
  | returned _ | wrapped _ _ | exited _ => false

/-- Whether the error is, or wraps, a recovered panic. -/
def isPanic : Fault E → Bool
  | panicked _ _ | panickedWith _ _ => true
  | wrapped _ inner => inner.isPanic
  | returned _ | exited _ => false

/-- The stack trace that a recovered panic carries, as it is shown: where a panic came from is not told. -/
def stackTrace : Bytes := "<stack>"

/-- Whether the error is, or wraps, a recovered exit. -/
def isExit : Fault E → Bool
  | exited _ => true
  | wrapped _ inner => inner.isExit
  | panickedWith _ inner => inner.isExit
  | returned _ | panicked _ _ => false

end Fault

/-- The error of a function run under recovery; panics and exits carry the name. -/
def recover {E : Type} (name : Bytes) : Ending E → Option (Fault E)
  | .returned error? => error?
  | .panicked value => some (.panicked name value)
  | .panickedWith error => some (.panickedWith name error)
  | .exited => some (.exited name)

/-! ### Behaviours -/

/-- Failures of the machine that make a function panic with an error. -/
inductive Breakdown where
  /-- A panic without a value. -/
  | nilPanic
  /-- Reading one past the end of a sequence of that length. -/
  | pastEnd (length : Nat)
  /-- Making a sequence of a length that there is none of. -/
  | badLength
  /-- Dividing an integer by zero. -/
  | divideByZero
  /-- Looking into a value that is missing. -/
  | missingValue
  deriving DecidableEq, Repr

/-- Reading one past the end of a sequence that is first made, of that length. -/
def Breakdown.ofLength (length : Int) : Breakdown := if length < 0 then badLength else pastEnd length.toNat

/-- The text of a breakdown. -/
def Breakdown.message : Breakdown → Bytes
  | nilPanic => "runtime error: panic called with nil argument"
  | pastEnd length =>
    "runtime error: index out of range [" ++ Text.natural (length + 1) ++ "] with length " ++ Text.natural length
  | badLength => "runtime error: makeslice: len out of range"
  | divideByZero => "runtime error: integer divide by zero"
  | missingValue => "runtime error: invalid memory address or nil pointer dereference"

/-- What a function run under recovery may do. -/
inductive Behaviour where
  /-- Returns no error. -/
  | succeed
  /-- Returns an error. -/
  | fail (message : Bytes)
  /-- Panics with a value that is no error. -/
  | panic (value : Bytes)
  /-- Panics with an error. -/
  | panicWith (message : Bytes)
  /-- Breaks down. -/
  | breakDown (b : Breakdown)
  /-- Ends its thread. -/
  | exit
  /-- Returns the error of another function under recovery. -/
  | nest (name : Bytes) (inner : Behaviour)
  /-- Puts a context in front of the error that another function returns. -/
  | wrap (context : Bytes) (inner : Behaviour)
  /-- Panics with the error of another function under recovery. -/
  | repanic (name : Bytes) (inner : Behaviour)
  deriving DecidableEq, Repr, Inhabited

/-- How a behaviour ends. -/
def Behaviour.run : Behaviour → Ending Bytes
  | succeed => .returned none
  | fail message => .returned (some (.returned message))
  | panic value => .panicked value
  | panicWith message => .panickedWith (.returned message)
  | breakDown b => .panickedWith (.returned b.message)
  | exit => .exited
  | nest name inner => .returned (recover name inner.run)
  | wrap context inner =>
    match inner.run with
    | .returned error? => .returned (error?.map (.wrapped context))
    | ending => ending
  | repanic name inner =>
    match recover name inner.run with
    | some error => .panickedWith error
    | none => .panickedWith (.returned Breakdown.nilPanic.message)

end PostfixLambda
