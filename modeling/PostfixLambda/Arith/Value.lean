import PostfixLambda.Domain
import PostfixLambda.Text.Integer

/-! The domain of 64-bit integers and arithmetic primitives. A primitive takes its operands one by one: applied to
    the first it is a partial application, applied to the second it has a value. Arithmetic wraps around. -/

namespace PostfixLambda.Arith

/-- What a constant is: an integer, or one of the primitives. -/
inductive Op where
  | int
  | add
  | sub
  | mul
  | div
  /-- A number that no primitive has. -/
  | other (number : UInt8)
  deriving DecidableEq, Repr

instance : Shown Op where
  text
    | .int => "int"
    | .add => "+"
    | .sub => "-"
    | .mul => "*"
    | .div => "/"
    | .other number => "Op(" ++ Text.natural number.toNat ++ ")"

/-- A constant: an integer `n`, or a primitive applied to `args`. -/
structure Value where
  op : Op
  n : Int64 := 0
  args : List Int64 := []
  deriving DecidableEq, Repr

namespace Value

/-- An integer. -/
def int (n : Int64) : Value := ⟨.int, n, []⟩

/-- A primitive without operands. -/
def prim (op : Op) : Value := ⟨op, 0, []⟩

instance : Shown Value where
  text v :=
    if v.op = .int then Text.int64 v.n
    else if v.args.isEmpty then Shown.text v.op
    else [0x28] ++ Shown.text v.op ++ v.args.flatMap (fun arg => 0x20 :: Text.int64 arg) ++ [0x29]

/-- Why one constant cannot be applied to another. -/
inductive Fault where
  | notCallable (fn : Value)
  | notANumber (op : Op) (arg : Value)
  | divideByZero
  | invalidOp (op : Op)
  deriving DecidableEq, Repr

/-- The text of a fault. -/
def Fault.message : Fault → Bytes
  | notCallable fn => Shown.text fn ++ " not callable"
  | notANumber op arg => Shown.text op ++ " argument " ++ Shown.text arg ++ " not a number"
  | divideByZero => "divide by zero"
  | invalidOp op => "invalid " ++ Shown.text op

/-- The value of a primitive on two operands. -/
def evaluate (op : Op) (a b : Int64) : Combined Value Fault :=
  match op with
  | .add => .value (int (a + b))
  | .sub => .value (int (a - b))
  | .mul => .value (int (a * b))
  | .div => if b = 0 then .fault .divideByZero else .value (int (a / b))
  | .int | .other _ => .fault (.invalidOp op)

/-- Applies a primitive to an integer. -/
def combine (fn arg : Value) : Combined Value Fault :=
  if fn.op = .int then .fault (.notCallable fn)
  else if arg.op ≠ .int then .fault (.notANumber fn.op arg)
  else
    match fn.args ++ [arg.n] with
    | a :: b :: _ => evaluate fn.op a b
    | args => .value ⟨fn.op, 0, args⟩

instance : Domain Value Fault where
  combine := combine
  faultText := Fault.message

end Value

end PostfixLambda.Arith
