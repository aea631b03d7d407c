import PostfixLambda.Text.Integer
import PostfixLambda.Text.Quoted

/-! Message templates: `%v`, `%s` and `%d` show the next argument, `%q` shows it quoted, `%%` is a percent
    sign. -/

namespace PostfixLambda.Text

/-- What a template may show. -/
inductive Argument where
  | text (t : Bytes)
  | number (n : Int)
  deriving DecidableEq, Repr

/-- The plain text of an argument. -/
def Argument.plain : Argument → Bytes
  | .text t => t
  | .number n => integer n

/-- An argument between quotes: a text, or the character that a number is the code of. -/
def Argument.quoted : Argument → Bytes
  | .text t => quote t
  | .number n => quoteCode n

/-- The template with each mark replaced by its argument, in order. -/
def fill : (template : Bytes) → List Argument → Bytes
  | [], _ => []
  | 0x25 :: 0x25 :: rest, args => 0x25 :: fill rest args
  | 0x25 :: mark :: rest, arg :: args =>
    (if mark = 0x71 then arg.quoted else arg.plain) ++ fill rest args
  | b :: rest, args => b :: fill rest args

/-- A message: the template itself when there is nothing to show in it. -/
def message (template : Bytes) (args : List Argument) : Bytes :=
  if args.isEmpty then template else fill template args

end PostfixLambda.Text
