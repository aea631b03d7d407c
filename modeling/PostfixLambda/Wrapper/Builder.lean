import PostfixLambda.Text.Blank

/-! Builder methods of test cases, and the free functions that wrap them. A method that starts with `expect` or `with`
    and takes and returns a test case is wrapped in a function from its parameters to a function on test cases. -/

namespace PostfixLambda.Wrapper

/-- A builder method: its receiver, the name of its test case without the ending, the two parts of its own name, and its
    parameters as they are written. -/
structure Builder where
  receiver : Bytes
  case : Bytes
  base : Bytes
  what : Bytes
  params : Bytes
  deriving DecidableEq, Repr

/-- The ending of the names of test cases. -/
def caseEnding : Bytes := "TestCase"

/-! ### Reading -/

/-- The word at the front of a text, and what follows it. -/
def readWord? (text : Bytes) : Option (Bytes × Bytes) :=
  match text.takeWhile Bytes.isWordByte with
  | [] => none
  | word => some (word, text.dropWhile Bytes.isWordByte)

/-- The word of a test case without its ending. -/
def caseOf? (word : Bytes) : Option Bytes :=
  let n := word.length - caseEnding.length
  if 0 < n && word.drop n = caseEnding then some (word.take n) else none

/-- The two parts of a builder method's name. -/
def methodOf? (word : Bytes) : Option (Bytes × Bytes) :=
  let part? (base : Bytes) : Option (Bytes × Bytes) :=
    match Bytes.dropMark? base word with
    | some (b :: what) => some (base, b :: what)
    | _ => none
  part? "expect" <|> part? "with"

/-- What follows the parameters: the test case that is returned, and the start of the body. -/
def returned? (text : Bytes) : Option Bytes := do
  let (word, rest) ← readWord? (← Bytes.dropMark? " " text)
  let case ← caseOf? word
  let _ ← Bytes.dropMark? " \x7b" rest
  return case

/-- The parameters, at least one byte of them and as few as can be, and the test case that is returned; `taken` are the
    bytes before, the last one first. -/
def readParams? (taken : Bytes) : Bytes → Option (Bytes × Bytes)
  | [] => none
  | b :: rest =>
    match if b = 0x29 && !taken.isEmpty then returned? rest else none with
    | some case => some (taken.reverse, case)
    | none => readParams? (b :: taken) rest

/-- The builder method that a line begins, with the test case that it returns. -/
def readBuilder? (line : Bytes) : Option (Builder × Bytes) := do
  let (receiver, rest) ← readWord? (← Bytes.dropMark? "func (" line)
  let (word, rest) ← readWord? (← Bytes.dropMark? " " rest)
  let case ← caseOf? word
  let (method, rest) ← readWord? (← Bytes.dropMark? ") " rest)
  let (base, what) ← methodOf? method
  let (params, returned) ← readParams? [] (← Bytes.dropMark? "(" rest)
  return (⟨receiver, case, base, what, params⟩, returned)

/-- The name in a package clause. -/
def readPackage? (line : Bytes) : Option Bytes := do
  let (word, _) ← readWord? (← Bytes.dropMark? "package " line)
  return word

/-! ### Writing -/

/-- What is passed on for one parameter: its name, and the mark of a variadic one. A parameter without a name cannot be
    passed on. -/
def argumentOf? (param : Bytes) : Option Bytes :=
  match Text.fields param with
  | [] => none
  | [name] => some name
  | name :: type :: _ => some (if (Bytes.dropMark? "..." type).isSome then name ++ "..." else name)

/-- What is passed on for all parameters, which commas separate. -/
def argumentsOf? (params : Bytes) : Option Bytes := do
  return Bytes.joinWith ", " (← (Bytes.splitAt 0x2C params).mapM argumentOf?)

/-- The name with a capital in front. -/
def capitalized : Bytes → Bytes
  | [] => []
  | b :: rest => Bytes.upper b :: rest

/-- The function that wraps a builder method. -/
def wrapper? (m : Builder) : Option Bytes := do
  let type := m.case ++ caseEnding
  let arguments ← argumentsOf? m.params
  return Bytes.ofString "func " ++ m.base ++ capitalized m.case ++ m.what ++ "(" ++ m.params ++ ") func(" ++ type ++
    ") " ++ type ++ " \x7b\n\treturn func(" ++ m.receiver ++ " " ++ type ++ ") " ++ type ++ " \x7b\n\t\treturn " ++
    m.receiver ++ "." ++ m.base ++ m.what ++ "(" ++ arguments ++ ")\n\t\x7d\n\x7d\n\n"

end PostfixLambda.Wrapper
