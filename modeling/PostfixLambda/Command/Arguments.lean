import PostfixLambda.Text.Integer
import PostfixLambda.Text.Quoted

/-! Arguments of a command. A flag is written with one or two dashes; its value follows an equals sign, or is the next
    argument unless the flag is a switch. Two dashes alone end the flags, and so does the first argument that is no
    flag. -/

namespace PostfixLambda.Command

/-- Why the arguments are refused. -/
inductive FlagError where
  | help
  | badSyntax (arg : Bytes)
  | undefined (name : Bytes)
  | missingValue (name : Bytes)
  | badSwitch (value name : Bytes)
  | badValue (value name : Bytes) (cause : Text.LiteralError)
  deriving DecidableEq, Repr

/-- The text of a flag error; a call for help has none. -/
def FlagError.message : FlagError → Bytes
  | help => []
  | badSyntax arg => "bad flag syntax: " ++ arg
  | undefined name => "flag provided but not defined: -" ++ name
  | missingValue name => "flag needs an argument: -" ++ name
  | badSwitch value name => "invalid boolean value " ++ Text.quote value ++ " for -" ++ name ++ ": parse error"
  | badValue value name cause =>
    "invalid value " ++ Text.quote value ++ " for flag -" ++ name ++ ": " ++
      (match cause with
        | .malformed => Bytes.ofString "parse error"
        | .outOfRange => Bytes.ofString "value out of range")

/-- The value of a switch. -/
def readSwitch? (value : Bytes) : Option Bool :=
  let yes : List Bytes := ["1", "t", "T", "TRUE", "true", "True"]
  let no : List Bytes := ["0", "f", "F", "FALSE", "false", "False"]
  if value ∈ yes then some true else if value ∈ no then some false else none

/-- A flag that changes an `α`: a switch, or something that takes a value. -/
inductive Flag (α : Type) where
  | switch (set : α → Bool → α)
  | valued (set : α → Bytes → Except Text.LiteralError α)

/-- The name and the value in a flag's text, which has no dashes any more. -/
def splitFlag (text : Bytes) : Bytes × Option Bytes :=
  match Bytes.cut? 0x3D text with
  | some (name, value) => (name, some value)
  | none => (text, none)

/-- The text of a flag without its dashes: none for an argument that is no flag. -/
def flagText? : Bytes → Option Bytes
  | 0x2D :: 0x2D :: text => some text
  | 0x2D :: b :: text => some (b :: text)
  | _ => none

/-- Reads flags up to the first argument that is none, and hands out the arguments from there. -/
def readFlags {α : Type} (flagNamed? : Bytes → Option (Flag α)) (f : α) :
    List Bytes → Except FlagError (α × List Bytes)
  | [] => .ok (f, [])
  | arg :: rest =>
    match flagText? arg with
    | none => .ok (f, arg :: rest)
    | some [] => .ok (f, rest)
    | some (b :: text) =>
      if b = 0x2D || b = 0x3D then .error (.badSyntax arg)
      else
        let (name, value?) := splitFlag (b :: text)
        match flagNamed? name with
        | none => if name = "help" || name = "h" then .error .help else .error (.undefined name)
        | some (.switch set) =>
          match value? with
          | none => readFlags flagNamed? (set f true) rest
          | some value =>
            match readSwitch? value with
            | some on => readFlags flagNamed? (set f on) rest
            | none => .error (.badSwitch value name)
        | some (.valued set) =>
          match value? with
          | some value =>
            match set f value with
            | .ok f' => readFlags flagNamed? f' rest
            | .error cause => .error (.badValue value name cause)
          | none =>
            match rest with
            | [] => .error (.missingValue name)
            | value :: rest' =>
              match set f value with
              | .ok f' => readFlags flagNamed? f' rest'
              | .error cause => .error (.badValue value name cause)

end PostfixLambda.Command
