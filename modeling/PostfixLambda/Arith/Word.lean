import PostfixLambda.Arith.Value
import PostfixLambda.Term.Parser
import PostfixLambda.Text.Blank
import PostfixLambda.Text.Control

/-! Programs as words, one for each token: marks, primitives, integers, rune literals, and all other words as
    identifiers. -/

namespace PostfixLambda.Arith

/-- Tokens over arithmetic constants and textual symbols. -/
abbrev Token := PostfixLambda.Token Value Bytes

/-- Terms over arithmetic constants and textual symbols. -/
abbrev Term := PostfixLambda.Term Value Bytes

/-- Why a word is no token. -/
inductive WordError where
  | empty
  | badRune (word : Bytes) (cause : Text.RuneError)
  deriving DecidableEq, Repr

/-- The text of a word error. -/
def WordError.message : WordError → Bytes
  | empty => "empty word"
  | badRune word cause => "invalid rune literal " ++ Text.quote word ++ ": " ++ cause.message

/-- The words of the marks and the primitives. -/
def fixedWords : List (Bytes × Token) :=
  [([0x5C], .lambda), ([0xCE, 0xBB], .lambda), ([0x40], .apply), ([0x2B], .const (.prim .add)),
    ([0x2D], .const (.prim .sub)), ([0x2A], .const (.prim .mul)), ([0x2F], .const (.prim .div))]

/-- Whether a word is meant as a rune literal: by a leading quote, angle brackets around something, or a caret before
    something. -/
def isRuneWord (word : Bytes) : Bool :=
  match word with
  | 0x27 :: _ => true
  | 0x3C :: _ => word.getLast? = some 0x3E && word.length > 2
  | 0x5E :: _ => word.length > 1
  | _ => false

/-- The token that a word stands for. -/
def readWord (word : Bytes) : Except WordError Token :=
  if word.isEmpty then .error .empty
  else
    match fixedWords.find? fun (name, _) => name = word with
    | some (_, token) => .ok token
    | none =>
      match Text.readInt64? word with
      | some n => .ok (.const (.int n))
      | none =>
        if isRuneWord word then
          match Text.readRune word with
          | .ok code => .ok (.const (.int (Int64.ofNat code)))
          | .error cause => .error (.badRune word cause)
        else .ok (.ident word)

/-- The tokens that the words stand for, or the error of the first word that is none. -/
def readWords (words : List Bytes) : Except WordError (List Token) := words.mapM readWord

/-- Why a text is no program. -/
inductive ReadError where
  | word (e : WordError)
  | parse (e : ParseError)
  deriving DecidableEq, Repr

/-- The text of a read error. -/
def ReadError.message : ReadError → Bytes
  | word e => e.message
  | parse e => e.message

/-- The term of a program given as one text. -/
def parse (program : Bytes) : Except ReadError Term :=
  match readWords (Text.fields program) with
  | .error e => .error (.word e)
  | .ok tokens =>
    match PostfixLambda.Term.parse tokens with
    | .ok e => .ok e
    | .error e => .error (.parse e)

/-- A token as words. A partial application is spelled out as applications of its primitive. -/
def formatToken (token : Token) : Bytes :=
  match token with
  | .const v =>
    if v.args.isEmpty then Shown.text v
    else Shown.text v.op ++ v.args.flatMap fun arg => [0x20] ++ Text.int64 arg ++ [0x20, 0x40]
  | _ => Shown.text token

/-- Tokens as words, with blanks between them. -/
def format (tokens : List Token) : Bytes := Bytes.joinWith [0x20] (tokens.map formatToken)

end PostfixLambda.Arith
