import PostfixLambda.Text.Quoted

/-! Control characters by name: mnemonics such as `<ESC>`, caret forms such as `^[`, and the rune literals that
    may use them. -/

namespace PostfixLambda.Text

/-- The mnemonics of the first thirty-two control characters, in order. -/
def mnemonics : List String :=
  ["NUL", "SOH", "STX", "ETX", "EOT", "ENQ", "ACK", "BEL", "BS", "HT", "NL", "VT", "NP", "CR", "SO", "SI",
    "DLE", "DC1", "DC2", "DC3", "DC4", "NAK", "SYN", "ETB", "CAN", "EM", "SUB", "ESC", "FS", "GS", "RS", "US"]

/-- The character of a 32-bit code, the replacement character if it has none. -/
def charOfCode (code : Int32) : Char :=
  if 0 ≤ code.toInt && code.toInt.toNat.isValidChar then Char.ofNat code.toInt.toNat else Char.ofNat 0xFFFD

/-- The caret form of a control code: the character with its seventh bit turned, after a caret. -/
def caretForm? (code : Int32) : Option Bytes :=
  if code < 0x20 || code = 0x7F then some (0x5E :: Bytes.ofChar (charOfCode (code ^^^ 0x40))) else none

/-- The words for one named code: the mnemonic in both cases, and the caret form. -/
def wordsFor (name : Bytes) (code : Nat) : List (Bytes × Nat) :=
  [([0x3C] ++ name ++ [0x3E], code), ([0x3C] ++ name.map Bytes.lower ++ [0x3E], code)] ++
    match caretForm? (Int32.ofNat code) with
    | some caret => [(caret, code)]
    | none => []

/-- The words that name a code: the control characters, space and delete. -/
def controlWords : List (Bytes × Nat) :=
  (mnemonics.zipIdx.flatMap fun (name, code) => wordsFor name code) ++ wordsFor "SP" 0x20 ++ wordsFor "DEL" 0x7F

/-- The code that a control word names. -/
def controlCode? (word : Bytes) : Option Nat :=
  (controlWords.find? fun (name, _) => name = word).map Prod.snd

/-! ### Rune literals -/

/-- Why a word is no rune literal. -/
inductive RuneError where
  /-- It has none of the three forms, or more than one character between the quotes. -/
  | badForm
  /-- What stands between the quotes is not one character. -/
  | badQuoted
  deriving DecidableEq, Repr

/-- The text of a rune error. -/
def RuneError.message : RuneError → Bytes
  | .badForm => "rune literal must be \"^X\" \"<NAME>\" or 'X'"
  | .badQuoted => "invalid syntax"

/-- The code that a rune literal stands for: a control word, or one character between single quotes. -/
def readRune (word : Bytes) : Except RuneError Nat :=
  match controlCode? word with
  | some code => .ok code
  | none =>
    if word.length < 3 || word.head? ≠ some 0x27 || word.getLast? ≠ some 0x27 then .error .badForm
    else
      match readQuotedChar? word.tail.dropLast with
      | none => .error .badQuoted
      | some (code, []) => .ok code
      | some (_, _ :: _) => .error .badForm

end PostfixLambda.Text
