/-! Texts are byte strings: programs, names and messages may hold any bytes, and every length and limit counts
    bytes. Literals are written as strings and stand for their UTF-8 form. -/

namespace PostfixLambda

/-- A text: its bytes in order. -/
abbrev Bytes := List UInt8

namespace Bytes

/-- The UTF-8 form of one character. -/
def ofChar (c : Char) : Bytes := String.utf8EncodeChar c

/-- The UTF-8 form of a string. -/
def ofString (s : String) : Bytes := s.toList.flatMap ofChar

instance : Coe String Bytes := ⟨ofString⟩

/-- A blank. -/
def space : UInt8 := 0x20

/-- The byte that ends a line. -/
def lineFeed : UInt8 := 0x0A

/-- The texts one after the other, with `sep` between two neighbours. -/
def joinWith (sep : Bytes) : List Bytes → Bytes
  | [] => []
  | [t] => t
  | t :: u :: rest => t ++ sep ++ joinWith sep (u :: rest)

/-- The text without `mark` at its front, if it starts with it. -/
def dropMark? : (mark text : Bytes) → Option Bytes
  | [], text => some text
  | m :: mark, b :: text => if m = b then dropMark? mark text else none
  | _ :: _, [] => none

/-- The part before the first `b` and the part after it, if there is one. -/
def cut? (b : UInt8) : Bytes → Option (Bytes × Bytes)
  | [] => none
  | c :: rest => if c = b then some ([], rest) else (cut? b rest).map fun (front, back) => (c :: front, back)

/-- The parts between the occurrences of `b`: one more than there are occurrences. -/
def splitAt (b : UInt8) : Bytes → List Bytes
  | [] => [[]]
  | c :: rest =>
    match splitAt b rest with
    | part :: parts => if c = b then [] :: part :: parts else (c :: part) :: parts
    | [] => [[c]]

/-- The order of texts by their bytes. -/
def before : Bytes → Bytes → Bool
  | [], [] => false
  | [], _ :: _ => true
  | _ :: _, [] => false
  | a :: s, b :: t => a < b || (a = b && before s t)

/-! ### Classes of bytes -/

/-- A decimal digit. -/
def isDigit (b : UInt8) : Bool := 0x30 ≤ b && b ≤ 0x39

/-- An ASCII capital. -/
def isUpper (b : UInt8) : Bool := 0x41 ≤ b && b ≤ 0x5A

/-- An ASCII small letter. -/
def isLower (b : UInt8) : Bool := 0x61 ≤ b && b ≤ 0x7A

/-- The small form of an ASCII capital; every other byte stays. -/
def lower (b : UInt8) : UInt8 := if isUpper b then b + 0x20 else b

/-- The capital of an ASCII small letter; every other byte stays. -/
def upper (b : UInt8) : UInt8 := if isLower b then b - 0x20 else b

/-- A letter, digit or underscore of ASCII. -/
def isWordByte (b : UInt8) : Bool := isDigit b || isUpper b || isLower b || b = 0x5F

/-! ### Hexadecimal digits -/

/-- The digit of a value below sixteen, in small letters. -/
def hexDigit (n : Nat) : UInt8 :=
  if n < 10 then 0x30 + n.toUInt8 else 0x57 + n.toUInt8

/-- The value in `width` hexadecimal digits; higher digits are dropped. -/
def hex : (width value : Nat) → Bytes
  | 0, _ => []
  | width + 1, value => hex width (value / 16) ++ [hexDigit (value % 16)]

/-- The value of a hexadecimal digit in either case. -/
def hexValue? (b : UInt8) : Option Nat :=
  if isDigit b then some (b.toNat - 0x30)
  else if 0x61 ≤ lower b && lower b ≤ 0x66 then some ((lower b).toNat - 0x57)
  else none

end Bytes

end PostfixLambda
