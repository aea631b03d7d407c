import PostfixLambda.Text.Printable
import PostfixLambda.Text.Utf8

/-! Quoted text: how messages show a text that may hold anything, and how one character is read from between
    single quotes. -/

namespace PostfixLambda.Text

/-! ### Writing -/

/-- The letter that stands for a control character after a backslash, if it has one. -/
def escapeLetter? : Nat → Option UInt8
  | 0x07 => some 0x61
  | 0x08 => some 0x62
  | 0x0C => some 0x66
  | 0x0A => some 0x6E
  | 0x0D => some 0x72
  | 0x09 => some 0x74
  | 0x0B => some 0x76
  | _ => none

/-- A character that is not shown as itself: by its letter, in two hexadecimal digits below delete, in four up to
    U+FFFF and in eight above. -/
def escapeCode (n : Nat) : Bytes :=
  match escapeLetter? n with
  | some letter => [0x5C, letter]
  | none =>
    if n < 0x20 || n = 0x7F then [0x5C, 0x78] ++ Bytes.hex 2 n
    else if n < 0x10000 then [0x5C, 0x75] ++ Bytes.hex 4 n
    else [0x5C, 0x55] ++ Bytes.hex 8 n

/-- One rune inside double quotes. A malformed byte is written in hexadecimal, so that the bytes can be told. -/
def quoteRune (r : Rune) : Bytes :=
  if !r.isWellFormed then [0x5C, 0x78] ++ r.raw.flatMap fun b => Bytes.hex 2 b.toNat
  else if r.char = '"' || r.char = '\\' then 0x5C :: r.raw
  else if isPrintable r.char then r.raw
  else escapeCode r.char.toNat

/-- The text between double quotes. -/
def quote (text : Bytes) : Bytes := [0x22] ++ (Utf8.runes text).flatMap quoteRune ++ [0x22]

/-- One character between single quotes; a code that no character has shows as the replacement character. -/
def quoteCode (code : Int) : Bytes :=
  let c := if 0 ≤ code && code.toNat.isValidChar then Char.ofNat code.toNat else Char.ofNat 0xFFFD
  let shown :=
    if c = '\'' || c = '\\' then 0x5C :: Bytes.ofChar c
    else if isPrintable c then Bytes.ofChar c
    else escapeCode c.toNat
  [0x27] ++ shown ++ [0x27]

/-! ### Reading one character -/

/-- The value of `digits`, all of which must be hexadecimal. -/
def hexNumber? (digits : Bytes) : Option Nat :=
  digits.foldl (fun acc b => do return (← acc) * 16 + (← Bytes.hexValue? b)) (some 0)

/-- The value of an octal digit. -/
def octalValue? (b : UInt8) : Option Nat :=
  if 0x30 ≤ b && b ≤ 0x37 then some (b.toNat - 0x30) else none

/-- `width` hexadecimal digits at the front, and what follows them. -/
def readHex? (width : Nat) (text : Bytes) : Option (Nat × Bytes) :=
  if text.length < width then none else (hexNumber? (text.take width)).map fun n => (n, text.drop width)

/-- A code point that is a character. -/
def scalar? (n : Nat) : Option Nat := if n.isValidChar then some n else none

/-- The character that an escape names, after its backslash, and what follows it. -/
def readEscape? : Bytes → Option (Nat × Bytes)
  | [] => none
  | 0x61 :: rest => some (0x07, rest)
  | 0x62 :: rest => some (0x08, rest)
  | 0x66 :: rest => some (0x0C, rest)
  | 0x6E :: rest => some (0x0A, rest)
  | 0x72 :: rest => some (0x0D, rest)
  | 0x74 :: rest => some (0x09, rest)
  | 0x76 :: rest => some (0x0B, rest)
  | 0x78 :: rest => readHex? 2 rest
  | 0x75 :: rest => do
    let (n, tail) ← readHex? 4 rest
    return (← scalar? n, tail)
  | 0x55 :: rest => do
    let (n, tail) ← readHex? 8 rest
    return (← scalar? n, tail)
  | 0x5C :: rest => some (0x5C, rest)
  | 0x27 :: rest => some (0x27, rest)
  | a :: b :: c :: rest => do
    let n := (← octalValue? a) * 64 + (← octalValue? b) * 8 + (← octalValue? c)
    if n > 255 then none else return (n, rest)
  | _ => none

/-- The character at the front of a text between single quotes, and what follows it; a bare single quote is no
    character. -/
def readQuotedChar? : Bytes → Option (Nat × Bytes)
  | [] => none
  | b :: rest =>
    if b = 0x27 then none
    else if b = 0x5C then readEscape? rest
    else
      let r := Utf8.first b rest
      some (r.char.toNat, rest.drop (r.size - 1))

end PostfixLambda.Text
