import PostfixLambda.Text.Bytes

/-! Integers as text: decimal writing, strict decimal reading, and the reading of literals that may carry a base
    mark and digit separators. -/

namespace PostfixLambda.Text

/-! ### Writing -/

/-- The decimal digits of a natural number, without leading zeros. -/
def natural (n : Nat) : Bytes :=
  if n < 10 then [0x30 + n.toUInt8] else natural (n / 10) ++ [0x30 + (n % 10).toUInt8]

/-- The decimal text of an integer. -/
def integer (n : Int) : Bytes :=
  if n < 0 then 0x2D :: natural n.natAbs else natural n.natAbs

/-- The decimal text of a 64-bit integer. -/
def int64 (n : Int64) : Bytes := integer n.toInt

/-! ### Reading -/

/-- The value of a non-empty run of decimal digits. -/
def readNatural? (text : Bytes) : Option Nat :=
  if text.isEmpty || !text.all Bytes.isDigit then none
  else some (text.foldl (fun n b => n * 10 + (b.toNat - 0x30)) 0)

/-- A sign at the front: whether it is a minus, and what follows it. -/
def readSign : Bytes → Bool × Bytes
  | 0x2B :: rest => (false, rest)
  | 0x2D :: rest => (true, rest)
  | text => (false, text)

/-- A magnitude with a sign, if 64 bits hold it. -/
def signed64? (negative : Bool) (n : Nat) : Option Int64 :=
  if negative then (if n ≤ 0x8000000000000000 then some (Int64.ofInt (-n)) else none)
  else if n < 0x8000000000000000 then some (Int64.ofInt n) else none

/-- The 64-bit integer that a text spells: an optional sign, then decimal digits. -/
def readInt64? (text : Bytes) : Option Int64 := do
  let (negative, digits) := readSign text
  signed64? negative (← readNatural? digits)

/-! ### Literals with a base mark -/

/-- Why a text is no integer literal. -/
inductive LiteralError where
  | malformed
  | outOfRange
  deriving DecidableEq, Repr

/-- The base of an unsigned literal and its digits: `0x`, `0o` and `0b` with something after them, else a leading
    zero for octal. -/
def baseOf : Bytes → Nat × Bytes
  | 0x30 :: mark :: d :: rest =>
    if Bytes.lower mark = 0x78 then (16, d :: rest)
    else if Bytes.lower mark = 0x6F then (8, d :: rest)
    else if Bytes.lower mark = 0x62 then (2, d :: rest)
    else (8, mark :: d :: rest)
  | 0x30 :: rest => (8, rest)
  | text => (10, text)

/-- The value of a digit of any base up to thirty-six. -/
def digitValue? (b : UInt8) : Option Nat :=
  if Bytes.isDigit b then some (b.toNat - 0x30)
  else if Bytes.isLower (Bytes.lower b) then some ((Bytes.lower b).toNat - 0x57)
  else none

/-- The value of the digits, underscores skipped. The first digit that goes beyond 64 bits ends the reading. -/
def readDigits (base : Nat) : (acc : Nat) → Bytes → Except LiteralError Nat
  | acc, [] => .ok acc
  | acc, b :: rest =>
    if b = 0x5F then readDigits base acc rest
    else
      match digitValue? b with
      | none => .error .malformed
      | some d =>
        if base ≤ d then .error .malformed
        else if 0x10000000000000000 ≤ acc * base + d then .error .outOfRange
        else readDigits base (acc * base + d) rest

/-- What stands before a byte of a literal: a digit (a base mark counts as one), an underscore, or neither. -/
inductive Neighbour where
  | digit
  | underscore
  | other
  deriving DecidableEq, Repr

/-- Whether each underscore has a digit on both sides. -/
def separatorsFrom (isHex : Bool) : Neighbour → Bytes → Bool
  | last, [] => last ≠ .underscore
  | last, b :: rest =>
    if Bytes.isDigit b || (isHex && (Bytes.hexValue? b).isSome) then separatorsFrom isHex .digit rest
    else if b = 0x5F then last = .digit && separatorsFrom isHex .underscore rest
    else last ≠ .underscore && separatorsFrom isHex .other rest

/-- Whether the underscores of an unsigned literal separate digits. -/
def separatorsOk : Bytes → Bool
  | 0x30 :: mark :: rest =>
    if Bytes.lower mark = 0x78 then separatorsFrom true .digit rest
    else if Bytes.lower mark = 0x6F || Bytes.lower mark = 0x62 then separatorsFrom false .digit rest
    else separatorsFrom false .other (0x30 :: mark :: rest)
  | text => separatorsFrom false .other text

/-- The 64-bit integer that a literal spells. -/
def readLiteral (text : Bytes) : Except LiteralError Int64 := do
  let (negative, body) := readSign text
  if body.isEmpty then throw .malformed
  let (base, digits) := baseOf body
  let n ← readDigits base 0 digits
  if digits.contains 0x5F && !separatorsOk body then throw .malformed
  match signed64? negative n with
  | some value => return value
  | none => throw .outOfRange

end PostfixLambda.Text
