import PostfixLambda.Text.Integer

/-! Durations as text: decimal numbers with units, one after the other, under one sign. -/

namespace PostfixLambda.Text

/-- The nanoseconds that no part of a duration may exceed. -/
def spanLimit : Nat := 0x8000000000000000

/-- The modulus of a sum of nanoseconds, which is kept in 64 bits. -/
def spanModulus : Nat := 0x10000000000000000

/-- The nanoseconds of a unit. -/
def unitNanos? (unit : Bytes) : Option Nat :=
  let units : List (Bytes × Nat) :=
    [("ns", 1), ("us", 1000), ("µs", 1000), ("μs", 1000), ("ms", 1000000), ("s", 1000000000),
      ("m", 60000000000), ("h", 3600000000000)]
  (units.find? fun (name, _) => name = unit).map Prod.snd

/-- The digits after a point: their value, as far as 63 bits hold it, over the power of ten of as many places. -/
def readFraction : (value : Nat) → (scale : Float) → Bytes → Nat × Float
  | value, scale, [] => (value, scale)
  | value, scale, b :: rest =>
    let next := value * 10 + (b.toNat - 0x30)
    if value > (spanLimit - 1) / 10 || next > spanLimit then (value, scale) else readFraction next (scale * 10) rest

/-- The part of a unit that a fraction makes, cut down to whole nanoseconds. -/
def fractionNanos (value : Nat) (scale : Float) (unit : Nat) : Nat :=
  (value.toUInt64.toFloat * (unit.toUInt64.toFloat / scale)).toUInt64.toNat

/-- One number with its unit in nanoseconds, and what follows it. -/
def readSpan? (text : Bytes) : Option (Nat × Bytes) := do
  let whole := text.takeWhile Bytes.isDigit
  let afterWhole := text.dropWhile Bytes.isDigit
  let v : Nat := whole.foldl (fun n b => n * 10 + (b.toNat - 0x30)) 0
  guard (v ≤ spanLimit)
  let (fraction, afterFraction) :=
    match afterWhole with
    | 0x2E :: rest => (rest.takeWhile Bytes.isDigit, rest.dropWhile Bytes.isDigit)
    | rest => ([], rest)
  guard !(whole.isEmpty && fraction.isEmpty)
  let isUnitByte := fun b => !(b = 0x2E || Bytes.isDigit b)
  let unit ← unitNanos? (afterFraction.takeWhile isUnitByte)
  guard (v * unit ≤ spanLimit)
  let (f, scale) := readFraction 0 1 fraction
  let total := v * unit + (if f > 0 then fractionNanos f scale unit else 0)
  guard (total ≤ spanLimit)
  return (total, afterFraction.dropWhile isUnitByte)

/-- The sum of all numbers with units up to the end of the text. It is kept modulo `spanModulus`, so a second number at
    the limit brings it back to zero; any other sum beyond the limit is refused. Every number takes at least one byte,
    so `fuel` need not exceed the length of the text. -/
def readSpans? : (fuel sum : Nat) → Bytes → Option Nat
  | _, sum, [] => some sum
  | 0, _, _ :: _ => none
  | fuel + 1, sum, text => do
    let (n, rest) ← readSpan? text
    let sum' := (sum + n) % spanModulus
    guard (sum' ≤ spanLimit)
    readSpans? fuel sum' rest

/-- The nanoseconds that a text spells; zero needs no unit. -/
def readDuration? (text : Bytes) : Option Int := do
  let (negative, body) := readSign text
  if body = [0x30] then return 0
  guard !body.isEmpty
  let n ← readSpans? body.length 0 body
  if negative then return -n
  guard (n < spanLimit)
  return n

end PostfixLambda.Text
