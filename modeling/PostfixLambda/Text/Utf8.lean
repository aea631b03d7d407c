import PostfixLambda.Text.Bytes

/-! Texts as characters. Reading never fails: a byte that no well-formed UTF-8 sequence can hold at its place
    reads as one replacement character, and the bytes after it are read afresh. -/

namespace PostfixLambda

/-- One character read from a text, with the bytes it was read from. -/
structure Rune where
  char : Char
  raw : Bytes
  deriving DecidableEq, Repr

namespace Rune

/-- A byte that starts no well-formed sequence reads as U+FFFD. -/
def malformed (b : UInt8) : Rune := ⟨Char.ofNat 0xFFFD, [b]⟩

/-- The number of bytes that the rune was read from. -/
def size (r : Rune) : Nat := r.raw.length

/-- Whether the rune's bytes are the UTF-8 form of its character. -/
def isWellFormed (r : Rune) : Bool := r.raw.length ≠ 1 || r.char.toNat < 0x80

end Rune

namespace Utf8

/-- A byte that continues a sequence. -/
def isTail (b : UInt8) : Bool := 0x80 ≤ b && b ≤ 0xBF

/-- The six value bits of a continuation byte. -/
def tailBits (b : UInt8) : Nat := b.toNat % 64

/-- The second bytes that may follow a first byte: no overlong form, no surrogate, nothing above U+10FFFF. -/
def mayFollow (first second : UInt8) : Bool :=
  if first = 0xE0 then 0xA0 ≤ second && second ≤ 0xBF
  else if first = 0xED then 0x80 ≤ second && second ≤ 0x9F
  else if first = 0xF0 then 0x90 ≤ second && second ≤ 0xBF
  else if first = 0xF4 then 0x80 ≤ second && second ≤ 0x8F
  else isTail second

/-- The rune at the front of the text `b :: rest`. -/
def first (b : UInt8) (rest : Bytes) : Rune :=
  if b < 0x80 then ⟨Char.ofNat b.toNat, [b]⟩
  else if 0xC2 ≤ b && b ≤ 0xDF then
    match rest with
    | t :: _ => if mayFollow b t then ⟨Char.ofNat (b.toNat % 32 * 64 + tailBits t), [b, t]⟩ else .malformed b
    | _ => .malformed b
  else if 0xE0 ≤ b && b ≤ 0xEF then
    match rest with
    | t :: u :: _ =>
      if mayFollow b t && isTail u then
        ⟨Char.ofNat (b.toNat % 16 * 4096 + tailBits t * 64 + tailBits u), [b, t, u]⟩
      else .malformed b
    | _ => .malformed b
  else if 0xF0 ≤ b && b ≤ 0xF4 then
    match rest with
    | t :: u :: v :: _ =>
      if mayFollow b t && isTail u && isTail v then
        ⟨Char.ofNat (b.toNat % 8 * 262144 + tailBits t * 4096 + tailBits u * 64 + tailBits v), [b, t, u, v]⟩
      else .malformed b
    | _ => .malformed b
  else .malformed b

/-- The text as runes. -/
def runes : Bytes → List Rune
  | [] => []
  | b :: rest =>
    let r := first b rest
    r :: runes (rest.drop (r.size - 1))
termination_by bytes => bytes.length
decreasing_by
  simp only [List.length_drop, List.length_cons]
  omega

/-- The characters of the text. -/
def chars (text : Bytes) : List Char := (runes text).map Rune.char

/-- The text of a list of characters. -/
def encode (cs : List Char) : Bytes := cs.flatMap Bytes.ofChar

/-- Whether the text is well-formed UTF-8. -/
def isValid (text : Bytes) : Bool := (runes text).all Rune.isWellFormed

end Utf8

end PostfixLambda
