import PostfixLambda.Text.Utf8

/-! The characters that separate words: white space and control characters. -/

namespace PostfixLambda.Text

/-- White space: the characters of the Unicode property of that name. -/
def isBlank (c : Char) : Bool :=
  let n := c.toNat
  (0x09 ≤ n && n ≤ 0x0D) || n = 0x20 || n = 0x85 || n = 0xA0 || n = 0x1680 || (0x2000 ≤ n && n ≤ 0x200A) ||
    n = 0x2028 || n = 0x2029 || n = 0x202F || n = 0x205F || n = 0x3000

/-- The control characters: C0, delete and C1. -/
def isControl (c : Char) : Bool :=
  let n := c.toNat
  n < 0x20 || (0x7F ≤ n && n ≤ 0x9F)

/-- Whether a text holds nothing but white space. -/
def isAllBlank (text : Bytes) : Bool := (Utf8.runes text).all fun r => isBlank r.char

/-- The maximal runs of runes that are not white space; `word` holds the bytes of the run under way, last one
    first. -/
def fieldsFrom (word : Bytes) : List Rune → List Bytes
  | [] => if word.isEmpty then [] else [word.reverse]
  | r :: rest =>
    if isBlank r.char then
      if word.isEmpty then fieldsFrom [] rest else word.reverse :: fieldsFrom [] rest
    else fieldsFrom (r.raw.reverse ++ word) rest

/-- The fields of a text: its maximal runs of runes that are not white space. -/
def fields (text : Bytes) : List Bytes := fieldsFrom [] (Utf8.runes text)

end PostfixLambda.Text
