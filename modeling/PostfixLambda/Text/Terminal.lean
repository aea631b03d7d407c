import PostfixLambda.Text.Utf8

/-! Text that is safe to send to a terminal: no eight-bit control character is left in it. -/

namespace PostfixLambda.Text

/-- One character for a terminal: next-line as carriage return and line feed, any other C1 control in its
    seven-bit escape form, all else in UTF-8. -/
def terminalChar (c : Char) : Bytes :=
  let n := c.toNat
  if n = 0x85 then [0x0D, 0x0A]
  else if 0x80 ≤ n && n ≤ 0x9F then [0x1B, n.toUInt8 ^^^ 0xC0]
  else Bytes.ofChar c

/-- The pieces in which a text is sent to a terminal, one for each character. -/
def terminalPieces (text : Bytes) : List Bytes := (Utf8.chars text).map terminalChar

end PostfixLambda.Text
