import PostfixLambda.Text.Collected

/-! Logging by lines: whatever is written is cut at line feeds, and each line is logged once it is complete. -/

namespace PostfixLambda

/-- What was written of the line under way. -/
structure LineLog where
  held : Collected := .empty
  deriving DecidableEq, Repr

namespace LineLog

/-- Cuts the bytes at line feeds: the lines completed, after those given, which are held last one first, and the line
    then under way. -/
def cut : (held : Collected) → (lines : List Bytes) → Bytes → Collected × List Bytes
  | held, lines, [] => (held, lines.reverse)
  | held, lines, b :: rest =>
    if b = Bytes.lineFeed then cut .empty (held.toBytes :: lines) rest else cut (held.push b) lines rest

/-- Takes bytes, and logs the lines that they complete. -/
def write (log : LineLog) (p : Bytes) : LineLog × List Bytes :=
  let (held, lines) := cut log.held [] p
  (⟨held⟩, lines)

/-- Logs the line under way, unless it is empty. -/
def close (log : LineLog) : LineLog × List Bytes :=
  (⟨.empty⟩, if log.held.isEmpty then [] else [log.held.toBytes])

end LineLog

end PostfixLambda
