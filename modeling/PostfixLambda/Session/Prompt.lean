import PostfixLambda.Session.Basic

/-! The prompt loop: a session fed line by line. A program is evaluated as soon as it is a single term, defines a name,
    or is ended; otherwise the next line continues it.

    The lines come from a line editor, which is a library of its own. What is taken from it here is how it behaves where
    its input is no terminal: how it cuts the input into lines, and how it keeps, reads and writes its history. Nothing
    else of the loop depends on it, and no editing is modelled. -/

namespace PostfixLambda

/-- A prompt is answered by a line, or aborted. -/
inductive Answer where
  | line (text : Bytes)
  | aborted
  deriving DecidableEq, Repr

/-- A prompt loop: its session, the number of the next prompt, and the history, the latest line first. -/
structure Prompter where
  session : Session
  number : Nat := 1
  history : List Bytes := []

namespace Prompter

/-- The prompt: another one while a program is under way. -/
def prompt (p : Prompter) : Bytes := if p.session.pending then ".. " else "λ> "

/-- The lines that a history of the line editor keeps. -/
def historyLimit : Nat := 1000

/-- A history with one more line at its end. -/
def addLine (history : List Bytes) (line : Bytes) : List Bytes := (line :: history).take historyLimit

/-- Remembers a line, which the line editor does unless it repeats the one before. -/
def remember (history : List Bytes) (line : Bytes) : List Bytes :=
  if history.head? = some line then history else addLine history line

/-- The name of the source that a line is. -/
def sourceName (number : Nat) : Bytes := "<repl " ++ Text.natural number ++ ">"

/-- Ends what a line may end: a program that failed is dropped, one that is a single term or defines a name is
    finished. -/
def settle (s : Session) (fuel : Nat) (outer? : Option Interruption) : Option Session :=
  if s.failed then some s.reset
  else if s.parser.depth = 1 || s.define?.isSome then s.finish fuel outer?
  else some s

/-- Takes the answer to a prompt. -/
def takeAnswer (p : Prompter) (fuel : Nat) (outer? : Option Interruption) :
    Answer → Option (Prompter × Option SessionError)
  | .aborted => some ({ p with session := p.session.reset, number := p.number + 1 }, none)
  | .line text =>
    if Text.isAllBlank text then some ({ p with number := p.number + 1 }, none)
    else do
      let history := remember p.history text
      let (s, _, error?) ← p.session.feed fuel outer? {} [.given (.named (sourceName p.number) text)]
      if error?.isSome then return ({ p with session := s, history := history }, error?)
      let (s, error?) := (← settle s fuel outer?).flush
      return (⟨s, p.number + 1, history⟩, error?)

/-- Shows the prompt at the first sink, past all buffers. -/
def showPrompt (p : Prompter) : Prompter :=
  { p with session := { p.session with out := p.session.out.writePast 0 p.prompt } }

/-- Asks until the answers are used up, or the session stops. -/
def run (p : Prompter) (fuel : Nat) (outer? : Option Interruption) :
    List Answer → Option (Prompter × Option SessionError)
  | [] =>
    let p := p.showPrompt
    let (s, error?) := p.session.flush
    some ({ p with session := s }, error?)
  | answer :: rest => do
    let (p, error?) ← p.showPrompt.takeAnswer fuel outer? answer
    if error?.isSome then return (p, error?)
    p.run fuel outer? rest

end Prompter

/-! ### Lines of the line editor -/

/-- The bytes that the line editor looks at for the end of a line. -/
def lineCapacity : Nat := 4096

/-- One line at the front of a text that is not empty, whether the text has more of it, and what follows. A line ends
    in a line feed, or a carriage return and a line feed. A line that does not fit comes in pieces; a piece does not end
    in a carriage return that may belong to its end. -/
def takeLine (text : Bytes) : Bytes × Bool × Bytes :=
  let front := text.take lineCapacity
  match Bytes.cut? Bytes.lineFeed front with
  | some (line, _) =>
    let line' := if line.getLast? = some 0x0D then line.dropLast else line
    (line', false, text.drop (line.length + 1))
  | none =>
    if front.length < lineCapacity then (text, false, [])
    else if front.getLast? = some 0x0D then (front.dropLast, true, text.drop (lineCapacity - 1))
    else (front, true, text.drop lineCapacity)

/-- The lines of a text with whether each is only a piece, at most `fuel` of them. -/
def linesWithin : (fuel : Nat) → Bytes → List (Bytes × Bool)
  | 0, _ => []
  | _, [] => []
  | fuel + 1, text =>
    let (line, isPiece, rest) := takeLine text
    (line, isPiece) :: linesWithin fuel rest

/-- The lines of a text, long ones in pieces. Every line takes at least one byte. -/
def linePieces (text : Bytes) : List (Bytes × Bool) := linesWithin text.length text

/-- The lines that answer the prompts. -/
def answersOf (text : Bytes) : List Answer := (linePieces text).map fun (line, _) => .line line

/-- The history, the latest line first, that the line editor reads from a text: its lines up to one that is too long or
    not UTF-8. -/
def historyOf (text : Bytes) : List Bytes :=
  let lines := (linePieces text).takeWhile fun (line, isPiece) => !isPiece && Utf8.isValid line
  lines.foldl (fun history (line, _) => Prompter.addLine history line) []

/-- The text that the line editor writes for a history. -/
def historyText (history : List Bytes) : Bytes := history.reverse.flatMap (· ++ [Bytes.lineFeed])

end PostfixLambda
