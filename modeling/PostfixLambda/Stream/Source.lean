import PostfixLambda.Text.Utf8

/-! Sources: named streams of runes, whose reading may fail on the way. -/

namespace PostfixLambda

/-- What reading from a source brings next. -/
inductive Event where
  | rune (r : Rune)
  | error (message : Bytes)
  deriving DecidableEq, Repr

/-- A source: its name, what is still to be read, and whether it is to be closed at its end. -/
structure Source where
  name : Bytes
  events : List Event
  closes : Bool := false
  deriving DecidableEq, Repr

/-- A part of a source: bytes, or a failure after which reading goes on. -/
inductive Chunk where
  | bytes (b : Bytes)
  | failure (message : Bytes)
  deriving DecidableEq, Repr

namespace Source

/-- The events of a text. -/
def eventsOf (text : Bytes) : List Event := (Utf8.runes text).map .rune

/-- The number of reads in a row that bring nothing, after which reading gives up. -/
def idleLimit : Nat := 100

/-- What is reported when reading gives up. -/
def noProgress : Bytes := "multiple Read calls return no data or error"

/-- The events of chunks, each brought by one read, `pending` being the bytes before them and `idle` the reads before
    them that brought nothing. A rune may go over the border between two chunks, not over a failure. -/
def eventsOfChunks (pending : Bytes) (idle : Nat) : List Chunk → List Event
  | [] => eventsOf pending
  | .bytes [] :: rest =>
    if idle + 1 = idleLimit then eventsOf pending ++ .error noProgress :: eventsOfChunks [] 0 rest
    else eventsOfChunks pending (idle + 1) rest
  | .bytes (b :: more) :: rest => eventsOfChunks (pending ++ b :: more) 0 rest
  | .failure message :: rest => eventsOf pending ++ .error message :: eventsOfChunks [] 0 rest

/-- A text under a name. -/
def named (name text : Bytes) : Source := ⟨name, eventsOf text, false⟩

/-- A text without a name of its own. -/
def unnamed (text : Bytes) : Source := ⟨"<unnamed *strings.Reader>", eventsOf text, false⟩

/-- Chunks under a name, closed at the end. -/
def chunked (name : Bytes) (chunks : List Chunk) : Source := ⟨name, eventsOfChunks [] 0 chunks, true⟩

/-- A source of which nothing can be read. -/
def unreadable (name message : Bytes) : Source := ⟨name, [.error message], true⟩

end Source

/-! ### Rune readers -/

/-- What a text may be read through. -/
inductive Carrier where
  /-- Something that reads runes by itself. -/
  | runes
  /-- Something that reads bytes only. -/
  | bytes
  /-- Something that reads bytes and has a name. -/
  | namedBytes (name : Bytes)
  deriving DecidableEq, Repr

/-- A rune reader: whether it is the carrier itself, its name if it has one, and what it reads. -/
structure RuneReader where
  asGiven : Bool
  name? : Option Bytes
  runes : List Rune
  deriving DecidableEq, Repr

/-- A carrier that reads runes is its own reader; any other is wrapped, and keeps its name. -/
def RuneReader.over (carrier : Carrier) (text : Bytes) : RuneReader where
  asGiven := carrier = .runes
  name? := match carrier with
    | .namedBytes name => some name
    | .runes | .bytes => none
  runes := Utf8.runes text

end PostfixLambda
