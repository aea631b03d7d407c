import PostfixLambda.Stream.Output

/-! The logger: records with a level, one write each, and an exit code that remembers what went wrong. -/

namespace PostfixLambda

/-- A logger: its output, if it has one, the outputs it had before, the latest first, the buffer that records are put
    together in, with what the last write left in it, and the exit code so far. -/
structure Logger where
  output? : Option Sink := none
  retired : List Sink := []
  held : Collected := .empty
  exitCode : Nat := 0

namespace Logger

/-- Every output so far, the first one first. -/
def outputs (log : Logger) : List Sink := log.retired.reverse ++ log.output?.toList

/-- Sets the output, closing the one before. -/
def setOutput (log : Logger) (output? : Option Sink) : Logger :=
  { log with
    output? := output?
    retired := match log.output? with
      | some s => s.close :: log.retired
      | none => log.retired }

/-- Puts a record into a buffer, behind what it holds: the level if there is one, the message, and a line feed unless
    the buffer then ends in one or holds nothing. -/
def compose (buffer : Collected) (level message : Bytes) : Collected :=
  let led := if level.isEmpty then buffer else (buffer.append level).append ": "
  let text := led.append message
  match text.last? with
  | none => text
  | some b => if b = Bytes.lineFeed then text else text.push Bytes.lineFeed

/-- Sends a record to the output. A write that fails or falls short sets the exit code to two; an empty record is not
    written. -/
def print (log : Logger) (level message : Bytes) : Logger :=
  match log.output? with
  | none => log
  | some s =>
    let (s', held, error?) := Buffering.flushHeld s (compose log.held.clear level message)
    { log with
      output? := some s'
      held := held
      exitCode := if error?.isSome then 2 else log.exitCode }

/-- The function that sends messages at a level. -/
def leveled (level : Bytes) : Logger → Bytes → Logger := fun log message => log.print level message

/-- Logs an error, which makes the exit code non-zero. -/
def error (log : Logger) (message : Bytes) : Logger :=
  { log with exitCode := if log.exitCode = 0 then 1 else log.exitCode }.print "ERROR" message

/-- Logs an error if there is one. -/
def errorIf (log : Logger) : Option Bytes → Logger
  | some message => log.error message
  | none => log

end Logger

end PostfixLambda
