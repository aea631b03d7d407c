import PostfixLambda.Arith.Word
import PostfixLambda.Log.Logger
import PostfixLambda.Reduction.Reducer
import PostfixLambda.Stream.Input
import PostfixLambda.Stream.Output
import PostfixLambda.Text.Terminal

/-! A session evaluates a stream of programs, each ended by `;` or the end of the input. A program is bound to the
    definitions so far, reduced to normal form, and printed; one that ends in `:name` defines the name instead. A
    program that fails is reported once, and skipped up to its end. -/

namespace PostfixLambda

/-- Why a program fails. -/
inductive ProgramError where
  /-- A word follows the definition of a name. -/
  | expectedEnd (name word : Bytes)
  | word (e : Arith.WordError)
  | parse (fault : ParseFault)
  | bind (stop : Stop (TermError Bytes))
  | halt (h : Halt Arith.Value Bytes Arith.Value.Fault)
  /-- A failure from outside. -/
  | outside (f : Fault Bytes)

/-- The word that ends a program. -/
def endWord : Bytes := [0x3B]

/-- The mark before a name that is defined. -/
def defineMark : Bytes := [0x3A]

namespace ProgramError

/-- The text of a program's error. -/
def message : ProgramError → Bytes
  | expectedEnd name w =>
    "expected " ++ Text.quote endWord ++ " after definition of " ++ Text.quote name ++ ", got " ++ Text.quote w
  | word e => e.message
  | parse fault => fault.message
  | bind (.error e) => e.message
  | bind (.panic text) => text
  | halt h => Halt.message h
  | outside f => f.message id

/-- Whether the error is, or wraps, a recovered panic. -/
def isPanic : ProgramError → Bool
  | halt h => h.isPanic
  | outside f => f.isPanic
  | expectedEnd _ _ | word _ | parse _ | bind _ => false

end ProgramError

/-- Why a session stops. -/
inductive SessionError where
  | read (message : Bytes)
  | write (e : WriteError)
  deriving DecidableEq, Repr

/-- The text of a session's error. -/
def SessionError.message : SessionError → Bytes
  | read text => text
  | write e => e.message

/-- Where words come from. -/
inductive Origin where
  /-- From a source. -/
  | given (source : Source)
  /-- From what has reached a sink of the session's own output, at a place, by the time that it is read. -/
  | written (name : Bytes) (place : Nat)

/-- The source that an origin is. -/
def Origin.source (out : Output) : Origin → Source
  | given source => source
  | written name place => .named name (out.textAt place)

/-- The options of a session: `timeout` is in nanoseconds, zero for none. -/
structure SessionOptions where
  delta : Bool := false
  renames : Bool := false
  tokens : Bool := false
  showStacks : Bool := false
  trace : Bool := false
  maxSteps : Int := 0
  timeout : Int := 0
  deriving DecidableEq, Repr

/-- A session: its options, reducer, log and output, and the place of the output's sink that the log writes to as well,
    if there is one; for each reduction to come, the steps after which its time is over, if it comes to that; the
    definitions so far; the program under way with its start and the name that it defines, and whether it has failed. -/
structure Session where
  options : SessionOptions
  reducer : Reducer Bytes
  log : Logger
  out : Output
  logPlace? : Option Nat := none
  deadlines : List (Option Nat) := []
  env : Env Arith.Value Bytes := []
  parser : Parser Arith.Value Bytes := {}
  start : Location := {}
  define? : Option Bytes := none
  failed : Bool := false

namespace Session

/-- The settings of a session's reducer. -/
def settings (o : SessionOptions) : List (Settings Bytes) :=
  [.one (.maxSteps o.maxSteps), .one (.delta o.delta)] ++
    (if o.trace then [.one (.log (some "TRACE"))] else []) ++
    (if o.renames then [.one (.renamer (some Renamer.primes))] else [])

/-- The renamer that definitions are bound with. -/
def rename? (s : Session) : Option (Renamer Bytes) := if s.options.renames then some Renamer.primes else none

/-- A session that has seen nothing yet. -/
def new (o : SessionOptions) (log : Logger) (out : Output) : Session where
  options := o
  reducer := (Reducer.ofSettings (settings o)).1
  log := log
  out := out

/-- Whether a program is under way. -/
def pending (s : Session) : Bool := !s.parser.isEmpty || s.define?.isSome || s.failed

/-- Drops the program under way. -/
def reset (s : Session) : Session := { s with parser := s.parser.reset, define? := none, failed := false }

/-- Reports an error of the program under way. -/
def fail (s : Session) (loc : Location) (e : ProgramError) : Session :=
  let log := s.log.error (Shown.text loc ++ ": " ++ e.message)
  let log := if s.options.showStacks && e.isPanic then log.print "STACK" Fault.stackTrace else log
  { s with log := log, failed := true }

/-- The line of a result: lambda notation, or postfix words. -/
def lineOf (s : Session) (e : Arith.Term) : Bytes := if s.options.tokens then Arith.format e.encode else Shown.text e

/-- Works on the output. A sink that it shares with the log is handed over for that time. -/
def onOutput {α : Type} (s : Session) (f : Output → Output × α) : Session × α :=
  match s.logPlace?, s.log.output? with
  | some place, some sink =>
    let (out, a) := f { s.out with sinks := s.out.sinks.set place sink }
    ({ s with out := out, log := { s.log with output? := out.sinks[place]? } }, a)
  | _, _ =>
    let (out, a) := f s.out
    ({ s with out := out }, a)

/-- Prints a result. -/
def print (s : Session) (e : Arith.Term) : Session :=
  let (s, w) := s.onOutput fun out =>
    writePieces Output.write 0 out (Text.terminalPieces (s.lineOf e ++ [Bytes.lineFeed]))
  match w.error? with
  | some error => { s with log := s.log.error ("output: " ++ error.message) }
  | none => s

/-- Prints a term that may be missing, of which there is nothing to print. -/
def printGiven (s : Session) : Arith.Term → Except Breakdown Session
  | .hole => .error .missingValue
  | e => .ok (s.print e)

/-- The context of a reduction: what interrupts the session interrupts it, and so does the end of its time. A time limit
    below zero is over before the reduction begins. -/
def context (s : Session) (outer? : Option Interruption) : Context :=
  match outer? with
  | some i => .interrupted i
  | none =>
    if s.options.timeout = 0 then .background
    else if s.options.timeout < 0 then .interrupted .deadlineExceeded
    else .deadline s.deadlines.head?.join

/-- The program with the definitions so far put in. -/
def bound (s : Session) (e : Arith.Term) : Except (Stop (TermError Bytes)) Arith.Term :=
  if s.env.isEmpty then .ok e else (e.bind s.env s.rename?).result

/-- Logs the lines of a reduction at the level of the trace. -/
def traceLines (s : Session) (lines : List Bytes) : Session :=
  { s with log := lines.foldl (fun log line => log.print (s.reducer.logLevel?.getD []) line) s.log }

/-- A session after a reduction, which is traced and counted. -/
def afterRun (s : Session) (run : Reducer.Run Arith.Value Bytes Arith.Value.Fault) : Session :=
  { s.traceLines run.log with reducer := { s.reducer with steps := run.steps }, deadlines := s.deadlines.tail }

/-- Takes the result of a reduction: it is printed, or becomes a definition. -/
def conclude (s : Session) (run : Reducer.Run Arith.Value Bytes Arith.Value.Fault) : Session :=
  let s := s.afterRun run
  match run.result with
  | .error h => s.fail s.start (.halt h)
  | .ok e =>
    match s.define? with
    | some name => { s with env := s.env.insert name e }
    | none => s.print e

/-- Ends the program under way. There is no answer when its reduction takes more than `fuel` rounds. -/
def finish (s : Session) (fuel : Nat) (outer? : Option Interruption) : Option Session :=
  if s.parser.isEmpty && s.define?.isNone then some s.reset
  else
    match s.parser.result with
    | .error fault => some (s.fail s.start (.parse fault)).reset
    | .ok e =>
      match s.bound e with
      | .error stop => some (s.fail s.start (.bind stop)).reset
      | .ok e' => (s.reducer.normalize fuel (s.context outer?) e').map fun run => (s.conclude run).reset

/-- The name that a word defines. -/
def definedName? (word : Bytes) : Option Bytes :=
  match Bytes.dropMark? defineMark word with
  | some [] => none
  | name? => name?

/-- Takes a word that does not end the program, which has not failed. -/
def takeWord (s : Session) (word : Bytes) (loc : Location) : Session :=
  match s.define? with
  | some name => s.fail loc (.expectedEnd name word)
  | none =>
    match definedName? word with
    | some name => { s with define? := some name }
    | none =>
      match Arith.readWord word with
      | .error e => s.fail loc (.word e)
      | .ok token =>
        match s.parser.push token with
        | .error fault => s.fail loc (.parse fault)
        | .ok p => { s with parser := p }

/-- Takes a word. -/
def feedWord (s : Session) (fuel : Nat) (outer? : Option Interruption) (word : Bytes) (loc : Location) :
    Option Session :=
  let s := if s.pending then s else { s with start := loc }
  if word = endWord then
    if s.failed then some s.reset else (s.finish fuel outer?).map reset
  else if s.failed then some s
  else some (s.takeWord word loc)

/-- Takes the words in order. -/
def feedWords (s : Session) (fuel : Nat) (outer? : Option Interruption) : List (Bytes × Location) → Option Session
  | [] => some s
  | (word, loc) :: rest => do (← s.feedWord fuel outer? word loc).feedWords fuel outer? rest

/-- Takes every word of the origins, one after the other. A program cut off by the end stays under way. -/
def feed (s : Session) (fuel : Nat) (outer? : Option Interruption) (inp : Input) :
    List Origin → Option (Session × Input × Option SessionError)
  | [] => some (s, inp, none)
  | origin :: rest => do
    let (inp', words, reason) := { inp with queue := [origin.source s.out] }.words
    let s' ← s.feedWords fuel outer? words
    match reason with
    | .ended _ => s'.feed fuel outer? inp' rest
    | .failed message _ => return (s', inp', some (.read message))

/-- Flushes the output. -/
def flush (s : Session) : Session × Option SessionError :=
  let (s, error?) := s.onOutput Output.flush
  (s, error?.map .write)

/-- Evaluates every program of the origins, the last of which the end ends, and flushes the output. -/
def runOrigins (s : Session) (fuel : Nat) (outer? : Option Interruption) (inp : Input) (origins : List Origin) :
    Option (Session × Input × Option SessionError) := do
  let (s, inp', error?) ← s.feed fuel outer? inp origins
  if error?.isSome then return (s, inp', error?)
  let s ← if s.failed then some s else s.finish fuel outer?
  let (s, error?) := s.reset.flush
  return (s, inp', error?)

end Session

end PostfixLambda
