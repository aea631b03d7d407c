import PostfixLambda.Command.FileTree
import PostfixLambda.Command.Flags
import PostfixLambda.Session.Prompt

/-! The command: it reads programs from files, standard input or prompts, and prints their normal forms. -/

namespace PostfixLambda.Command

/-- What a command finds: the files, the standard input, and the path of the home directory if there is one; and for each
    of its reductions, the steps after which a time limit is over. -/
structure World where
  files : FileTree := {}
  stdin : Bytes := []
  home? : Option Path := none
  deadlines : List (Option Nat) := []
  deriving DecidableEq, Repr

/-- What a command leaves: its two outputs, the exit code, and the files. -/
structure Result where
  stdout : Bytes := []
  stderr : Bytes := []
  exit : Nat
  files : FileTree
  deriving DecidableEq, Repr

/-- The name of the file that keeps the history. -/
def historyFile : Bytes := ".lambdapost_history"

/-- The log of a command. -/
def startLog : Logger := Logger.setOutput {} (some { kind := .memory })

/-- What a log holds. -/
def logText (log : Logger) : Bytes := log.outputs.flatMap Sink.text

/-- The place of the standard output among the sinks of the output. -/
def stdoutPlace : Nat := 0

/-- The place of the second sink of the output. -/
def teePlace : Nat := 1

/-- Standard output and what was created to write results into, put together. -/
def teeTarget : Target := .several [.outlet stdoutPlace, .outlet teePlace]

/-- The output of a command: standard output, and what was created to write results into as well. -/
def startOutput (name : Bytes) : Option Created → Output
  | none => .ofSink { kind := .plain }
  | some (.device .stdout) => ⟨[{ kind := .plain }], [⟨0, .buffered .empty none⟩, ⟨0, .buffered .empty none⟩], teeTarget⟩
  | some (.device .full) =>
    let message := "write " ++ name ++ ": no space left on device"
    .ofSinks [{ kind := .plain }, { kind := .plain, policy := .failing message }] teeTarget
  | some _ => .ofSinks [{ kind := .plain }, { kind := .plain }] teeTarget

/-- The place of the sink that the log shares with the output. -/
def logPlace? : Option Created → Option Nat
  | some (.device .stderr) => some teePlace
  | _ => none

/-- The text of an error in opening a name. -/
def openError (name : Bytes) (e : FileError) : Bytes := "open " ++ name ++ ": " ++ e.message

/-- Where the words of the names come from, and the errors of those that cannot be opened. A dash is the standard input;
    whoever comes to the standard input second finds nothing left. The file that results are written into is read as it
    is by then. -/
def openInputs (openName : Bytes → Except FileError Opened) (tee? : Option Created) (stdin : Bytes) :
    List Bytes → List Origin × List Bytes
  | [] => ([], [])
  | name :: rest =>
    if name = "-" then
      let (origins, errors) := openInputs openName tee? [] rest
      (.given (.named "<stdin>" stdin) :: origins, errors)
    else
      match openName name with
      | .ok (.device .stdin) =>
        let (origins, errors) := openInputs openName tee? [] rest
        (.given (.named name stdin) :: origins, errors)
      | opened =>
        let (origins, errors) := openInputs openName tee? stdin rest
        match opened with
        | .error e => (origins, openError name e :: errors)
        | .ok .directory =>
          (.given (.unreadable name ("read " ++ name ++ ": " ++ FileError.message .isADirectory)) :: origins, errors)
        | .ok (.device _) => (.given (.named name []) :: origins, errors)
        | .ok (.file path content) =>
          let origin := if tee? = some (.file path) then .written name teePlace else .given (.named name content)
          (origin :: origins, errors)

/-- The names to read from: the standard input if none is given. -/
def inputNames (names : List Bytes) : List Bytes := if names.isEmpty then ["-"] else names

/-- Evaluates the programs of the named inputs. -/
def runInputs (s : Session) (openName : Bytes → Except FileError Opened) (tee? : Option Created) (stdin : Bytes)
    (fuel : Nat) (names : List Bytes) : Option Session := do
  let (origins, errors) := openInputs openName tee? stdin (inputNames names)
  let s := if errors.isEmpty then s else { s with log := s.log.error (Bytes.joinWith [Bytes.lineFeed] errors) }
  let (s, _, error?) ← s.runOrigins fuel none {} origins
  return { s with log := s.log.errorIf (error?.map SessionError.message) }

/-- The path of the file that keeps the history. -/
def World.historyPath? (w : World) : Option Path := w.home?.map (· ++ [historyFile])

/-- The history that was kept, the latest line first. -/
def World.history (w : World) : List Bytes :=
  match w.historyPath?.bind w.files.content? with
  | some text => historyOf text
  | none => []

/-- Evaluates programs line by line. The history with the new lines is kept for the next time. -/
def runPrompts (s : Session) (w : World) (fuel : Nat) : Option (Session × List Bytes) := do
  let (p, error?) ← Prompter.run { session := s, history := w.history } fuel none (answersOf w.stdin)
  let s := { p.session with out := p.session.out.writePast stdoutPlace [Bytes.lineFeed] }
  return ({ s with log := s.log.errorIf (error?.map SessionError.message) }, p.history)

/-- The files with the history kept, unless there is no place for it. -/
def keepHistory (files : FileTree) (path? : Option Path) (history : List Bytes) : FileTree :=
  match path? with
  | some path => if files.isDir path then files else files.put path (historyText history)
  | none => files

/-- The files with the results written into the one that was created for them. -/
def keepResults (files : FileTree) (tee? : Option Created) (out : Output) : FileTree :=
  match tee? with
  | some (.file path) => files.put path (out.textAt teePlace)
  | _ => files

/-- A session at the start of the command. -/
def startSession (f : Flags) (tee? : Option Created) : Session :=
  { Session.new f.sessionOptions startLog (startOutput f.tee tee?) with logPlace? := logPlace? tee? }

/-- Runs a session to the end of the command: an exit with an error flushes once more. The history is written last. -/
def runSession (f : Flags) (names : List Bytes) (w : World) (tee? : Option Created) (fuel : Nat) : Option Result := do
  let s := { startSession f tee? with deadlines := w.deadlines }
  let (s, history?) ←
    if f.interactive then (runPrompts s w fuel).map fun (s, history) => (s, some history)
    else (runInputs s w.files.openName tee? w.stdin fuel names).map (·, none)
  let s := if s.log.exitCode = 0 then s else s.flush.1
  let files := keepResults w.files tee? s.out
  return {
    stdout := s.out.textAt stdoutPlace
    stderr := logText s.log
    exit := s.log.exitCode
    files := match history? with
      | some history => keepHistory files w.historyPath? history
      | none => files }

/-- What a command that ends before it has begun leaves: what it says, and the exit code. -/
structure Refusal where
  stderr : Bytes
  exit : Nat
  deriving DecidableEq, Repr

/-- Ends with an error. -/
def refuse (message : Bytes) : Refusal :=
  let log := startLog.error message
  ⟨logText log, log.exitCode⟩

/-- Reads the arguments. -/
def prepare (argv : List Bytes) : Except Refusal (Flags × List Bytes) :=
  match readFlags flagNamed? {} argv with
  | .error .help => .error ⟨usage, 0⟩
  | .error e => .error ⟨e.message ++ [Bytes.lineFeed] ++ usage, 2⟩
  | .ok (f, names) =>
    if f.maxSteps < 0 then
      .error (refuse ("invalid -max-steps " ++ Text.int64 f.maxSteps ++ ", must not be negative"))
    else .ok (f, names)

/-- Runs the command. There is no answer when a reduction takes more than `fuel` rounds. -/
def run (argv : List Bytes) (w : World) (fuel : Nat) : Option Result :=
  match prepare argv with
  | .error r => some { stderr := r.stderr, exit := r.exit, files := w.files }
  | .ok (f, names) =>
    if f.tee.isEmpty then runSession f names w none fuel
    else
      match w.files.create f.tee with
      | .error e =>
        let r := refuse (openError f.tee e)
        some { stderr := r.stderr, exit := r.exit, files := w.files }
      | .ok (created, files) => runSession f names { w with files := files } (some created) fuel

end PostfixLambda.Command
