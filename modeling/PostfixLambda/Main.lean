import PostfixLambda.Command.Run

/-! The command line: it reads files, standard input and prompts, and hands the session's output on as it comes. -/

namespace PostfixLambda.Command

/-- More rounds than any reduction takes. -/
def patience : Nat := 0x4000000000000000

/-- Reads a stream to its end. -/
partial def readAll (stream : IO.FS.Stream) (got : ByteArray) : IO Bytes := do
  let more ← stream.read 65536
  if more.isEmpty then return got.toList else readAll stream (got ++ more)

/-- The path of a file that is there. -/
def pathOf (name : String) : IO Path := do
  return [(← IO.FS.realPath name).toString.toUTF8.toList]

/-- Opens a file. -/
def openFile (name : String) : IO (Except FileError Opened) := do
  try
    let content ← IO.FS.readBinFile name
    return .ok (.file (← pathOf name) content.toList)
  catch
    | .inappropriateType .. => return .ok .directory
    | _ => return .error .notFound

/-- The sink emptied. -/
def emptied (s : Sink) : Sink := { s with content := .empty, writes := [] }

/-- Hands on what has reached the standard output, the log and the tee, and leaves them empty. -/
def handOn (s : Session) (tee? : Option IO.FS.Handle) : IO Session := do
  let stdout ← IO.getStdout
  stdout.write ⟨(s.out.textAt stdoutPlace).toArray⟩
  stdout.flush
  (← IO.getStderr).write ⟨(logText s.log).toArray⟩
  if let some tee := tee? then
    tee.write ⟨(s.out.textAt teePlace).toArray⟩
    tee.flush
  let log := { s.log with output? := some { kind := .memory }, retired := [] }
  return { s with log := log, out := { s.out with sinks := s.out.sinks.map emptied } }

/-- What to do when a reduction has no answer. -/
def gaveUp {α : Type} : IO α := throw (IO.userError "reduction did not end")

/-- Asks for lines and evaluates them; `waiting` are lines that were read and not yet answered with. -/
partial def ask (p : Prompter) (waiting : List Answer) (tee? : Option IO.FS.Handle) :
    IO (Prompter × Option SessionError) := do
  let p := p.showPrompt
  let p := { p with session := ← handOn p.session tee? }
  let answers ← if waiting.isEmpty then
      pure (answersOf (← (← IO.getStdin).getLine).toUTF8.toList)
    else pure waiting
  match answers with
  | [] =>
    let (s, error?) := p.session.flush
    return ({ p with session := s }, error?)
  | answer :: rest =>
    match p.takeAnswer patience none answer with
    | none => gaveUp
    | some (p, error?) => if error?.isSome then return (p, error?) else ask p rest tee?

/-- Evaluates programs line by line, keeping the history in a file of the home directory. -/
def converse (s : Session) (tee? : Option IO.FS.Handle) : IO Session := do
  let path? := match ← IO.getEnv "HOME" with
    | some home => if home.isEmpty then none else some (home ++ "/.lambdapost_history")
    | none => none
  let history ← match path? with
    | some path => do
      match ← openFile path with
      | .ok (.file _ text) => pure (historyOf text)
      | _ => pure []
    | none => pure []
  let (p, error?) ← ask { session := s, history := history } [] tee?
  let s := { p.session with out := p.session.out.writePast stdoutPlace [Bytes.lineFeed] }
  if let some path := path? then
    try IO.FS.writeBinFile path ⟨(historyText p.history).toArray⟩ catch _ => pure ()
  return { s with log := s.log.errorIf (error?.map SessionError.message) }

/-- Evaluates the programs of the named files. -/
def evaluate (s : Session) (created? : Option Created) (names : List Bytes) (files : List String) : IO Session := do
  let stdin ← if (inputNames names).contains [0x2D] then readAll (← IO.getStdin) .empty else pure []
  let opened ← files.mapM fun name => do return (name.toUTF8.toList, ← openFile name)
  let openName (name : Bytes) : Except FileError Opened :=
    match opened.find? fun (n, _) => n = name with
    | some (_, result) => result
    | none => .error .notFound
  match runInputs s openName created? stdin patience names with
  | some s => return s
  | none => gaveUp

/-- Runs a session, and ends the command with its exit code. -/
def serve (f : Flags) (names : List Bytes) (files : List String) (tee? : Option (IO.FS.Handle × Path)) : IO UInt32 := do
  let created? := tee?.map fun (_, path) => Created.file path
  let tee? := tee?.map Prod.fst
  let s := startSession f created?
  let s ← if f.interactive then converse s tee? else evaluate s created? names files
  let s := if s.log.exitCode = 0 then s else s.flush.1
  let code := s.log.exitCode
  let _ ← handOn s tee?
  return code.toUInt32

/-- Ends the command before it has begun. -/
def turnDown (r : Refusal) : IO UInt32 := do
  (← IO.getStderr).write ⟨r.stderr.toArray⟩
  return r.exit.toUInt32

/-- Creates the file that results are also written to. -/
def createTee (name : Bytes) : IO (Except FileError (IO.FS.Handle × Path)) := do
  match String.fromUTF8? ⟨name.toArray⟩ with
  | none => return .error .notFound
  | some path =>
    try
      let tee ← IO.FS.Handle.mk path .write
      return .ok (tee, ← pathOf path)
    catch
      | .inappropriateType .. => return .error .isADirectory
      | _ => return .error .notFound

end PostfixLambda.Command

open PostfixLambda.Command in
/-- Runs the command on its arguments. -/
def main (args : List String) : IO UInt32 := do
  match prepare (args.map fun arg => arg.toUTF8.toList) with
  | .error r => turnDown r
  | .ok (f, names) =>
    let files := args.drop (args.length - names.length)
    if f.tee.isEmpty then serve f names files none
    else
      match ← createTee f.tee with
      | .ok tee => serve f names files (some tee)
      | .error e => turnDown (refuse (openError f.tee e))
