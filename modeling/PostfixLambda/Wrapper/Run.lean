import PostfixLambda.Command.Arguments
import PostfixLambda.Command.FileTree
import PostfixLambda.Log.Lines
import PostfixLambda.Wrapper.Builder

/-! The generator: it reads a source text line by line, and writes a source text with the wrappers of its builder
    methods. -/

namespace PostfixLambda.Wrapper

open Command (FileTree Opened Created)

/-- Why the generator stops. -/
inductive Failure where
  /-- It was asked how it is used. -/
  | help
  /-- Its arguments are refused. -/
  | badArguments
  /-- A file cannot be opened, created, read or written. -/
  | badFile
  /-- A line is too long. -/
  | lineTooLong
  /-- A parameter has no name. -/
  | namelessParameter
  deriving DecidableEq, Repr

/-- The exit code of a failure. -/
def Failure.exitCode : Failure → Nat
  | help => 0
  | badArguments | namelessParameter => 2
  | badFile | lineTooLong => 1

/-- The length that no line may reach. -/
def lineLimit : Nat := 65536

/-- The lines of a text, of which the last one need not end in a line feed. -/
def linesOf (text : Bytes) : List Bytes :=
  let (held, lines) := LineLog.cut .empty [] text
  if held.isEmpty then lines else lines ++ [held.toBytes]

/-- The line without a carriage return at its end. -/
def dropReturn (line : Bytes) : Bytes := if line.getLast? = some 0x0D then line.dropLast else line

/-- The head of the generated text: its package, where it comes from, and how to make it again. -/
def header (package source : Bytes) (args : List Bytes) : Bytes :=
  "package " ++ package ++ "\n\n// @generated from " ++ source ++ "\n\n" ++
    (if 2 ≤ args.length then
      Bytes.ofString "//go:generate go run scripts/gen_expects.go -- " ++ Bytes.joinWith " " args ++ "\n\n"
    else [])

/-- What is written for a line. -/
def generateLine (source : Bytes) (args : List Bytes) (line : Bytes) : Except Failure Bytes :=
  let head := match readPackage? line with
    | some package => header package source args
    | none => []
  match readBuilder? line with
  | none => .ok head
  | some (m, returned) =>
    if returned ≠ m.case then .ok head
    else
      match wrapper? m with
      | some text => .ok (head ++ text)
      | none => .error .namelessParameter

/-- What is written for the lines, after what was written so far. -/
def generateLines (source : Bytes) (args : List Bytes) : (written : Collected) → List Bytes → Except Failure Bytes
  | written, [] => .ok written.toBytes
  | written, line :: rest =>
    if lineLimit ≤ line.length then .error .lineTooLong
    else
      match generateLine source args (dropReturn line) with
      | .error e => .error e
      | .ok text => generateLines source args (written.append text) rest

/-- What is written for a source text. -/
def generate (source : Bytes) (args : List Bytes) (text : Bytes) : Except Failure Bytes :=
  generateLines source args .empty (linesOf text)

/-! ### The command -/

/-- What the generator leaves: its output, the exit code, and the files. -/
structure Result where
  stdout : Bytes := []
  exit : Nat := 0
  files : FileTree
  deriving DecidableEq, Repr

/-- What can be read from an opened name. -/
def readOpened (stdin : Bytes) : Opened → Except Failure Bytes
  | .directory => .error .badFile
  | .file _ text => .ok text
  | .device .stdin => .ok stdin
  | .device _ => .ok []

/-- The text of a named source. -/
def readSource (files : FileTree) (stdin name : Bytes) : Except Failure Bytes :=
  match files.openName name with
  | .ok opened => readOpened stdin opened
  | .error _ => .error .badFile

/-- Leaves the generated text in what was created for it. -/
def leave (files : FileTree) (text : Bytes) : Created → Result
  | .file path => { files := files.put path text }
  | .device .stdout => { stdout := text, files := files }
  | .device .full => { exit := if text.isEmpty then 0 else Failure.badFile.exitCode, files := files }
  | .device _ => { files := files }

/-- Reads the source text, which is the standard input when no file is named, and writes to the second file named, or
    the standard output. Nothing is written when the generator fails; a file that is created is emptied first. -/
def run (argv : List Bytes) (files : FileTree) (stdin : Bytes) : Result :=
  let failed (files : FileTree) (e : Failure) : Result := { exit := e.exitCode, files := files }
  match Command.readFlags (fun _ => none) () argv with
  | .error .help => failed files .help
  | .error _ => failed files .badArguments
  | .ok (_, []) =>
    match generate "/dev/stdin" [] stdin with
    | .ok text => { stdout := text, files := files }
    | .error e => failed files e
  | .ok (_, [source]) =>
    match readSource files stdin source >>= generate source [source] with
    | .ok text => { stdout := text, files := files }
    | .error e => failed files e
  | .ok (_, source :: target :: more) =>
    match files.openName source with
    | .error _ => failed files .badFile
    | .ok _ =>
      match files.create target with
      | .error _ => failed files .badFile
      | .ok (created, files') =>
        match readSource files' stdin source >>= generate source (source :: target :: more) with
        | .ok text => leave files' text created
        | .error e => failed files' e

end PostfixLambda.Wrapper
