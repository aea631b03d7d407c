import PostfixLambda.Text.Bytes

/-! A tree of directories, files and devices, in which names are opened and created. -/

namespace PostfixLambda.Command

/-- The names from the root to a directory, file or device. -/
abbrev Path := List Bytes

namespace Path

/-- The order of paths: name by name. -/
def before : Path → Path → Bool
  | [], [] => false
  | [], _ :: _ => true
  | _ :: _, [] => false
  | a :: p, b :: q => Bytes.before a b || (a = b && before p q)

/-- The text of a path. -/
def text (p : Path) : Bytes := Bytes.joinWith [0x2F] p

end Path

/-- Devices. -/
inductive Device where
  /-- Nothing can be read from it, and what is written to it is gone. -/
  | null
  /-- There is no space on it for anything that is written. -/
  | full
  /-- The terminal of the command, which has none. -/
  | terminal
  /-- The standard input. -/
  | stdin
  /-- The standard output. -/
  | stdout
  /-- The standard error. -/
  | stderr
  deriving DecidableEq, Repr

/-- The devices of the system, with the names of the three standard streams. -/
def devices : List (Path × Device) :=
  [(["dev", "null"], .null), (["dev", "full"], .full), (["dev", "tty"], .terminal),
    (["dev", "stdin"], .stdin), (["dev", "stdout"], .stdout), (["dev", "stderr"], .stderr),
    (["dev", "fd", "0"], .stdin), (["dev", "fd", "1"], .stdout), (["dev", "fd", "2"], .stderr)]

/-- The directories at the root of the system. -/
def systemDirs : List Path :=
  [["bin"], ["boot"], ["dev"], ["etc"], ["home"], ["lib"], ["media"], ["mnt"], ["opt"], ["proc"], ["root"], ["run"],
    ["sbin"], ["srv"], ["sys"], ["tmp"], ["usr"], ["var"]]

/-- The directory that a command is started in. Its name is one that no argument can spell. -/
def startDir : Path := ["tmp", [0]]

/-- The files with their contents, and the directories, beside those of the system. A directory on the way to a file is
    there as well. -/
structure FileTree where
  files : List (Path × Bytes) := []
  dirs : List Path := [startDir]
  deriving DecidableEq, Repr

/-- Why a name cannot be opened or created. -/
inductive FileError where
  | notFound
  | notADirectory
  | isADirectory
  | nameTooLong
  | noDevice
  deriving DecidableEq, Repr

/-- The text of a file error. -/
def FileError.message : FileError → Bytes
  | notFound => "no such file or directory"
  | notADirectory => "not a directory"
  | isADirectory => "is a directory"
  | nameTooLong => "file name too long"
  | noDevice => "no such device or address"

/-- What a path leads to. -/
inductive Node where
  | directory
  | file (content : Bytes)
  | device (d : Device)
  deriving DecidableEq, Repr

/-- What a name was opened as, with the path of a file. -/
inductive Opened where
  | directory
  | file (path : Path) (content : Bytes)
  | device (d : Device)
  deriving DecidableEq, Repr

/-- What a name was created as. -/
inductive Created where
  | file (path : Path)
  | device (d : Device)
  deriving DecidableEq, Repr

namespace FileTree

/-- The content of a file. -/
def content? (t : FileTree) (p : Path) : Option Bytes :=
  (t.files.find? fun (q, _) => q = p).map Prod.snd

/-- Whether a path leads to a directory. -/
def isDir (t : FileTree) (p : Path) : Bool :=
  p.isEmpty || t.dirs.any (p.isPrefixOf ·) || systemDirs.any (p.isPrefixOf ·) ||
    t.files.any (fun (q, _) => p.isPrefixOf q && p ≠ q) || devices.any fun (q, _) => p.isPrefixOf q && p ≠ q

/-- What a path leads to, if anything. -/
def node? (t : FileTree) (p : Path) : Option Node :=
  if t.isDir p then some .directory
  else
    match t.content? p with
    | some content => some (.file content)
    | none => (devices.find? fun (q, _) => q = p).map fun (_, d) => .device d

/-- The longest name of one part of a path. -/
def partLimit : Nat := 255

/-- The length that no name may reach. -/
def nameLimit : Nat := 4096

/-- One part further on the way, from the directory `p`. Above the root is the root. -/
def enter (t : FileTree) (p : Path) (part : Bytes) : Except FileError Path :=
  if part = "." then .ok p
  else if part = ".." then .ok p.dropLast
  else if part.length > partLimit then .error .nameTooLong
  else
    match t.node? (p ++ [part]) with
    | some .directory => .ok (p ++ [part])
    | some _ => .error .notADirectory
    | none => .error .notFound

/-- The directory that the parts lead to. -/
def walk (t : FileTree) (p : Path) : List Bytes → Except FileError Path
  | [] => .ok p
  | part :: rest => do (← t.enter p part) |> (t.walk · rest)

/-- Where a name leads: a directory, or a last part in a directory, with whether it must be a directory. -/
inductive Place where
  | directory
  | entry (parent : Path) (last : Bytes) (mustBeDir : Bool)

/-- Follows a name up to its last part. A name that begins with a slash starts at the root, any other in the directory
    that the command is started in. -/
def locate (t : FileTree) (name : Bytes) : Except FileError Place :=
  if name.isEmpty then .error .notFound
  else if name.length ≥ nameLimit then .error .nameTooLong
  else
    let start := if name.head? = some 0x2F then [] else startDir
    let parts := (Bytes.splitAt 0x2F name).filter (!·.isEmpty)
    match parts.getLast? with
    | none => .ok .directory
    | some last => do
      let p ← t.walk start parts.dropLast
      if last = "." || last = ".." then .ok .directory
      else .ok (.entry p last (name.getLast? = some 0x2F))

/-- Opens a name for reading. -/
def openName (t : FileTree) (name : Bytes) : Except FileError Opened := do
  match ← t.locate name with
  | .directory => return .directory
  | .entry parent last mustBeDir =>
    if last.length > partLimit then throw .nameTooLong
    match t.node? (parent ++ [last]) with
    | none => throw .notFound
    | some .directory => return .directory
    | some (.file content) => if mustBeDir then throw .notADirectory else return .file (parent ++ [last]) content
    | some (.device d) =>
      if mustBeDir then throw .notADirectory
      else if d = .terminal then throw .noDevice
      else return .device d

/-- The tree with a file of that content. -/
def put (t : FileTree) (p : Path) (content : Bytes) : FileTree :=
  { t with files := (p, content) :: t.files.filter fun (q, _) => q ≠ p }

/-- Creates a file, or empties one that is there: what was created, and the tree with it. A device is left as it is. -/
def create (t : FileTree) (name : Bytes) : Except FileError (Created × FileTree) := do
  match ← t.locate name with
  | .directory => throw .isADirectory
  | .entry parent last mustBeDir =>
    let p := parent ++ [last]
    if mustBeDir then throw .isADirectory
    if last.length > partLimit then throw .nameTooLong
    match t.node? p with
    | some .directory => throw .isADirectory
    | some (.device d) => if d = .terminal then throw .noDevice else return (.device d, t)
    | some (.file _) | none => return (.file p, t.put p [])

/-- The path of a name given in parts, in the directory that the command is started in. -/
def under (parts : List Bytes) : Path := startDir ++ parts

/-- The tree of the directories and files in the directory that the command is started in; of two files of one name the
    latter is there. -/
def ofStart (files : List (List Bytes × Bytes)) (dirs : List (List Bytes)) : FileTree :=
  files.foldl (fun t (parts, content) => t.put (under parts) content) { dirs := startDir :: dirs.map under }

/-- The part of a path below the directory that the command is started in. -/
def below? : (start path : Path) → Option Path
  | [], path => some path
  | a :: start, b :: path => if a = b then below? start path else none
  | _ :: _, [] => none

/-- The files below the directory that the command is started in and not in `before` with the same content, by their
    paths. -/
def changedSince (t : FileTree) (before : FileTree) : List (Bytes × Bytes) :=
  let changed := t.files.filterMap fun (p, content) =>
    if before.content? p = some content then none else (below? startDir p).map (·, content)
  (changed.mergeSort fun a b => !Path.before b.1 a.1).map fun (p, content) => (p.text, content)

end FileTree

end PostfixLambda.Command
