import CirOutline.Compilation
import CirOutline.Path

/-!
Files and directories as a value. A run reads from one state of them and leaves another.
-/

namespace CirOutline

/-- The place of a file or directory: the parts of its absolute name. -/
abbrev Place := List String

/-- The files and directories that a run can see. The root is always a directory. There are no links, so
every file has one place, and no permissions. -/
structure FileSystem where
  workingDirectory : Place
  directories : List Place
  files : List (Place × List UInt8)

/-- Where a name leads. -/
inductive Resolved where
  /-- To a file or directory. -/
  | entry (place : Place)
  /-- To nothing yet, in a directory that exists. -/
  | vacant (place : Place)
  /-- Through a directory that is missing. -/
  | missing
  /-- Through a file. -/
  | notDirectory
  /-- Nowhere, because it or one of its parts is too long. -/
  | tooLong
  /-- Nowhere, because it holds a null character. -/
  | hasNull

namespace FileSystem

def isDirectory (fs : FileSystem) (place : Place) : Bool :=
  place.isEmpty || fs.directories.contains place || place.isPrefixOf fs.workingDirectory

def content? (fs : FileSystem) (place : Place) : Option (List UInt8) := fs.files.lookup place

def partLimit : Nat := 255

def nameLimit : Nat := 4095

/-- Follows the parts of a name from a place that exists. -/
def follow (fs : FileSystem) (place : Place) : List String → Resolved
  | [] => .entry place
  | part :: rest =>
    if !fs.isDirectory place then .notDirectory
    else if part == "" || part == "." then fs.follow place rest
    else if part == ".." then fs.follow place.dropLast rest
    else if partLimit < part.utf8ByteSize then .tooLong
    else
      let next := place ++ [part]
      if fs.isDirectory next || (fs.content? next).isSome then fs.follow next rest
      else if rest.isEmpty then .vacant next
      else .missing

/-- Follows a name from the working directory, or from the root if it is absolute. -/
def resolve (fs : FileSystem) (name : String) : Resolved :=
  if name.toList.contains '\x00' then .hasNull
  else if name.isEmpty then .missing
  else if nameLimit < name.utf8ByteSize then .tooLong
  else if name.toList.head? == some '/' then fs.follow [] (name.splitOn "/")
  else fs.follow fs.workingDirectory (name.splitOn "/")

def nameIsDirectory (fs : FileSystem) (name : String) : Bool :=
  match fs.resolve name with
  | .entry place => fs.isDirectory place
  | _ => false

/-- Whether a name leads to a file or directory. -/
def nameExists (fs : FileSystem) (name : String) : Bool :=
  match fs.resolve name with
  | .entry _ => true
  | _ => false

/-- Stores bytes at a place. A file that is there already keeps its position in the list, and a new
one comes last. -/
def put (place : Place) (bytes : List UInt8) :
    List (Place × List UInt8) → List (Place × List UInt8)
  | [] => [(place, bytes)]
  | file :: rest =>
    if file.1 == place then (place, bytes) :: rest else file :: put place bytes rest

/-- The text of a file, with line ends made uniform. -/
def readText (fs : FileSystem) (name : String) : Except Failure String :=
  match fs.resolve name with
  | .entry place =>
    match fs.content? place with
    | none => .error (.isDirectory name)
    | some bytes =>
      match Text.Utf8.decode bytes with
      | .error fault => .error (.undecodable fault)
      | .ok cs => .ok (String.ofList (Text.uniformLineEnds cs))
  | .vacant _ | .missing => .error (.noSuchFile name)
  | .notDirectory => .error (.notDirectory name)
  | .tooLong => .error (.nameTooLong name)
  | .hasNull => .error .nullInName

/-- Writes a text to a file, which is made if it is not there. -/
def writeText (fs : FileSystem) (name text : String) : Except Failure FileSystem :=
  let store (place : Place) : FileSystem :=
    { fs with files := put place text.toUTF8.toList fs.files }
  match fs.resolve name with
  | .entry place => if fs.isDirectory place then .error (.isDirectory name) else .ok (store place)
  | .vacant place => .ok (store place)
  | .missing => .error (.noSuchFile name)
  | .notDirectory => .error (.notDirectory name)
  | .tooLong => .error (.nameTooLong name)
  | .hasNull => .error .nullInName

/-- The files of `later` that are new or changed. -/
def changes (earlier later : FileSystem) : List (Place × List UInt8) :=
  later.files.filter fun file => earlier.content? file.1 != some file.2

end FileSystem

/-- Compiles a file and, if an output name is given, writes the result and a line end there. -/
def compileFile (fs : FileSystem) (name : String) (output : Option String) (options : Options) :
    Except Failure (String × FileSystem) :=
  let path := (Path.ofText name).text
  match fs.resolve path with
  | .tooLong => .error (.nameTooLong path)
  | .vacant _ | .missing | .notDirectory | .hasNull => .error (.sourceMissing name)
  | .entry _ =>
    match fs.readText path with
    | .error failure => .error failure
    | .ok source =>
      match compileText options source name with
      | .error failure => .error failure
      | .ok result =>
        match output with
        | none => .ok (result, fs)
        | some target =>
          if target.isEmpty then .ok (result, fs)
          else (fs.writeText (Path.ofText target).text (result ++ "\n")).map fun fs => (result, fs)

end CirOutline
