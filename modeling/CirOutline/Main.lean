import CirOutline.CommandLine.Run

/-!
The command `circ`. The files that the arguments may mean are looked up first, the run itself is a
function of what was found, and the files that it changed are written at the end.
-/

open CirOutline CirOutline.CommandLine

def Main.nameOf (place : Place) : String := "/" ++ "/".intercalate place

/-- The names that an argument may contain: all of it, what follows an equals sign, and what
follows the letters of an option. -/
def Main.namesIn (argument : String) : List String :=
  let cs := argument.toList
  [argument, String.ofList ((cs.dropWhile (· != '=')).drop 1), String.ofList (cs.drop 2),
    String.ofList (cs.drop 3)]

def Main.placesOnWay (place : Place) : List String → List Place
  | [] => [place]
  | part :: rest =>
    let next :=
      if part == "" || part == "." then place
      else if part == ".." then place.dropLast
      else place ++ [part]
    place :: Main.placesOnWay next rest

/-- The places that a name and the default output for it may lead to. -/
def Main.placesOf (workingDirectory : Place) (name : String) : List Place :=
  [name, ((Path.ofText name).withSuffix ".c").text].flatMap fun text =>
    let start := if text.toList.head? == some '/' then [] else workingDirectory
    Main.placesOnWay start (text.splitOn "/")

def Main.look (fs : FileSystem) (place : Place) : IO FileSystem := do
  match ← (IO.FS.readBinFile (Main.nameOf place)).toBaseIO with
  | .ok bytes => return { fs with files := fs.files ++ [(place, bytes.toList)] }
  | .error (.noFileOrDirectory ..) => return fs
  | .error _ => return { fs with directories := fs.directories ++ [place] }

/-- Looks up the files that the arguments may mean. -/
def Main.gather (arguments : List String) : IO FileSystem := do
  let here := (Path.ofText (← IO.currentDir).toString).parts
  let places := ((arguments.flatMap Main.namesIn).flatMap (Main.placesOf here)).eraseDups
  places.foldlM Main.look ⟨here, [], []⟩

/-- The environment variables that change the settings. -/
def Main.environment : IO (List (String × String)) := do
  let names := ["CIRC_INDENT_WIDTH", "CIRC_TEMP_POOL_SIZE", "CIRC_DOC_COMMENTS"]
  names.filterMapM fun name => return (← IO.getEnv name).map fun value => (name, value)

def main (arguments : List String) : IO UInt32 := do
  let fs ← Main.gather arguments
  let outcome := run arguments (← Main.environment) fs
  for (place, bytes) in fs.changes outcome.files do
    IO.FS.writeBinFile (Main.nameOf place) ⟨bytes.toArray⟩
  IO.eprint outcome.stderr
  IO.print outcome.stdout
  return outcome.status.code.toUInt32
