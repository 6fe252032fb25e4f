/-!
Places in a source file.
-/

namespace CirOutline

/-- A place in a source file; lines and columns count from one. -/
structure Location where
  file : String
  line : Int
  column : Int
deriving DecidableEq

/-- The name given to text that comes from no file. -/
def Location.unnamedFile : String := "<input>"

/-- A place as messages show it: file, line and column. -/
def Location.text (l : Location) : String :=
  l.file ++ ":" ++ toString l.line ++ ":" ++ toString l.column

end CirOutline
