/-!
Names of files: a root and parts. Repeated slashes and single dots vanish, double dots stay.
-/

namespace CirOutline

structure Path where
  /-- One or two slashes for an absolute name, empty for a relative one. -/
  root : String
  parts : List String

namespace Path

/-- The root of a name that starts with a number of slashes: two stay two, more become one. -/
def rootText (slashes : Nat) : String :=
  match slashes with
  | 0 => ""
  | 2 => "//"
  | _ => "/"

def ofText (text : String) : Path where
  root := rootText (text.toList.takeWhile (· == '/')).length
  parts := (text.splitOn "/").filter fun part => part != "" && part != "."

/-- Puts a name together; an empty one means the working directory. -/
def text (p : Path) : String :=
  let joined := p.root ++ "/".intercalate p.parts
  if joined.isEmpty then "." else joined

/-- A last part with its suffix replaced. The suffix starts at the last dot, unless the dot is the
first or the last character; then there is no suffix and the new one is added. -/
def resuffix (suffix name : String) : String :=
  let cs := name.toList
  let ending := (cs.reverse.takeWhile (· != '.')).reverse
  let stem := cs.take (cs.length - ending.length - 1)
  if ending.length < cs.length && !ending.isEmpty && !stem.isEmpty then
    String.ofList stem ++ suffix
  else name ++ suffix

def withSuffix (suffix : String) (p : Path) : Path :=
  match p.parts.getLast? with
  | some name => { p with parts := p.parts.dropLast ++ [resuffix suffix name] }
  | none => p

end Path

end CirOutline
