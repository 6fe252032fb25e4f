import CirOutline.Allocation
import CirOutline.Fault
import CirOutline.Text.Lines

/-!
Reports of faults: the place and the wording, the source line with a caret under the column, and a
hint.
-/

namespace CirOutline

/-- A fault with its place and the source line at that place. -/
structure Diagnostic where
  fault : Fault
  location : Option Location
  context : Option String
deriving DecidableEq

namespace Diagnostic

/-- A fault at a place of a text, with the line there as far as the lines are at hand. -/
def quoting (lines : List String) (fault : Fault) (place : Option Location) : Diagnostic where
  fault := fault
  location := place
  context := place.bind fun location => Text.lineAt? lines location.line

/-- A line of spaces and a caret under a column of a line that is shown indented by four. -/
def caret (column : Int) : String :=
  String.ofList (List.replicate (4 + column - 1).toNat ' ' ++ ['^'])

def reportLines (d : Diagnostic) : List String :=
  let headline :=
    match d.location with
    | some location => location.text ++ ": error: " ++ d.fault.message
    | none => "error: " ++ d.fault.message
  let shown :=
    match d.context, d.location with
    | some line, some location =>
      ("    " ++ line) :: (if location.column > 0 then [caret location.column] else [])
    | _, _ => []
  let advice :=
    match d.fault.hint with
    | some hint => if hint.isEmpty then [] else ["hint: " ++ hint]
    | none => []
  headline :: shown ++ advice

def report (d : Diagnostic) : String := "\n".intercalate d.reportLines

end Diagnostic

/-- Why a stage stops. -/
inductive Stop where
  | diagnosed (d : Diagnostic)
  | broken (b : Breakdown)
deriving DecidableEq

def Stop.text : Stop → String
  | diagnosed d => d.report
  | broken b => b.message

end CirOutline
