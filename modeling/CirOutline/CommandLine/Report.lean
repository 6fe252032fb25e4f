import CirOutline.Compilation

/-!
How a run ends when something goes wrong: what is reported, and the exit status.
-/

namespace CirOutline.CommandLine

inductive ExitStatus where
  | success
  /-- The source could not be compiled. -/
  | buildError
  /-- Arguments or files are not as they should be. -/
  | invalidArguments
  | internalError

def ExitStatus.code : ExitStatus → Nat
  | success => 0
  | buildError => 1
  | invalidArguments => 2
  | internalError => 3

/-- What can end a run. -/
inductive Trouble where
  | diagnosed (d : Diagnostic)
  /-- A failure of the compiler that is given by its text. -/
  | general (text : String)
  | badArgument (text : String)
  /-- A file is missing or may not be used. -/
  | fileAccess (text : String)
  | unforeseen (text : String)

/-- The report and the exit status. `topic` is what a general failure is called after. -/
def Trouble.report (topic : Option String) : Trouble → String × ExitStatus
  | diagnosed d =>
    if d.fault.area == .internal then ("Internal error: " ++ d.report, .internalError)
    else (d.report, .buildError)
  | general text =>
    let label :=
      match topic with
      | some word => if word.isEmpty then "Error: " else word ++ " error: "
      | none => "Error: "
    (label ++ text, .buildError)
  | badArgument text | fileAccess text => ("Error: " ++ text, .invalidArguments)
  | unforeseen text => ("Internal error: " ++ text, .internalError)

/-- What a failed compilation means for a run. -/
def troubleOf (failure : Failure) : Trouble :=
  match failure with
  | .reported (.diagnosed d) => .diagnosed d
  | .sourceMissing _ | .noSuchFile _ => .fileAccess failure.message
  | .reported (.broken _) | .undecodable _ | .isDirectory _ | .notDirectory _ | .nameTooLong _
  | .nullInName => .unforeseen failure.message

end CirOutline.CommandLine
