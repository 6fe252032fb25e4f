/-!
The journal of a run: what each stage notes while it works, in order.
-/

namespace CirOutline

/-- The stage that makes an entry. -/
inductive Stage where
  | layout | emission | context | compilation
deriving DecidableEq

/-- How much an entry matters. -/
inductive Severity where
  | debug | warning
deriving DecidableEq

def Severity.name : Severity → String
  | debug => "DEBUG"
  | warning => "WARNING"

/-- One entry of a journal. -/
structure Entry where
  stage : Stage
  severity : Severity
  text : String

/-- Entries in the order in which they were made. -/
abbrev Journal := List Entry

def Journal.warnings (journal : Journal) (stage : Stage) : List String :=
  (journal.filter fun entry => entry.stage == stage && entry.severity == .warning).map Entry.text

end CirOutline
