import CirOutline.Fault
import CirOutline.Journal

/-!
Modes: names with options of which at most one is selected. The preprocessor of C sees a selected
option as a symbol.
-/

namespace CirOutline

/-- A mode, its options in the order of declaration, and the option that is selected. -/
structure Mode where
  name : String
  options : List String
  current : Option String

namespace Mode

def symbol (m : Mode) (option : String) : String := m.name ++ "_" ++ option

def symbols (m : Mode) : List String := m.options.map m.symbol

end Mode

abbrev ModeRegistry := List Mode

namespace ModeRegistry

def find? (modes : ModeRegistry) (name : String) : Option Mode :=
  List.find? (fun m : Mode => m.name == name) modes

/-- Adds a mode or replaces the one of the same name, which keeps its place. -/
def put (m : Mode) : ModeRegistry → ModeRegistry
  | [] => [m]
  | other :: rest => if other.name == m.name then m :: rest else other :: put m rest

def register (modes : ModeRegistry) (name : String) (options : List String) : ModeRegistry :=
  modes.put ⟨name, options, none⟩

/-- The journal entry of a registration that replaces another. -/
def registerEntries (modes : ModeRegistry) (name : String) : Journal :=
  match modes.find? name with
  | some _ =>
    [⟨.context, .warning, "Mode '" ++ name ++ "' registered again; previous options discarded"⟩]
  | none => []

/-- The mode with a name, which has to be registered. -/
def get (modes : ModeRegistry) (name : String) : Except Fault Mode :=
  match modes.find? name with
  | some m => .ok m
  | none => .error (.undefinedMode name)

/-- The mode with a name, of which an option has to exist. -/
def validate (modes : ModeRegistry) (name option : String) : Except Fault Mode :=
  match modes.get name with
  | .error fault => .error fault
  | .ok m =>
    if m.options.contains option then .ok m
    else .error (.invalidOption name option m.options)

end ModeRegistry

end CirOutline
