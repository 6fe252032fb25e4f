import CirOutline.Fault

/-!
C types and the table from CIR type names to them.
-/

namespace CirOutline

/-- A C type: the spelling of the element type, and the array dimensions, the outermost first. -/
structure CType where
  name : String
  dimensions : List String

namespace CType

def isArray (t : CType) : Bool := !t.dimensions.isEmpty

def suffix (t : CType) : String := String.join (t.dimensions.map fun d => "[" ++ d ++ "]")

def text (t : CType) : String := t.name ++ t.suffix

def declare (t : CType) (identifier : String) : String := t.name ++ " " ++ identifier ++ t.suffix

/-- The C type of a result that is not there. -/
def void : String := "void"

def int : CType := ⟨"int", []⟩

end CType

/-- CIR type names with their C spellings, in the order of registration. -/
abbrev TypeTable := List (String × String)

namespace TypeTable

def builtin : TypeTable := [("Int", "int"), ("Byte", "uint8_t")]

def names (table : TypeTable) : List String := table.map Prod.fst

def knows (table : TypeTable) (name : String) : Bool := table.names.contains name

/-- Adds a type that C spells like CIR. A name that is there already keeps its place. -/
def register (name : String) : TypeTable → TypeTable
  | [] => [(name, name)]
  | entry :: rest =>
    if entry.1 == name then (name, name) :: rest else entry :: register name rest

def resolve (table : TypeTable) (name : String) (dimensions : List String) : Except Fault CType :=
  match table.lookup name with
  | some spelling => .ok ⟨spelling, dimensions⟩
  | none => .error (.unknownType name table.names)

end TypeTable

end CirOutline
