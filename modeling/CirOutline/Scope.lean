import CirOutline.CType
import CirOutline.EditDistance
import CirOutline.Journal
import CirOutline.Text.LetterCase

/-!
Declared variables. Declarations at the top level are global; those of a method are local to it and
hide global ones of the same name.
-/

namespace CirOutline

/-- A declared variable. The counter of a loop whose header names no variable has no name. -/
structure Binding where
  name : Option String
  type : CType
  isMutable : Bool

/-- Adds a binding; one with the same name keeps its place. -/
def Binding.put (b : Binding) : List Binding → List Binding
  | [] => [b]
  | other :: rest => if other.name == b.name then b :: rest else other :: b.put rest

def Binding.find? (bindings : List Binding) (name : Option String) : Option Binding :=
  bindings.find? fun b => b.name == name

/-- The variables in sight; there are local ones inside a method only. -/
structure Scope where
  globals : List Binding
  locals : Option (List Binding)

namespace Scope

def empty : Scope := ⟨[], none⟩

def enterMethod (s : Scope) : Scope := { s with locals := some [] }

def exitMethod (s : Scope) : Scope := { s with locals := none }

def current (s : Scope) : List Binding := s.locals.getD s.globals

def declare (s : Scope) (b : Binding) : Scope :=
  match s.locals with
  | none => { s with globals := b.put s.globals }
  | some locals => { s with locals := some (b.put locals) }

def nameText (name : Option String) : String := name.getD "None"

/-- The journal entry of a declaration that replaces another. -/
def declareEntries (s : Scope) (b : Binding) : Journal :=
  match Binding.find? s.current b.name with
  | some _ =>
    [⟨.context, .debug, "Redeclaring '" ++ nameText b.name ++ "' as " ++ b.type.text⟩]
  | none => []

def forget (s : Scope) (name : Option String) : Scope :=
  { s with locals := s.locals.map fun locals => locals.filter fun b => b.name != name }

/-- The variable that a name means: a local one, or else a global one. -/
def lookup (s : Scope) (name : Option String) : Option Binding :=
  match Binding.find? (s.locals.getD []) name with
  | some b => some b
  | none => Binding.find? s.globals name

/-- The names in sight: local ones, then the global ones that none of them hides. -/
def visible (s : Scope) : List (Option String) :=
  let locals := (s.locals.getD []).map Binding.name
  locals ++ (s.globals.map Binding.name).filter fun name => !locals.contains name

/-- Whether two names are easily mistaken for each other: equal up to case, or nearly as long and
at most two edits apart. -/
def resembles (name known : String) : Bool :=
  let low := Text.lower name
  let knownLow := Text.lower known
  knownLow == low ||
    (known.length ≤ name.length + 1 && name.length ≤ known.length + 1 &&
      EditDistance.distance low.toList knownLow.toList ≤ 2)

/-- The first three names in sight that resemble a name; every variable in sight has to have one. -/
def similar (s : Scope) (name : String) : Except Breakdown (List String) :=
  match s.visible.mapM id with
  | some names => .ok ((names.filter (resembles name)).take 3)
  | none => .error .namelessVariable

end Scope

end CirOutline
