import CirOutline.Diagnostic
import CirOutline.Expression
import CirOutline.Mode
import CirOutline.Node
import CirOutline.Options
import CirOutline.Scope
import CirOutline.TemporaryPool

/-!
The state in which C text is produced, and the steps on it. Two lists of lines grow: the header,
with what stands at the top level, and the code, with the definitions of the methods. Lines are
indented by the number of open groups.
-/

namespace CirOutline

/-- What the emission of a program learns on its way. -/
structure Context where
  types : TypeTable
  scope : Scope
  modes : ModeRegistry
  pool : TemporaryPool

/-- The list of lines that is being written. -/
inductive Stream where
  | header | code

/-- The state of an emission. -/
structure Emitter where
  context : Context
  header : List String
  code : List String
  stream : Stream
  /-- The number of open groups. -/
  groups : Nat
  inMethod : Bool
  journal : Journal
  /-- The lines of the source, as far as they are at hand. -/
  lines : List String

namespace Emitter

/-- The start of an emission with a pool of loop counters and the lines of the source. -/
def start (pool : TemporaryPool) (lines : List String) : Emitter where
  context := ⟨TypeTable.builtin, Scope.empty, [], pool⟩
  header := []
  code := []
  stream := .header
  groups := 0
  inMethod := false
  journal := []
  lines := lines

def note (entries : Journal) (e : Emitter) : Emitter := { e with journal := e.journal ++ entries }

/-- Adds a line as it is to the list that is being written. -/
def write (line : String) (e : Emitter) : Emitter :=
  match e.stream with
  | .header => { e with header := e.header ++ [line] }
  | .code => { e with code := e.code ++ [line] }

def margin (indentWidth : Int) (groups : Nat) : Except Breakdown String :=
  Allocation.spaces (indentWidth * groups)

/-- Adds a line, indented unless it is empty. -/
def emit (indentWidth : Int) (line : String) (e : Emitter) : Except Breakdown Emitter :=
  if line.isEmpty then .ok (e.write line)
  else (margin indentWidth e.groups).map fun spaces => e.write (spaces ++ line)

/-- The lines written so far at the top level and for the methods, after the includes. -/
def output (includes : List String) (e : Emitter) : String :=
  "\n".intercalate
    (includes.map (fun name => "#include <" ++ name ++ ">") ++ [""] ++ e.header ++ [""] ++ e.code)

end Emitter

/-- A step of an emission. -/
abbrev Emission := EStateM Stop Emitter

namespace Emission

/-- Fails at the place of a node; the report quotes the line there. -/
def fail {α : Type} (fault : Fault) (place : Option Location) : Emission α := do
  throw (.diagnosed (.quoting (← get).lines fault place))

/-- Fails with a report that quotes no line. -/
def failBare {α : Type} (fault : Fault) (place : Option Location) : Emission α :=
  throw (.diagnosed ⟨fault, place, none⟩)

def breakOff {α : Type} (b : Breakdown) : Emission α := throw (.broken b)

/-- Goes on with a value, or fails at the place of a node. -/
def orFail {α : Type} (place : Option Location) : Except Fault α → Emission α
  | .ok a => pure a
  | .error fault => fail fault place

def learn (f : Context → Context) : Emission Unit :=
  modify fun e => { e with context := f e.context }

def note (severity : Severity) (text : String) : Emission Unit :=
  modify (Emitter.note [⟨.emission, severity, text⟩])

def emit (options : Options) (line : String) : Emission Unit := do
  match (← get).emit options.indentWidth line with
  | .ok e => set e
  | .error b => breakOff b

def startGroup : Emission Unit := modify fun e => { e with groups := e.groups + 1 }

def endGroup : Emission Unit := do
  let e ← get
  if e.groups == 0 then failBare .noOpenGroup none else set { e with groups := e.groups - 1 }

def grouped (inner : Emission Unit) : Emission Unit := do
  startGroup
  inner
  endGroup

def braced (options : Options) (opening : String) (inner : Emission Unit) : Emission Unit := do
  emit options (opening ++ " \x7b")
  grouped inner
  emit options "\x7d"

/-- A statement that runs has to stand inside a method. -/
def requireMethod (action : String) (place : Option Location) : Emission Unit := do
  if (← get).inMethod then pure () else fail (.topLevelStatement action) place

def declare (b : Binding) : Emission Unit := do
  let scope := (← get).context.scope
  modify (Emitter.note (scope.declareEntries b))
  learn fun context => { context with scope := scope.declare b }

def release (counter : String) : Emission Unit := do
  match (← get).context.pool.release counter with
  | .ok pool => learn fun context => { context with pool := pool }
  | .error (.refused fault) => failBare fault none
  | .error (.broken b) => breakOff b

/-- Holds a loop counter while a step runs, and gives it back also when the step fails. -/
def withCounter (place : Option Location) (inner : String → Emission Unit) : Emission Unit := do
  let pool := (← get).context.pool
  match pool.acquire? with
  | none => failBare (.poolExhausted pool.capacity) place
  | some (counter, rest) =>
    learn fun context => { context with pool := rest }
    fun e =>
      match inner counter e with
      | .ok _ e => release counter e
      | .error stop e =>
        match release counter e with
        | .ok _ e => .error stop e
        | .error other e => .error other e

end Emission

end CirOutline
