import CirOutline.Diagnostic
import CirOutline.Journal
import CirOutline.Node

/-!
The position of the layout reader in a list of tokens, and the steps that read within one line. A
step that fails keeps the position at which it failed.
-/

namespace CirOutline

/-- What reports say of the text that the tokens are from: its lines, as far as they are at hand, and
where it ends. -/
structure Source where
  lines : List String
  ending : Location

namespace Source

/-- The source of tokens; it ends after the last one. -/
def ofTokens (tokens : List Token) (file : String) (lines : List String) : Source where
  lines := lines
  ending :=
    match tokens.getLast? with
    | none => ⟨file, 1, 1⟩
    | some t => ⟨file, t.location.line, t.location.column + t.raw.length⟩

/-- The place of the next token, or where the input ends. -/
def placeOf (source : Source) : List Token → Location
  | [] => source.ending
  | t :: _ => t.location

/-- The report of a fault at a place, with the line there. -/
def report (source : Source) (fault : Fault) (place : Location) : Diagnostic :=
  .quoting source.lines fault (some place)

end Source

/-- Where the layout reader stands. -/
structure Cursor where
  /-- The tokens that are still to be read. -/
  rest : List Token
  /-- The level of the line read last. -/
  level : Nat
  /-- The width of one level, once an indented line has fixed it. -/
  unit : Option Nat
  /-- The names that start a declaration. -/
  typeNames : List String
  journal : Journal
  source : Source

namespace Cursor

def start (tokens : List Token) (file : String) (lines : List String) : Cursor where
  rest := tokens
  level := 0
  unit := none
  typeNames := ["Int", "Byte", arrayTypeName]
  journal := []
  source := .ofTokens tokens file lines

/-- Adds an entry of the layout reader to the journal. -/
def note (severity : Severity) (text : String) (c : Cursor) : Cursor :=
  { c with journal := c.journal ++ [⟨.layout, severity, text⟩] }

def here (c : Cursor) : Location := c.source.placeOf c.rest

end Cursor

/-- A step of the layout reader. -/
abbrev Reader := EStateM Stop Cursor

namespace Reader

def failAt {α : Type} (fault : Fault) (place : Location) : Reader α := do
  throw (.diagnosed ((← get).source.report fault place))

/-- Fails at the next token, or at the end of the input. -/
def failHere {α : Type} (fault : Fault) : Reader α := do
  failAt fault (← get).here

/-- Fails because a token is none of those that may stand there. -/
def failUnexpected {α : Type} (t : Token) (expected : String) : Reader α :=
  failAt (.unexpectedToken t.raw (some expected)) t.location

def takeWhile (p : Token → Bool) : Reader (List Token) :=
  modifyGet fun c => (c.rest.takeWhile p, { c with rest := c.rest.dropWhile p })

def next : Reader Token := do
  let c ← get
  match c.rest with
  | [] => throw (.broken .pastEnd)
  | t :: rest => set { c with rest := rest }; return t

def advance : Reader Unit := do
  let _ ← next

/-- Steps over white space within the line and shows the next token. -/
def skipSpaces : Reader (Option Token) := do
  let _ ← takeWhile fun t => t.kind == .spaces
  return (← get).rest.head?

/-- Takes the next token, white space skipped, if it is of a kind. -/
def accept? (kind : TokenKind) : Reader (Option Token) := do
  match ← skipSpaces with
  | some t => if t.kind == kind then advance; return some t else return none
  | none => return none

/-- Takes the next token, white space skipped, which has to be of a kind. -/
def expect (kind : TokenKind) (description : String) : Reader Token := do
  match ← accept? kind with
  | some t => return t
  | none => failHere (.missingToken description)

/-- Whether the statement part of the line is over. -/
def atLineEnd : Reader Bool := do
  match (← get).rest with
  | [] => return true
  | t :: _ => return t.endsLine

/-- Takes the end of a line. A comment before the line break becomes a node. -/
def finishLine : Reader (List Node) := do
  let comments ←
    match ← accept? .comment with
    | some t => pure [Node.mk (.comment t.raw) (some t.location) []]
    | none => pure []
  match (← get).rest with
  | [] => return comments
  | t :: _ => if t.kind == .lineBreak then advance; return comments else failUnexpected t "end of line"

/-- Takes the colon that closes a header, and the end of the line. -/
def finishHeader : Reader (List Node) := do
  let _ ← expect .colon "':'"
  finishLine

/-- Takes the tokens before the first one that `stop` accepts, which has to be on the line. -/
def takeUntil (stop : Token → Bool) (description : String) : Reader (List Token) := do
  let run ← takeWhile fun t => !t.endsLine && !stop t
  if ← atLineEnd then failHere (.missingToken description) else return run

/-- Takes the rest of the statement part of the line. -/
def takeLine : Reader (List Token) := takeWhile fun t => !t.endsLine

/-- Adds a warning when a keyword is not in upper case. -/
def checkCase (t : Token) : Reader Unit :=
  let canonical := Text.upper t.raw
  if t.raw == canonical then pure ()
  else modify <| Cursor.note .warning
    (t.location.text ++ ": keyword '" ++ t.raw ++ "' should be written '" ++ canonical ++ "'")

end Reader

def Token.runIsBlank (run : List Token) : Bool := run.all fun t => t.kind == .spaces

end CirOutline
