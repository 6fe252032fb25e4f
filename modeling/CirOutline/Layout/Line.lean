import CirOutline.Layout.Sequence

/-!
Reading one line: a complete statement, or the header of a block.
-/

namespace CirOutline

/-- What the block below a header holds. -/
inductive BodyKind where
  | statements
  /-- The options of a mode-dependent block. -/
  | options
  /-- The one member of a named type, whose name stands at a place. -/
  | member (name : Location)

/-- What a line is: nodes that need nothing more, or a header with its trailing comment. -/
inductive Line where
  | complete (nodes : List Node)
  | header (statement : Statement) (location : Location) (comments : List Node) (body : BodyKind)

/-- How the lines of a block are read. -/
inductive LineReader where
  | statements
  | options
  /-- Takes nothing; a block read this way stalls at its first line. -/
  | idle

def BodyKind.reader : BodyKind → LineReader
  | .options => .options
  | .statements | .member _ => .statements

/-- Whether a further branch may follow: the last node that is no comment is a condition. -/
def branchMayFollow (siblings : List Node) : Bool :=
  match siblings.reverse.find? fun n => !n.isComment with
  | some n => n.isConditional
  | none => false

namespace Reader

/-- Ends a statement that fits on its line; a trailing comment follows it as a node. -/
def complete (statement : Statement) (location : Location) : Reader Line := do
  return .complete (.mk statement (some location) [] :: (← finishLine))

def openBlock (statement : Statement) (location : Location) (body : BodyKind) : Reader Line := do
  return .header statement location (← finishHeader) body

def commentLine (t : Token) : Reader Line := do
  advance
  let _ ← finishLine
  return .complete [.mk (.comment t.raw) (some t.location) []]

/-- A declaration; the cursor is on the name of the type. -/
def declaration (typeToken : Token) (isMutable : Bool) : Reader Line := do
  advance
  let _ ← expect .openParen "'('"
  let names ← sequence fun source => readItems "declaration list" source true
  if names.isEmpty then
    failAt (.missingToken ("a name to declare as " ++ typeToken.raw)) typeToken.location
  else complete (.declaration typeToken.raw names isMutable) typeToken.location

def callLine (name : Token) : Reader Line := do
  advance
  let opening ← expect .openParen "'('"
  let arguments ← sequence fun source => readArguments opening source 0
  complete (.call name.raw arguments) name.location

/-- An assignment; the cursor is on its name. -/
def assignmentLine (name : Token) : Reader Line := do
  advance
  let _ ← expect .setEquals "'='"
  let _ ← skipSpaces
  let expression ← takeLine
  if Token.runIsBlank expression then failHere (.missingToken "an expression after '='")
  else complete (.assignment name.raw expression) name.location

/-- A line that starts with a word: what follows the word decides. -/
def wordLine (word : Token) : Reader Line := do
  let c ← get
  match (c.rest.tail.dropWhile fun t => t.kind == .spaces).head? with
  | some next =>
    if next.kind == .openParen then
      if c.typeNames.contains word.raw then declaration word false else callLine word
    else if next.kind == .setEquals then assignmentLine word
    else failUnexpected (if next.endsLine then word else next) "'(' or '=' after a name"
  | none => failUnexpected word "'(' or '=' after a name"

/-- The header of a named type. The name is a type from here on. -/
def structureLine (keyword : Token) : Reader Line := do
  advance
  let name ← expect .word "structure name"
  modify fun c => { c with typeNames := c.typeNames ++ [name.raw] }
  openBlock (.structType name.raw) keyword.location (.member name.location)

/-- The parameters of a method: none, or a list in parentheses. -/
def methodParameters : Reader (List Parameter) := do
  match ← accept? .openParen with
  | some opening => sequence fun source => readParameters opening source (.typeName true)
  | none => return []

/-- The result type of a method: none, or a word after an arrow. -/
def methodResult : Reader (Option String) := do
  match ← accept? .returnArrow with
  | some _ => return some (← expect .word "return type").raw
  | none => return none

def methodLine (keyword : Token) (level : Nat) : Reader Line := do
  advance
  if level != 0 then failAt .nestedMethod keyword.location
  else
    let name ← expect .word "method name"
    let parameters ← methodParameters
    let returnType ← methodResult
    openBlock (.method name.raw parameters returnType) keyword.location .statements

def commandShapes : List (String × String) := [
  ("SETMODE", "SETMODE name(option, ...)"),
  ("DEFAULT", "DEFAULT name = option"),
  ("DEFINE", "DEFINE name = option")]

def failMalformed {α : Type} (keyword : Token) : Reader α :=
  let command := Text.upper keyword.raw
  match commandShapes.lookup command with
  | some shape => failAt (.malformedCommand command (some shape)) keyword.location
  | none => throw (.broken (.unknownCommand command))

/-- A name, an equals sign and an option: the selection of a command. -/
def modeChoice (keyword : Token) : Reader (String × String) := do
  let some mode ← accept? .word | failMalformed keyword
  let some _ ← accept? .setEquals | failMalformed keyword
  let some choice ← accept? .word | failMalformed keyword
  let _ ← skipSpaces
  if ← atLineEnd then return (mode.raw, choice.raw) else failMalformed keyword

def modeLine (keyword : Token) (statement : String → String → Statement) : Reader Line := do
  advance
  let (mode, choice) ← modeChoice keyword
  complete (statement mode choice) keyword.location

def setModeLine (keyword : Token) : Reader Line := do
  advance
  let some mode ← accept? .word | failMalformed keyword
  let some _ ← accept? .openParen | failMalformed keyword
  let options ← sequence fun source => readItems "option list" source true
  if options.isEmpty then failMalformed keyword
  else
    let _ ← skipSpaces
    if ← atLineEnd then complete (.setMode mode.raw options) keyword.location
    else failMalformed keyword

def mutableLine (keyword : Token) : Reader Line := do
  advance
  let next ← skipSpaces
  match next with
  | some typeToken =>
    if typeToken.kind == .word && (← get).typeNames.contains typeToken.raw then
      declaration typeToken true
    else failAt (.missingToken "a declaration after MUTABLE") keyword.location
  | none => failAt (.missingToken "a declaration after MUTABLE") keyword.location

/-- The tokens of a condition, up to the colon. -/
def condition : Reader (List Token) := do
  let _ ← skipSpaces
  let run ← takeUntil (fun t => t.kind == .colon) "':'"
  if Token.runIsBlank run then failHere (.missingToken "a condition") else return run

def conditionLine (keyword : Token) (statement : List Token → Statement) : Reader Line := do
  advance
  let run ← condition
  openBlock (statement run) keyword.location .statements

def elseLine (keyword : Token) : Reader Line := do
  advance
  openBlock .otherwise keyword.location .statements

def repeatLine (keyword : Token) : Reader Line := do
  advance
  let _ ← skipSpaces
  let count ← takeUntil (fun t => t.keyword? == some .timesKey) "'TIMES'"
  if Token.runIsBlank count then failHere (.missingToken "a repeat count")
  else
    checkCase (← next)
    openBlock (.repeatLoop count) keyword.location .statements

/-- Whether a start clause assigns to the loop variable: at least a name, an equals sign and one
more token. -/
def startsLoop (start : List Token) : Bool :=
  match start.filter fun t => t.kind != .spaces with
  | _ :: second :: _ :: _ => second.kind == .setEquals
  | _ => false

def forLine (keyword : Token) : Reader Line := do
  advance
  let iterator ← expect .word "loop variable"
  let run ← takeUntil (fun t => t.keyword? == some .toKey) "'TO'"
  let start := iterator :: run
  if !startsLoop start then
    failAt (.missingToken ("'" ++ iterator.raw ++ " = <start>' before TO")) iterator.location
  else
    checkCase (← next)
    let _ ← skipSpaces
    let stop ← takeUntil (fun t => t.kind == .colon) "':'"
    if Token.runIsBlank stop then failHere (.missingToken "a loop bound after TO")
    else openBlock (.forLoop start stop) keyword.location .statements

def chooseLine (keyword : Token) : Reader Line := do
  advance
  let mode ← expect .word "mode name"
  openBlock (.choose mode.raw) keyword.location .options

def returnLine (keyword : Token) : Reader Line := do
  advance
  let _ ← skipSpaces
  let expression ← takeLine
  complete (.returns expression) keyword.location

/-- A further branch has to follow a condition. -/
def checkBranch (t : Token) (siblings : List Node) : Reader Unit :=
  if branchMayFollow siblings then pure ()
  else failAt (.danglingElse (Text.upper t.raw)) t.location

def keywordStatement (t : Token) (level : Nat) (siblings : List Node) (keyword : Option Keyword) :
    Reader Line := do
  match keyword with
  | some .structureKey => structureLine t
  | some .methodKey => methodLine t level
  | some .passKey => advance; complete .pass t.location
  | some .defaultKey => modeLine t .defaultMode
  | some .defineKey => modeLine t .defineMode
  | some .setModeKey => setModeLine t
  | some .mutableKey => mutableLine t
  | some .repeatKey => repeatLine t
  | some .ifKey => conditionLine t .ifThen
  | some .elseIfKey | some .elsIfKey | some .elIfKey =>
    checkBranch t siblings
    conditionLine t .elseIf
  | some .elseKey =>
    checkBranch t siblings
    elseLine t
  | some .whileKey => conditionLine t .whileLoop
  | some .forKey => forLine t
  | some .chooseKey => chooseLine t
  | some .returnKey => returnLine t
  | some .timesKey | some .toKey | none => failUnexpected t "a statement"

def keywordLine (t : Token) (level : Nat) (siblings : List Node) : Reader Line := do
  checkCase t
  keywordStatement t level siblings t.keyword?

/-- A line of a block of statements; `t` is its first token. -/
def statementLine (t : Token) (level : Nat) (siblings : List Node) : Reader Line :=
  match t.kind with
  | .comment => commentLine t
  | .keyword => keywordLine t level siblings
  | .word => wordLine t
  | _ => failUnexpected t "a statement"

/-- A line of a mode-dependent block; `t` is its first token. -/
def optionLine (t : Token) : Reader Line :=
  match t.kind with
  | .comment => commentLine t
  | .word => do
    advance
    openBlock (.option t.raw) t.location .statements
  | _ => failUnexpected t "an 'OPTION:' line"

/-- A line of a block; `t` is its first token. -/
def line (reader : LineReader) (t : Token) (level : Nat) (siblings : List Node) : Reader Line :=
  match reader with
  | .statements => statementLine t level siblings
  | .options => optionLine t
  | .idle => return .complete []

end Reader

/-- The block of a header from the nodes below it. A named type keeps its one member and drops the
comments; other blocks keep everything. -/
def BodyKind.close (source : Source) (body : BodyKind) (nodes : List Node) :
    Except Diagnostic (List Node) :=
  match body with
  | .statements | .options => .ok nodes
  | .member name =>
    match nodes.filter fun n => !n.isComment with
    | [] =>
      .error (source.report (.missingToken "a declaration or PASS in the STRUCTURE body") name)
    | [only] => .ok [only]
    | _ :: second :: _ =>
      .error (.quoting source.lines (.unsupported "complex structures currently unimplemented"
        (some "give the STRUCTURE a single Array declaration or PASS")) second.location)

end CirOutline
