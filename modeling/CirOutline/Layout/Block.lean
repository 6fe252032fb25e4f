import CirOutline.Layout.Line
import CirOutline.Node.Outline

/-!
The off-side rule. A block keeps taking lines while they are at its level or deeper; the first
shallower line ends it and is handed back unread. The first indented line fixes the width of one
level, and every other indented line has to be a multiple of it.
-/

namespace CirOutline

/-- The tokens after the blank lines in front; a line of white space is blank. -/
def dropBlankLines : List Token → List Token
  | [] => []
  | t :: rest =>
    if t.kind == .lineBreak then dropBlankLines rest
    else if t.kind == .spaces then
      match rest with
      | [] => []
      | next :: _ => if next.kind == .lineBreak then dropBlankLines rest else t :: rest
    else t :: rest

namespace Reader

/-- Takes the white space in front of a line and gives the level of the line. -/
def indentation : Reader Nat := do
  let c ← get
  match c.rest with
  | [] => set { c with level := 0 }; return 0
  | t :: rest =>
    if t.kind != .spaces then
      set { c with level := 0 }
      return 0
    else
      let width := t.raw.length
      match c.unit with
      | none =>
        set { c with rest := rest, unit := some width }
        modify <| Cursor.note .debug
          ("Indentation unit is " ++ toString width ++ " (line " ++ toString t.location.line ++ ")")
        if width == 0 then throw (.broken .emptyIndentationUnit)
        else
          modify fun c => { c with level := 1 }
          return 1
      | some unit =>
        set { c with rest := rest }
        if width % unit != 0 then failAt (.improperIndentation width unit) t.location
        else
          modify fun c => { c with level := width / unit }
          return width / unit

/-- Looks for the next line of a block: its level and its first token. There is none at the end of
the input and before a shallower line, which is handed back unread. -/
def nextLine (floor : Nat) : Reader (Option (Nat × Token)) := do
  modify fun c => { c with rest := dropBlankLines c.rest }
  let before ← get
  if before.rest.isEmpty then return none
  else
    let level ← indentation
    if level < floor then
      modify fun c => { c with rest := before.rest, level := before.level }
      return none
    else
      match (← get).rest with
      | [] => throw (.broken .noToken)
      | t :: _ => return some (level, t)

end Reader

/-- A block that could not be read: why, the position, and the nodes of the block that were
complete. -/
structure BlockFailure where
  stop : Stop
  cursor : Cursor
  built : List Node

def Cursor.enter (floor : Nat) (c : Cursor) : Cursor :=
  c.note .debug ("Entering block at level " ++ toString floor)

/-- Notes that a block with a number of nodes ends. -/
def Cursor.leave (floor count : Nat) (c : Cursor) : Cursor :=
  c.note .debug
    ("Leaving block at level " ++ toString floor ++ " (" ++ toString count ++ " nodes)")

def BlockFailure.ofStall (c : Cursor) (built : List Node) : BlockFailure :=
  ⟨.diagnosed (c.source.report .stalled c.here), c, built⟩

/-- Reads the lines of a block at level `floor` or deeper and the blocks below them; `done` holds
the nodes that the block has already. Every pass has to take a token. -/
def readBlock (reader : LineReader) (floor : Nat) (done : List Node) (c : Cursor) :
    Except BlockFailure (List Node × Cursor) :=
  match Reader.nextLine floor c with
  | .error stop c₁ => .error ⟨stop, c₁, done⟩
  | .ok none c₁ => .ok (done, c₁.leave floor done.length)
  | .ok (some (level, t)) c₁ =>
    match Reader.line reader t level done c₁ with
    | .error stop c₂ => .error ⟨stop, c₂, done⟩
    | .ok line c₂ =>
      if c₂.rest.length < c.rest.length then
        match line with
        | .complete nodes => readBlock reader floor (done ++ nodes) c₂
        | .header statement location comments body =>
          match readBlock body.reader (level + 1) comments (c₂.enter (level + 1)) with
          | .error failure => .error { failure with built := done }
          | .ok (nodes, c₃) =>
            match body.close c₃.source nodes with
            | .error report => .error ⟨.diagnosed report, c₃, done⟩
            | .ok members =>
              if c₃.rest.length < c.rest.length then
                readBlock reader floor (done ++ [.mk statement (some location) members]) c₃
              else .error (.ofStall c₃ done)
      else .error (.ofStall c₂ done)
termination_by c.rest.length
decreasing_by all_goals assumption

/-- A program read from tokens. -/
structure Program where
  nodes : List Node
  unit : Option Nat
  journal : Journal

/-- Tokens that are no program: the report, the position, and the nodes that were complete. -/
structure ProgramFailure where
  report : Stop
  cursor : Cursor
  built : List Node

/-- The entries that a problem leaves: the tokens not read and the outline of the complete nodes. -/
def BlockFailure.entries (failure : BlockFailure) : Journal :=
  let rest := failure.cursor.rest
  let lines := ("Parse failed with " ++ toString rest.length ++ " tokens remaining:") ::
    rest.map (fun t => "  " ++ t.listing) ++ "Nodes built so far:" ::
    (Text.lines (Node.outline Node.outlineIndent failure.built)).map fun line => "  " ++ line
  lines.map fun text => ⟨.layout, .debug, text⟩

/-- The failure of a whole program. -/
def BlockFailure.toProgramFailure (failure : BlockFailure) : ProgramFailure where
  report := failure.stop
  cursor :=
    match failure.stop with
    | .diagnosed _ => { failure.cursor with journal := failure.cursor.journal ++ failure.entries }
    | .broken _ => failure.cursor
  built := failure.built

/-- Reads a list of tokens with one reader of lines at the top level. -/
def readTokens (reader : LineReader) (tokens : List Token) (file : String) (lines : List String) :
    Except ProgramFailure Program :=
  match readBlock reader 0 [] ((Cursor.start tokens file lines).enter 0) with
  | .ok (nodes, c) => .ok ⟨nodes, c.unit, c.journal⟩
  | .error failure => .error failure.toProgramFailure

/-- Reads a program. The lines of the source serve the reports only. -/
def readProgram (tokens : List Token) (file : String) (lines : List String) :
    Except ProgramFailure Program :=
  readTokens .statements tokens file lines

end CirOutline
