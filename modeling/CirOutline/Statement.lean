import CirOutline.Token

/-!
Statements: what one line of CIR says. Conditions, right-hand sides, arguments and loop bounds are
kept as runs of tokens and rendered as text later.
-/

namespace CirOutline

def arrayTypeName : String := "Array"

/-- A parameter of a method; an array parameter has an element type and dimensions. -/
structure Parameter where
  typeName : String
  name : String
  dimensions : List String
deriving DecidableEq

/-- What a line says, without its place and without the block below it. -/
inductive Statement where
  /-- A comment line; the text includes the slashes. -/
  | comment (text : String)
  /-- Names of one type. For an array the first name is the element type and the others are the
  dimensions. -/
  | declaration (typeName : String) (names : List String) (isMutable : Bool)
  | assignment (name : String) (expression : List Token)
  | call (name : String) (arguments : List Token)
  /-- A part that is left open. -/
  | pass
  | returns (expression : List Token)
  /-- A mode and its options, of which at most one is selected. -/
  | setMode (mode : String) (options : List String)
  /-- A selection that counts when nothing else is selected. -/
  | defaultMode (mode option : String)
  /-- A selection that replaces the one before. -/
  | defineMode (mode option : String)
  /-- A named type with one member. -/
  | structType (name : String)
  | method (name : String) (parameters : List Parameter) (returnType : Option String)
  | ifThen (condition : List Token)
  | elseIf (condition : List Token)
  | otherwise
  | whileLoop (condition : List Token)
  /-- The first word of `start` is the loop variable; `stop` is the last value. -/
  | forLoop (start stop : List Token)
  | repeatLoop (count : List Token)
  /-- A block whose options depend on a mode. -/
  | choose (mode : String)
  /-- One option of a mode-dependent block. -/
  | option (name : String)
deriving DecidableEq

namespace Statement

def kindWords : Statement → List String
  | comment _ => ["comment"]
  | declaration .. => ["declaration"]
  | assignment .. => ["assignment"]
  | call .. => ["method", "call"]
  | pass => ["pass"]
  | returns _ => ["return"]
  | setMode .. => ["set", "mode"]
  | defaultMode .. => ["default", "define"]
  | defineMode .. => ["define"]
  | structType _ => ["structure"]
  | method .. => ["method", "declaration"]
  | ifThen _ => ["if"]
  | elseIf _ => ["else", "if"]
  | otherwise => ["else"]
  | whileLoop _ => ["while"]
  | forLoop .. => ["for"]
  | repeatLoop _ => ["repeat"]
  | choose _ => ["choose"]
  | option _ => ["choose", "option"]

def label (s : Statement) : String := String.join (s.kindWords.map String.capitalize)

/-- The kind of a statement in lower case, words joined by underscores. -/
def kindName (s : Statement) : String := "_".intercalate s.kindWords

/-- The kinds that own the block below their line. -/
def opensBlock : Statement → Bool
  | structType _ | method .. | ifThen _ | elseIf _ | otherwise | whileLoop _ | forLoop ..
  | repeatLoop _ | choose _ | option _ => true
  | _ => false

/-- The loop variable: the first word of the start clause. -/
def iterator? (start : List Token) : Option String :=
  (start.find? fun t => t.kind == .word).map Token.raw

/-- Statements that say the same: equal up to the places of their tokens. -/
def agrees : Statement → Statement → Bool
  | assignment n e, assignment m f => n == m && Token.runsAgree e f
  | call n e, call m f => n == m && Token.runsAgree e f
  | returns e, returns f => Token.runsAgree e f
  | ifThen e, ifThen f => Token.runsAgree e f
  | elseIf e, elseIf f => Token.runsAgree e f
  | whileLoop e, whileLoop f => Token.runsAgree e f
  | forLoop e e', forLoop f f' => Token.runsAgree e f && Token.runsAgree e' f'
  | repeatLoop e, repeatLoop f => Token.runsAgree e f
  | s, t => decide (s = t)

end Statement

end CirOutline
