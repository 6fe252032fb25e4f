import CirOutline.Statement

/-!
Trees of statements. A node is a statement with its place and the block below it; a program is a
list of nodes.
-/

namespace CirOutline

/-- A statement, the place where it starts, and the nodes of its block. -/
inductive Node where
  | mk (statement : Statement) (location : Option Location) (body : List Node)

namespace Node

def statement : Node → Statement
  | mk statement _ _ => statement

def location : Node → Option Location
  | mk _ location _ => location

/-- The nodes of the block below the node's line. -/
def body : Node → List Node
  | mk _ _ body => body

def isComment (n : Node) : Bool :=
  match n.statement with
  | .comment _ => true
  | _ => false

def isConditional (n : Node) : Bool :=
  match n.statement with
  | .ifThen _ | .elseIf _ => true
  | _ => false

/-- A node as the journal shows it: its kind and its line and column. -/
def tag (n : Node) : String :=
  n.statement.label ++ "Node" ++
    match n.location with
    | some l => "@" ++ toString l.line ++ ":" ++ toString l.column
    | none => ""

mutual
def agrees : Node → Node → Bool
  | mk s _ body, mk t _ other => s.agrees t && allAgree body other

/-- Lists of trees that say the same one by one. -/
def allAgree : List Node → List Node → Bool
  | [], [] => true
  | a :: as, b :: bs => a.agrees b && allAgree as bs
  | _, _ => false
end

end Node

end CirOutline
