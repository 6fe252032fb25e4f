import CirOutline.Node
import CirOutline.Text.Blank

/-!
The outline of a program: one line per node, indented by its depth, with the kind of the node and
what it says.
-/

namespace CirOutline

/-- The source text of a run without the white space around it. -/
def Token.trimmedText (run : List Token) : String := Text.trim (Token.runText run)

def Parameter.outline (p : Parameter) : String :=
  if p.dimensions.isEmpty then p.typeName ++ " " ++ p.name
  else "Array[" ++ p.typeName ++ ", " ++ ", ".intercalate p.dimensions ++ "] " ++ p.name

def Statement.outline (s : Statement) : String :=
  let label := s.label
  match s with
  | .comment text => label ++ " " ++ text
  | .declaration typeName names isMutable =>
    label ++ " " ++ (if isMutable then "MUTABLE " else "") ++ typeName ++ "(" ++
      ", ".intercalate names ++ ")"
  | .assignment name expression => label ++ " " ++ name ++ " = " ++ Token.trimmedText expression
  | .call name arguments => label ++ " " ++ name ++ "(" ++ Token.trimmedText arguments ++ ")"
  | .structType name => label ++ " " ++ name
  | .method name parameters returnType =>
    label ++ " " ++ name ++ "(" ++ ", ".intercalate (parameters.map Parameter.outline) ++ ")" ++
      match returnType with
      | some typeName => if typeName.isEmpty then "" else " -> " ++ typeName
      | none => ""
  | .ifThen condition | .elseIf condition | .whileLoop condition =>
    label ++ " " ++ Token.trimmedText condition
  | .forLoop start stop =>
    label ++ " " ++ Token.trimmedText start ++ " TO " ++ Token.trimmedText stop
  | .repeatLoop count => label ++ " " ++ Token.trimmedText count ++ " TIMES"
  | .choose mode => label ++ " " ++ mode
  | .option name => label ++ " " ++ name
  | .setMode mode options => label ++ " " ++ mode ++ "(" ++ ", ".intercalate options ++ ")"
  | .defaultMode mode choice | .defineMode mode choice => label ++ " " ++ mode ++ " = " ++ choice
  | .returns expression => Text.trimEnd (label ++ " " ++ Token.trimmedText expression)
  | .pass | .otherwise => label

namespace Node

def outlineMargin (indent : String) (depth : Nat) : String :=
  String.join (List.replicate depth indent)

mutual
/-- The outline of a tree that stands at a depth. -/
def outlineLines (indent : String) (depth : Nat) : Node → List String
  | mk statement _ body =>
    (outlineMargin indent depth ++ statement.outline) :: allOutlineLines indent (depth + 1) body

def allOutlineLines (indent : String) (depth : Nat) : List Node → List String
  | [] => []
  | n :: rest => n.outlineLines indent depth ++ allOutlineLines indent depth rest
end

/-- The indentation of outlines unless another is asked for. -/
def outlineIndent : String := "  "

def outline (indent : String) (nodes : List Node) : String :=
  "\n".intercalate (allOutlineLines indent 0 nodes)

end Node

end CirOutline
