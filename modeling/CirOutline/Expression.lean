import CirOutline.Token

/-!
Rendering runs of tokens as C text. White space is dropped and spacing is built anew: one space
around binary operators and after commas, none inside parentheses and brackets, before commas and
after unary operators. Nothing is checked.
-/

namespace CirOutline.Expression

/-- Tokens other than white space, line breaks and comments. -/
def significant (run : List Token) : List Token :=
  run.filter fun t => t.kind != .spaces && t.kind != .lineBreak && t.kind != .comment

def opens (t : Token) : Bool := t.kind == .openParen || t.raw == "["

def closes (t : Token) : Bool := t.kind == .closeParen || t.raw == "]"

/-- A token that an operand can end with, so that a sign after it has two operands. -/
def endsOperand (t : Token) : Bool := t.kind == .word || t.kind == .number || closes t

def isUnary (previous : Option Token) (t : Token) : Bool :=
  t.kind == .operator &&
    (t.raw == "!" || t.raw == "~" ||
      (t.raw == "-" || t.raw == "+") && !previous.any endsOperand)

/-- A token as C spells it: the operators that are words become symbols. -/
def spell (t : Token) : String :=
  if t.kind == .operator then
    if t.raw == "and" then "&&"
    else if t.raw == "or" then "||"
    else if t.raw == "is" then "=="
    else t.raw
  else t.raw

/-- Whether a space stands between two neighbours, of which the first may be a unary operator. -/
def spaced (previous : Token) (previousUnary : Bool) (t : Token) : Bool :=
  if closes t || t.kind == .comma then false
  else if opens previous || previousUnary then false
  else if previous.kind == .comma then true
  else !(opens t && endsOperand previous)

/-- The texts of tokens with the spaces between them; `before` is the token in front and whether it
is a unary operator. -/
def pieces : (before : Option (Token × Bool)) → List Token → List String
  | _, [] => []
  | before, t :: rest =>
    let gap :=
      match before with
      | some (previous, previousUnary) => if spaced previous previousUnary t then [" "] else []
      | none => []
    gap ++ spell t :: pieces (some (t, isUnary (before.map Prod.fst) t)) rest

def render (run : List Token) : String := String.join (pieces none (significant run))

/-- Puts a token in front of the first of several arguments. -/
def consFirst (t : Token) : List (List Token) → List (List Token)
  | [] => [[t]]
  | first :: others => (t :: first) :: others

/-- Splits at the commas outside of parentheses and brackets; `depth` counts those that are open. -/
def splitAtCommas : (depth : Int) → List Token → List (List Token)
  | _, [] => [[]]
  | depth, t :: rest =>
    if opens t then consFirst t (splitAtCommas (depth + 1) rest)
    else if closes t then consFirst t (splitAtCommas (depth - 1) rest)
    else if t.kind == .comma && depth == 0 then [] :: splitAtCommas depth rest
    else consFirst t (splitAtCommas depth rest)

/-- The arguments in a run; none when nothing significant is there. -/
def arguments (run : List Token) : List (List Token) :=
  match significant run with
  | [] => []
  | tokens => splitAtCommas 0 tokens

end CirOutline.Expression
