/-!
The lines of a text. A line ends at a line feed, a carriage return, the two together, or one of the
other characters that separate lines; the separators are not part of the lines.
-/

namespace CirOutline.Text

def endsTextLine (c : Char) : Bool :=
  c == '\n' || c == '\r' || c == '\x0b' || c == '\x0c' || c == '\x1c' || c == '\x1d' ||
    c == '\x1e' || c == '\x85' || c == '\u2028' || c == '\u2029'

def lineChars : List Char → List (List Char)
  | [] => []
  | '\r' :: '\n' :: rest => [] :: lineChars rest
  | c :: rest =>
    if endsTextLine c then [] :: lineChars rest
    else match lineChars rest with
      | [] => [[c]]
      | line :: more => (c :: line) :: more

def lines (s : String) : List String := (lineChars s.toList).map String.ofList

/-- Line ends made uniform: a carriage return, alone or before a line feed, becomes a line feed. -/
def uniformLineEnds : List Char → List Char
  | [] => []
  | '\r' :: '\n' :: rest => '\n' :: uniformLineEnds rest
  | c :: rest => (if c == '\r' then '\n' else c) :: uniformLineEnds rest

def lineAt? (lines : List String) (number : Int) : Option String :=
  if number ≤ 0 then none else lines[(number - 1).toNat]?

end CirOutline.Text
