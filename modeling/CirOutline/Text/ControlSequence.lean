/-!
Control sequences of terminals: an escape character, an opening bracket, parameters and a letter.
What is printed for a reader is freed of them.
-/

namespace CirOutline.Text

/-- A character that may stand among the parameters of a control sequence. -/
def isSequenceParameter (c : Char) : Bool := c == ';' || c == '?' || c.isDigit

/-- The length of the control sequence at the start of a text; zero when there is none. -/
def sequenceLength : List Char → Nat
  | '\x1b' :: '[' :: rest =>
    match rest.dropWhile isSequenceParameter with
    | c :: _ => if c.isAlpha then (rest.takeWhile isSequenceParameter).length + 3 else 0
    | [] => 0
  | _ => 0

/-- A text after its first `skip` characters, without control sequences. -/
def plainChars : (skip : Nat) → List Char → List Char
  | _, [] => []
  | skip + 1, _ :: rest => plainChars skip rest
  | 0, c :: rest =>
    match sequenceLength (c :: rest) with
    | 0 => c :: plainChars 0 rest
    | more + 1 => plainChars more rest

def plain (s : String) : String := String.ofList (plainChars 0 s.toList)

end CirOutline.Text
