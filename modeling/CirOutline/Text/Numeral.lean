import CirOutline.Text.Blank
import CirOutline.Text.Digit

/-!
Integers as users write them: white space around, an optional sign, decimal digits of any script
and single underscores between digits. A numeral has at most `digitLimit` digits.
-/

namespace CirOutline.Text.Numeral

def digitLimit : Nat := 4300

/-- White space allowed around a numeral: all of it but the four information separators. -/
def isMargin (c : Char) : Bool := isBlank c && !(0x1C ≤ c.toNat && c.toNat ≤ 0x1F)

/-- The digits of a numeral; `afterDigit` says that an underscore or the end may come next. -/
def digits? : (afterDigit : Bool) → List Char → Option (List Nat)
  | afterDigit, [] => if afterDigit then some [] else none
  | afterDigit, c :: rest =>
    if afterDigit && c == '_' then digits? false rest
    else match decimalValue? c with
      | some value => (digits? true rest).map (value :: ·)
      | none => none

def value (digits : List Nat) : Nat := digits.foldl (fun n d => 10 * n + d) 0

/-- The number without a sign that the text writes. -/
def natural? (cs : List Char) : Option Nat :=
  match digits? false cs with
  | some digits => if digits.length ≤ digitLimit then some (value digits) else none
  | none => none

def integer? (s : String) : Option Int :=
  match dropEndWhile isMargin (s.toList.dropWhile isMargin) with
  | '-' :: rest => (natural? rest).map fun n => -Int.ofNat n
  | '+' :: rest => (natural? rest).map Int.ofNat
  | rest => (natural? rest).map Int.ofNat

end CirOutline.Text.Numeral
