/-!
The edit distance of two texts, computed row by row: a row holds the distances from a part of one
text to the initial parts of the other.
-/

namespace CirOutline.EditDistance

/-- The rest of the next row. `column` is what is left of the other text, `above` the row before
from the current place on, and `left` the last distance of the new row. -/
def extendRow (c : Char) : (column : List Char) → (above : List Nat) → (left : Nat) → List Nat
  | d :: column, diagonal :: up :: above, left =>
    let distance := if c == d then diagonal else 1 + min diagonal (min up left)
    distance :: extendRow c column (up :: above) distance
  | _, _, _ => []

/-- The row after `row`, which is the `index`-th, for one more character. -/
def nextRow (other : List Char) (index : Nat) (row : List Nat) (c : Char) : List Nat :=
  (index + 1) :: extendRow c other row (index + 1)

def lastRow (other : List Char) : (index : Nat) → (row : List Nat) → List Char → List Nat
  | _, row, [] => row
  | index, row, c :: rest => lastRow other (index + 1) (nextRow other index row c) rest

/-- The distance, with the rows as long as the second text. -/
def byRows (longer shorter : List Char) : Nat :=
  (lastRow shorter 0 (List.range (shorter.length + 1)) longer).getLastD 0

/-- The number of insertions, deletions and substitutions between two texts. -/
def distance (s t : List Char) : Nat := if s.length < t.length then byRows t s else byRows s t

end CirOutline.EditDistance
