/-!
Sets of characters given as a table of code points: small sets by ranges, large ones by the lengths
of runs. The character properties that the lexer, the quoting of text and the reading of numerals
rest on are such tables.
-/

namespace CirOutline.Text

/-- Inclusive ranges of code points, in increasing order. -/
abbrev CodeRanges := List (Nat × Nat)

/-- Whether a code point lies in one of the ranges. -/
def CodeRanges.has (ranges : CodeRanges) (c : Char) : Bool :=
  ranges.any fun range => range.1 ≤ c.toNat && c.toNat ≤ range.2

/-- Lengths of runs of code points, from zero on: those outside a set, then those in it, and so on. -/
abbrev CodeRuns := List Nat

/-- Whether the runs put a code point into the set. -/
def CodeRuns.hasCode : CodeRuns → Nat → Bool
  | outside :: inside :: rest, code =>
    if code < outside then false
    else if code < outside + inside then true
    else hasCode rest (code - (outside + inside))
  | _, _ => false

def CodeRuns.has (runs : CodeRuns) (c : Char) : Bool := runs.hasCode c.toNat

end CirOutline.Text
