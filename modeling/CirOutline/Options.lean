import CirOutline.Journal
import CirOutline.Text.LetterCase
import CirOutline.Text.Numeral
import CirOutline.Text.Quoted

/-!
The settings of a compilation, their defaults and the environment variables that change them.
-/

namespace CirOutline

/-- The settings of a compilation. -/
structure Options where
  /-- Spaces per group in the output; none when it is not positive. -/
  indentWidth : Int := 4
  /-- Loop counters for nested loops. -/
  poolSize : Int := 8
  /-- Whether comments that start with three slashes are copied. -/
  docComments : Bool := false
  /-- The headers that the output includes. -/
  includes : List String := ["stdint.h"]

namespace Options

def trueValues : List String := ["1", "true", "yes", "on"]

/-- Reads a whole number from a variable. An empty variable counts as missing, and one that is no
number is left out with a warning. -/
def numberFrom (environment : List (String × String)) (key : String) (default : Int) :
    Int × Journal :=
  match environment.lookup key with
  | none => (default, [])
  | some text =>
    if text.isEmpty then (default, [])
    else match Text.Numeral.integer? text with
      | some n => (n, [])
      | none =>
        (default, [⟨.compilation, .warning,
          "Ignoring " ++ key ++ "=" ++ Text.quoted text ++ ": not an integer"⟩])

/-- The settings that the environment asks for, and the warnings. -/
def fromEnvironment (environment : List (String × String)) : Options × Journal :=
  let defaults : Options := {}
  let (width, widthEntries) := numberFrom environment "CIRC_INDENT_WIDTH" defaults.indentWidth
  let (size, sizeEntries) := numberFrom environment "CIRC_TEMP_POOL_SIZE" defaults.poolSize
  let docComments :=
    match environment.lookup "CIRC_DOC_COMMENTS" with
    | none => defaults.docComments
    | some text =>
      if text.isEmpty then defaults.docComments
      else trueValues.contains (Text.lower (Text.trim text))
  ({ defaults with indentWidth := width, poolSize := size, docComments := docComments },
    widthEntries ++ sizeEntries)

end Options

end CirOutline
