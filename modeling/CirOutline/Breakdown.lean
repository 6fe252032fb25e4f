import CirOutline.Text.Numeral
import CirOutline.Text.Quoted

/-!
Ends of a run that no diagnostic describes: a limit of the machine is reached, or a token, a tree
or a name has a form that compiling a source text does not lead to.
-/

namespace CirOutline

/-- What can break a run off. -/
inductive Breakdown where
  /-- A length that is no machine integer. -/
  | lengthOutOfRange
  /-- A text or a table that is too long for the memory. -/
  | outOfMemory
  | emptyIndentationUnit
  /-- A variable without a name where names are compared. -/
  | namelessVariable
  | missingElementType
  /-- A pool of loop counters without a slot. -/
  | poolCapacity (capacity : Int)
  /-- A text that looks like a numeral and writes no number. -/
  | unreadableNumeral (text : String)
  | numeralTooLong (digits : Nat)
  /-- A token is taken after the last one. -/
  | pastEnd
  /-- A line is read where no token is left. -/
  | noToken
  /-- A command whose shape is not known. -/
  | unknownCommand (command : String)
deriving DecidableEq

namespace Breakdown

/-- The longest quotation of a numeral in a message. -/
def quotationLimit : Nat := 200

def message : Breakdown → String
  | lengthOutOfRange => "cannot fit 'int' into an index-sized integer"
  | outOfMemory => ""
  | emptyIndentationUnit => "integer division or modulo by zero"
  | namelessVariable => "'NoneType' object has no attribute 'lower'"
  | missingElementType => "not enough values to unpack (expected at least 1, got 0)"
  | poolCapacity capacity =>
    "temporary pool capacity must be positive, got " ++ toString capacity
  | unreadableNumeral text =>
    "invalid literal for int() with base 10: " ++
      String.ofList ((Text.quoted text).toList.take quotationLimit)
  | numeralTooLong digits =>
    "Exceeds the limit (" ++ toString Text.Numeral.digitLimit ++
      " digits) for integer string conversion: value has " ++ toString digits ++
      " digits; use sys.set_int_max_str_digits() to increase the limit"
  | pastEnd => "list index out of range"
  | noToken => "'NoneType' object has no attribute 'kind'"
  | unknownCommand command => Text.quoted command

end Breakdown

end CirOutline
