import CirOutline.Breakdown
import CirOutline.Location

/-!
What can go wrong in a compilation. Every cause is a constructor; its wording and its hint are
functions of the cause.
-/

namespace CirOutline

/-- The part of the compiler that a cause belongs to. -/
inductive Area where
  | general | lexical | indentation | grammar | meaning | generation | internal
deriving DecidableEq

/-- The causes of a failed compilation. -/
inductive Fault where
  /-- No lexical rule applies. -/
  | unknownCharacter (c : Char)
  /-- Tabs and spaces in one run. -/
  | mixedIndentation
  /-- A leading run that is no multiple of the indentation unit. -/
  | improperIndentation (width unit : Int)
  | unexpectedToken (found : String) (expected : Option String)
  | missingToken (expected : String)
  /-- A command that does not have its required shape. -/
  | malformedCommand (command : String) (usage : Option String)
  /-- A list or clause that is never closed. -/
  | runaway (construct : String)
  /-- A branch that follows no condition. -/
  | danglingElse (keyword : String)
  /-- A method below the top level. -/
  | nestedMethod
  | undeclaredName (name : String) (similar : List String)
  | unknownType (name : String) (known : List String)
  | undefinedMode (mode : String)
  | invalidOption (mode option : String) (valid : List String)
  /-- A statement that runs, outside every method. -/
  | topLevelStatement (action : String)
  | unsupported (feature : String) (alternative : Option String)
  /-- A statement that has no C form of its own. -/
  | unhandledKind (kind : String)
  | poolExhausted (capacity : Int)
  /-- A pass of the layout reader that took no token. -/
  | stalled
  | noOpenGroup
  | groupsLeftOpen (count : Int)
  | releasedTwice (name : String)
  | foreignTemporary (name : String)
  /-- A cause given by its wording alone. -/
  | stated (area : Area) (message : String) (hint : Option String)
deriving DecidableEq

namespace Fault

/-- The part of the compiler that a cause belongs to. -/
def area : Fault → Area
  | unknownCharacter _ | mixedIndentation => .lexical
  | improperIndentation .. => .indentation
  | unexpectedToken .. | missingToken _ | malformedCommand .. | runaway _ | danglingElse _
  | nestedMethod => .grammar
  | undeclaredName .. | unknownType .. | undefinedMode _ | invalidOption ..
  | topLevelStatement _ => .meaning
  | unsupported .. | unhandledKind _ | poolExhausted _ => .generation
  | stalled | noOpenGroup | groupsLeftOpen _ | releasedTwice _ | foreignTemporary _ => .internal
  | stated area .. => area

/-- Hexadecimal digits in upper case, at least two. -/
def codeText (c : Char) : String :=
  String.ofList ((Text.hexDigits 2 c.toNat).map Char.toUpper)

def message : Fault → String
  | unknownCharacter c =>
    "unknown character '" ++ String.singleton c ++ "' (0x" ++ codeText c ++ ")"
  | mixedIndentation => "cannot mix tabs and spaces"
  | improperIndentation width unit =>
    "improper indentation: " ++ toString width ++ " is not a multiple of " ++ toString unit
  | unexpectedToken found _ => "unexpected token " ++ Text.quoted found
  | missingToken expected => "expected " ++ expected
  | malformedCommand command _ => "malformed " ++ command ++ " command"
  | runaway construct => "runaway " ++ construct
  | danglingElse keyword => keyword ++ " without a preceding IF"
  | nestedMethod => "METHOD must be declared at top level"
  | undeclaredName name _ => "undeclared identifier '" ++ name ++ "'"
  | unknownType name _ => "unknown type '" ++ name ++ "'"
  | undefinedMode mode => "undefined mode '" ++ mode ++ "'"
  | invalidOption mode option _ => option ++ " is not a valid mode for " ++ mode
  | topLevelStatement action => "cannot " ++ action ++ " at top level"
  | unsupported feature _ => "unsupported feature: " ++ feature
  | unhandledKind kind => "TODO: IMPLEMENT `" ++ kind ++ "`"
  | poolExhausted capacity =>
    "temporary pool exhausted (" ++ toString capacity ++ " temporaries in use)"
  | stalled => "parser made no progress"
  | noOpenGroup => "no open group to end"
  | groupsLeftOpen count => toString count ++ " group(s) left open"
  | releasedTwice name => "temporary '" ++ name ++ "' released twice"
  | foreignTemporary name => "'" ++ name ++ "' is not a pool temporary"
  | stated _ message _ => message

/-- The names offered for an undeclared one: the first three. -/
def suggestions (similar : List String) : String :=
  ", ".intercalate ((similar.take 3).map fun name => "'" ++ name ++ "'")

def hint : Fault → Option String
  | mixedIndentation => some "indent with either tabs or spaces, not both"
  | improperIndentation _ unit =>
    let noun := if unit == 1 then "character" else "characters"
    some ("indentation unit is " ++ toString unit ++ " " ++ noun ++
      ", set by the first indented line")
  | unexpectedToken _ (some expected) =>
    if expected.isEmpty then none else some ("expected " ++ expected)
  | malformedCommand _ (some usage) =>
    if usage.isEmpty then none else some ("expected '" ++ usage ++ "'")
  | danglingElse _ => some "ELSEIF and ELSE must directly follow an IF or ELSEIF block"
  | nestedMethod => some "remove the indentation before METHOD"
  | undeclaredName name similar =>
    if similar.isEmpty then some ("declare it first, e.g. 'Int(" ++ name ++ ")'")
    else some ("did you mean " ++ suggestions similar ++ "?")
  | unknownType _ known =>
    if known.isEmpty then none else some ("known types: " ++ ", ".intercalate known)
  | undefinedMode _ => some "did you forget a SETMODE?"
  | invalidOption _ _ valid => some ("valid options include: " ++ " | ".intercalate valid)
  | topLevelStatement _ => some "move it into a METHOD body"
  | unsupported _ alternative => alternative
  | poolExhausted _ =>
    some "reduce REPEAT nesting depth or raise the pool size (--temp-pool)"
  | stated _ _ hint => hint
  | _ => none

end Fault

/-- A cause and its place. -/
structure Problem where
  fault : Fault
  place : Location

end CirOutline
