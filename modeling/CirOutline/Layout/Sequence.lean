import CirOutline.Layout.Cursor

/-!
Sequences in parentheses: the items of a declaration or an option list, the arguments of a call and
the parameters of a method. Each is read by recursion on the tokens.
-/

namespace CirOutline

/-- A sequence that could not be read: the report and the tokens still to be read. -/
structure SequenceStop where
  report : Diagnostic
  rest : List Token

/-- What reading a sequence gives: the sequence and the tokens after it. -/
abbrev SequenceResult (α : Type) := Except SequenceStop (α × List Token)

namespace SequenceResult

/-- Stops in front of a token, or at the end of the input. -/
def stopBefore {α : Type} (source : Source) (fault : Fault) (rest : List Token) : SequenceResult α :=
  .error ⟨source.report fault (source.placeOf rest), rest⟩

def blame {α : Type} (source : Source) (fault : Fault) (culprit : Token) (rest : List Token) :
    SequenceResult α :=
  .error ⟨source.report fault culprit.location, rest⟩

def prepend {α : Type} (a : α) : SequenceResult (List α) → SequenceResult (List α)
  | .ok (as, rest) => .ok (a :: as, rest)
  | .error stop => .error stop

end SequenceResult

open SequenceResult

def Reader.sequence {α : Type} (read : Source → List Token → SequenceResult α) : Reader α := fun c =>
  match read c.source c.rest with
  | .ok (a, rest) => .ok a { c with rest := rest }
  | .error stop => .error (.diagnosed stop.report) { c with rest := stop.rest }

/-- Items up to the closing parenthesis: words or numbers with commas between them. A comma may
stand before the parenthesis. -/
def readItems (construct : String) (source : Source) :
    (expectsItem : Bool) → List Token → SequenceResult (List String)
  | _, [] => stopBefore source (.runaway construct) []
  | expectsItem, t :: rest =>
    if t.kind == .spaces then readItems construct source expectsItem rest
    else if t.kind == .lineBreak then stopBefore source (.runaway construct) (t :: rest)
    else if t.kind == .closeParen then .ok ([], rest)
    else if expectsItem && (t.kind == .word || t.kind == .number) then
      prepend t.raw (readItems construct source false rest)
    else if !expectsItem && t.kind == .comma then readItems construct source true rest
    else
      stopBefore source (.unexpectedToken t.raw (some (if expectsItem then "a name" else "',' or ')'")))
        (t :: rest)

/-- Arguments up to the parenthesis that closes the call; `depth` counts the parentheses that are
open inside. -/
def readArguments (opening : Token) (source : Source) :
    (depth : Nat) → List Token → SequenceResult (List Token)
  | _, [] => blame source (.runaway "argument list") opening []
  | depth, t :: rest =>
    if t.kind == .lineBreak then blame source (.runaway "argument list") opening (t :: rest)
    else if t.kind == .openParen then prepend t (readArguments opening source (depth + 1) rest)
    else if t.kind == .closeParen then
      match depth with
      | 0 => .ok ([], rest)
      | depth + 1 => prepend t (readArguments opening source depth rest)
    else prepend t (readArguments opening source depth rest)

/-- What the reader of a parameter list expects next. -/
inductive ParameterStep where
  /-- A type; only an empty list may close here. -/
  | typeName (first : Bool)
  /-- The bracket after the word for arrays. -/
  | bracket (array : Token)
  | element (array : Token)
  /-- A comma and one more dimension, or the closing bracket. -/
  | separator (array : Token) (element : String) (dimensions : List String)
  | dimension (array : Token) (element : String) (dimensions : List String)
  | name (typeName : String) (dimensions : List String)
  /-- A comma and one more parameter, or the closing parenthesis. -/
  | next

/-- Parameters up to the closing parenthesis. -/
def readParameters (opening : Token) (source : Source) :
    ParameterStep → List Token → SequenceResult (List Parameter)
  | step, [] =>
    match step with
    | .typeName _ | .next => blame source (.runaway "parameter list") opening []
    | .bracket _ => stopBefore source (.missingToken "'[' after Array") []
    | .element _ => stopBefore source (.missingToken "array element type") []
    | .separator array .. => blame source (.runaway "array type") array []
    | .dimension .. => stopBefore source (.missingToken "array dimension") []
    | .name .. => stopBefore source (.missingToken "parameter name") []
  | step, t :: rest =>
    if t.kind == .spaces then readParameters opening source step rest
    else match step with
    | .typeName first =>
      if t.kind == .lineBreak then blame source (.runaway "parameter list") opening (t :: rest)
      else if first && t.kind == .closeParen then .ok ([], rest)
      else if t.kind != .word then stopBefore source (.missingToken "parameter type") (t :: rest)
      else if t.raw == arrayTypeName then readParameters opening source (.bracket t) rest
      else readParameters opening source (.name t.raw []) rest
    | .bracket array =>
      if t.raw != "[" then stopBefore source (.missingToken "'[' after Array") (t :: rest)
      else readParameters opening source (.element array) rest
    | .element array =>
      if t.kind != .word then stopBefore source (.missingToken "array element type") (t :: rest)
      else readParameters opening source (.separator array t.raw []) rest
    | .separator array element dimensions =>
      if t.kind == .lineBreak then blame source (.runaway "array type") array (t :: rest)
      else if t.raw == "]" then
        if dimensions.isEmpty then blame source (.missingToken "at least one array dimension") array rest
        else readParameters opening source (.name element dimensions) rest
      else if t.kind != .comma then blame source (.unexpectedToken t.raw (some "',' or ']'")) t rest
      else readParameters opening source (.dimension array element dimensions) rest
    | .dimension array element dimensions =>
      if t.kind != .number && t.kind != .word then
        stopBefore source (.missingToken "array dimension") (t :: rest)
      else readParameters opening source (.separator array element (dimensions ++ [t.raw])) rest
    | .name typeName dimensions =>
      if t.kind != .word then stopBefore source (.missingToken "parameter name") (t :: rest)
      else prepend ⟨typeName, t.raw, dimensions⟩ (readParameters opening source .next rest)
    | .next =>
      if t.kind == .lineBreak then blame source (.runaway "parameter list") opening (t :: rest)
      else if t.kind == .closeParen then .ok ([], rest)
      else if t.kind != .comma then blame source (.unexpectedToken t.raw (some "',' or ')'")) t rest
      else readParameters opening source (.typeName false) rest

end CirOutline
