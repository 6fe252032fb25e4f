import CirOutline.Diagnostic
import CirOutline.Token.Rule

/-!
Splitting a text into tokens. Nothing is skipped: the texts of the tokens, put together, give the
source back. Scanning stops at a character that no rule takes and at a run that mixes tabs and
spaces.
-/

namespace CirOutline

namespace Scan

/-- The line ends in a text; a carriage return and a line feed together are one. -/
def lineEnds : List Char → Nat
  | [] => 0
  | '\r' :: '\n' :: rest => lineEnds rest + 1
  | c :: rest => if c == '\r' || c == '\n' then lineEnds rest + 1 else lineEnds rest

/-- The place after a token: the next column, or the first column of a later line. -/
def after (l : Location) (lexeme : List Char) : Location :=
  match lineEnds lexeme with
  | 0 => { l with column := l.column + lexeme.length }
  | ends + 1 => { l with line := l.line + (ends + 1 : Nat), column := 1 }

/-- Whether a run of white space has both tabs and spaces. -/
def mixes (lexeme : List Char) : Bool := lexeme.contains ' ' && lexeme.contains '\t'

/-- The tokens of a text that starts at a place, up to the first problem. -/
def tokensFrom (l : Location) : List Char → List Token × Option Problem
  | [] => ([], none)
  | c :: rest =>
    match LexicalRule.firstMatch? (c :: rest) with
    | none => ([], some ⟨.unknownCharacter c, l⟩)
    | some (kind, width) =>
      let lexeme := c :: rest.take (width - 1)
      if kind == .spaces && mixes lexeme then ([], some ⟨.mixedIndentation, l⟩)
      else
        let (tokens, problem) := tokensFrom (after l lexeme) (rest.drop (width - 1))
        (⟨kind, String.ofList lexeme, l⟩ :: tokens, problem)
termination_by cs => cs.length
decreasing_by simp only [List.length_cons, List.length_drop]; omega

end Scan

/-- A text that could not be split: the tokens before the problem, and the report. -/
structure ScanFailure where
  tokens : List Token
  diagnostic : Diagnostic

def tokenize (source : String) (file : String) : Except ScanFailure (List Token) :=
  match Scan.tokensFrom ⟨file, 1, 1⟩ source.toList with
  | (tokens, none) => .ok tokens
  | (tokens, some problem) => .error ⟨tokens, .quoting (Text.lines source) problem.fault problem.place⟩

end CirOutline
