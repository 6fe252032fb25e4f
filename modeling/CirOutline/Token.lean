import CirOutline.Keyword
import CirOutline.Location
import CirOutline.Text.LetterCase
import CirOutline.Text.Quoted

/-!
Tokens of CIR. White space, line breaks and comments are tokens too, because the block structure is
read off them.
-/

namespace CirOutline

/-- The lexical classes. -/
inductive TokenKind where
  | word | keyword | number | colon | setEquals | openParen | closeParen | comma | spaces
  | lineBreak | comment | operator | returnArrow
deriving DecidableEq

/-- The name of a lexical class in token listings. -/
def TokenKind.name : TokenKind → String
  | word => "WORD"
  | keyword => "KEYWORD"
  | number => "NUMBER"
  | colon => "COLON"
  | setEquals => "SET_EQUALS"
  | openParen => "OPEN_PAREN"
  | closeParen => "CLOSE_PAREN"
  | comma => "COMMA"
  | spaces => "SPACES"
  | lineBreak => "LINE_BREAK"
  | comment => "COMMENT"
  | operator => "OPERATOR"
  | returnArrow => "RETURN_TYPE_INDICATOR"

/-- A piece of source text with its class and its place. -/
structure Token where
  kind : TokenKind
  raw : String
  location : Location
deriving DecidableEq

namespace Token

/-- Two tokens agree when their class and text do; the place does not matter. -/
def agrees (a b : Token) : Bool := a.kind == b.kind && a.raw == b.raw

def runsAgree : List Token → List Token → Bool
  | [], [] => true
  | a :: as, b :: bs => a.agrees b && runsAgree as bs
  | _, _ => false

/-- The canonical spelling of a keyword token: its text in upper case. -/
def keywordText? (t : Token) : Option String :=
  if t.kind == .keyword then some (Text.upper t.raw) else none

/-- The keyword that a token writes in any case. -/
def keyword? (t : Token) : Option Keyword := t.keywordText?.bind Keyword.ofSpelling?

/-- Whether the token ends the statement part of a line: a line break or a comment. -/
def endsLine (t : Token) : Bool := t.kind == .lineBreak || t.kind == .comment

def listing (t : Token) : String :=
  "Token(" ++ t.kind.name ++ ", " ++ Text.quoted t.raw ++ ", " ++ toString t.location.line ++
    ":" ++ toString t.location.column ++ ")"

def runText (run : List Token) : String := String.join (run.map Token.raw)

end Token

end CirOutline
