import CirOutline.Token
import CirOutline.Text.Alphanumeric

/-!
The lexical rules, an ordered table. A rule measures how many characters it takes at the front of a
text; the first rule of the table that takes any decides.
-/

namespace CirOutline

/-- A lexical rule: the class of its tokens, and the number of characters that it takes at the
front of a text, zero when it does not apply. -/
structure LexicalRule where
  kind : TokenKind
  width : List Char → Nat

namespace LexicalRule

def atBoundary : List Char → Bool
  | [] => true
  | c :: _ => !Text.isWordChar c

/-- The upper case letter that a letter of a keyword stands for. The long s counts as S, and the
dotted and the dotless i count as I. -/
def keywordLetter (c : Char) : Char :=
  if c == 'ſ' then 'S' else if c == 'ı' || c == 'İ' then 'I' else c.toUpper

/-- The length of `pattern` when the text starts with it, letter by letter through `image`, and a
word boundary follows; otherwise zero. -/
def wholeWord (image : Char → Char) (pattern : String) (cs : List Char) : Nat :=
  let letters := pattern.toList
  if (cs.take letters.length).map image == letters && atBoundary (cs.drop letters.length) then
    letters.length
  else 0

def firstWidth : List Nat → Nat
  | [] => 0
  | width :: widths => if width == 0 then firstWidth widths else width

def keywordWidth (cs : List Char) : Nat :=
  firstWidth (Keyword.all.map fun keyword => wholeWord keywordLetter keyword.spelling cs)

def commentWidth : List Char → Nat
  | '/' :: '/' :: rest => 2 + (rest.takeWhile fun c => c != '\r' && c != '\n').length
  | _ => 0

def runWidth (p : Char → Bool) (cs : List Char) : Nat := (cs.takeWhile p).length

/-- The length of `pattern` when the text starts with it. -/
def literalWidth (pattern : String) (cs : List Char) : Nat :=
  if pattern.toList.isPrefixOf cs then pattern.length else 0

/-- The first of several literals that the text starts with. -/
def literalsWidth (patterns : List String) (cs : List Char) : Nat :=
  firstWidth (patterns.map fun pattern => literalWidth pattern cs)

def operatorWords : List String := ["and", "or", "is"]

def operatorWordWidth (cs : List Char) : Nat :=
  firstWidth (operatorWords.map fun spelling => wholeWord id spelling cs)

/-- A letter or an underscore: what a name starts with. -/
def startsName (c : Char) : Bool := c.isAlpha || c == '_'

/-- A letter, a digit or an underscore: what a name goes on with. -/
def continuesName (c : Char) : Bool := c.isAlphanum || c == '_'

def nameWidth : List Char → Nat
  | [] => 0
  | c :: rest => if startsName c then 1 + runWidth continuesName rest else 0

def isHexDigit (c : Char) : Bool :=
  c.isDigit || ('a' ≤ c && c ≤ 'f') || ('A' ≤ c && c ≤ 'F')

def hexWidth : List Char → Nat
  | '0' :: mark :: rest =>
    let digits := runWidth isHexDigit rest
    if (mark == 'x' || mark == 'X') && digits != 0 then 2 + digits else 0
  | _ => 0

def numberWidth (cs : List Char) : Nat := firstWidth [hexWidth cs, runWidth Char.isDigit cs]

/-- The operators that are symbols, those of two characters first. -/
def operatorSymbols : List String :=
  ["<=", ">=", "==", "!=", "-", "+", "*", "/", "%", "!", "~", "^", "|", "&", "<", ">", "[", "]"]

/-- The rules in the order in which they are tried. -/
def table : List LexicalRule := [
  ⟨.keyword, keywordWidth⟩,
  ⟨.comment, commentWidth⟩,
  ⟨.spaces, runWidth fun c => c == ' ' || c == '\t'⟩,
  ⟨.colon, literalWidth ":"⟩,
  ⟨.returnArrow, literalsWidth ["->", "→"]⟩,
  ⟨.operator, operatorWordWidth⟩,
  ⟨.word, nameWidth⟩,
  ⟨.number, numberWidth⟩,
  ⟨.lineBreak, runWidth fun c => c == '\r' || c == '\n'⟩,
  ⟨.operator, literalsWidth operatorSymbols⟩,
  ⟨.openParen, literalWidth "("⟩,
  ⟨.closeParen, literalWidth ")"⟩,
  ⟨.comma, literalWidth ","⟩,
  ⟨.setEquals, literalWidth "="⟩]

/-- The class and the width of the token at the front of a text, by the first rule that applies. -/
def firstMatch? (cs : List Char) : Option (TokenKind × Nat) :=
  (table.find? fun rule => rule.width cs != 0).map fun rule => (rule.kind, rule.width cs)

end LexicalRule

end CirOutline
