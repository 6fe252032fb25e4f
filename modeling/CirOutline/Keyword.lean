/-!
The keywords of CIR. They are written in upper case; the lexer accepts any case and the layout
reader warns about the others.
-/

namespace CirOutline

/-- The keywords, those inside a header included. -/
inductive Keyword where
  | structureKey | methodKey | repeatKey | timesKey | setModeKey | defaultKey | defineKey
  | chooseKey | forKey | toKey | passKey | returnKey | ifKey | whileKey | elseKey | elseIfKey
  | elsIfKey | elIfKey | mutableKey
deriving DecidableEq

namespace Keyword

/-- All keywords, the longest spellings first, so that none is cut short by another. -/
def all : List Keyword :=
  [structureKey, setModeKey, defaultKey, mutableKey, methodKey, repeatKey, defineKey, chooseKey,
    returnKey, elseIfKey, timesKey, whileKey, elsIfKey, passKey, elseKey, elIfKey, forKey, toKey,
    ifKey]

def spelling : Keyword → String
  | structureKey => "STRUCTURE"
  | methodKey => "METHOD"
  | repeatKey => "REPEAT"
  | timesKey => "TIMES"
  | setModeKey => "SETMODE"
  | defaultKey => "DEFAULT"
  | defineKey => "DEFINE"
  | chooseKey => "CHOOSE"
  | forKey => "FOR"
  | toKey => "TO"
  | passKey => "PASS"
  | returnKey => "RETURN"
  | ifKey => "IF"
  | whileKey => "WHILE"
  | elseKey => "ELSE"
  | elseIfKey => "ELSEIF"
  | elsIfKey => "ELSIF"
  | elIfKey => "ELIF"
  | mutableKey => "MUTABLE"

def ofSpelling? (s : String) : Option Keyword := all.find? fun keyword => keyword.spelling == s

end Keyword

end CirOutline
