import CirOutline.Proofs.Layout.SourceLine
import Mathlib.Data.List.Forall2

/-!
How a statement is written. The marks of a statement say token by token what its line holds:
keywords, symbols, the names of its payload, the tokens of its captured runs, and the white space
between them. They leave open the case of keywords, the three spellings of a further branch, the
two arrows, a comma after the last item and the parentheses of an empty parameter list.

`Statement.Proper` collects what the captured parts of a statement have to look like, and
`Statement.Allowed` what its surroundings have to look like, for a line to say it.
-/

namespace CirOutline

/-- What a token has to be. -/
inductive Mark where
  /-- White space within the line. -/
  | gap
  | keyword (keyword : Keyword)
  | symbol (kind : TokenKind)
  /-- A square bracket. -/
  | bracket (text : String)
  | word (text : String)
  /-- A word or a number. -/
  | item (text : String)
  | remark (text : String)
  /-- A token of a captured run. -/
  | copy (t : Token)

def Keyword.plain : Keyword → Keyword
  | elsIfKey | elIfKey => elseIfKey
  | keyword => keyword

namespace Mark

def isGap : Mark → Bool
  | gap => true
  | copy t => t.kind == .spaces
  | _ => false

/-- The tokens that a mark admits; a symbol is known by its class, a bracket by its text. -/
def Fits : Mark → Token → Prop
  | gap, t => t.kind = .spaces
  | keyword k, t => t.keyword?.map Keyword.plain = some k
  | symbol kind, t => t.kind = kind
  | bracket text, t => t.raw = text
  | word text, t => t.kind = .word ∧ t.raw = text
  | item text, t => (t.kind = .word ∨ t.kind = .number) ∧ t.raw = text
  | remark text, t => t.kind = .comment ∧ t.raw = text
  | copy u, t => t.agrees u = true

def ink (marks : List Mark) : List Mark := marks.filter fun mark => !mark.isGap

/-- The items after the first one; a comma may stand after the last when `loose`. -/
def moreItems (loose : Bool) : List String → List Mark
  | [] => if loose then [symbol .comma] else []
  | name :: names => symbol .comma :: gap :: item name :: moreItems loose names

def items (loose : Bool) : List String → List Mark
  | [] => []
  | name :: names => item name :: moreItems loose names

def dimensions (dims : List String) : List Mark :=
  dims.flatMap fun dim => [symbol .comma, gap, item dim]

def parameter (p : Parameter) : List Mark :=
  if p.dimensions = [] then [word p.typeName, gap, word p.name]
  else
    [word arrayTypeName, bracket "[", word p.typeName] ++ dimensions p.dimensions ++
      [bracket "]", gap, word p.name]

def moreParameters (ps : List Parameter) : List Mark :=
  ps.flatMap fun p => symbol .comma :: gap :: parameter p

def parameters : List Parameter → List Mark
  | [] => []
  | p :: ps => parameter p ++ moreParameters ps

def run (tokens : List Token) : List Mark := tokens.map copy

def result : Option String → List Mark
  | some type => [gap, symbol .returnArrow, gap, word type]
  | none => []

end Mark

open Mark in
/-- How a statement is written. A `loose` writing has a comma after the last item, and no
parentheses around no parameters. -/
def Statement.marks (loose : Bool) : Statement → List Mark
  | comment text => [remark text]
  | declaration type names isMutable =>
    (if isMutable then [keyword .mutableKey, gap] else []) ++
      [word type, symbol .openParen] ++ items loose names ++ [symbol .closeParen]
  | assignment name expression =>
    [word name, gap, symbol .setEquals, gap] ++ run expression
  | call name arguments =>
    [word name, symbol .openParen] ++ run arguments ++ [symbol .closeParen]
  | pass => [keyword .passKey]
  | returns expression =>
    keyword .returnKey :: (if expression = [] then [] else gap :: run expression)
  | setMode mode options =>
    [keyword .setModeKey, gap, word mode, symbol .openParen] ++ items loose options ++
      [symbol .closeParen]
  | defaultMode mode choice =>
    [keyword .defaultKey, gap, word mode, gap, symbol .setEquals, gap, word choice]
  | defineMode mode choice =>
    [keyword .defineKey, gap, word mode, gap, symbol .setEquals, gap, word choice]
  | structType name => [keyword .structureKey, gap, word name, symbol .colon]
  | method name ps returnType =>
    [keyword .methodKey, gap, word name] ++
      (if loose && ps.isEmpty then [] else symbol .openParen :: parameters ps ++ [symbol .closeParen]) ++
      result returnType ++ [symbol .colon]
  | ifThen condition => [keyword .ifKey, gap] ++ run condition ++ [symbol .colon]
  | elseIf condition => [keyword .elseIfKey, gap] ++ run condition ++ [symbol .colon]
  | otherwise => [keyword .elseKey, symbol .colon]
  | whileLoop condition => [keyword .whileKey, gap] ++ run condition ++ [symbol .colon]
  | forLoop start stop =>
    [keyword .forKey, gap] ++ run start ++ [keyword .toKey, gap] ++ run stop ++ [symbol .colon]
  | repeatLoop count =>
    [keyword .repeatKey, gap] ++ run count ++ [keyword .timesKey, symbol .colon]
  | choose mode => [keyword .chooseKey, gap, word mode, symbol .colon]
  | option name => [word name, symbol .colon]

def Statement.Spelled (s : Statement) (ts : List Token) : Prop :=
  ∃ loose, List.Forall₂ Mark.Fits (Mark.ink (s.marks loose)) ts

/-- Parentheses that close one another, when `depth` of them are open already. -/
def Token.Balanced : (depth : Nat) → List Token → Prop
  | depth, [] => depth = 0
  | depth, t :: rest =>
    if t.kind = .openParen then Balanced (depth + 1) rest
    else if t.kind = .closeParen then ∃ outer, depth = outer + 1 ∧ Balanced outer rest
    else Balanced depth rest

/-- A captured run: it starts with ink, and all of it is before the end of the line and before the
first token that `stop` accepts. -/
def Token.Captured (stop : Token → Bool) (run : List Token) : Prop :=
  (∃ t rest, run = t :: rest ∧ t.kind ≠ .spaces) ∧
    ∀ t ∈ run, t.endsLine = false ∧ stop t = false

/-- The parts of a statement have the form that a line can give them. -/
def Statement.Proper : Statement → Prop
  | declaration _ names _ => names ≠ []
  | assignment _ expression => Token.Captured (fun _ => false) expression
  | call _ arguments => Token.Balanced 0 arguments ∧ ∀ t ∈ arguments, t.kind ≠ .lineBreak
  | returns expression => expression = [] ∨ Token.Captured (fun _ => false) expression
  | setMode _ options => options ≠ []
  | method _ ps _ => ∀ p ∈ ps, p.dimensions = [] → p.typeName ≠ arrayTypeName
  | ifThen condition | elseIf condition | whileLoop condition =>
    Token.Captured (fun t => t.kind == .colon) condition
  | forLoop start stop =>
    (∃ t rest, start = t :: rest ∧ t.kind = .word) ∧ Reader.startsLoop start = true ∧
      Token.Captured (fun t => t.keyword? == some .toKey) start ∧
      Token.Captured (fun t => t.kind == .colon) stop
  | repeatLoop count => Token.Captured (fun t => t.keyword? == some .timesKey) count
  | _ => True

/-- What stands around a statement allows it: an option is a line of a mode-dependent block, and
comments apart everything else is a line of statements; a method is at the top level; a branch
follows a condition; a declaration starts with the name of a type and a call does not. -/
def Statement.Allowed (reader : LineReader) (level : Nat) (siblings : List Node)
    (types : List String) : Statement → Prop
  | comment _ => True
  | option _ => reader = .options
  | method .. => reader = .statements ∧ level = 0
  | elseIf _ | otherwise => reader = .statements ∧ branchMayFollow siblings = true
  | declaration type _ _ => reader = .statements ∧ type ∈ types
  | call name _ => reader = .statements ∧ name ∉ types
  | _ => reader = .statements

def Statement.definedTypes : Statement → List String
  | structType name => [name]
  | _ => []

/-! ### Marks of parts -/

namespace Mark

theorem ink_append (a b : List Mark) : ink (a ++ b) = ink a ++ ink b := List.filter_append a b

@[simp] theorem ink_nil : ink [] = [] := rfl

theorem ink_cons {mark : Mark} (h : mark.isGap = false) (marks : List Mark) :
    ink (mark :: marks) = mark :: ink marks := by
  simp [ink, h]

@[simp] theorem ink_gap (marks : List Mark) : ink (gap :: marks) = ink marks := rfl

@[simp] theorem ink_keyword (k : Keyword) (marks : List Mark) :
    ink (keyword k :: marks) = keyword k :: ink marks := rfl

@[simp] theorem ink_symbol (kind : TokenKind) (marks : List Mark) :
    ink (symbol kind :: marks) = symbol kind :: ink marks := rfl

@[simp] theorem ink_bracket (text : String) (marks : List Mark) :
    ink (bracket text :: marks) = bracket text :: ink marks := rfl

@[simp] theorem ink_word (text : String) (marks : List Mark) :
    ink (word text :: marks) = word text :: ink marks := rfl

@[simp] theorem ink_item (text : String) (marks : List Mark) :
    ink (item text :: marks) = item text :: ink marks := rfl

@[simp] theorem ink_remark (text : String) (marks : List Mark) :
    ink (remark text :: marks) = remark text :: ink marks := rfl

theorem fits_copy (t : Token) : (copy t).Fits t := by
  simp [Fits, Token.agrees]

theorem fits_run (tokens : List Token) : List.Forall₂ Fits (ink (run tokens)) (Token.ink tokens) := by
  induction tokens with
  | nil => exact .nil
  | cons t rest ih =>
    by_cases h : t.kind = .spaces
    · rw [ink_cons_of_spaces h]
      have hgap : ink (run (t :: rest)) = ink (run rest) := by simp [run, ink, isGap, h]
      rw [hgap]
      exact ih
    · rw [CirOutline.ink_cons h]
      have hink : ink (run (t :: rest)) = copy t :: ink (run rest) := by simp [run, ink, isGap, h]
      rw [hink]
      exact .cons (fits_copy t) ih

end Mark

end CirOutline
