import CirOutline.Proofs.Emission.Printer
import CirOutline.Proofs.Expression.Rendering
import CirOutline.Proofs.Layout.Names

/-!
Lines of C and the names in them. `CLine.event?` tells from the text of a line alone what it does to
names: it declares some, it writes one at run time, or it opens or closes a block in braces, with names
that are bound in the block. The lines that an emission writes are read one by one: a definition of the
preprocessor, a call or a comment does nothing to names, whatever it holds.
-/

namespace CirOutline

open LexicalRule Text Expression
open List hiding lex

variable {text line name type tail first opening clause result : String} {c : Char} {rest : List Char}
  {names : List String}

inductive NameEvent where
  | declares (names : List String)
  | writes (name : String)
  /-- A block is opened. The names are bound in it; the header of a loop may assign a variable that is
  declared elsewhere. -/
  | opens (names : List String) (target : Option String)
  | closes
deriving DecidableEq

def NameEvent.target? : NameEvent → Option String
  | writes name => some name
  | opens _ target => target
  | _ => none

namespace CLine

def tokens (line : String) : List String := CToken.lex line.toList

def isName (token : String) : Bool := token.toList.head?.any continuesName

/-- The variable of an assignment. A result that starts with an equals sign is none. -/
def assigned? : List String → Option String
  | name :: equals :: _ =>
    if isName name && name != "return" && equals == "=" then some name else none
  | _ => none

def loopTarget? : List String → Option String
  | loop :: _ :: name :: equals :: _ => if loop == "for" && equals == "=" then some name else none
  | _ => none

def names? : List String → Option (List String)
  | [name, stop] => if isName name && stop == ";" then some [name] else none
  | name :: comma :: rest => if isName name && comma == "," then (names? rest).map (name :: ·) else none
  | _ => none

def declared : List String → List String
  | type :: rest => if isName type && type != "return" then (names? rest).getD [] else []
  | [] => []

/-- The names of parameters: each follows a type that follows a parenthesis or a comma. -/
def parameters : List String → List String
  | opening :: type :: name :: rest =>
    if (opening == "(" || opening == ",") && isName type && isName name then
      name :: parameters (type :: name :: rest)
    else parameters (type :: name :: rest)
  | _ => []

def loopVariable : List String → List String
  | type :: name :: equals :: _ => if isName type && isName name && equals == "=" then [name] else []
  | _ => []

/-- The names that are bound in the block of a header: the variable of a loop, or the parameters of a
method, whose header starts with a type and a name. -/
def bound : List String → List String
  | first :: second :: rest =>
    if first == "for" then loopVariable rest
    else if first != "else" && isName second then parameters rest
    else []
  | _ => []

def event? (line : String) : Option NameEvent :=
  match role line with
  | .opens .brace _ => some (.opens (bound (tokens line)) (loopTarget? (tokens line)))
  | .closes .brace => some .closes
  | _ =>
    match assigned? (tokens line) with
    | some name => some (.writes name)
    | none => if (declared (tokens line)).isEmpty then none else some (.declares (declared (tokens line)))

def target? (line : String) : Option String := (event? line).bind NameEvent.target?

end CLine

/-! ### Texts of names -/

namespace Text

def IsWord (text : String) : Prop := TokenKind.word.Lexeme text.toList

def IsItem (text : String) : Prop := IsWord text ∨ TokenKind.number.Lexeme text.toList

/-- A word that is no keyword. -/
structure IsType (text : String) : Prop where
  word : IsWord text
  unreserved : ¬ TokenKind.keyword.Lexeme text.toList

theorem isWord_of_all (h : (text.toList.head?.any startsName &&
    text.toList.tail.all LexicalRule.continuesName) = true) : IsWord text := by
  rw [Bool.and_eq_true] at h
  cases htext : text.toList with
  | nil => simp [htext] at h
  | cons c rest =>
    rw [htext] at h
    exact ⟨c, rest, htext, by simpa using h.1, by simpa using h.2⟩

theorem IsWord.startsWord (h : IsWord text) : startsWord text = true := by
  obtain ⟨c, rest, htext, hc, -⟩ := h
  simpa [Text.startsWord, htext] using hc

theorem IsItem.continuesName (h : IsItem text) : text.toList ≠ [] ∧ ∀ c ∈ text.toList, continuesName c = true := by
  rcases h with ⟨c, rest, htext, hc, hrest⟩ | ⟨c, rest, htext, hc, hrest⟩
  · rw [htext]
    exact ⟨cons_ne_nil c rest, forall_mem_cons.mpr ⟨continuesName_of_starts hc, hrest⟩⟩
  · rw [htext]
    refine ⟨cons_ne_nil c rest, forall_mem_cons.mpr ⟨?_, fun d hd => ?_⟩⟩
    · simp [LexicalRule.continuesName, Char.isAlphanum, hc]
    · exact continuesName_of_hex (hrest d hd)

theorem IsItem.isName (h : IsItem text) : CLine.isName text = true := by
  obtain ⟨hne, hall⟩ := h.continuesName
  cases htext : text.toList with
  | nil => exact absurd htext hne
  | cons c rest =>
    rw [htext] at hall
    simpa [CLine.isName, htext] using hall c mem_cons_self

theorem IsWord.isName (h : IsWord text) : CLine.isName text = true := IsItem.isName (.inl h)

theorem ne_of_isName {other : String} (h : CLine.isName text = true)
    (hother : CLine.isName other = false) : text ≠ other := by
  rintro rfl
  rw [h] at hother
  cases hother

theorem IsType.ne (h : IsType text) {k : Keyword} {other : String}
    (hother : other.toList.map keywordLetter = k.spelling.toList) : text ≠ other := by
  rintro rfl
  exact h.unreserved ⟨k, hother⟩

end Text

/-! ### Tokens of lines -/

namespace CToken

def isMark (c : Char) : Bool := isSymbol (String.ofList [c]) && (following [c]).isEmpty

theorem lex_mark (h : isMark c = true) (rest : List Char) : lex (c :: rest) = String.ofList [c] :: lex rest := by
  rw [isMark, Bool.and_eq_true, List.isEmpty_iff] at h
  refine @lex_symbol c [] rest h.1 fun d _ => ?_
  rw [Bool.eq_false_iff]
  intro hcontinued
  have hmem := mem_following hcontinued
  rw [h.2] at hmem
  exact absurd hmem not_mem_nil

theorem lex_equals (h : ∀ d ∈ rest.head?, d ≠ '=') : lex ('=' :: rest) = "=" :: lex rest := by
  refine @lex_symbol '=' [] rest rfl fun d hd => ?_
  rw [Bool.eq_false_iff]
  intro hcontinued
  have hmem : d ∈ ['='] := (show following ['='] = ['='] by decide) ▸ mem_following hcontinued
  exact h d hd (mem_singleton.mp hmem)

theorem lex_hash (h : ∀ d ∈ rest.head?, d ≠ '#') : lex ('#' :: rest) = "#" :: lex rest := by
  refine @lex_symbol '#' [] rest rfl fun d hd => ?_
  rw [Bool.eq_false_iff]
  intro hcontinued
  have hmem : d ∈ ['#'] := (show following ['#'] = ['#'] by decide) ▸ mem_following hcontinued
  exact h d hd (mem_singleton.mp hmem)

theorem lex_word (h : IsWord text) (hrest : ∀ d ∈ rest.head?, continuesIdentifier d = false) :
    lex (text.toList ++ rest) = text :: lex rest := by
  obtain ⟨c, body, htext, hc, hbody⟩ := h
  rw [htext, cons_append, lex_identifier (by simp [startsIdentifier, hc])
    (fun d hd => by simp [continuesIdentifier, hbody d hd]) hrest, ← htext, String.ofList_toList]

theorem lex_word_space (h : IsWord text) : lex (text.toList ++ ' ' :: rest) = text :: lex rest := by
  rw [lex_word h (by rintro d ⟨⟩; decide), lex_space rfl]

theorem lex_word_mark (h : IsWord text) (hmark : isMark c = true) (hc : continuesIdentifier c = false) :
    lex (text.toList ++ c :: rest) = text :: String.ofList [c] :: lex rest := by
  rw [lex_word h (by rintro d ⟨⟩; exact hc), lex_mark hmark]

theorem lex_item (h : IsItem text) (hrest : ∀ d ∈ rest.head?, joinsNumber d = false) :
    lex (text.toList ++ rest) = text :: lex rest := by
  rcases h with h | ⟨c, body, htext, hc, hbody⟩
  · refine lex_word h fun d hd => ?_
    have hjoins := hrest d hd
    simp only [joinsNumber, continuesNumber, Bool.or_eq_false_iff] at hjoins
    exact hjoins.1.1.1
  · rw [htext, cons_append, lex_number hc (fun d hd => ⟨?_, ?_, ?_⟩) hrest, ← htext, String.ofList_toList]
    · simp [continuesNumber, continuesIdentifier, continuesName_of_hex (hbody d hd)]
    · rintro rfl
      exact absurd (hbody '+' hd) (by decide)
    · rintro rfl
      exact absurd (hbody '-' hd) (by decide)

theorem lex_spaces (count : Nat) (rest : List Char) : lex (List.replicate count ' ' ++ rest) = lex rest := by
  induction count with
  | zero => rfl
  | succ count ih => rw [replicate_succ, cons_append, lex_space rfl, ih]

theorem lex_of_comment (hspace : isSpace c = false)
    (hwidth : commentWidth (c :: rest) = rest.length + 1) : lex (c :: rest) = [] := by
  rw [lex, if_neg (by simp [hspace]), if_pos (by simp [hwidth]), hwidth, Nat.add_sub_cancel, drop_length, lex]

theorem lex_remark (h : ∀ c ∈ rest, c ≠ '\n') : lex ('/' :: '/' :: rest) = [] := by
  have hall : rest.takeWhile (fun c => c != '\n') = rest :=
    takeWhile_eq_self_iff.mpr fun c hc => by simpa using h c hc
  apply lex_of_comment rfl
  rw [commentWidth, runWidth, hall, length_cons]
  omega

theorem blockTail_stars {body : List Char} (h : ∀ c ∈ body, c ≠ '*') :
    blockTail (body ++ ['*', '*', '/']) = body.length + 3 := by
  induction body with
  | nil => rfl
  | cons c body ih =>
    rw [forall_mem_cons] at h
    rw [cons_append, blockTail, ih h.2, length_cons]
    · omega
    · intro rest hc
      exact absurd hc h.1

theorem lex_starred {body : List Char} (h : ∀ c ∈ body, c ≠ '*') :
    lex ('/' :: '*' :: '*' :: ' ' :: (body ++ ['*', '*', '/'])) = [] := by
  have htail : blockTail ('*' :: ' ' :: (body ++ ['*', '*', '/'])) = body.length + 5 := by
    rw [blockTail, blockTail, blockTail_stars h]
    · omega
    · simp
    · simp
  apply lex_of_comment rfl
  simp only [commentWidth, htail, length_cons, length_append, length_nil]
  omega

end CToken

namespace CLine

open CToken

theorem tokens_shift (width : Int) (line : String) : tokens (shift width line) = tokens line := by
  unfold tokens shift
  split_ifs
  · rfl
  · rw [String.toList_append, blanks, String.toList_ofList, lex_spaces]

theorem event?_shift (width : Int) (line : String) : event? (shift width line) = event? line := by
  rw [event?, event?, role_shift, tokens_shift]

/-! ### Lines that do nothing to names -/

theorem event?_of_plain (h : role line = .plain) : event? line =
    match assigned? (tokens line) with
    | some name => some (.writes name)
    | none =>
      if (declared (tokens line)).isEmpty then none else some (.declares (declared (tokens line))) := by
  rw [event?, h]

theorem event?_of_quiet (h : role line = .plain) (hassigned : assigned? (tokens line) = none)
    (hdeclared : declared (tokens line) = []) : event? line = none := by
  rw [event?_of_plain h, hassigned, hdeclared]
  rfl

theorem event?_blank : event? "" = none :=
  event?_of_quiet rfl (by simp [tokens, lex, assigned?]) (by simp [tokens, lex, declared])

theorem event?_brace : event? "\x7d" = some .closes := by
  rw [event?, show role "\x7d" = .closes .brace by decide]

theorem tokens_remark (h : ∀ c ∈ text.toList, c ≠ '\n') : tokens ("//" ++ text) = [] := by
  rw [tokens, String.toList_append]
  exact lex_remark h

theorem event?_remark (h : ∀ c ∈ text.toList, c ≠ '\n') : event? ("//" ++ text) = none := by
  have htext : ("//" ++ text).toList = '/' :: '/' :: text.toList := by
    rw [String.toList_append]
    rfl
  have htokens := tokens_remark h
  exact event?_of_quiet (role_of_remark htext) (by rw [htokens]; rfl) (by rw [htokens]; rfl)

theorem tokens_starred (h : ∀ c ∈ text.toList, c ≠ '*') : tokens ("/** " ++ text ++ "**/") = [] := by
  rw [tokens, String.toList_append, String.toList_append, append_assoc]
  exact lex_starred h

theorem event?_starred (h : ∀ c ∈ text.toList, c ≠ '*') : event? ("/** " ++ text ++ "**/") = none := by
  have htext : ("/** " ++ text ++ "**/").toList =
      '/' :: '*' :: '*' :: ' ' :: (text.toList ++ ['*', '*', '/']) := by
    rw [String.toList_append, String.toList_append]
    rfl
  have htokens := tokens_starred h
  have hlast : ("/** " ++ text ++ "**/").toList.getLast? = some '/' := by
    rw [String.toList_append, getLast?_append]
    rfl
  exact event?_of_quiet (role_of_delimited htext hlast) (by rw [htokens]; rfl) (by rw [htokens]; rfl)

theorem event?_directive (h : line.toList.dropWhile (· == ' ') = '#' :: c :: rest) (hc : c ≠ '#') :
    event? line = none := by
  have htokens : tokens line = "#" :: lex (c :: rest) := by
    have hsplit : line.toList = List.replicate (line.toList.takeWhile (· == ' ')).length ' ' ++
        '#' :: c :: rest := by
      rw [← h, ← eq_replicate_iff.mpr ⟨rfl, fun d hd => by simpa using mem_takeWhile_imp hd⟩,
        takeWhile_append_dropWhile]
    rw [tokens, hsplit, lex_spaces, lex_hash]
    rintro d ⟨⟩
    exact hc
  have hassigned : assigned? (tokens line) = none := by
    rw [htokens]
    cases lex (c :: rest) <;> simp [assigned?, show isName "#" = false by decide]
  have hdeclared : declared (tokens line) = [] := by
    rw [htokens]
    simp [declared, show isName "#" = false by decide]
  have hrole : ∀ indents, role line ≠ .opens .brace indents ∧ role line ≠ .closes .brace := by
    intro indents
    unfold role
    simp only [h, head?_cons, beq_self_eq_true, Bool.true_or, if_true]
    split_ifs <;> simp_all
  unfold event?
  split
  · next indents hopens => exact absurd hopens (hrole indents).1
  · next hcloses => exact absurd hcloses (hrole false).2
  · rw [hassigned, hdeclared]
    rfl

theorem event?_of_directive (h : first.toList.dropWhile (· == ' ') = '#' :: c :: rest) (hc : c ≠ '#')
    (last : String) :
    event? (first ++ last) = none := by
  have hline : (first ++ last).toList.dropWhile (· == ' ') = '#' :: c :: (rest ++ last.toList) := by
    rw [String.toList_append, dropWhile_append, h]
    rfl
  exact event?_directive hline hc

section

variable (h : role line = .plain)
include h

theorem event?_of_call {first second : String} {rest : List String}
    (htokens : tokens line = first :: second :: rest) (hsecond : isName second = false)
    (hequals : second ≠ "=") : event? line = none := by
  refine event?_of_quiet h ?_ ?_
  · simp [htokens, assigned?, hequals]
  · rw [htokens, declared]
    split_ifs
    · cases rest with
      | nil => simp [names?]
      | cons third rest => cases rest <;> simp [names?, hsecond]
    · rfl

/-- A statement that starts with two names and a token that neither goes on with the names nor ends
them does nothing to names. -/
theorem event?_of_names {first second third : String} {rest : List String}
    (htokens : tokens line = first :: second :: third :: rest)
    (hsecond : isName second = true) (hcomma : third ≠ ",") (hstop : third ≠ ";") :
    event? line = none := by
  refine event?_of_quiet h ?_ ?_
  · simp [htokens, assigned?, ne_of_isName hsecond (show isName "=" = false by decide)]
  · rw [htokens, declared]
    split_ifs
    · cases rest <;> simp [names?, hcomma, hstop]
    · rfl

theorem event?_returns {rest : List String} (htokens : tokens line = "return" :: rest) : event? line = none := by
  refine event?_of_quiet h ?_ ?_
  · rw [htokens]
    cases rest <;> simp [assigned?]
  · simp [htokens, declared]

end

theorem tokens_call (hname : IsWord name) (arguments : String) :
    tokens (name ++ "(" ++ arguments ++ ");") = name :: "(" :: lex (arguments.toList ++ [')', ';']) := by
  have htext : (name ++ "(" ++ arguments ++ ");").toList =
      name.toList ++ '(' :: (arguments.toList ++ [')', ';']) := by
    simp
  rw [tokens, htext, lex_word_mark hname rfl rfl]

theorem event?_call (hname : IsWord name) (arguments : String) :
    event? (name ++ "(" ++ arguments ++ ");") = none := by
  have hrole : role (name ++ "(" ++ arguments ++ ");") = .plain := by
    have hline : name ++ "(" ++ arguments ++ ");" = name ++ ("(" ++ arguments ++ ")") ++ ";" := by
      simp only [String.append_assoc]
      rfl
    rw [hline]
    exact role_of_statement (startsWord_append hname.startsWord _)
  exact event?_of_call hrole (tokens_call hname arguments) (by decide) (by decide)

theorem tokens_return (value : String) : tokens (if value.isEmpty then "return;" else "return " ++ value ++ ";") =
      "return" :: lex (value.toList ++ [';']) := by
  have hword : IsWord "return" := isWord_of_all rfl
  have htext : (if value.isEmpty then "return;" else "return " ++ value ++ ";").toList =
      "return".toList ++ (List.replicate (if value.isEmpty then 0 else 1) ' ' ++ (value.toList ++ [';'])) := by
    split_ifs with hempty
    · rw [String.isEmpty_iff.mp hempty]
      rfl
    · simp
  rw [tokens, htext, lex_word hword, lex_spaces]
  intro d hd
  split_ifs at hd with hempty
  · rw [String.isEmpty_iff.mp hempty] at hd
    obtain rfl : ';' = d := by simpa using hd
    decide
  · obtain rfl : ' ' = d := by simpa using hd
    decide

theorem event?_return (value : String) :
    event? (if value.isEmpty then "return;" else "return " ++ value ++ ";") = none := by
  refine event?_returns ?_ (tokens_return value)
  split_ifs
  · decide
  · exact role_of_statement (startsWord_append rfl value)

theorem tokens_typedef (htype : IsWord type) (hname : IsWord name)
    (htail : ∀ d ∈ tail.toList.head?, continuesIdentifier d = false) :
    tokens ("typedef " ++ (type ++ " " ++ name ++ tail) ++ ";") =
      "typedef" :: type :: name :: lex (tail.toList ++ [';']) := by
  have hword : IsWord "typedef" := isWord_of_all rfl
  have htext : ("typedef " ++ (type ++ " " ++ name ++ tail) ++ ";").toList =
      "typedef".toList ++ ' ' :: (type.toList ++ ' ' :: (name.toList ++ (tail.toList ++ [';']))) := by
    simp
  rw [tokens, htext, lex_word_space hword, lex_word_space htype, lex_word hname]
  intro d hd
  cases hchars : tail.toList with
  | nil =>
    rw [hchars] at hd
    obtain rfl : ';' = d := by simpa using hd
    decide
  | cons c rest =>
    rw [hchars] at hd htail
    exact htail d (by simpa using hd)

theorem typedef_struct (name : String) : "typedef struct " ++ name ++ " " ++ name ++ ";" =
    "typedef " ++ ("struct" ++ " " ++ name ++ (" " ++ name)) ++ ";" := by
  simp only [← String.append_assoc]
  rfl

theorem event?_typedef (htype : IsWord type) (hname : IsWord name)
    (htail : ∀ d ∈ tail.toList.head?, continuesIdentifier d = false) :
    event? ("typedef " ++ (type ++ " " ++ name ++ tail) ++ ";") = none := by
  refine event?_of_names ?_ (tokens_typedef htype hname htail) htype.isName (ne_of_isName hname.isName rfl)
    (ne_of_isName hname.isName rfl)
  exact role_of_statement (startsWord_append rfl _)

/-! ### Declarations and assignments -/

theorem names?_intersperse (hne : names ≠ []) (h : ∀ name ∈ names, IsItem name) :
    names? (names.intersperse "," ++ [";"]) = some names := by
  induction names with
  | nil => exact absurd rfl hne
  | cons name names ih =>
    rw [forall_mem_cons] at h
    cases names with
    | nil => simp [names?, h.1.isName]
    | cons other names =>
      have hrest := ih (cons_ne_nil other names) h.2
      rw [intersperse_cons_cons, cons_append, cons_append]
      cases hmore : (other :: names).intersperse "," ++ [";"] with
      | nil => simp at hmore
      | cons first more =>
        rw [hmore] at hrest
        simp [names?, h.1.isName, hrest]

theorem lex_intercalate (h : ∀ name ∈ names, IsItem name) (hrest : ∀ d ∈ rest.head?, joinsNumber d = false) :
    lex ((", ".intercalate names).toList ++ rest) = names.intersperse "," ++ lex rest := by
  induction names with
  | nil => simp
  | cons name names ih =>
    rw [forall_mem_cons] at h
    cases names with
    | nil => simpa using lex_item h.1 hrest
    | cons other names =>
      have htext : (", ".intercalate (name :: other :: names)).toList ++ rest =
          name.toList ++ ',' :: ' ' :: ((", ".intercalate (other :: names)).toList ++ rest) := by
        simp [String.intercalate_cons_cons, -String.toList_intercalate]
      rw [htext, lex_item h.1 (by rintro d ⟨⟩; decide), lex_mark rfl, lex_space rfl, ih h.2]
      rfl

theorem tokens_declaration (htype : IsWord type) (hnames : ∀ name ∈ names, IsItem name) :
    tokens (type ++ " " ++ ", ".intercalate names ++ ";") =
      type :: (names.intersperse "," ++ [";"]) := by
  have htext : (type ++ " " ++ ", ".intercalate names ++ ";").toList =
      type.toList ++ ' ' :: ((", ".intercalate names).toList ++ [';']) := by
    simp [-String.toList_intercalate]
  rw [tokens, htext, lex_word_space htype,
    lex_intercalate hnames (by rintro d ⟨⟩; decide), lex_mark rfl, lex]

theorem event?_declaration (htype : IsType type) (hnames : ∀ name ∈ names, IsItem name) (hne : names ≠ []) :
    event? (type ++ " " ++ ", ".intercalate names ++ ";") = some (.declares names) := by
  have htokens := tokens_declaration htype.word hnames
  have hrole : role (type ++ " " ++ ", ".intercalate names ++ ";") = .plain := by
    apply role_of_statement
    rw [String.append_assoc]
    exact startsWord_append htype.word.startsWord _
  have hreturn : type ≠ "return" := htype.ne (k := .returnKey) rfl
  have hdeclared : declared (tokens (type ++ " " ++ ", ".intercalate names ++ ";")) = names := by
    simp [htokens, declared, htype.word.isName, hreturn, names?_intersperse hne hnames]
  have hassigned : assigned? (tokens (type ++ " " ++ ", ".intercalate names ++ ";")) = none := by
    rw [htokens]
    cases names with
    | nil => exact absurd rfl hne
    | cons name names =>
      have hequals : name ≠ "=" :=
        ne_of_isName (hnames name mem_cons_self).isName rfl
      cases names <;> simp [assigned?, hequals]
  rw [event?_of_plain hrole, hassigned, hdeclared]
  simp [hne]

theorem tokens_assignment (hname : IsWord name) (value : String) :
    tokens (name ++ " = " ++ value ++ ";") = name :: "=" :: lex (value.toList ++ [';']) := by
  have htext : (name ++ " = " ++ value ++ ";").toList =
      name.toList ++ ' ' :: '=' :: ' ' :: (value.toList ++ [';']) := by
    simp
  rw [tokens, htext, lex_word_space hname, lex_equals (by rintro d ⟨⟩; decide), lex_space rfl]

theorem event?_assignment (hname : IsType name) (value : String) :
    event? (name ++ " = " ++ value ++ ";") = some (.writes name) := by
  have htokens := tokens_assignment hname.word value
  have hrole : role (name ++ " = " ++ value ++ ";") = .plain := by
    apply role_of_statement
    rw [String.append_assoc]
    exact startsWord_append hname.word.startsWord _
  have hreturn : name ≠ "return" := hname.ne (k := .returnKey) rfl
  rw [event?_of_plain hrole, htokens]
  simp [assigned?, hname.word.isName, hreturn]

/-! ### Blocks -/

theorem event?_opening (h : startsWord opening = true) :
    event? (opening ++ " \x7b") = some (.opens (bound (tokens (opening ++ " \x7b")))
      (loopTarget? (tokens (opening ++ " \x7b")))) := by
  rw [event?, role_of_opening h]

theorem tokens_header {word : String} (hword : IsWord word) (rest : String) :
    tokens (word ++ "(" ++ rest ++ " \x7b") = word :: "(" :: lex (rest.toList ++ [' ', '\x7b']) := by
  have htext : (word ++ "(" ++ rest ++ " \x7b").toList =
      word.toList ++ '(' :: (rest.toList ++ [' ', '\x7b']) := by
    simp
  rw [tokens, htext, lex_word_mark hword rfl rfl]

theorem event?_condition (word : String) (hword : IsWord word) (hfor : word ≠ "for") (condition : String) :
    event? (word ++ "(" ++ condition ++ ")" ++ " \x7b") = some (.opens [] none) := by
  rw [show word ++ "(" ++ condition ++ ")" = word ++ "(" ++ (condition ++ ")") from String.append_assoc]
  generalize condition ++ ")" = rest
  have hstarts : startsWord (word ++ "(" ++ rest) = true := by
    rw [String.append_assoc]
    exact startsWord_append hword.startsWord _
  have hparen : isName "(" = false := by decide
  rw [event?_opening hstarts, tokens_header hword]
  have hbound : bound (word :: "(" :: lex (rest.toList ++ [' ', '\x7b'])) = [] := by
    simp [bound, hfor, hparen]
  have htarget : loopTarget? (word :: "(" :: lex (rest.toList ++ [' ', '\x7b'])) = none := by
    unfold loopTarget?
    split <;> simp_all
  rw [hbound, htarget]

section

variable (condition : String)
include condition

theorem event?_if : event? ("if(" ++ condition ++ ")" ++ " \x7b") = some (.opens [] none) :=
  event?_condition "if" (isWord_of_all rfl) (by decide) condition

theorem event?_while : event? ("while(" ++ condition ++ ")" ++ " \x7b") = some (.opens [] none) :=
  event?_condition "while" (isWord_of_all rfl) (by decide) condition

theorem tokens_elseIf : tokens ("else if(" ++ condition ++ ")" ++ " \x7b") =
    "else" :: "if" :: "(" :: lex (condition.toList ++ [')', ' ', '\x7b']) := by
  have htext : ("else if(" ++ condition ++ ")" ++ " \x7b").toList =
      "else".toList ++ ' ' :: ("if".toList ++ '(' :: (condition.toList ++ [')', ' ', '\x7b'])) := by
    simp
  rw [tokens, htext, lex_word_space (isWord_of_all rfl), lex_word_mark (isWord_of_all rfl) rfl rfl]

theorem event?_elseIf : event? ("else if(" ++ condition ++ ")" ++ " \x7b") = some (.opens [] none) := by
  have hword : startsWord ("else if(" ++ condition ++ ")") = true := by
    rw [String.append_assoc]
    exact startsWord_append rfl _
  rw [event?_opening hword, tokens_elseIf]
  generalize lex (condition.toList ++ [')', ' ', '\x7b']) = rest
  have htarget : loopTarget? ("else" :: "if" :: "(" :: rest) = none := by
    cases rest <;> simp [loopTarget?]
  simp [bound, htarget]

end

theorem tokens_else : tokens ("else" ++ " \x7b") = ["else", "\x7b"] := by
  have htext : ("else" ++ " \x7b").toList = "else".toList ++ [' ', '\x7b'] := by simp
  rw [tokens, htext, lex_word_space (isWord_of_all rfl), lex_mark rfl, lex]

theorem event?_else : event? ("else" ++ " \x7b") = some (.opens [] none) := by
  rw [event?_opening rfl, tokens_else]
  rfl

/-- The text of a start clause: the loop variable and an equals sign. -/
structure Starts (name clause : String) : Prop where
  word : IsWord name
  text : ∃ rest, clause.toList = name.toList ++ ' ' :: '=' :: rest ∧ ∀ d ∈ rest.head?, d ≠ '='

theorem tokens_start (h : Starts name clause) (before : String)
    (words : List String) (htail : tail.toList.head? = some ';')
    (hbefore : ∀ rest, lex (before.toList ++ (name.toList ++ ' ' :: rest)) =
      words ++ lex (name.toList ++ ' ' :: rest)) :
    ∃ more, tokens (before ++ clause ++ tail ++ " \x7b") = words ++ name :: "=" :: more := by
  obtain ⟨rest, hclause, hrest⟩ := h.text
  have htext : (before ++ clause ++ tail ++ " \x7b").toList =
      before.toList ++ (name.toList ++ ' ' :: '=' :: (rest ++ (tail.toList ++ [' ', '\x7b']))) := by
    simp [hclause]
  refine ⟨lex (rest ++ (tail.toList ++ [' ', '\x7b'])), ?_⟩
  rw [tokens, htext, hbefore, lex_word_space h.word, lex_equals]
  intro d hd
  cases rest with
  | nil =>
    obtain ⟨more, hmore⟩ := head?_eq_some_iff.mp htail
    rw [hmore] at hd
    obtain rfl : ';' = d := by simpa using hd
    decide
  | cons c rest => exact hrest d (by simpa using hd)

theorem starts_render {start : List Token} {t : Token} (hfirst : start.head? = some t)
    (hword : t.kind = .word) (hloop : Reader.startsLoop start = true)
    (hrun : ∀ u ∈ start, u.endsLine = false)
    (hsolid : ∀ u ∈ start, u.kind ≠ .spaces → u.kind.Lexeme u.raw.toList) :
    Starts t.raw (render start) := by
  obtain ⟨run, rfl⟩ := head?_eq_some_iff.mp hfirst
  have hspaces : (t :: run).filter (fun u => u.kind != .spaces) =
      t :: run.filter fun u => u.kind != .spaces := by
    simp [hword]
  have hplain : ∀ u ∈ t :: run, u.kind ≠ .lineBreak ∧ u.kind ≠ .comment := by
    intro u hu
    simpa [Token.endsLine] using hrun u hu
  have hink : significant (t :: run) = (t :: run).filter fun u => u.kind != .spaces := by
    unfold significant
    apply filter_congr
    intro u hu
    obtain ⟨hbreak, hcomment⟩ := hplain u hu
    rw [bne_iff_ne.mpr hbreak, bne_iff_ne.mpr hcomment, Bool.and_true, Bool.and_true]
  have hall : ∀ u ∈ (t :: run).filter (fun u => u.kind != .spaces), Solid u := by
    intro u hu
    obtain ⟨hmem, hspace⟩ := mem_filter.mp hu
    have hspace : u.kind ≠ .spaces := by simpa using hspace
    exact ⟨hsolid u hmem hspace, hspace, (hplain u hmem).1, (hplain u hmem).2⟩
  have ht : TokenKind.word.Lexeme t.raw.toList := by
    have hlexeme := hsolid t mem_cons_self (by simp [hword])
    rwa [hword] at hlexeme
  unfold Reader.startsLoop at hloop
  rw [hspaces] at hloop
  rw [hspaces, forall_mem_cons] at hall
  rw [hspaces] at hink
  rcases hrest : run.filter (fun u => u.kind != .spaces) with _ | ⟨equals, _ | ⟨u, more⟩⟩
  · simp [hrest] at hloop
  · simp [hrest] at hloop
  · rw [hrest] at hall hink hloop
    rw [forall_mem_cons, forall_mem_cons] at hall
    obtain ⟨-, hequals, hu, -⟩ := hall
    have hkind : equals.kind = .setEquals := by simpa using hloop
    have hraw : equals.raw = "=" := by
      have hlexeme := hequals.lexeme
      rw [hkind] at hlexeme
      simpa [TokenKind.Lexeme, TokenKind.symbols] using hlexeme
    have hopens : opens t = false := by
      obtain ⟨c, rest, htext, hc, -⟩ := ht
      have hbracket : t.raw ≠ "[" := by
        intro hraw
        rw [hraw] at htext
        obtain ⟨rfl, -⟩ := List.cons.inj (show ['['] = c :: rest from htext)
        exact absurd hc (by decide)
      simp [opens, hword, hbracket]
    obtain ⟨d, cs, hletters, hd⟩ := head_letters (t := equals) hu false more
    refine ⟨ht, d :: cs, ?_, ?_⟩
    · rw [render, hink]
      have hunary : isUnary none t = false := by simp [isUnary, hword]
      have hunary' : isUnary (some t) equals = false := by
        simp [isUnary, hkind]
      have hspaced : spaced t false equals = true := by
        have hother : opens equals = false := by simp [opens, hkind, hraw]
        simp [spaced, closes, hkind, hraw, hword, hopens, hother]
      have hjoin : (String.join (pieces none (t :: equals :: u :: more))).toList =
          t.raw.toList ++ ' ' :: '=' :: letters (some (equals, false)) (u :: more) := by
        simp [pieces, hunary, hunary', hspaced, letters, spell, hword, hkind, hraw]
      rw [hjoin, hletters]
    · rintro c ⟨⟩
      rcases hd with ⟨-, rfl⟩ | ⟨hspaced, hd⟩
      · decide
      · have hbracket : closes u = true ∨ u.kind = .comma ∨ opens u = true := by
          by_contra hnone
          simp only [not_or, Bool.not_eq_true] at hnone
          have hother : opens equals = false := by simp [opens, hkind, hraw]
          simp [spaced, hnone.1, hnone.2.1, hnone.2.2, hother, hkind] at hspaced
        have hmem := head_of_bracket hu hbracket hd
        rintro rfl
        exact absurd hmem (by decide)

theorem event?_declaringLoop (h : Starts name clause) (htail : tail.toList.head? = some ';') :
    event? ("for(int " ++ clause ++ tail ++ " \x7b") = some (.opens [name] none) := by
  obtain ⟨more, htokens⟩ := tokens_start h "for(int " ["for", "(", "int"] htail fun rest => by
    rw [show "for(int ".toList = "for".toList ++ '(' :: ("int".toList ++ [' ']) from rfl,
      append_assoc, lex_word (isWord_of_all rfl) (by rintro d ⟨⟩; decide), cons_append,
      lex_mark rfl, append_assoc, cons_append, nil_append,
      lex_word_space (isWord_of_all rfl)]
    rfl
  have hword : startsWord ("for(int " ++ clause ++ tail) = true := by
    rw [String.append_assoc]
    exact startsWord_append rfl _
  have hname : name ≠ "=" := ne_of_isName h.word.isName rfl
  rw [event?_opening hword, htokens]
  simp [bound, loopVariable, loopTarget?, h.word.isName, hname, show isName "int" = true by decide]

theorem event?_repeat {counter : String} (h : IsWord counter) (count : String) :
    event? ("for(int " ++ counter ++ " = 0; " ++ counter ++ " < " ++ count ++ "; " ++ counter ++ "++)" ++
      " \x7b") = some (.opens [counter] none) := by
  have hline : "for(int " ++ counter ++ " = 0; " ++ counter ++ " < " ++ count ++ "; " ++ counter ++ "++)" ++
      " \x7b" = "for(int " ++ (counter ++ " = 0") ++
        ("; " ++ counter ++ " < " ++ count ++ "; " ++ counter ++ "++)") ++ " \x7b" := by
    rw [← String.toList_inj]
    simp
  rw [hline]
  exact event?_declaringLoop ⟨h, [' ', '0'], by simp, by simp⟩ (by simp)

theorem event?_loop (h : Starts name clause) (htail : tail.toList.head? = some ';') :
    event? ("for(" ++ clause ++ tail ++ " \x7b") = some (.opens [] (some name)) := by
  obtain ⟨more, htokens⟩ := tokens_start h "for(" ["for", "("] htail fun rest => by
    rw [show "for(".toList = "for".toList ++ ['('] from rfl, append_assoc,
      lex_word (isWord_of_all rfl) (by rintro d ⟨⟩; decide), cons_append,
      lex_mark rfl]
    rfl
  have hword : startsWord ("for(" ++ clause ++ tail) = true := by
    rw [String.append_assoc]
    exact startsWord_append rfl _
  have hbound : loopVariable (name :: "=" :: more) = [] := by
    cases more <;> simp [loopVariable, show isName "=" = false by decide]
  rw [event?_opening hword, htokens]
  simp [bound, loopTarget?, hbound]

/-! ### Methods -/

def parameterTokens (declared : Parameter × CType) : List String :=
  declared.2.name :: declared.1.name :: declared.2.dimensions.flatMap fun d => ["[", d, "]"]

structure Declarable (declared : Parameter × CType) : Prop where
  type : IsWord declared.2.name
  name : IsWord declared.1.name
  dimensions : ∀ d ∈ declared.2.dimensions, IsItem d

theorem lex_suffix {dimensions : List String} (h : ∀ d ∈ dimensions, IsItem d) (rest : List Char) :
    lex ((String.join (dimensions.map fun d => "[" ++ d ++ "]")).toList ++ rest) =
      dimensions.flatMap (fun d => ["[", d, "]"]) ++ lex rest := by
  induction dimensions with
  | nil => simp
  | cons d dimensions ih =>
    rw [forall_mem_cons] at h
    have htext : (String.join ((d :: dimensions).map fun d => "[" ++ d ++ "]")).toList ++ rest =
        '[' :: (d.toList ++ ']' ::
          ((String.join (dimensions.map fun d => "[" ++ d ++ "]")).toList ++ rest)) := by
      simp
    rw [htext, lex_mark rfl, lex_item h.1 (by rintro d ⟨⟩; decide), lex_mark rfl, ih h.2]
    rfl

theorem stops_suffix (dimensions : List String) (hrest : ∀ d ∈ rest.head?, continuesIdentifier d = false) :
    ∀ d ∈ ((String.join (dimensions.map fun d => "[" ++ d ++ "]")).toList ++ rest).head?,
      continuesIdentifier d = false := by
  cases dimensions with
  | nil => simpa using hrest
  | cons first dimensions =>
    intro d hd
    obtain rfl : '[' = d := by simpa using hd
    decide

theorem lex_parameter {declared : Parameter × CType} (h : Declarable declared)
    (hrest : ∀ d ∈ rest.head?, continuesIdentifier d = false) :
    lex ((declared.2.declare declared.1.name).toList ++ rest) = parameterTokens declared ++ lex rest := by
  obtain ⟨p, type⟩ := declared
  have htext : (type.declare p.name).toList ++ rest = type.name.toList ++ ' ' :: (p.name.toList ++
        ((String.join (type.dimensions.map fun d => "[" ++ d ++ "]")).toList ++ rest)) := by
    simp [CType.declare, CType.suffix]
  rw [htext, lex_word_space h.type,
    lex_word h.name (stops_suffix type.dimensions hrest), lex_suffix h.dimensions]
  rfl

def parameterListTokens : List (Parameter × CType) → List String
  | [] => []
  | [declared] => parameterTokens declared
  | declared :: others => parameterTokens declared ++ "," :: parameterListTokens others

theorem parameterListTokens_cons (first second : Parameter × CType) (others : List (Parameter × CType)) :
    parameterListTokens (first :: second :: others) =
      parameterTokens first ++ "," :: parameterListTokens (second :: others) := rfl

theorem lex_parameterList {declared : List (Parameter × CType)} (h : ∀ x ∈ declared, Declarable x)
    (hrest : ∀ d ∈ rest.head?, continuesIdentifier d = false) :
    lex ((", ".intercalate (declared.map fun (p, type) => type.declare p.name)).toList ++ rest) =
      parameterListTokens declared ++ lex rest := by
  induction declared with
  | nil => simp [parameterListTokens]
  | cons first others ih =>
    rw [forall_mem_cons] at h
    cases others with
    | nil => simpa [parameterListTokens] using lex_parameter h.1 hrest
    | cons second others =>
      have htext : (", ".intercalate ((first :: second :: others).map
            fun (p, type) => type.declare p.name)).toList ++ rest =
          (first.2.declare first.1.name).toList ++ ',' :: ' ' ::
            ((", ".intercalate ((second :: others).map fun (p, type) => type.declare p.name)).toList ++
              rest) := by
        simp [String.intercalate_cons_cons, -String.toList_intercalate]
      rw [htext, lex_parameter h.1 (by rintro d ⟨⟩; decide), lex_mark rfl,
        lex_space rfl, ih h.2, parameterListTokens_cons, append_assoc]
      rfl

theorem parameters_cons {token : String} (hparen : token ≠ "(") (hcomma : token ≠ ",")
    (rest : List String) : parameters (token :: rest) = parameters rest := by
  cases rest with
  | nil => rfl
  | cons second rest =>
    cases rest with
    | nil => rfl
    | cons third rest => simp [parameters, hparen, hcomma]

theorem parameters_suffix {dimensions : List String} (h : ∀ d ∈ dimensions, IsItem d) (rest : List String) :
    parameters (dimensions.flatMap (fun d => ["[", d, "]"]) ++ rest) = parameters rest := by
  induction dimensions with
  | nil => rfl
  | cons d dimensions ih =>
    rw [forall_mem_cons] at h
    have hparen : d ≠ "(" := ne_of_isName h.1.isName rfl
    have hcomma : d ≠ "," := ne_of_isName h.1.isName rfl
    rw [flatMap_cons, append_assoc, cons_append, cons_append, cons_append,
      parameters_cons (by decide) (by decide), parameters_cons hparen hcomma,
      parameters_cons (by decide) (by decide), nil_append, ih h.2]

theorem parameters_parameter (hopening : opening = "(" ∨ opening = ",")
    {declared : Parameter × CType} (h : Declarable declared) (rest : List String) :
    parameters (opening :: (parameterTokens declared ++ rest)) = declared.1.name :: parameters rest := by
  obtain ⟨p, type⟩ := declared
  have hplain : ∀ {text : String}, IsWord text → text ≠ "(" ∧ text ≠ "," := fun h =>
    ⟨ne_of_isName h.isName rfl, ne_of_isName h.isName rfl⟩
  rw [parameterTokens, cons_append, cons_append, parameters, if_pos]
  · rw [parameters_cons (hplain h.type).1 (hplain h.type).2, parameters_cons (hplain h.name).1 (hplain h.name).2,
      parameters_suffix h.dimensions]
  · rcases hopening with rfl | rfl <;> simp [h.type.isName, h.name.isName]

theorem parameters_list {declared : List (Parameter × CType)} (h : ∀ x ∈ declared, Declarable x)
    (hne : declared ≠ []) (hopening : opening = "(" ∨ opening = ",")
    (rest : List String) : parameters (opening :: (parameterListTokens declared ++ rest)) =
      declared.map (fun x => x.1.name) ++ parameters rest := by
  induction declared generalizing opening with
  | nil => exact absurd rfl hne
  | cons first others ih =>
    rw [forall_mem_cons] at h
    cases others with
    | nil => exact parameters_parameter hopening h.1 rest
    | cons second others =>
      rw [parameterListTokens_cons, append_assoc, parameters_parameter hopening h.1,
        cons_append, ih h.2 (cons_ne_nil second others) (.inr rfl)]
      rfl

def parenthesized (declared : List (Parameter × CType)) : List String :=
  if declared.isEmpty then ["void"] else parameterListTokens declared

theorem head_eq (result name : String) (declared : List (Parameter × CType)) :
    Printer.head result name declared = result ++ " " ++ name ++ "(" ++ (if declared.isEmpty then "void"
        else ", ".intercalate (declared.map fun (p, type) => type.declare p.name)) ++ ")" := by
  have hlist : (", ".intercalate (declared.map fun (p, type) => type.declare p.name)).isEmpty =
      declared.isEmpty := by
    cases declared with
    | nil => rfl
    | cons first others =>
      rw [isEmpty_cons, Bool.eq_false_iff]
      intro hempty
      have htext := congrArg String.toList (String.isEmpty_iff.mp hempty)
      cases others with
      | nil => simp [CType.declare] at htext
      | cons second others =>
        simp [String.intercalate_cons_cons, -String.toList_intercalate, CType.declare] at htext
  rw [Printer.head, hlist]

theorem tokens_head {declared : List (Parameter × CType)} (hresult : IsWord result)
    (hname : IsWord name) (h : ∀ x ∈ declared, Declarable x) (last : String) :
    tokens (Printer.head result name declared ++ last) =
      result :: name :: "(" :: (parenthesized declared ++ ")" :: lex last.toList) := by
  have hclosing : ∀ {d}, d ∈ (')' :: last.toList).head? → continuesIdentifier d = false := by
    rintro d ⟨⟩
    decide
  have htext : (Printer.head result name declared ++ last).toList =
      result.toList ++ ' ' :: (name.toList ++ '(' :: ((if declared.isEmpty then "void"
          else ", ".intercalate (declared.map fun (p, type) => type.declare p.name)).toList ++
            ')' :: last.toList)) := by
    rw [head_eq]
    simp [-String.toList_intercalate]
  rw [tokens, htext, lex_word_space hresult, lex_word_mark hname rfl rfl, parenthesized]
  split_ifs
  · rw [lex_word (isWord_of_all rfl) (fun d => hclosing), lex_mark rfl]
    rfl
  · rw [lex_parameterList h (fun d => hclosing), lex_mark rfl]

theorem parameters_parenthesized {declared : List (Parameter × CType)} (h : ∀ x ∈ declared, Declarable x) :
    parameters ("(" :: (parenthesized declared ++ [")", "\x7b"])) = declared.map fun x => x.1.name := by
  cases declared with
  | nil => simp [parenthesized, parameters, show isName ")" = false by decide]
  | cons first others =>
    have hlist := parameters_list h (cons_ne_nil first others) (.inl rfl) [")", "\x7b"]
    simpa [parenthesized, parameters] using hlist

theorem startsWord_head (hresult : IsWord result) (name : String) (declared : List (Parameter × CType)) :
    startsWord (Printer.head result name declared) = true := by
  rw [Printer.head, String.append_assoc, String.append_assoc, String.append_assoc, String.append_assoc]
  exact startsWord_append hresult.startsWord _

theorem event?_method {declared : List (Parameter × CType)} (hresult : IsType result)
    (hname : IsWord name) (h : ∀ x ∈ declared, Declarable x) :
    event? (Printer.head result name declared ++ " \x7b") =
      some (.opens (declared.map fun x => x.1.name) none) := by
  have htokens : tokens (Printer.head result name declared ++ " \x7b") =
      result :: name :: "(" :: (parenthesized declared ++ [")", "\x7b"]) := by
    rw [tokens_head hresult.word hname h, show " \x7b".toList = [' ', '\x7b'] from rfl, lex_space rfl,
      lex_mark rfl, lex]
  have hfor : result ≠ "for" := hresult.ne (k := .forKey) rfl
  have helse : result ≠ "else" := hresult.ne (k := .elseKey) rfl
  rw [event?_opening (startsWord_head hresult.word name declared), htokens]
  have htarget : loopTarget? (result :: name :: "(" :: (parenthesized declared ++ [")", "\x7b"])) = none := by
    generalize parenthesized declared ++ [")", "\x7b"] = rest
    cases rest <;> simp [loopTarget?, hfor]
  simp [bound, hfor, helse, hname.isName, parameters_parenthesized h, htarget]

theorem event?_prototype {declared : List (Parameter × CType)}
    (hresult : IsType result) (hname : IsWord name) (h : ∀ x ∈ declared, Declarable x) :
    event? (Printer.head result name declared ++ ";") = none := by
  have htokens := tokens_head hresult.word hname h ";"
  have hrole := role_of_statement (startsWord_head hresult.word name declared)
  exact event?_of_names hrole htokens hname.isName (by decide) (by decide)

end CLine

namespace CType

theorem stops_suffix (type : CType) : ∀ d ∈ type.suffix.toList.head?, CToken.continuesIdentifier d = false := by
  have hstops := @CLine.stops_suffix [] type.dimensions (by simp)
  rwa [append_nil] at hstops

theorem text_of_plain {type : CType} (h : type.dimensions = []) : type.text = type.name := by
  simp [text, suffix, h]

end CType

/-! ### Names in statements -/

/-- The names in a statement have the form that the lines of C need. -/
def Statement.Named : Statement → Prop
  | comment text => ∀ c ∈ text.toList, c ≠ '\n'
  | declaration _ names _ => ∀ name ∈ names, IsItem name
  | assignment name _ | structType name => IsType name
  | call name _ => IsWord name
  | setMode mode choices => IsWord mode ∧ ∀ choice ∈ choices, IsItem choice
  | defaultMode mode choice | defineMode mode choice => IsWord mode ∧ IsWord choice
  | method name parameters _ => IsWord name ∧ ∀ p ∈ parameters, IsWord p.name ∧
      ∀ d ∈ p.dimensions, IsItem d
  | forLoop start _ => ∀ t ∈ start, t.kind ≠ .spaces → t.kind.Lexeme t.raw.toList
  | option name => IsWord name
  | _ => True

theorem Statement.named_of {s : Statement} (hlexical : s.Lexical) (hunreserved : s.Unreserved) : s.Named := by
  obtain ⟨loose, hmarks⟩ := hlexical.marks
  have hword : ∀ {name : String}, Mark.word name ∈ s.marks loose → IsWord name := fun hmem =>
    hmarks _ hmem rfl
  have hitem : ∀ {name : String}, Mark.item name ∈ s.marks loose → IsItem name := fun hmem =>
    hmarks _ hmem rfl
  cases s with
  | comment text =>
    have hremark := hmarks (.remark text) mem_cons_self rfl
    rintro c hc rfl
    exact absurd (hremark _ hc) (by decide)
  | declaration typeName names isMutable =>
    intro name hname
    apply hitem
    simp [Statement.marks, Mark.mem_items loose hname]
  | assignment name expression | structType name => exact ⟨hword (by simp [Statement.marks]), hunreserved⟩
  | call name arguments => exact @hword name (by simp [Statement.marks])
  | setMode mode options =>
    refine ⟨hword (by simp [Statement.marks]), fun option hoption => hitem ?_⟩
    simp [Statement.marks, Mark.mem_items loose hoption]
  | defaultMode mode option | defineMode mode option =>
    exact ⟨hword (by simp [Statement.marks]), hword (by simp [Statement.marks])⟩
  | method name parameters returnType =>
    refine ⟨hword (by simp [Statement.marks]), fun p hp => ?_⟩
    have hsubset : Mark.parameter p ⊆ (Statement.method name parameters returnType).marks loose := by
      have hne : parameters.isEmpty = false := by
        cases parameters with
        | nil => cases hp
        | cons first others => rfl
      intro mark hmark
      simp [Statement.marks, hne, Mark.parameter_subset hp hmark]
    unfold Mark.parameter at hsubset
    split_ifs at hsubset with hplain
    · exact ⟨hword (hsubset (by simp)), by simp [hplain]⟩
    · refine ⟨hword (hsubset (by simp)), fun d hd => hitem (hsubset ?_)⟩
      simp [Mark.dimensions, hd]
  | forLoop start stop =>
    intro t ht hspaces
    have hmem : Mark.copy t ∈ (Statement.forLoop start stop).marks loose := by
      simp [Statement.marks, Mark.run, ht]
    exact hmarks _ hmem (by simpa [Mark.isGap] using hspaces)
  | option name => exact @hword name (by simp [Statement.marks])
  | _ => trivial

end CirOutline
