import CirOutline.Proofs.Emission.Preprocessor
import CirOutline.Proofs.Emission.Printout

/-!
Lines of C and the types in them. `CLine.typeLine` tells from the text of a line alone which types it
names and which it introduces: a type definition introduces one, and types are named as the elements of
arrays, in the heads of methods, in declarations and in the casts of preprocessor definitions. The
counter of a loop is always an integer and names none.
-/

namespace CirOutline

open List Text

variable {declared : List (Parameter × CType)} {first name opening type : String}

namespace CLine

open CToken

/-- The types of parameters: each follows a parenthesis or a comma. -/
def parameterTypes : List String → List String
  | opening :: type :: rest =>
    if (opening == "(" || opening == ",") && isName type then type :: parameterTypes (type :: rest)
    else parameterTypes (type :: rest)
  | _ => []

def castTypes : List String → List String
  | define :: _ :: first :: second :: type :: _ =>
    if define == "define" && first == "(" && second == "(" then [type] else []
  | _ => []

def usedTypes : List String → List String
  | first :: second :: third :: rest =>
    if first == "#" then castTypes (second :: third :: rest)
    else if !(isName first && isName second) || first == "return" || first == "else" then []
    else if third == "(" then first :: parameterTypes (third :: rest)
    else if third == "," || third == ";" then [first]
    else if first == "typedef" && rest.head? == some "[" then [second]
    else []
  | _ => []

def introducedType? : List String → Option String
  | first :: second :: third :: fourth :: _ =>
    if first == "typedef" && isName second && isName third then
      if fourth == "[" then some third else if second == "struct" then some fourth else none
    else none
  | _ => none

end CLine

/-- What a line does to types, with its part in the nesting. -/
structure TypeLine where
  used : List String
  introduced : Option String
  role : Role

namespace TypeLine

def of (role : Role) (content : String) : TypeLine :=
  ⟨CLine.usedTypes (CLine.tokens content), CLine.introducedType? (CLine.tokens content), role⟩

theorem of_shift (role : Role) (gap : Int) (content : String) : of role (shift gap content) = of role content := by
  rw [of, of, CLine.tokens_shift]

end TypeLine

namespace CLine

def typeLine (line : String) : TypeLine := .of (Text.role line) line

/-! ### Lines without types -/

structure Untyped (tokens : List String) : Prop where
  used : usedTypes tokens = []
  introduced : introducedType? tokens = none

theorem untyped_nil : Untyped [] := ⟨rfl, rfl⟩

theorem untyped_of_mark {second : String} (hfirst : first ≠ "#") (hsecond : isName second = false)
    (rest : List String) : Untyped (first :: second :: rest) := by
  constructor
  · cases rest with
    | nil => rfl
    | cons third rest => simp [usedTypes, hfirst, hsecond]
  · rcases rest with _ | ⟨third, _ | ⟨fourth, rest⟩⟩
    · rfl
    · rfl
    · simp [introducedType?, hsecond]

theorem untyped_of_key (hfirst : first = "return" ∨ first = "else") (rest : List String) :
    Untyped (first :: rest) := by
  have htypedef : first ≠ "typedef" := by rcases hfirst with rfl | rfl <;> decide
  have hhash : first ≠ "#" := by rcases hfirst with rfl | rfl <;> decide
  constructor
  · rcases rest with _ | ⟨second, _ | ⟨third, rest⟩⟩
    · rfl
    · rfl
    · rcases hfirst with rfl | rfl <;> simp [usedTypes]
  · rcases rest with _ | ⟨second, _ | ⟨third, _ | ⟨fourth, rest⟩⟩⟩
    · rfl
    · rfl
    · rfl
    · simp [introducedType?, htypedef]

theorem introducedType?_of_directive (rest : List String) : introducedType? ("#" :: rest) = none := by
  rcases rest with _ | ⟨second, _ | ⟨third, _ | ⟨fourth, rest⟩⟩⟩
  · rfl
  · rfl
  · rfl
  · simp [introducedType?]

theorem untyped_of_directive {word : String} (hword : word ≠ "define") (rest : List String) :
    Untyped ("#" :: word :: rest) := by
  refine ⟨?_, introducedType?_of_directive _⟩
  rcases rest with _ | ⟨third, rest⟩
  · rfl
  · rw [usedTypes, if_pos (by rfl)]
    rcases rest with _ | ⟨fourth, _ | ⟨fifth, _ | ⟨sixth, rest⟩⟩⟩
    · rfl
    · rfl
    · rfl
    · simp [castTypes, hword]

theorem untyped_directive (word : String) (hword : IsWord word) (hdefine : word ≠ "define")
    (hfirst : first = "#" ++ word ++ " ") (rest : String) :
    Untyped (tokens (first ++ rest)) := by
  have hline : (first ++ rest).toList = '#' :: (word.toList ++ ' ' :: rest.toList) := by simp [hfirst]
  rw [tokens_directive hword hline (by rintro d ⟨⟩; decide)]
  exact untyped_of_directive hdefine _

theorem untyped_endif : Untyped (tokens "#endif") := by
  have hline : "#endif".toList = '#' :: ("endif".toList ++ []) := rfl
  rw [tokens_directive (isWord_of_all rfl) hline (by simp)]
  exact untyped_of_directive (by decide) _

theorem untyped_brace : Untyped (tokens "\x7d") := by
  have hline : tokens "\x7d" = ["\x7d"] := by
    change CToken.lex ['\x7d'] = _
    rw [CToken.lex_mark rfl, CToken.lex]
  rw [hline]
  exact ⟨rfl, rfl⟩

theorem tokens_define_shifted (symbol : String) :
    tokens ("  #define " ++ symbol) = tokens ("#define " ++ symbol) := by
  have hshift : "  #define " ++ symbol = shift 2 ("#define " ++ symbol) := by
    rw [shift, if_neg (by simp)]
    simp only [← String.append_assoc]
    rfl
  rw [hshift, tokens_shift]

theorem untyped_define {symbol : String} (h : IsWord symbol) : Untyped (tokens ("#define " ++ symbol)) := by
  rw [tokens_define h]
  exact ⟨rfl, rfl⟩

theorem untyped_heads {c : Context} {s : Statement} (h : Printer.Heads c s opening) :
    Untyped (tokens (opening ++ " \x7b")) := by
  have hheader : ∀ word : String, IsWord word → ∀ (line : String) {rest : List Char},
      line.toList = word.toList ++ '(' :: rest → Untyped (tokens line) := by
    intro word hword line rest hline
    rw [tokens, hline, CToken.lex_word_mark hword rfl rfl]
    exact untyped_of_mark (ne_of_isName hword.isName rfl) rfl _
  have hfor : IsWord "for" := isWord_of_all rfl
  cases h with
  | ifThen => exact hheader "if" (isWord_of_all rfl) _ (by simp; rfl)
  | elseIf =>
    rw [tokens_elseIf]
    exact untyped_of_key (.inr rfl) _
  | otherwise =>
    rw [tokens_else]
    exact untyped_of_key (.inr rfl) _
  | whileLoop => exact hheader "while" (isWord_of_all rfl) _ (by simp; rfl)
  | loop _ | declaringLoop _ | countedLoop _ => exact hheader "for" hfor _ (by simp; rfl)

/-! ### Lines with types -/

theorem typed_declaration {names : List String} (htype : IsType type) (hnames : ∀ name ∈ names, IsItem name)
    (hne : names ≠ []) :
    usedTypes (type :: (names.intersperse "," ++ [";"])) = [type] ∧
      introducedType? (type :: (names.intersperse "," ++ [";"])) = none := by
  have hreturn : type ≠ "return" := htype.ne (k := .returnKey) rfl
  have helse : type ≠ "else" := htype.ne (k := .elseKey) rfl
  have hhash : type ≠ "#" := ne_of_isName htype.word.isName rfl
  obtain ⟨name, others, rfl⟩ := exists_cons_of_ne_nil hne
  have hname : isName name = true := (hnames name mem_cons_self).isName
  obtain ⟨mark, rest, hmark, hrest⟩ : ∃ mark rest, (mark = "," ∨ mark = ";") ∧
      (name :: others).intersperse "," ++ [";"] = name :: mark :: rest := by
    cases others with
    | nil => exact ⟨";", [], .inr rfl, rfl⟩
    | cons other others => exact ⟨",", (other :: others).intersperse "," ++ [";"], .inl rfl, rfl⟩
  have hparen : mark ≠ "(" := by rcases hmark with rfl | rfl <;> decide
  have hplain : isName mark = false := by rcases hmark with rfl | rfl <;> decide
  rw [hrest]
  constructor
  · rcases hmark with rfl | rfl <;>
      simp [usedTypes, hhash, htype.word.isName, hname, hreturn, helse]
  · cases rest with
    | nil => rfl
    | cons fourth rest => simp [introducedType?, hplain]

theorem typed_cast (name type : String) (rest : List String) :
    usedTypes ("#" :: "define" :: name :: "(" :: "(" :: type :: rest) = [type] ∧
      introducedType? ("#" :: "define" :: name :: "(" :: "(" :: type :: rest) = none := by
  refine ⟨?_, introducedType?_of_directive _⟩
  simp [usedTypes, castTypes]

theorem tokens_named (hname : IsWord name) :
    tokens ("typedef struct " ++ name ++ " " ++ name ++ ";") = ["typedef", "struct", name, name, ";"] := by
  have htail : (" " ++ name).toList ++ [';'] = ' ' :: (name.toList ++ [';']) := by simp
  rw [typedef_struct, tokens_typedef (isWord_of_all rfl) hname (by simp; decide), htail,
    CToken.lex_space rfl, CToken.lex_word_mark hname rfl rfl,
    CToken.lex]

theorem typed_named (hname : IsWord name) : usedTypes ["typedef", "struct", name, name, ";"] = [] ∧
      introducedType? ["typedef", "struct", name, name, ";"] = some name := by
  have hplain : ∀ {other : String}, isName other = false → name ≠ other := fun hother =>
    ne_of_isName hname.isName hother
  have htypedef : isName "typedef" = true := by decide
  have hstruct : isName "struct" = true := by decide
  constructor
  · simp [usedTypes, htypedef, hstruct, hplain (show isName "(" = false by decide),
      hplain (show isName "," = false by decide), hplain (show isName ";" = false by decide),
      hplain (show isName "[" = false by decide)]
  · simp [introducedType?, hstruct, hname.isName, hplain (show isName "[" = false by decide)]

theorem tokens_array {type : CType} (htype : IsWord type.name) (hname : IsWord name)
    (hdimensions : ∀ d ∈ type.dimensions, IsItem d) :
    tokens ("typedef " ++ type.declare name ++ ";") =
      "typedef" :: type.name :: name :: (type.dimensions.flatMap (fun d => ["[", d, "]"]) ++ [";"]) := by
  rw [CType.declare, tokens_typedef htype hname type.stops_suffix, CType.suffix, lex_suffix hdimensions,
    CToken.lex_mark rfl, CToken.lex]

theorem typed_array (htype : IsWord type) (hname : IsWord name) (rest : List String) :
    usedTypes ("typedef" :: type :: name :: "[" :: rest) = [type] ∧
      introducedType? ("typedef" :: type :: name :: "[" :: rest) = some name := by
  have hplain : ∀ {other : String}, isName other = false → name ≠ other := fun hother =>
    ne_of_isName hname.isName hother
  have htypedef : isName "typedef" = true := by decide
  constructor
  · simp [usedTypes, htypedef, htype.isName, hplain (show isName "(" = false by decide),
      hplain (show isName "," = false by decide), hplain (show isName ";" = false by decide)]
  · simp [introducedType?, htype.isName, hname.isName]

/-! ### Heads of methods -/

theorem parameterTypes_cons {token : String} (hparen : token ≠ "(") (hcomma : token ≠ ",")
    (rest : List String) : parameterTypes (token :: rest) = parameterTypes rest := by
  cases rest with
  | nil => rfl
  | cons second rest => simp [parameterTypes, hparen, hcomma]

theorem parameterTypes_append {before : List String} (h : ∀ token ∈ before, token ≠ "(" ∧ token ≠ ",")
    (rest : List String) : parameterTypes (before ++ rest) = parameterTypes rest := by
  induction before with
  | nil => rfl
  | cons token before ih =>
    rw [forall_mem_cons] at h
    rw [cons_append, parameterTypes_cons h.1.1 h.1.2, ih h.2]

theorem plain_of_mem_parameterTokens {declared : Parameter × CType} (h : Declarable declared) :
    ∀ token ∈ parameterTokens declared, token ≠ "(" ∧ token ≠ "," := by
  have hplain : ∀ {text : String}, isName text = true → text ≠ "(" ∧ text ≠ "," := fun h =>
    ⟨ne_of_isName h rfl, ne_of_isName h rfl⟩
  intro token htoken
  rcases mem_cons.mp htoken with rfl | htoken
  · exact hplain h.type.isName
  · rcases mem_cons.mp htoken with rfl | htoken
    · exact hplain h.name.isName
    · obtain ⟨d, hd, htoken⟩ := mem_flatMap.mp htoken
      rcases (by simpa using htoken : token = "[" ∨ token = d ∨ token = "]") with rfl | rfl | rfl
      · exact ⟨by decide, by decide⟩
      · exact hplain (h.dimensions _ hd).isName
      · exact ⟨by decide, by decide⟩

theorem parameterTypes_list (h : ∀ x ∈ declared, Declarable x) (hne : declared ≠ [])
    (hopening : opening = "(" ∨ opening = ",") (rest : List String) :
    parameterTypes (opening :: (parameterListTokens declared ++ rest)) =
      declared.map (fun x => x.2.name) ++ parameterTypes rest := by
  have hfirst : ∀ {opening : String}, (opening = "(" ∨ opening = ",") → ∀ {x : Parameter × CType},
      Declarable x → ∀ rest, parameterTypes (opening :: (parameterTokens x ++ rest)) =
        x.2.name :: parameterTypes rest := by
    intro opening hopening x hx rest
    have htype := hx.type.isName
    have hskip := parameterTypes_append (plain_of_mem_parameterTokens hx) rest
    rw [parameterTokens, cons_append] at hskip ⊢
    rw [parameterTypes, if_pos (by rcases hopening with rfl | rfl <;> simp [htype]), hskip]
  induction declared generalizing opening with
  | nil => exact absurd rfl hne
  | cons first others ih =>
    rw [forall_mem_cons] at h
    cases others with
    | nil => exact hfirst hopening h.1 rest
    | cons second others =>
      rw [parameterListTokens_cons, append_assoc, hfirst hopening h.1, cons_append,
        ih h.2 (cons_ne_nil second others) (.inr rfl)]
      rfl

theorem typed_head {result : String} (hresult : IsType result) (hname : IsWord name)
    (h : ∀ x ∈ declared, Declarable x) {last : List String}
    (hlast : ∀ token ∈ last, token ≠ "(" ∧ token ≠ ",") :
    usedTypes (result :: name :: "(" :: (parenthesized declared ++ ")" :: last)) =
        result :: (if declared.isEmpty then [CType.void] else declared.map fun x => x.2.name) ∧
      introducedType? (result :: name :: "(" :: (parenthesized declared ++ ")" :: last)) = none := by
  have hreturn : result ≠ "return" := hresult.ne (k := .returnKey) rfl
  have helse : result ≠ "else" := hresult.ne (k := .elseKey) rfl
  have hhash : result ≠ "#" := ne_of_isName hresult.word.isName rfl
  have hend : parameterTypes (")" :: last) = [] := by
    have hskip : parameterTypes ((")" :: last) ++ []) = parameterTypes [] :=
      parameterTypes_append (forall_mem_cons.mpr ⟨by decide, hlast⟩) []
    rwa [append_nil] at hskip
  have hparameters : parameterTypes ("(" :: (parenthesized declared ++ ")" :: last)) =
      if declared.isEmpty then [CType.void] else declared.map fun x => x.2.name := by
    cases declared with
    | nil =>
      have hvoid : isName "void" = true := by decide
      rw [parenthesized, isEmpty_nil, if_pos rfl, if_pos rfl, singleton_append, parameterTypes,
        if_pos (by simp [hvoid]), parameterTypes_cons (by decide) (by decide), hend]
      rfl
    | cons first others =>
      rw [parenthesized, isEmpty_cons, if_neg Bool.false_ne_true, if_neg Bool.false_ne_true,
        parameterTypes_list h (cons_ne_nil first others) (.inl rfl), hend, append_nil]
  constructor
  · rw [usedTypes, hparameters]
    simp [hhash, hresult.word.isName, hname.isName, hreturn, helse]
  · generalize parenthesized declared ++ ")" :: last = rest
    cases rest with
    | nil => rfl
    | cons fourth rest => simp [introducedType?, show isName "(" = false by decide]

end CLine

end CirOutline
