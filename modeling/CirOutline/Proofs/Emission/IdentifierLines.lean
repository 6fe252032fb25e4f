import CirOutline.Proofs.Emission.Directives
import CirOutline.Proofs.Emission.TypeReading
import CirOutline.Proofs.Expression.Identifiers

/-!
Lines of C and the identifiers in them. `CLine.fate?` tells from the text of a line what it does with a
name: the line holds the name as an identifier, or it removes the macro with that name. The words of C and
the symbols of modes are identifiers here, as they are for the preprocessor; the names of directives are not.
-/

namespace CirOutline

open Expression Text CToken
open List hiding lex

variable {declared : List (Parameter × CType)} {symbols names : List String}
  {text type line name counter word symbol : String} {run start stop : List Token} {c : Char}
  {rest : List Char}

/-! ### Identifiers of texts -/

namespace CToken

theorem isIdentifier_of_isWord (h : IsWord text) : isIdentifier text = true := by
  obtain ⟨c, rest, htext, hc, -⟩ := h
  simp [isIdentifier, startsIdentifier, htext, hc]

/-- A word ends at such a character, and no identifier, number or comment starts with it. -/
def isDivider (c : Char) : Bool := isIdle c && !continuesIdentifier c

theorem apart_of_isDivider (h : isDivider c = true) : ∀ d ∈ (c :: rest).head?, continuesIdentifier d = false := by
  rintro d ⟨⟩
  simp only [isDivider, Bool.and_eq_true, Bool.not_eq_true'] at h
  exact h.2

theorem identifiers_divider (h : isDivider c = true) : identifiers (c :: rest) = identifiers rest :=
  identifiers_idle (Bool.and_elim_left h) rest

theorem identifiers_word (h : IsWord text) (hc : isDivider c = true) :
    identifiers (text.toList ++ c :: rest) = text :: identifiers rest := by
  rw [identifiers, lex_word h (apart_of_isDivider hc), filter_cons_of_pos (isIdentifier_of_isWord h),
    ← identifiers_divider hc]
  rfl

theorem identifiers_idles_end {text : List Char} (h : text.all isIdle = true) : identifiers text = [] := by
  have hskip := @identifiers_idles text [] (all_eq_true.mp h)
  rwa [append_nil, identifiers_nil] at hskip

theorem identifiers_render_end (hsolid : ∀ t ∈ significant run, Solid t)
    (hrest : ∀ d ∈ rest.head?, d = ';' ∨ d = ')') (hidle : rest.all isIdle = true) :
    identifiers ((render run).toList ++ rest) = Expression.names run := by
  rw [identifiers_render hsolid hrest, identifiers_idles_end hidle, append_nil]

end CToken

/-! ### Identifiers of lines -/

namespace CLine

/-- The identifiers among the tokens of a line. The name of a directive is none of them. -/
def identifiers : List String → List String
  | first :: second :: rest =>
    if first == "#" then rest.filter isIdentifier
    else (first :: second :: rest).filter isIdentifier
  | tokens => tokens.filter isIdentifier

def removed? : List String → Option String
  | [hash, directive, name] => if hash == "#" && directive == "undef" then some name else none
  | _ => none

end CLine

/-- What is looked for: the removal of the macro with a name, and its uses if they count. -/
structure Watch where
  name : String
  uses : Bool

/-- What becomes of a name first: it is used, or the macro with the name is removed. -/
inductive Fate where
  | used
  | removed
  deriving DecidableEq

/-- What a line or a statement does with a name, by the identifiers in it and the macro that it removes. -/
def Fate.of? (w : Watch) (names : List String) (removed : Option String) : Option Fate :=
  if removed = some w.name then some .removed
  else if w.name ∈ names ∧ w.uses = true then some .used
  else none

theorem Fate.of?_congr {w : Watch} {names others : List String} (h : w.name ∈ names ↔ w.name ∈ others)
    (removed : Option String) : of? w names removed = of? w others removed := by
  simp only [of?, h]

theorem Fate.of?_append (w : Watch) (names others : List String) :
    of? w (names ++ others) none = (of? w names none).or (of? w others none) := by
  by_cases hfirst : w.name ∈ names ∧ w.uses = true
  · simp [of?, hfirst]
  · have hboth : (w.name ∈ names ∨ w.name ∈ others) ∧ w.uses = true ↔ w.name ∈ others ∧ w.uses = true := by tauto
    simp [of?, hfirst, hboth]

namespace CLine

def fate? (w : Watch) (line : String) : Option Fate :=
  Fate.of? w (identifiers (tokens line)) (removed? (tokens line))

theorem fate?_shift (w : Watch) (gap : Int) (line : String) : fate? w (shift gap line) = fate? w line := by
  rw [fate?, fate?, tokens_shift]

structure Holds (line : String) (names : List String) : Prop where
  removed : removed? (tokens line) = none
  identifiers : identifiers (tokens line) = names

theorem Holds.fate? (h : Holds line names) (w : Watch) : fate? w line = Fate.of? w names none := by
  rw [CLine.fate?, h.removed, h.identifiers]

theorem holds_of_empty (h : tokens line = []) : Holds line [] := by
  constructor
  · rw [h]
    rfl
  · rw [h]
    rfl

theorem holds_of_tokens {first : String} {rest : List String}
    (htokens : tokens line = first :: rest) (hfirst : first ≠ "#") :
    Holds line ((first :: rest).filter isIdentifier) := by
  rw [← htokens]
  constructor
  · rw [htokens]
    rcases rest with _ | ⟨second, _ | ⟨third, _ | ⟨fourth, rest⟩⟩⟩ <;> simp [removed?, hfirst]
  · rw [htokens]
    cases rest with
    | nil => rfl
    | cons second rest => simp [identifiers, hfirst]

theorem holds_of_word (hword : IsWord word) (hline : line.toList = word.toList ++ c :: rest)
    (hc : isDivider c = true) : Holds line (word :: CToken.identifiers rest) := by
  have htokens : tokens line = word :: lex (c :: rest) := by
    rw [tokens, hline, lex_word hword (apart_of_isDivider hc)]
  have hholds := holds_of_tokens htokens (ne_of_isName hword.isName rfl)
  rw [filter_cons_of_pos (isIdentifier_of_isWord hword)] at hholds
  rwa [← identifiers_divider hc]

theorem holds_of_directive (hword : IsWord word) (hundef : word ≠ "undef")
    (hline : line.toList = '#' :: (word.toList ++ rest))
    (hrest : ∀ d ∈ rest.head?, continuesIdentifier d = false) :
    Holds line (CToken.identifiers rest) := by
  have htokens := tokens_directive hword hline hrest
  constructor
  · rw [htokens]
    generalize lex rest = others
    rcases others with _ | ⟨third, _ | ⟨fourth, others⟩⟩ <;> simp [removed?, hundef]
  · rw [htokens]
    rfl

end CLine

/-! ### Lines of statements -/

namespace CLine

theorem filter_intersperse (names : List String) :
    (names.intersperse ",").filter isIdentifier = names.filter isIdentifier := by
  have hcomma : isIdentifier "," = false := by decide
  induction names with
  | nil => rfl
  | cons name names ih =>
    cases names with
    | nil => rfl
    | cons other names =>
      rw [intersperse_cons_cons, filter_cons, filter_cons (x := name), ← ih,
        filter_cons_of_neg (Bool.eq_false_iff.mp hcomma)]

theorem holds_declaration (htype : IsWord type) (hnames : ∀ name ∈ names, IsItem name) :
    Holds (type ++ " " ++ ", ".intercalate names ++ ";") (type :: names.filter isIdentifier) := by
  have hholds := holds_of_tokens (tokens_declaration htype hnames) (ne_of_isName htype.isName rfl)
  have hstop : [";"].filter isIdentifier = [] := by decide
  rwa [filter_cons_of_pos (isIdentifier_of_isWord htype), filter_append, filter_intersperse, hstop,
    append_nil] at hholds

theorem holds_assignment (hname : IsWord name) (hsolid : ∀ t ∈ significant run, Solid t) :
    Holds (name ++ " = " ++ render run ++ ";") (name :: Expression.names run) := by
  have hline : (name ++ " = " ++ render run ++ ";").toList =
      name.toList ++ ' ' :: '=' :: ' ' :: ((render run).toList ++ [';']) := by
    simp
  have hholds := holds_of_word hname hline rfl
  rwa [identifiers_idle rfl, identifiers_idle rfl, identifiers_render_end hsolid (by simp) rfl] at hholds

theorem holds_constant (hname : IsWord name) (htype : IsWord type) (hsolid : ∀ t ∈ significant run, Solid t) :
    Holds ("#define " ++ name ++ " ((" ++ type ++ ") " ++ render run ++ ")")
      (name :: type :: Expression.names run) := by
  have hline : ("#define " ++ name ++ " ((" ++ type ++ ") " ++ render run ++ ")").toList =
      '#' :: ("define".toList ++ ' ' :: (name.toList ++ ' ' :: '(' :: '(' ::
        (type.toList ++ ')' :: ' ' :: ((render run).toList ++ [')'])))) := by
    simp
  have hholds := holds_of_directive (isWord_of_all (by decide)) (by decide) hline (apart_of_isDivider rfl)
  rwa [identifiers_idle rfl, identifiers_word hname rfl, identifiers_idle rfl, identifiers_idle rfl,
    identifiers_word htype rfl, identifiers_idle rfl, identifiers_render_end hsolid (by simp) rfl] at hholds

theorem holds_call (hname : IsWord name) (hsolid : ∀ t ∈ significant run, Solid t) :
    Holds (name ++ "(" ++ render run ++ ");") (name :: Expression.names run) := by
  have hline : (name ++ "(" ++ render run ++ ");").toList =
      name.toList ++ '(' :: ((render run).toList ++ [')', ';']) := by
    simp
  have hholds := holds_of_word hname hline rfl
  rwa [identifiers_render_end hsolid (by simp) rfl] at hholds

theorem holds_return (hsolid : ∀ t ∈ significant run, Solid t) :
    Holds (if (render run).isEmpty then "return;" else "return " ++ render run ++ ";")
      ("return" :: Expression.names run) := by
  have hholds := holds_of_tokens (tokens_return (render run)) (by decide)
  rw [filter_cons_of_pos rfl] at hholds
  rwa [← show CToken.identifiers ((render run).toList ++ [';']) = _ from identifiers_render_end hsolid (by simp) rfl]

theorem holds_named (hname : IsWord name) :
    Holds ("typedef struct " ++ name ++ " " ++ name ++ ";") ["typedef", "struct", name, name] := by
  have hholds := holds_of_tokens (tokens_named hname) (by decide)
  have hfilter : ["typedef", "struct", name, name, ";"].filter isIdentifier =
      ["typedef", "struct", name, name] := by
    have hword := isIdentifier_of_isWord hname
    simp [hword, show isIdentifier "typedef" = true by decide,
      show isIdentifier "struct" = true by decide, show isIdentifier ";" = false by decide]
  rwa [hfilter] at hholds

theorem filter_dimensions (dimensions : List String) :
    (dimensions.flatMap fun d => ["[", d, "]"]).filter isIdentifier = dimensions.filter isIdentifier := by
  induction dimensions with
  | nil => rfl
  | cons d dimensions ih =>
    rw [flatMap_cons, filter_append, ih, filter_cons_of_neg (by decide), filter_cons,
      filter_cons_of_neg (by decide), filter_cons (x := d)]
    split_ifs <;> rfl

theorem holds_array {type : CType} (htype : IsWord type.name) (hname : IsWord name)
    (hdimensions : ∀ d ∈ type.dimensions, IsItem d) :
    Holds ("typedef " ++ type.declare name ++ ";")
      ("typedef" :: type.name :: name :: type.dimensions.filter isIdentifier) := by
  have hholds := holds_of_tokens (tokens_array htype hname hdimensions) (by decide)
  have hstop : [";"].filter isIdentifier = [] := by decide
  rwa [filter_cons_of_pos rfl, filter_cons_of_pos (isIdentifier_of_isWord htype),
    filter_cons_of_pos (isIdentifier_of_isWord hname), filter_append, filter_dimensions, hstop,
    append_nil] at hholds

theorem holds_directive (hword : IsWord word) (hundef : word ≠ "undef") (h : IsWord symbol)
    (hline : line.toList = '#' :: (word.toList ++ ' ' :: (symbol.toList ++ []))) : Holds line [symbol] := by
  have hholds := holds_of_directive hword hundef hline (apart_of_isDivider rfl)
  rwa [identifiers_idle rfl, CToken.identifiers, lex_word h (by simp), lex,
    filter_cons_of_pos (isIdentifier_of_isWord h)] at hholds

theorem holds_define (h : IsWord symbol) : Holds ("#define " ++ symbol) [symbol] := by
  have hword : IsWord "define" := isWord_of_all rfl
  exact holds_directive hword (by decide) h (by simp)

theorem holds_endif : Holds "#endif" [] := by
  have hline : "#endif".toList = '#' :: ("endif".toList ++ []) := rfl
  have hholds := holds_of_directive (isWord_of_all (by decide)) (by decide) hline (by simp)
  rwa [identifiers_nil] at hholds

theorem holds_brace : Holds "\x7d" [] := by
  have htokens : tokens "\x7d" = "\x7d" :: [] := by
    change lex ['\x7d'] = _
    rw [lex_mark rfl, lex]
  have hholds := holds_of_tokens htokens (by decide)
  rwa [filter_cons_of_neg (by decide)] at hholds

theorem fate?_undef (h : IsWord symbol) (w : Watch) :
    fate? w ("#undef " ++ symbol) = if symbol = w.name then some .removed else none := by
  have hline : ("#undef " ++ symbol).toList = '#' :: ("undef".toList ++ ' ' :: (symbol.toList ++ [])) := by
    simp
  have htokens : tokens ("#undef " ++ symbol) = ["#", "undef", symbol] := by
    rw [tokens_of_name (isWord_of_all rfl) h hline (by simp), lex]
  have hidentifiers : identifiers ["#", "undef", symbol] = [symbol] :=
    filter_cons_of_pos (isIdentifier_of_isWord h)
  have hremoved : removed? ["#", "undef", symbol] = some symbol := rfl
  rw [fate?, htokens, hremoved, hidentifiers, Fate.of?]
  by_cases hname : symbol = w.name
  · simp [hname]
  · simp [hname, Ne.symm hname]

theorem identifiers_undefined (h : ∀ symbol ∈ symbols, IsWord symbol) :
    CToken.identifiers (" && ".intercalate (symbols.map fun symbol => "!defined(" ++ symbol ++ ")")).toList =
      symbols.flatMap fun symbol => ["defined", symbol] := by
  have hone : ∀ (symbol : String) (rest : List Char), IsWord symbol →
      CToken.identifiers (("!defined(" ++ symbol ++ ")").toList ++ rest) =
        "defined" :: symbol :: CToken.identifiers rest := by
    intro symbol rest hsymbol
    have htext : ("!defined(" ++ symbol ++ ")").toList ++ rest =
        '!' :: ("defined".toList ++ '(' :: (symbol.toList ++ ')' :: rest)) := by
      simp
    rw [htext, identifiers_idle rfl, identifiers_word (isWord_of_all rfl) rfl, identifiers_word hsymbol rfl]
  induction symbols with
  | nil => simp [identifiers_nil]
  | cons symbol symbols ih =>
    rw [forall_mem_cons] at h
    cases symbols with
    | nil =>
      have hlast := hone symbol [] h.1
      rw [append_nil, identifiers_nil] at hlast
      simpa using hlast
    | cons other symbols =>
      have hsplit : " && ".intercalate ((symbol :: other :: symbols).map fun symbol =>
          "!defined(" ++ symbol ++ ")") = "!defined(" ++ symbol ++ ")" ++ " && " ++
            " && ".intercalate ((other :: symbols).map fun symbol => "!defined(" ++ symbol ++ ")") :=
        String.intercalate_cons_cons
      rw [hsplit, String.toList_append, String.toList_append, append_assoc, hone symbol _ h.1]
      have hmid : (" && ".toList.all isIdle) = true := by decide
      rw [flatMap_cons, identifiers_idles (all_eq_true.mp hmid)]
      exact congrArg (fun rest => "defined" :: symbol :: rest) (ih h.2)

theorem holds_undefined (h : ∀ symbol ∈ symbols, IsWord symbol) :
    Holds ("#if " ++ " && ".intercalate (symbols.map fun symbol => "!defined(" ++ symbol ++ ")"))
      (symbols.flatMap fun symbol => ["defined", symbol]) := by
  rw [← identifiers_undefined h]
  generalize " && ".intercalate (symbols.map fun symbol => "!defined(" ++ symbol ++ ")") = condition
  have hline : ("#if " ++ condition).toList = '#' :: ("if".toList ++ ' ' :: condition.toList) := by
    simp
  have hholds := holds_of_directive (isWord_of_all (by decide)) (by decide) hline (apart_of_isDivider rfl)
  rwa [identifiers_idle rfl] at hholds

theorem filter_parameters (h : ∀ x ∈ declared, Declarable x) : (parameterListTokens declared).filter isIdentifier =
      declared.flatMap fun x => x.2.name :: x.1.name :: x.2.dimensions.filter isIdentifier := by
  have hone : ∀ x : Parameter × CType, Declarable x → (parameterTokens x).filter isIdentifier =
      x.2.name :: x.1.name :: x.2.dimensions.filter isIdentifier := by
    intro x hx
    rw [parameterTokens, filter_cons_of_pos (isIdentifier_of_isWord hx.type),
      filter_cons_of_pos (isIdentifier_of_isWord hx.name), filter_dimensions]
  induction declared with
  | nil => rfl
  | cons first others ih =>
    rw [forall_mem_cons] at h
    cases others with
    | nil =>
      rw [flatMap_cons, ← hone first h.1]
      exact (append_nil _).symm
    | cons second others =>
      rw [parameterListTokens_cons, filter_append, filter_cons_of_neg (by decide), ih h.2,
        hone first h.1]
      rfl

theorem holds_head {result : String} (hresult : IsWord result) (hname : IsWord name)
    (h : ∀ x ∈ declared, Declarable x) :
    Holds (Printer.head result name declared ++ " \x7b") (result :: name :: if declared.isEmpty then ["void"]
      else declared.flatMap fun x => x.2.name :: x.1.name :: x.2.dimensions.filter isIdentifier) := by
  have hend : lex " \x7b".toList = ["\x7b"] := by
    change lex [' ', '\x7b'] = _
    rw [lex_space rfl, lex_mark rfl, lex]
  have hholds := holds_of_tokens (tokens_head hresult hname h " \x7b") (ne_of_isName hresult.isName rfl)
  have hclose : ([")", "\x7b"].filter isIdentifier) = [] := by decide
  rw [hend, filter_cons_of_pos (isIdentifier_of_isWord hresult),
    filter_cons_of_pos (isIdentifier_of_isWord hname), filter_cons_of_neg (by decide),
    filter_append, hclose, append_nil, parenthesized] at hholds
  split_ifs at hholds ⊢
  · exact hholds
  · rwa [filter_parameters h] at hholds

theorem holds_condition (hword : IsWord word) (hsolid : ∀ t ∈ significant run, Solid t)
    (hline : line.toList = word.toList ++ '(' :: ((render run).toList ++ [')', ' ', '\x7b'])) :
    Holds line (word :: Expression.names run) := by
  have hholds := holds_of_word hword hline rfl
  rwa [identifiers_render_end hsolid (by simp) rfl] at hholds

theorem holds_elseIf (hsolid : ∀ t ∈ significant run, Solid t) :
    Holds ("else if(" ++ render run ++ ")" ++ " \x7b") ("else" :: "if" :: Expression.names run) := by
  have hline : ("else if(" ++ render run ++ ")" ++ " \x7b").toList =
      "else".toList ++ ' ' :: ("if".toList ++ '(' :: ((render run).toList ++ [')', ' ', '\x7b'])) := by
    simp
  have hholds := holds_of_word (isWord_of_all rfl) hline rfl
  rwa [identifiers_word (isWord_of_all rfl) rfl, identifiers_render_end hsolid (by simp) rfl] at hholds

theorem holds_else : Holds ("else" ++ " \x7b") ["else"] := by
  have hholds := holds_of_tokens tokens_else (by decide)
  rwa [filter_cons_of_pos (by decide), filter_cons_of_neg (by decide)] at hholds

section

variable (hcounter : IsWord counter)
include hcounter

/-- A counting loop, with what stands before its first clause. -/
theorem holds_loop (hstart : ∀ t ∈ significant start, Solid t) (hstop : ∀ t ∈ significant stop, Solid t)
    (opening : String) (first : List String) (hline : line.toList = "for".toList ++ '(' ::
      (opening.toList ++ ((render start).toList ++ ';' :: ' ' :: (counter.toList ++ ' ' :: '<' :: '=' :: ' ' ::
        ((render stop).toList ++ ';' :: ' ' :: (counter.toList ++ ['+', '+', ')', ' ', '\x7b']))))))
    (hopening : ∀ rest, CToken.identifiers (opening.toList ++ rest) = first ++ CToken.identifiers rest) :
    Holds line ("for" :: (first ++ (Expression.names start ++ counter :: (Expression.names stop ++ [counter])))) := by
  have hholds := holds_of_word (isWord_of_all rfl) hline rfl
  rwa [hopening, identifiers_render hstart (by simp), identifiers_idle rfl, identifiers_idle rfl,
    identifiers_word hcounter rfl, identifiers_idle rfl, identifiers_idle rfl, identifiers_idle rfl,
    identifiers_render hstop (by simp), identifiers_idle rfl, identifiers_idle rfl,
    identifiers_word hcounter rfl, identifiers_idles_end rfl] at hholds

theorem holds_countedLoop (hsolid : ∀ t ∈ significant run, Solid t) :
    Holds ("for(int " ++ counter ++ " = 0; " ++ counter ++ " < " ++ render run ++ "; " ++ counter ++
        "++)" ++ " \x7b")
      ("for" :: "int" :: counter :: counter :: (Expression.names run ++ [counter])) := by
  have hline : ("for(int " ++ counter ++ " = 0; " ++ counter ++ " < " ++ render run ++ "; " ++
      counter ++ "++)" ++ " \x7b").toList = "for".toList ++ '(' :: ("int".toList ++ ' ' :: (counter.toList ++
        ' ' :: '=' :: ' ' :: ("0".toList ++ ';' :: ' ' :: (counter.toList ++ ' ' :: '<' :: ' ' ::
          ((render run).toList ++ ';' :: ' ' :: (counter.toList ++
            ['+', '+', ')', ' ', '\x7b'])))))) := by
    simp
  have hzero : ∀ rest : List Char, CToken.identifiers ("0".toList ++ ';' :: rest) = CToken.identifiers rest := by
    intro rest
    have hitem : IsItem "0" := .inr ⟨'0', [], rfl, by decide, forall_mem_nil _⟩
    rw [CToken.identifiers, lex_item hitem (by rintro d ⟨⟩; decide), filter_cons_of_neg (by decide)]
    exact identifiers_idle rfl rest
  have hholds := holds_of_word (isWord_of_all rfl) hline rfl
  rwa [identifiers_word (isWord_of_all rfl) rfl, identifiers_word hcounter rfl, identifiers_idle rfl,
    identifiers_idle rfl, hzero, identifiers_idle rfl, identifiers_word hcounter rfl, identifiers_idle rfl,
    identifiers_idle rfl, identifiers_render hsolid (by simp), identifiers_idle rfl, identifiers_idle rfl,
    identifiers_word hcounter rfl, identifiers_idles_end rfl] at hholds

end

end CLine

end CirOutline
