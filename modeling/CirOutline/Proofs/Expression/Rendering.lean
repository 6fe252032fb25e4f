import CirOutline.Expression
import CirOutline.Proofs.Expression.CToken
import CirOutline.Proofs.Outcome
import CirOutline.Proofs.Token.Lexeme

/-!
Rendering and the tokens of C. The text of a run, read as C, gives back the tokens of the run one by
one, the word operators in their C spelling, with one exception: a sign or an exclamation mark that
opens an operand stands directly in front of the next token, and where the two begin a longer
punctuator (two minus signs, an exclamation mark and an equals sign) C reads that one instead.
-/

namespace CirOutline.Expression

open LexicalRule CToken TokenKind String Option
open List hiding lex

variable {t : Token} {d : Char} {previous : Option Token}

/-- A token with a text of the form of its class that is neither white space nor a comment. -/
structure Solid (t : Token) : Prop where
  lexeme : t.kind.Lexeme t.raw.toList
  spaces : t.kind ≠ .spaces
  breaks : t.kind ≠ .lineBreak
  comment : t.kind ≠ .comment

/-- The C spellings of the tokens that are neither words nor numbers. -/
def spellings : List String :=
  ["&&", "||", "=="] ++ operatorSymbols ++ [":", "=", "(", ")", ",", "->", "→"]

def isSymbolic (t : Token) : Bool := t.kind != .word && t.kind != .keyword && t.kind != .number

/-- Whether a character directly after a token would be read with it. -/
def joins (t : Token) (c : Char) : Bool :=
  if t.kind == .number then joinsNumber c
  else if isSymbolic t then continued (spell t).toList c
  else continuesIdentifier c

/-- The characters that make a longer punctuator with the text of a unary operator. -/
def sticks (operator : String) (c : Char) : Bool :=
  operator == "!" && c == '=' || operator == "+" && (c == '+' || c == '=') ||
    operator == "-" && (c == '-' || c == '=' || c == '>')

/-- Whether a unary operator and the token after it begin one punctuator. -/
def glues (operator next : Token) : Bool :=
  (spell next).toList.head?.any (sticks operator.raw)

/-- Some unary operator is followed by a token that it glues to; `previous` comes before the run. -/
def Clashes (previous : Option Token) (run : List Token) : Prop :=
  ∃ before operator next after, run = before ++ operator :: next :: after ∧
    isUnary (before.getLast?.or previous) operator = true ∧ glues operator next = true

/-! ### The spelling of one token -/

theorem spell_of_ne (h : t.kind ≠ .operator) : spell t = t.raw := by
  simp [spell, h]

theorem startsIdentifier_of_keywordLetter {c : Char} (h : (keywordLetter c).isUpper = true) :
    startsIdentifier c = true := by
  by_cases hother : c = 'ſ' ∨ c = 'ı' ∨ c = 'İ'
  · rcases hother with rfl | rfl | rfl <;> decide
  · simp only [not_or] at hother
    have hletter : keywordLetter c = c.toUpper := by simp [keywordLetter, hother]
    rw [hletter] at h
    simp [startsIdentifier, startsName, isAlpha_of_toUpper h]

theorem continues_of_starts {c : Char} (h : startsIdentifier c = true) : continuesIdentifier c = true := by
  rw [startsIdentifier, Bool.or_eq_true, Bool.and_eq_true] at h
  rw [continuesIdentifier, Bool.or_eq_true]
  rcases h with hname | ⟨hextended, -⟩
  · exact .inl (continuesName_of_starts hname)
  · exact .inr hextended

theorem identifier_of_solid (ht : Solid t) (hkind : t.kind = .word ∨ t.kind = .keyword) :
    ∃ c body, (spell t).toList = c :: body ∧ startsIdentifier c = true ∧
      ∀ d ∈ body, continuesIdentifier d = true := by
  have hlexeme := ht.lexeme
  rcases hkind with hkind | hkind
  · rw [hkind] at hlexeme
    obtain ⟨c, body, hraw, hc, hbody⟩ := hlexeme
    refine ⟨c, body, ?_, by simp [startsIdentifier, hc], fun d hd => by
      simp [continuesIdentifier, hbody d hd]⟩
    rw [spell_of_ne (by simp [hkind]), hraw]
  · rw [hkind] at hlexeme
    obtain ⟨k, hletters⟩ := hlexeme
    have hupper : (k.spelling.toList.all Char.isUpper) = true := by cases k <;> decide
    have hall : ∀ d ∈ t.raw.toList, startsIdentifier d = true := by
      intro d hd
      apply startsIdentifier_of_keywordLetter
      apply all_eq_true.mp hupper
      rw [← hletters]
      exact mem_map_of_mem hd
    cases hraw : t.raw.toList with
    | nil =>
      rw [hraw, map_nil] at hletters
      cases k <;> simp [Keyword.spelling] at hletters
    | cons c body =>
      rw [hraw] at hall
      refine ⟨c, body, ?_, hall c mem_cons_self, fun d hd => ?_⟩
      · rw [spell_of_ne (by simp [hkind]), hraw]
      · exact continues_of_starts (hall d (mem_cons_of_mem c hd))

theorem continuesName_of_hex {c : Char} (h : (isHexDigit c || c == 'x' || c == 'X') = true) :
    continuesName c = true := by
  simp only [isHexDigit, Bool.or_eq_true, Bool.and_eq_true, beq_iff_eq, decide_eq_true_eq,
    Char.le_def, UInt32.le_iff_toNat_le] at h
  rcases h with (((hdigit | hlower) | hupper) | rfl) | rfl
  · simp [continuesName, Char.isAlphanum, hdigit]
  · have hlower : c.isLower = true := by
      unfold Char.isLower
      simp only [Bool.and_eq_true, decide_eq_true_eq, UInt32.le_iff_toNat_le]
      exact ⟨hlower.1, Nat.le_trans hlower.2 (by decide)⟩
    have halpha : c.isAlpha = true := Bool.or_eq_true_iff.mpr (.inr hlower)
    simp [continuesName, Char.isAlphanum, halpha]
  · have hupper : c.isUpper = true := by
      unfold Char.isUpper
      simp only [decide_eq_true_eq, UInt32.le_iff_toNat_le]
      exact ⟨hupper.1, Nat.le_trans hupper.2 (by decide)⟩
    have halpha : c.isAlpha = true := Bool.or_eq_true_iff.mpr (.inl hupper)
    simp [continuesName, Char.isAlphanum, halpha]
  · decide
  · decide

theorem number_of_solid (ht : Solid t) (hkind : t.kind = .number) :
    ∃ c body, (spell t).toList = c :: body ∧ c.isDigit = true ∧
      ∀ d ∈ body, continuesNumber d = true ∧ d ≠ '+' ∧ d ≠ '-' := by
  have hlexeme := ht.lexeme
  rw [hkind] at hlexeme
  obtain ⟨c, body, hraw, hc, hbody⟩ := hlexeme
  refine ⟨c, body, by rw [spell_of_ne (by simp [hkind]), hraw], hc, fun d hd => ?_⟩
  have hdigit := hbody d hd
  refine ⟨?_, ?_, ?_⟩
  · simp [continuesNumber, continuesIdentifier, continuesName_of_hex hdigit]
  · rintro rfl
    exact absurd hdigit (by decide)
  · rintro rfl
    exact absurd hdigit (by decide)

theorem raw_mem_symbols (ht : Solid t) (hkind : isSymbolic t = true) (hoperator : t.kind ≠ .operator) :
    t.raw ∈ t.kind.symbols := by
  have hlexeme := ht.lexeme
  have hspaces := ht.spaces
  have hbreaks := ht.breaks
  have hcomment := ht.comment
  cases hk : t.kind <;> simp_all [Lexeme, isSymbolic]

theorem spelling_of_solid (ht : Solid t) (hkind : isSymbolic t = true) : spell t ∈ spellings := by
  by_cases hoperator : t.kind = .operator
  · have hlexeme := hoperator ▸ ht.lexeme
    have hraw : t.raw ∈ operatorWords ++ operatorSymbols := by
      simpa [Lexeme] using hlexeme
    have hall : ((operatorWords ++ operatorSymbols).all fun raw =>
        spellings.contains (spell ⟨.operator, raw, ⟨"", 0, 0⟩⟩)) = true := by decide
    have hspelled := all_eq_true.mp hall _ hraw
    rw [contains_iff_mem] at hspelled
    have hsame : spell t = spell ⟨.operator, t.raw, ⟨"", 0, 0⟩⟩ := by simp [spell, hoperator]
    rwa [hsame]
  · rw [spell_of_ne hoperator]
    have hall : ∀ kind : TokenKind, (kind.symbols.all spellings.contains) = true := by
      intro kind
      cases kind <;> decide
    exact contains_iff_mem.mp (all_eq_true.mp (hall t.kind) _ (raw_mem_symbols ht hkind hoperator))

theorem symbol_of_solid (ht : Solid t) (hkind : isSymbolic t = true) :
    ∃ c body, (spell t).toList = c :: body ∧ isSymbol (ofList (c :: body)) = true := by
  have hall : (spellings.all fun text => !text.toList.isEmpty && isSymbol text) = true := by
    decide
  have hspelled := all_eq_true.mp hall _ (spelling_of_solid ht hkind)
  cases htext : (spell t).toList with
  | nil => simp [htext] at hspelled
  | cons c body =>
    refine ⟨c, body, rfl, ?_⟩
    rw [← htext, ofList_toList]
    exact (Bool.and_eq_true_iff.mp hspelled).2

theorem kind_cases (t : Token) :
    (t.kind = .word ∨ t.kind = .keyword) ∨ t.kind = .number ∨ isSymbolic t = true := by
  by_cases hword : t.kind = .word
  · exact .inl (.inl hword)
  · by_cases hkeyword : t.kind = .keyword
    · exact .inl (.inr hkeyword)
    · by_cases hnumber : t.kind = .number
      · exact .inr (.inl hnumber)
      · exact .inr (.inr (by simp [isSymbolic, hword, hkeyword, hnumber]))

section

variable (ht : Solid t)
include ht

theorem lex_spell {rest : List Char} (hrest : ∀ d ∈ rest.head?, joins t d = false) :
    lex ((spell t).toList ++ rest) = spell t :: lex rest := by
  rcases kind_cases t with hkind | hkind | hkind
  · obtain ⟨c, body, htext, hc, hbody⟩ := identifier_of_solid ht hkind
    rw [htext, cons_append, lex_identifier hc hbody, ← htext, ofList_toList]
    intro d hd
    have hjoins := hrest d hd
    rcases hkind with hkind | hkind <;> simpa [joins, isSymbolic, hkind] using hjoins
  · obtain ⟨c, body, htext, hc, hbody⟩ := number_of_solid ht hkind
    rw [htext, cons_append, lex_number hc hbody, ← htext, ofList_toList]
    intro d hd
    simpa [joins, hkind] using hrest d hd
  · obtain ⟨c, body, htext, hsymbol⟩ := symbol_of_solid ht hkind
    rw [htext, cons_append, lex_symbol hsymbol, ← htext, ofList_toList]
    intro d hd
    have hnumber : (t.kind == .number) = false := by simp_all [isSymbolic]
    have hjoins := hrest d hd
    rwa [joins, hnumber, if_neg Bool.false_ne_true, if_pos hkind, htext] at hjoins

/-! ### Neighbours -/

theorem joins_of_mem (hd : d ∈ [' ', '(', ')', '[', ']', ',']) : joins t d = false := by
  have hletters : ([' ', '(', ')', '[', ']', ','].all fun d =>
      !continuesIdentifier d && !joinsNumber d) = true := by decide
  have hsymbols : (spellings.all fun text => [' ', '(', ')', '[', ']', ','].all fun d =>
      !continued text.toList d) = true := by decide
  have hplain := all_eq_true.mp hletters d hd
  simp only [Bool.and_eq_true, Bool.not_eq_true'] at hplain
  unfold joins
  split
  · exact hplain.2
  · split
    · next hkind =>
      have hspelled := all_eq_true.mp hsymbols _ (spelling_of_solid ht hkind)
      simpa using all_eq_true.mp hspelled d hd
    · exact hplain.1

theorem isSymbolic_of_head (h : (t.raw.toList.head?.all fun c => !startsIdentifier c && !c.isDigit) = true) :
    isSymbolic t = true := by
  rcases kind_cases t with hkind | hkind | hkind
  · obtain ⟨c, body, htext, hc, -⟩ := identifier_of_solid ht hkind
    rw [spell_of_ne (by rcases hkind with h | h <;> simp [h])] at htext
    simp [htext, hc] at h
  · obtain ⟨c, body, htext, hc, -⟩ := number_of_solid ht hkind
    rw [spell_of_ne (by simp [hkind])] at htext
    simp [htext, hc] at h
  · exact hkind

theorem kind_of_raw {text : String} {kind : TokenKind} (hraw : t.raw = text)
    (hhead : (text.toList.head?.all fun c => !startsIdentifier c && !c.isDigit) = true)
    (hoperator : kind ≠ .operator → text ∉ operatorWords ++ operatorSymbols)
    (honly : ∀ k : TokenKind, text ∈ k.symbols → k = kind) : t.kind = kind := by
  have hsymbolic := isSymbolic_of_head ht (by rwa [hraw])
  by_cases hk : t.kind = .operator
  · by_contra hne
    have hlexeme := hk ▸ ht.lexeme
    refine hoperator (hk ▸ Ne.symm hne) ?_
    simpa [Lexeme, hraw] using hlexeme
  · exact honly _ (hraw ▸ raw_mem_symbols ht hsymbolic hk)

theorem kind_iff_raw {text : String} {kind : TokenKind}
    (hhead : (text.toList.head?.all fun c => !startsIdentifier c && !c.isDigit) = true)
    (hoperator : text ∉ operatorWords ++ operatorSymbols) (hsymbols : kind.symbols = [text])
    (honly : ∀ k : TokenKind, text ∈ k.symbols → k = kind) : t.kind = kind ↔ t.raw = text := by
  refine ⟨fun hk => ?_, fun hraw => kind_of_raw ht hraw hhead (fun _ => hoperator) honly⟩
  have hlexeme := ht.lexeme
  cases kind <;> simp_all [Lexeme, symbols]

theorem opens_iff : opens t = true ↔ t.raw = "(" ∨ t.raw = "[" := by
  rw [opens, Bool.or_eq_true, beq_iff_eq, beq_iff_eq,
    kind_iff_raw ht (by decide) (by decide) rfl (by rintro ⟨⟩ <;> decide)]

theorem closes_iff : closes t = true ↔ t.raw = ")" ∨ t.raw = "]" := by
  rw [closes, Bool.or_eq_true, beq_iff_eq, beq_iff_eq,
    kind_iff_raw ht (by decide) (by decide) rfl (by rintro ⟨⟩ <;> decide)]

theorem comma_iff : t.kind = .comma ↔ t.raw = "," :=
  kind_iff_raw ht (by decide) (by decide) rfl (by rintro ⟨⟩ <;> decide)

theorem spell_of_opens (h : opens t = true) : spell t = "(" ∨ spell t = "[" := by
  rcases (opens_iff ht).mp h with hraw | hraw <;> simp [spell, hraw]

theorem spell_of_closes (h : closes t = true) : spell t = ")" ∨ spell t = "]" := by
  rcases (closes_iff ht).mp h with hraw | hraw <;> simp [spell, hraw]

theorem spell_of_comma (h : t.kind = .comma) : spell t = "," := by
  simp [spell, (comma_iff ht).mp h]

end

theorem head_of_bracket {u : Token} (hu : Solid u)
    (h : closes u = true ∨ u.kind = .comma ∨ opens u = true) (hd : d ∈ (spell u).toList.head?) :
    d ∈ [' ', '(', ')', '[', ']', ','] := by
  have htext : spell u ∈ ["(", ")", "[", "]", ","] := by
    rcases h with h | h | h
    · rcases spell_of_closes hu h with h | h <;> simp [h]
    · simp [spell_of_comma hu h]
    · rcases spell_of_opens hu h with h | h <;> simp [h]
  have hall : (["(", ")", "[", "]", ","].all fun text => text.toList.head?.all fun d =>
      [' ', '(', ')', '[', ']', ','].contains d) = true := by decide
  have hfirst := all_eq_true.mp hall _ htext
  rw [mem_def.mp hd, all_some] at hfirst
  exact contains_iff_mem.mp hfirst

theorem joins_of_symbol (ht : Solid t)
    (h : ∀ c ∈ (spell t).toList.head?, startsIdentifier c = false ∧ c.isDigit = false) (d : Char) :
    joins t d = continued (spell t).toList d := by
  rcases kind_cases t with hkind | hkind | hkind
  · obtain ⟨c, body, htext, hc, -⟩ := identifier_of_solid ht hkind
    rw [(h c (by simp [htext])).1] at hc
    exact absurd hc Bool.false_ne_true
  · obtain ⟨c, body, htext, hc, -⟩ := number_of_solid ht hkind
    rw [(h c (by simp [htext])).2] at hc
    exact absurd hc Bool.false_ne_true
  · have hnumber : (t.kind == .number) = false := by simp_all [isSymbolic]
    rw [joins, hnumber, if_neg Bool.false_ne_true, if_pos hkind]

theorem joins_of_spell_mem (ht : Solid t) {texts : List String}
    (hall : (texts.all fun text => text.toList.head?.all fun c =>
      !startsIdentifier c && !c.isDigit) = true) (h : spell t ∈ texts) (d : Char) :
    joins t d = continued (spell t).toList d := by
  refine joins_of_symbol ht (fun c hc => ?_) d
  have hfirst := all_eq_true.mp hall _ h
  rw [mem_def.mp hc] at hfirst
  simpa using hfirst

theorem joins_of_opens (ht : Solid t) (h : opens t = true) (d : Char) : joins t d = false := by
  have hnone : ∀ text ∈ ["(", "["], following text.toList = [] := by decide
  have htext : spell t ∈ ["(", "["] := by simpa using spell_of_opens ht h
  rw [joins_of_spell_mem ht rfl htext, Bool.eq_false_iff]
  intro hjoins
  have hmem := mem_following hjoins
  rw [hnone _ htext] at hmem
  exact not_mem_nil hmem

theorem unary_of_unspaced {u : Token} (ht : Solid t) (hu : Solid u) {unary : Bool}
    (hspaced : spaced t unary u = false) (hd : d ∈ (spell u).toList.head?)
    (hjoins : joins t d = true) : unary = true := by
  have hplain : ¬ (closes u = true ∨ u.kind = .comma ∨ opens u = true) := by
    intro hbracket
    rw [joins_of_mem ht (head_of_bracket hu hbracket hd)] at hjoins
    exact Bool.false_ne_true hjoins
  have hopens : opens t = false := by
    rw [Bool.eq_false_iff]
    intro hopens
    rw [joins_of_opens ht hopens] at hjoins
    exact Bool.false_ne_true hjoins
  simp only [not_or, Bool.not_eq_true] at hplain
  simp only [spaced, hplain, hopens, Bool.false_or, Bool.false_and, Bool.not_false] at hspaced
  cases unary with
  | true => rfl
  | false => exact absurd (by simpa using hspaced) hplain.2.1

theorem raw_of_isUnary (h : isUnary previous t = true) : t.raw ∈ ["!", "~", "-", "+"] := by
  simp only [isUnary, Bool.and_eq_true, Bool.or_eq_true, beq_iff_eq] at h
  simp only [mem_cons, not_mem_nil, or_false]
  tauto

theorem spell_of_isUnary (h : isUnary previous t = true) : spell t = t.raw := by
  have hraw := raw_of_isUnary h
  simp only [mem_cons, not_mem_nil, or_false] at hraw
  rcases hraw with hraw | hraw | hraw | hraw <;> simp [spell, hraw]

theorem joins_of_isUnary (ht : Solid t) (h : isUnary previous t = true) (d : Char) :
    joins t d = continued t.raw.toList d := by
  have htext : spell t ∈ ["!", "~", "-", "+"] := by
    rw [spell_of_isUnary h]
    exact raw_of_isUnary h
  rw [joins_of_spell_mem ht rfl htext, spell_of_isUnary h]

theorem punctuator_of_sticks {raw : String} (h : sticks raw d = true) :
    ∃ c, raw = ofList [c] ∧ isSpace c = false ∧ c ≠ '/' ∧
      (punctuators.any fun p => p.toList == [c, d]) = true := by
  simp only [sticks, Bool.or_eq_true, Bool.and_eq_true, beq_iff_eq] at h
  rcases h with (⟨rfl, rfl⟩ | ⟨rfl, rfl | rfl⟩) | ⟨rfl, (rfl | rfl) | rfl⟩
  · exact ⟨'!', by decide⟩
  · exact ⟨'+', by decide⟩
  · exact ⟨'+', by decide⟩
  · exact ⟨'-', by decide⟩
  · exact ⟨'-', by decide⟩
  · exact ⟨'-', by decide⟩

theorem joins_iff_sticks (ht : Solid t) (h : isUnary previous t = true) (d : Char) :
    joins t d = true ↔ sticks t.raw d = true := by
  rw [joins_of_isUnary ht h]
  constructor
  · intro hcontinued
    have hall : (["!", "~", "-", "+"].all fun raw => (following raw.toList).all (sticks raw)) = true :=
      by decide
    have hsticks := all_eq_true.mp hall _ (raw_of_isUnary h)
    exact all_eq_true.mp hsticks d (mem_following hcontinued)
  · intro hsticks
    obtain ⟨c, hraw, -, -, hjoin⟩ := punctuator_of_sticks hsticks
    obtain ⟨p, hp, htext⟩ := any_eq_true.mp hjoin
    refine any_eq_true.mpr ⟨p, mem_cons_of_mem _ (mem_cons_of_mem _ hp), ?_⟩
    rw [beq_iff_eq.mp htext, hraw, toList_ofList]
    simp

/-! ### Runs -/

theorem clashes_cons {rest : List Token} : Clashes previous (t :: rest) ↔
      (∃ u ∈ rest.head?, isUnary previous t = true ∧ glues t u = true) ∨ Clashes (some t) rest := by
  constructor
  · rintro ⟨before, operator, next, after, hrun, hunary, hglues⟩
    cases before with
    | nil =>
      obtain ⟨rfl, rfl⟩ := List.cons.inj hrun
      exact .inl ⟨next, rfl, hunary, hglues⟩
    | cons first before =>
      obtain ⟨rfl, rfl⟩ := List.cons.inj hrun
      refine .inr ⟨before, operator, next, after, rfl, ?_, hglues⟩
      rwa [getLast?_cons, some_or, ← or_some] at hunary
  · rintro (⟨u, hu, hunary, hglues⟩ | ⟨before, operator, next, after, rfl, hunary, hglues⟩)
    · obtain ⟨rest, rfl⟩ := head?_eq_some_iff.mp hu
      exact ⟨[], t, u, rest, rfl, hunary, hglues⟩
    · refine ⟨t :: before, operator, next, after, rfl, ?_, hglues⟩
      rwa [getLast?_cons, some_or, ← or_some]

theorem not_clashes_nil (previous : Option Token) : ¬ Clashes previous [] := by
  rintro ⟨before, operator, next, after, hrun, -⟩
  simp at hrun

def letters (before : Option (Token × Bool)) (run : List Token) : List Char :=
  (join (pieces before run)).toList

def gapBefore (before : Option (Token × Bool)) (t : Token) : List Char :=
  if before.any fun p => spaced p.1 p.2 t then [' '] else []

theorem letters_cons (before : Option (Token × Bool)) (t : Token) (run : List Token) :
    letters before (t :: run) = gapBefore before t ++ ((spell t).toList ++
      letters (some (t, isUnary (before.map Prod.fst) t)) run) := by
  cases before with
  | none => simp [letters, pieces, gapBefore]
  | some p => by_cases h : spaced p.1 p.2 t = true <;> simp [letters, pieces, gapBefore, h]

theorem lex_letters_cons (before : Option (Token × Bool)) (t : Token) (rest : List Token) :
    lex (letters before (t :: rest)) =
      lex ((spell t).toList ++ letters (some (t, isUnary (before.map Prod.fst) t)) rest) := by
  rw [letters_cons, gapBefore]
  split_ifs
  · exact lex_space rfl _
  · rfl

theorem head_letters {u : Token} (hu : Solid u) (unary : Bool) (more : List Token) :
    ∃ d cs, letters (some (t, unary)) (u :: more) = d :: cs ∧ (spaced t unary u = true ∧ d = ' ' ∨
        spaced t unary u = false ∧ d ∈ (spell u).toList.head?) := by
  by_cases hspaced : spaced t unary u = true
  · exact ⟨' ', _, by simp [letters, pieces, hspaced]; rfl, .inl ⟨hspaced, rfl⟩⟩
  · obtain ⟨d, body, htext⟩ : ∃ d body, (spell u).toList = d :: body := by
      rcases kind_cases u with hkind | hkind | hkind
      · obtain ⟨d, body, htext, -⟩ := identifier_of_solid hu hkind
        exact ⟨d, body, htext⟩
      · obtain ⟨d, body, htext, -⟩ := number_of_solid hu hkind
        exact ⟨d, body, htext⟩
      · obtain ⟨d, body, htext, -⟩ := symbol_of_solid hu hkind
        exact ⟨d, body, htext⟩
    refine ⟨d, _, by simp [letters, pieces, hspaced, htext]; rfl, .inr ⟨?_, by rw [htext]; rfl⟩⟩
    simpa using hspaced

theorem joins_letters_iff (before : Option Token) (ht : Solid t) {rest : List Token}
    (hrest : ∀ u ∈ rest, Solid u) :
    (∃ d ∈ (letters (some (t, isUnary before t)) rest).head?, joins t d = true) ↔
      ∃ u ∈ rest.head?, isUnary before t = true ∧ glues t u = true := by
  cases rest with
  | nil => simp [letters, pieces]
  | cons u more =>
    have hu := hrest u mem_cons_self
    obtain ⟨d, cs, hletters, hd⟩ := head_letters hu (t := t) (isUnary before t) more
    simp only [hletters, head?_cons, mem_some_iff, exists_eq_left']
    rcases hd with ⟨hspaced, rfl⟩ | ⟨hspaced, hd⟩
    · -- no space is put after a unary operator
      rw [joins_of_mem ht (by simp)]
      refine iff_of_false Bool.false_ne_true ?_
      rintro ⟨hunary, -⟩
      simp [spaced, hunary] at hspaced
    · have hglues : glues t u = sticks t.raw d := by rw [glues, mem_def.mp hd, any_some]
      rw [hglues]
      constructor
      · intro hjoins
        have hunary := unary_of_unspaced ht hu hspaced hd hjoins
        exact ⟨hunary, (joins_iff_sticks ht hunary d).mp hjoins⟩
      · rintro ⟨hunary, hsticks⟩
        exact (joins_iff_sticks ht hunary d).mpr hsticks

theorem lex_ne_of_joins {before : Option Token} (ht : Solid t) (hunary : isUnary before t = true)
    {rest : List Char} (hjoins : joins t d = true) (others : List String) :
    lex ((spell t).toList ++ d :: rest) ≠ spell t :: others := by
  obtain ⟨c, hraw, hspace, hslash, hjoin⟩ := punctuator_of_sticks ((joins_iff_sticks ht hunary d).mp hjoins)
  rw [spell_of_isUnary hunary, hraw, toList_ofList]
  exact lex_ne_of_continued hspace hslash hjoin

theorem lex_letters (before : Option (Token × Bool)) {run : List Token} (hsolid : ∀ t ∈ run, Solid t) :
    lex (letters before run) = run.map spell ↔ ¬ Clashes (before.map Prod.fst) run := by
  induction run generalizing before with
  | nil =>
    refine iff_of_true ?_ (not_clashes_nil _)
    simp [letters, pieces, lex]
  | cons t rest ih =>
    have ht := hsolid t mem_cons_self
    have hrest : ∀ u ∈ rest, Solid u := fun u hu => hsolid u (mem_cons_of_mem t hu)
    have hjoins := joins_letters_iff (before.map Prod.fst) ht hrest
    have ih := ih (some (t, isUnary (before.map Prod.fst) t)) hrest
    rw [lex_letters_cons, clashes_cons, not_or, map_cons]
    by_cases hclash : ∃ u ∈ rest.head?, isUnary (before.map Prod.fst) t = true ∧ glues t u = true
    · refine iff_of_false ?_ fun h => h.1 hclash
      obtain ⟨d, hd, hjoins⟩ := hjoins.mpr hclash
      obtain ⟨-, -, hunary, -⟩ := hclash
      obtain ⟨cs, hcs⟩ := head?_eq_some_iff.mp hd
      rw [hcs]
      exact lex_ne_of_joins ht hunary hjoins _
    · have hapart : ∀ d ∈ (letters (some (t, isUnary (before.map Prod.fst) t)) rest).head?,
          joins t d = false := by
        intro d hd
        rw [Bool.eq_false_iff]
        exact fun h => hclash (hjoins.mp ⟨d, hd, h⟩)
      rw [lex_spell ht hapart, cons_inj_right, ih]
      exact ⟨fun h => ⟨hclash, h⟩, fun h => h.2⟩

theorem solid_of_tokenize {source file : String} {tokens run : List Token}
    (h : tokenize source file = .ok tokens) (hrun : run <:+: tokens) :
    ∀ t ∈ significant run, Solid t := by
  intro t ht
  obtain ⟨hmem, hkind⟩ := mem_filter.mp ht
  simp only [Bool.and_eq_true, bne_iff_ne] at hkind
  exact ⟨tokenize_lexeme h t (hrun.subset hmem), hkind.1.1, hkind.1.2, hkind.2⟩

/-- Read as C, the text of a run of tokens gives back the significant tokens in order, with the word
operators in their C spelling, exactly where no unary operator stands before a token that begins one
longer punctuator with it. -/
theorem rendering_keeps_tokens {source file : String} {tokens run : List Token}
    (htokens : tokenize source file = .ok tokens) (hrun : run <:+: tokens) :
    lex (render run).toList = (significant run).map spell ↔ ¬ Clashes none (significant run) :=
  lex_letters none (solid_of_tokenize htokens hrun)

/-- A binary minus sign keeps its space from a unary one. -/
theorem rendering_keeps_tokens_of_difference :
    ∃ tokens, tokenize "a - -b" "f" = .ok tokens ∧ tokens <:+: tokens ∧
      ¬ Clashes none (significant tokens) ∧
      lex (render tokens).toList = ["a", "-", "-", "b"] := by
  let tokens : List Token := [⟨.word, "a", ⟨"f", 1, 1⟩⟩, ⟨.spaces, " ", ⟨"f", 1, 2⟩⟩,
    ⟨.operator, "-", ⟨"f", 1, 3⟩⟩, ⟨.spaces, " ", ⟨"f", 1, 4⟩⟩, ⟨.operator, "-", ⟨"f", 1, 5⟩⟩,
    ⟨.word, "b", ⟨"f", 1, 6⟩⟩]
  have htokens : tokenize "a - -b" "f" = .ok tokens := eq_ok_of_toOption (by decide +kernel)
  have hclash : ¬ Clashes none (significant tokens) := by
    have hsignificant : significant tokens = [⟨.word, "a", ⟨"f", 1, 1⟩⟩,
        ⟨.operator, "-", ⟨"f", 1, 3⟩⟩, ⟨.operator, "-", ⟨"f", 1, 5⟩⟩, ⟨.word, "b", ⟨"f", 1, 6⟩⟩] := by
      decide
    rw [hsignificant]
    simp only [clashes_cons, head?_cons, Option.mem_some_iff, exists_eq_left', not_or]
    exact ⟨by decide, by decide, by decide, by simp, not_clashes_nil _⟩
  have hspelled : (significant tokens).map spell = ["a", "-", "-", "b"] := by decide
  have hkept := (rendering_keeps_tokens htokens infix_rfl).mpr hclash
  exact ⟨tokens, htokens, infix_rfl, hclash, hkept.trans hspelled⟩

/-- Two unary minus signs become the decrement of C. -/
theorem render_glues_signs :
    ∃ tokens, tokenize "- -x" "f" = .ok tokens ∧ render tokens = "--x" ∧
      (significant tokens).map spell = ["-", "-", "x"] ∧
      lex (render tokens).toList = ["--", "x"] := by
  let tokens : List Token := [⟨.operator, "-", ⟨"f", 1, 1⟩⟩, ⟨.spaces, " ", ⟨"f", 1, 2⟩⟩,
    ⟨.operator, "-", ⟨"f", 1, 3⟩⟩, ⟨.word, "x", ⟨"f", 1, 4⟩⟩]
  have hrender : render tokens = "--x" := by decide
  refine ⟨tokens, eq_ok_of_toOption (by decide +kernel), hrender, by decide, ?_⟩
  rw [hrender]
  decide +kernel

end CirOutline.Expression
