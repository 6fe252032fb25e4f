import CirOutline.Token.Scan
import Mathlib.Data.List.TakeWhile
import Mathlib.Tactic.Common

/-!
What the rules of the lexical table measure. Each rule measures only texts of one form: a name is a letter
and more letters or digits, a number is a digit and more hexadecimal digits, an operator is in its table.
`Sound` says that of a rule, with what may follow the text, and every rule of the table is sound.
-/

namespace CirOutline

open String
open List hiding after

variable {pattern : String} {cs rest lexeme : List Char} {c : Char} {kind : TokenKind} {image : Char → Char}
  {p : Char → Bool} {width : List Char → Nat}

namespace Scan

def isBreak (c : Char) : Bool := c == '\r' || c == '\n'

def isGap (c : Char) : Bool := c == ' ' || c == '\t'

end Scan

open Scan

namespace TokenKind

def symbols : TokenKind → List String
  | colon => [":"]
  | setEquals => ["="]
  | openParen => ["("]
  | closeParen => [")"]
  | comma => [","]
  | returnArrow => ["->", "→"]
  | _ => []

/-- The characters of a lexeme of a class: white space and line breaks are runs of their own, and
everything else stays on its line and does not start with white space. -/
def Spells (kind : TokenKind) (lexeme : List Char) : Prop :=
  match kind with
  | spaces => ∀ c ∈ lexeme, isGap c = true
  | lineBreak => ∀ c ∈ lexeme, isBreak c = true
  | word | keyword | number | comment | operator =>
    (∀ c ∈ lexeme, isBreak c = false) ∧ ∀ c ∈ lexeme.head?, isGap c = false
  | _ => ofList lexeme ∈ kind.symbols

/-- What may follow a lexeme of a class: runs are maximal, and a comment goes to the end of its
line. -/
def Precedes (kind : TokenKind) (rest : List Char) : Prop :=
  match kind with
  | spaces => ∀ c ∈ rest.head?, isGap c = false
  | lineBreak => ∀ c ∈ rest.head?, isBreak c = false
  | comment => ∀ c ∈ rest.head?, isBreak c = true
  | _ => True

/-- The form of the texts of a class, but for runs and what a comment holds. -/
def Lexeme (kind : TokenKind) (cs : List Char) : Prop :=
  match kind with
  | word => ∃ c rest, cs = c :: rest ∧ LexicalRule.startsName c = true ∧ ∀ d ∈ rest, LexicalRule.continuesName d = true
  | keyword => ∃ k : Keyword, cs.map LexicalRule.keywordLetter = k.spelling.toList
  | number => ∃ c rest, cs = c :: rest ∧ c.isDigit = true ∧
      ∀ d ∈ rest, (LexicalRule.isHexDigit d || d == 'x' || d == 'X') = true
  | operator => ofList cs ∈ LexicalRule.operatorWords ++ LexicalRule.operatorSymbols
  | comment => ∃ rest, cs = '/' :: '/' :: rest
  | spaces | lineBreak => True
  | _ => ofList cs ∈ kind.symbols

end TokenKind

namespace LexicalRule

theorem firstWidth_mem {widths : List Nat} (h : firstWidth widths ≠ 0) : firstWidth widths ∈ widths := by
  induction widths with
  | nil => exact absurd rfl h
  | cons width widths ih =>
    rw [firstWidth] at h ⊢
    split_ifs at h ⊢ with hzero
    · exact mem_cons_of_mem _ (ih h)
    · exact mem_cons_self

theorem take_runWidth (p : Char → Bool) (cs : List Char) : cs.take (runWidth p cs) = cs.takeWhile p :=
  (prefix_iff_eq_take.mp (List.takeWhile_prefix p)).symm

theorem drop_runWidth (p : Char → Bool) (cs : List Char) : cs.drop (runWidth p cs) = cs.dropWhile p := by
  have hsplit : cs.takeWhile p ++ cs.drop (runWidth p cs) = cs.takeWhile p ++ cs.dropWhile p := by
    rw [← take_runWidth, take_append_drop, take_runWidth, List.takeWhile_append_dropWhile]
  exact append_cancel_left hsplit

theorem literalWidth_ne_zero (h : literalWidth pattern cs ≠ 0) :
    cs.take (literalWidth pattern cs) = pattern.toList := by
  rw [literalWidth] at h ⊢
  split_ifs at h ⊢ with hprefix
  · rw [← length_toList]
    exact (prefix_iff_eq_take.mp (List.isPrefixOf_iff_prefix.mp hprefix)).symm
  · exact absurd rfl h

theorem literalsWidth_ne_zero {patterns : List String} (h : literalsWidth patterns cs ≠ 0) :
    ∃ pattern ∈ patterns, cs.take (literalsWidth patterns cs) = pattern.toList := by
  obtain ⟨pattern, hmem, hwidth⟩ := mem_map.mp (firstWidth_mem h)
  refine ⟨pattern, hmem, ?_⟩
  rw [literalsWidth, ← hwidth]
  exact literalWidth_ne_zero (by rw [hwidth]; exact h)

theorem wholeWord_ne_zero (h : wholeWord image pattern cs ≠ 0) :
    (cs.take (wholeWord image pattern cs)).map image = pattern.toList := by
  rw [wholeWord] at h ⊢
  split_ifs at h ⊢ with hword
  · exact beq_iff_eq.mp (Bool.and_eq_true_iff.mp hword).1
  · exact absurd rfl h

def IsSolid (c : Char) : Prop := isBreak c = false ∧ isGap c = false

def separators : List Char := ['\r', '\n', ' ', '\t']

theorem isSolid_of_ne (h : ∀ d ∈ separators, c ≠ d) : IsSolid c := by
  refine ⟨?_, ?_⟩
  · rw [isBreak, Bool.or_eq_false_iff]
    exact ⟨beq_eq_false_iff_ne.mpr (h '\r' (by simp [separators])),
      beq_eq_false_iff_ne.mpr (h '\n' (by simp [separators]))⟩
  · rw [isGap, Bool.or_eq_false_iff]
    exact ⟨beq_eq_false_iff_ne.mpr (h ' ' (by simp [separators])),
      beq_eq_false_iff_ne.mpr (h '\t' (by simp [separators]))⟩

theorem isSolid_of_class (hc : p c = true) (hp : (separators.all fun d => !p d) = true) : IsSolid c := by
  refine isSolid_of_ne fun d hd heq => ?_
  have hd : p d = false := by simpa using all_eq_true.mp hp d hd
  rw [heq, hd] at hc
  exact Bool.false_ne_true hc

theorem head?_dropWhile_false (hc : c ∈ (cs.dropWhile p).head?) : p c = false := by
  have h := head?_dropWhile_not p cs
  rw [Option.mem_def.mp hc] at h
  exact h

theorem run_sound (p : Char → Bool) (cs : List Char) : (∀ c ∈ cs.take (runWidth p cs), p c = true) ∧
      ∀ c ∈ (cs.drop (runWidth p cs)).head?, p c = false := by
  rw [take_runWidth, drop_runWidth]
  exact ⟨fun c hc => mem_takeWhile_imp hc, fun c hc => head?_dropWhile_false hc⟩

end LexicalRule

open LexicalRule

theorem TokenKind.Lexeme.solid (h : kind.Lexeme cs) (hspaces : kind ≠ .spaces)
    (hbreak : kind ≠ .lineBreak) (hcomment : kind ≠ .comment) :
    ∀ c ∈ cs, IsSolid c := by
  have hlisted : ∀ texts : List String, ofList cs ∈ texts →
      (texts.all fun p => p.toList.all fun c => !isBreak c && !isGap c) = true →
      ∀ c ∈ cs, IsSolid c := by
    intro texts hmem hall c hc
    have htext := all_eq_true.mp hall _ hmem
    rw [toList_ofList] at htext
    simpa [IsSolid] using all_eq_true.mp htext c hc
  cases kind with
  | word =>
    obtain ⟨d, rest, rfl, hstart, hmore⟩ := h
    intro c hc
    rcases mem_cons.mp hc with rfl | hc
    · exact isSolid_of_class hstart (by decide)
    · exact isSolid_of_class (hmore c hc) (by decide)
  | keyword =>
    obtain ⟨k, hletters⟩ := h
    intro c hc
    refine isSolid_of_ne fun d hd heq => ?_
    have habsent : (separators.all fun d => !k.spelling.toList.contains (keywordLetter d)) = true := by
      cases k <;> decide
    have hnot : keywordLetter d ∉ k.spelling.toList := by
      simpa using all_eq_true.mp habsent d hd
    rw [← hletters, ← heq] at hnot
    exact hnot (mem_map_of_mem hc)
  | number =>
    obtain ⟨d, rest, rfl, hdigit, hmore⟩ := h
    intro c hc
    rcases mem_cons.mp hc with rfl | hc
    · exact isSolid_of_class hdigit (by decide)
    · exact isSolid_of_class (p := fun c => isHexDigit c || c == 'x' || c == 'X') (hmore c hc) (by decide)
  | operator => exact hlisted _ h (by decide)
  | comment | spaces | lineBreak => contradiction
  | _ => exact hlisted _ h (by decide)

theorem TokenKind.Lexeme.spells (h : kind.Lexeme cs) (hspaces : kind ≠ .spaces) (hbreak : kind ≠ .lineBreak)
    (hcomment : kind ≠ .comment) : kind.Spells cs := by
  have hsolid := h.solid hspaces hbreak hcomment
  cases kind with
  | spaces | lineBreak | comment => contradiction
  | word | keyword | number | operator =>
    exact ⟨fun c hc => (hsolid c hc).1, fun c hc => (hsolid c (mem_of_mem_head? hc)).2⟩
  | _ => exact h

namespace LexicalRule

def Sound (kind : TokenKind) (width : List Char → Nat) : Prop := ∀ cs, width cs ≠ 0 →
  kind.Lexeme (cs.take (width cs)) ∧ kind.Spells (cs.take (width cs)) ∧ kind.Precedes (cs.drop (width cs))

theorem sound_of_lexeme (hkind : kind ≠ .spaces ∧ kind ≠ .lineBreak ∧ kind ≠ .comment)
    (h : ∀ cs, width cs ≠ 0 → kind.Lexeme (cs.take (width cs))) : Sound kind width := by
  obtain ⟨hspaces, hbreak, hcomment⟩ := hkind
  intro cs hwidth
  refine ⟨h cs hwidth, (h cs hwidth).spells hspaces hbreak hcomment, ?_⟩
  cases kind <;> trivial

theorem isAlpha_of_toUpper (h : c.toUpper.isUpper = true) : c.isAlpha = true := by
  unfold Char.toUpper at h
  split at h
  · next hlower =>
    have hlower : c.isLower = true := by
      unfold Char.isLower
      simpa using hlower
    exact Bool.or_eq_true_iff.mpr (.inr hlower)
  · exact Bool.or_eq_true_iff.mpr (.inl h)

theorem continuesName_of_starts (h : startsName c = true) : continuesName c = true := by
  rw [startsName, Bool.or_eq_true] at h
  rw [continuesName, Bool.or_eq_true]
  rcases h with hletter | hline
  · exact .inl (by simp [Char.isAlphanum, hletter])
  · exact .inr hline

theorem keyword_sound : Sound .keyword keywordWidth := sound_of_lexeme (by decide) fun cs h => by
  obtain ⟨k, -, hwidth⟩ := mem_map.mp (firstWidth_mem h)
  have hword : wholeWord keywordLetter k.spelling cs ≠ 0 := by
    rw [hwidth]
    exact h
  refine ⟨k, ?_⟩
  rw [keywordWidth, ← hwidth]
  exact wholeWord_ne_zero hword

theorem comment_sound : Sound .comment commentWidth := by
  intro cs h
  unfold commentWidth at h ⊢
  split at h
  · next rest =>
    rw [Nat.add_comm]
    refine ⟨⟨_, rfl⟩, ⟨fun c hc => ?_, fun c hc => ?_⟩, fun c hc => ?_⟩
    · rw [take_succ_cons, take_succ_cons, mem_cons, mem_cons] at hc
      rcases hc with rfl | rfl | hc
      · decide
      · decide
      · have hp := mem_takeWhile_imp (take_runWidth (fun c => c != '\r' && c != '\n') rest ▸ hc)
        simpa [isBreak] using hp
    · obtain rfl : '/' = c := by simpa using hc
      decide
    · have hp := head?_dropWhile_false (drop_runWidth (fun c => c != '\r' && c != '\n') rest ▸ hc)
      simpa [isBreak, or_iff_not_imp_left] using hp
  · exact absurd rfl h

theorem operatorWordWidth_ne_zero (h : operatorWordWidth cs ≠ 0) :
    ∃ text ∈ operatorWords, cs.take (operatorWordWidth cs) = text.toList := by
  obtain ⟨text, hmem, hwidth⟩ := mem_map.mp (firstWidth_mem h)
  rw [operatorWordWidth, ← hwidth] at h ⊢
  have htext := wholeWord_ne_zero h
  rw [List.map_id] at htext
  exact ⟨text, hmem, htext⟩

theorem operatorWord_sound : Sound .operator operatorWordWidth := sound_of_lexeme (by decide) fun cs h => by
  obtain ⟨text, hmem, htext⟩ := operatorWordWidth_ne_zero h
  change ofList (cs.take (operatorWordWidth cs)) ∈ _
  rw [htext, ofList_toList]
  exact mem_append_left _ hmem

theorem name_sound : Sound .word nameWidth := sound_of_lexeme (by decide) fun cs h => by
  unfold nameWidth at h ⊢
  cases cs with
  | nil => exact absurd rfl h
  | cons c rest =>
    by_cases hstart : startsName c = true
    · simp only [hstart, if_true]
      rw [Nat.add_comm, take_succ_cons]
      exact ⟨c, _, rfl, hstart, (run_sound continuesName rest).1⟩
    · simp [hstart] at h

theorem lexeme_of_hex (h : hexWidth cs ≠ 0) : TokenKind.number.Lexeme (cs.take (hexWidth cs)) := by
  unfold hexWidth at h ⊢
  split at h
  · next mark rest =>
    by_cases hhex : ((mark == 'x' || mark == 'X') && runWidth isHexDigit rest != 0) = true
    · simp only [hhex, if_true]
      rw [Nat.add_comm, take_succ_cons, take_succ_cons]
      refine ⟨'0', _, rfl, by decide, ?_⟩
      intro d hd
      rcases mem_cons.mp hd with rfl | hd
      · have hmark := (Bool.and_eq_true_iff.mp hhex).1
        rw [Bool.or_assoc, hmark, Bool.or_true]
      · rw [(run_sound isHexDigit rest).1 d hd]
        rfl
    · simp [hhex] at h
  · exact absurd rfl h

theorem lexeme_of_decimal (h : runWidth Char.isDigit cs ≠ 0) :
    TokenKind.number.Lexeme (cs.take (runWidth Char.isDigit cs)) := by
  have hdigits := (run_sound Char.isDigit cs).1
  cases htake : cs.take (runWidth Char.isDigit cs) with
  | nil =>
    rw [take_runWidth] at htake
    exact absurd (congrArg List.length htake) h
  | cons c rest =>
    rw [htake] at hdigits
    refine ⟨c, rest, rfl, hdigits c mem_cons_self, ?_⟩
    intro d hd
    rw [isHexDigit, hdigits d (mem_cons_of_mem c hd)]
    rfl

theorem number_sound : Sound .number numberWidth := sound_of_lexeme (by decide) fun cs h => by
  have hwidth := firstWidth_mem h
  rcases mem_cons.mp hwidth with hhex | hdecimal
  · rw [numberWidth, hhex]
    apply lexeme_of_hex
    rw [← hhex]
    exact h
  · rw [numberWidth, mem_singleton.mp hdecimal]
    apply lexeme_of_decimal
    rw [← mem_singleton.mp hdecimal]
    exact h

theorem operatorSymbol_sound : Sound .operator (literalsWidth operatorSymbols) :=
    sound_of_lexeme (by decide) fun cs h => by
  obtain ⟨text, hmem, hlexeme⟩ := literalsWidth_ne_zero h
  change ofList (cs.take _) ∈ _
  rw [hlexeme, ofList_toList]
  exact mem_append_right _ hmem

theorem arrow_sound : Sound .returnArrow (literalsWidth ["->", "→"]) := sound_of_lexeme (by decide) fun cs h => by
  obtain ⟨pattern, hmem, hlexeme⟩ := literalsWidth_ne_zero h
  change ofList (cs.take _) ∈ _
  rw [hlexeme, ofList_toList]
  exact hmem

theorem literal_sound (h : pattern ∈ kind.symbols) : Sound kind (literalWidth pattern) := by
  have hkind : kind ≠ .spaces ∧ kind ≠ .lineBreak ∧ kind ≠ .comment := by
    refine ⟨?_, ?_, ?_⟩ <;> rintro rfl <;> cases h
  refine sound_of_lexeme hkind fun cs hwidth => ?_
  have hlexeme : ofList (cs.take (literalWidth pattern cs)) = pattern := by
    rw [literalWidth_ne_zero hwidth, ofList_toList]
  rw [← hlexeme] at h
  cases kind <;> first | exact h | simp [TokenKind.symbols] at h

theorem table_sound : ∀ rule ∈ table, Sound rule.kind rule.width := by
  simp only [table, forall_mem_cons, not_mem_nil, false_imp_iff, implies_true, and_true]
  exact ⟨keyword_sound, comment_sound, fun cs _ => ⟨trivial, run_sound _ cs⟩, literal_sound (by decide), arrow_sound,
    operatorWord_sound, name_sound, number_sound, fun cs _ => ⟨trivial, run_sound _ cs⟩, operatorSymbol_sound,
    literal_sound (by decide), literal_sound (by decide), literal_sound (by decide),
    literal_sound (by decide)⟩

theorem firstMatch?_sound {width : Nat} (h : firstMatch? cs = some (kind, width)) :
    width ≠ 0 ∧ kind.Lexeme (cs.take width) ∧ kind.Spells (cs.take width) ∧ kind.Precedes (cs.drop width) := by
  obtain ⟨rule, hfound, hrule⟩ := Option.map_eq_some_iff.mp h
  obtain ⟨rfl, rfl⟩ := Prod.mk.inj hrule
  have hwidth : rule.width cs ≠ 0 := by simpa using find?_some hfound
  exact ⟨hwidth, table_sound rule (mem_of_find?_eq_some hfound) cs hwidth⟩

end LexicalRule

theorem Scan.tokensFrom_lexeme (l : Location) (cs : List Char) :
    ∀ t ∈ (tokensFrom l cs).1, t.kind.Lexeme t.raw.toList := by
  fun_induction tokensFrom l cs with
  | case1 | case2 | case3 => simp
  | case4 l c rest kind width hmatch lexeme hplain tokens problem hrest ih =>
    rw [hrest] at ih
    intro t ht
    rcases mem_cons.mp ht with rfl | ht
    · obtain ⟨n, rfl⟩ := Nat.exists_eq_succ_of_ne_zero (firstMatch?_sound hmatch).1
      rw [toList_ofList]
      exact (firstMatch?_sound hmatch).2.1
    · exact ih t ht

theorem tokenize_lexeme {source file : String} {tokens : List Token}
    (h : tokenize source file = .ok tokens) : ∀ t ∈ tokens, t.kind.Lexeme t.raw.toList := by
  have hlexeme := Scan.tokensFrom_lexeme ⟨file, 1, 1⟩ source.toList
  rw [tokenize] at h
  split at h
  · next found hfound =>
    obtain rfl := Except.ok.inj h
    rw [hfound] at hlexeme
    exact hlexeme
  · cases h

def Text.startsWord (text : String) : Bool := text.toList.head?.any LexicalRule.startsName

theorem Text.startsWord_append {a : String} (h : startsWord a = true) (b : String) :
    startsWord (a ++ b) = true := by
  unfold startsWord at h ⊢
  rw [String.toList_append]
  cases ha : a.toList with
  | nil => simp [ha] at h
  | cons c rest => simpa [ha] using h

theorem Text.startsWord_of_lexeme {t : Token} (hkind : t.kind = .word)
    (h : t.kind.Lexeme t.raw.toList) : startsWord t.raw = true := by
  rw [hkind] at h
  obtain ⟨c, rest, hraw, hc, -⟩ := h
  simpa [startsWord, hraw] using hc

end CirOutline
