import CirOutline.Proofs.Token.Scanning
import Mathlib.Data.List.MinMax
import Mathlib.Order.Nat

/-!
The tokens of C text. White space and comments separate tokens, and each token is the longest one
that its text admits: an identifier, a preprocessing number, a punctuator, or else one character by
itself. Character constants and string literals are left out, since no token of CIR holds a quote.
-/

namespace CirOutline.CToken

open List String

open LexicalRule (startsName continuesName runWidth literalWidth)

variable {c : Char} {body rest cs : List Char} {p : String}

def identifierRanges : Text.CodeRanges := [
  (0xA8, 0xA8), (0xAA, 0xAA), (0xAD, 0xAD), (0xAF, 0xAF), (0xB2, 0xB5), (0xB7, 0xBA),
  (0xBC, 0xBE), (0xC0, 0xD6), (0xD8, 0xF6), (0xF8, 0x167F), (0x1681, 0x180D), (0x180F, 0x1FFF),
  (0x200B, 0x200D), (0x202A, 0x202E), (0x203F, 0x2040), (0x2054, 0x2054), (0x2060, 0x218F),
  (0x2460, 0x24FF), (0x2776, 0x2793), (0x2C00, 0x2DFF), (0x2E80, 0x2FFF), (0x3004, 0x3007),
  (0x3021, 0x302F), (0x3031, 0xD7FF), (0xF900, 0xFD3D), (0xFD40, 0xFDCF), (0xFDF0, 0xFE44),
  (0xFE47, 0xFFFD), (0x10000, 0x1FFFD), (0x20000, 0x2FFFD), (0x30000, 0x3FFFD),
  (0x40000, 0x4FFFD), (0x50000, 0x5FFFD), (0x60000, 0x6FFFD), (0x70000, 0x7FFFD),
  (0x80000, 0x8FFFD), (0x90000, 0x9FFFD), (0xA0000, 0xAFFFD), (0xB0000, 0xBFFFD),
  (0xC0000, 0xCFFFD), (0xD0000, 0xDFFFD), (0xE0000, 0xEFFFD)]

def combiningRanges : Text.CodeRanges :=
  [(0x300, 0x36F), (0x1DC0, 0x1DFF), (0x20D0, 0x20FF), (0xFE20, 0xFE2F)]

def continuesIdentifier (c : Char) : Bool := continuesName c || identifierRanges.has c

def startsIdentifier (c : Char) : Bool :=
  startsName c || (identifierRanges.has c && !combiningRanges.has c)

def isSpace (c : Char) : Bool := [' ', '\t', '\n', '\r', '\x0b', '\x0c'].contains c

def punctuators : List String := [
  "[", "]", "(", ")", "\x7b", "\x7d", ".", "->", "++", "--", "&", "*", "+", "-", "~", "!", "/",
  "%", "<<", ">>", "<", ">", "<=", ">=", "==", "!=", "^", "|", "&&", "||", "?", ":", ";", "...",
  "=", "*=", "/=", "%=", "+=", "-=", "<<=", ">>=", "&=", "^=", "|=", ",", "#", "##", "<:", ":>",
  "<%", "%>", "%:", "%:%:"]

def identifierWidth : List Char → Nat
  | [] => 0
  | c :: rest => if startsIdentifier c then 1 + runWidth continuesIdentifier rest else 0

def continuesNumber (c : Char) : Bool := continuesIdentifier c || c == '.'

def isExponent (c : Char) : Bool := ['e', 'E', 'p', 'P'].contains c

/-- What follows the first digit of a preprocessing number; a sign may stand after the letter of an
exponent. -/
def numberTail : List Char → Nat
  | [] => 0
  | [c] => if continuesNumber c then 1 else 0
  | c :: sign :: rest =>
    if isExponent c && (sign == '+' || sign == '-') then 2 + numberTail rest
    else if continuesNumber c then 1 + numberTail (sign :: rest)
    else 0

def numberWidth : List Char → Nat
  | [] => 0
  | c :: rest =>
    if c.isDigit then 1 + numberTail rest
    else if c == '.' && rest.head?.any Char.isDigit then 2 + numberTail rest.tail
    else 0

def punctuatorWidth (cs : List Char) : Nat :=
  (punctuators.map fun p => literalWidth p cs).foldr max 0

def width (cs : List Char) : Nat :=
  max 1 (max (identifierWidth cs) (max (numberWidth cs) (punctuatorWidth cs)))

/-- The rest of a comment, with the star and the slash that close it. -/
def blockTail : List Char → Nat
  | [] => 0
  | '*' :: '/' :: _ => 2
  | _ :: rest => 1 + blockTail rest

def commentWidth : List Char → Nat
  | '/' :: '/' :: rest => 2 + runWidth (fun c => c != '\n') rest
  | '/' :: '*' :: rest => 2 + blockTail rest
  | _ => 0

def lex : List Char → List String
  | [] => []
  | c :: rest =>
    if isSpace c then lex rest
    else if commentWidth (c :: rest) != 0 then lex (rest.drop (commentWidth (c :: rest) - 1))
    else
      ofList (c :: rest.take (width (c :: rest) - 1)) ::
        lex (rest.drop (width (c :: rest) - 1))
termination_by cs => cs.length
decreasing_by all_goals simp only [length_cons, length_drop]; omega

/-! ### One token -/

theorem lex_space (h : isSpace c = true) (rest : List Char) : lex (c :: rest) = lex rest := by
  rw [lex, if_pos h]

theorem lex_cons (hspace : isSpace c = false) (hcomment : commentWidth (c :: rest) = 0) :
    lex (c :: rest) = ofList ((c :: rest).take (width (c :: rest))) ::
      lex ((c :: rest).drop (width (c :: rest))) := by
  obtain ⟨n, hn⟩ : ∃ n, width (c :: rest) = n + 1 := Nat.exists_eq_add_of_le' (Nat.le_max_left 1 _)
  rw [lex, if_neg (by simp [hspace]), if_neg (by simp [hcomment]), hn, take_succ_cons,
    drop_succ_cons, Nat.add_sub_cancel]

theorem lex_append (hspace : isSpace c = false) (hcomment : commentWidth (c :: (body ++ rest)) = 0)
    (hwidth : width (c :: (body ++ rest)) = body.length + 1) :
    lex (c :: (body ++ rest)) = ofList (c :: body) :: lex rest := by
  rw [lex_cons hspace hcomment, hwidth, take_succ_cons, drop_succ_cons, take_left, drop_left]

theorem commentWidth_eq_zero (h : c ≠ '/') (rest : List Char) : commentWidth (c :: rest) = 0 := by
  unfold commentWidth
  split
  · next heq => exact absurd (List.cons.inj heq).1 h
  · next heq => exact absurd (List.cons.inj heq).1 h
  · rfl

theorem prefix_of_literalWidth (h : literalWidth p cs ≠ 0) : p.toList <+: cs := by
  rw [← LexicalRule.literalWidth_ne_zero h]
  exact take_prefix _ _

theorem literalWidth_of_start (h : p.toList <+: cs) : literalWidth p cs = p.toList.length := by
  rw [literalWidth, if_pos (List.isPrefixOf_iff_prefix.mpr h), length_toList]

theorem punctuatorWidth_le {n : Nat} (h : ∀ p ∈ punctuators, p.toList <+: cs → p.toList.length ≤ n) :
    punctuatorWidth cs ≤ n := by
  change (punctuators.map fun p => literalWidth p cs).foldr max ⊥ ≤ n
  apply max_le_of_forall_le
  intro w hw
  obtain ⟨p, hp, rfl⟩ := mem_map.mp hw
  by_cases hzero : literalWidth p cs = 0
  · omega
  · have hstart := prefix_of_literalWidth hzero
    rw [literalWidth_of_start hstart]
    exact h p hp hstart

theorem le_punctuatorWidth (hp : p ∈ punctuators) (h : p.toList <+: cs) :
    p.toList.length ≤ punctuatorWidth cs := by
  change p.toList.length ≤ (punctuators.map fun p => literalWidth p cs).foldr max ⊥
  apply le_max_of_le (mem_map_of_mem hp)
  exact (literalWidth_of_start h).ge

theorem punctuatorWidth_eq_zero (rest : List Char)
    (h : (punctuators.all fun p => p.toList.head? != some c) = true) :
    punctuatorWidth (c :: rest) = 0 := by
  apply Nat.le_zero.mp
  apply punctuatorWidth_le
  intro p hp hstart
  have hhead := all_eq_true.mp h p hp
  cases htext : p.toList with
  | nil => exact Nat.le_refl 0
  | cons d more =>
    rw [htext] at hstart hhead
    have hd : d = c := (cons_prefix_cons.mp hstart).1
    simp [hd] at hhead

theorem not_starts_of_mem (hp : p ∈ punctuators) {d : Char} (hd : d ∈ p.toList.head?) :
    startsIdentifier d = false ∧ d.isDigit = false ∧ isSpace d = false := by
  have hall : (punctuators.all fun p => p.toList.head?.all fun d =>
      !startsIdentifier d && !d.isDigit && !isSpace d) = true := by decide
  have hfirst := all_eq_true.mp hall p hp
  rw [Option.mem_def.mp hd] at hfirst
  simpa [and_assoc] using hfirst

theorem no_punctuator_of_starts (h : startsIdentifier c = true ∨ c.isDigit = true ∨ isSpace c = true) :
    (punctuators.all fun p => p.toList.head? != some c) = true := by
  rw [all_eq_true]
  intro p hp
  rw [bne_iff_ne]
  intro hhead
  obtain ⟨hname, hdigit, hspace⟩ := not_starts_of_mem hp hhead
  simp [hname, hdigit, hspace] at h

/-! ### Identifiers and numbers -/

theorem toNat_of_isDigit (h : c.isDigit = true) : 48 ≤ c.toNat ∧ c.toNat ≤ 57 := by
  simp only [Char.isDigit, Bool.and_eq_true, decide_eq_true_eq, UInt32.le_iff_toNat_le] at h
  exact h

theorem toNat_of_startsName (h : startsName c = true) : 65 ≤ c.toNat := by
  unfold startsName Char.isAlpha Char.isUpper Char.isLower at h
  simp only [Bool.or_eq_true, Bool.and_eq_true, decide_eq_true_eq, beq_iff_eq, UInt32.le_iff_toNat_le] at h
  change ((65 ≤ c.toNat ∧ c.toNat ≤ 90) ∨ (97 ≤ c.toNat ∧ c.toNat ≤ 122)) ∨ c = '_' at h
  rcases h with (h | h) | rfl
  · omega
  · omega
  · decide

theorem toNat_of_identifierRanges (h : identifierRanges.has c = true) : 0xA8 ≤ c.toNat := by
  obtain ⟨range, hmem, hrange⟩ := any_eq_true.mp h
  have hleast : (identifierRanges.all fun r => 0xA8 ≤ r.1) = true := by decide
  have hlow := all_eq_true.mp hleast range hmem
  simp only [Bool.and_eq_true, decide_eq_true_eq] at hrange hlow
  omega

theorem toNat_of_startsIdentifier (h : startsIdentifier c = true) : 65 ≤ c.toNat := by
  rw [startsIdentifier, Bool.or_eq_true, Bool.and_eq_true] at h
  rcases h with hname | ⟨hextended, -⟩
  · exact toNat_of_startsName hname
  · have hcode := toNat_of_identifierRanges hextended
    omega

theorem plain_of_startsIdentifier (h : startsIdentifier c = true) :
    c.isDigit = false ∧ c ≠ '.' ∧ isSpace c = false ∧ c ≠ '/' := by
  have hcode := toNat_of_startsIdentifier h
  refine ⟨?_, ?_, ?_, ?_⟩
  · rw [Bool.eq_false_iff]
    intro hdigit
    have := toNat_of_isDigit hdigit
    omega
  · rintro rfl
    simp at hcode
  · rw [Bool.eq_false_iff]
    intro hspace
    simp only [isSpace, contains_iff_mem, mem_cons, not_mem_nil, or_false] at hspace
    rcases hspace with rfl | rfl | rfl | rfl | rfl | rfl <;> simp at hcode
  · rintro rfl
    simp at hcode

theorem takeWhile_append_stop {p : Char → Bool} (hbody : ∀ d ∈ body, p d = true)
    (hrest : ∀ d ∈ rest.head?, p d = false) : runWidth p (body ++ rest) = body.length := by
  rw [runWidth, takeWhile_append_of_pos hbody]
  cases rest with
  | nil => simp
  | cons d rest => simp [hrest d rfl]

theorem lex_identifier (hc : startsIdentifier c = true) (hbody : ∀ d ∈ body, continuesIdentifier d = true)
    (hrest : ∀ d ∈ rest.head?, continuesIdentifier d = false) :
    lex (c :: (body ++ rest)) = ofList (c :: body) :: lex rest := by
  obtain ⟨hdigit, hdot, hspace, hslash⟩ := plain_of_startsIdentifier hc
  apply lex_append hspace (commentWidth_eq_zero hslash _)
  have hname : identifierWidth (c :: (body ++ rest)) = body.length + 1 := by
    rw [identifierWidth, if_pos hc, takeWhile_append_stop hbody hrest, Nat.add_comm]
  have hnumber : numberWidth (c :: (body ++ rest)) = 0 := by
    simp [numberWidth, hdigit, hdot]
  rw [width, hname, hnumber, punctuatorWidth_eq_zero _ (no_punctuator_of_starts (.inl hc))]
  omega

def joinsNumber (c : Char) : Bool := continuesNumber c || c == '+' || c == '-'

theorem continuesNumber_of_isExponent (h : isExponent c = true) : continuesNumber c = true := by
  have hall : (['e', 'E', 'p', 'P'].all continuesNumber) = true := by decide
  exact all_eq_true.mp hall c (contains_iff_mem.mp h)

theorem numberTail_append (hbody : ∀ d ∈ body, continuesNumber d = true ∧ d ≠ '+' ∧ d ≠ '-')
    (hrest : ∀ d ∈ rest.head?, joinsNumber d = false) :
    numberTail (body ++ rest) = body.length := by
  have hend : numberTail rest = 0 := by
    cases rest with
    | nil => rfl
    | cons d rest =>
      have hd := hrest d rfl
      simp only [joinsNumber, Bool.or_eq_false_iff] at hd
      have hexponent : isExponent d = false := by
        rw [Bool.eq_false_iff]
        intro hletter
        have hjoins := continuesNumber_of_isExponent hletter
        rw [hd.1.1] at hjoins
        exact Bool.false_ne_true hjoins
      cases rest with
      | nil => simp [numberTail, hd.1.1]
      | cons e rest => simp [numberTail, hd.1.1, hexponent]
  induction body with
  | nil => exact hend
  | cons c body ih =>
    have hc := (hbody c mem_cons_self).1
    have hmore := ih fun d hd => hbody d (mem_cons_of_mem c hd)
    cases hnext : body ++ rest with
    | nil =>
      rw [cons_append, hnext, numberTail, if_pos hc]
      simp_all
    | cons d more =>
      -- the next character is no sign, in the number as after it
      have hsign : (d == '+' || d == '-') = false := by
        cases body with
        | nil =>
          have hd := hrest d (by rw [← nil_append rest, hnext]; rfl)
          simp only [joinsNumber, Bool.or_eq_false_iff] at hd
          simp [hd.1.2, hd.2]
        | cons e body =>
          obtain ⟨rfl, -⟩ := List.cons.inj hnext
          have he := hbody e (by simp)
          simp [he.2.1, he.2.2]
      rw [hnext] at hmore
      rw [cons_append, hnext, numberTail, hsign, Bool.and_false]
      simp only [Bool.false_eq_true, if_false, hc, if_true, hmore, length_cons]
      omega

theorem lex_number (hc : c.isDigit = true) (hbody : ∀ d ∈ body, continuesNumber d = true ∧ d ≠ '+' ∧ d ≠ '-')
    (hrest : ∀ d ∈ rest.head?, joinsNumber d = false) :
    lex (c :: (body ++ rest)) = ofList (c :: body) :: lex rest := by
  have hcode := toNat_of_isDigit hc
  have hspace : isSpace c = false := by
    rw [Bool.eq_false_iff]
    intro hspace
    simp only [isSpace, contains_iff_mem, mem_cons, not_mem_nil, or_false] at hspace
    rcases hspace with rfl | rfl | rfl | rfl | rfl | rfl <;> simp at hcode
  have hslash : c ≠ '/' := by
    rintro rfl
    simp at hcode
  apply lex_append hspace (commentWidth_eq_zero hslash _)
  have hname : identifierWidth (c :: (body ++ rest)) = 0 := by
    rw [identifierWidth, if_neg]
    intro hstart
    rw [(plain_of_startsIdentifier hstart).1] at hc
    exact Bool.false_ne_true hc
  have hnumber : numberWidth (c :: (body ++ rest)) = body.length + 1 := by
    rw [numberWidth, if_pos hc, numberTail_append hbody hrest, Nat.add_comm]
  rw [width, hname, hnumber, punctuatorWidth_eq_zero _ (no_punctuator_of_starts (.inr (.inl hc)))]
  omega

/-! ### Symbols -/

/-- Whether a text and a character after it are read together: some punctuator or the mark of a
comment starts with both. -/
def continued (text : List Char) (c : Char) : Bool :=
  ("//" :: "/*" :: punctuators).any fun p => (text ++ [c]).isPrefixOf p.toList

def following (text : List Char) : List Char :=
  ("//" :: "/*" :: punctuators).filterMap fun p =>
    if text.isPrefixOf p.toList then (p.toList.drop text.length).head? else none

theorem mem_following {text : List Char} (h : continued text c = true) : c ∈ following text := by
  obtain ⟨p, hp, hstart⟩ := any_eq_true.mp h
  obtain ⟨more, hmore⟩ := isPrefixOf_iff_prefix.mp hstart
  refine mem_filterMap.mpr ⟨p, hp, ?_⟩
  rw [if_pos (List.isPrefixOf_iff_prefix.mpr ⟨c :: more, by simp [← hmore]⟩), ← hmore]
  simp

/-- A text that is a punctuator, or one character that is in no class. -/
def isSymbol (text : String) : Bool :=
  (text.length == 1 || punctuators.contains text) &&
    text.toList.head?.any fun c => !startsIdentifier c && !c.isDigit && c != '.' && !isSpace c

theorem prefix_of_not_continued {text : List Char} (hp : p ∈ "//" :: "/*" :: punctuators)
    (hstart : p.toList <+: text ++ rest) (hrest : ∀ c ∈ rest.head?, continued text c = false) :
    p.toList <+: text := by
  cases rest with
  | nil => rwa [append_nil] at hstart
  | cons c rest =>
    have hshort : ¬ text ++ [c] <+: p.toList := by
      intro h
      have hall := hrest c rfl
      rw [continued, any_eq_false] at hall
      exact hall p hp (List.isPrefixOf_iff_prefix.mpr h)
    have hlong : text ++ [c] <+: text ++ c :: rest := ⟨rest, by simp⟩
    rcases prefix_or_prefix_of_prefix hstart hlong with h | h
    · rcases prefix_concat_iff.mp h with heq | h
      · exact absurd (heq ▸ prefix_rfl) hshort
      · exact h
    · exact absurd h hshort

theorem commentWidth_of_not_continued (hlength : body = [] ∨ ofList (c :: body) ∈ punctuators)
    (hrest : ∀ d ∈ rest.head?, continued (c :: body) d = false) :
    commentWidth (c :: (body ++ rest)) = 0 := by
  -- a mark of a comment would already be inside the text, which is none
  have hnone : ∀ p ∈ ["//", "/*"], ¬ p.toList <+: c :: (body ++ rest) := by
    intro p hp hstart
    have hinside : p.toList <+: c :: body := by
      apply prefix_of_not_continued _ hstart hrest
      exact mem_append_left punctuators hp
    rcases hlength with rfl | hmem
    · have hle := hinside.length_le
      have htwo : p.toList.length = 2 := by
        have hall : (["//", "/*"].all fun p => p.toList.length == 2) = true := by decide
        simpa using all_eq_true.mp hall p hp
      rw [htwo] at hle
      simp at hle
    · have hall : (punctuators.all fun q => ["//", "/*"].all fun p =>
          !p.toList.isPrefixOf q.toList) = true := by decide
      have hq := all_eq_true.mp (all_eq_true.mp hall _ hmem) p hp
      rw [toList_ofList, isPrefixOf_iff_prefix.mpr hinside] at hq
      exact Bool.false_ne_true hq
  unfold commentWidth
  split
  · next more heq => exact absurd ⟨more, heq.symm⟩ (hnone "//" (by simp))
  · next more heq => exact absurd ⟨more, heq.symm⟩ (hnone "/*" (by simp))
  · rfl

theorem lex_symbol (hsymbol : isSymbol (ofList (c :: body)) = true)
    (hrest : ∀ d ∈ rest.head?, continued (c :: body) d = false) :
    lex (c :: (body ++ rest)) = ofList (c :: body) :: lex rest := by
  simp only [isSymbol, toList_ofList, length_ofList, head?_cons, Option.any_some,
    Bool.and_eq_true, Bool.or_eq_true, beq_iff_eq, contains_iff_mem, Bool.not_eq_true',
    bne_iff_ne, length_cons] at hsymbol
  obtain ⟨hlength, ⟨⟨hname, hdigit⟩, hdot⟩, hspace⟩ := hsymbol
  have hlength : body = [] ∨ ofList (c :: body) ∈ punctuators := by
    rcases hlength with hone | hmem
    · exact .inl (length_eq_zero_iff.mp (by omega))
    · exact .inr hmem
  apply lex_append hspace (commentWidth_of_not_continued hlength hrest)
  have hnoName : identifierWidth (c :: (body ++ rest)) = 0 := by simp [identifierWidth, hname]
  have hnoNumber : numberWidth (c :: (body ++ rest)) = 0 := by simp [numberWidth, hdigit, hdot]
  have hle : punctuatorWidth (c :: (body ++ rest)) ≤ body.length + 1 := by
    apply punctuatorWidth_le
    intro p hp hstart
    have hinside : p.toList <+: c :: body := by
      apply prefix_of_not_continued _ hstart hrest
      exact mem_cons_of_mem _ (mem_cons_of_mem _ hp)
    exact hinside.length_le
  rw [width, hnoName, hnoNumber]
  rcases hlength with rfl | hmem
  · simp only [length_nil] at hle ⊢
    omega
  · have hge : body.length + 1 ≤ punctuatorWidth (c :: (body ++ rest)) := by
      have hstart : (ofList (c :: body)).toList <+: c :: (body ++ rest) := by
        rw [toList_ofList]
        exact ⟨rest, rfl⟩
      have hle := le_punctuatorWidth hmem hstart
      rwa [toList_ofList, length_cons] at hle
    omega

theorem lex_ne_of_continued {d : Char} {others : List String} (hspace : isSpace c = false)
    (hslash : c ≠ '/') (hjoin : (punctuators.any fun p => p.toList == [c, d]) = true) :
    lex (c :: d :: rest) ≠ ofList [c] :: others := by
  obtain ⟨p, hp, htext⟩ := any_eq_true.mp hjoin
  rw [beq_iff_eq] at htext
  have htwo : 2 ≤ punctuatorWidth (c :: d :: rest) := by
    have hstart : p.toList <+: c :: d :: rest := htext ▸ ⟨rest, rfl⟩
    have hle := le_punctuatorWidth hp hstart
    rwa [htext] at hle
  have hwidth : 2 ≤ width (c :: d :: rest) := by
    rw [width]
    omega
  rw [lex_cons hspace (commentWidth_eq_zero hslash _)]
  intro heq
  have hfirst := ofList_injective (List.cons.inj heq).1
  have hlength := congrArg List.length hfirst
  rw [length_take] at hlength
  simp only [length_cons, length_nil] at hlength
  omega

end CirOutline.CToken
