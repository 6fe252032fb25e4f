import Mathlib.Data.List.Forall2
import Mathlib.Data.List.MinMax
import CirOutline.Proofs.Token.Lexeme

/-!
The first rule that applies takes the longest lexeme. Rules whose lexemes open with different kinds
of characters never apply together, so the order of the table matters only among the rules for words
and among those for symbols; there it puts the longer lexeme first.
-/

namespace CirOutline

open Scan
open List hiding after

variable {bound width : Nat} {cs : List Char} {p : Char → Bool} {c : Char} {pattern : String}
  {patterns : List String} {image : Char → Char}

namespace LexicalRule

/-- The class and the width of the longest lexeme at the front of a text; among rules that measure
the same width, the first of the table decides. -/
def longestMatch? (cs : List Char) : Option (TokenKind × Nat) :=
  ((table.filter fun rule => rule.width cs != 0).argmax fun rule => rule.width cs).map fun rule =>
    (rule.kind, rule.width cs)

/-! ### How lexemes open -/

/-- The letters outside the basic alphabet that keywords may be written with. -/
def foldedLetters : List Char := ['ſ', 'İ', 'ı']

/-- The kinds of characters that lexemes open with. -/
inductive Opening where
  | letter | digit | gap | lineEnd | colon | symbol
deriving DecidableEq

variable {o : Opening}

def opening (c : Char) : Opening :=
  if startsName c || foldedLetters.contains c then .letter
  else if c.isDigit then .digit
  else if isGap c then .gap
  else if isBreak c then .lineEnd
  else if c == ':' then .colon
  else .symbol

/-- A rule that measures only lexemes that open with a kind of character. -/
def Opens (o : Opening) (width : List Char → Nat) : Prop :=
  ∀ cs, width cs ≠ 0 → cs.head?.map opening = some o

theorem head?_take (h : width ≠ 0) : (cs.take width).head? = cs.head? := by
  rw [List.head?_take, if_neg h]

theorem of_basic (h : ((List.range 128).all fun n => p (Char.ofNat n)) = true) (hc : c.toNat < 128) :
    p c = true := by
  have hcode := all_eq_true.mp h c.toNat (mem_range.mpr hc)
  rwa [Char.ofNat_toNat] at hcode

theorem basic_of_continuesName (h : continuesName c = true) : c.toNat < 128 := by
  rw [continuesName, Bool.or_eq_true, beq_iff_eq] at h
  rcases h with h | rfl
  · unfold Char.isAlphanum Char.isAlpha Char.isUpper Char.isLower Char.isDigit at h
    simp only [Bool.or_eq_true, Bool.and_eq_true, decide_eq_true_eq, UInt32.le_iff_toNat_le] at h
    have hcode : c.val.toNat ≤ 122 := by
      rcases h with (h | h) | h
      · exact h.2.trans (by decide)
      · exact h.2
      · exact h.2.trans (by decide)
    exact Nat.lt_of_le_of_lt hcode (by decide)
  · decide

theorem opening_of_digit (h : c.isDigit = true) : opening c = .digit := by
  have hall : ((List.range 128).all fun n =>
      !(Char.ofNat n).isDigit || opening (Char.ofNat n) == .digit) = true := by decide
  have hbasic : c.toNat < 128 := basic_of_continuesName (by simp [continuesName, Char.isAlphanum, h])
  have hopening := of_basic (p := fun c => !c.isDigit || opening c == .digit) hall hbasic
  simpa [h] using hopening

theorem keywordLetter_of_not_folded (h : c ∉ foldedLetters) : keywordLetter c = c.toUpper := by
  have hne : c ≠ 'ſ' ∧ c ≠ 'İ' ∧ c ≠ 'ı' := by simpa [foldedLetters] using h
  simp [keywordLetter, hne]

theorem startsName_of_keywordLetter (h : (keywordLetter c).isUpper = true)
    (hfolded : c ∉ foldedLetters) : startsName c = true := by
  rw [keywordLetter_of_not_folded hfolded] at h
  exact Bool.or_eq_true_iff.mpr (.inl (isAlpha_of_toUpper h))

theorem opening_of_keywordLetter (h : (keywordLetter c).isUpper = true) : opening c = .letter := by
  by_cases hfolded : c ∈ foldedLetters
  · simp [opening, hfolded]
  · simp [opening, startsName_of_keywordLetter h hfolded]

theorem keywords_upper (k : Keyword) : k.spelling.toList.all Char.isUpper = true := by
  cases k <;> decide

theorem keyword_opens : Opens .letter keywordWidth := by
  intro cs h
  obtain ⟨k, hletters⟩ := (keyword_sound cs h).1
  have hupper : (k.spelling.toList.head?.any Char.isUpper) = true := by cases k <;> decide
  rw [← hletters, head?_map, head?_take h] at hupper
  cases cs with
  | nil => exact Bool.noConfusion hupper
  | cons c rest => exact congrArg some (opening_of_keywordLetter hupper)

theorem name_opens : Opens .letter nameWidth := by
  intro cs h
  obtain ⟨c, rest, hname, hstart, -⟩ := (name_sound cs h).1
  rw [← head?_take h, hname]
  simp [opening, hstart]

theorem number_opens : Opens .digit numberWidth := by
  intro cs h
  obtain ⟨c, rest, hnumber, hdigit, -⟩ := (number_sound cs h).1
  rw [← head?_take h, hnumber]
  exact congrArg some (opening_of_digit hdigit)

theorem comment_opens : Opens .symbol commentWidth := by
  intro cs h
  obtain ⟨rest, hcomment⟩ := (comment_sound cs h).1
  rw [← head?_take h, hcomment]
  exact congrArg some rfl

theorem run_opens (hp : ∀ c, p c = true → opening c = o) : Opens o (runWidth p) := by
  intro cs h
  cases cs with
  | nil => exact absurd rfl h
  | cons c rest =>
    have hc : p c = true := by
      by_contra hc
      simp [runWidth, hc] at h
    exact congrArg some (hp c hc)

theorem literals_opens (h : ∀ p ∈ patterns, p.toList.head?.map opening = some o) :
    Opens o (literalsWidth patterns) := by
  intro cs hwidth
  obtain ⟨pattern, hmem, hlexeme⟩ := literalsWidth_ne_zero hwidth
  rw [← head?_take hwidth, hlexeme]
  exact h pattern hmem

theorem literal_opens (h : pattern.toList.head?.map opening = some o) : Opens o (literalWidth pattern) := by
  intro cs hwidth
  rw [← head?_take hwidth, literalWidth_ne_zero hwidth]
  exact h

theorem operatorWord_opens : Opens .letter operatorWordWidth := by
  intro cs h
  obtain ⟨text, hmem, htext⟩ := operatorWordWidth_ne_zero h
  rw [← head?_take h, htext]
  have hletters : ∀ text ∈ operatorWords, text.toList.head?.map opening = some .letter := by decide
  exact hletters text hmem

/-- The kinds of characters that the rules of the table open with. -/
def openings : List Opening :=
  [.letter, .symbol, .gap, .colon, .symbol, .letter, .letter, .digit, .lineEnd, .symbol, .symbol,
    .symbol, .symbol, .symbol]

theorem spaces_opens : Opens .gap (runWidth fun c => c == ' ' || c == '\t') := by
  refine run_opens fun c hc => ?_
  rw [Bool.or_eq_true, beq_iff_eq, beq_iff_eq] at hc
  rcases hc with rfl | rfl <;> decide

theorem lineBreak_opens : Opens .lineEnd (runWidth fun c => c == '\r' || c == '\n') := by
  refine run_opens fun c hc => ?_
  rw [Bool.or_eq_true, beq_iff_eq, beq_iff_eq] at hc
  rcases hc with rfl | rfl <;> decide

theorem colon_opens : Opens .colon (literalWidth ":") := literal_opens rfl

theorem arrow_opens : Opens .symbol (literalsWidth ["->", "→"]) := literals_opens (by decide)

theorem table_opens : List.Forall₂ (fun o rule => Opens o rule.width) openings table := by
  refine .cons keyword_opens (.cons comment_opens (.cons spaces_opens (.cons colon_opens ?_)))
  refine .cons arrow_opens (.cons operatorWord_opens (.cons name_opens (.cons number_opens ?_)))
  refine .cons lineBreak_opens (.cons (literals_opens (by decide)) ?_)
  refine .cons (literal_opens rfl) (.cons (literal_opens rfl) ?_)
  exact .cons (literal_opens rfl) (.cons (literal_opens rfl) .nil)

/-! ### The order of the table -/

/-- Where a rule applies, it measures at least what another rule does. -/
def Covers (earlier later : LexicalRule) : Prop :=
  ∀ cs, earlier.width cs ≠ 0 → later.width cs ≤ earlier.width cs

theorem covers_of_opens {earlier later : LexicalRule} {o' : Opening} (h : Opens o earlier.width)
    (h' : Opens o' later.width) (hne : o ≠ o') : Covers earlier later := by
  intro cs hwidth
  by_contra hless
  have hlater : later.width cs ≠ 0 := by omega
  have hsame := (h cs hwidth).symm.trans (h' cs hlater)
  exact hne (Option.some.inj hsame)

theorem literalWidth_le (pattern : String) (cs : List Char) : literalWidth pattern cs ≤ pattern.length := by
  rw [literalWidth]
  split_ifs
  · exact le_refl _
  · exact Nat.zero_le _

theorem firstWidth_le {widths : List Nat} (h : ∀ width ∈ widths, width ≤ bound) : firstWidth widths ≤ bound := by
  by_cases hwidth : firstWidth widths = 0
  · rw [hwidth]
    exact Nat.zero_le bound
  · exact h _ (firstWidth_mem hwidth)

theorem literalsWidth_le (h : ∀ p ∈ patterns, p.length ≤ bound) (cs : List Char) :
    literalsWidth patterns cs ≤ bound := by
  apply firstWidth_le
  intro width hwidth
  obtain ⟨pattern, hmem, rfl⟩ := mem_map.mp hwidth
  exact (literalWidth_le pattern cs).trans (h pattern hmem)

/-! Words -/

theorem isWordChar_of_continuesName (h : continuesName c = true) : Text.isWordChar c = true := by
  have hall : ((List.range 128).all fun n =>
      !continuesName (Char.ofNat n) || Text.isWordChar (Char.ofNat n)) = true := by decide +kernel
  have hword := of_basic (p := fun c => !continuesName c || Text.isWordChar c) hall (basic_of_continuesName h)
  simpa [h] using hword

theorem nameWidth_le_runWidth (cs : List Char) : nameWidth cs ≤ runWidth continuesName cs := by
  cases cs with
  | nil => exact le_refl _
  | cons c rest =>
    rw [nameWidth]
    split_ifs with hstart
    · simp [runWidth, continuesName_of_starts hstart, Nat.add_comm]
    · exact Nat.zero_le _

theorem runWidth_le {n : Nat} (h : ∀ c ∈ (cs.drop n).head?, p c = false) : runWidth p cs ≤ n := by
  induction cs generalizing n with
  | nil => exact Nat.zero_le n
  | cons c rest ih =>
    rw [runWidth, takeWhile_cons]
    cases n with
    | zero =>
      rw [h c rfl]
      exact le_refl _
    | succ n =>
      split_ifs
      · exact Nat.succ_le_succ (ih h)
      · exact Nat.zero_le _

theorem runWidth_append {run : List Char} (h : ∀ c ∈ run, p c = true) (rest : List Char) :
    runWidth p (run ++ rest) = run.length + runWidth p rest := by
  rw [runWidth, takeWhile_append_of_pos h, length_append, runWidth]

theorem nameWidth_name {more rest : List Char} (hstart : startsName c = true)
    (hmore : ∀ d ∈ more, continuesName d = true) (hrest : ∀ d ∈ rest.head?, continuesName d = false) :
    nameWidth (c :: more ++ rest) = (c :: more).length := by
  have hend : runWidth continuesName rest = 0 := Nat.le_zero.mp (runWidth_le hrest)
  rw [cons_append, nameWidth, if_pos hstart, runWidth_append hmore, hend, length_cons, Nat.add_zero, Nat.add_comm]

theorem atBoundary_of_wholeWord (h : wholeWord image pattern cs ≠ 0) :
    atBoundary (cs.drop (wholeWord image pattern cs)) = true := by
  rw [wholeWord] at h ⊢
  split_ifs at h ⊢ with hword
  · exact (Bool.and_eq_true_iff.mp hword).2
  · exact absurd rfl h

theorem continuesName_of_atBoundary (h : atBoundary cs = true) : ∀ c ∈ cs.head?, continuesName c = false := by
  intro c hc
  cases cs with
  | nil => exact absurd hc (Option.not_mem_none c)
  | cons d rest =>
    obtain rfl := Option.some.inj hc
    rw [atBoundary, Bool.not_eq_true'] at h
    rw [Bool.eq_false_iff]
    intro hname
    exact Bool.noConfusion (h.symm.trans (isWordChar_of_continuesName hname))

theorem nameWidth_le_wholeWord (h : wholeWord image pattern cs ≠ 0) : nameWidth cs ≤ wholeWord image pattern cs :=
  (nameWidth_le_runWidth cs).trans (runWidth_le (continuesName_of_atBoundary (atBoundary_of_wholeWord h)))

theorem nameWidth_le_keywordWidth (h : keywordWidth cs ≠ 0) : nameWidth cs ≤ keywordWidth cs := by
  obtain ⟨k, -, hwidth⟩ := mem_map.mp (firstWidth_mem h)
  rw [keywordWidth, ← hwidth] at h ⊢
  exact nameWidth_le_wholeWord h

theorem nameWidth_le_operatorWordWidth (h : operatorWordWidth cs ≠ 0) : nameWidth cs ≤ operatorWordWidth cs := by
  obtain ⟨text, -, hwidth⟩ := mem_map.mp (firstWidth_mem h)
  rw [operatorWordWidth, ← hwidth] at h ⊢
  exact nameWidth_le_wholeWord h

theorem length_take_wholeWord (image : Char → Char) (pattern : String) (cs : List Char) :
    (cs.take (wholeWord image pattern cs)).length = wholeWord image pattern cs := by
  rw [wholeWord]
  split_ifs with hword
  · have hletters := congrArg List.length (beq_iff_eq.mp (Bool.and_eq_true_iff.mp hword).1)
    rwa [length_map] at hletters
  · rfl

theorem wholeWord_le_nameWidth (h : ∀ c ∈ cs.take (wholeWord image pattern cs), startsName c = true) :
    wholeWord image pattern cs ≤ nameWidth cs := by
  have hlength := length_take_wholeWord image pattern cs
  have hsplit := take_append_drop (wholeWord image pattern cs) cs
  cases hfront : cs.take (wholeWord image pattern cs) with
  | nil =>
    rw [hfront] at hlength
    rw [← hlength]
    exact Nat.zero_le _
  | cons c more =>
    rw [hfront] at h hlength hsplit
    obtain ⟨hc, hmore⟩ := forall_mem_cons.mp h
    have hrun := runWidth_append (fun d hd => continuesName_of_starts (hmore d hd))
      (cs.drop (wholeWord image pattern cs))
    rw [← hlength, ← hsplit, cons_append, nameWidth, if_pos hc, hrun, length_cons]
    omega

theorem operatorWordWidth_le_nameWidth (cs : List Char) : operatorWordWidth cs ≤ nameWidth cs := by
  by_cases hwidth : operatorWordWidth cs = 0
  · rw [hwidth]
    exact Nat.zero_le _
  obtain ⟨text, hmem, htext⟩ := mem_map.mp (firstWidth_mem hwidth)
  rw [operatorWordWidth, ← htext] at hwidth ⊢
  apply wholeWord_le_nameWidth
  have hletters := wholeWord_ne_zero hwidth
  rw [map_id] at hletters
  rw [hletters]
  have hall : ∀ text ∈ operatorWords, text.toList.all startsName = true := by decide
  exact all_eq_true.mp (hall text hmem)

theorem keywordWidth_le_nameWidth (h : ∀ c ∈ cs, c ∉ foldedLetters) : keywordWidth cs ≤ nameWidth cs := by
  by_cases hwidth : keywordWidth cs = 0
  · rw [hwidth]
    exact Nat.zero_le _
  obtain ⟨k, -, hk⟩ := mem_map.mp (firstWidth_mem hwidth)
  rw [keywordWidth, ← hk] at hwidth ⊢
  apply wholeWord_le_nameWidth
  intro c hc
  refine startsName_of_keywordLetter ?_ (h c (mem_of_mem_take hc))
  apply all_eq_true.mp (keywords_upper k)
  rw [← wholeWord_ne_zero hwidth]
  exact mem_map_of_mem hc

/-! Symbols -/

theorem two_le_commentWidth (h : commentWidth cs ≠ 0) : 2 ≤ commentWidth cs := by
  unfold commentWidth at h ⊢
  split at h
  · exact Nat.le_add_right 2 _
  · exact absurd rfl h

theorem literalsWidth_operatorSymbols_le (cs : List Char) : literalsWidth operatorSymbols cs ≤ 2 :=
  literalsWidth_le (by decide) cs

theorem operatorSymbol_le_arrow (h : literalsWidth ["->", "→"] cs ≠ 0) :
    literalsWidth operatorSymbols cs ≤ literalsWidth ["->", "→"] cs := by
  obtain ⟨pattern, hmem, hpattern⟩ := mem_map.mp (firstWidth_mem h)
  have hwidth : literalWidth pattern cs ≠ 0 := by
    rw [hpattern]
    exact h
  have hlexeme := literalWidth_ne_zero hwidth
  rcases mem_pair.mp hmem with rfl | rfl
  · have htwo : literalWidth "->" cs = 2 := by
      rw [literalWidth] at hwidth ⊢
      split_ifs at hwidth ⊢
      · rfl
      · exact absurd rfl hwidth
    have harrow : literalsWidth ["->", "→"] cs = 2 := hpattern.symm.trans htwo
    rw [harrow]
    exact literalsWidth_operatorSymbols_le cs
  · have hnone : literalsWidth operatorSymbols cs = 0 := by
      by_contra hoperator
      obtain ⟨operator, hmem, hoperates⟩ := literalsWidth_ne_zero hoperator
      have hheads : ∀ p ∈ operatorSymbols, p.toList.head? ≠ some '→' := by decide
      apply hheads operator hmem
      rw [← hoperates, head?_take hoperator, ← head?_take hwidth, hlexeme]
      rfl
    rw [hnone]
    exact Nat.zero_le _

theorem covers_literal (rule : LexicalRule) (kind : TokenKind) (hlength : pattern.length = 1) :
    Covers rule ⟨kind, literalWidth pattern⟩ := by
  intro cs hwidth
  have hlater := literalWidth_le pattern cs
  change literalWidth pattern cs ≤ rule.width cs
  omega

theorem comment_covers_literals (kind : TokenKind) (h : ∀ p ∈ patterns, p.length ≤ 2) :
    Covers ⟨.comment, commentWidth⟩ ⟨kind, literalsWidth patterns⟩ :=
  fun cs hwidth => (literalsWidth_le h cs).trans (two_le_commentWidth hwidth)

theorem alike_pairwise : (openings.zip table).Pairwise fun a b => a.1 = b.1 → Covers a.2 b.2 := by
  have hkeyword : Covers ⟨.keyword, keywordWidth⟩ ⟨.operator, operatorWordWidth⟩ := fun cs hwidth =>
    (operatorWordWidth_le_nameWidth cs).trans (nameWidth_le_keywordWidth hwidth)
  have hname : Covers ⟨.keyword, keywordWidth⟩ ⟨.word, nameWidth⟩ := fun cs hwidth =>
    nameWidth_le_keywordWidth hwidth
  have hword : Covers ⟨.operator, operatorWordWidth⟩ ⟨.word, nameWidth⟩ := fun cs hwidth =>
    nameWidth_le_operatorWordWidth hwidth
  have harrow : Covers ⟨.returnArrow, literalsWidth ["->", "→"]⟩
      ⟨.operator, literalsWidth operatorSymbols⟩ := fun cs hwidth => operatorSymbol_le_arrow hwidth
  have hshort : ∀ {rule : LexicalRule} {kind : TokenKind} {pattern : String}, pattern.length = 1 →
      Covers rule ⟨kind, literalWidth pattern⟩ := covers_literal _ _
  simp only [openings, table, zip_cons_cons, zip_nil_left, pairwise_cons,
    forall_mem_cons, not_mem_nil, false_imp_iff, implies_true, and_true, reduceCtorEq,
    true_and, forall_const]
  -- one line for each rule that others of its kind follow
  exact ⟨⟨hkeyword, hname⟩,
    ⟨comment_covers_literals _ (by decide), comment_covers_literals _ (by decide), hshort rfl,
      hshort rfl, hshort rfl, hshort rfl⟩,
    ⟨harrow, hshort rfl, hshort rfl, hshort rfl, hshort rfl⟩,
    hword,
    ⟨hshort rfl, hshort rfl, hshort rfl, hshort rfl⟩,
    ⟨hshort rfl, hshort rfl, hshort rfl⟩,
    ⟨hshort rfl, hshort rfl⟩,
    hshort rfl, .nil⟩

theorem table_pairwise : table.Pairwise Covers := by
  have hmap : table = (openings.zip table).map Prod.snd := rfl
  rw [hmap, pairwise_map]
  refine alike_pairwise.imp_of_mem fun {a b} ha hb hcovers => ?_
  by_cases halike : a.1 = b.1
  · exact hcovers halike
  · exact covers_of_opens (forall₂_zip table_opens ha) (forall₂_zip table_opens hb) halike

theorem width_le_of_filter {rule : LexicalRule} {rules : List LexicalRule}
    (h : (table.filter fun rule => rule.width cs != 0) = rule :: rules) :
    ∀ other ∈ table, other.width cs ≤ rule.width cs := by
  intro other hother
  by_cases hwidth : other.width cs = 0
  · rw [hwidth]
    exact Nat.zero_le _
  have hmem : other ∈ rule :: rules := by
    rw [← h, mem_filter]
    exact ⟨hother, by simpa using hwidth⟩
  have happlies : rule.width cs ≠ 0 := by
    have hrule : rule ∈ table.filter fun rule => rule.width cs != 0 := by
      rw [h]
      exact mem_cons_self
    simpa using (mem_filter.mp hrule).2
  have hcovers := table_pairwise.filter fun rule => rule.width cs != 0
  rw [h, pairwise_cons] at hcovers
  rcases mem_cons.mp hmem with rfl | hmem
  · exact le_refl _
  · exact hcovers.1 other hmem cs happlies

theorem width_le_of_firstMatch? {kind : TokenKind} (h : firstMatch? cs = some (kind, width)) :
    ∀ rule ∈ table, rule.width cs ≤ width := by
  rw [firstMatch?, ← head?_filter] at h
  obtain ⟨rule, hfirst, hrule⟩ := Option.map_eq_some_iff.mp h
  obtain ⟨rules, hfilter⟩ := head?_eq_some_iff.mp hfirst
  obtain ⟨-, rfl⟩ := Prod.mk.inj hrule
  exact width_le_of_filter hfilter

theorem longestMatch?_eq_firstMatch? (cs : List Char) : longestMatch? cs = firstMatch? cs := by
  rw [longestMatch?, firstMatch?, ← head?_filter]
  congr 1
  cases hfilter : table.filter fun rule => rule.width cs != 0 with
  | nil => rfl
  | cons rule rules =>
    rw [argmax_cons]
    cases hbest : rules.argmax fun rule => rule.width cs with
    | none => rfl
    | some best =>
      have hmem : best ∈ rule :: rules := mem_cons_of_mem rule (argmax_mem hbest)
      rw [← hfilter] at hmem
      have hle := width_le_of_filter hfilter best (mem_filter.mp hmem).1
      exact if_neg (Nat.not_lt.mpr hle)

end LexicalRule

end CirOutline
