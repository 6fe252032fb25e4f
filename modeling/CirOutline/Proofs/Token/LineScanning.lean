import CirOutline.Proofs.Alike
import CirOutline.Proofs.Token.NameTokens
import CirOutline.Proofs.Token.Partition
import Mathlib.Data.List.Find

/-!
Scanning line by line. No rule looks past the end of a line, nor past the start of a comment, so that
a text cut there is split as its parts are. `Lexed` says that a text is split into tokens, wherever
it stands; `Lexed.split` and `Lexed.join` take it apart at such a seam and put it together again.
-/

namespace CirOutline

open List Token

variable {after before : List Token} {cs rest : List Char} {pattern : String}

open Scan LexicalRule String
open List hiding after

variable {front back breaks : List Char}

/-! ### Rules at a seam -/

def Scan.cutters : List Char := ['\r', '\n', '/']

/-- A place within a text that no lexeme crosses: a line is before it, and its end or a comment comes
next. -/
structure Scan.Seam (front back : List Char) : Prop where
  line : ∀ c ∈ front, isBreak c = false
  cut : ∀ d ∈ back.head?, d ∈ cutters
  code : '/' ∈ back.head? → ¬ ['/', '/'] <:+: front ++ ['/']

theorem Scan.Seam.drop {first : List Char} (h : Seam (first ++ front) back) : Seam front back where
  line := fun c hc => h.line c (mem_append_right first hc)
  cut := h.cut
  code := fun hslash hcode => by
    apply h.code hslash
    rw [List.append_assoc]
    exact hcode.trans (suffix_append first _).isInfix

theorem Scan.seam_break (h : ∀ c ∈ front, isBreak c = false)
    (hback : ∀ d ∈ back.head?, isBreak d = true) : Seam front back where
  line := h
  cut := fun d hd => by
    have hbreak := hback d hd
    simp only [isBreak, Bool.or_eq_true, beq_iff_eq] at hbreak
    rcases hbreak with rfl | rfl <;> decide
  code := fun hslash => absurd (hback '/' hslash) (by decide)

namespace LexicalRule

section
theorem firstWidth_congr {α : Type} {f g : α → Nat} {as : List α} (h : ∀ a ∈ as, f a = g a) :
    firstWidth (as.map f) = firstWidth (as.map g) := by
  rw [map_congr_left h]

theorem runWidth_seam {p : Char → Bool} (h : ∀ d ∈ back.head?, p d = false) :
    runWidth p (front ++ back) = runWidth p front := by
  induction front with
  | nil =>
    have hnone : runWidth p back ≤ 0 := runWidth_le h
    exact Nat.le_zero.mp hnone
  | cons c front ih =>
    rw [runWidth, runWidth] at ih
    rw [runWidth, runWidth, cons_append, takeWhile_cons, takeWhile_cons]
    split_ifs
    · rw [length_cons, length_cons, ih]
    · rfl

theorem literalWidth_seam (hfront : front ≠ []) (h : ∀ d ∈ back.head?, d ∉ pattern.toList.tail) :
    literalWidth pattern (front ++ back) = literalWidth pattern front := by
  have hiff : pattern.toList <+: front ++ back ↔ pattern.toList <+: front := by
    refine ⟨fun hlong => ?_, fun hshort => hshort.trans (prefix_append front back)⟩
    rcases Nat.le_total pattern.toList.length front.length with hle | hle
    · exact prefix_of_prefix_length_le hlong (prefix_append front back) hle
    · obtain ⟨more, hmore⟩ :=
        prefix_of_prefix_length_le (prefix_append front back) hlong hle
      rw [← hmore] at h hlong ⊢
      rw [prefix_append_right_inj] at hlong
      obtain ⟨c, front, rfl⟩ := exists_cons_of_ne_nil hfront
      cases more with
      | nil => rw [append_nil]
      | cons d more =>
        obtain ⟨rest, rfl⟩ := hlong
        exact absurd (mem_append_right front mem_cons_self) (h d rfl)
  rw [literalWidth, literalWidth, Bool.eq_iff_iff.mpr
    (List.isPrefixOf_iff_prefix.trans (hiff.trans isPrefixOf_iff_prefix.symm))]

theorem literalsWidth_seam {patterns : List String} (hfront : front ≠ [])
    (h : ∀ d ∈ back.head?, ∀ pattern ∈ patterns, d ∉ pattern.toList.tail) :
    literalsWidth patterns (front ++ back) = literalsWidth patterns front :=
  firstWidth_congr fun pattern hpattern =>
    literalWidth_seam hfront fun d hd => h d hd pattern hpattern

theorem atBoundary_append (h : atBoundary back = true) : atBoundary (front ++ back) = atBoundary front := by
  cases front with
  | nil => exact h
  | cons c front => rfl

theorem wholeWord_seam {image : Char → Char} (hboundary : atBoundary back = true)
    (h : ∀ d ∈ back.head?, image d ∉ pattern.toList) :
    wholeWord image pattern (front ++ back) = wholeWord image pattern front := by
  rcases Nat.lt_or_ge front.length pattern.toList.length with hlt | hle
  · have hshort : ((front.take pattern.toList.length).map image == pattern.toList) = false := by
      rw [beq_eq_false_iff_ne]
      intro heq
      have hlength := congrArg List.length heq
      rw [List.length_map, length_take] at hlength
      omega
    cases back with
    | nil => rw [append_nil]
    | cons d back =>
      have hlong : (((front ++ d :: back).take pattern.toList.length).map image ==
          pattern.toList) = false := by
        rw [beq_eq_false_iff_ne]
        intro heq
        apply h d rfl
        obtain ⟨n, hn⟩ : ∃ n, pattern.toList.length = front.length + (n + 1) :=
          ⟨pattern.toList.length - front.length - 1, by omega⟩
        rw [hn, take_length_add_append, take_succ_cons] at heq
        rw [← heq]
        exact mem_map_of_mem (mem_append_right front mem_cons_self)
      simp only [wholeWord, hshort, hlong, Bool.false_and]
  · simp only [wholeWord, take_append_of_le_length hle, drop_append_of_le_length hle, atBoundary_append hboundary]

end

theorem commentWidth_of_no_slashes (h : ¬ ['/', '/'] <+: cs) : commentWidth cs = 0 := by
  unfold commentWidth
  split
  · next rest => exact absurd ⟨rest, rfl⟩ h
  · rfl

theorem commentWidth_seam (h : Seam front back) (hfront : front ≠ []) :
    commentWidth (front ++ back) = commentWidth front := by
  by_cases hslash : ['/', '/'] <+: front
  · obtain ⟨rest, rfl⟩ := hslash
    have hbreak : ∀ d ∈ back.head?, (d != '\r' && d != '\n') = false := by
      intro d hd
      have hcut := h.cut d hd
      simp only [cutters, mem_cons, not_mem_nil, or_false] at hcut
      rcases hcut with rfl | rfl | rfl
      · rfl
      · rfl
      · refine absurd ?_ (h.code hd)
        rw [List.append_assoc]
        exact (prefix_append _ _).isInfix
    have hrun : ((rest ++ back).takeWhile fun d => d != '\r' && d != '\n').length =
        (rest.takeWhile fun d => d != '\r' && d != '\n').length := runWidth_seam hbreak
    simp only [cons_append, nil_append, commentWidth, hrun]
  · have hlong : ¬ ['/', '/'] <+: front ++ back := by
      rintro ⟨rest, hrest⟩
      cases front with
      | nil => exact hfront rfl
      | cons c front =>
        cases front with
        | nil =>
          obtain ⟨rfl, hback⟩ := cons.inj hrest
          have hback : '/' :: rest = back := hback
          exact h.code (by rw [← hback]; rfl) (infix_refl _)
        | cons d front =>
          obtain ⟨rfl, hmore⟩ := cons.inj hrest
          obtain ⟨rfl, -⟩ := cons.inj hmore
          exact hslash ⟨front, rfl⟩
    rw [commentWidth_of_no_slashes hlong, commentWidth_of_no_slashes hslash]

theorem hexWidth_seam (hfront : front ≠ []) (hmark : ∀ d ∈ back.head?, (d == 'x' || d == 'X') = false)
    (hdigits : ∀ d ∈ back.head?, isHexDigit d = false) :
    hexWidth (front ++ back) = hexWidth front := by
  cases front with
  | nil => exact absurd rfl hfront
  | cons c front =>
    by_cases hc : c = '0'
    · subst hc
      cases front with
      | nil =>
        cases back with
        | nil => rfl
        | cons d back =>
          have hd := hmark d rfl
          simp [hexWidth, hd]
      | cons mark front =>
        simp only [cons_append, hexWidth, runWidth_seam hdigits]
    · simp [hexWidth, hc]

theorem table_seam (h : Seam front back) (hfront : front ≠ []) :
    ∀ rule ∈ table, rule.width (front ++ back) = rule.width front := by
  have hclass : ∀ {p : Char → Bool}, (cutters.all fun d => !p d) = true →
      ∀ d ∈ back.head?, p d = false := by
    intro p hp d hd
    simpa using all_eq_true.mp hp d (h.cut d hd)
  have hliteral : ∀ {patterns : List String},
      (cutters.all fun d => patterns.all fun pattern => !pattern.toList.tail.contains d) = true →
      literalsWidth patterns (front ++ back) = literalsWidth patterns front := by
    intro patterns hpatterns
    refine literalsWidth_seam hfront fun d hd pattern hpattern => ?_
    have hall := all_eq_true.mp (all_eq_true.mp hpatterns d (h.cut d hd)) pattern hpattern
    simpa using hall
  have hsymbol : ∀ {pattern : String}, (cutters.all fun d => !pattern.toList.tail.contains d) = true →
      literalWidth pattern (front ++ back) = literalWidth pattern front := by
    intro pattern hpattern
    refine literalWidth_seam hfront fun d hd => ?_
    simpa using all_eq_true.mp hpattern d (h.cut d hd)
  have hboundary : atBoundary back = true := by
    cases hback : back with
    | nil => rfl
    | cons d rest =>
      rw [hback] at hclass
      have hword := hclass (p := Text.isWordChar) (by decide +kernel) d rfl
      rw [atBoundary, hword]
      rfl
  have hkeyword : keywordWidth (front ++ back) = keywordWidth front := by
    refine firstWidth_congr fun k _ => wholeWord_seam hboundary fun d hd hmem => ?_
    have hupper := all_eq_true.mp (keywords_upper k) _ hmem
    rw [hclass (p := fun d => (keywordLetter d).isUpper) rfl d hd] at hupper
    exact Bool.false_ne_true hupper
  have hoperator : operatorWordWidth (front ++ back) = operatorWordWidth front := by
    refine firstWidth_congr fun text htext => wholeWord_seam hboundary fun d hd => ?_
    have hall : (cutters.all fun d => operatorWords.all fun text => !text.toList.contains (id d)) =
        true := by decide
    simpa using all_eq_true.mp (all_eq_true.mp hall d (h.cut d hd)) text htext
  have hname : nameWidth (front ++ back) = nameWidth front := by
    cases front with
    | nil => exact absurd rfl hfront
    | cons c front =>
      rw [cons_append, nameWidth, nameWidth, runWidth_seam (hclass rfl)]
  have hnumber : numberWidth (front ++ back) = numberWidth front := by
    have hhex := hexWidth_seam hfront (hclass (p := fun d => d == 'x' || d == 'X') rfl)
      (hclass (p := isHexDigit) rfl)
    rw [numberWidth, numberWidth, hhex, runWidth_seam (hclass rfl)]
  have hbreaks : runWidth isBreak (front ++ back) = runWidth isBreak front := by
    cases front with
    | nil => exact absurd rfl hfront
    | cons c front =>
      have hc := h.line c mem_cons_self
      simp [runWidth, hc]
  simp only [table, forall_mem_cons, not_mem_nil, false_imp_iff, implies_true, and_true]
  exact ⟨hkeyword, commentWidth_seam h hfront, runWidth_seam (hclass rfl),
    hsymbol rfl, hliteral rfl, hoperator, hname, hnumber, hbreaks,
    hliteral rfl, hsymbol rfl, hsymbol rfl, hsymbol rfl,
    hsymbol rfl⟩

theorem firstMatch?_seam (h : Seam front back) (hfront : front ≠ []) :
    firstMatch? (front ++ back) = firstMatch? front := by
  have hwidths := table_seam h hfront
  have hfind : (table.find? fun rule => rule.width (front ++ back) != 0) =
      table.find? fun rule => rule.width front != 0 := by
    refine find?_congr fun rule hrule => ?_
    rw [hwidths rule hrule]
  rw [firstMatch?, firstMatch?, hfind]
  cases hfound : table.find? fun rule => rule.width front != 0 with
  | none => rfl
  | some rule => rw [Option.map_some, Option.map_some, hwidths rule (mem_of_find?_eq_some hfound)]

theorem eq_lineBreak_of_mem {rule : LexicalRule} (hrule : rule ∈ table) (h : rule.kind = .lineBreak) :
    rule = ⟨.lineBreak, runWidth isBreak⟩ := by
  simp only [table, mem_cons, not_mem_nil, or_false] at hrule
  rcases hrule with rfl | rfl | rfl | rfl | rfl | rfl | rfl | rfl | rfl | rfl | rfl | rfl | rfl | rfl
  all_goals first | rfl | cases h

theorem firstMatch?_breaks (hne : breaks ≠ []) (hbreaks : ∀ c ∈ breaks, isBreak c = true)
    (hrest : ∀ c ∈ rest.head?, isBreak c = false) :
    firstMatch? (breaks ++ rest) = some (.lineBreak, breaks.length) := by
  have hwidth : runWidth isBreak (breaks ++ rest) = breaks.length := by
    have hend : runWidth isBreak rest = 0 := Nat.le_zero.mp (runWidth_le hrest)
    rw [runWidth_append hbreaks, hend, Nat.add_zero]
  cases hfound : table.find? fun rule => rule.width (breaks ++ rest) != 0 with
  | none =>
    have hnone := find?_eq_none.mp hfound ⟨.lineBreak, runWidth isBreak⟩ (by simp only [table, mem_cons]; tauto)
    simp [hwidth, hne] at hnone
  | some rule =>
    have hmatch : firstMatch? (breaks ++ rest) = some (rule.kind, rule.width (breaks ++ rest)) := by
      rw [firstMatch?, hfound, Option.map_some]
    obtain ⟨hpositive, -, hspells, -⟩ := firstMatch?_sound hmatch
    have hkind : rule.kind = .lineBreak := by
      obtain ⟨c, breaks, rfl⟩ := exists_cons_of_ne_nil hne
      obtain ⟨n, hn⟩ := Nat.exists_eq_succ_of_ne_zero hpositive
      rw [hn, cons_append, take_succ_cons] at hspells
      exact hspells.eq_lineBreak (hbreaks c mem_cons_self)
    rw [hmatch, eq_lineBreak_of_mem (mem_of_find?_eq_some hfound) hkind]
    exact congrArg (fun width => some (TokenKind.lineBreak, width)) hwidth

end LexicalRule

/-! ### Texts that are split -/

/-- A text is split into tokens, wherever they stand. -/
inductive Lexed : List Char → List Token → Prop
  | nil : Lexed [] []
  | cons {t cs tokens} (hmatch : firstMatch? (t.raw.toList ++ cs) = some (t.kind, t.raw.length))
      (hplain : t.kind = .spaces → mixes t.raw.toList = false) (hrest : Lexed cs tokens) :
      Lexed (t.raw.toList ++ cs) (t :: tokens)

theorem lexed_of_tokensFrom {l : Location} {tokens : List Token} (h : tokensFrom l cs = (tokens, none)) :
    Lexed cs tokens := by
  induction tokens generalizing l cs with
  | nil =>
    rw [eq_nil_of_tokensFrom h]
    exact .nil
  | cons t tokens ih =>
    have hplain := tokensFrom_unmixed l cs t (by rw [h]; exact mem_cons_self)
    obtain ⟨hmatch, l', rest, rfl, hrest⟩ := tokensFrom_cons h
    exact .cons hmatch hplain (ih hrest)

namespace Lexed

variable {t : Token} {tokens : List Token}

theorem chars_eq (h : Lexed cs tokens) : cs = chars tokens := by
  induction h with
  | nil => rfl
  | cons _ _ _ ih => rw [chars_cons, ← ih]

theorem raw_ne_nil (h : firstMatch? (t.raw.toList ++ cs) = some (t.kind, t.raw.length)) : t.raw.toList ≠ [] := by
  have hwidth := (firstMatch?_sound h).1
  rwa [← length_toList, ne_eq, List.length_eq_zero_iff] at hwidth

theorem spelled (h : Lexed cs tokens) : ∀ t ∈ tokens, t.raw.toList ≠ [] ∧ t.kind.Spells t.raw.toList := by
  induction h with
  | nil => simp
  | @cons t cs tokens hmatch hplain hrest ih =>
    rw [forall_mem_cons]
    have hspells := (firstMatch?_sound hmatch).2.2.1
    rw [← length_toList, take_left] at hspells
    exact ⟨⟨raw_ne_nil hmatch, hspells⟩, ih⟩

theorem tokensFrom_none (h : Lexed cs tokens) (l : Location) : ∃ found, tokensFrom l cs = (found, none) := by
  induction h generalizing l with
  | nil => exact ⟨[], by rw [tokensFrom.eq_def l []]⟩
  | @cons t cs tokens hmatch hplain hrest ih =>
    obtain ⟨c, more, hraw⟩ := exists_cons_of_ne_nil (raw_ne_nil hmatch)
    have hlength : t.raw.length - 1 = more.length := by
      rw [← length_toList, hraw, length_cons, Nat.add_sub_cancel]
    have hmixed : (t.kind == .spaces && mixes (c :: more)) = false := by
      rw [Bool.and_eq_false_imp, beq_iff_eq, ← hraw]
      exact hplain
    obtain ⟨found, hfound⟩ := ih (after l (c :: more))
    rw [hraw, cons_append] at hmatch ⊢
    refine ⟨⟨t.kind, String.ofList (c :: more), l⟩ :: found, ?_⟩
    rw [tokensFrom.eq_def l (c :: _)]
    simp only [hmatch, hlength, take_left, drop_left, hmixed, hfound, Bool.false_eq_true, if_false]

theorem first (h : Lexed cs tokens) (hcs : cs ≠ []) :
    ∃ t rest others, cs = t.raw.toList ++ rest ∧ tokens = t :: others ∧
      firstMatch? cs = some (t.kind, t.raw.length) ∧
      (t.kind = .spaces → mixes t.raw.toList = false) ∧ Lexed rest others := by
  cases h with
  | nil => exact absurd rfl hcs
  | @cons t rest others hmatch hplain hrest =>
    exact ⟨t, rest, others, rfl, rfl, hmatch, hplain, hrest⟩

theorem eq_nil (h : Lexed [] tokens) : tokens = [] := by
  generalize hcs : ([] : List Char) = cs at h
  cases h with
  | nil => rfl
  | cons hmatch _ _ => exact absurd (append_eq_nil_iff.mp hcs.symm).1 (raw_ne_nil hmatch)

theorem alike {others : List Token} (h : Lexed cs tokens) (h' : Lexed cs others) :
    Forall₂ Alike tokens others := by
  induction h generalizing others with
  | nil =>
    rw [h'.eq_nil]
    exact .nil
  | @cons t cs tokens hmatch hplain hrest ih =>
    obtain ⟨u, rest, others, hcs, rfl, hmatch', -, hrest'⟩ :=
      h'.first (append_ne_nil_of_left_ne_nil (raw_ne_nil hmatch) cs)
    obtain ⟨hkind, hlength⟩ := Prod.mk.inj (Option.some.inj (hmatch.symm.trans hmatch'))
    rw [← length_toList, ← length_toList] at hlength
    obtain ⟨hraw, rfl⟩ := append_inj hcs hlength
    exact .cons ⟨hkind, toList_inj.mp hraw⟩ (ih hrest')

theorem split (h : Lexed (front ++ back) tokens) (hseam : Seam front back) :
    ∃ before after, tokens = before ++ after ∧ Lexed front before ∧ Lexed back after := by
  generalize hcs : front ++ back = cs at h
  induction h generalizing front with
  | nil =>
    obtain ⟨rfl, rfl⟩ := append_eq_nil_iff.mp hcs
    exact ⟨[], [], rfl, .nil, .nil⟩
  | @cons t cs tokens hmatch hplain hrest ih =>
    by_cases hfront : front = []
    · subst hfront
      obtain rfl : back = t.raw.toList ++ cs := hcs
      exact ⟨[], t :: tokens, rfl, .nil, .cons hmatch hplain hrest⟩
    · -- the lexeme ends before the seam
      rw [← hcs, firstMatch?_seam hseam hfront] at hmatch
      have hlength := le_length_of_firstMatch? hmatch
      rw [← length_toList] at hlength
      obtain ⟨rest, rfl⟩ : t.raw.toList <+: front :=
        prefix_of_prefix_length_le ⟨cs, hcs.symm⟩ (prefix_append front back) hlength
      rw [List.append_assoc] at hcs
      obtain ⟨before, after, rfl, hbefore, hafter⟩ := ih hseam.drop (append_cancel_left hcs)
      exact ⟨t :: before, after, rfl, .cons hmatch hplain hbefore, hafter⟩

theorem join (h : Lexed front before) (hseam : Seam front back) (hback : Lexed back after) :
    Lexed (front ++ back) (before ++ after) := by
  induction h with
  | nil => exact hback
  | @cons t cs tokens hmatch hplain hrest ih =>
    have hne : t.raw.toList ++ cs ≠ [] := append_ne_nil_of_left_ne_nil (raw_ne_nil hmatch) cs
    rw [← firstMatch?_seam hseam hne] at hmatch
    rw [List.append_assoc] at hmatch ⊢
    exact .cons hmatch hplain (ih hseam.drop)

theorem of_seam (h : Lexed cs (before ++ after)) (hseam : Seam (chars before) (chars after)) :
    Lexed (chars before) before := by
  induction before generalizing cs with
  | nil => exact .nil
  | cons t before ih =>
    cases h with
    | @cons _ rest _ hmatch hplain hrest =>
      have hne : chars (t :: before) ≠ [] := by
        rw [chars_cons]
        exact append_ne_nil_of_left_ne_nil (raw_ne_nil hmatch) _
      have htext : rest = chars before ++ chars after :=
        hrest.chars_eq.trans (flatMap_append)
      rw [htext, ← List.append_assoc, ← Token.chars_cons, firstMatch?_seam hseam hne, chars_cons] at hmatch
      rw [chars_cons] at hseam
      exact .cons hmatch hplain (ih hrest hseam.drop)

theorem of_suffix {later : List Token} (h : Lexed cs tokens) (hlater : later <:+ tokens) :
    Lexed (chars later) later := by
  induction h with
  | nil =>
    rw [suffix_nil.mp hlater]
    exact .nil
  | @cons t cs tokens hmatch hplain hrest ih =>
    rcases suffix_cons_iff.mp hlater with rfl | hlater
    · rw [chars_cons, ← hrest.chars_eq]
      exact .cons hmatch hplain hrest
    · exact ih hlater

theorem isBreak_chars {t : Token} {rest : List Token} (hkind : t.kind = .lineBreak)
    (hraw : t.raw.toList ≠ [] ∧ t.kind.Spells t.raw.toList) :
    ∀ d ∈ (chars (t :: rest)).head?, isBreak d = true := by
  obtain ⟨hne, hspells⟩ := hraw
  obtain ⟨c, more, hc⟩ := exists_cons_of_ne_nil hne
  rw [hkind, hc] at hspells
  rw [chars_cons, hc]
  intro d hd
  obtain rfl : c = d := Option.some.inj hd
  exact hspells c mem_cons_self

theorem of_mem_lines (h : Lexed cs tokens) : ∀ l ∈ sourceLines tokens, Lexed (chars l) l := by
  induction hn : tokens.length using Nat.strong_induction_on generalizing cs tokens with
  | _ n ih =>
    intro l hl
    by_cases hne : tokens = []
    · simp [hne] at hl
    rw [sourceLines_eq, mem_append] at hl
    rcases hl with hl | hl
    · have hline : l = lineTokens tokens := by
        split_ifs at hl
        · exact absurd hl not_mem_nil
        · exact mem_singleton.mp hl
      have hspelled := h.spelled
      have honline : OnLine (lineTokens tokens) := fun t ht =>
        ⟨not_break_of_mem_lineTokens ht, hspelled t ((List.takeWhile_prefix _).subset ht)⟩
      rw [hline]
      rw [lineTokens_append_dropWhile tokens] at h
      refine h.of_seam (seam_break honline.chars_break ?_)
      cases hrest : tokens.dropWhile (fun t => t.kind != .lineBreak) with
      | nil => simp [Token.chars]
      | cons t rest =>
        have hkind := head?_dropWhile_not (fun t : Token => t.kind != .lineBreak) tokens
        have ht : t ∈ tokens := (dropWhile_suffix _).subset (hrest ▸ mem_cons_self)
        rw [hrest] at hkind
        exact isBreak_chars (by simpa using hkind) (hspelled t ht)
    · exact ih _ (hn ▸ afterLine_length_lt hne) (h.of_suffix (afterLine_suffix tokens)) rfl l hl

end Lexed

def Lexable (cs : List Char) : Prop := ∃ tokens, Lexed cs tokens

theorem lexable_append (h : Seam front back) : Lexable (front ++ back) ↔ Lexable front ∧ Lexable back := by
  constructor
  · rintro ⟨tokens, htokens⟩
    obtain ⟨before, after, -, hbefore, hafter⟩ := htokens.split h
    exact ⟨⟨before, hbefore⟩, after, hafter⟩
  · rintro ⟨⟨before, hbefore⟩, after, hafter⟩
    exact ⟨before ++ after, hbefore.join h hafter⟩

theorem lexable_breaks_append (hne : breaks ≠ []) (hbreaks : ∀ c ∈ breaks, isBreak c = true)
    (hrest : ∀ c ∈ rest.head?, isBreak c = false) :
    Lexable (breaks ++ rest) ↔ Lexable rest := by
  have hmatch := firstMatch?_breaks hne hbreaks hrest
  constructor
  · rintro ⟨tokens, htokens⟩
    obtain ⟨t, after, others, hcs, -, hfirst, -, hafter⟩ :=
      htokens.first (append_ne_nil_of_left_ne_nil hne rest)
    obtain ⟨-, hlength⟩ := Prod.mk.inj (Option.some.inj (hmatch.symm.trans hfirst))
    rw [← length_toList] at hlength
    obtain ⟨-, rfl⟩ := append_inj hcs hlength
    exact ⟨others, hafter⟩
  · rintro ⟨tokens, htokens⟩
    let t : Token := ⟨.lineBreak, String.ofList breaks, ⟨"", 1, 1⟩⟩
    have htext : t.raw.toList = breaks := toList_ofList
    have hlexeme : firstMatch? (t.raw.toList ++ rest) = some (t.kind, t.raw.length) := by
      rw [htext, hmatch, length_ofList]
    rw [← htext]
    exact ⟨t :: tokens, .cons hlexeme (fun hkind => TokenKind.noConfusion hkind) htokens⟩

theorem lexable_dropWhile (cs : List Char) : Lexable (cs.dropWhile isBreak) ↔ Lexable cs := by
  have hsplit : cs.takeWhile isBreak ++ cs.dropWhile isBreak = cs := takeWhile_append_dropWhile
  by_cases hnone : cs.takeWhile isBreak = []
  · rw [hnone, nil_append] at hsplit
    rw [hsplit]
  · rw [← lexable_breaks_append hnone (fun c hc => mem_takeWhile_imp hc)
      (fun c hc => head?_dropWhile_false hc), hsplit]

theorem lexable_breaks (h : ∀ c ∈ breaks, isBreak c = true) (cs : List Char) :
    Lexable (breaks ++ cs) ↔ Lexable cs := by
  rw [← lexable_dropWhile, dropWhile_append_of_pos h, lexable_dropWhile]

theorem tokenize_of_lexable {source : String} (h : Lexable source.toList) (file : String) :
    ∃ tokens, tokenize source file = .ok tokens := by
  obtain ⟨tokens, htokens⟩ := h
  obtain ⟨found, hfound⟩ := htokens.tokensFrom_none ⟨file, 1, 1⟩
  exact ⟨found, by rw [tokenize, hfound]⟩

end CirOutline
