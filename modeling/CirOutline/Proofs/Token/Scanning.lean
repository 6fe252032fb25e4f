import CirOutline.Proofs.Layout.Outlined
import CirOutline.Proofs.Token.Lexeme

/-!
What the tokens of a text look like. `Tokenized` puts lexemes together to a text: each is one of its
class, and what may follow it does. All facts about the tokens of a text are read off it by induction.
-/

namespace CirOutline

open String Token

variable {a b : Location} {file source : String} {image : Char → Char} {lexeme line : List Char}
  {p : Char → Bool} {run : List Token}

open String
open List hiding after

variable {pattern : String} {cs rest : List Char} {c : Char} {kind : TokenKind}
  {tokens : List Token} {l : Location}

open Scan

/-! ### Texts and their tokens -/

/-- From a place on, a text is the lexemes of tokens and a rest. -/
inductive Tokenized : Location → List Char → List Token → List Char → Prop
  | nil (l : Location) (rest : List Char) : Tokenized l rest [] rest
  | cons {l : Location} {kind : TokenKind} {lexeme cs rest : List Char} {tokens : List Token}
      (hne : lexeme ≠ []) (hspells : kind.Spells lexeme) (hprecedes : kind.Precedes cs)
      (hcs : Tokenized (after l lexeme) cs tokens rest) :
      Tokenized l (lexeme ++ cs) (⟨kind, ofList lexeme, l⟩ :: tokens) rest

/-- Why scanning stops in front of the rest of a text: nothing is left, no rule takes the next
character, or the longest run of white space there has both tabs and spaces. -/
inductive Scan.Stops : List Char → Option Fault → Prop
  | done : Stops [] none
  | unknown {c : Char} {cs : List Char} (hrules : ∀ rule ∈ LexicalRule.table, rule.width (c :: cs) = 0) :
      Stops (c :: cs) (some (.unknownCharacter c))
  | mixed {run cs : List Char} (hspace : ' ' ∈ run) (htab : '\t' ∈ run)
      (hgap : ∀ c ∈ run, isGap c = true) (hlongest : ∀ c ∈ cs.head?, isGap c = false) :
      Stops (run ++ cs) (some .mixedIndentation)

theorem Scan.tokensFrom_stops (l : Location) (cs : List Char) :
    ∃ rest, Tokenized l cs (tokensFrom l cs).1 rest ∧ Stops rest ((tokensFrom l cs).2.map Problem.fault) := by
  fun_induction tokensFrom l cs with
  | case1 l => exact ⟨[], .nil l [], .done⟩
  | case2 l c rest hmatch =>
    refine ⟨c :: rest, .nil l _, .unknown fun rule hrule => ?_⟩
    have hnone := find?_eq_none.mp (Option.map_eq_none_iff.mp hmatch) rule hrule
    simpa using hnone
  | case3 l c rest kind width hmatch lexeme hmixed =>
    obtain ⟨hwidth, -, hspells, hprecedes⟩ := LexicalRule.firstMatch?_sound hmatch
    obtain ⟨n, rfl⟩ := Nat.exists_eq_succ_of_ne_zero hwidth
    obtain ⟨hkind, hmixes⟩ := Bool.and_eq_true_iff.mp hmixed
    obtain rfl := beq_iff_eq.mp hkind
    have hsplit : c :: rest = lexeme ++ rest.drop n := by
      rw [cons_append, Nat.succ_sub_one, take_append_drop]
    refine ⟨c :: rest, .nil l _, ?_⟩
    rw [mixes, Bool.and_eq_true_iff, contains_iff_mem, contains_iff_mem] at hmixes
    rw [hsplit]
    exact .mixed hmixes.1 hmixes.2 hspells hprecedes
  | case4 l c rest kind width hmatch lexeme hmixed tokens problem hrest ih =>
    obtain ⟨after, htokens, hstop⟩ := ih
    obtain ⟨hwidth, -, hspells, hprecedes⟩ := LexicalRule.firstMatch?_sound hmatch
    obtain ⟨n, rfl⟩ := Nat.exists_eq_succ_of_ne_zero hwidth
    rw [hrest] at htokens hstop
    have hsplit : c :: rest = lexeme ++ rest.drop n := by
      rw [cons_append, Nat.succ_sub_one, take_append_drop]
    refine ⟨after, ?_, hstop⟩
    rw [hsplit]
    exact .cons (cons_ne_nil c _) hspells hprecedes htokens

theorem tokenize_tokenized (h : tokenize source file = .ok tokens) :
    Tokenized ⟨file, 1, 1⟩ source.toList tokens [] := by
  obtain ⟨rest, htokens, hstop⟩ := Scan.tokensFrom_stops ⟨file, 1, 1⟩ source.toList
  rw [tokenize] at h
  split at h
  · next found hfound =>
    obtain rfl := Except.ok.inj h
    rw [hfound] at htokens hstop
    cases hstop
    exact htokens
  · cases h

/-! ### Tokens of a text -/

theorem TokenKind.Spells.ink (h : kind.Spells lexeme) (hspaces : kind ≠ .spaces) (hbreak : kind ≠ .lineBreak) :
    (∀ c ∈ lexeme, isBreak c = false) ∧ ∀ c ∈ lexeme.head?, isGap c = false := by
  have hsymbol : ofList lexeme ∈ kind.symbols →
      (∀ c ∈ lexeme, isBreak c = false) ∧ ∀ c ∈ lexeme.head?, isGap c = false := by
    intro hmem
    have hall : (kind.symbols.all fun p => p.toList.all fun c => !isBreak c && !isGap c) = true := by
      cases kind <;> decide
    have hsolid : ∀ c ∈ lexeme, isBreak c = false ∧ isGap c = false := by
      intro c hc
      have htext := all_eq_true.mp hall _ hmem
      rw [toList_ofList] at htext
      simpa using all_eq_true.mp htext c hc
    exact ⟨fun c hc => (hsolid c hc).1, fun c hc => (hsolid c (mem_of_mem_head? hc)).2⟩
  cases kind <;> first | exact hsymbol h | exact h | contradiction

theorem TokenKind.Spells.eq_lineBreak (h : kind.Spells (c :: cs)) (hc : isBreak c = true) : kind = .lineBreak := by
  by_contra hbreak
  by_cases hspaces : kind = .spaces
  · subst hspaces
    have hgap := h c mem_cons_self
    simp only [isBreak, isGap, Bool.or_eq_true, beq_iff_eq] at hc hgap
    rcases hc with rfl | rfl <;> simp at hgap
  · have hline := (h.ink hspaces hbreak).1 c mem_cons_self
    rw [hc] at hline
    exact Bool.noConfusion hline

namespace Tokenized

theorem head_kind {t : Token} (h : Tokenized l cs (t :: tokens) rest) :
    ∃ c more, cs = c :: more ∧ (isBreak c = true ↔ t.kind = .lineBreak) ∧
      (isGap c = false → t.kind ≠ .spaces) := by
  cases h with
  | @cons l kind lexeme cs rest tokens hne hspells hprecedes hcs =>
    cases lexeme with
    | nil => exact absurd rfl hne
    | cons c lexeme =>
      refine ⟨c, lexeme ++ cs, rfl, ⟨hspells.eq_lineBreak, ?_⟩, ?_⟩
      · rintro rfl
        exact hspells c mem_cons_self
      · rintro hgap rfl
        rw [hspells c mem_cons_self] at hgap
        exact Bool.noConfusion hgap

section

variable (h : Tokenized l cs tokens rest)
include h

/-- Each token and its neighbour: white space comes in one piece, a comment is the last token of its
line, and line ends come in one piece. -/
theorem neighbours :
    tokens.IsChain fun a b =>
      (a.kind = .spaces → b.kind ≠ .spaces) ∧ (a.kind = .comment → b.kind = .lineBreak) ∧
        (a.kind = .lineBreak → b.kind ≠ .lineBreak) := by
  induction h with
  | nil => exact .nil
  | @cons l kind lexeme cs rest tokens hne hspells hprecedes hcs ih =>
    cases tokens with
    | nil => exact .singleton _
    | cons t tokens =>
      obtain ⟨c, more, rfl, hbreak, hgap⟩ := hcs.head_kind
      refine .cons_cons ⟨?_, ?_, ?_⟩ ih
      · rintro rfl
        exact hgap (hprecedes c rfl)
      · rintro rfl
        exact hbreak.mp (hprecedes c rfl)
      · rintro rfl hkind
        have hline : isBreak c = false := hprecedes c rfl
        rw [hbreak.mpr hkind] at hline
        exact Bool.noConfusion hline

theorem scanned : Scanned tokens where
  breaks := by
    induction h with
    | nil => simp [PlainBreaks]
    | @cons l kind lexeme cs rest tokens hne hspells hprecedes hcs ih =>
      intro t ht
      rcases mem_cons.mp ht with rfl | ht
      · rintro rfl hraw
        have hlexeme : lexeme = ['['] := ofList_injective hraw
        rw [hlexeme] at hspells
        exact absurd (hspells '[' mem_cons_self) (by decide)
      · exact ih t ht
  spaces := by
    induction h with
    | nil => simp
    | @cons l kind lexeme cs rest tokens hne hspells hprecedes hcs ih =>
      intro t ht
      rcases mem_cons.mp ht with rfl | ht
      · intro _
        rw [length_ofList]
        exact length_pos_iff.mpr hne
      · exact ih t ht
  apart := h.neighbours.imp fun _ _ hab => hab.1

theorem symbol_raw : ∀ t ∈ tokens, t.kind.symbols ≠ [] → t.raw ∈ t.kind.symbols := by
  induction h with
  | nil => simp
  | @cons l kind lexeme cs rest tokens hne hspells hprecedes hcs ih =>
    intro t ht hsymbols
    rcases mem_cons.mp ht with rfl | ht
    · cases kind <;> first | exact hspells | exact absurd rfl hsymbols
    · exact ih t ht hsymbols

end

end Tokenized

/-! ### Places -/

def Location.Before (a b : Location) : Prop :=
  a.line < b.line ∨ a.line = b.line ∧ a.column < b.column

theorem Location.Before.trans {c : Location} (hab : a.Before b) (hbc : b.Before c) : a.Before c := by
  unfold Location.Before at *
  omega

theorem Location.Before.ne (h : a.Before b) : a ≠ b := by
  rintro rfl
  unfold Location.Before at h
  omega

theorem before_after (l : Location) (h : lexeme ≠ []) : l.Before (after l lexeme) := by
  have hpos := length_pos_iff.mpr h
  rw [after]
  split
  · exact .inr ⟨rfl, show l.column < l.column + lexeme.length by omega⟩
  · next ends _ => exact .inl (show l.line < l.line + (ends + 1 : Nat) by omega)

theorem Tokenized.ordered (h : Tokenized l cs tokens rest) : (∀ t ∈ tokens, t.location = l ∨ l.Before t.location) ∧
      tokens.Pairwise fun a b => a.location.Before b.location := by
  induction h with
  | nil => exact ⟨by simp, .nil⟩
  | @cons l kind lexeme cs rest tokens hne hspells hprecedes hcs ih =>
    have hafter : ∀ t ∈ tokens, l.Before t.location := by
      intro t ht
      rcases ih.1 t ht with heq | hbefore
      · rw [heq]
        exact before_after l hne
      · exact (before_after l hne).trans hbefore
    refine ⟨?_, .cons hafter ih.2⟩
    intro t ht
    rcases mem_cons.mp ht with rfl | ht
    · exact .inl rfl
    · exact .inr (hafter t ht)

/-! ### The lines of a text -/

def Token.chars (run : List Token) : List Char := run.flatMap fun t => t.raw.toList

theorem Token.chars_cons (t : Token) (run : List Token) : chars (t :: run) = t.raw.toList ++ chars run := rfl

def textLines (cs : List Char) : List (List Char) :=
  (cs.splitOnP isBreak).filter fun line => !line.all isGap

theorem textLines_of_line (h : ∀ c ∈ line, isBreak c = false) :
    textLines line = if line.all isGap = true then [] else [line] := by
  rw [textLines, splitOnP_eq_singleton h]
  cases hgap : line.all isGap <;> simp [hgap]

theorem textLines_append_break (h : ∀ c ∈ line, isBreak c = false) (hc : isBreak c = true) (rest : List Char) :
    textLines (line ++ c :: rest) = (if line.all isGap = true then [] else [line]) ++ textLines rest := by
  rw [textLines, splitOnP_append_cons_of_forall_mem h c hc, filter_cons, textLines]
  cases hgap : line.all isGap <;> simp

theorem textLines_breaks {breaks : List Char} (h : ∀ c ∈ breaks, isBreak c = true) (rest : List Char) :
    textLines (breaks ++ rest) = textLines rest := by
  induction breaks with
  | nil => rfl
  | cons c breaks ih =>
    have hfirst : textLines (c :: (breaks ++ rest)) = [] ++ textLines (breaks ++ rest) :=
      textLines_append_break (fun d hd => absurd hd not_mem_nil) (h c mem_cons_self) _
    rw [cons_append, hfirst, nil_append, ih fun d hd => h d (mem_cons_of_mem _ hd)]

def Token.OnLine (run : List Token) : Prop :=
  ∀ t ∈ run, t.kind ≠ .lineBreak ∧ t.raw.toList ≠ [] ∧ t.kind.Spells t.raw.toList

theorem Token.OnLine.chars_break (h : OnLine run) : ∀ c ∈ chars run, isBreak c = false := by
  intro c hc
  obtain ⟨t, ht, hct⟩ := mem_flatMap.mp hc
  obtain ⟨hkind, -, hspells⟩ := h t ht
  by_cases hspaces : t.kind = .spaces
  · rw [hspaces] at hspells
    have hgap := hspells c hct
    simp only [isGap, Bool.or_eq_true, beq_iff_eq] at hgap
    rcases hgap with rfl | rfl <;> decide
  · exact (hspells.ink hspaces hkind).1 c hct

theorem Token.OnLine.blank_iff (h : OnLine run) : (chars run).all isGap = true ↔ ink run = [] := by
  rw [all_eq_true, ink, filter_eq_nil_iff]
  refine ⟨fun hgap t ht => ?_, fun hink c hc => ?_⟩
  · obtain ⟨hkind, hne, hspells⟩ := h t ht
    by_contra hspaces
    obtain ⟨c, hc⟩ : ∃ c, c ∈ t.raw.toList.head? := by
      cases hraw : t.raw.toList with
      | nil => exact absurd hraw hne
      | cons c cs => exact ⟨c, rfl⟩
    have hsolid := (hspells.ink (by simpa using hspaces) hkind).2 c hc
    rw [hgap c (mem_flatMap.mpr ⟨t, ht, mem_of_mem_head? hc⟩)] at hsolid
    exact Bool.noConfusion hsolid
  · obtain ⟨t, ht, hct⟩ := mem_flatMap.mp hc
    have hspells := (h t ht).2.2
    have hspaces : t.kind = .spaces := by simpa using hink t ht
    rw [hspaces] at hspells
    exact hspells c hct

theorem Tokenized.textLines_append (h : Tokenized l cs tokens rest) (hrest : rest = [])
    (run : List Token) (hrun : OnLine run) :
    (sourceLines (run ++ tokens)).map chars = textLines (chars run ++ cs) := by
  have hbreak : ∀ t ∈ run, t.kind ≠ .lineBreak := fun t ht => (hrun t ht).1
  induction h generalizing run with
  | nil =>
    subst hrest
    rw [append_nil, append_nil, textLines_of_line hrun.chars_break, sourceLines_eq]
    have hline : lineTokens run = run := by simpa using lineTokens_append hbreak []
    have hafter : afterLine run = [] := by simpa using afterLine_append hbreak []
    simp only [lineInk, hline, hafter, hrun.blank_iff]
    split_ifs <;> rfl
  | @cons l kind lexeme cs rest tokens hne hspells hprecedes hcs ih =>
    by_cases hkind : kind = .lineBreak
    · subst hkind
      cases lexeme with
      | nil => exact absurd rfl hne
      | cons c lexeme =>
        have hrest := ih hrest [] (by simp [OnLine]) (by simp)
        rw [nil_append] at hrest
        rw [cons_append, textLines_append_break hrun.chars_break (hspells c mem_cons_self),
          textLines_breaks (fun d hd => hspells d (mem_cons_of_mem _ hd)), sourceLines_eq,
          lineInk_append hbreak, lineInk_break rfl, append_nil, lineTokens_append hbreak,
          lineTokens_break rfl, append_nil, afterLine_append hbreak, afterLine_break rfl,
          map_append, hrest]
        simp only [hrun.blank_iff]
        split_ifs <;> rfl
    · have htoken : OnLine [⟨kind, ofList lexeme, l⟩] := by
        simpa [OnLine] using ⟨hkind, hne, hspells⟩
      have hline : OnLine (run ++ [⟨kind, ofList lexeme, l⟩]) := fun t ht =>
        (mem_append.mp ht).elim (hrun t) (htoken t)
      have hmore := ih hrest _ hline fun t ht => (hline t ht).1
      have hchars : chars [⟨kind, ofList lexeme, l⟩] = lexeme := by
        simp [Token.chars]
      rw [List.append_assoc, singleton_append, Token.chars, flatMap_append, List.append_assoc] at hmore
      rw [hmore, Token.chars]
      exact congrArg textLines (congrArg _ (congrArg (· ++ cs) hchars))

theorem tokenize_textLines (h : tokenize source file = .ok tokens) :
    (sourceLines tokens).map chars = textLines source.toList :=
  (tokenize_tokenized h).textLines_append rfl [] (by simp [OnLine])

theorem Tokenized.spelled (h : Tokenized l cs tokens rest) :
    ∀ t ∈ tokens, t.raw.toList ≠ [] ∧ t.kind.Spells t.raw.toList := by
  induction h with
  | nil => simp
  | @cons l kind lexeme cs rest tokens hne hspells hprecedes hcs ih =>
    intro t ht
    rcases mem_cons.mp ht with rfl | ht
    · rw [toList_ofList]
      exact ⟨hne, hspells⟩
    · exact ih t ht

theorem Tokenized.width_eq {line : SourceLine} (h : Tokenized l cs tokens rest)
    (hline : line ∈ sourceLines tokens) :
    line.width = ((chars line).takeWhile isGap).length := by
  obtain ⟨hpiece, hbreak, hink⟩ := of_mem_sourceLines hline
  have hspelled := fun t ht => h.spelled t (hpiece.subset ht)
  -- a token with ink starts with a character that is not white space
  have hsolid : ∀ t more, t ∈ line → t.kind ≠ .spaces →
      (chars (t :: more)).takeWhile isGap = [] := by
    intro t more ht hspaces
    obtain ⟨hne, hspells⟩ := hspelled t ht
    have hstart := (hspells.ink hspaces (hbreak t ht)).2
    rw [Token.chars, flatMap_cons]
    cases hraw : t.raw.toList with
    | nil => exact absurd hraw hne
    | cons c cs =>
      rw [hraw] at hstart
      rw [cons_append, takeWhile_cons, hstart c rfl]
      rfl
  cases line with
  | nil => exact absurd rfl hink
  | cons t more =>
    by_cases hspaces : t.kind = .spaces
    · have hgap : ∀ c ∈ t.raw.toList, isGap c = true := by
        have hspells := (hspelled t mem_cons_self).2
        rwa [hspaces] at hspells
      have hmore : (chars more).takeWhile isGap = [] := by
        cases more with
        | nil => rfl
        | cons u rest =>
          have hchain := List.IsChain.infix h.scanned.apart hpiece
          have hapart := hchain.rel hspaces
          exact hsolid u rest (by simp) hapart
      rw [chars_cons, takeWhile_append_of_pos hgap, hmore, append_nil, length_toList, SourceLine.width, hspaces]
      rfl
    · rw [hsolid t more mem_cons_self hspaces, SourceLine.width, if_neg (by simpa using hspaces)]
      rfl

end CirOutline
