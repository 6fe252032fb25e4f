import CirOutline.Proofs.Expression.Rendering

/-!
The identifiers of C text. A character with which no identifier, number or comment starts can be left
out of a text without changing its identifiers, whichever punctuators it is read into, so the rendering
of a run has the words and keywords of the run as its identifiers even where its signs are read together.
-/

namespace CirOutline

open List

variable {run : List Token} {c : Char} {rest : List Char} {t : Token}

namespace CToken

open LexicalRule (literalWidth)

def isIdentifier (token : String) : Bool := token.toList.head?.any startsIdentifier

def identifiers (cs : List Char) : List String := (lex cs).filter isIdentifier

def isIdle (c : Char) : Bool := !startsIdentifier c && !c.isDigit && c != '.' && c != '/'

theorem punctuator_of_width {cs : List Char} (h : punctuatorWidth cs ≠ 0) :
    ∃ p ∈ punctuators, p.toList <+: cs ∧ punctuatorWidth cs = p.toList.length := by
  have hmem : ∀ widths : List Nat, widths.foldr max 0 = 0 ∨ widths.foldr max 0 ∈ widths := by
    intro widths
    induction widths with
    | nil => exact .inl rfl
    | cons width widths ih =>
      rw [foldr_cons, mem_cons]
      rcases max_choice width (widths.foldr max 0) with hmax | hmax
      · exact .inr (.inl hmax)
      · rw [hmax]
        exact ih.imp_right .inr
  obtain ⟨p, hp, hwidth⟩ := mem_map.mp ((hmem _).resolve_left h)
  change literalWidth p cs = punctuatorWidth cs at hwidth
  have hstart := prefix_of_literalWidth (hwidth ▸ h)
  exact ⟨p, hp, hstart, hwidth ▸ literalWidth_of_start hstart⟩

theorem isIdle_of_mem_tail {p : String} (hp : p ∈ punctuators)
    (htext : p.toList = c :: rest) (hc : isIdle c = true) : ∀ d ∈ rest, isIdle d = true := by
  have hall : (punctuators.all fun p => !p.toList.head?.any isIdle || p.toList.tail.all isIdle) = true := by
    decide
  have hfirst := all_eq_true.mp hall p hp
  rw [htext, head?_cons, Option.any_some, hc, Bool.not_true, Bool.false_or, tail_cons] at hfirst
  exact all_eq_true.mp hfirst

theorem lex_idle (hc : isIdle c = true) (hspace : isSpace c = false) (cs : List Char) :
    ∃ taken rest, cs = taken ++ rest ∧ (∀ d ∈ taken, isIdle d = true) ∧
      lex (c :: cs) = String.ofList (c :: taken) :: lex rest := by
  have hplain := hc
  simp only [isIdle, Bool.and_eq_true, Bool.not_eq_true', bne_iff_ne] at hplain
  obtain ⟨⟨⟨hname, hdigit⟩, hdot⟩, hslash⟩ := hplain
  have hwidth : width (c :: cs) = max 1 (punctuatorWidth (c :: cs)) := by
    simp [width, identifierWidth, numberWidth, hname, hdigit, hdot]
  have hcomment := commentWidth_eq_zero hslash cs
  by_cases hnone : punctuatorWidth (c :: cs) = 0
  · refine ⟨[], cs, rfl, forall_mem_nil _, ?_⟩
    rw [lex_cons hspace hcomment, hwidth, hnone]
    rfl
  · obtain ⟨p, hp, hstart, hlength⟩ := punctuator_of_width hnone
    obtain ⟨rest, hrest⟩ := hstart
    cases htext : p.toList with
    | nil => rw [htext] at hlength; exact absurd hlength hnone
    | cons d taken =>
      rw [htext, cons_append] at hrest
      obtain ⟨rfl, rfl⟩ := List.cons.inj hrest
      refine ⟨taken, rest, rfl, isIdle_of_mem_tail hp htext hc, ?_⟩
      apply lex_append hspace hcomment
      rw [hwidth, hlength, htext, length_cons]
      omega

theorem isIdentifier_of_idle (hc : isIdle c = true) (taken : List Char) :
    isIdentifier (String.ofList (c :: taken)) = false := by
  simp only [isIdle, Bool.and_eq_true, Bool.not_eq_true'] at hc
  simp [isIdentifier, hc.1.1.1]

theorem identifiers_idle (hc : isIdle c = true) (cs : List Char) : identifiers (c :: cs) = identifiers cs := by
  -- by induction on the length: what the first token takes is idle as well
  induction hn : cs.length using Nat.strong_induction_on generalizing c cs with
  | h n ih =>
    have hskip : ∀ taken rest : List Char, (∀ d ∈ taken, isIdle d = true) → (taken ++ rest).length ≤ n →
        identifiers (taken ++ rest) = identifiers rest := by
      intro taken rest htaken hlength
      induction taken with
      | nil => rfl
      | cons d taken ihtaken =>
        rw [forall_mem_cons] at htaken
        rw [cons_append, length_cons] at hlength
        rw [cons_append, ih _ (by omega) htaken.1 (taken ++ rest) rfl, ihtaken htaken.2 (by omega)]
    by_cases hspace : isSpace c = true
    · rw [identifiers, lex_space hspace]
      rfl
    · obtain ⟨taken, rest, rfl, htaken, hlex⟩ := lex_idle hc (by simpa using hspace) cs
      rw [identifiers, hlex, filter_cons_of_neg (Bool.eq_false_iff.mp (isIdentifier_of_idle hc taken)),
        hskip taken rest htaken (by omega)]
      rfl

theorem identifiers_idles {text rest : List Char} (h : ∀ c ∈ text, isIdle c = true) :
    identifiers (text ++ rest) = identifiers rest := by
  induction text with
  | nil => rfl
  | cons c text ih =>
    rw [forall_mem_cons] at h
    rw [cons_append, identifiers_idle h.1, ih h.2]

theorem identifiers_nil : identifiers [] = [] := by simp [identifiers, lex]

end CToken

namespace Expression

open CToken

def isName (t : Token) : Bool := t.kind == .word || t.kind == .keyword

def names (run : List Token) : List String := ((significant run).filter isName).map Token.raw

theorem joins_stop (ht : Solid t) {d : Char} (hd : d = ';' ∨ d = ')') : joins t d = false := by
  rcases hd with rfl | rfl
  · have hsymbols : (spellings.all fun text => !continued text.toList ';') = true := by decide
    unfold joins
    split_ifs with _ hkind
    · decide
    · simpa using all_eq_true.mp hsymbols _ (spelling_of_solid ht hkind)
    · decide
  · exact joins_of_mem ht (by simp)

theorem isIdentifier_spell (ht : Solid t) : isIdentifier (spell t) = isName t := by
  rcases kind_cases t with hkind | hkind | hkind
  · obtain ⟨c, body, htext, hc, -⟩ := identifier_of_solid ht hkind
    have hname : isName t = true := by rcases hkind with hkind | hkind <;> simp [isName, hkind]
    simp [isIdentifier, htext, hc, hname]
  · obtain ⟨c, body, htext, hc, -⟩ := number_of_solid ht hkind
    have hname : startsIdentifier c = false := by
      rw [Bool.eq_false_iff]
      intro hstarts
      rw [(plain_of_startsIdentifier hstarts).1] at hc
      cases hc
    simp [isIdentifier, htext, hname, isName, hkind]
  · obtain ⟨c, body, htext, hsymbol⟩ := symbol_of_solid ht hkind
    rw [isSymbol, Bool.and_eq_true, String.toList_ofList, head?_cons, Option.any_some] at hsymbol
    simp only [Bool.and_eq_true, Bool.not_eq_true'] at hsymbol
    have hname : isName t = false := by
      simp only [isSymbolic, Bool.and_eq_true, bne_iff_ne] at hkind
      simp [isName, hkind]
    simp [isIdentifier, htext, hsymbol, hname]

theorem spell_of_isName (h : isName t = true) : spell t = t.raw := by
  apply spell_of_ne
  intro hkind
  simp [isName, hkind] at h

/-- A token adds its text to the identifiers if it is a word or a keyword, also where it is a unary
operator that is read together with what follows. -/
theorem identifiers_spell (ht : Solid t)
    (hrest : (∀ d ∈ rest.head?, joins t d = false) ∨ ∃ before, isUnary before t = true) :
    identifiers ((spell t).toList ++ rest) = ([t].filter isName).map Token.raw ++ identifiers rest := by
  rcases hrest with hapart | ⟨before, hunary⟩
  · rw [identifiers, lex_spell ht hapart, filter_cons, isIdentifier_spell ht]
    cases hname : isName t with
    | true =>
      rw [if_pos rfl, filter_cons_of_pos hname, spell_of_isName hname]
      rfl
    | false =>
      rw [if_neg Bool.false_ne_true, filter_cons_of_neg (Bool.eq_false_iff.mp hname)]
      rfl
  · have hall : (["!", "~", "-", "+"].all fun raw => raw.toList.all isIdle) = true := by decide
    have hidle := all_eq_true.mp hall _ (raw_of_isUnary hunary)
    have hname : isName t = false := by
      simp only [isUnary, Bool.and_eq_true, beq_iff_eq] at hunary
      simp [isName, hunary.1]
    rw [spell_of_isUnary hunary, identifiers_idles (all_eq_true.mp hidle),
      filter_cons_of_neg (Bool.eq_false_iff.mp hname)]
    rfl

theorem identifiers_letters_cons (before : Option (Token × Bool)) (t : Token) (run : List Token)
    (rest : List Char) : identifiers (letters before (t :: run) ++ rest) =
      identifiers ((spell t).toList ++ (letters (some (t, isUnary (before.map Prod.fst) t)) run ++ rest)) := by
  rw [letters_cons, gapBefore, append_assoc, append_assoc]
  split_ifs
  · exact identifiers_idle rfl _
  · rfl

theorem identifiers_letters (before : Option (Token × Bool)) (hsolid : ∀ t ∈ run, Solid t)
    (hrest : ∀ d ∈ rest.head?, d = ';' ∨ d = ')') :
    identifiers (letters before run ++ rest) = (run.filter isName).map Token.raw ++ identifiers rest := by
  induction run generalizing before with
  | nil => rfl
  | cons t run ih =>
    rw [forall_mem_cons] at hsolid
    obtain ⟨ht, hrun⟩ := hsolid
    have hnext : (∀ d ∈ (letters (some (t, isUnary (before.map Prod.fst) t)) run ++ rest).head?,
        joins t d = false) ∨ ∃ before, isUnary before t = true := by
      by_cases hunary : isUnary (before.map Prod.fst) t = true
      · exact .inr ⟨_, hunary⟩
      · left
        intro d hd
        cases run with
        | nil => exact joins_stop ht (hrest d hd)
        | cons u run =>
          rw [Bool.eq_false_iff]
          intro hjoins
          obtain ⟨e, cs, hletters, -⟩ :=
            head_letters (hrun u mem_cons_self) (t := t) (isUnary (before.map Prod.fst) t) run
          rw [hletters] at hd
          have hclash := (joins_letters_iff (before.map Prod.fst) ht hrun).mp
            ⟨d, by rw [hletters]; exact hd, hjoins⟩
          obtain ⟨-, -, htrue, -⟩ := hclash
          exact hunary htrue
    have hsplit : (t :: run).filter isName = [t].filter isName ++ run.filter isName :=
      filter_append [t] run
    rw [identifiers_letters_cons, identifiers_spell ht hnext, ih _ hrun, hsplit, map_append, append_assoc]

theorem identifiers_render (hsolid : ∀ t ∈ significant run, Solid t)
    (hrest : ∀ d ∈ rest.head?, d = ';' ∨ d = ')') :
    identifiers ((render run).toList ++ rest) = names run ++ identifiers rest :=
  identifiers_letters none hsolid hrest

end Expression

end CirOutline
