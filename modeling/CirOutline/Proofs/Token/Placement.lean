import CirOutline.Proofs.Token.Partition

/-!
Where the tokens of a text stand. The place of an offset is a matter of the whole text: its line is
one more than the line ends that are over before it, and its column one more than the characters
since the last of them. Scanning counts from token to token instead. The two agree because line ends
come in one piece, so that no token starts between a carriage return and its line feed.
-/

namespace CirOutline

variable {earlier later : List Token}

open Scan
open List hiding after

variable {lexeme rest cs : List Char} {l : Location}

namespace Text

/-- Whether a line end is over with the character at an index: a line feed, or a carriage return
that no line feed follows. -/
def endsLineAt (source : List Char) (i : Nat) : Bool :=
  source[i]? == some '\n' || source[i]? == some '\r' && source[i + 1]? != some '\n'

def lineEndsBefore (source : List Char) (offset : Nat) : Nat :=
  (List.range offset).countP (endsLineAt source)

/-- The number of characters between an offset and the last line end before it, or the start. -/
def sinceLineEnd (source : List Char) (offset : Nat) : Nat :=
  ((List.range offset).reverse.takeWhile fun i => !endsLineAt source i).length

def placeAt (file : String) (source : List Char) (offset : Nat) : Location :=
  ⟨file, 1 + lineEndsBefore source offset, 1 + sinceLineEnd source offset⟩

/-! ### Counting from an offset on -/

theorem endsLineAt_append (before rest : List Char) (i : Nat) :
    endsLineAt (before ++ rest) (before.length + i) = endsLineAt rest i := by
  have hhere : (before ++ rest)[before.length + i]? = rest[i]? := by
    rw [getElem?_append_right (Nat.le_add_right _ _), Nat.add_sub_cancel_left]
  have hnext : (before ++ rest)[before.length + i + 1]? = rest[i + 1]? := by
    rw [Nat.add_assoc, getElem?_append_right (Nat.le_add_right _ _), Nat.add_sub_cancel_left]
  rw [endsLineAt, endsLineAt, hhere, hnext]

theorem lineEndsBefore_add (source : List Char) (offset count : Nat) : lineEndsBefore source (offset + count) =
      lineEndsBefore source offset +
        (List.range count).countP fun i => endsLineAt source (offset + i) := by
  rw [lineEndsBefore, range_add, countP_append, countP_map]
  rfl

theorem sinceLineEnd_succ (source : List Char) (offset : Nat) : sinceLineEnd source (offset + 1) =
      if endsLineAt source offset then 0 else sinceLineEnd source offset + 1 := by
  rw [sinceLineEnd, range_succ, reverse_append, reverse_singleton, singleton_append, takeWhile_cons]
  cases endsLineAt source offset <;> rfl

theorem sinceLineEnd_add (source : List Char) (offset count : Nat)
    (h : ∀ i < count, endsLineAt source (offset + i) = false) :
    sinceLineEnd source (offset + count) = sinceLineEnd source offset + count := by
  induction count with
  | zero => rfl
  | succ count ih =>
    have hlast : endsLineAt source (offset + count) = false := h count (Nat.lt_succ_self count)
    have hearlier := ih fun i hi => h i (Nat.lt_succ_of_lt hi)
    rw [← Nat.add_assoc, sinceLineEnd_succ, hlast, hearlier]
    rfl

/-! ### Line ends of a lexeme -/

theorem endsLineAt_of_line (h : ∀ c ∈ lexeme, isBreak c = false) (rest : List Char) {i : Nat}
    (hi : i < lexeme.length) : endsLineAt (lexeme ++ rest) i = false := by
  have hline := h lexeme[i] (getElem_mem hi)
  rw [isBreak, Bool.or_eq_false_iff, beq_eq_false_iff_ne, beq_eq_false_iff_ne] at hline
  rw [endsLineAt, getElem?_append_left hi, getElem?_eq_getElem hi]
  simp [hline.1, hline.2]

theorem endsLineAt_of_break {c : Char} (hc : isBreak c = true)
    (hpair : c = '\r' → rest.head? ≠ some '\n') : endsLineAt (c :: rest) 0 = true := by
  rw [isBreak, Bool.or_eq_true, beq_iff_eq, beq_iff_eq] at hc
  rcases hc with rfl | rfl
  · have hnext := hpair rfl
    rw [head?_eq_getElem?] at hnext
    simpa [endsLineAt] using hnext
  · rfl

end Text

open Text

theorem Scan.lineEnds_of_line (h : ∀ c ∈ lexeme, isBreak c = false) : lineEnds lexeme = 0 := by
  induction lexeme with
  | nil => rfl
  | cons c lexeme ih =>
    obtain ⟨hc, hrest⟩ := forall_mem_cons.mp h
    rw [lineEnds]
    · change (if isBreak c then _ else _) = 0
      rw [hc, ih hrest]
      rfl
    · rintro rest rfl -
      exact Bool.noConfusion hc

theorem Text.countP_endsLineAt_cons (c : Char) (cs rest : List Char) :
    (List.range (c :: cs).length).countP (endsLineAt (c :: cs ++ rest)) =
      (List.range cs.length).countP (endsLineAt (cs ++ rest)) +
        if endsLineAt (c :: cs ++ rest) 0 then 1 else 0 := by
  rw [length_cons, range_succ_eq_map, countP_cons, countP_map]
  rfl

theorem Scan.countP_endsLineAt (lexeme : List Char) (hrest : ∀ d ∈ rest.head?, isBreak d = false) :
    (List.range lexeme.length).countP (endsLineAt (lexeme ++ rest)) = lineEnds lexeme := by
  fun_induction lineEnds lexeme with
  | case1 => rfl
  | case2 cs ih =>
    -- the carriage return of a pair ends no line, its line feed does
    rw [countP_endsLineAt_cons, countP_endsLineAt_cons, ih]
    rfl
  | case3 c cs hpair hbreak ih =>
    have hends : endsLineAt (c :: cs ++ rest) 0 = true := by
      refine endsLineAt_of_break hbreak fun hc hnext => ?_
      cases cs with
      | nil => exact Bool.noConfusion (hrest '\n' hnext)
      | cons d cs => exact hpair cs hc (congrArg (· :: cs) (Option.some.inj hnext))
    rw [countP_endsLineAt_cons, ih, hends]
    rfl
  | case4 c cs hpair hbreak ih =>
    have hends : endsLineAt ([c] ++ (cs ++ rest)) 0 = false := by
      refine endsLineAt_of_line ?_ _ Nat.zero_lt_one
      simpa [isBreak] using hbreak
    rw [countP_endsLineAt_cons, ih]
    exact congrArg (lineEnds cs + if · then 1 else 0) hends

/-! ### A token further -/

theorem Scan.after_of_line (l : Location) (h : lineEnds lexeme = 0) :
    after l lexeme = { l with column := l.column + lexeme.length } := by
  rw [after, h]

theorem Scan.after_of_breaks (l : Location) (h : lineEnds lexeme ≠ 0) :
    after l lexeme = { l with line := l.line + lineEnds lexeme, column := 1 } := by
  obtain ⟨n, hn⟩ := Nat.exists_eq_succ_of_ne_zero h
  rw [after, hn]

theorem Text.placeAt_add_line (file : String) (before rest : List Char) (h : ∀ c ∈ lexeme, isBreak c = false) :
    placeAt file (before ++ lexeme ++ rest) (before.length + lexeme.length) =
      after (placeAt file (before ++ lexeme ++ rest) before.length) lexeme := by
  have hnone : ∀ i < lexeme.length, endsLineAt (before ++ lexeme ++ rest) (before.length + i) = false := by
    intro i hi
    rw [append_assoc, endsLineAt_append]
    exact endsLineAt_of_line h rest hi
  have hcount : (List.range lexeme.length).countP
      (fun i => endsLineAt (before ++ lexeme ++ rest) (before.length + i)) = 0 := by
    rw [countP_eq_zero]
    intro i hi
    rw [hnone i (mem_range.mp hi)]
    exact Bool.false_ne_true
  rw [after_of_line _ (lineEnds_of_line h), placeAt, placeAt, lineEndsBefore_add, hcount,
    sinceLineEnd_add _ _ _ hnone, Nat.add_zero, Int.natCast_add, ← Int.add_assoc]

theorem Text.placeAt_add_breaks (file : String) (before : List Char) (hne : lexeme ≠ [])
    (h : ∀ c ∈ lexeme, isBreak c = true) (hrest : ∀ d ∈ rest.head?, isBreak d = false) :
    placeAt file (before ++ lexeme ++ rest) (before.length + lexeme.length) =
      after (placeAt file (before ++ lexeme ++ rest) before.length) lexeme := by
  obtain ⟨first, c, hlexeme⟩ := (eq_nil_or_concat lexeme).resolve_left hne
  rw [concat_eq_append] at hlexeme
  subst hlexeme
  -- the last character of the run ends a line, since the run is maximal
  have hlast : endsLineAt (first ++ [c] ++ rest) first.length = true := by
    have hshift := endsLineAt_append first (c :: rest) 0
    rw [Nat.add_zero, append_cons] at hshift
    rw [hshift]
    refine endsLineAt_of_break (h c (by simp)) fun _ hnext => ?_
    exact Bool.noConfusion (hrest '\n' hnext)
  have hwhole : ∀ i, endsLineAt (before ++ (first ++ [c]) ++ rest) (before.length + i) =
      endsLineAt (first ++ [c] ++ rest) i := by
    intro i
    rw [append_assoc before, endsLineAt_append]
  have hends : lineEnds (first ++ [c]) ≠ 0 := by
    rw [← countP_endsLineAt (first ++ [c]) hrest]
    intro hnone
    exact countP_eq_zero.mp hnone first.length (by simp) hlast
  have hcolumn : sinceLineEnd (before ++ (first ++ [c]) ++ rest)
      (before.length + (first ++ [c]).length) = 0 := by
    rw [length_append, length_singleton, ← Nat.add_assoc, sinceLineEnd_succ, hwhole, hlast]
    rfl
  rw [after_of_breaks _ hends, placeAt, placeAt, lineEndsBefore_add, hcolumn]
  simp only [hwhole]
  rw [countP_endsLineAt _ hrest, Int.natCast_add, ← Int.add_assoc]
  rfl

theorem Text.placeAt_add {kind : TokenKind} (file : String) (before : List Char) (hne : lexeme ≠ [])
    (hspells : kind.Spells lexeme) (hprecedes : kind.Precedes rest) :
    placeAt file (before ++ lexeme ++ rest) (before.length + lexeme.length) =
      after (placeAt file (before ++ lexeme ++ rest) before.length) lexeme := by
  by_cases hbreak : kind = .lineBreak
  · subst hbreak
    exact placeAt_add_breaks file before hne hspells hprecedes
  by_cases hspaces : kind = .spaces
  · subst hspaces
    refine placeAt_add_line file before rest fun c hc => ?_
    rw [Bool.eq_false_iff]
    intro hbreak
    exact Bool.noConfusion ((hspells c hc).symm.trans (isGap_of_isBreak hbreak))
  · exact placeAt_add_line file before rest (hspells.ink hspaces hbreak).1

/-! ### Along a text -/

def Scan.behind (l : Location) (tokens : List Token) : Location :=
  tokens.foldl (fun l t => after l t.raw.toList) l

theorem Scan.tokensFrom_problem_place (l : Location) (cs : List Char) :
    ∀ problem ∈ (tokensFrom l cs).2, problem.place = some (behind l (tokensFrom l cs).1) := by
  fun_induction tokensFrom l cs with
  | case1 => exact fun problem h => absurd h (Option.not_mem_none problem)
  | case2 l c rest hmatch | case3 l c rest kind width hmatch lexeme hmixed =>
    rintro problem ⟨⟩
    rfl
  | case4 l c rest kind width hmatch lexeme hmixed tokens problem hrest ih =>
    rw [hrest] at ih
    intro found hfound
    rw [ih found hfound, behind, behind, foldl_cons, String.toList_ofList]

theorem Tokenized.behind_eq_placeAt {tokens : List Token} (h : Tokenized l cs tokens rest)
    (file : String) (before : List Char) (hl : l = placeAt file (before ++ cs) before.length) :
    behind l tokens = placeAt file (before ++ cs) (before.length + (Token.chars tokens).length) := by
  induction h generalizing before with
  | nil => exact hl
  | @cons l kind lexeme cs rest tokens hne hspells hprecedes hcs ih =>
    have hnext : after l lexeme =
        placeAt file (before ++ lexeme ++ cs) (before ++ lexeme).length := by
      rw [length_append, placeAt_add file before hne hspells hprecedes, hl, append_assoc]
    have hrest := ih (before ++ lexeme) hnext
    rw [behind, foldl_cons, String.toList_ofList]
    refine hrest.trans ?_
    rw [Token.chars_cons, String.toList_ofList, length_append, length_append, Nat.add_assoc, append_assoc]

theorem Tokenized.location_eq_behind {t : Token} (h : Tokenized l cs (earlier ++ t :: later) rest) :
    t.location = behind l earlier := by
  induction earlier generalizing l cs with
  | nil =>
    cases h
    rfl
  | cons u earlier ih =>
    cases h with
    | cons hne hspells hprecedes hcs =>
      rw [ih hcs, behind, behind, foldl_cons, String.toList_ofList]

theorem Tokenized.take (h : Tokenized l cs (earlier ++ later) rest) : ∃ middle, Tokenized l cs earlier middle := by
  induction earlier generalizing l cs with
  | nil => exact ⟨cs, .nil l cs⟩
  | cons u earlier ih =>
    cases h with
    | cons hne hspells hprecedes hcs =>
      obtain ⟨middle, hearlier⟩ := ih hcs
      exact ⟨middle, .cons hne hspells hprecedes hearlier⟩

theorem Text.placeAt_zero (file : String) (source : List Char) : placeAt file source 0 = ⟨file, 1, 1⟩ := rfl

/-- Tokens and problems are reported where they stand in the text: a token at the offset that the
lexemes before it make up, a problem behind all tokens. -/
theorem tokenize_places (source file : String) :
    ∃ tokens, Token.chars tokens <+: source.toList ∧
      (tokenize source file = .ok tokens ∨
        ∃ diagnostic, tokenize source file = .error ⟨tokens, diagnostic⟩ ∧
          diagnostic.location = some (placeAt file source.toList (Token.chars tokens).length)) ∧
      ∀ earlier t later, tokens = earlier ++ t :: later →
        t.location = placeAt file source.toList (Token.chars earlier).length := by
  obtain ⟨rest, htokens, -⟩ := tokensFrom_stops ⟨file, 1, 1⟩ source.toList
  have hproblem := tokensFrom_problem_place ⟨file, 1, 1⟩ source.toList
  have hplaces : ∀ {tokens rest}, Tokenized ⟨file, 1, 1⟩ source.toList tokens rest →
      behind ⟨file, 1, 1⟩ tokens = placeAt file source.toList (Token.chars tokens).length := by
    intro tokens rest h
    have hplace := h.behind_eq_placeAt file [] (placeAt_zero file source.toList).symm
    rwa [nil_append, length_nil, Nat.zero_add] at hplace
  refine ⟨(tokensFrom ⟨file, 1, 1⟩ source.toList).1, ?_, ?_, ?_⟩
  · exact ⟨rest, htokens.chars_append.symm⟩
  · have hend := hplaces htokens
    rw [tokenize]
    cases hscan : tokensFrom ⟨file, 1, 1⟩ source.toList with
    | mk tokens problem =>
      rw [hscan] at hproblem hend
      cases problem with
      | none => exact .inl rfl
      | some problem =>
        refine .inr ⟨_, rfl, ?_⟩
        rw [← hend]
        exact hproblem problem rfl
  · intro earlier t later htoken
    rw [htoken] at htokens
    obtain ⟨middle, hearlier⟩ := htokens.take
    rw [htokens.location_eq_behind, hplaces hearlier]

example : placeAt "" "a\r\r\n\n\rbc".toList 7 = ⟨"", 5, 2⟩ := by decide

end CirOutline
