import CirOutline.Proofs.Token.LineScanning
import CirOutline.Proofs.Token.Placement

/-!
Splitting is local to lines. No lexeme but a line break reaches over the end of a line, and which rule
takes it does not depend on what follows the line, so the parts of a text before and after a run of line
ends can be split on their own.
-/

namespace CirOutline

open List hiding after

def Location.down (lines : Nat) (l : Location) : Location := { l with line := l.line + lines }

def Token.down (lines : Nat) (t : Token) : Token := { t with location := t.location.down lines }

open LexicalRule

namespace Scan

variable {a breaks b back : List Char} {l : Location}

theorem firstMatch?_line_end (ha : a ≠ []) (hlast : ∀ c ∈ a.getLast?, isBreak c = false)
    (hback : ∀ d ∈ back.head?, isBreak d = true) : firstMatch? (a ++ back) = firstMatch? a := by
  let line := a.takeWhile fun c => !isBreak c
  let later := a.dropWhile fun c => !isBreak c
  have hsplit : a = line ++ later := takeWhile_append_dropWhile.symm
  have hline : ∀ c ∈ line, isBreak c = false := fun c hc => by simpa using mem_takeWhile_imp hc
  have hlater : ∀ c ∈ later.head?, isBreak c = true := fun c hc => by
    simpa using head?_dropWhile_false hc
  have hboth : ∀ d ∈ (later ++ back).head?, isBreak d = true := by
    cases hcase : later with
    | nil => exact hback
    | cons c more => simpa [hcase] using hlater
  by_cases hempty : line = []
  · -- the text starts with line ends, and more follows them
    let ends := a.takeWhile isBreak
    let rest := a.dropWhile isBreak
    have hsplit' : a = ends ++ rest := takeWhile_append_dropWhile.symm
    have hends : ∀ c ∈ ends, isBreak c = true := fun c hc => mem_takeWhile_imp hc
    have hfirst : isBreak (a.head ha) = true := by
      refine hlater _ ?_
      rw [show later = a by rw [hsplit, hempty]; rfl]
      exact head_mem_head? ha
    have hne : ends ≠ [] := by
      intro hnone
      obtain ⟨c, more, rfl⟩ := exists_cons_of_ne_nil ha
      simp [ends, show isBreak c = true from hfirst] at hnone
    have hrest : rest ≠ [] := by
      intro hnone
      rw [hnone, append_nil] at hsplit'
      have hbreak := hends (a.getLast ha) (hsplit' ▸ getLast_mem ha)
      exact Bool.noConfusion (hbreak.symm.trans (hlast _ (getLast?_eq_some_getLast ha)))
    obtain ⟨c, more, hcons⟩ := exists_cons_of_ne_nil hrest
    have hc : isBreak c = false :=
      head?_dropWhile_false (by rw [show a.dropWhile isBreak = rest from rfl, hcons]; rfl)
    rw [hsplit', hcons, append_assoc, firstMatch?_breaks hne hends (by simpa using hc),
      firstMatch?_breaks hne hends (by simpa using hc)]
  · rw [hsplit, append_assoc, firstMatch?_seam (seam_break hline hboth) hempty,
      firstMatch?_seam (seam_break hline hlater) hempty]

theorem tokensFrom_breaks (hne : breaks ≠ []) (hbreaks : ∀ c ∈ breaks, isBreak c = true)
    (hb : ∀ c ∈ b.head?, isBreak c = false) :
    tokensFrom l (breaks ++ b) = (⟨.lineBreak, String.ofList breaks, l⟩ ::
      (tokensFrom (after l breaks) b).1, (tokensFrom (after l breaks) b).2) := by
  have hmatch := firstMatch?_breaks hne hbreaks hb
  obtain ⟨c, more, rfl⟩ := exists_cons_of_ne_nil hne
  rw [cons_append] at hmatch ⊢
  rw [tokensFrom.eq_def]
  simp [hmatch]

theorem tokensFrom_append_breaks (hlast : ∀ c ∈ a.getLast?, isBreak c = false) (hne : breaks ≠ [])
    (hbreaks : ∀ c ∈ breaks, isBreak c = true) (hb : ∀ c ∈ b.head?, isBreak c = false)
    {before later : List Token} {stop stop' : Option Problem} (h : tokensFrom l a = (before, stop))
    (hlater : tokensFrom (after (behind l before) breaks) b = (later, stop')) :
    tokensFrom l (a ++ (breaks ++ b)) = if stop.isSome then (before, stop)
      else (before ++ ⟨.lineBreak, String.ofList breaks, behind l before⟩ :: later, stop') := by
  have hback : ∀ d ∈ (breaks ++ b).head?, isBreak d = true := by
    obtain ⟨c, more, rfl⟩ := exists_cons_of_ne_nil hne
    simpa using hbreaks c
  have hsame : ∀ {c rest}, (∀ d ∈ (c :: rest).getLast?, isBreak d = false) →
      firstMatch? (c :: (rest ++ (breaks ++ b))) = firstMatch? (c :: rest) := by
    intro c rest hlast
    rw [← cons_append, firstMatch?_line_end (cons_ne_nil c rest) hlast hback]
  have hfits : ∀ {c rest kind width}, firstMatch? (c :: rest) = some (kind, width) →
      width - 1 ≤ rest.length := by
    intro c rest kind width hmatch
    have hwidth := le_length_of_firstMatch? hmatch
    rw [length_cons] at hwidth
    omega
  generalize hback' : breaks ++ b = back at *
  fun_induction tokensFrom l a generalizing before stop with
  | case1 l =>
    cases h
    rw [nil_append, ← hback', tokensFrom_breaks hne hbreaks hb]
    simp [behind] at hlater ⊢
    simp [hlater]
  | case2 l c rest hmatch =>
    cases h
    rw [cons_append, tokensFrom.eq_def]
    simp [hsame hlast, hmatch]
  | case3 l c rest kind width hmatch lexeme hmixed =>
    cases h
    rw [cons_append, tokensFrom.eq_def]
    simp only [hsame hlast, hmatch, take_append_of_le_length (hfits hmatch)]
    rw [if_pos hmixed]
    simp
  | case4 l c rest kind width hmatch lexeme hmixed tokens problem hrest ih =>
    cases h
    have hend : ∀ d ∈ (rest.drop (width - 1)).getLast?, isBreak d = false := by
      intro d hd
      rw [getLast?_drop] at hd
      split_ifs at hd
      · cases hd
      · exact hlast d (by rw [getLast?_cons, Option.mem_def.mp hd]; rfl)
    rw [cons_append, tokensFrom.eq_def]
    simp only [hsame hlast, hmatch, take_append_of_le_length (hfits hmatch),
      drop_append_of_le_length (hfits hmatch)]
    rw [if_neg hmixed, ih hend hrest (by simpa [behind, lexeme] using hlater)]
    cases problem <;> simp [behind, lexeme]

theorem tokensFrom_down (lines : Nat) (l : Location) (cs : List Char) :
    (tokensFrom (l.down lines) cs).1 = (tokensFrom l cs).1.map (Token.down lines) ∧
      ((tokensFrom (l.down lines) cs).2 = none ↔ (tokensFrom l cs).2 = none) := by
  have hafter : ∀ lexeme l, after (Location.down lines l) lexeme = (after l lexeme).down lines := by
    intro lexeme l
    unfold after
    split <;> simp [Location.down, Int.add_right_comm]
  fun_induction tokensFrom l cs with
  | case1 l => rw [tokensFrom.eq_def]; simp
  | case2 l c rest hmatch => rw [tokensFrom.eq_def]; simp [hmatch]
  | case3 l c rest kind width hmatch lexeme hmixed => rw [tokensFrom.eq_def]; simp [hmatch, lexeme, hmixed]
  | case4 l c rest kind width hmatch lexeme hmixed tokens problem hrest ih =>
    rw [hrest, ← hafter] at ih
    rw [tokensFrom.eq_def]
    simp only [hmatch]
    rw [if_neg hmixed]
    exact ⟨congrArg (_ :: ·) ih.1, ih.2⟩

theorem behind_eq {file : String} {tokens : List Token} (h : tokensFrom ⟨file, 1, 1⟩ a = (tokens, none)) :
    behind ⟨file, 1, 1⟩ tokens = Text.placeAt file a a.length := by
  obtain ⟨rest, htokens, -⟩ := tokensFrom_stops ⟨file, 1, 1⟩ a
  rw [h] at htokens
  have hplace := htokens.behind_eq_placeAt file [] rfl
  rwa [← (lexed_of_tokensFrom h).chars_eq, nil_append, length_nil, Nat.zero_add] at hplace

theorem after_breaks {file : String} {before : List Token} (hlast : ∀ c ∈ a.getLast?, isBreak c = false)
    (hne : breaks ≠ []) (hbreaks : ∀ c ∈ breaks, isBreak c = true)
    (h : tokensFrom ⟨file, 1, 1⟩ a = (before, none)) :
    after (behind ⟨file, 1, 1⟩ before) breaks = Location.down (lineEnds (a ++ breaks)) ⟨file, 1, 1⟩ := by
  have hends : lineEnds breaks ≠ 0 := by
    obtain ⟨c, more, rfl⟩ := exists_cons_of_ne_nil hne
    have hc := hbreaks c mem_cons_self
    unfold lineEnds
    split
    · simp_all
    · omega
    · simp_all [isBreak]
  -- the place is counted in the text that ends with the line ends
  have hnil : tokensFrom (after (behind ⟨file, 1, 1⟩ before) breaks) [] = ([], none) := by
    rw [tokensFrom.eq_def]
  have hall := tokensFrom_append_breaks hlast hne hbreaks (by simp) h hnil
  rw [Option.isSome_none, if_neg Bool.false_ne_true, append_nil] at hall
  have hplace : after (behind ⟨file, 1, 1⟩ before) breaks =
      Text.placeAt file (a ++ breaks) (a ++ breaks).length := by simpa [behind] using behind_eq hall
  have hcolumn : (after (behind ⟨file, 1, 1⟩ before) breaks).column = 1 := by rw [after_of_breaks _ hends]
  have hcount := @countP_endsLineAt [] (a ++ breaks) (by simp)
  rw [append_nil] at hcount
  rw [hplace] at hcolumn ⊢
  rw [Text.placeAt, Text.lineEndsBefore, hcount] at hcolumn ⊢
  simp only at hcolumn
  rw [hcolumn, Location.down]

end Scan

open Scan

theorem tokenize_eq_ok_iff {source file : String} {tokens : List Token} :
    tokenize source file = .ok tokens ↔ tokensFrom ⟨file, 1, 1⟩ source.toList = (tokens, none) := by
  refine ⟨tokensFrom_of_tokenize, fun h => ?_⟩
  rw [tokenize, h]

/-- Line ends cut a text for splitting: the text splits exactly when the parts around them do, into the
tokens of the first part, one line break, and the tokens of the second part, further down. -/
theorem tokenize_line_local (a breaks b file : String) (hne : breaks ≠ "")
    (hbreaks : ∀ c ∈ breaks.toList, c = '\r' ∨ c = '\n')
    (ha : ∀ c ∈ a.toList.getLast?, c ≠ '\r' ∧ c ≠ '\n')
    (hb : ∀ c ∈ b.toList.head?, c ≠ '\r' ∧ c ≠ '\n') :
    ((∃ tokens, tokenize (a ++ breaks ++ b) file = .ok tokens) ↔
      (∃ before, tokenize a file = .ok before) ∧ ∃ after, tokenize b file = .ok after) ∧
    ∀ before after, tokenize a file = .ok before → tokenize b file = .ok after →
      tokenize (a ++ breaks ++ b) file = .ok (before ++
        ⟨.lineBreak, breaks, Text.placeAt file a.toList a.toList.length⟩ ::
          after.map (Token.down (Scan.lineEnds (a ++ breaks).toList))) := by
  have hbreak : ∀ {c}, c ≠ '\r' ∧ c ≠ '\n' → isBreak c = false := by simp [isBreak]
  have hne' : breaks.toList ≠ [] := by simpa using hne
  have hbreaks' : ∀ c ∈ breaks.toList, isBreak c = true := by simpa [isBreak] using hbreaks
  have hlast : ∀ c ∈ a.toList.getLast?, isBreak c = false := fun c hc => hbreak (ha c hc)
  have hhead : ∀ c ∈ b.toList.head?, isBreak c = false := fun c hc => hbreak (hb c hc)
  cases hbefore : tokensFrom ⟨file, 1, 1⟩ a.toList with
  | mk before stop =>
    cases hlater : tokensFrom (after (behind ⟨file, 1, 1⟩ before) breaks.toList) b.toList with
    | mk later stop' =>
      have hall := tokensFrom_append_breaks hlast hne' hbreaks' hhead hbefore hlater
      simp only [tokenize_eq_ok_iff, String.toList_append, append_assoc, hbefore, hall, Prod.mk.injEq]
      cases stop with
      | some problem => simp
      | none =>
        rw [after_breaks hlast hne' hbreaks' hbefore] at hlater
        have hdown := tokensFrom_down (lineEnds (a.toList ++ breaks.toList)) ⟨file, 1, 1⟩ b.toList
        rw [hlater] at hdown
        cases hb' : tokensFrom ⟨file, 1, 1⟩ b.toList with
        | mk after stop'' =>
          rw [hb'] at hdown
          obtain ⟨rfl, hstop⟩ := hdown
          have hnone : stop' = none ↔ stop'' = none := hstop
          refine ⟨by simp [hnone], ?_⟩
          rintro _ _ ⟨rfl, -⟩ hafter
          obtain ⟨rfl, rfl⟩ := Prod.mk.inj hafter
          simp [hnone.mpr rfl, behind_eq hbefore]

theorem tokenize_line_local_of_words :
    tokenize ("ab" ++ "\r\n\r" ++ "c") "m.cir" = .ok [⟨.word, "ab", ⟨"m.cir", 1, 1⟩⟩,
      ⟨.lineBreak, "\r\n\r", ⟨"m.cir", 1, 3⟩⟩, ⟨.word, "c", ⟨"m.cir", 3, 1⟩⟩] := by
  have hbefore : (tokenize "ab" "m.cir").toOption = some [⟨.word, "ab", ⟨"m.cir", 1, 1⟩⟩] := by
    decide +kernel
  have hafter : (tokenize "c" "m.cir").toOption = some [⟨.word, "c", ⟨"m.cir", 1, 1⟩⟩] := by
    decide +kernel
  exact (tokenize_line_local "ab" "\r\n\r" "c" "m.cir" (by simp) (by simp) (by simp) (by simp)).2
    _ _ (eq_ok_of_toOption hbefore) (eq_ok_of_toOption hafter)

end CirOutline
