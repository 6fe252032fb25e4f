import CirOutline.Proofs.Token.Scanning

/-!
How a text is cut into tokens. The lexemes of the tokens are a beginning of the text, and all of it
unless scanning stops. It stops at a character that no rule takes, or in front of a run of white
space that has both tabs and spaces; such a run starts there, since no lexeme ends within white space.
-/

namespace CirOutline

variable {c : Char} {cs rest : List Char} {l : Location} {tokens : List Token}

open Scan LexicalRule
open List hiding after

/-! ### Lexemes and white space -/

theorem Scan.isGap_of_isBreak (h : isBreak c = true) : isGap c = false := by
  simp only [isBreak, Bool.or_eq_true, beq_iff_eq] at h
  rcases h with rfl | rfl <;> decide

theorem Tokenized.last_solid {d : Char} (h : Tokenized l cs tokens rest)
    (hlexeme : ∀ t ∈ tokens, t.kind.Lexeme t.raw.toList) (hd : rest.head? = some d) (hgap : isGap d = true) :
    ∀ c ∈ (Token.chars tokens).getLast?, isGap c = false := by
  induction h with
  | nil => simp [Token.chars]
  | @cons l kind lexeme cs rest tokens hne hspells hprecedes hcs ih =>
    obtain ⟨hfirst, hmore⟩ := forall_mem_cons.mp hlexeme
    rw [String.toList_ofList] at hfirst
    intro c hc
    rw [Token.chars_cons, String.toList_ofList, getLast?_append] at hc
    cases hlast : (Token.chars tokens).getLast? with
    | some b =>
      rw [hlast] at hc
      exact ih hmore hd c (hlast.trans hc)
    | none =>
      -- the lexeme is the last one, and its class says what may come next
      rw [hlast] at hc
      have hc : c ∈ lexeme := mem_of_getLast? hc
      have hend : tokens = [] := by
        cases hcs with
        | nil => rfl
        | cons hne => simp [Token.chars, hne] at hlast
      subst hend
      cases hcs
      by_cases hspaces : kind = .spaces
      · subst hspaces
        rw [hprecedes d hd] at hgap
        exact Bool.noConfusion hgap
      by_cases hcomment : kind = .comment
      · subst hcomment
        rw [isGap_of_isBreak (hprecedes d hd)] at hgap
        exact Bool.noConfusion hgap
      by_cases hbreak : kind = .lineBreak
      · subst hbreak
        exact isGap_of_isBreak (hspells c hc)
      · exact (hfirst.solid hspaces hbreak hcomment c hc).2

/-! ### The tokens of a text -/

/-- Tokens as they are cut from a text: none is empty, white space is of one kind, white space and
line ends come in one piece each, and only a line break follows a comment. -/
structure Token.Cut (tokens : List Token) : Prop where
  nonempty : ∀ t ∈ tokens, t.raw ≠ ""
  uniform : ∀ t ∈ tokens, t.kind = .spaces →
    (∀ c ∈ t.raw.toList, c = ' ') ∨ ∀ c ∈ t.raw.toList, c = '\t'
  spaces : tokens.IsChain fun a b => a.kind = .spaces → b.kind ≠ .spaces
  breaks : tokens.IsChain fun a b => a.kind = .lineBreak → b.kind ≠ .lineBreak
  comments : tokens.IsChain fun a b => a.kind = .comment → b.kind = .lineBreak

theorem Tokenized.chars_append (h : Tokenized l cs tokens rest) : cs = Token.chars tokens ++ rest := by
  induction h with
  | nil => rfl
  | @cons l kind lexeme cs rest tokens hne hspells hprecedes hcs ih =>
    rw [Token.chars_cons, String.toList_ofList, append_assoc, ← ih]

theorem Scan.tokensFrom_unmixed (l : Location) (cs : List Char) :
    ∀ t ∈ (tokensFrom l cs).1, t.kind = .spaces → mixes t.raw.toList = false := by
  fun_induction tokensFrom l cs with
  | case1 | case2 | case3 => simp
  | case4 l c rest kind width hmatch lexeme hmixed tokens problem hrest ih =>
    rw [hrest] at ih
    intro t ht hkind
    rcases mem_cons.mp ht with rfl | ht
    · rw [String.toList_ofList]
      obtain rfl : kind = .spaces := hkind
      simpa using hmixed
    · exact ih t ht hkind

theorem Scan.uniform_of_unmixed {run : List Char} (hgap : ∀ c ∈ run, isGap c = true)
    (hmixes : mixes run = false) : (∀ c ∈ run, c = ' ') ∨ ∀ c ∈ run, c = '\t' := by
  have hkinds : ∀ c ∈ run, c = ' ' ∨ c = '\t' := by
    intro c hc
    simpa [isGap] using hgap c hc
  rw [mixes, Bool.and_eq_false_iff] at hmixes
  rcases hmixes with hspace | htab
  · right
    intro c hc
    refine (hkinds c hc).resolve_left ?_
    rintro rfl
    simp [hc] at hspace
  · left
    intro c hc
    refine (hkinds c hc).resolve_right ?_
    rintro rfl
    simp [hc] at htab

theorem Scan.tokensFrom_cut (l : Location) (cs : List Char) : Token.Cut (tokensFrom l cs).1 := by
  obtain ⟨rest, htokens, -⟩ := tokensFrom_stops l cs
  refine ⟨fun t ht hraw => ?_, fun t ht hkind => ?_, ?_, ?_, ?_⟩
  · exact (htokens.spelled t ht).1 (by rw [hraw]; rfl)
  · have hgap := (htokens.spelled t ht).2
    rw [hkind] at hgap
    exact uniform_of_unmixed hgap (tokensFrom_unmixed l cs t ht hkind)
  · exact htokens.neighbours.imp fun _ _ hab => hab.1
  · exact htokens.neighbours.imp fun _ _ hab => hab.2.2
  · exact htokens.neighbours.imp fun _ _ hab => hab.2.1

/-! ### Where scanning stops -/

/-- Between two parts of a text, a run of spaces and tabs starts that has both and is maximal on
either side. -/
def Scan.MixedBetween (before rest : List Char) : Prop :=
  ∃ run more, rest = run ++ more ∧ ' ' ∈ run ∧ '\t' ∈ run ∧ (∀ c ∈ run, isGap c = true) ∧
    (∀ c ∈ before.getLast?, isGap c = false) ∧ ∀ c ∈ more.head?, isGap c = false

theorem LexicalRule.exists_width_of_gap (h : isGap c = true) (cs : List Char) :
    ∃ rule ∈ table, rule.width (c :: cs) ≠ 0 := by
  have hrule : (⟨.spaces, runWidth isGap⟩ : LexicalRule) ∈ table := by
    unfold isGap
    simp [table]
  refine ⟨_, hrule, ?_⟩
  simp [runWidth, h]

theorem Scan.Stops.mixed_iff {before : List Char} {fault : Option Fault} (h : Stops rest fault)
    (hbefore : ∀ d, rest.head? = some d → isGap d = true → ∀ c ∈ before.getLast?, isGap c = false) :
    fault = some .mixedIndentation ↔ MixedBetween before rest := by
  cases h with
  | done =>
    refine ⟨fun h => by simp at h, ?_⟩
    rintro ⟨run, more, hrest, hspace, -⟩
    simp [(append_eq_nil_iff.mp hrest.symm).1] at hspace
  | @unknown c cs hrules =>
    refine ⟨fun h => by simp at h, ?_⟩
    rintro ⟨run, more, hrest, hspace, -, hgap, -⟩
    cases run with
    | nil => simp at hspace
    | cons d run =>
      obtain ⟨rfl, -⟩ := List.cons.inj hrest
      obtain ⟨rule, hrule, hwidth⟩ := exists_width_of_gap (hgap c mem_cons_self) cs
      exact absurd (hrules rule hrule) hwidth
  | @mixed run cs hspace htab hgap hlongest =>
    refine ⟨fun _ => ⟨run, cs, rfl, hspace, htab, hgap, ?_, hlongest⟩, fun _ => rfl⟩
    cases run with
    | nil => simp at hspace
    | cons d run => exact hbefore d rfl (hgap d mem_cons_self)

/-- A text and its tokens. Whatever the text, their lexemes are a beginning of it, and all of it when
there is no problem. Otherwise the report names the next character, at which no rule applies, or
says that tabs and spaces are mixed; the latter exactly where a maximal run with both comes next. -/
theorem tokenize_partitions (source file : String) :
    ∃ tokens rest, source.toList = Token.chars tokens ++ rest ∧ Token.Cut tokens ∧
      (tokenize source file = .ok tokens ∧ rest = [] ∨
        ∃ diagnostic, tokenize source file = .error ⟨tokens, diagnostic⟩ ∧
          (diagnostic.fault = .mixedIndentation ∨
            ∃ c more, diagnostic.fault = .unknownCharacter c ∧ rest = c :: more ∧
              ∀ rule ∈ table, rule.width rest = 0)) ∧
      ((∃ diagnostic, tokenize source file = .error ⟨tokens, diagnostic⟩ ∧
          diagnostic.fault = .mixedIndentation) ↔ MixedBetween (Token.chars tokens) rest) := by
  obtain ⟨rest, htokens, hstop⟩ := tokensFrom_stops ⟨file, 1, 1⟩ source.toList
  have hlexeme := tokensFrom_lexeme ⟨file, 1, 1⟩ source.toList
  have hmixed := hstop.mixed_iff fun d hd hgap => htokens.last_solid hlexeme hd hgap
  refine ⟨(tokensFrom ⟨file, 1, 1⟩ source.toList).1, rest, htokens.chars_append, tokensFrom_cut _ _, ?_⟩
  rw [← hmixed, tokenize]
  cases hscan : tokensFrom ⟨file, 1, 1⟩ source.toList with
  | mk tokens problem =>
    rw [hscan] at hstop
    cases problem with
    | none =>
      cases hstop
      exact ⟨.inl ⟨rfl, rfl⟩, by simp⟩
    | some problem =>
      refine ⟨.inr ⟨.quoting (Text.lines source) problem.fault problem.place, rfl, ?_⟩, ?_⟩
      · generalize hfault : Option.map Problem.fault (some problem) = fault at hstop
        cases hstop with
        | done => simp at hfault
        | unknown hrules => exact .inr ⟨_, _, Option.some.inj hfault, rfl, hrules⟩
        | mixed => exact .inl (Option.some.inj hfault)
      · constructor
        · rintro ⟨diagnostic, hrun, hfault⟩
          cases hrun
          exact congrArg some hfault
        · intro hfault
          exact ⟨_, rfl, Option.some.inj hfault⟩

end CirOutline
