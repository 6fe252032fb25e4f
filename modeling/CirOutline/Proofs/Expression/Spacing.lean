import CirOutline.Proofs.Expression.Rendering

/-!
The spaces of rendered expressions. Without its spaces the text of a run is the spelling of its significant
tokens, and between two neighbours stands one space or none, as the two and the token before them decide.
So no space stands at either end of the text and no two stand together.
-/

namespace CirOutline.Expression

open LexicalRule CToken
open List hiding lex

/-- A word, a number or a closing bracket: what an operand ends with. -/
def EndsOperand (t : Token) : Prop :=
  t.kind = .word ∨ t.kind = .number ∨ t.raw = ")" ∨ t.raw = "]"

/-- An operator with one operand; a sign is one where no operand ends in front of it. -/
def UnaryAfter (previous : Option Token) (t : Token) : Prop :=
  t.raw = "!" ∨ t.raw = "~" ∨ (t.raw = "-" ∨ t.raw = "+") ∧ ∀ p ∈ previous, ¬ EndsOperand p

/-- Neighbours without a space between them; `previous` is the token in front. -/
def Tight (previous : Option Token) (a b : Token) : Prop :=
  (a.raw = "(" ∨ a.raw = "[" ∨ UnaryAfter previous a) ∨ (b.raw = ")" ∨ b.raw = "]" ∨ b.raw = ",") ∨
    EndsOperand a ∧ (b.raw = "(" ∨ b.raw = "[")

def spelled (run : List Token) : List Char := run.flatMap fun t => (spell t).toList

def unspaced (cs : List Char) : List Char := cs.filter fun c => c != ' '

variable {t a b : Token} {previous : Option Token} {run : List Token}

/-! ### Neighbours -/

theorem endsOperand_iff (ht : Solid t) : endsOperand t = true ↔ EndsOperand t := by
  simp only [endsOperand, EndsOperand, Bool.or_eq_true, beq_iff_eq, closes_iff ht, or_assoc]

theorem isUnary_iff (hprevious : ∀ p ∈ previous, Solid p) (ht : Solid t) :
    isUnary previous t = true ↔ UnaryAfter previous t := by
  have hends : (!previous.any endsOperand) = true ↔ ∀ p ∈ previous, ¬ EndsOperand p := by
    cases previous with
    | none => simp
    | some p => simp [← endsOperand_iff (hprevious p rfl)]
  have hhead : (["!", "~", "-", "+"].all fun text => text.toList.head?.all fun c =>
      !startsIdentifier c && !c.isDigit) = true := by decide
  have hnone : ∀ k : TokenKind, (["!", "~", "-", "+"].all fun text => !k.symbols.contains text) = true := by
    rintro ⟨⟩ <;> decide
  have hkind : ∀ text ∈ ["!", "~", "-", "+"], t.raw = text → t.kind = .operator := by
    refine fun text htext hraw => kind_of_raw ht hraw (all_eq_true.mp hhead _ htext) (absurd rfl) fun k hk => ?_
    simpa [hk] using all_eq_true.mp (hnone k) _ htext
  simp only [isUnary, UnaryAfter, Bool.and_eq_true, Bool.or_eq_true, beq_iff_eq, hends, or_assoc]
  refine ⟨And.right, fun h => ⟨?_, h⟩⟩
  rcases h with h | h | ⟨h | h, -⟩ <;> exact hkind _ (by decide) h

theorem spaced_iff (hprevious : ∀ p ∈ previous, Solid p) (ha : Solid a) (hb : Solid b) :
    spaced a (isUnary previous a) b = true ↔ ¬ Tight previous a b := by
  have hcomma : a.raw = "," → ¬ EndsOperand a := by
    intro h
    have hkind := (comma_iff ha).mpr h
    simp [EndsOperand, h, hkind]
  simp only [spaced, Tight, ← isUnary_iff hprevious ha, ← endsOperand_iff ha, Bool.or_eq_true, beq_iff_eq,
    closes_iff hb, comma_iff hb, opens_iff ha, comma_iff ha, ← opens_iff hb] at hcomma ⊢
  split_ifs <;> grind

theorem spell_without_space (ht : Solid t) :
    ∃ c body, (spell t).toList = c :: body ∧ c ≠ ' ' ∧ ∀ d ∈ body, d ≠ ' ' := by
  rcases kind_cases t with hkind | hkind | hkind
  · obtain ⟨c, body, htext, hc, hbody⟩ := identifier_of_solid ht hkind
    refine ⟨c, body, htext, ?_, fun d hd => ?_⟩ <;> rintro rfl
    · exact absurd hc (by decide)
    · exact absurd (hbody _ hd) (by decide)
  · obtain ⟨c, body, htext, hc, hbody⟩ := number_of_solid ht hkind
    refine ⟨c, body, htext, ?_, fun d hd => ?_⟩ <;> rintro rfl
    · exact absurd hc (by decide)
    · exact absurd (hbody _ hd).1 (by decide)
  · obtain ⟨c, body, htext, -⟩ := symbol_of_solid ht hkind
    have hall : (spellings.all fun text => text.toList.all (· != ' ')) = true := by decide
    have hfree := all_eq_true.mp hall _ (spelling_of_solid ht hkind)
    simp only [htext, all_cons, Bool.and_eq_true, bne_iff_ne, all_eq_true] at hfree
    exact ⟨c, body, htext, hfree⟩

theorem unspaced_spell (ht : Solid t) : unspaced (spell t).toList = (spell t).toList := by
  obtain ⟨c, body, htext, hc, hbody⟩ := spell_without_space ht
  simpa [unspaced, htext, hc] using hbody

/-! ### Runs -/

/-- What rendering knows of the tokens in front after a run. -/
def passed (before : Option (Token × Bool)) (run : List Token) : Option (Token × Bool) :=
  run.foldl (fun before t => some (t, isUnary (before.map Prod.fst) t)) before

section

variable (before : Option (Token × Bool))
include before

theorem letters_append (run more : List Token) :
    letters before (run ++ more) = letters before run ++ letters (passed before run) more := by
  induction run generalizing before with
  | nil => rfl
  | cons t run ih => simp only [cons_append, letters_cons, ih, append_assoc, passed, foldl_cons]

theorem passed_fst (run : List Token) :
    (passed before run).map Prod.fst = run.getLast?.or (before.map Prod.fst) := by
  induction run generalizing before with
  | nil => rfl
  | cons t run ih => rw [passed, foldl_cons, ← passed, ih, getLast?_cons]; cases run.getLast? <;> rfl

theorem unspaced_gapBefore (t : Token) : unspaced (gapBefore before t) = [] := by
  unfold gapBefore
  split_ifs <;> rfl

theorem unspaced_letters (hrun : ∀ t ∈ run, Solid t) : unspaced (letters before run) = spelled run := by
  induction run generalizing before with
  | nil => rfl
  | cons t run ih =>
    obtain ⟨ht, hrun⟩ := forall_mem_cons.mp hrun
    have hgap := unspaced_gapBefore before t
    have hspell := unspaced_spell ht
    have ih := ih (some (t, isUnary (before.map Prod.fst) t)) hrun
    unfold unspaced at hgap hspell ih ⊢
    rw [letters_cons, filter_append, filter_append, hgap, hspell, ih]
    rfl

end

theorem double_space_append {word rest : List Char} (hword : ∀ c ∈ word, c ≠ ' ')
    (h : [' ', ' '] <:+: word ++ rest) : [' ', ' '] <:+: rest := by
  induction word with
  | nil => exact h
  | cons c word ih =>
    obtain ⟨hc, hword⟩ := forall_mem_cons.mp hword
    rcases infix_cons_iff.mp h with hfront | hlater
    · exact absurd (cons_prefix_cons.mp hfront).1.symm hc
    · exact ih hword hlater

theorem letters_trim (before : Option (Token × Bool)) (hrun : ∀ t ∈ run, Solid t) :
    ¬ [' ', ' '] <:+: letters before run ∧ (letters before run).getLast? ≠ some ' ' := by
  induction run generalizing before with
  | nil => simp [letters, pieces]
  | cons t run ih =>
    obtain ⟨ht, hrun⟩ := forall_mem_cons.mp hrun
    obtain ⟨c, body, htext, hc, hbody⟩ := spell_without_space ht
    obtain ⟨hdouble, hlast⟩ := ih (some (t, isUnary (before.map Prod.fst) t)) hrun
    have hword : ∀ d ∈ c :: body, d ≠ ' ' := forall_mem_cons.mpr ⟨hc, hbody⟩
    rw [letters_cons, htext]
    constructor
    · intro h
      unfold gapBefore at h
      split_ifs at h
      · rcases infix_cons_iff.mp h with hfront | hlater
        · exact hc (cons_prefix_cons.mp (cons_prefix_cons.mp hfront).2).1.symm
        · exact hdouble (double_space_append hword hlater)
      · exact hdouble (double_space_append hword h)
    · intro h
      rw [getLast?_append, getLast?_append, Option.or_eq_some_iff] at h
      cases hrest : (letters (some (t, isUnary (before.map Prod.fst) t)) run).getLast? with
      | some d =>
        rw [hrest] at h hlast
        exact hlast (by simpa using h)
      | none =>
        obtain ⟨d, hd⟩ := Option.isSome_iff_exists.mp (getLast?_isSome.mpr (cons_ne_nil c body))
        have hne := hword d (mem_of_getLast? hd)
        simp [hrest, hd, hne] at h

/-- The text of a run of a source's tokens has no space at its ends, no two spaces together, and without its
spaces it is the significant tokens as they are spelled. Between neighbours there is no space exactly
behind an opening bracket or a unary operator, before a closing bracket or a comma, and between the end of
an operand and an opening bracket; otherwise there is one. -/
theorem rendering_spaces_tokens {source file : String} {tokens : List Token}
    (htokens : tokenize source file = .ok tokens) (hrun : run <:+: tokens) :
    (render run).toList.head? ≠ some ' ' ∧ (render run).toList.getLast? ≠ some ' ' ∧
    ¬ [' ', ' '] <:+: (render run).toList ∧
    unspaced (render run).toList = spelled (significant run) ∧
    ∀ before a b after, significant run = before ++ a :: b :: after →
      ∃ front gap back,
        (render run).toList = front ++ (spell a).toList ++ gap ++ (spell b).toList ++ back ∧
        unspaced front = spelled before ∧ unspaced back = spelled after ∧
        (Tight before.getLast? a b ∧ gap = [] ∨ ¬ Tight before.getLast? a b ∧ gap = [' ']) := by
  have hsolid := solid_of_tokenize htokens hrun
  have htrim := letters_trim none hsolid
  have hrender : (render run).toList = letters none (significant run) := rfl
  rw [hrender]
  refine ⟨?_, htrim.2, htrim.1, unspaced_letters none hsolid, fun before a b after hsplit => ?_⟩
  · cases hsignificant : significant run with
    | nil => simp [letters, pieces]
    | cons t more =>
      obtain ⟨c, body, htext, hc, -⟩ := spell_without_space (hsolid t (by simp [hsignificant]))
      simpa [letters_cons, gapBefore, htext] using hc
  · rw [hsplit] at hsolid ⊢
    simp only [forall_mem_append, forall_mem_cons] at hsolid
    obtain ⟨hbefore, ha, hb, hafter⟩ := hsolid
    have hlast : (passed none before).map Prod.fst = before.getLast? := by
      rw [passed_fst, Option.map_none, Option.or_none]
    refine ⟨letters none before ++ gapBefore (passed none before) a,
      gapBefore (some (a, isUnary before.getLast? a)) b, letters (some (b, isUnary (some a) b)) after, ?_, ?_, ?_, ?_⟩
    · rw [letters_append, letters_cons, letters_cons, hlast]
      simp only [append_assoc, Option.map_some]
    · rw [unspaced, filter_append, ← unspaced, ← unspaced, unspaced_gapBefore, append_nil,
        unspaced_letters none hbefore]
    · exact unspaced_letters _ hafter
    · have hspaced := spaced_iff (fun p (hp : p ∈ before.getLast?) => hbefore p (mem_of_getLast? hp)) ha hb
      by_cases htight : Tight before.getLast? a b
      · exact .inl ⟨htight, if_neg fun h => hspaced.mp h htight⟩
      · exact .inr ⟨htight, if_pos (hspaced.mpr htight)⟩

/-- In `-x[ i ]+ -y` the first and the last sign are unary and the one between is not. -/
theorem rendering_spaces_signs :
    ∃ tokens, tokenize "-x[ i ]+ -y" "f" = .ok tokens ∧ tokens <:+: tokens ∧
      render tokens = "-x[i] + -y" ∧ unspaced (render tokens).toList = "-x[i]+-y".toList := by
  let tokenAt : Nat → TokenKind → String → Token := fun column kind raw => ⟨kind, raw, ⟨"f", 1, column⟩⟩
  let tokens := [tokenAt 1 .operator "-", tokenAt 2 .word "x", tokenAt 3 .operator "[", tokenAt 4 .spaces " ",
    tokenAt 5 .word "i", tokenAt 6 .spaces " ", tokenAt 7 .operator "]", tokenAt 8 .operator "+",
    tokenAt 9 .spaces " ", tokenAt 10 .operator "-", tokenAt 11 .word "y"]
  have htokens : tokenize "-x[ i ]+ -y" "f" = .ok tokens := eq_ok_of_toOption (by decide +kernel)
  refine ⟨tokens, htokens, infix_rfl, by decide, ?_⟩
  exact (rendering_spaces_tokens htokens infix_rfl).2.2.2.1.trans (by decide)

end CirOutline.Expression
