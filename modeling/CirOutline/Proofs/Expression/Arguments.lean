import CirOutline.Proofs.Expression.Rendering

/-!
The arguments in a run of tokens. They are cut at the commas before which as many parentheses and
brackets are opened as closed, of whatever kind, and the count may fall below zero. Put together with
these commas the arguments give back the run, so nothing is lost; and where the run is well nested, so
is each argument.
-/

namespace CirOutline.Expression

open LexicalRule CToken
open List hiding lex

/-- What a token adds to the number of open parentheses and brackets. -/
def nesting (t : Token) : Int :=
  if t.raw = "(" ∨ t.raw = "[" then 1 else if t.raw = ")" ∨ t.raw = "]" then -1 else 0

def depth (run : List Token) : Int := run.foldr (fun t total => nesting t + total) 0

/-- The commas of a run at depth zero, when the depth in front of the run is `start`. -/
def outerCommas (start : Int) (run : List Token) : List Token :=
  (range run.length).filterMap fun i =>
    run[i]?.filter fun t => t.raw == "," && start + depth (run.take i) == 0

/-- The arguments one after the other, with separators between them. -/
def rejoin : (arguments : List (List Token)) → (separators : List Token) → List Token
  | first :: others, comma :: commas => first ++ comma :: rejoin others commas
  | arguments, _ => arguments.flatten

/-- Well nested runs, where `mates` says which closing bracket may end what an opening one begins. -/
inductive Nested (mates : String → String → Prop) : List Token → Prop
  | nil : Nested mates []
  | single {t rest} : nesting t = 0 → Nested mates rest → Nested mates (t :: rest)
  | pair {o c inner rest} : nesting o = 1 → nesting c = -1 → mates o.raw c.raw →
      Nested mates inner → Nested mates rest → Nested mates (o :: (inner ++ c :: rest))

variable {t : Token} {run rest : List Token} {start : Int} {mates : String → String → Prop}

/-! ### One token -/

theorem outerCommas_cons (start : Int) (t : Token) (rest : List Token) : outerCommas start (t :: rest) =
      (if t.raw = "," ∧ start = 0 then [t] else []) ++ outerCommas (start + nesting t) rest := by
  have hdepth : ∀ i, depth ((t :: rest).take (i + 1)) = nesting t + depth (rest.take i) := by
    simp [depth]
  have hfirst : (some t).filter (fun t => t.raw == "," && start + depth [] == 0) =
      if t.raw = "," ∧ start = 0 then some t else none := by
    simp [Option.filter_some, depth]
  rw [outerCommas, length_cons, range_succ_eq_map, filterMap_cons, filterMap_map]
  simp only [Function.comp_def, getElem?_cons_succ, hdepth, ← Int.add_assoc, getElem?_cons_zero, take_zero, hfirst]
  split_ifs <;> rfl

theorem splitAtCommas_cons (ht : Solid t) (start : Int) (rest : List Token) : splitAtCommas start (t :: rest) =
      if t.raw = "," ∧ start = 0 then [] :: splitAtCommas (start + nesting t) rest
      else consFirst t (splitAtCommas (start + nesting t) rest) := by
  have hopens := opens_iff ht
  have hcloses := closes_iff ht
  have hcomma := comma_iff ht
  rw [splitAtCommas]
  by_cases hopen : t.raw = "(" ∨ t.raw = "["
  · have hplain : t.raw ≠ "," := by rcases hopen with h | h <;> simp [h]
    simp [nesting, hopens.mpr hopen, hopen, hplain]
  by_cases hclose : t.raw = ")" ∨ t.raw = "]"
  · have hplain : t.raw ≠ "," := by rcases hclose with h | h <;> simp [h]
    simp [nesting, hopens, hcloses.mpr hclose, hopen, hclose, hplain, Int.sub_eq_add_neg]
  · simp [nesting, hopens, hcloses, hcomma, hopen, hclose]

theorem nesting_ne_of_comma (h : nesting t ≠ 0) : ¬ (t.raw = "," ∧ start = 0) := by
  rintro ⟨hraw, -⟩
  simp [nesting, hraw] at h

/-! ### Nothing is lost -/

theorem splitAtCommas_eq_cons (start : Int) (run : List Token) :
    ∃ first others, splitAtCommas start run = first :: others := by
  cases h : splitAtCommas start run with
  | cons first others => exact ⟨first, others, rfl⟩
  | nil =>
    have hcons : ∀ t (arguments : List (List Token)), consFirst t arguments ≠ [] := by
      rintro t (_ | _) <;> simp [consFirst]
    cases run with
    | nil => simp [splitAtCommas] at h
    | cons t rest =>
      rw [splitAtCommas] at h
      split_ifs at h <;> exact absurd h (hcons _ _)

theorem rejoin_splitAtCommas (hrun : ∀ t ∈ run, Solid t) (start : Int) :
    rejoin (splitAtCommas start run) (outerCommas start run) = run ∧
      (splitAtCommas start run).length = (outerCommas start run).length + 1 := by
  induction run generalizing start with
  | nil => exact ⟨rfl, rfl⟩
  | cons t rest ih =>
    obtain ⟨ht, hrest⟩ := forall_mem_cons.mp hrun
    obtain ⟨hjoin, hlength⟩ := ih hrest (start + nesting t)
    rw [splitAtCommas_cons ht, outerCommas_cons]
    split_ifs with hcomma
    · exact ⟨by simp [rejoin, hjoin], by simp [hlength]⟩
    · obtain ⟨first, others, hsplit⟩ := splitAtCommas_eq_cons (start + nesting t) rest
      rw [hsplit] at hjoin hlength ⊢
      refine ⟨?_, hlength⟩
      rw [nil_append, consFirst]
      -- a token in front of the first argument stands in front of the whole
      cases hcommas : outerCommas (start + nesting t) rest <;> simpa [rejoin, hcommas] using hjoin

/-! ### Nesting -/

theorem foldr_consFirst (run first : List Token) (others : List (List Token)) :
    run.foldr consFirst (first :: others) = (run ++ first) :: others := by
  induction run with
  | nil => rfl
  | cons t run ih => rw [foldr_cons, ih, consFirst, cons_append]

/-- Inside a bracket a well nested run has no outer comma, and none is cut at. -/
theorem Nested.inside (h : Nested mates run) (hrun : ∀ t ∈ run, Solid t) (hstart : 0 < start)
    (rest : List Token) : outerCommas start (run ++ rest) = outerCommas start rest ∧
      splitAtCommas start (run ++ rest) = run.foldr consFirst (splitAtCommas start rest) := by
  induction h generalizing start rest with
  | nil => exact ⟨rfl, rfl⟩
  | @single t more hzero _ ih =>
    obtain ⟨ht, hmore⟩ := forall_mem_cons.mp hrun
    have hinner : ¬ (t.raw = "," ∧ start = 0) := by omega
    rw [cons_append, outerCommas_cons, splitAtCommas_cons ht, if_neg hinner, if_neg hinner, hzero,
      Int.add_zero, (ih hmore hstart rest).1, (ih hmore hstart rest).2]
    exact ⟨rfl, rfl⟩
  | @pair o c inner more ho hc _ _ _ ihinner ihmore =>
    simp only [forall_mem_cons, forall_mem_append] at hrun
    obtain ⟨hsolid, hinner, hclose, hmore⟩ := hrun
    have hback : start + 1 + -1 = start := by omega
    have hdeeper : 0 < start + 1 := by omega
    obtain ⟨hcommas, hsplit⟩ := ihinner hinner hdeeper (c :: (more ++ rest))
    rw [cons_append, append_assoc, cons_append, outerCommas_cons, splitAtCommas_cons hsolid,
      if_neg (nesting_ne_of_comma (by omega)), if_neg (nesting_ne_of_comma (by omega)), ho, hcommas, hsplit,
      outerCommas_cons, splitAtCommas_cons hclose, if_neg (nesting_ne_of_comma (by omega)),
      if_neg (nesting_ne_of_comma (by omega)), hc, hback, (ihmore hmore hstart rest).1,
      (ihmore hmore hstart rest).2]
    simp

theorem Nested.arguments (h : Nested mates run) (hrun : ∀ t ∈ run, Solid t) :
    ∀ a ∈ splitAtCommas 0 run, Nested mates a ∧ outerCommas 0 a = [] := by
  have hempty : Nested mates [] ∧ outerCommas 0 [] = [] := ⟨.nil, rfl⟩
  induction h with
  | nil => simpa [splitAtCommas] using hempty
  | @single t more hzero _ ih =>
    obtain ⟨ht, hmore⟩ := forall_mem_cons.mp hrun
    have ih := ih hmore
    rw [splitAtCommas_cons ht, hzero, Int.add_zero]
    split_ifs with hcomma
    · exact forall_mem_cons.mpr ⟨hempty, ih⟩
    · obtain ⟨first, others, hsplit⟩ := splitAtCommas_eq_cons 0 more
      rw [hsplit, forall_mem_cons] at ih
      rw [hsplit, consFirst, forall_mem_cons, outerCommas_cons, if_neg hcomma, hzero]
      exact ⟨⟨.single hzero ih.1.1, ih.1.2⟩, ih.2⟩
  | @pair o c inner more ho hc hmates hnested _ _ ihmore =>
    simp only [forall_mem_cons, forall_mem_append] at hrun
    obtain ⟨hsolid, hinner, hclose, hmore⟩ := hrun
    have ih := ihmore hmore
    obtain ⟨first, others, hsplit⟩ := splitAtCommas_eq_cons 0 more
    have hone : (0 : Int) + 1 + -1 = 0 := rfl
    have hinside := hnested.inside hinner (show (0 : Int) < 0 + 1 by decide)
    rw [hsplit, forall_mem_cons] at ih
    rw [splitAtCommas_cons hsolid, if_neg (nesting_ne_of_comma (by omega)), ho, (hinside _).2,
      splitAtCommas_cons hclose, if_neg (nesting_ne_of_comma (by omega)), hc, hone, hsplit, consFirst,
      foldr_consFirst, consFirst, forall_mem_cons]
    refine ⟨⟨.pair ho hc hmates hnested ih.1.1, ?_⟩, ih.2⟩
    rw [outerCommas_cons, if_neg (nesting_ne_of_comma (by omega)), ho, (hinside _).1, outerCommas_cons,
      if_neg (nesting_ne_of_comma (by omega)), hc, hone, ih.1.2]
    rfl

/-- The arguments in a run of a source's tokens. There is none when nothing is significant; otherwise they
give back the significant tokens with the outer commas between them, one fewer than arguments, whether or
not the run is well nested. Where it is, whichever brackets are taken for mates, each argument is well
nested and has no outer comma. -/
theorem arguments_cut_at_outer_commas {source file : String} {tokens : List Token}
    (htokens : tokenize source file = .ok tokens) (hrun : run <:+: tokens) :
    (significant run = [] → arguments run = []) ∧
    (significant run ≠ [] →
      rejoin (arguments run) (outerCommas 0 (significant run)) = significant run ∧
      (arguments run).length = (outerCommas 0 (significant run)).length + 1) ∧
    ∀ mates, Nested mates (significant run) →
      ∀ a ∈ arguments run, Nested mates a ∧ outerCommas 0 a = [] := by
  have hsolid := solid_of_tokenize htokens hrun
  unfold arguments
  cases hsignificant : significant run with
  | nil => simp
  | cons t rest =>
    rw [hsignificant] at hsolid
    exact ⟨fun h => absurd h (cons_ne_nil t rest), fun _ => rejoin_splitAtCommas hsolid 0,
      fun mates hnested => hnested.arguments hsolid⟩

/-- In `f(a, b), ,` the comma in parentheses cuts nothing, and the last two arguments are empty. -/
theorem arguments_cut_around_call :
    ∃ tokens, tokenize "f(a, b), ," "f" = .ok tokens ∧ tokens <:+: tokens ∧
      significant tokens ≠ [] ∧ Nested (fun o c => o = "(" ∧ c = ")") (significant tokens) ∧
      (arguments tokens).map (·.map Token.raw) = [["f", "(", "a", ",", "b", ")"], [], []] ∧
      rejoin (arguments tokens) (outerCommas 0 (significant tokens)) = significant tokens := by
  let tokenAt : Nat → TokenKind → String → Token := fun column kind raw => ⟨kind, raw, ⟨"f", 1, column⟩⟩
  let tokens := [tokenAt 1 .word "f", tokenAt 2 .openParen "(", tokenAt 3 .word "a", tokenAt 4 .comma ",",
    tokenAt 5 .spaces " ", tokenAt 6 .word "b", tokenAt 7 .closeParen ")", tokenAt 8 .comma ",",
    tokenAt 9 .spaces " ", tokenAt 10 .comma ","]
  have htokens : tokenize "f(a, b), ," "f" = .ok tokens := eq_ok_of_toOption (by decide +kernel)
  have hnested : Nested (fun o c => o = "(" ∧ c = ")") (significant tokens) :=
    .single (by decide) (@Nested.pair _ _ _ [tokenAt 3 .word "a", tokenAt 4 .comma ",", tokenAt 6 .word "b"] _
      (by decide) (by decide) (by decide)
      (.single (by decide) (.single (by decide) (.single (by decide) .nil)))
      (.single (by decide) (.single (by decide) .nil)))
  have hne : significant tokens ≠ [] := by decide
  exact ⟨tokens, htokens, infix_rfl, hne, hnested, by decide,
    ((arguments_cut_at_outer_commas htokens infix_rfl).2.1 hne).1⟩

end CirOutline.Expression
