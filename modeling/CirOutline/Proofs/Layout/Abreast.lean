import CirOutline.Proofs.Alike
import CirOutline.Proofs.Layout.Sequences
import CirOutline.Proofs.Paired
import Mathlib.Data.List.Chain

/-!
Two lines with the same ink, read side by side. `Abreast a b` relates two positions from which the
rest of the line says the same; white space on either side is passed without the other. Every step
within a line keeps the two positions abreast and gives the same, or stops on both sides for the same
cause. The end of the input and a line break are no different to any step.
-/

namespace CirOutline

open List Token SequenceResult

variable {a b rest rest' tokens : List Token} {t u : Token} {fault : Fault} {source source' : Source}

/-- Nothing is left of the line: the input is over, or a line break comes next. -/
def LineOver (tokens : List Token) : Prop := ∀ t ∈ tokens.head?, t.kind = .lineBreak ∧ t.raw ≠ "["

theorem LineOver.nil : LineOver [] := by simp [LineOver]

/-- Two positions from which the rest of the line has the same ink. A comment is the last of it. -/
inductive Abreast : List Token → List Token → Prop
  | ended {a b : List Token} (ha : LineOver a) (hb : LineOver b) : Abreast a b
  | left {t : Token} {a b : List Token} (h : t.kind = .spaces) (hrest : Abreast a b) :
      Abreast (t :: a) b
  | right {u : Token} {a b : List Token} (h : u.kind = .spaces) (hrest : Abreast a b) :
      Abreast a (u :: b)
  | ink {t u : Token} {a b : List Token} (h : t.Alike u) (hspaces : t.kind ≠ .spaces)
      (hbreak : t.kind ≠ .lineBreak) (hlast : t.kind = .comment → LineOver a ∧ LineOver b)
      (hrest : Abreast a b) : Abreast (t :: a) (u :: b)

/-- Two positions at ink that is alike, with positions abreast after it. -/
structure Heads (t u : Token) (a b : List Token) : Prop where
  alike : t.Alike u
  spaces : t.kind ≠ .spaces
  sameLine : t.kind ≠ .lineBreak
  rests : ∃ x y, a = t :: x ∧ b = u :: y ∧ Abreast x y ∧ (t.kind = .comment → LineOver x ∧ LineOver y)

/-- Two positions abreast with no white space in front: both lines are over, or ink comes next. -/
inductive Facing (a b : List Token) : Prop
  | ended (ha : LineOver a) (hb : LineOver b)
  | ink {t u : Token} (h : Heads t u a b)

theorem Facing.abreast (h : Facing a b) : Abreast a b := by
  cases h with
  | ended ha hb => exact .ended ha hb
  | ink h =>
    obtain ⟨x, y, rfl, rfl, hrest, hlast⟩ := h.rests
    exact .ink h.alike h.spaces h.sameLine hlast hrest

theorem Abreast.heads (h : Abreast (t :: a) (u :: b)) (hspaces : t.kind ≠ .spaces)
    (hbreak : t.kind ≠ .lineBreak) (hspaces' : u.kind ≠ .spaces) : Heads t u (t :: a) (u :: b) := by
  cases h with
  | ended ha _ => exact absurd (ha t rfl).1 hbreak
  | left h _ => exact absurd h hspaces
  | right h _ => exact absurd h hspaces'
  | ink hsame _ _ hlast hrest => exact ⟨hsame, hspaces, hbreak, a, b, rfl, rfl, hrest, hlast⟩

def CommentsLast (tokens : List Token) : Prop :=
  tokens.IsChain fun a b => a.kind = .comment → b.kind = .lineBreak

theorem lineOver_of_comment (hplain : PlainBreaks (t :: rest)) (hlast : CommentsLast (t :: rest))
    (h : t.kind = .comment) : LineOver rest := by
  cases rest with
  | nil => exact .nil
  | cons u rest =>
    have hbreak : u.kind = .lineBreak := (isChain_cons_cons.mp hlast).1 h
    intro v hv
    obtain rfl : u = v := Option.some.inj hv
    exact ⟨hbreak, hplain u (by simp) hbreak⟩

theorem lineOver_of_break (hplain : PlainBreaks (t :: rest)) (h : t.kind = .lineBreak) : LineOver (t :: rest) := by
  intro v hv
  obtain rfl : t = v := Option.some.inj hv
  exact ⟨h, hplain t (by simp) h⟩

theorem abreast_of_over (ha : LineOver a) (hplain : PlainBreaks b) (hb : lineInk b = []) : Abreast a b := by
  induction b with
  | nil => exact .ended ha .nil
  | cons u b ih =>
    have hrest : PlainBreaks b := hplain.of_suffix (suffix_cons u b)
    by_cases hspaces : u.kind = .spaces
    · rw [lineInk_cons_of_spaces hspaces] at hb
      exact .right hspaces (ih hrest hb)
    · by_cases hbreak : u.kind = .lineBreak
      · exact .ended ha (lineOver_of_break hplain hbreak)
      · rw [lineInk_cons hbreak hspaces] at hb
        cases hb

theorem abreast_of_ink (hplain : PlainBreaks a) (hlast : CommentsLast a) (hplain' : PlainBreaks b)
    (hlast' : CommentsLast b) (h : List.Forall₂ Alike (lineInk a) (lineInk b)) :
    Abreast a b := by
  induction a generalizing b with
  | nil => exact abreast_of_over .nil hplain' (forall₂_nil_left_iff.mp h)
  | cons t a ih =>
    have hrest : PlainBreaks a := hplain.of_suffix (suffix_cons t a)
    have hcomments : CommentsLast a := hlast.tail
    by_cases hspaces : t.kind = .spaces
    · rw [lineInk_cons_of_spaces hspaces] at h
      exact .left hspaces (ih hrest hcomments hplain' hlast' h)
    by_cases hbreak : t.kind = .lineBreak
    · rw [lineInk_break hbreak, forall₂_nil_left_iff] at h
      exact abreast_of_over (lineOver_of_break hplain hbreak) hplain' h
    rw [lineInk_cons hbreak hspaces] at h
    -- the ink on the other side comes after white space
    induction b with
    | nil => cases h
    | cons u b ihb =>
      have hrest' : PlainBreaks b := hplain'.of_suffix (suffix_cons u b)
      have hcomments' : CommentsLast b := hlast'.tail
      by_cases hspaces' : u.kind = .spaces
      · rw [lineInk_cons_of_spaces hspaces'] at h
        exact .right hspaces' (ihb hrest' hcomments' h)
      by_cases hbreak' : u.kind = .lineBreak
      · rw [lineInk_break hbreak'] at h
        cases h
      rw [lineInk_cons hbreak' hspaces'] at h
      cases h with
      | cons hsame hink =>
        refine .ink hsame hspaces hbreak ?_ (ih hrest hcomments hrest' hcomments' hink)
        intro hkind
        exact ⟨lineOver_of_comment hplain hlast hkind, lineOver_of_comment hplain' hlast' (hsame.kind ▸ hkind)⟩

/-- A test of tokens that white space passes and a line break fails, and that looks at the class and
the text alone. -/
structure Separates (p : Token → Bool) : Prop where
  alike : ∀ t u : Token, t.Alike u → p t = p u
  spaces : ∀ t : Token, t.kind = .spaces → p t = true
  breaks : ∀ t : Token, t.kind = .lineBreak → p t = false

theorem Separates.ofSpaces : Separates fun t => t.kind == .spaces where
  alike := fun t u h => by rw [h.kind]
  spaces := fun t h => by rw [h]; rfl
  breaks := fun t h => by rw [h]; rfl

theorem Separates.ofLine (stop : Token → Bool) (halike : ∀ t u : Token, t.Alike u → stop t = stop u)
    (hspaces : ∀ t : Token, t.kind = .spaces → stop t = false) :
    Separates fun t => !t.endsLine && !stop t where
  alike := fun t u h => by rw [h.endsLine, halike t u h]
  spaces := fun t h => by simp [endsLine, h, hspaces t h]
  breaks := fun t h => by simp [endsLine, h]

theorem Abreast.takeWhile {p : Token → Bool} (hp : Separates p) (h : Abreast a b) :
    SameInk (a.takeWhile p) (b.takeWhile p) ∧
      Facing (a.dropWhile p) (b.dropWhile p) := by
  have hover : ∀ {a : List Token}, LineOver a → a.takeWhile p = [] ∧ a.dropWhile p = a := by
    intro a ha
    cases a with
    | nil => exact ⟨rfl, rfl⟩
    | cons t a =>
      have hp : ¬ p t = true := by
        rw [hp.breaks t (ha t rfl).1]
        exact Bool.false_ne_true
      exact ⟨takeWhile_cons_of_neg hp, dropWhile_cons_of_neg hp⟩
  induction h with
  | ended ha hb =>
    rw [(hover ha).1, (hover ha).2, (hover hb).1, (hover hb).2]
    exact ⟨.nil, .ended ha hb⟩
  | @left t a b h _ ih =>
    have hpass := hp.spaces t h
    rw [takeWhile_cons_of_pos hpass, dropWhile_cons_of_pos hpass, SameInk, ink_cons_of_spaces h]
    exact ih
  | @right u a b h _ ih =>
    have hpass := hp.spaces u h
    rw [takeWhile_cons_of_pos hpass, dropWhile_cons_of_pos hpass, SameInk, ink_cons_of_spaces h]
    exact ih
  | @ink t u a b hsame hspaces hbreak hlast hrest ih =>
    by_cases hpass : p t = true
    · have hpass' : p u = true := by rw [← hp.alike t u hsame, hpass]
      rw [takeWhile_cons_of_pos hpass, dropWhile_cons_of_pos hpass,
        takeWhile_cons_of_pos hpass', dropWhile_cons_of_pos hpass']
      exact ⟨.cons hsame ih.1, ih.2⟩
    · have hpass' : ¬ p u = true := by rwa [← hp.alike t u hsame]
      rw [takeWhile_cons_of_neg hpass, dropWhile_cons_of_neg hpass,
        takeWhile_cons_of_neg hpass', dropWhile_cons_of_neg hpass']
      exact ⟨.nil, .ink ⟨hsame, hspaces, hbreak, a, b, rfl, rfl, hrest, hlast⟩⟩

/-! ### Sequences -/

/-- Both sequences are read, with `R`, and the lines go on abreast, or neither is, for the same
cause. -/
def SequenceResult.Pairs {α : Type} (r r' : SequenceResult α) (R : α → α → Prop) : Prop :=
  match r, r' with
  | .ok (a, rest), .ok (a', rest') => R a a' ∧ Abreast rest rest'
  | .error stop, .error stop' => stop.report.fault = stop'.report.fault
  | _, _ => False

namespace SequenceResult.Pairs

variable {α : Type} {R : List α → List α → Prop} {r r' : SequenceResult (List α)} {a a' : α}

theorem stopBefore {R : α → α → Prop} : (stopBefore source fault rest).Pairs (stopBefore source' fault rest') R :=
  rfl

theorem blame {R : α → α → Prop} : (blame source fault t rest).Pairs (blame source' fault u rest') R := rfl

theorem ok {R : α → α → Prop} {a a' : α} (h : R a a') (hrest : Abreast rest rest') :
    Pairs (.ok (a, rest) : SequenceResult α) (.ok (a', rest')) R := ⟨h, hrest⟩

theorem of_stops {R : α → α → Prop} {r r' : SequenceResult α}
    (h : ∃ stop, r = .error stop ∧ stop.report.fault = fault)
    (h' : ∃ stop, r' = .error stop ∧ stop.report.fault = fault) : r.Pairs r' R := by
  obtain ⟨stop, rfl, hfault⟩ := h
  obtain ⟨stop', rfl, hfault'⟩ := h'
  exact hfault.trans hfault'.symm

theorem prepend_left {S : List α → List α → Prop} (h : r.Pairs r' R)
    (hR : ∀ as as', R as as' → S (a :: as) as') : (prepend a r).Pairs r' S := by
  rcases r with stop | ⟨as, rest⟩ <;> rcases r' with stop' | ⟨as', rest'⟩
  · exact h
  · exact h
  · exact h
  · exact ⟨hR as as' h.1, h.2⟩

theorem prepend_right {S : List α → List α → Prop} (h : r.Pairs r' R)
    (hR : ∀ as as', R as as' → S as (a' :: as')) : r.Pairs (prepend a' r') S := by
  rcases r with stop | ⟨as, rest⟩ <;> rcases r' with stop' | ⟨as', rest'⟩
  · exact h
  · exact h
  · exact h
  · exact ⟨hR as as' h.1, h.2⟩

theorem prepend {S : List α → List α → Prop} (h : r.Pairs r' R)
    (hR : ∀ as as', R as as' → S (a :: as) (a' :: as')) :
    (prepend a r).Pairs (prepend a' r') S := by
  have hleft : (SequenceResult.prepend a r).Pairs r' fun as as' => S as (a' :: as') :=
    h.prepend_left hR
  exact hleft.prepend_right fun _ _ hS => hS

end SequenceResult.Pairs

theorem readItems_over (construct : String) (expectsItem : Bool) (h : LineOver tokens) :
    ∃ stop, readItems construct source expectsItem tokens = .error stop ∧
      stop.report.fault = .runaway construct := by
  cases tokens with
  | nil => exact ⟨_, rfl, rfl⟩
  | cons t rest =>
    have hbreak := (h t rfl).1
    rw [readItems, if_neg (by simp [hbreak]), if_pos (by simp [hbreak])]
    exact ⟨_, rfl, rfl⟩

theorem readItems_pairs (construct : String) (h : Abreast a b) :
    ∀ expectsItem, (readItems construct source expectsItem a).Pairs (readItems construct source' expectsItem b)
      fun names names' => names = names' := by
  induction h with
  | ended ha hb =>
    exact fun expectsItem => .of_stops (readItems_over construct expectsItem ha)
      (readItems_over construct expectsItem hb)
  | @left t a b h _ ih =>
    intro expectsItem
    rw [readItems, if_pos (by simp [h])]
    exact ih expectsItem
  | @right u a b h _ ih =>
    intro expectsItem
    rw [readItems.eq_def construct source' expectsItem (u :: b)]
    simp only [h, beq_self_eq_true, if_true]
    exact ih expectsItem
  | @ink t u a b hsame hspaces hbreak hlast hrest ih =>
    intro expectsItem
    rw [readItems, readItems, ← hsame.kind, ← hsame.raw]
    split_ifs
    · exact ih expectsItem
    · exact .stopBefore
    · exact .ok rfl hrest
    · exact .prepend (ih false) fun names names' h => by rw [h]
    · exact ih true
    · exact .stopBefore
    · exact .stopBefore

theorem readArguments_over (opening : Token) (depth : Nat) (h : LineOver tokens) :
    ∃ stop, readArguments opening source depth tokens = .error stop ∧
      stop.report.fault = .runaway "argument list" := by
  cases tokens with
  | nil => exact ⟨_, rfl, rfl⟩
  | cons t rest =>
    unfold readArguments
    rw [if_pos (by simp [(h t rfl).1])]
    exact ⟨_, rfl, rfl⟩

theorem readArguments_spaces (opening : Token) (depth : Nat) (h : t.kind = .spaces)
    (rest : List Token) : readArguments opening source depth (t :: rest) =
      prepend t (readArguments opening source depth rest) := by
  rw [readArguments.eq_def opening source depth (t :: rest)]
  simp [h]

theorem readArguments_pairs (opening opening' : Token) (h : Abreast a b) :
    ∀ depth, (readArguments opening source depth a).Pairs (readArguments opening' source' depth b)
      SameInk := by
  induction h with
  | ended ha hb =>
    exact fun depth => .of_stops (readArguments_over opening depth ha) (readArguments_over opening' depth hb)
  | @left t a b h _ ih =>
    intro depth
    rw [readArguments_spaces opening depth h]
    refine .prepend_left (ih depth) fun run run' hink => ?_
    rwa [SameInk, ink_cons_of_spaces h]
  | @right u a b h _ ih =>
    intro depth
    rw [readArguments_spaces opening' depth h]
    refine .prepend_right (ih depth) fun run run' hink => ?_
    rwa [SameInk, ink_cons_of_spaces h]
  | @ink t u a b hsame hspaces hbreak hlast hrest ih =>
    intro depth
    have hkeep : ∀ depth, (prepend t (readArguments opening source depth a)).Pairs
        (prepend u (readArguments opening' source' depth b)) SameInk :=
      fun depth => .prepend (ih depth) fun _ _ => .cons hsame
    unfold readArguments
    rw [← hsame.kind]
    split_ifs
    · exact .blame
    · exact hkeep (depth + 1)
    · cases depth with
      | zero => exact .ok .nil hrest
      | succ depth => exact hkeep depth
    · exact hkeep depth

/-- Steps of the reader of parameters that differ in the places that they blame only. -/
inductive ParameterStep.Alike : ParameterStep → ParameterStep → Prop
  | typeName (first : Bool) : Alike (.typeName first) (.typeName first)
  | bracket (t u : Token) : Alike (.bracket t) (.bracket u)
  | element (t u : Token) : Alike (.element t) (.element u)
  | separator (t u : Token) (element : String) (dimensions : List String) :
      Alike (.separator t element dimensions) (.separator u element dimensions)
  | dimension (t u : Token) (element : String) (dimensions : List String) :
      Alike (.dimension t element dimensions) (.dimension u element dimensions)
  | name (type : String) (dimensions : List String) : Alike (.name type dimensions) (.name type dimensions)
  | next : Alike .next .next

/-- The cause for which a parameter list breaks off at the end of the line. -/
def ParameterStep.lineFault : ParameterStep → Fault
  | typeName _ | next => .runaway "parameter list"
  | bracket _ => .missingToken "'[' after Array"
  | element _ => .missingToken "array element type"
  | separator .. => .runaway "array type"
  | dimension .. => .missingToken "array dimension"
  | name .. => .missingToken "parameter name"

theorem readParameters_over (opening : Token) (step : ParameterStep) (h : LineOver tokens) :
    ∃ stop, readParameters opening source step tokens = .error stop ∧
      stop.report.fault = step.lineFault := by
  cases tokens with
  | nil => cases step <;> exact ⟨_, rfl, rfl⟩
  | cons t rest =>
    obtain ⟨hbreak, hraw⟩ := h t rfl
    cases step <;> simp [readParameters, hbreak, hraw] <;> exact ⟨_, rfl, rfl⟩

theorem readParameters_pairs (opening opening' : Token) (h : Abreast a b) :
    ∀ {step step'}, ParameterStep.Alike step step' →
      (readParameters opening source step a).Pairs (readParameters opening' source' step' b)
        fun ps ps' => ps = ps' := by
  induction h with
  | ended ha hb =>
    intro step step' hstep
    have hfault : step'.lineFault = step.lineFault := by cases hstep <;> rfl
    exact .of_stops (readParameters_over opening step ha) (hfault ▸ readParameters_over opening' step' hb)
  | @left t a b h _ ih =>
    intro step step' hstep
    rw [readParameters_spaces opening _ step h]
    exact ih hstep
  | @right u a b h _ ih =>
    intro step step' hstep
    rw [readParameters_spaces opening' _ step' h]
    exact ih hstep
  | @ink t u a b hsame hspaces hbreak hlast hrest ih =>
    intro step step' hstep
    have hink : (t.kind == TokenKind.spaces) = false := beq_eq_false_iff_ne.mpr hspaces
    have hstop : (t.kind == TokenKind.lineBreak) = false := beq_eq_false_iff_ne.mpr hbreak
    cases hstep <;> simp only [readParameters, ← hsame.kind, ← hsame.raw, hink, hstop, Bool.false_eq_true, if_false]
    case typeName first =>
      split_ifs
      · exact .ok rfl hrest
      · exact .stopBefore
      · exact ih (.bracket t u)
      · exact ih (.name t.raw [])
    case bracket array array' =>
      split_ifs
      · exact .stopBefore
      · exact ih (.element array array')
    case element array array' =>
      split_ifs
      · exact .stopBefore
      · exact ih (.separator array array' t.raw [])
    case separator array array' element dimensions =>
      split_ifs
      · exact .blame
      · exact ih (.name element dimensions)
      · exact .blame
      · exact ih (.dimension array array' element dimensions)
    case dimension array array' element dimensions =>
      split_ifs
      · exact .stopBefore
      · exact ih (.separator array array' element (dimensions ++ [t.raw]))
    case name type dimensions =>
      split_ifs
      · exact .stopBefore
      · exact .prepend (ih .next) fun ps ps' h => by rw [h]
    case next =>
      split_ifs
      · exact .ok rfl hrest
      · exact .blame
      · exact ih (.typeName false)

end CirOutline
