import CirOutline.Proofs.Layout.Reading

/-!
Sequences in parentheses, read and written. What is read of an item list, of call arguments and of a
parameter list is exactly what was written there, up to its closing parenthesis. The reader of
parameters is a machine with one state for each thing it may expect; `ParameterStep.Writes` says for
each state what is still to be written.
-/

namespace CirOutline

open SequenceResult Mark

variable {fault : Fault} {rest : List Token} {source : Source}

/-- The sequence is read with `Q`, or the reading stops with a cause that the layout reader
reports. -/
def SequenceResult.Meets {α : Type} (r : SequenceResult α) (Q : α → List Token → Prop) : Prop :=
  match r with
  | .ok (a, rest) => Q a rest
  | .error stop => stop.report.fault.isReading = true

namespace SequenceResult.Meets

variable {α : Type} {Q Q' : α → List Token → Prop}

theorem stopBefore (h : fault.isReading = true) : (stopBefore source fault rest).Meets Q := h

theorem blame {culprit : Token} (h : fault.isReading = true) : (blame source fault culprit rest).Meets Q := h

theorem weaken {r : SequenceResult α} (h : r.Meets Q) (hq : ∀ a rest, Q a rest → Q' a rest) : r.Meets Q' := by
  cases r with
  | ok read => exact hq read.1 read.2 h
  | error stop => exact h

theorem prepend {R : List α → List Token → Prop} {a : α} {r : SequenceResult (List α)}
    (h : r.Meets fun as rest => R (a :: as) rest) : (prepend a r).Meets R := by
  cases r with
  | ok read | error stop => exact h

end SequenceResult.Meets

theorem Reader.sequence_meets {σ α : Type} {read : Source → σ → List Token → SequenceResult (List α)} {s : σ}
    {c : Cursor} {quiet : Bool} {Q : List α → List Token → Prop} (hread : Tokenwise read)
    (h : (read c.source s c.rest).Meets Q) : Reader.Meets .within quiet (Reader.sequence (read · s)) c fun as c' =>
      Q as c'.rest ∧ c' = { c with rest := c'.rest } := by
  refine ⟨?_, sequence_local hread s c⟩
  rw [Reports, Ends, Reader.sequence]
  cases hresult : read c.source s c.rest with
  | ok pair =>
    rw [hresult] at h
    exact ⟨h, rfl⟩
  | error stop =>
    rw [hresult] at h
    exact h

theorem Passes.reads {ts : List Token} {c c' : Cursor} (h : Passes ts c.rest c'.rest)
    (hc : c' = { c with rest := c'.rest }) : Reads ts c c' := by
  refine ⟨h, ?_, ?_, ?_⟩ <;> rw [hc]

/-! ### Items -/

def Mark.itemsFrom (expectsItem loose : Bool) (names : List String) : List Mark :=
  if expectsItem then items loose names else moreItems loose names

theorem readItems_meets (construct : String) (expectsItem : Bool) (tokens : List Token) :
    (readItems construct source expectsItem tokens).Meets fun names rest =>
      ∃ loose ts close, close.kind = .closeParen ∧ Passes (ts ++ [close]) tokens rest ∧
        List.Forall₂ Fits (ink (itemsFrom expectsItem loose names)) ts := by
  induction tokens generalizing expectsItem with
  | nil => exact .stopBefore rfl
  | cons t rest ih =>
    rw [readItems]
    split_ifs with hspaces hbreak hclose hitem hcomma
    · refine (ih expectsItem).weaken ?_
      rintro names after ⟨loose, ts, close, hkind, hpass, hfits⟩
      exact ⟨loose, ts, close, hkind, (Passes.spaces (beq_iff_eq.mp hspaces) rest).trans hpass, hfits⟩
    · exact .stopBefore rfl
    · have hkind : t.kind = .closeParen := beq_iff_eq.mp hclose
      refine ⟨false, [], t, hkind, .cons (by simp [hkind]) (by simp [hkind]) rest, ?_⟩
      cases expectsItem <;> exact .nil
    · obtain ⟨rfl, hkind⟩ : expectsItem = true ∧ (t.kind = .word ∨ t.kind = .number) := by
        simpa using hitem
      refine .prepend ((ih false).weaken ?_)
      rintro names after ⟨loose, ts, close, hclosing, hpass, hfits⟩
      refine ⟨loose, t :: ts, close, hclosing, ?_, .cons ⟨hkind, rfl⟩ hfits⟩
      exact (Passes.cons (by simpa using hbreak) (by simpa using hspaces) rest).trans hpass
    · obtain ⟨rfl, hkind⟩ : expectsItem = false ∧ t.kind = .comma := by simpa using hcomma
      refine (ih true).weaken ?_
      rintro names after ⟨loose, ts, close, hclosing, hpass, hfits⟩
      have hpassed : Passes (t :: ts ++ [close]) (t :: rest) after :=
        (Passes.cons (by simp [hkind]) (by simp [hkind]) rest).trans hpass
      cases names with
      | nil => exact ⟨true, t :: ts, close, hclosing, hpassed, .cons hkind hfits⟩
      | cons name names =>
        exact ⟨loose, t :: ts, close, hclosing, hpassed, .cons hkind hfits⟩
    all_goals exact .stopBefore rfl

/-! ### Arguments -/

theorem readArguments_meets (opening : Token) (source : Source) (depth : Nat) (tokens : List Token) :
    (readArguments opening source depth tokens).Meets fun arguments rest =>
      ∃ close, close.kind = .closeParen ∧ tokens = arguments ++ close :: rest ∧
        Token.Balanced depth arguments ∧ ∀ t ∈ arguments, t.kind ≠ .lineBreak := by
  induction tokens generalizing depth with
  | nil => exact .blame rfl
  | cons t rest ih =>
    -- the step that keeps the token `t` as an argument
    have hkeep : ∀ inner, t.kind ≠ .lineBreak →
        (∀ arguments, Token.Balanced inner arguments → Token.Balanced depth (t :: arguments)) →
        (prepend t (readArguments opening source inner rest)).Meets fun arguments after =>
          ∃ close, close.kind = .closeParen ∧ t :: rest = arguments ++ close :: after ∧
            Token.Balanced depth arguments ∧ ∀ u ∈ arguments, u.kind ≠ .lineBreak := by
      intro inner hbreak hbalanced
      refine .prepend ((ih inner).weaken ?_)
      rintro arguments after ⟨close, hkind, rfl, hinner, hline⟩
      exact ⟨close, hkind, rfl, hbalanced arguments hinner, by simpa using ⟨hbreak, hline⟩⟩
    unfold readArguments
    split_ifs with hbreak hopen hclose
    · exact .blame rfl
    · have hkind : t.kind = .openParen := beq_iff_eq.mp hopen
      exact hkeep (depth + 1) (by simp [hkind]) fun arguments h => by
        rwa [Token.Balanced, if_pos hkind]
    · have hkind : t.kind = .closeParen := beq_iff_eq.mp hclose
      cases depth with
      | zero => exact ⟨t, hkind, rfl, rfl, by simp⟩
      | succ depth =>
        exact hkeep depth (by simp [hkind]) fun arguments h => by
          rw [Token.Balanced, if_neg (by simp [hkind]), if_pos hkind]
          exact ⟨depth, rfl, h⟩
    · refine hkeep depth (by simpa using hbreak) fun arguments h => ?_
      rwa [Token.Balanced, if_neg (by simpa using hopen), if_neg (by simpa using hclose)]

/-! ### Parameters -/

namespace Mark

/-- The end of an array parameter, after its dimensions, and the parameters after it. -/
def arrayEnd (name : String) (ps : List Parameter) : List Mark :=
  [bracket "]", gap, word name] ++ moreParameters ps

end Mark

open Mark in
/-- What the parameters `ps` look like from a step on, up to the closing parenthesis. -/
inductive ParameterStep.Writes : ParameterStep → List Parameter → List Mark → Prop
  | none : Writes (.typeName true) [] []
  | some {first : Bool} (p : Parameter) (ps : List Parameter) :
      Writes (.typeName first) (p :: ps) (parameters (p :: ps))
  | bracket {array : Token} (p : Parameter) (ps : List Parameter) :
      p.dimensions ≠ [] → Writes (.bracket array) (p :: ps)
        ([Mark.bracket "[", word p.typeName] ++ dimensions p.dimensions ++ arrayEnd p.name ps)
  | element {array : Token} (p : Parameter) (ps : List Parameter) :
      p.dimensions ≠ [] → Writes (.element array) (p :: ps)
        (word p.typeName :: dimensions p.dimensions ++ arrayEnd p.name ps)
  | separator {array : Token} (p : Parameter) (ps : List Parameter) (done more : List String) :
      p.dimensions ≠ [] → p.dimensions = done ++ more →
      Writes (.separator array p.typeName done) (p :: ps) (dimensions more ++ arrayEnd p.name ps)
  | dimension {array : Token} (p : Parameter) (ps : List Parameter) (done : List String)
      (dim : String) (more : List String) :
      p.dimensions = done ++ dim :: more →
      Writes (.dimension array p.typeName done) (p :: ps)
        (item dim :: dimensions more ++ arrayEnd p.name ps)
  | name (p : Parameter) (ps : List Parameter) :
      Writes (.name p.typeName p.dimensions) (p :: ps) (word p.name :: moreParameters ps)
  | next (ps : List Parameter) : Writes .next ps (moreParameters ps)

def Parameter.Proper (p : Parameter) : Prop := p.dimensions = [] → p.typeName ≠ arrayTypeName

def ParameterStep.Ready : ParameterStep → Prop
  | .name type dims => dims = [] → type ≠ arrayTypeName
  | _ => True

/-- A result of the reader of parameters: the parameters that are written from the step on. -/
def ParameterStep.Reads (step : ParameterStep) (tokens : List Token) (ps : List Parameter)
    (rest : List Token) : Prop :=
  (∀ p ∈ ps, p.Proper) ∧ ∃ marks ts close, step.Writes ps marks ∧ close.kind = .closeParen ∧
    Passes (ts ++ [close]) tokens rest ∧ List.Forall₂ Fits (ink marks) ts

/-- The token leads from one step to another within the parameter list, with no parameter complete. -/
inductive ParameterStep.Leads (t : Token) : ParameterStep → ParameterStep → Prop
  | array {first : Bool} (hkind : t.kind = .word) (hraw : t.raw = arrayTypeName) :
      Leads t (.typeName first) (.bracket t)
  | type {first : Bool} (hkind : t.kind = .word) : Leads t (.typeName first) (.name t.raw [])
  | bracket {array : Token} (hraw : t.raw = "[") : Leads t (.bracket array) (.element array)
  | element {array : Token} (hkind : t.kind = .word) : Leads t (.element array) (.separator array t.raw [])
  | close {array : Token} {element : String} {done : List String} (hdone : done ≠ []) (hraw : t.raw = "]") :
      Leads t (.separator array element done) (.name element done)
  | comma {array : Token} {element : String} {done : List String} (hkind : t.kind = .comma) :
      Leads t (.separator array element done) (.dimension array element done)
  | dimension {array : Token} {element : String} {done : List String} (hkind : t.kind = .word ∨ t.kind = .number) :
      Leads t (.dimension array element done) (.separator array element (done ++ [t.raw]))
  | next (hkind : t.kind = .comma) : Leads t .next (.typeName false)

/-- What is written from the later step on is continued by the token to the front. -/
theorem ParameterStep.Leads.writes {t : Token} {step after : ParameterStep} {ps : List Parameter}
    {marks : List Mark} (h : step.Leads t after) (hmarks : after.Writes ps marks) :
    ∃ marks', step.Writes ps marks' ∧ ∃ mark, ink marks' = mark :: ink marks ∧ mark.Fits t := by
  cases h with
  | array hkind hraw =>
    cases hmarks with
    | bracket p ps hdims =>
      refine ⟨_, .some p ps, .word arrayTypeName, ?_, hkind, hraw⟩
      rw [parameters, parameter, if_neg hdims]
      simp [Mark.arrayEnd, Mark.ink_append]
  | type hkind =>
    generalize htype : t.raw = type at hmarks
    generalize hdims : ([] : List String) = dims at hmarks
    cases hmarks with
    | name p ps =>
      refine ⟨_, .some p ps, .word p.typeName, ?_, hkind, htype⟩
      rw [parameters, parameter, if_pos hdims.symm]
      simp
  | bracket hraw =>
    cases hmarks with
    | element p ps hdims => exact ⟨_, .bracket p ps hdims, .bracket "[", by simp [Mark.ink_append], hraw⟩
  | element hkind =>
    generalize htype : t.raw = type at hmarks
    generalize hdone : ([] : List String) = done at hmarks
    cases hmarks with
    | separator p ps done more hdims hsplit =>
      rw [← hdone, List.nil_append] at hsplit
      refine ⟨_, .element p ps hdims, .word p.typeName, ?_, hkind, htype⟩
      rw [hsplit]
      simp
  | close hdone hraw =>
    cases hmarks with
    | name p ps =>
      refine ⟨_, .separator p ps p.dimensions [] hdone (by simp), ?_⟩
      exact ⟨.bracket "]", by simp [dimensions, arrayEnd], hraw⟩
  | comma hkind =>
    cases hmarks with
    | dimension p ps _ dim more hdims =>
      refine ⟨_, .separator p ps _ (dim :: more) (by simp [hdims]) hdims, ?_⟩
      exact ⟨.symbol .comma, by simp [dimensions], hkind⟩
  | @dimension _ _ done hkind =>
    generalize hread : done ++ [t.raw] = read at hmarks
    cases hmarks with
    | separator p ps read more hdims hsplit =>
      rw [← hread, List.append_assoc, List.singleton_append] at hsplit
      exact ⟨_, .dimension p ps done t.raw more hsplit, .item t.raw, by simp, hkind, rfl⟩
  | next hkind =>
    cases hmarks with
    | some p ps =>
      refine ⟨_, .next (p :: ps), .symbol .comma, ?_, hkind⟩
      simp [moreParameters, parameters]

theorem ParameterStep.Reads.step {before after : ParameterStep} {t : Token} {tokens : List Token}
    {ps : List Parameter} (h : after.Reads tokens ps rest) (hpass : Passes [t] (t :: tokens) tokens)
    (hleads : before.Leads t after) : before.Reads (t :: tokens) ps rest := by
  obtain ⟨hproper, marks, ts, close, hmarks, hclose, hrest, hfits⟩ := h
  obtain ⟨marks', hmarks', mark, hink, hmark⟩ := hleads.writes hmarks
  refine ⟨hproper, marks', t :: ts, close, hmarks', hclose, hpass.trans hrest, ?_⟩
  rw [hink]
  exact .cons hmark hfits

theorem readParameters_meets (opening : Token) (step : ParameterStep) (hready : step.Ready)
    (tokens : List Token) : (readParameters opening source step tokens).Meets (step.Reads tokens) := by
  induction tokens generalizing step with
  | nil => cases step <;> exact rfl
  | cons t rest ih =>
    by_cases hspaces : t.kind = .spaces
    · rw [readParameters_spaces opening source step hspaces]
      refine (ih step hready).weaken ?_
      rintro ps after ⟨hproper, marks, ts, close, hmarks, hclose, hpass, hfits⟩
      exact ⟨hproper, marks, ts, close, hmarks, hclose, (Passes.spaces hspaces rest).trans hpass, hfits⟩
    have hink : (t.kind == TokenKind.spaces) = false := beq_eq_false_iff_ne.mpr hspaces
    -- a token of a class other than line breaks is passed
    have hpass : ∀ {kind : TokenKind}, t.kind = kind → kind ≠ .lineBreak →
        Passes [t] (t :: rest) rest := fun hkind hne => .cons (hkind ▸ hne) hspaces rest
    have hgo : ∀ {after : ParameterStep}, step.Leads t after → after.Ready → Passes [t] (t :: rest) rest →
        (readParameters opening source after rest).Meets (step.Reads (t :: rest)) := fun hleads hafter hpassed =>
      (ih _ hafter).weaken fun ps _ h => h.step hpassed hleads
    cases step <;> simp only [readParameters, hink, Bool.false_eq_true, if_false]
    case typeName first =>
      split_ifs with hbreak hclose hword harray
      · exact .blame rfl
      · obtain ⟨rfl, hkind⟩ : first = true ∧ t.kind = .closeParen := by simpa using hclose
        exact ⟨by simp, [], [], t, .none, hkind, hpass hkind (by decide), .nil⟩
      · exact .stopBefore rfl
      · have hkind : t.kind = .word := by simpa using hword
        exact hgo (.array hkind (by simpa using harray)) trivial (hpass hkind (by decide))
      · have hkind : t.kind = .word := by simpa using hword
        exact hgo (.type hkind) (fun _ => by simpa using harray) (hpass hkind (by decide))
    case bracket array =>
      split_ifs with hbracket
      · exact .stopBefore rfl
      · have hraw : t.raw = "[" := by simpa using hbracket
        exact hgo (.bracket hraw) trivial (.bracket hraw hspaces rest)
    case element array =>
      split_ifs with hword
      · exact .stopBefore rfl
      · have hkind : t.kind = .word := by simpa using hword
        exact hgo (.element hkind) trivial (hpass hkind (by decide))
    case separator array element done =>
      split_ifs with hbreak hbracket hempty hcomma
      · exact .blame rfl
      · exact .blame rfl
      · have hdone : done ≠ [] := by simpa using hempty
        exact hgo (.close hdone (by simpa using hbracket)) (fun h => absurd h hdone)
          (.cons (by simpa using hbreak) hspaces rest)
      · exact .blame rfl
      · have hkind : t.kind = .comma := by simpa using hcomma
        exact hgo (.comma hkind) trivial (hpass hkind (by decide))
    case dimension array element done =>
      split_ifs with hitem
      · exact .stopBefore rfl
      · have hkind : t.kind = .word ∨ t.kind = .number := by
          by_contra hne
          rw [not_or] at hne
          simp [hne.1, hne.2] at hitem
        exact hgo (.dimension hkind) trivial (.cons (by rcases hkind with h | h <;> simp [h]) hspaces rest)
    case name type dims =>
      split_ifs with hword
      · exact .stopBefore rfl
      · have hkind : t.kind = .word := by simpa using hword
        refine .prepend ((ih .next trivial).weaken ?_)
        rintro ps after ⟨hproper, marks, ts, close, hmarks, hclose, hrest, hfits⟩
        obtain ⟨ps⟩ := hmarks
        refine ⟨by simpa using ⟨hready, hproper⟩, _, t :: ts, close, .name ⟨type, t.raw, dims⟩ ps,
          hclose, (hpass hkind (by decide)).trans hrest, ?_⟩
        exact .cons ⟨hkind, rfl⟩ hfits
    case next =>
      split_ifs with hbreak hclose hcomma
      · exact .blame rfl
      · have hkind : t.kind = .closeParen := by simpa using hclose
        exact ⟨by simp, [], [], t, .next [], hkind, hpass hkind (by decide), .nil⟩
      · exact .blame rfl
      · have hkind : t.kind = .comma := by simpa using hcomma
        exact hgo (.next hkind) trivial (hpass hkind (by decide))

end CirOutline
