import CirOutline.Proofs.Layout.SourceLine
import CirOutline.Proofs.Outcome

/-!
What a step of the layout reader depends on. Within a line a step reads the tokens that it takes and
looks at one more, so the tokens after that one can be exchanged; what reads a line to its line break
does not even look at what follows. The source that the tokens are from can be exchanged too: it reaches
the reports and nothing else. On the way entries are only added to the journal, and only the check of how
a keyword is written adds one.
-/

namespace CirOutline

open List

variable {rest : List Token} {t : Token}

/-- How far a step goes: it ends within the line, or it takes the line to its end. -/
inductive Extent where
  | within
  | whole

/-- Entries are only added, and none when the step is quiet. -/
def Journal.Grows (quiet : Bool) (a b : Journal) : Prop := a <+: b ∧ (quiet = true → b = a)

theorem Journal.Grows.rfl {quiet : Bool} {a : Journal} : a.Grows quiet a := ⟨prefix_rfl, fun _ => Eq.refl a⟩

theorem Journal.Grows.trans {quiet : Bool} {a b c : Journal} (hab : a.Grows quiet b)
    (hbc : b.Grows quiet c) : a.Grows quiet c :=
  ⟨hab.1.trans hbc.1, fun h => (hbc.2 h).trans (hab.2 h)⟩

/-- Reports of one fault, each from its own source, at the same place or at the end of the source. -/
inductive Stop.Retold (source source' : Source) : Stop → Stop → Prop
  | there (fault : Fault) (place : Option Location) : Retold source source'
      (.diagnosed (.quoting source.lines fault place)) (.diagnosed (.quoting source'.lines fault place))
  | atEnd (fault : Fault) : Retold source source' (.diagnosed (source.report fault source.ending))
      (.diagnosed (source'.report fault source'.ending))
  | broken (b : Breakdown) : Retold source source' (.broken b) (.broken b)

def Cursor.withRest (tokens : List Token) (c : Cursor) : Cursor := { c with rest := tokens }

/-- The position with another source. -/
def Cursor.reporting (source : Source) (c : Cursor) : Cursor := { c with source }

/-- The position with other tokens, from another source. -/
def Cursor.elsewhere (source : Source) (tokens : List Token) (c : Cursor) : Cursor :=
  (c.withRest tokens).reporting source

/-! ### Sequences -/

open SequenceResult

/-- A reader of sequences that takes one token at a time: each moves it on, gives an element, closes
the sequence or stops the reader. -/
structure Tokenwise {σ α : Type} (read : Source → σ → List Token → SequenceResult (List α)) : Prop where
  ended : ∀ s, ∃ fault, (∃ place, ∀ source, read source s [] = .error ⟨source.report fault place, []⟩) ∨
    ∀ source, read source s [] = .error ⟨source.report fault source.ending, []⟩
  step : ∀ s t, (∃ s', ∀ source ts, read source s (t :: ts) = read source s' ts) ∨
    (∃ s' a, ∀ source ts, read source s (t :: ts) = prepend a (read source s' ts)) ∨
    (∀ source ts, read source s (t :: ts) = .ok ([], ts)) ∨
    ∃ fault place, ∃ left : List Token → List Token, ∀ source ts,
      read source s (t :: ts) = .error ⟨source.report fault place, left ts⟩

theorem readItems_tokenwise (construct : String) : Tokenwise (readItems construct) where
  ended _ := ⟨_, .inr fun _ => rfl⟩
  step s t := by
    simp only [readItems]
    split_ifs
    · exact .inl ⟨s, fun _ _ => rfl⟩
    · exact .inr (.inr (.inr ⟨_, t.location, cons t, fun _ _ => rfl⟩))
    · exact .inr (.inr (.inl fun _ _ => rfl))
    · exact .inr (.inl ⟨false, t.raw, fun _ _ => rfl⟩)
    · exact .inl ⟨true, fun _ _ => rfl⟩
    all_goals exact .inr (.inr (.inr ⟨_, t.location, cons t, fun _ _ => rfl⟩))

theorem readArguments_tokenwise (opening : Token) : Tokenwise (readArguments opening) where
  ended _ := ⟨_, .inl ⟨_, fun _ => rfl⟩⟩
  step s t := by
    simp only [readArguments]
    split_ifs
    · exact .inr (.inr (.inr ⟨_, _, cons t, fun _ _ => rfl⟩))
    · exact .inr (.inl ⟨s + 1, t, fun _ _ => rfl⟩)
    · cases s with
      | zero => exact .inr (.inr (.inl fun _ _ => rfl))
      | succ s => exact .inr (.inl ⟨s, t, fun _ _ => rfl⟩)
    · exact .inr (.inl ⟨s, t, fun _ _ => rfl⟩)

theorem readParameters_spaces (opening : Token) (source : Source) (step : ParameterStep) (h : t.kind = .spaces)
    (rest : List Token) : readParameters opening source step (t :: rest) = readParameters opening source step rest := by
  cases step <;> simp [readParameters, h]

theorem readParameters_tokenwise (opening : Token) : Tokenwise (readParameters opening) where
  ended s := by cases s <;> first | exact ⟨_, .inl ⟨_, fun _ => rfl⟩⟩ | exact ⟨_, .inr fun _ => rfl⟩
  step s t := by
    by_cases hspaces : t.kind = .spaces
    · exact .inl ⟨s, fun source => readParameters_spaces opening source s hspaces⟩
    · cases s <;> simp only [readParameters, beq_iff_eq, hspaces, if_false] <;> split_ifs
      all_goals first
        | exact .inl ⟨_, fun _ _ => rfl⟩
        | exact .inr (.inl ⟨_, _, fun _ _ => rfl⟩)
        | exact .inr (.inr (.inl fun _ _ => rfl))
        | exact .inr (.inr (.inr ⟨_, _, cons t, fun _ _ => rfl⟩))
        | exact .inr (.inr (.inr ⟨_, _, id, fun _ _ => rfl⟩))

/-- What a sequence comes to depends on the tokens that it takes, and what it reports on all of them. -/
theorem Tokenwise.reads {σ α : Type} {read : Source → σ → List Token → SequenceResult (List α)} (h : Tokenwise read)
    (source : Source) (s : σ) (tokens : List Token) :
    (∃ as taken rest, tokens = taken ++ rest ∧ read source s tokens = .ok (as, rest) ∧
      ∀ source' after, read source' s (taken ++ after) = .ok (as, after)) ∨
    ∃ report rest, read source s tokens = .error ⟨report, rest⟩ ∧ ∀ source', ∃ report',
      read source' s tokens = .error ⟨report', rest⟩ ∧
        (Stop.diagnosed report).Retold source source' (.diagnosed report') := by
  induction tokens generalizing s with
  | nil =>
    obtain ⟨fault, ⟨place, hstop⟩ | hstop⟩ := h.ended s
    · exact .inr ⟨_, _, hstop source, fun source' => ⟨_, hstop source', .there fault (some place)⟩⟩
    · exact .inr ⟨_, _, hstop source, fun source' => ⟨_, hstop source', .atEnd fault⟩⟩
  | cons t tokens ih =>
    rcases h.step s t with ⟨s', hstep⟩ | ⟨s', a, hstep⟩ | hstep | ⟨fault, place, left, hstep⟩
    · rcases ih s' with ⟨as, taken, rest, rfl, hread, hafter⟩ | ⟨report, rest, hread, hretold⟩
      · exact .inl ⟨as, t :: taken, rest, rfl, (hstep _ _).trans hread, fun _ _ => (hstep _ _).trans (hafter _ _)⟩
      · refine .inr ⟨report, rest, (hstep _ _).trans hread, fun source' => ?_⟩
        rw [hstep]
        exact hretold source'
    · rcases ih s' with ⟨as, taken, rest, rfl, hread, hafter⟩ | ⟨report, rest, hread, hretold⟩
      · refine .inl ⟨a :: as, t :: taken, rest, rfl, by rw [hstep, hread]; rfl, fun source' after => ?_⟩
        rw [cons_append, hstep, hafter]
        rfl
      · refine .inr ⟨report, rest, by rw [hstep, hread]; rfl, fun source' => ?_⟩
        obtain ⟨report', hread', hreport⟩ := hretold source'
        exact ⟨report', by rw [hstep, hread']; rfl, hreport⟩
    · exact .inl ⟨[], [t], tokens, rfl, hstep _ _, fun _ _ => hstep _ _⟩
    · exact .inr ⟨_, _, hstep _ _, fun source' => ⟨_, hstep _ _, .there fault (some place)⟩⟩

namespace Reader

variable {α β : Type} {m : Reader α} {f : α → Reader β} {c c' : Cursor} {extent : Extent} {quiet : Bool} {stop : Stop}

/-- With another source the step stops at the same position, for the same fault. -/
def Retells (m : Reader α) (c : Cursor) (stop : Stop) (c' : Cursor) : Prop :=
  ∀ source, ∃ stop', m (c.reporting source) = .error stop' (c'.reporting source) ∧ stop.Retold c'.source source stop'

/-- The same is read from another source, and with other tokens after those that count: the next one for
a step within the line, and for the whole line its line break. -/
def Exchanges (m : Reader α) (c : Cursor) (a : α) (c' : Cursor) : Extent → Prop
  | .within => ∃ taken, c.rest = taken ++ c'.rest ∧ ∀ source after, after.head? = c'.rest.head? →
      m (c.elsewhere source (taken ++ after)) = .ok a (c'.elsewhere source after)
  | .whole => (∀ source, m (c.reporting source) = .ok a (c'.reporting source)) ∧
      (c'.rest ≠ [] → ∃ taken stop, stop.kind = .lineBreak ∧ c.rest = taken ++ stop :: c'.rest ∧
        ∀ source after, m (c.elsewhere source (taken ++ stop :: after)) = .ok a (c'.elsewhere source after))

/-- What the step gives does not depend on later tokens or on the source, and neither does its fault. -/
def Local (extent : Extent) (quiet : Bool) (m : Reader α) (c : Cursor) : Prop :=
  Ends m c (fun a c' => c.journal.Grows quiet c'.journal ∧ Exchanges m c a c' extent)
    fun stop c' => c.journal.Grows quiet c'.journal ∧ Retells m c stop c'

theorem Retells.bind {stop : Stop} {c' : Cursor} (h : Retells m c stop c') : Retells (m >>= f) c stop c' := by
  intro source
  obtain ⟨stop', hstop, hretold⟩ := h source
  exact ⟨stop', bind_of_error hstop, hretold⟩

theorem Local.bind (hm : Local .within quiet m c) (hf : ∀ a c', m c = .ok a c' → Local extent quiet (f a) c') :
    Local extent quiet (m >>= f) c := by
  cases h : m c with
  | error stop c1 =>
    obtain ⟨hjournal, hretells⟩ := hm.error h
    exact .of_error (bind_of_error h) ⟨hjournal, hretells.bind⟩
  | ok a c1 =>
    obtain ⟨hjournal, taken, hrest, hlocal⟩ := hm.ok h
    have hswap : ∀ source after, after.head? = c1.rest.head? →
        (m >>= f) (c.elsewhere source (taken ++ after)) = f a (c1.elsewhere source after) :=
      fun source after hafter => bind_of_ok (hlocal source after hafter)
    have hsame : ∀ source, (m >>= f) (c.reporting source) = f a (c1.reporting source) := by
      intro source
      have hsame := hswap source c1.rest rfl
      rwa [← hrest] at hsame
    refine .bind_ok h ((hf a c1 h).mono (fun b c2 hb => ⟨hjournal.trans hb.1, ?_⟩)
      fun stop c2 hstop => ⟨hjournal.trans hstop.1, fun source => ?_⟩)
    · cases extent with
      | within =>
        obtain ⟨more, hrest1, hlocal⟩ := hb.2
        refine ⟨taken ++ more, by rw [hrest, hrest1, append_assoc], fun source after hafter => ?_⟩
        rw [append_assoc, hswap _ _ (by rw [hrest1, head?_append, head?_append, hafter])]
        exact hlocal source after hafter
      | whole =>
        obtain ⟨hsource, hline⟩ := hb.2
        refine ⟨fun source => (hsame source).trans (hsource source), fun hmore => ?_⟩
        obtain ⟨more, stop, hstop, hrest1, hlocal⟩ := hline hmore
        refine ⟨taken ++ more, stop, hstop, by rw [hrest, hrest1, append_assoc], fun source after => ?_⟩
        rw [append_assoc, hswap _ _ (by rw [hrest1, head?_append, head?_append]; rfl)]
        exact hlocal source after
    · obtain ⟨stop', hrun, hretold⟩ := hstop.2 source
      exact ⟨stop', (hsame source).trans hrun, hretold⟩

/-! ### Steps within a line -/

theorem local_pure (a : α) : Local .within quiet (pure a : Reader α) c :=
  .pure ⟨.rfl, [], rfl, fun _ _ _ => rfl⟩

theorem failAt_local (fault : Fault) (place : Location) (c : Cursor) :
    Local extent quiet (failAt fault place : Reader α) c :=
  .of_error rfl ⟨.rfl, fun _ => ⟨_, rfl, .there fault (some place)⟩⟩

theorem failHere_local (fault : Fault) (c : Cursor) : Local extent quiet (failHere fault : Reader α) c := by
  refine .of_error rfl ⟨.rfl, fun source => ⟨_, rfl, ?_⟩⟩
  obtain ⟨_ | ⟨t, rest⟩, level, unit, typeNames, journal, _⟩ := c
  · exact .atEnd fault
  · exact .there fault (some t.location)

theorem local_modify {g : Cursor → Cursor} (hjournal : c.journal.Grows quiet (g c).journal)
    (hrest : ∀ source tokens, g (c.elsewhere source tokens) = (g c).elsewhere source tokens) :
    Local .within quiet (modify g : Reader PUnit) c := by
  have hsame : g c = (g c).elsewhere c.source c.rest := hrest c.source c.rest
  refine .modify ⟨hjournal, [], (congrArg Cursor.rest hsame).symm, fun source after _ => ?_⟩
  exact congrArg (EStateM.Result.ok PUnit.unit) (hrest source after)

theorem takeWhile_local (p : Token → Bool) (c : Cursor) : Local .within quiet (takeWhile p) c := by
  refine .of_ok rfl ⟨.rfl, c.rest.takeWhile p, takeWhile_append_dropWhile.symm, fun source after hafter => ?_⟩
  have hstop : after.takeWhile p = [] ∧ after.dropWhile p = after := by
    cases after with
    | nil => exact ⟨rfl, rfl⟩
    | cons t after =>
      have hnot := head?_dropWhile_not p c.rest
      rw [← hafter] at hnot
      have hnot : p t = false := by simpa using hnot
      simp [hnot]
  have htaken : ∀ t ∈ c.rest.takeWhile p, p t = true := fun t ht => mem_takeWhile_imp ht
  change EStateM.Result.ok ((c.rest.takeWhile p ++ after).takeWhile p)
    (c.elsewhere source ((c.rest.takeWhile p ++ after).dropWhile p)) = _
  rw [takeWhile_append_of_pos htaken, dropWhile_append_of_pos htaken, hstop.1, hstop.2, append_nil]
  rfl

theorem skipSpaces_local (c : Cursor) : Local .within quiet skipSpaces c := by
  refine (takeWhile_local _ c).bind fun _ c _ => .bind_get (.pure ⟨.rfl, [], rfl, fun source after hafter => ?_⟩)
  change EStateM.Result.ok after.head? (c.elsewhere source after) = _
  rw [hafter]

theorem next_eq (hc : c.rest = t :: rest) : next c = .ok t { c with rest := rest } := by
  cases c
  cases hc
  rfl

theorem advance_eq (hc : c.rest = t :: rest) : advance c = .ok () { c with rest := rest } :=
  bind_of_ok (next_eq hc)

theorem next_local (hc : c.rest = t :: rest) : Local .within quiet next c := by
  obtain ⟨_, level, unit, typeNames, journal, source⟩ := c
  obtain rfl : _ = t :: rest := hc
  exact .of_ok rfl ⟨.rfl, [t], rfl, fun _ _ _ => rfl⟩

theorem atLineEnd_local (c : Cursor) : Local .within quiet atLineEnd c := by
  obtain ⟨_ | ⟨t, rest⟩, level, unit, typeNames, journal, source⟩ := c
  · refine .of_ok rfl ⟨.rfl, [], rfl, fun source after hafter => ?_⟩
    rw [head?_eq_none_iff.mp hafter]
    rfl
  · refine .of_ok rfl ⟨.rfl, [], rfl, fun source after hafter => ?_⟩
    obtain ⟨more, rfl⟩ := head?_eq_some_iff.mp hafter
    rfl

theorem checkCase_local (t : Token) (c : Cursor) : Local .within false (checkCase t) c := by
  rw [checkCase]
  split_ifs
  · exact local_pure ()
  · exact local_modify ⟨prefix_append _ _, fun h => absurd h Bool.false_ne_true⟩ fun _ _ => rfl

theorem sequence_local {σ : Type} {read : Source → σ → List Token → SequenceResult (List α)} (h : Tokenwise read)
    (s : σ) (c : Cursor) : Local .within quiet (sequence (read · s)) c := by
  rw [Local, Ends, sequence]
  rcases h.reads c.source s c.rest with ⟨as, taken, rest, hrest, hread, hafter⟩ | ⟨report, rest, hread, hretold⟩
  · rw [hread]
    refine ⟨.rfl, taken, hrest, fun source after _ => ?_⟩
    simp only [sequence, Cursor.elsewhere, Cursor.reporting, Cursor.withRest, hafter]
  · rw [hread]
    refine ⟨.rfl, fun source => ?_⟩
    obtain ⟨report', hread', hreport⟩ := hretold source
    exact ⟨_, by simp only [sequence, Cursor.reporting, hread'], hreport⟩

/-! ### Lines -/

theorem Local.map (h : Local .whole quiet m c) (g : α → β) : Local .whole quiet (m >>= fun a => pure (g a)) c := by
  cases hm : m c with
  | error stop c1 =>
    obtain ⟨hjournal, hretells⟩ := h.error hm
    exact .of_error (bind_of_error hm) ⟨hjournal, hretells.bind⟩
  | ok a c1 =>
    obtain ⟨hjournal, hsource, hline⟩ := h.ok hm
    refine .of_ok (bind_of_ok hm) ⟨hjournal, fun source => bind_of_ok (hsource source), fun hmore => ?_⟩
    obtain ⟨taken, stop, hstop, hrest, hafter⟩ := hline hmore
    exact ⟨taken, stop, hstop, hrest, fun source after => bind_of_ok (hafter source after)⟩

/-- The last step of `finishLine`: the line is over, with these comments at its end. -/
def endLine (comments : List Node) : Reader (List Node) := do
  match (← get).rest with
  | [] => return comments
  | t :: _ => if t.kind == .lineBreak then advance; return comments else failUnexpected t "end of line"

section

variable {comments : List Node}

theorem endLine_nil (hc : c.rest = []) : endLine comments c = .ok comments c := by
  rw [endLine, get_bind, hc]
  rfl

theorem endLine_break (hc : c.rest = t :: rest) (ht : t.kind = .lineBreak) :
    endLine comments c = .ok comments { c with rest := rest } := by
  rw [endLine, get_bind, hc]
  simp only [ht, beq_self_eq_true, if_true]
  exact bind_of_ok (advance_eq hc)

theorem endLine_ink (hc : c.rest = t :: rest) (ht : t.kind ≠ .lineBreak) :
    endLine comments c = failUnexpected t "end of line" c := by
  rw [endLine, get_bind, hc]
  simp only [beq_eq_false_iff_ne.mpr ht]
  rfl

end

theorem endLine_local (comments : List Node) (c : Cursor) : Local .whole quiet (endLine comments) c := by
  obtain ⟨_ | ⟨t, rest⟩, level, unit, typeNames, journal, source⟩ := c
  · exact .of_ok rfl ⟨.rfl, fun _ => rfl, fun hmore => absurd rfl hmore⟩
  · by_cases hstop : t.kind = .lineBreak
    · refine .of_ok (endLine_break rfl hstop) ⟨.rfl, fun _ => endLine_break rfl hstop, fun _ => ?_⟩
      exact ⟨[], t, hstop, rfl, fun _ _ => endLine_break rfl hstop⟩
    · refine .of_error (endLine_ink rfl hstop) ⟨.rfl, fun _ => ⟨_, endLine_ink rfl hstop, ?_⟩⟩
      exact .there _ (some t.location)

/-- The next token that is no white space, behind the first one. -/
def secondInk (tokens : List Token) : Option Token := (tokens.tail.dropWhile fun t => t.kind == .spaces).head?

/-- It stands before the line break of the line, or is that. -/
theorem secondInk_exchange {taken after : List Token} {stop : Token} (hstop : stop.kind = .lineBreak)
    (hne : taken ≠ []) : secondInk (taken ++ stop :: after) = secondInk (taken ++ stop :: rest) := by
  cases taken with
  | nil => exact absurd rfl hne
  | cons first taken =>
    have hspaces : (stop.kind == .spaces) = false := by simp [hstop]
    simp only [secondInk, cons_append, tail_cons, dropWhile_append, dropWhile_cons, hspaces, Bool.false_eq_true,
      if_false]
    split
    · rfl
    · simp only [head?_append, head?_cons]

/-- From both positions the same is seen: the names of types, and behind a first token that is no line
break the next one. -/
structure Sees (c d : Cursor) : Prop where
  types : d.typeNames = c.typeNames
  second : ∀ t rest, c.rest = t :: rest → t.kind ≠ .lineBreak → secondInk d.rest = secondInk c.rest

theorem local_get {g : Cursor → Reader α} (hg : ∀ d, Sees c d → g d = g c) (h : Local .whole quiet (g c) c) :
    Local .whole quiet (get >>= g) c := by
  have hsame : ∀ source, g (c.reporting source) = g c := fun _ => hg _ ⟨rfl, fun _ _ _ _ => rfl⟩
  refine Ends.bind_get (Ends.mono h ?_ fun stop c' hstop => ⟨hstop.1, fun source => ?_⟩)
  · rintro a c' ⟨hjournal, hsource, hline⟩
    refine ⟨hjournal, fun source => (congrFun (hsame source) _).trans (hsource source), fun hmore => ?_⟩
    obtain ⟨taken, stop, hstop, hrest, hafter⟩ := hline hmore
    have hexchanged : ∀ source after, g (c.elsewhere source (taken ++ stop :: after)) = g c := by
      refine fun source after => hg _ ⟨rfl, fun t more hc hkind => ?_⟩
      rw [hrest]
      refine secondInk_exchange hstop fun hnil => hkind ?_
      rw [hnil, hc] at hrest
      exact (List.cons.inj hrest).1 ▸ hstop
    exact ⟨taken, stop, hstop, hrest, fun source after =>
      (congrFun (hexchanged source after) _).trans (hafter source after)⟩
  · obtain ⟨stop', hrun, hretold⟩ := hstop.2 source
    exact ⟨stop', (congrFun (hsame source) _).trans hrun, hretold⟩

end Reader

end CirOutline
