import CirOutline.Proofs.Layout.LineReading

/-!
The next line of a block. The first token of a line decides its level: `indent?` measures it by the
unit of indentation. What looking for a line gives is computed from the tokens behind the blank lines
and from that measure, in one of four ways (`Search`); all that is said of it elsewhere is read off them.
-/

namespace CirOutline

open List Option SourceLine Token

variable {unit : Option Nat} {l : SourceLine} {c c' : Cursor} {level floor : Nat} {t u : Token}
  {a b rest : List Token}

def Filled (tokens : List Token) : Prop := ∀ t ∈ tokens, t.kind = .spaces → 0 < t.raw.length

theorem Filled.of_suffix (h : Filled b) (hab : a <:+ b) : Filled a :=
  fun t ht => h t (hab.subset ht)

/-! ### Blank lines -/

def WholeLines (tokens : List Token) : Prop := ∀ t ∈ tokens.getLast?, t.kind = .lineBreak

theorem wholeLines_nil : WholeLines [] := by simp [WholeLines]

theorem wholeLines_stop {stop : Token} (h : stop.kind = .lineBreak) (front : List Token) :
    WholeLines (front ++ [stop]) := by simpa [WholeLines] using h

theorem WholeLines.append (ha : WholeLines a) (hb : WholeLines b) : WholeLines (a ++ b) := by
  intro t ht
  rw [getLast?_append, Option.mem_def, Option.or_eq_some_iff] at ht
  rcases ht with ht | ⟨-, ht⟩
  · exact hb t ht
  · exact ha t ht

/-- Blank lines are white space and line breaks. When something follows, the last of them is over, and
they are dropped whatever follows. -/
theorem dropBlankLines_blank (tokens : List Token) : ∃ blank, tokens = blank ++ dropBlankLines tokens ∧
      (∀ t ∈ blank, t.kind = .spaces ∨ t.kind = .lineBreak) ∧
      (dropBlankLines tokens ≠ [] →
        WholeLines blank ∧ ∀ after, dropBlankLines (blank ++ after) = dropBlankLines after) := by
  fun_induction dropBlankLines tokens with
  | case1 => exact ⟨[], rfl, by simp, fun hmore => absurd rfl hmore⟩
  | case2 t rest hbreak ih =>
    have hkind : t.kind = .lineBreak := by simpa using hbreak
    obtain ⟨blank, hsplit, hblank, hended⟩ := ih
    refine ⟨t :: blank, congrArg (t :: ·) hsplit, ?_, fun hmore => ?_⟩
    · exact forall_mem_cons.mpr ⟨.inr hkind, hblank⟩
    · obtain ⟨hwhole, hdrop⟩ := hended hmore
      refine ⟨(wholeLines_stop hkind []).append hwhole, fun after => ?_⟩
      rw [cons_append, dropBlankLines.eq_def]
      simpa [hkind] using hdrop after
  | case3 t hbreak hspaces =>
    have hkind : t.kind = .spaces := by simpa using hspaces
    exact ⟨[t], rfl, by simp [hkind], fun hmore => absurd rfl hmore⟩
  | case4 t hbreak hspaces next rest hnext ih =>
    have hkind : t.kind = .spaces := by simpa using hspaces
    obtain ⟨blank, hsplit, hblank, hended⟩ := ih
    refine ⟨t :: blank, congrArg (t :: ·) hsplit, ?_, fun hmore => ?_⟩
    · exact forall_mem_cons.mpr ⟨.inl hkind, hblank⟩
    · obtain ⟨hwhole, hdrop⟩ := hended hmore
      cases blank with
      | nil => exact absurd (by simpa using hnext) (dropBlankLines_head hsplit.symm).1
      | cons first blank =>
        obtain ⟨rfl, -⟩ := List.cons.inj hsplit
        refine ⟨fun u hu => hwhole u (by rwa [getLast?_cons_cons] at hu), fun after => ?_⟩
        refine Eq.trans ?_ (hdrop after)
        rw [cons_append, cons_append, dropBlankLines.eq_def (t :: _)]
        simp [hbreak, hspaces, hnext]
  | case5 t hbreak hspaces next rest hnext =>
    exact ⟨[], rfl, by simp, fun _ => ⟨wholeLines_nil, fun _ => rfl⟩⟩
  | case6 t rest hbreak hspaces => exact ⟨[], rfl, by simp, fun _ => ⟨wholeLines_nil, fun _ => rfl⟩⟩

theorem dropBlankLines_idem (tokens : List Token) :
    dropBlankLines (dropBlankLines tokens) = dropBlankLines tokens := by
  by_cases hmore : dropBlankLines tokens = []
  · rw [hmore]
    rfl
  · obtain ⟨blank, hsplit, -, hended⟩ := dropBlankLines_blank tokens
    have h := (hended hmore).2 (dropBlankLines tokens)
    rwa [← hsplit, eq_comm] at h

theorem dropBlankLines_of_line (hbreak : t.kind ≠ .lineBreak)
    (hnext : t.kind = .spaces → ∃ u more, rest = u :: more ∧ u.kind ≠ .lineBreak) :
    dropBlankLines (t :: rest) = t :: rest := by
  rw [dropBlankLines.eq_def]
  by_cases hspaces : t.kind = .spaces
  · obtain ⟨u, more, rfl, hu⟩ := hnext hspaces
    simp [hspaces, hu]
  · simp [hbreak, hspaces]

/-- The ink of a line that is not blank starts with its first token or with the second one. -/
theorem start_of_dropBlankLines {tokens : List Token} (h : dropBlankLines tokens = u :: rest) :
    ∃ t more, ink [u] ++ rest = t :: more ∧ t.kind ≠ .lineBreak := by
  obtain ⟨hbreak, hnext⟩ := dropBlankLines_head h
  by_cases hspaces : u.kind = .spaces
  · obtain ⟨t, more, rfl, ht⟩ := hnext hspaces
    exact ⟨t, more, by rw [ink_cons_of_spaces hspaces]; rfl, ht⟩
  · exact ⟨u, rest, by rw [ink_cons hspaces]; rfl, hbreak⟩

theorem Filled.head {tokens : List Token} (h : Filled tokens) (hdrop : dropBlankLines tokens = t :: rest) :
    t.kind = .spaces → 0 < t.raw.length :=
  h t ((dropBlankLines_suffix tokens).subset (hdrop ▸ mem_cons_self))

theorem line_of_start (h : u.kind ≠ .lineBreak) (rest : List Token) :
    lineInk (ink [u] ++ rest) = lineInk (u :: rest) ∧ afterLine (ink [u] ++ rest) = afterLine (u :: rest) := by
  by_cases hspaces : u.kind = .spaces
  · rw [ink_cons_of_spaces hspaces, lineInk_cons_of_spaces hspaces, afterLine_cons h]
    exact ⟨rfl, rfl⟩
  · rw [ink_cons hspaces]
    exact ⟨rfl, rfl⟩

/-! ### The unit of indentation -/

theorem unitWidth_append (a b : List SourceLine) : unitWidth (a ++ b) = (unitWidth a).or (unitWidth b) := by
  rw [unitWidth, map_append, find?_append, unitWidth, unitWidth]

theorem unitWidth_cons (l : SourceLine) (ls : List SourceLine) :
    unitWidth (l :: ls) = (unitWidth [l]).or (unitWidth ls) :=
  unitWidth_append [l] ls

theorem unitWidth_singleton (l : SourceLine) : unitWidth [l] = if l.width = 0 then none else some l.width := by
  by_cases h : l.width = 0 <;> simp [unitWidth, h]

def Extends (earlier later : Option Nat) : Prop := ∀ width, earlier = some width → later = some width

theorem Extends.refl (unit : Option Nat) : Extends unit unit := fun _ h => h

theorem Extends.trans {a b c : Option Nat} (hab : Extends a b) (hbc : Extends b c) : Extends a c :=
  fun width h => hbc width (hab width h)

theorem extends_or (a b : Option Nat) : Extends a (a.or b) := fun width h => by
  rw [h, some_or]

/-- A line is measured: it fixes the unit if it is the first indented one, it fits the unit, and it
has a level. The level stays when the unit does. -/
structure Measured (unit : Option Nat) (l : SourceLine) (level : Nat) (after : Option Nat) :
    Prop where
  unit : after = unit.or (unitWidth [l])
  divides : ∀ later, Extends after later → later.getD 1 ∣ l.width
  level : ∀ later, Extends after later → l.level later = level

theorem Measured.of_flush (h : l.width = 0) : Measured unit l 0 unit where
  unit := by rw [unitWidth_singleton, if_pos h, or_none]
  divides := fun later _ => by rw [h]; exact Nat.dvd_zero _
  level := fun later _ => by rw [SourceLine.level, h, Nat.zero_div]

theorem Measured.of_first (h : 0 < l.width) : Measured none l 1 (some l.width) where
  unit := by rw [unitWidth_singleton, if_neg (Nat.pos_iff_ne_zero.mp h), none_or]
  divides := fun later hlater => by
    rw [hlater _ rfl]
    exact Nat.dvd_refl l.width
  level := fun later hlater => by
    rw [SourceLine.level, hlater _ rfl, getD_some, Nat.div_self h]

theorem Measured.of_unit {unit : Nat} (h : unit ∣ l.width) :
    Measured (some unit) l (l.width / unit) (some unit) where
  unit := rfl
  divides := fun later hlater => by rwa [hlater _ rfl, getD_some]
  level := fun later hlater => by rw [SourceLine.level, hlater _ rfl, getD_some]

/-- The level of a line that starts with a token, and the unit afterwards; none for white space that
is empty or no multiple of the unit. -/
def indent? (unit : Option Nat) (t : Token) : Option (Nat × Option Nat) :=
  if t.kind != .spaces then some (0, unit)
  else match unit with
    | none => if t.raw.length == 0 then none else some (1, some t.raw.length)
    | some width => if t.raw.length % width != 0 then none else some (t.raw.length / width, some width)

/-- What is noted when a line is measured. -/
def indentNotes (unit : Option Nat) (t : Token) : Journal :=
  if t.kind == .spaces && unit.isNone then [⟨.layout, .debug, "Indentation unit is " ++
    toString t.raw.length ++ " (line " ++ toString t.location.line ++ ")"⟩]
  else []

/-- Why a line cannot be measured. -/
def indentStop (source : Source) (unit : Option Nat) (t : Token) : Stop :=
  match unit with
  | none => .broken .emptyIndentationUnit
  | some width => .diagnosed (source.report (.improperIndentation t.raw.length width) t.location)

theorem isReading_indentStop (h : indent? unit t = none) (hfilled : t.kind = .spaces → 0 < t.raw.length)
    (source : Source) : (indentStop source unit t).IsReading := by
  cases unit with
  | none =>
    by_cases hspaces : t.kind = .spaces
    · simp [indent?, hspaces, (hfilled hspaces).ne'] at h
    · simp [indent?, hspaces] at h
  | some width => rfl

theorem warnings_indentNotes (unit : Option Nat) (t : Token) : (indentNotes unit t).warnings .layout = [] := by
  rw [indentNotes]
  split <;> rfl

theorem measured_of_indent? {after : Option Nat} (h : indent? unit t = some (level, after))
    (hfilled : t.kind = .spaces → 0 < t.raw.length) (hbreak : t.kind ≠ .lineBreak) (rest : List Token) :
    Measured unit (lineTokens (t :: rest)) level after := by
  have hwidth : width (lineTokens (t :: rest)) = if t.kind == .spaces then t.raw.length else 0 := by
    rw [lineTokens_cons hbreak, width]
  by_cases hspaces : t.kind = .spaces
  · simp only [hspaces, beq_self_eq_true, if_true] at hwidth
    have hpos := hfilled hspaces
    cases unit with
    | none =>
      obtain ⟨rfl, rfl⟩ : 1 = level ∧ some t.raw.length = after := by simpa [indent?, hspaces, hpos.ne'] using h
      rw [← hwidth] at hpos ⊢
      exact .of_first hpos
    | some unit =>
      by_cases hmod : t.raw.length % unit = 0
      · obtain ⟨rfl, rfl⟩ : t.raw.length / unit = level ∧ some unit = after := by
          simpa [indent?, hspaces, hmod] using h
        rw [← hwidth] at hmod ⊢
        exact .of_unit (Nat.dvd_of_mod_eq_zero hmod)
      · simp [indent?, hspaces, hmod] at h
  · obtain ⟨rfl, rfl⟩ : 0 = level ∧ unit = after := by simpa [indent?, hspaces] using h
    exact .of_flush (by simpa [hspaces] using hwidth)

theorem warnings_append_of_nil {journal note : Journal} (h : note.warnings .layout = []) :
    Journal.warnings (journal ++ note) .layout = journal.warnings .layout := by
  rw [Journal.warnings, filter_append, map_append]
  exact (congrArg (_ ++ ·) h).trans (append_nil _)

namespace Reader

theorem indentation_eq (hindent : indent? c.unit u = some (level, unit)) (hc : c.rest = u :: rest) :
    indentation c = .ok level
      ⟨ink [u] ++ rest, level, unit, c.typeNames, c.journal ++ indentNotes c.unit u, c.source⟩ := by
  obtain ⟨_, _, known, types, journal, source⟩ := c
  obtain rfl : _ = u :: rest := hc
  rw [indentation, get_bind]
  by_cases hspaces : u.kind = .spaces
  · have hkind : (u.kind != .spaces) = false := by simp [hspaces]
    cases known with
    | none =>
      cases hwidth : u.raw.length == 0 with
      | true => simp [indent?, hkind, hwidth] at hindent
      | false =>
        obtain ⟨rfl, rfl⟩ : 1 = level ∧ some u.raw.length = unit := by
          simpa [indent?, hkind, hwidth] using hindent
        simp only [hwidth, ink_cons_of_spaces hspaces, indentNotes, hspaces]
        rfl
    | some width =>
      cases hwidth : u.raw.length % width != 0 with
      | true => simp [indent?, hkind, hwidth] at hindent
      | false =>
        obtain ⟨rfl, rfl⟩ : u.raw.length / width = level ∧ some width = unit := by
          simpa [indent?, hkind, hwidth] using hindent
        have hnotes : indentNotes (some width) u = [] := by simp [indentNotes]
        simp only [hwidth, ink_cons_of_spaces hspaces, hnotes, hspaces, append_nil]
        rfl
  · have hkind : (u.kind != .spaces) = true := by simpa using hspaces
    obtain ⟨rfl, rfl⟩ : 0 = level ∧ known = unit := by simpa [indent?, hkind] using hindent
    have hnotes : indentNotes known u = [] := by simp [indentNotes, hspaces]
    simp only [hkind, if_true, ink_cons hspaces, hnotes, append_nil]
    rfl

theorem indentation_fails (hindent : indent? c.unit u = none) (hc : c.rest = u :: rest) :
    indentation c = .error (indentStop c.source c.unit u)
      ⟨rest, c.level, c.unit.or (some u.raw.length), c.typeNames, c.journal ++ indentNotes c.unit u, c.source⟩ := by
  obtain ⟨_, _, known, types, journal, source⟩ := c
  obtain rfl : _ = u :: rest := hc
  by_cases hspaces : u.kind = .spaces
  swap
  · simp [indent?, hspaces] at hindent
  rw [indentation, get_bind]
  cases known with
  | none =>
    have hwidth : u.raw.length = 0 := by simpa [indent?, hspaces] using hindent
    simp only [hwidth, indentNotes, hspaces]
    rfl
  | some width =>
    have hwidth : (u.raw.length % width != 0) = true := by simpa [indent?, hspaces] using hindent
    have hnotes : indentNotes (some width) u = [] := by simp [indentNotes]
    simp only [hwidth, hnotes, hspaces, append_nil]
    rfl

theorem dropBlank_eq {tokens : List Token} (h : dropBlankLines c.rest = tokens) :
    (modify fun c => { c with rest := dropBlankLines c.rest } : Reader PUnit) c = .ok ⟨⟩ (c.withRest tokens) := by
  rw [← h]
  rfl

theorem nextLine_nil (h : dropBlankLines c.rest = []) : nextLine floor c = .ok none (c.withRest []) :=
  bind_of_ok (dropBlank_eq h)

theorem nextLine_cons (h : dropBlankLines c.rest = u :: rest) :
    nextLine floor c = (do
      let level ← indentation
      if level < floor then
        modify fun d => { d with rest := u :: rest, level := c.level }
        return none
      else
        match (← get).rest with
        | [] => throw (Stop.broken .noToken)
        | t :: _ => return some (level, t) : Reader (Option (Nat × Token)))
      (c.withRest (u :: rest)) :=
  bind_of_ok (dropBlank_eq h)

theorem nextLine_stops (hdrop : dropBlankLines c.rest = u :: rest) (hindent : indent? c.unit u = none) :
    nextLine floor c = .error (indentStop c.source c.unit u)
      ⟨rest, c.level, c.unit.or (some u.raw.length), c.typeNames, c.journal ++ indentNotes c.unit u, c.source⟩ := by
  have hfails : indentation (c.withRest (u :: rest)) = _ := indentation_fails hindent rfl
  rw [nextLine_cons hdrop, bind_of_error hfails]
  rfl

section

variable (hdrop : dropBlankLines c.rest = u :: rest) (hindent : indent? c.unit u = some (level, unit))
include hdrop hindent

theorem nextLine_back (hlevel : level < floor) : nextLine floor c =
    .ok none ⟨u :: rest, c.level, unit, c.typeNames, c.journal ++ indentNotes c.unit u, c.source⟩ := by
  have hok : indentation (c.withRest (u :: rest)) = _ := indentation_eq hindent rfl
  rw [nextLine_cons hdrop, bind_of_ok hok, if_pos hlevel]
  rfl

theorem nextLine_deep {more : List Token} (hlevel : floor ≤ level) (hstart : ink [u] ++ rest = t :: more) :
    nextLine floor c =
      .ok (some (level, t)) ⟨t :: more, level, unit, c.typeNames, c.journal ++ indentNotes c.unit u, c.source⟩ := by
  have hok : indentation (c.withRest (u :: rest)) = _ := indentation_eq hindent rfl
  rw [nextLine_cons hdrop, bind_of_ok hok, if_neg (Nat.not_lt.mpr hlevel), hstart]
  rfl

end

/-- How looking for a line ends: at the end of the input, in front of a shallower line, at the first ink of a
line, or because its white space cannot be measured. -/
inductive Search (floor : Nat) (c : Cursor) : EStateM.Result Stop Cursor (Option (Nat × Token)) → Prop
  | ended (hdrop : dropBlankLines c.rest = []) : Search floor c (.ok none (c.withRest []))
  | shallow {u : Token} {rest : List Token} {level : Nat} {unit : Option Nat}
      (hdrop : dropBlankLines c.rest = u :: rest) (hindent : indent? c.unit u = some (level, unit))
      (hlevel : level < floor) :
      Search floor c (.ok none ⟨u :: rest, c.level, unit, c.typeNames, c.journal ++ indentNotes c.unit u, c.source⟩)
  | found {u t : Token} {rest more : List Token} {level : Nat} {unit : Option Nat}
      (hdrop : dropBlankLines c.rest = u :: rest) (hindent : indent? c.unit u = some (level, unit))
      (hlevel : floor ≤ level) (hstart : ink [u] ++ rest = t :: more) (hbreak : t.kind ≠ .lineBreak) : Search floor c
        (.ok (some (level, t)) ⟨t :: more, level, unit, c.typeNames, c.journal ++ indentNotes c.unit u, c.source⟩)
  | failed {u : Token} {rest : List Token} (hdrop : dropBlankLines c.rest = u :: rest)
      (hindent : indent? c.unit u = none) : Search floor c (.error (indentStop c.source c.unit u)
        ⟨rest, c.level, c.unit.or (some u.raw.length), c.typeNames, c.journal ++ indentNotes c.unit u, c.source⟩)

theorem nextLine_search (floor : Nat) (c : Cursor) : Search floor c (nextLine floor c) := by
  cases hdrop : dropBlankLines c.rest with
  | nil =>
    rw [nextLine_nil hdrop]
    exact .ended hdrop
  | cons u rest =>
    cases hindent : indent? c.unit u with
    | none =>
      rw [nextLine_stops hdrop hindent]
      exact .failed hdrop hindent
    | some measure =>
      obtain ⟨level, unit⟩ := measure
      by_cases hlevel : level < floor
      · rw [nextLine_back hdrop hindent hlevel]
        exact .shallow hdrop hindent hlevel
      · obtain ⟨t, more, hstart, hbreak⟩ := start_of_dropBlankLines hdrop
        rw [nextLine_deep hdrop hindent (Nat.le_of_not_lt hlevel) hstart]
        exact .found hdrop hindent (Nat.le_of_not_lt hlevel) hstart hbreak

theorem Search.line {found : Option (Nat × Token)} (h : nextLine floor c = .ok found c') :
    c'.typeNames = c.typeNames ∧ c'.rest <:+ c.rest ∧ c.journal <+: c'.journal ∧
      c'.journal.warnings .layout = c.journal.warnings .layout ∧
      ∀ level t, found = some (level, t) → floor ≤ level ∧ t.kind ≠ .lineBreak ∧ ∃ rest, c'.rest = t :: rest := by
  have hsearch := nextLine_search floor c
  have hblank := dropBlankLines_suffix c.rest
  have hnotes : ∀ u, (c.journal ++ indentNotes c.unit u).warnings .layout = c.journal.warnings .layout :=
    fun u => warnings_append_of_nil (warnings_indentNotes c.unit u)
  rw [h] at hsearch
  cases hsearch with
  | ended hdrop => exact ⟨rfl, nil_suffix, prefix_rfl, rfl, by simp⟩
  | shallow hdrop hindent hlevel =>
    rw [hdrop] at hblank
    exact ⟨rfl, hblank, prefix_append _ _, hnotes _, by simp⟩
  | @found u t rest more level unit hdrop hindent hlevel hstart hbreak =>
    rw [hdrop] at hblank
    refine ⟨rfl, ?_, prefix_append _ _, hnotes _, ?_⟩
    · refine IsSuffix.trans ?_ hblank
      rw [← hstart]
      by_cases hspaces : u.kind = .spaces
      · rw [ink_cons_of_spaces hspaces]
        exact suffix_cons u rest
      · rw [ink_cons hspaces]
        exact suffix_rfl
    · rintro _ _ ⟨⟩
      exact ⟨hlevel, hbreak, more, rfl⟩

end Reader

end CirOutline
