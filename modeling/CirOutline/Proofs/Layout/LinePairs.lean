import CirOutline.Proofs.Layout.Abreast

/-!
Two lines with the same ink give the same statement, or the same cause why there is none. Each step
within a line and each reader of a kind of line has one statement about its two runs.
-/

namespace CirOutline

open List Node

variable {fault : Fault} {location location' : Location} {s s' : Statement} {α : Type} {kind : TokenKind}
  {siblings siblings' : List Node}

/-- Two positions abreast, with the same names of types. -/
structure Cursor.Beside (c c' : Cursor) : Prop where
  abreast : Abreast c.rest c'.rest
  types : c.typeNames = c'.typeNames

/-- Two positions abreast with no white space in front, with the same names of types. -/
structure Cursor.Faces (c c' : Cursor) : Prop where
  facing : Facing c.rest c'.rest
  types : c.typeNames = c'.typeNames

theorem Cursor.Faces.beside {c c' : Cursor} (h : c.Faces c') : c.Beside c' :=
  ⟨h.facing.abreast, h.types⟩

/-- Two positions at alike tokens with ink, with the same names of types. -/
structure Cursor.Starts (t u : Token) (c c' : Cursor) : Prop where
  heads : Heads t u c.rest c'.rest
  types : c.typeNames = c'.typeNames

/-- What the blocks below two headers hold, the place of a name aside. -/
inductive BodyKind.Alike : BodyKind → BodyKind → Prop
  | statements : Alike .statements .statements
  | options : Alike .options .options
  | member (name name' : Location) : Alike (.member name) (.member name')

/-- Lines that say the same. -/
inductive Line.Alike : Line → Line → Prop
  | complete {nodes nodes' : List Node} (h : AllAlike nodes nodes') :
      Alike (.complete nodes) (.complete nodes')
  | header {s s' location location' comments comments' body body'} (hs : s.Alike s')
      (hcomments : AllAlike comments comments') (hbody : body.Alike body') :
      Alike (.header s location comments body) (.header s' location' comments' body')

namespace Reader

/-- Two steps both give a value, with `Q`, or both stop for the same cause. -/
abbrev Pairs {α : Type} (m m' : Reader α) (c c' : Cursor) (Q : α → α → Cursor → Cursor → Prop) :
    Prop :=
  Paired m m' c c' Q fun stop stop' _ _ => stop.cause = stop'.cause

/-- Two readers of a line give lines that say the same, or both stop for the same cause. -/
abbrev LinePairs (m m' : Reader Line) (c c' : Cursor) : Prop :=
  Pairs m m' c c' fun line line' _ _ => line.Alike line'

section
variable {c c' : Cursor} {Q : α → α → Cursor → Cursor → Prop} {t u : Token}

theorem failAt_pairs {place place' : Location} : Pairs (failAt fault place) (failAt fault place') c c' Q :=
  Paired.bind_get (Paired.throw rfl)

theorem failHere_pairs : Pairs (failHere fault) (failHere fault) c c' Q :=
  Paired.bind_get failAt_pairs

theorem failUnexpected_pairs {expected : String} (h : t.raw = u.raw) :
    Pairs (failUnexpected t expected) (failUnexpected u expected) c c' Q := by
  rw [failUnexpected, failUnexpected, h]
  exact failAt_pairs

/-! ### Steps within a line -/

theorem takeWhile_pairs {p : Token → Bool} (hp : Separates p) (h : c.Beside c') :
    Pairs (takeWhile p) (takeWhile p) c c' fun run run' d d' =>
      Token.SameInk run run' ∧ d.Faces d' := by
  obtain ⟨hink, hfacing⟩ := h.abreast.takeWhile hp
  exact Paired.of_ok (takeWhile_eq p c) (takeWhile_eq p c') ⟨hink, hfacing, h.types⟩

theorem skipSpaces_pairs (h : c.Beside c') : Pairs skipSpaces skipSpaces c c' fun _ _ d d' => d.Faces d' := by
  obtain ⟨-, hfacing⟩ := h.abreast.takeWhile .ofSpaces
  exact Paired.of_ok (skipSpaces_eq c) (skipSpaces_eq c') ⟨hfacing, h.types⟩

theorem next_pairs (h : c.Starts t u c') : Pairs next next c c' fun v v' d d' => v = t ∧ v' = u ∧ d.Beside d' ∧
      (t.kind = .comment → LineOver d.rest ∧ LineOver d'.rest) := by
  obtain ⟨a, b, hc, hc', habreast, hlast⟩ := h.heads.rests
  exact Paired.of_ok (next_eq hc) (next_eq hc') ⟨rfl, rfl, ⟨habreast, h.types⟩, hlast⟩

theorem advance_pairs (h : c.Starts t u c') : Pairs advance advance c c' fun _ _ d d' => d.Beside d' ∧
      (t.kind = .comment → LineOver d.rest ∧ LineOver d'.rest) := by
  refine Paired.bind (next_pairs h) ?_
  rintro v v' d d' ⟨-, -, hrest⟩
  exact Paired.pure hrest

theorem faces_cases (h : c.Faces c') : (LineOver c.rest ∧ LineOver c'.rest) ∨ ∃ t u, c.Starts t u c' := by
  cases h.facing with
  | ended ha hb => exact .inl ⟨ha, hb⟩
  | ink heads => exact .inr ⟨_, _, heads, h.types⟩

end

/-- What is accepted on both sides: alike tokens of the kind, or nothing. -/
inductive Accepted (kind : TokenKind) (c c' : Cursor) : Option Token → Option Token → Prop
  | some {t u : Token} (h : t.Alike u) (hrest : c.Beside c')
      (hlast : kind = .comment → LineOver c.rest ∧ LineOver c'.rest) :
      Accepted kind c c' (some t) (some u)
  | none (h : c.Faces c') : Accepted kind c c' none none

variable {c c' : Cursor} {t u : Token}

theorem accept?_pairs (hkind : kind ≠ .lineBreak) (h : c.Beside c') :
    Pairs (accept? kind) (accept? kind) c c' fun found found' d d' =>
      Accepted kind d d' found found' := by
  obtain ⟨-, hfacing⟩ := h.abreast.takeWhile .ofSpaces
  cases hfacing with
  | ended ha hb =>
    have hmiss : ∀ {tokens : List Token}, LineOver tokens → ∀ t ∈ tokens.head?, t.kind ≠ kind :=
      fun hover t ht => (hover t ht).1 ▸ hkind.symm
    exact Paired.of_ok (accept?_none (hmiss ha)) (accept?_none (hmiss hb)) (.none ⟨.ended ha hb, h.types⟩)
  | @ink t u heads =>
    refine Paired.bind_ok (skipSpaces_eq c) (skipSpaces_eq c') ?_
    obtain ⟨x, y, hx, hy, -⟩ := heads.rests
    have hsame := heads.alike
    simp only [hx, hy, head?_cons, ← hsame.kind]
    split_ifs with hfound
    · refine Paired.bind (advance_pairs ⟨by rwa [← hx, ← hy], h.types⟩) ?_
      rintro - - e e' ⟨hrest, hlast⟩
      have hfound : t.kind = kind := beq_iff_eq.mp hfound
      exact Paired.pure (.some hsame hrest (hfound ▸ hlast))
    · exact Paired.pure (.none ⟨.ink (by rwa [← hx, ← hy]), h.types⟩)

/-! ### Steps from positions abreast -/

/-- From any two positions abreast both steps give a value, with `Q`, or both stop for the same cause. -/
def Meet (m m' : Reader α) (Q : α → α → Cursor → Cursor → Prop) : Prop :=
  ∀ ⦃c c' : Cursor⦄, c.Beside c' → Pairs m m' c c' Q

/-- The steps go on abreast, with values that are related. -/
abbrev Along (m m' : Reader α) (R : α → α → Prop) : Prop :=
  Meet m m' fun a a' d d' => R a a' ∧ d.Beside d'

abbrev LinesMeet (m m' : Reader Line) : Prop := Meet m m' fun line line' _ _ => line.Alike line'

section
variable {β : Type} {m m' : Reader α} {f f' : α → Reader β} {R : α → α → Prop}
  {Q : β → β → Cursor → Cursor → Prop}

theorem Along.bind (hm : Along m m' R) (hf : ∀ a a', R a a' → Meet (f a) (f' a') Q) :
    Meet (m >>= f) (m' >>= f') Q := fun _ _ h =>
  Paired.bind (hm h) fun a a' _ _ hd => hf a a' hd.1 hd.2

theorem along_pure {a a' : α} (h : R a a') : Along (pure a) (pure a') R := fun _ _ hc => Paired.pure ⟨h, hc⟩

theorem meet_failAt {place place' : Location} : Meet (failAt fault place) (failAt fault place') Q :=
  fun _ _ _ => failAt_pairs

theorem meet_failHere : Meet (failHere fault) (failHere fault) Q := fun _ _ _ => failHere_pairs

theorem advance_meet {f f' : Unit → Reader β} (h : c.Starts t u c') (hf : Meet (f ()) (f' ()) Q) :
    Pairs (advance >>= f) (advance >>= f') c c' Q :=
  Paired.bind (advance_pairs h) fun _ _ _ _ hd => hf hd.1

end

theorem skipSpaces_along : Along skipSpaces skipSpaces fun _ _ => True := fun _ _ h =>
  (skipSpaces_pairs h).weaken fun _ _ _ _ hd => ⟨trivial, hd.beside⟩

theorem accept?_along (hkind : kind ≠ .lineBreak) : Along (accept? kind) (accept? kind) (Option.Rel Token.Alike) :=
  fun c c' h => (accept?_pairs hkind h).weaken fun found found' d d' hd => by
    rcases hd with ⟨hsame, hrest, -⟩ | hfaces
    · exact ⟨.some hsame, hrest⟩
    · exact ⟨.none, hfaces.beside⟩

theorem expect_along (hkind : kind ≠ .lineBreak) (description : String) :
    Along (expect kind description) (expect kind description) Token.Alike := by
  refine (accept?_along hkind).bind ?_
  rintro found found' (hsame | -)
  · exact along_pure hsame
  · exact meet_failHere

theorem atLineEnd_pairs (h : c.Faces c') :
    Pairs atLineEnd atLineEnd c c' fun ended ended' d d' =>
      ended = ended' ∧ d = c ∧ d' = c' ∧ (ended = false → ∃ t u, c.Starts t u c') := by
  rcases faces_cases h with ⟨hover, hover'⟩ | ⟨t, u, hstarts⟩
  · exact Paired.of_ok (atLineEnd_over fun t ht => (hover t ht).1) (atLineEnd_over fun t ht => (hover' t ht).1)
      ⟨rfl, rfl, rfl, by simp⟩
  · obtain ⟨a, b, hc, hc', -⟩ := hstarts.heads.rests
    refine Paired.bind_get ?_
    rw [hc, hc']
    exact Paired.pure ⟨hstarts.heads.alike.endsLine, rfl, rfl, fun _ => ⟨t, u, hstarts⟩⟩

/-- White space is skipped and the end of the line looked for. -/
theorem ended_meet {f f' : Bool → Reader α} {Q : α → α → Cursor → Cursor → Prop}
    (hf : ∀ ended, Meet (f ended) (f' ended) Q) :
    Meet (skipSpaces >>= fun _ => atLineEnd >>= f) (skipSpaces >>= fun _ => atLineEnd >>= f') Q := by
  intro c c' h
  refine Paired.bind (skipSpaces_pairs h) fun _ _ d d' hfaces => Paired.bind (atLineEnd_pairs hfaces) ?_
  rintro ended _ _ _ ⟨rfl, rfl, rfl, -⟩
  exact hf ended hfaces.beside

theorem takeUntil_pairs {stop : Token → Bool} (halike : ∀ t u : Token, t.Alike u → stop t = stop u)
    (hspaces : ∀ t : Token, t.kind = .spaces → stop t = false) (description : String)
    (h : c.Beside c') :
    Pairs (takeUntil stop description) (takeUntil stop description) c c' fun run run' d d' =>
      Token.SameInk run run' ∧ ∃ t u, d.Starts t u d' := by
  refine Paired.bind (takeWhile_pairs (.ofLine stop halike hspaces) h) ?_
  rintro run run' d d' ⟨hink, hfaces⟩
  refine Paired.bind (atLineEnd_pairs hfaces) ?_
  rintro ended ended' e e' ⟨rfl, rfl, rfl, hgoes⟩
  cases ended with
  | true => exact failHere_pairs
  | false => exact Paired.pure ⟨hink, hgoes rfl⟩

theorem takeColon_along (description : String) : Along (takeUntil (fun t => t.kind == .colon) description)
    (takeUntil (fun t => t.kind == .colon) description) Token.SameInk := by
  intro c c' h
  refine (takeUntil_pairs (fun t u h => by rw [h.kind]) (fun t h => by rw [h]; rfl) _ h).weaken ?_
  rintro run run' d d' ⟨hink, colon, colon', hstarts⟩
  exact ⟨hink, (Facing.ink hstarts.heads).abreast, hstarts.types⟩

theorem takeLine_along : Along takeLine takeLine Token.SameInk := by
  intro c c' h
  have hline : Separates fun t => !t.endsLine := by
    have h := Separates.ofLine (fun _ => false) (fun _ _ _ => rfl) fun _ _ => rfl
    simpa using h
  refine (takeWhile_pairs hline h).weaken ?_
  rintro run run' d d' ⟨hink, hfaces⟩
  exact ⟨hink, hfaces.beside⟩

theorem checkNext_pairs {m m' : Reader Line} (h : c.Starts t u c') (hm : LinesMeet m m') :
    LinePairs (do checkCase (← next); m) (do checkCase (← next); m') c c' := by
  refine Paired.bind (next_pairs h) ?_
  rintro v v' d d' ⟨rfl, rfl, hrest, -⟩
  obtain ⟨journal, hok⟩ := checkCase_ok v d
  obtain ⟨journal', hok'⟩ := checkCase_ok v' d'
  exact Paired.bind_ok hok hok' (hm ⟨hrest.abreast, hrest.types⟩)

theorem sequence_along {read read' : Source → List Token → SequenceResult α} {R : α → α → Prop}
    (hread : ∀ {a b} (source source' : Source), Abreast a b → (read source a).Pairs (read' source' b) R) :
    Along (sequence read) (sequence read') R := by
  intro c c' h
  have hread := hread c.source c'.source h.abreast
  rcases hleft : read c.source c.rest with stop | ⟨a, rest⟩ <;>
    rcases hright : read' c'.source c'.rest with stop' | ⟨a', rest'⟩ <;> rw [hleft, hright] at hread
  · have hrun : sequence read c = .error (.diagnosed stop.report) { c with rest := stop.rest } := by
      rw [sequence, hleft]
    have hrun' : sequence read' c' = .error (.diagnosed stop'.report) { c' with rest := stop'.rest } := by
      rw [sequence, hright]
    exact Paired.of_error hrun hrun' (congrArg Cause.fault hread)
  · exact hread.elim
  · exact hread.elim
  · have hrun : sequence read c = .ok a { c with rest := rest } := by rw [sequence, hleft]
    have hrun' : sequence read' c' = .ok a' { c' with rest := rest' } := by rw [sequence, hright]
    exact Paired.of_ok hrun hrun' ⟨hread.1, hread.2, h.types⟩

/-! ### Ends of lines -/

theorem endLine_over (h : LineOver c.rest) (comments : List Node) : ∃ d, endLine comments c = .ok comments d := by
  cases hrest : c.rest with
  | nil => exact ⟨c, endLine_nil hrest⟩
  | cons t rest => exact ⟨_, endLine_break hrest (h t (by rw [hrest]; rfl)).1⟩

theorem finishLine_pairs (h : c.Beside c') :
    Pairs finishLine finishLine c c' fun comments comments' _ _ =>
      AllAlike comments comments' := by
  refine Paired.bind (accept?_pairs (by decide) h) ?_
  rintro found found' d d' (⟨hsame, -, hlast⟩ | hfaces)
  · obtain ⟨hover, hover'⟩ := hlast rfl
    obtain ⟨e, hend⟩ := endLine_over hover _
    obtain ⟨e', hend'⟩ := endLine_over hover' _
    refine Paired.of_ok hend hend' (.cons ?_ .nil .nil)
    rw [hsame.raw]
    exact .same _ rfl
  · rcases faces_cases hfaces with ⟨hover, hover'⟩ | ⟨t, u, hstarts⟩
    · obtain ⟨e, hend⟩ := endLine_over hover []
      obtain ⟨e', hend'⟩ := endLine_over hover' []
      exact Paired.of_ok hend hend' .nil
    · obtain ⟨a, b, hc, hc', -⟩ := hstarts.heads.rests
      have hsame := hstarts.heads.alike
      have hbreak : (t.kind == TokenKind.lineBreak) = false :=
        beq_eq_false_iff_ne.mpr hstarts.heads.sameLine
      refine Paired.bind_ok rfl rfl (Paired.bind_get ?_)
      rw [hc, hc']
      simp only [← hsame.kind, hbreak]
      exact failUnexpected_pairs hsame.raw

theorem complete_meet (hs : s.Alike s') : LinesMeet (complete s location) (complete s' location') := by
  intro c c' h
  refine Paired.bind (finishLine_pairs h) ?_
  intro comments comments' d d' hcomments
  exact Paired.pure (.complete (.cons hs .nil hcomments))

theorem openBlock_meet {body body' : BodyKind} (hs : s.Alike s') (hbody : body.Alike body') :
    LinesMeet (openBlock s location body) (openBlock s' location' body') := by
  intro c c' h
  refine Paired.bind (Q := fun comments comments' _ _ => AllAlike comments comments')
    ((expect_along (by decide) _).bind (fun _ _ _ => fun _ _ => finishLine_pairs) h) ?_
  intro comments comments' d d' hcomments
  exact Paired.pure (.header hs hcomments hbody)

/-! ### Lines that start with a word -/

section

variable (h : c.Starts t u c')
include h

theorem commentLine_pairs : LinePairs (commentLine t) (commentLine u) c c' := by
  refine advance_meet h fun d d' hrest => Paired.bind (finishLine_pairs hrest) ?_
  intro comments comments' e e' _
  refine Paired.pure (.complete (.cons ?_ .nil .nil))
  rw [h.heads.alike.raw]
  exact .same _ rfl

theorem declaration_pairs (isMutable : Bool) :
    LinePairs (declaration t isMutable) (declaration u isMutable) c c' := by
  refine advance_meet h ((expect_along (by decide) _).bind fun _ _ _ =>
    (sequence_along fun _ _ h => readItems_pairs _ h true).bind ?_)
  rintro names _ rfl
  rw [h.heads.alike.raw]
  split_ifs
  · exact meet_failAt
  · exact complete_meet (.same _ rfl)

theorem callLine_pairs : LinePairs (callLine t) (callLine u) c c' := by
  refine advance_meet h ((expect_along (by decide) _).bind fun opening opening' _ =>
    (sequence_along fun _ _ h => readArguments_pairs opening opening' h 0).bind fun run run' hink => ?_)
  rw [h.heads.alike.raw]
  exact complete_meet (.call _ hink)

theorem assignmentLine_pairs : LinePairs (assignmentLine t) (assignmentLine u) c c' := by
  refine advance_meet h ((expect_along (by decide) _).bind fun _ _ _ => skipSpaces_along.bind fun _ _ _ =>
    takeLine_along.bind fun run run' hink => ?_)
  rw [h.heads.alike.raw, hink.runIsBlank]
  split_ifs
  · exact meet_failHere
  · exact complete_meet (.assignment _ hink)

theorem returnLine_pairs : LinePairs (returnLine t) (returnLine u) c c' :=
  advance_meet h (skipSpaces_along.bind fun _ _ _ => takeLine_along.bind fun _ _ hink =>
    complete_meet (.returns hink))

end

theorem wordLine_over {rest : List Token} (hc : c.rest = t :: rest)
    (h : LineOver (rest.dropWhile fun t => t.kind == .spaces)) :
    wordLine t c = failUnexpected t "'(' or '=' after a name" c := by
  rw [wordLine, get_bind, hc, tail_cons]
  cases hnext : rest.dropWhile fun t => t.kind == .spaces with
  | nil => rfl
  | cons next more =>
    rw [hnext] at h
    have hbreak := (h next rfl).1
    simp [hbreak, Token.endsLine]

theorem wordLine_pairs (h : c.Starts t u c') : LinePairs (wordLine t) (wordLine u) c c' := by
  have hraw := h.heads.alike.raw
  obtain ⟨a, b, hc, hc', habreast, -⟩ := h.heads.rests
  obtain ⟨-, hfacing⟩ := habreast.takeWhile .ofSpaces
  cases hfacing with
  | ended ha hb =>
    have hfail : LinePairs (failUnexpected t "'(' or '=' after a name")
        (failUnexpected u "'(' or '=' after a name") c c' := failUnexpected_pairs hraw
    rw [LinePairs, Pairs, Paired] at hfail ⊢
    rwa [wordLine_over hc ha, wordLine_over hc' hb]
  | @ink next next' heads =>
    obtain ⟨x, y, hx, hy, -⟩ := heads.rests
    have hnext := heads.alike
    refine Paired.bind_get ?_
    rw [hc, hc', tail_cons, tail_cons, hx, hy, head?_cons, head?_cons]
    simp only [← hnext.kind, ← hnext.endsLine, ← hraw, ← h.types]
    split_ifs
    · exact declaration_pairs h false
    · exact callLine_pairs h
    · exact assignmentLine_pairs h
    · exact failUnexpected_pairs hraw
    · exact failUnexpected_pairs hnext.raw

/-! ### Lines that start with a keyword -/

theorem structureLine_pairs (h : c.Starts t u c') : LinePairs (structureLine t) (structureLine u) c c' := by
  refine advance_meet h ((expect_along (by decide) _).bind fun name name' hname d d' hrest => ?_)
  refine Paired.bind_modify ?_
  rw [hname.raw]
  refine openBlock_meet (.same _ rfl) (.member _ _) ⟨hrest.abreast, ?_⟩
  exact congrArg (· ++ [name'.raw]) hrest.types

theorem methodParameters_along : Along methodParameters methodParameters Eq := by
  refine (accept?_along (by decide)).bind ?_
  rintro found found' (- | -)
  · exact sequence_along fun _ _ h => readParameters_pairs _ _ h (.typeName true)
  · exact along_pure rfl

theorem methodResult_along : Along methodResult methodResult Eq := by
  refine (accept?_along (by decide)).bind ?_
  rintro found found' (- | -)
  · exact (expect_along (by decide) _).bind fun type type' htype => along_pure (congrArg some htype.raw)
  · exact along_pure rfl

theorem methodLine_pairs (level : Nat) (h : c.Starts t u c') :
    LinePairs (methodLine t level) (methodLine u level) c c' := by
  refine advance_meet h ?_
  split_ifs
  · exact meet_failAt
  · refine (expect_along (by decide) _).bind fun name name' hname => methodParameters_along.bind ?_
    rintro ps _ rfl
    refine methodResult_along.bind ?_
    rintro type _ rfl
    rw [hname.raw]
    exact openBlock_meet (.same _ rfl) .statements

theorem meet_failMalformed {Q : α → α → Cursor → Cursor → Prop} (h : t.raw = u.raw) :
    Meet (failMalformed t) (failMalformed u) Q := by
  intro c c' _
  rw [failMalformed, failMalformed, h]
  cases commandShapes.lookup (Text.upper u.raw) with
  | some shape => exact failAt_pairs
  | none => exact Paired.throw rfl

theorem modeChoice_along (hraw : t.raw = u.raw) : Along (modeChoice t) (modeChoice u) Eq := by
  refine (accept?_along (by decide)).bind ?_
  rintro found found' (hmode | -)
  · refine (accept?_along (by decide)).bind ?_
    rintro found found' (- | -)
    · refine (accept?_along (by decide)).bind ?_
      rintro found found' (hchoice | -)
      · refine ended_meet fun ended => ?_
        split_ifs
        · rw [hmode.raw, hchoice.raw]
          exact along_pure rfl
        · exact meet_failMalformed hraw
      · exact meet_failMalformed hraw
    · exact meet_failMalformed hraw
  · exact meet_failMalformed hraw

theorem modeLine_pairs {statement : String → String → Statement}
    (hplain : ∀ mode choice, (statement mode choice).runs = []) (h : c.Starts t u c') :
    LinePairs (modeLine t statement) (modeLine u statement) c c' := by
  refine advance_meet h ((modeChoice_along h.heads.alike.raw).bind ?_)
  rintro choice _ rfl
  exact complete_meet (.same _ (hplain _ _))

theorem setModeLine_pairs (h : c.Starts t u c') : LinePairs (setModeLine t) (setModeLine u) c c' := by
  have hraw := h.heads.alike.raw
  refine advance_meet h ((accept?_along (by decide)).bind ?_)
  rintro found found' (hmode | -)
  · refine (accept?_along (by decide)).bind ?_
    rintro found found' (- | -)
    · refine (sequence_along fun _ _ h => readItems_pairs _ h true).bind ?_
      rintro options _ rfl
      split_ifs
      · exact meet_failMalformed hraw
      · refine ended_meet fun ended => ?_
        split_ifs
        · rw [hmode.raw]
          exact complete_meet (.same _ rfl)
        · exact meet_failMalformed hraw
    · exact meet_failMalformed hraw
  · exact meet_failMalformed hraw

theorem mutable_over (h : LineOver (c.rest.dropWhile fun t => t.kind == .spaces)) : ∃ d, (do
      let next ← skipSpaces
      match next with
      | some typeToken =>
        if typeToken.kind == .word && (← get).typeNames.contains typeToken.raw then
          declaration typeToken true
        else failAt (.missingToken "a declaration after MUTABLE") t.location
      | none => failAt (.missingToken "a declaration after MUTABLE") t.location : Reader Line) c =
        .error (.diagnosed (c.source.report (.missingToken "a declaration after MUTABLE") t.location)) d := by
  refine ⟨{ c with rest := c.rest.dropWhile fun t => t.kind == .spaces }, ?_⟩
  rw [bind_of_ok (skipSpaces_eq c)]
  cases hrest : c.rest.dropWhile fun t => t.kind == .spaces with
  | nil => rfl
  | cons next rest =>
    rw [hrest] at h
    have hword : (next.kind == TokenKind.word) = false := by
      rw [(h next rfl).1]
      rfl
    simp only [head?_cons, hword, Bool.false_and]
    rfl

theorem mutableLine_pairs (h : c.Starts t u c') : LinePairs (mutableLine t) (mutableLine u) c c' := by
  refine advance_meet h fun d d' hrest => ?_
  obtain ⟨-, hfacing⟩ := hrest.abreast.takeWhile .ofSpaces
  cases hfacing with
  | ended ha hb =>
    obtain ⟨e, hfail⟩ := mutable_over ha
    obtain ⟨e', hfail'⟩ := mutable_over hb
    exact Paired.of_error hfail hfail' rfl
  | @ink type type' heads =>
    refine Paired.bind_ok (skipSpaces_eq d) (skipSpaces_eq d') ?_
    obtain ⟨x, y, hx, hy, -⟩ := heads.rests
    have hsame := heads.alike
    simp only [hx, hy, head?_cons]
    refine Paired.bind_get ?_
    simp only [← hsame.kind, ← hsame.raw, ← hrest.types]
    split_ifs
    · refine declaration_pairs ?_ true
      exact ⟨by rwa [← hx, ← hy], rfl⟩
    · exact failAt_pairs

theorem condition_along : Along condition condition Token.SameInk := by
  refine skipSpaces_along.bind fun _ _ _ => (takeColon_along _).bind fun run run' hink => ?_
  rw [hink.runIsBlank]
  split_ifs
  · exact meet_failHere
  · exact along_pure hink

theorem conditionLine_pairs {statement : List Token → Statement}
    (hstatement : ∀ run run', Token.SameInk run run' → (statement run).Alike (statement run'))
    (h : c.Starts t u c') :
    LinePairs (conditionLine t statement) (conditionLine u statement) c c' :=
  advance_meet h (condition_along.bind fun run run' hink => openBlock_meet (hstatement run run' hink) .statements)

theorem elseLine_pairs (h : c.Starts t u c') : LinePairs (elseLine t) (elseLine u) c c' :=
  advance_meet h (openBlock_meet (.same _ rfl) .statements)

theorem chooseLine_pairs (h : c.Starts t u c') : LinePairs (chooseLine t) (chooseLine u) c c' := by
  refine advance_meet h ((expect_along (by decide) _).bind fun mode mode' hmode => ?_)
  rw [hmode.raw]
  exact openBlock_meet (.same _ rfl) .options

theorem keyword?_spaces {key : Keyword} (t : Token) (h : t.kind = .spaces) : (t.keyword? == some key) = false := by
  rw [Token.keyword?, Token.keywordText?, h]
  rfl

theorem repeatLine_pairs (h : c.Starts t u c') : LinePairs (repeatLine t) (repeatLine u) c c' := by
  refine advance_meet h (skipSpaces_along.bind fun _ _ _ d d' hrest => ?_)
  refine Paired.bind (takeUntil_pairs (fun t u h => by rw [h.keyword?]) keyword?_spaces _ hrest) ?_
  rintro run run' e e' ⟨hink, times, times', hstarts⟩
  rw [hink.runIsBlank]
  split_ifs
  · exact failHere_pairs
  · exact checkNext_pairs hstarts (openBlock_meet (.repeatLoop hink) .statements)

theorem forLine_pairs (h : c.Starts t u c') : LinePairs (forLine t) (forLine u) c c' := by
  refine advance_meet h ((expect_along (by decide) _).bind fun iterator iterator' hiterator d d' hrest => ?_)
  refine Paired.bind (takeUntil_pairs (fun t u h => by rw [h.keyword?]) keyword?_spaces _ hrest) ?_
  rintro run run' e e' ⟨hink, key, key', hstarts⟩
  have hstart : Token.SameInk (iterator :: run) (iterator' :: run') := .cons hiterator hink
  simp only [hstart.startsLoop, hiterator.raw]
  split_ifs
  · exact failAt_pairs
  · refine checkNext_pairs hstarts (skipSpaces_along.bind fun _ _ _ => (takeColon_along _).bind
      fun stop stop' hstop => ?_)
    rw [hstop.runIsBlank]
    split_ifs
    · exact meet_failHere
    · exact openBlock_meet (.forLoop hstart hstop) .statements

theorem checkBranch_pairs (hraw : t.raw = u.raw) (hsiblings : AllAlike siblings siblings')
    {Q : Unit → Unit → Cursor → Cursor → Prop} (hq : Q () () c c') :
    Pairs (checkBranch t siblings) (checkBranch u siblings') c c' Q := by
  rw [checkBranch, checkBranch, branchMayFollow_congr hsiblings.kinds, hraw]
  split_ifs
  · exact Paired.pure hq
  · exact failAt_pairs

theorem keywordStatement_pairs (level : Nat) (hsiblings : AllAlike siblings siblings')
    (keyword : Option Keyword) (h : c.Starts t u c') :
    LinePairs (keywordStatement t level siblings keyword) (keywordStatement u level siblings' keyword)
      c c' := by
  have hraw := h.heads.alike.raw
  have helseIf : LinePairs (do checkBranch t siblings; conditionLine t .elseIf)
      (do checkBranch u siblings'; conditionLine u .elseIf) c c' := by
    refine Paired.bind (checkBranch_pairs (Q := fun _ _ d d' => d.Starts t u d') hraw hsiblings h) ?_
    intro _ _ d d' hd
    exact conditionLine_pairs (fun _ _ => .elseIf) hd
  have hunexpected : LinePairs (failUnexpected t "a statement") (failUnexpected u "a statement") c c' :=
    failUnexpected_pairs hraw
  cases keyword with
  | none => exact hunexpected
  | some key =>
    cases key with
    | structureKey => exact structureLine_pairs h
    | methodKey => exact methodLine_pairs level h
    | passKey =>
      exact advance_meet h (complete_meet (.same _ rfl))
    | defaultKey | defineKey => exact modeLine_pairs (fun _ _ => rfl) h
    | setModeKey => exact setModeLine_pairs h
    | mutableKey => exact mutableLine_pairs h
    | repeatKey => exact repeatLine_pairs h
    | ifKey => exact conditionLine_pairs (fun _ _ => .ifThen) h
    | elseIfKey | elsIfKey | elIfKey => exact helseIf
    | elseKey =>
      refine Paired.bind (checkBranch_pairs (Q := fun _ _ d d' => d.Starts t u d') hraw hsiblings h) ?_
      intro _ _ d d' hd
      exact elseLine_pairs hd
    | whileKey => exact conditionLine_pairs (fun _ _ => .whileLoop) h
    | forKey => exact forLine_pairs h
    | chooseKey => exact chooseLine_pairs h
    | returnKey => exact returnLine_pairs h
    | timesKey | toKey => exact hunexpected

theorem keywordLine_pairs (level : Nat) (hsiblings : AllAlike siblings siblings') (h : c.Starts t u c') :
    LinePairs (keywordLine t level siblings) (keywordLine u level siblings') c c' := by
  obtain ⟨journal, hok⟩ := checkCase_ok t c
  obtain ⟨journal', hok'⟩ := checkCase_ok u c'
  refine Paired.bind_ok hok hok' ?_
  rw [h.heads.alike.keyword?]
  exact keywordStatement_pairs level hsiblings _ ⟨h.heads, h.types⟩

theorem statementLine_pairs (level : Nat) (hsiblings : AllAlike siblings siblings') (h : c.Starts t u c') :
    LinePairs (statementLine t level siblings) (statementLine u level siblings') c c' := by
  have hsame := h.heads.alike
  unfold statementLine
  rw [← hsame.kind]
  split
  · exact commentLine_pairs h
  · exact keywordLine_pairs level hsiblings h
  · exact wordLine_pairs h
  · exact failUnexpected_pairs hsame.raw

theorem optionLine_pairs (h : c.Starts t u c') : LinePairs (optionLine t) (optionLine u) c c' := by
  have hsame := h.heads.alike
  unfold optionLine
  rw [← hsame.kind]
  split
  · exact commentLine_pairs h
  · refine advance_meet h ?_
    rw [hsame.raw]
    exact openBlock_meet (.same _ rfl) .statements
  · exact failUnexpected_pairs hsame.raw

theorem line_pairs (reader : LineReader) (level : Nat) (hsiblings : AllAlike siblings siblings')
    (h : c.Starts t u c') :
    LinePairs (line reader t level siblings) (line reader u level siblings') c c' := by
  cases reader with
  | statements => exact statementLine_pairs level hsiblings h
  | options => exact optionLine_pairs h
  | idle => exact Paired.pure (.complete .nil)

end Reader

end CirOutline
