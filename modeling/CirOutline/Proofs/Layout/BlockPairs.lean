import CirOutline.Proofs.Layout.LinePairs
import CirOutline.Proofs.Layout.Outlined

/-!
Two lists of lines that agree in levels and ink, read side by side. The levels are measured by two
units, each fixed by the first indented line of its own side; where every width is a multiple of the
unit no line is misplaced, so that the same blocks open and close on both sides.
-/

namespace CirOutline

open List Node

variable {body' : BodyKind} {c : Cursor} {floor : Nat} {l : SourceLine} {s s' : Statement}
  {unit unit' : Option Nat}

structure SourceLine.Alike (unit unit' : Option Nat) (l m : SourceLine) : Prop where
  level : l.level unit = m.level unit'
  ink : Token.SameInk l m

/-- What is left to read has its final unit and fits it. -/
structure Cursor.Fits (unit : Option Nat) (c : Cursor) : Prop where
  scanned : Scanned c.rest
  comments : CommentsLast c.rest
  divides : ∀ l ∈ sourceLines c.rest, unit.getD 1 ∣ l.width
  unit : c.unit.or (unitWidth (sourceLines c.rest)) = unit

/-- Two positions between lines, from which the lines agree. -/
structure Cursor.Aligned (unit unit' : Option Nat) (c c' : Cursor) : Prop where
  left : c.Fits unit
  right : c'.Fits unit'
  lines : List.Forall₂ (SourceLine.Alike unit unit') (sourceLines c.rest) (sourceLines c'.rest)
  types : c.typeNames = c'.typeNames

namespace Cursor

variable {c' d d' : Cursor}

theorem Fits.of_eq (h : c.Fits unit) (hrest : d.rest = c.rest) (hunit : d.unit = c.unit) : d.Fits unit where
  scanned := hrest ▸ h.scanned
  comments := hrest ▸ h.comments
  divides := hrest ▸ h.divides
  unit := by rw [hrest, hunit, h.unit]

theorem Aligned.enter (h : c.Aligned unit unit' c') (floor : Nat) :
    (c.enter floor).Aligned unit unit' (c'.enter floor) :=
  ⟨h.left.of_eq rfl rfl, h.right.of_eq rfl rfl, h.lines, h.types⟩

theorem Aligned.leave (h : c.Aligned unit unit' c') (floor count count' : Nat) :
    (c.leave floor count).Aligned unit unit' (c'.leave floor count') :=
  ⟨h.left.of_eq rfl rfl, h.right.of_eq rfl rfl, h.lines, h.types⟩

theorem Fits.later {more : List SourceLine} (h : c.Fits unit) (hsuffix : d.rest <:+ c.rest)
    (hlines : sourceLines c.rest = l :: more) (hunit : d.unit = c.unit.or (unitWidth [l]))
    (hleft : sourceLines d.rest = l :: more ∨ sourceLines d.rest = more) : d.Fits unit where
  scanned := h.scanned.of_suffix hsuffix
  comments := List.IsChain.suffix h.comments hsuffix
  divides := by
    intro m hm
    apply h.divides m
    rw [hlines]
    rcases hleft with hleft | hleft
    · rwa [← hleft]
    · rw [hleft] at hm
      exact mem_cons_of_mem l hm
  unit := by
    rw [← h.unit, hlines, hunit]
    rcases hleft with hleft | hleft
    · rw [hleft, Option.or_assoc]
      congr 1
      rw [unitWidth_cons l more, ← Option.or_assoc, Option.or_self]
    · rw [hleft, unitWidth_cons l more, Option.or_assoc]

theorem Fits.level {more : List SourceLine} {level : Nat} {after : Option Nat} (h : c.Fits unit)
    (hlines : sourceLines c.rest = l :: more) (hmeasured : Measured c.unit l level after) :
    l.level unit = level := by
  apply hmeasured.level
  rw [hmeasured.unit, ← h.unit, hlines, unitWidth_cons l more, ← Option.or_assoc]
  exact extends_or _ _

end Cursor

namespace Reader

variable {c' : Cursor}

theorem indent?_ne_none {t : Token} {rest : List Token} (h : c.Fits unit)
    (hdrop : dropBlankLines c.rest = t :: rest) : indent? c.unit t ≠ none := by
  by_cases hspaces : t.kind = .spaces
  · have hpos := Filled.head h.scanned.spaces hdrop hspaces
    cases hunit : c.unit with
    | none => simp [indent?, hspaces, hpos.ne']
    | some w =>
      have hink := lineInk_dropBlankLines h.scanned (by rw [hdrop]; exact cons_ne_nil t rest)
      have hdivides := h.divides (lineTokens (t :: rest)) (by
        rw [← sourceLines_dropBlankLines, sourceLines_of_ink hink, hdrop]
        exact mem_cons_self)
      rw [← h.unit, hunit, lineTokens_cons (dropBlankLines_head hdrop).1, SourceLine.width, hspaces] at hdivides
      have hmod : t.raw.length % w = 0 := Nat.mod_eq_zero_of_dvd hdivides
      simp [indent?, hspaces, hmod]
  · simp [indent?, hspaces]

theorem nextLine_fits (floor : Nat) (h : c.Fits unit) : Ends (nextLine floor) c
      (fun found _ => ∀ level t, found = some (level, t) → t.kind ≠ .spaces ∧ t.kind ≠ .lineBreak)
      fun _ _ => False := by
  have hsearch := nextLine_search floor c
  cases hnext : nextLine floor c with
  | error stop d =>
    rw [hnext] at hsearch
    cases hsearch with
    | failed hdrop hindent => exact absurd hindent (indent?_ne_none h hdrop)
  | ok found d =>
    rw [hnext] at hsearch
    refine .of_ok hnext ?_
    cases hsearch with
    | ended | shallow => simp
    | @found u t rest more _ _ hdrop _ _ hstart hbreak =>
      rintro _ _ ⟨⟩
      refine ⟨?_, hbreak⟩
      by_cases hspaces : u.kind = .spaces
      · have hapart := (h.scanned.of_suffix (dropBlankLines_suffix c.rest)).apart
        rw [ink_cons_of_spaces hspaces] at hstart
        obtain rfl : rest = t :: more := hstart
        rw [hdrop] at hapart
        exact (isChain_cons_cons.mp hapart).1 hspaces
      · rw [ink_cons hspaces] at hstart
        exact (List.cons.inj hstart).1 ▸ hspaces

/-- No line is deep enough, and the lines stay as they are. -/
structure NotFound (unit : Option Nat) (floor : Nat) (c d : Cursor) : Prop where
  fits : d.Fits unit
  lines : sourceLines d.rest = sourceLines c.rest
  types : d.typeNames = c.typeNames
  shallow : ∀ l more, sourceLines c.rest = l :: more → l.level unit < floor

/-- The first line is deep enough, and the position is at its ink. -/
structure FoundLine (unit : Option Nat) (floor : Nat) (l : SourceLine) (t : Token) (c d : Cursor) :
    Prop where
  suffix : d.rest <:+ c.rest
  types : d.typeNames = c.typeNames
  first : ∃ more, sourceLines c.rest = l :: more
  deep : floor ≤ l.level unit
  ink : lineInk d.rest = Token.ink l
  start : ∃ rest, d.rest = t :: rest
  spaces : t.kind ≠ .spaces
  sameLine : t.kind ≠ .lineBreak

theorem nextLine_decides (floor : Nat) (h : c.Fits unit) :
    (∃ d, nextLine floor c = .ok none d ∧ NotFound unit floor c d) ∨
      ∃ l t d, nextLine floor c = .ok (some (l.level unit, t)) d ∧ FoundLine unit floor l t c d := by
  have hmeets := nextLine_meets floor h.scanned
  have hfits := nextLine_fits floor h
  cases hnext : nextLine floor c with
  | error stop d => exact (hfits.error hnext).elim
  | ok found d =>
    obtain ⟨htypes, hsuffix, hfound⟩ := hmeets.ok hnext
    cases found with
    | none =>
      obtain ⟨hlines, ⟨hend, hunit⟩ | ⟨l, more, level, hfirst, hmeasured, hlevel⟩⟩ := hfound
      · have hnone : sourceLines c.rest = [] := by rw [← hlines, hend, sourceLines_nil]
        refine .inl ⟨d, rfl, ⟨?_, ?_, ?_, ?_⟩, hlines, htypes, ?_⟩
        · exact h.scanned.of_suffix hsuffix
        · exact List.IsChain.suffix h.comments hsuffix
        · rw [hlines]
          exact h.divides
        · rw [hlines, hunit, h.unit]
        · intro l more hfirst
          rw [hnone] at hfirst
          cases hfirst
      · refine .inl ⟨d, rfl, h.later hsuffix hfirst hmeasured.unit (.inl (hlines.trans hfirst)), hlines,
          htypes, ?_⟩
        intro m more' hsame
        rw [hfirst] at hsame
        obtain ⟨rfl, -⟩ := List.cons.inj hsame
        rwa [h.level hfirst hmeasured]
    | some line =>
      obtain ⟨level, t⟩ := line
      obtain ⟨l, hfirst, hmeasured, hdeep, hink, hstart⟩ := hfound
      obtain ⟨hspaces, hbreak⟩ := hfits.ok hnext level t rfl
      obtain rfl := h.level hfirst hmeasured
      exact .inr ⟨l, t, d, rfl, hsuffix, htypes, ⟨_, hfirst⟩, hdeep, hink, hstart, hspaces, hbreak⟩

/-- What is found on both sides: a line at the same level with the same ink, or none. -/
inductive Found (unit unit' : Option Nat) (c c' : Cursor) :
    Option (Nat × Token) → Option (Nat × Token) → Prop
  | none (h : c.Aligned unit unit' c') : Found unit unit' c c' none none
  | some {level : Nat} {t u : Token} (h : c.Starts t u c') :
      Found unit unit' c c' (some (level, t)) (some (level, u))

theorem nextLine_pairs (floor : Nat) (h : c.Aligned unit unit' c') :
    Pairs (nextLine floor) (nextLine floor) c c' fun found found' d d' =>
      Found unit unit' d d' found found' := by
  have hlines := h.lines
  rcases nextLine_decides floor h.left with ⟨d, hnext, hnone⟩ | ⟨l, t, d, hnext, hfound⟩ <;>
    rcases nextLine_decides floor h.right with ⟨d', hnext', hnone'⟩ | ⟨m, u, d', hnext', hfound'⟩
  · refine Paired.of_ok hnext hnext' (.none ⟨hnone.fits, hnone'.fits, ?_, ?_⟩)
    · rwa [hnone.lines, hnone'.lines]
    · rw [hnone.types, hnone'.types, h.types]
  · obtain ⟨ms, hm⟩ := hfound'.first
    rw [hm, forall₂_cons_right_iff] at hlines
    obtain ⟨l, ls, hsame, -, hl⟩ := hlines
    have hlt := hnone.shallow l ls hl
    have hle := hfound'.deep
    rw [hsame.level] at hlt
    omega
  · obtain ⟨ls, hl⟩ := hfound.first
    rw [hl, forall₂_cons_left_iff] at hlines
    obtain ⟨m, ms, hsame, -, hm⟩ := hlines
    have hlt := hnone'.shallow m ms hm
    have hle := hfound.deep
    rw [hsame.level] at hle
    omega
  · obtain ⟨ls, hl⟩ := hfound.first
    obtain ⟨ms, hm⟩ := hfound'.first
    rw [hl, hm, forall₂_cons] at hlines
    obtain ⟨hsame, -⟩ := hlines
    rw [hsame.level] at hnext
    refine Paired.of_ok hnext hnext' (.some ⟨?_, ?_⟩)
    · obtain ⟨rest, hstart⟩ := hfound.start
      obtain ⟨rest', hstart'⟩ := hfound'.start
      have habreast : Abreast d.rest d'.rest := by
        refine abreast_of_ink (h.left.scanned.breaks.of_suffix hfound.suffix)
          (List.IsChain.suffix h.left.comments hfound.suffix)
          (h.right.scanned.breaks.of_suffix hfound'.suffix)
          (List.IsChain.suffix h.right.comments hfound'.suffix) ?_
        rw [hfound.ink, hfound'.ink]
        exact hsame.ink
      rw [hstart, hstart'] at habreast ⊢
      exact habreast.heads hfound.spaces hfound.sameLine hfound'.spaces
    · rw [hfound.types, hfound'.types, h.types]

end Reader

/-! ### Blocks -/

theorem Statement.Alike.definedTypes (h : s.Alike s') : s.definedTypes = s'.definedTypes := by
  cases h <;> rfl

theorem Cursor.Aligned.taken {c' d d' : Cursor} {reader : LineReader} {level : Nat}
    {done done' comments comments' : List Node} {location location' : Location} {m : SourceLine}
    (h : c.Aligned unit unit' c') (hs : s.Alike s')
    (htaken : LineTaken reader floor level done s location comments l c d)
    (htaken' : LineTaken reader floor level done' s' location' comments' m c' d') :
    d.Aligned unit unit' d' where
  left := h.left.later htaken.suffix htaken.lines htaken.unit (.inr rfl)
  right := h.right.later htaken'.suffix htaken'.lines htaken'.unit (.inr rfl)
  lines := by
    have hlines := h.lines
    rw [htaken.lines, htaken'.lines, forall₂_cons] at hlines
    exact hlines.2
  types := by rw [htaken.types, htaken'.types, h.types, hs.definedTypes]

theorem BodyKind.close_pairs {body : BodyKind} {nodes nodes' : List Node} (source source' : Source)
    (hbody : body.Alike body') (h : AllAlike nodes nodes') :
    (∃ members members', body.close source nodes = .ok members ∧ body'.close source' nodes' = .ok members' ∧
      AllAlike members members') ∨
    ∃ report report', body.close source nodes = .error report ∧ body'.close source' nodes' = .error report' ∧
      report.fault = report'.fault := by
  cases hbody with
  | statements | options => exact .inl ⟨nodes, nodes', rfl, rfl, h⟩
  | member name name' =>
    have hkept := h.filter_comments
    simp only [BodyKind.close]
    generalize nodes.filter (fun n => !n.isComment) = kept at *
    generalize nodes'.filter (fun n => !n.isComment) = kept' at *
    cases hkept with
    | nil => exact .inr ⟨_, _, rfl, rfl, rfl⟩
    | cons hs hblock hrest =>
      cases hrest with
      | nil => exact .inl ⟨_, _, rfl, rfl, .cons hs hblock .nil⟩
      | cons _ _ _ => exact .inr ⟨_, _, rfl, rfl, rfl⟩

theorem BodyKind.Alike.reader {body : BodyKind} (h : body.Alike body') : body.reader = body'.reader := by
  cases h <;> rfl

/-- Both blocks are read, say the same, and end where the lines go on to agree, or neither is, for
the same cause. -/
def BlockPairs (unit unit' : Option Nat) (r r' : Except BlockFailure (List Node × Cursor)) : Prop :=
  match r, r' with
  | .ok (nodes, c), .ok (nodes', c') => AllAlike nodes nodes' ∧ c.Aligned unit unit' c'
  | .error failure, .error failure' => failure.stop.cause = failure'.stop.cause
  | _, _ => False

theorem BlockPairs.results {r r' : Except BlockFailure (List Node × Cursor)} (h : BlockPairs unit unit' r r') :
    (∃ nodes c nodes' c', r = .ok (nodes, c) ∧ r' = .ok (nodes', c') ∧ AllAlike nodes nodes' ∧
      c.Aligned unit unit' c') ∨
    ∃ failure failure', r = .error failure ∧ r' = .error failure' ∧
      failure.stop.cause = failure'.stop.cause := by
  rcases r with failure | ⟨nodes, c⟩ <;> rcases r' with failure' | ⟨nodes', c'⟩
  · exact .inr ⟨failure, failure', rfl, rfl, h⟩
  · exact h.elim
  · exact h.elim
  · exact .inl ⟨nodes, c, nodes', c', rfl, rfl, h⟩

theorem readBlock_pairs (n : Nat) : ∀ (reader : LineReader) (floor : Nat) {done done' : List Node} {c c' : Cursor},
      c.rest.length = n → reader ≠ .idle → AllAlike done done' → c.Aligned unit unit' c' →
      BlockPairs unit unit' (readBlock reader floor done c) (readBlock reader floor done' c') := by
  induction n using Nat.strong_induction_on with
  | _ n ih =>
    intro reader floor done done' c c' hn hreader hdone h
    rw [readBlock.eq_def reader floor done c, readBlock.eq_def reader floor done' c']
    rcases (Reader.nextLine_pairs floor h).results with
      ⟨found, c1, found', c1', hnext, hnext', hfound⟩ | ⟨stop, c1, stop', c1', hnext, hnext', hstop⟩
    swap
    · simp only [hnext, hnext']
      exact hstop
    cases hfound with
    | none haligned =>
      simp only [hnext, hnext']
      exact ⟨hdone, haligned.leave floor _ _⟩
    | @some level t u hstarts =>
      simp only [hnext, hnext']
      rcases (Reader.line_pairs reader level hdone hstarts).results with
        ⟨line, c2, line', c2', hline, hline', hsame⟩ | ⟨stop, c2, stop', c2', hline, hline', hstop⟩
      swap
      · simp only [hline, hline']
        exact hstop
      have htaken := line_taken hreader h.left.scanned hnext hline
      have htaken' := line_taken hreader h.right.scanned hnext' hline'
      have hlt := (line_advances hreader hnext hline).2
      have hlt' := (line_advances hreader hnext' hline').2
      simp only [hline, hline', hlt, hlt', if_true]
      cases hsame with
      | complete hnodes =>
        obtain ⟨s, location, comments, l, rfl, -, htaken⟩ := htaken
        obtain ⟨s', location', comments', m, rfl, -, htaken'⟩ := htaken'
        have hs : s.Alike s' := by
          cases hnodes with
          | cons hs _ _ => exact hs
        exact ih _ (hn ▸ hlt) reader floor rfl hreader (hdone.append hnodes) (h.taken hs htaken htaken')
      | @header s s' location location' comments comments' body body' hs hcomments hbody =>
        obtain ⟨-, -, l, htaken⟩ := htaken
        obtain ⟨-, -, m, htaken'⟩ := htaken'
        have haligned := (h.taken hs htaken htaken').enter (level + 1)
        have hidle := body.reader_ne_idle
        -- the block below the header is shorter, and so is what is left after it
        have hblocks := ih _ (hn ▸ hlt) body.reader (level + 1) rfl hidle hcomments haligned
        simp only [← hbody.reader]
        rcases hblocks.results with
          ⟨nodes, c3, nodes', c3', hblock, hblock', hnodes, hafter⟩ |
          ⟨failure, failure', hblock, hblock', hcause⟩
        swap
        · simp only [hblock, hblock']
          exact hcause
        have hlt3 := (block_advances hreader hnext hline hblock).2
        have hlt3' := (block_advances hreader hnext' hline' (hbody.reader ▸ hblock')).2
        simp only [hblock, hblock']
        rcases BodyKind.close_pairs c3.source c3'.source hbody hnodes with
          ⟨members, members', hclose, hclose', hmembers⟩ |
          ⟨report, report', hclose, hclose', hfault⟩
        · simp only [hclose, hclose', hlt3, hlt3', if_true]
          exact ih _ (hn ▸ hlt3) reader floor rfl hreader (hdone.append (.cons hs hmembers .nil)) hafter
        · simp only [hclose, hclose']
          exact congrArg Cause.fault hfault

theorem readProgram_pairs {file file' : String} {quoted quoted' : List String} {tokens tokens' : List Token}
    (h : (Cursor.start tokens file quoted).Aligned (unitWidth (sourceLines tokens))
      (unitWidth (sourceLines tokens')) (Cursor.start tokens' file' quoted')) :
    (∃ program program', readProgram tokens file quoted = .ok program ∧
      readProgram tokens' file' quoted' = .ok program' ∧
      AllAlike program.nodes program'.nodes) ∨
    ∃ failure failure', readProgram tokens file quoted = .error failure ∧
      readProgram tokens' file' quoted' = .error failure' ∧
      failure.report.cause = failure'.report.cause := by
  unfold readProgram readTokens
  rcases (readBlock_pairs _ .statements 0 rfl (by simp) .nil (h.enter 0)).results with
    ⟨nodes, c, nodes', c', hblock, hblock', hnodes, -⟩ | ⟨failure, failure', hblock, hblock', hcause⟩
  · simp only [hblock, hblock']
    exact .inl ⟨_, _, rfl, rfl, hnodes⟩
  · simp only [hblock, hblock']
    exact .inr ⟨_, _, rfl, rfl, hcause⟩

end CirOutline
