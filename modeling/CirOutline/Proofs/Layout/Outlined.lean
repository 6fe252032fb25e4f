import CirOutline.Proofs.Layout.NextLine
import CirOutline.Token.Scan
import Mathlib.Data.List.Chain

/-!
Blocks. `Outlined` relates lines to the nodes that they become, without reference to how they are
read: a line stands for a node of its own, and a header takes the deeper lines after it as its block.
`BlockRuns.blockRead` shows that a block that is read is outlined by its lines and ends at the first
shallower line or at the end of the input.

The unit of indentation is a parameter of `Outlined`. While it is still open no line has been
indented, so that whatever is outlined then is outlined for every unit fixed later.
-/

namespace CirOutline

open List Option SourceLine BodyKind

variable {c2 c c' c1 : Cursor} {siblings comments nodes done : List Node} {unit : Option Nat}
  {l : SourceLine} {s : Statement} {floor level : Nat} {location : Location}

/-- Tokens as a text gives them: white space is not empty and comes in one piece, and no line break
is written like a bracket. -/
structure Scanned (tokens : List Token) : Prop where
  breaks : PlainBreaks tokens
  spaces : ∀ t ∈ tokens, t.kind = .spaces → 0 < t.raw.length
  apart : tokens.IsChain fun a b => a.kind = .spaces → b.kind ≠ .spaces

theorem Scanned.of_suffix {a b : List Token} (h : Scanned b) (hab : a <:+ b) : Scanned a where
  breaks := h.breaks.of_suffix hab
  spaces := fun t ht => h.spaces t (hab.subset ht)
  apart := h.apart.suffix hab

namespace Reader

theorem lineInk_dropBlankLines {tokens : List Token} (hscan : Scanned tokens)
    (hne : dropBlankLines tokens ≠ []) : lineInk (dropBlankLines tokens) ≠ [] := by
  cases hrest : dropBlankLines tokens with
  | nil => exact absurd hrest hne
  | cons t rest =>
    have hdropped := hscan.of_suffix (dropBlankLines_suffix tokens)
    obtain ⟨hbreak, hnext⟩ := dropBlankLines_head hrest
    rw [hrest] at hdropped
    by_cases hkind : t.kind = .spaces
    · obtain ⟨u, more, rfl, hu⟩ := hnext hkind
      have hink : u.kind ≠ .spaces := (isChain_cons_cons.mp hdropped.apart).1 hkind
      rw [lineInk_cons_of_spaces hkind, lineInk_cons hu hink]
      exact cons_ne_nil _ _
    · rw [lineInk_cons hbreak hkind]
      exact cons_ne_nil _ _

theorem nextLine_meets (floor : Nat) (hscan : Scanned c.rest) :
    Reports (nextLine floor) c fun found c' =>
      c'.typeNames = c.typeNames ∧ c'.rest <:+ c.rest ∧
      match found with
      | none => sourceLines c'.rest = sourceLines c.rest ∧
          ((c'.rest = [] ∧ c'.unit = c.unit) ∨ ∃ l more level, sourceLines c.rest = l :: more ∧
            Measured c.unit l level c'.unit ∧ level < floor)
      | some (level, t) => ∃ l, sourceLines c.rest = l :: sourceLines (afterLine c'.rest) ∧
          Measured c.unit l level c'.unit ∧ floor ≤ level ∧ lineInk c'.rest = Token.ink l ∧
          ∃ rest, c'.rest = t :: rest := by
  have hlines := sourceLines_dropBlankLines c.rest
  have hink := lineInk_dropBlankLines hscan
  have hsearch := nextLine_search floor c
  cases hnext : nextLine floor c with
  | ok found c' =>
    obtain ⟨htypes, hsuffix, -⟩ := Search.line hnext
    rw [hnext] at hsearch
    refine .of_ok hnext ⟨htypes, hsuffix, ?_⟩
    cases hsearch with
    | ended hdrop =>
      rw [hdrop] at hlines
      exact ⟨hlines, .inl ⟨rfl, rfl⟩⟩
    | shallow hdrop hindent hlevel =>
      rw [hdrop] at hlines hink
      refine ⟨hlines, .inr ⟨_, _, _, hlines.symm.trans (sourceLines_of_ink (hink (cons_ne_nil _ _))), ?_, hlevel⟩⟩
      exact measured_of_indent? hindent (Filled.head hscan.spaces hdrop) (dropBlankLines_head hdrop).1 _
    | found hdrop hindent hlevel hstart =>
      rw [hdrop] at hlines hink
      have hbreak := (dropBlankLines_head hdrop).1
      obtain ⟨hsame, hafter⟩ := line_of_start hbreak _
      rw [hstart] at hsame hafter
      refine ⟨_, ?_, measured_of_indent? hindent (Filled.head hscan.spaces hdrop) hbreak _, hlevel, hsame, _, rfl⟩
      rw [← hlines, sourceLines_of_ink (hink (cons_ne_nil _ _)), hafter]
  | error stop c' =>
    rw [hnext] at hsearch
    cases hsearch with
    | failed hdrop hindent => exact .of_error hnext (isReading_indentStop hindent (Filled.head hscan.spaces hdrop) _)

end Reader

/-! ### Blocks and their lines -/

/-- A block that is read without a fault: line by line, with the block below each header. -/
inductive BlockRuns : (reader : LineReader) → (floor : Nat) → (done : List Node) → (c : Cursor) →
    (nodes : List Node) → (c' : Cursor) → Prop
  | nil {reader floor done c c1} (hnext : Reader.nextLine floor c = .ok none c1) :
      BlockRuns reader floor done c done (c1.leave floor done.length)
  | leaf {reader floor level t done new nodes c c1 c2 c'}
      (hnext : Reader.nextLine floor c = .ok (some (level, t)) c1)
      (hline : Reader.line reader t level done c1 = .ok (.complete new) c2)
      (hrest : BlockRuns reader floor (done ++ new) c2 nodes c') : BlockRuns reader floor done c nodes c'
  | header {reader floor level t done s location comments body block members nodes c c1 c2 c3 c'}
      (hnext : Reader.nextLine floor c = .ok (some (level, t)) c1)
      (hline : Reader.line reader t level done c1 = .ok (.header s location comments body) c2)
      (hblock : BlockRuns body.reader (level + 1) comments (c2.enter (level + 1)) block c3)
      (hclose : body.close c3.source block = .ok members)
      (hrest : BlockRuns reader floor (done ++ [.mk s (some location) members]) c3 nodes c') :
      BlockRuns reader floor done c nodes c'

theorem readBlock_runs {reader : LineReader} (h : readBlock reader floor done c = .ok (nodes, c')) :
    BlockRuns reader floor done c nodes c' := by
  fun_induction readBlock reader floor done c generalizing nodes c' with
  | case2 reader floor done c c1 hnext =>
    cases h
    exact .nil hnext
  | case4 reader floor done c level t c1 hnext c2 hlt new hline ih => exact .leaf hnext hline (ih h)
  | case7 reader floor done c level t c1 hnext c2 hlt s location comments body block c3 hblock members
      hclose hlt3 hline ih ih' => exact .header hnext hline (ih hblock) hclose (ih' h)
  | _ => cases h

/-- The line says a statement that may stand there: it is indented by whole units and deep enough,
and its ink writes the statement and comments after it. -/
structure SourceLine.Says (unit : Option Nat) (reader : LineReader) (floor : Nat)
    (types : List String) (siblings : List Node) (s : Statement) (location : Location)
    (comments : List Node) (l : SourceLine) : Prop where
  divides : unit.getD 1 ∣ l.width
  deep : floor ≤ l.level unit
  written : ∃ ts trailing, Token.ink l = ts ++ trailing ∧ (∀ t ∈ trailing, t.kind = .comment) ∧
    s.Spelled ts ∧ Token.place? ts = some location ∧ comments = s.remarks trailing
  proper : s.Proper
  allowed : s.Allowed reader (l.level unit) siblings types

/-- What a statement keeps of the nodes below its line: a named type drops the comments. -/
def Statement.members (s : Statement) (nodes : List Node) : List Node :=
  match s with
  | structType _ => nodes.filter fun n => !n.isComment
  | _ => nodes

/-- The block of a statement is complete: a named type has one member. -/
def Statement.Filled (s : Statement) (nodes : List Node) : Prop :=
  match s with
  | structType _ => ∃ only, s.members nodes = [only]
  | _ => True

theorem Statement.Filled.of_length {ns ms : List Node} (h : s.Filled ns)
    (hlength : (s.members ns).length = (s.members ms).length) : s.Filled ms := by
  cases s with
  | structType name =>
    obtain ⟨only, honly⟩ := h
    rw [honly] at hlength
    exact length_eq_one_iff.mp hlength.symm
  | _ => trivial

/-- The lines of a block and the nodes that they become, where `done` are the nodes of the block
already and `types` the names that are types already. -/
inductive Outlined (unit : Option Nat) : (reader : LineReader) → (floor : Nat) →
    (types : List String) → (done : List Node) → (lines : List SourceLine) → (nodes : List Node) →
    (after : List String) → Prop
  | nil {reader floor types done} :
      Outlined unit reader floor types done [] [] types
  | leaf {reader floor types after done nodes l ls s location comments} (hopens : s.opensBlock = false)
      (htold : l.Says unit reader floor types done s location comments)
      (hrest : Outlined unit reader floor types (done ++ .mk s (some location) [] :: comments) ls
        nodes after) :
      Outlined unit reader floor types done (l :: ls) (.mk s (some location) [] :: comments ++ nodes)
        after
  | header {reader floor types between after done block nodes l inner ls s location comments}
      (hopens : s.opensBlock = true) (htold : l.Says unit reader floor types done s location comments)
      (hblock : Outlined unit s.bodyReader (l.level unit + 1) (types ++ s.definedTypes) comments inner
        block between)
      (hfilled : s.Filled (comments ++ block))
      (hnext : ∀ next ∈ ls.head?, next.level unit ≤ l.level unit)
      (hrest : Outlined unit reader floor between
        (done ++ [.mk s (some location) (s.members (comments ++ block))]) ls nodes after) :
      Outlined unit reader floor types done (l :: (inner ++ ls))
        (.mk s (some location) (s.members (comments ++ block)) :: nodes) after

/-- The result of reading a block: it is outlined by the lines that were read, and it ends at the
end of the input or before a shallower line, which may have fixed the unit. -/
structure BlockRead (reader : LineReader) (floor : Nat) (done : List Node) (c : Cursor)
    (nodes : List Node) (c' : Cursor) : Prop where
  ended : c'.rest = [] ∨ ∃ l more, sourceLines c'.rest = l :: more ∧
    ∀ unit, Extends c'.unit unit → l.level unit < floor
  outlined : ∃ lines new, nodes = done ++ new ∧ sourceLines c.rest = lines ++ sourceLines c'.rest ∧
    c'.unit = c.unit.or (unitWidth (lines ++ (sourceLines c'.rest).head?.toList)) ∧
    ∀ unit, Extends c'.unit unit →
      Outlined unit reader floor c.typeNames done lines new c'.typeNames

theorem LineRead.told {reader : LineReader} {before : Option Nat}
    (h : LineRead reader level siblings s location comments c c') (hplain : PlainBreaks c.rest)
    (hink : lineInk c.rest = Token.ink l) (hmeasured : Measured before l level c.unit)
    (hdeep : floor ≤ level) (hunit : Extends c.unit unit) :
    l.Says unit reader floor c.typeNames siblings s location comments := by
  obtain ⟨⟨ts, trailing, hfinish, hspelled, hplace, hcomments⟩, hproper, hallowed⟩ := h
  have hlevel := hmeasured.level unit hunit
  refine ⟨hmeasured.divides unit hunit, hlevel ▸ hdeep, ⟨ts, trailing, ?_, hfinish.remarks, hspelled,
    hplace, hcomments⟩, hproper, hlevel ▸ hallowed⟩
  rw [← hink, hfinish.ink hplain]

theorem LineRead.length_lt {reader : LineReader} (h : LineRead reader level siblings s location comments c c') :
    c'.rest.length < c.rest.length := by
  obtain ⟨ts, trailing, hfinish, -, hplace, -⟩ := h.written
  have hlength := hfinish.length
  cases ts with
  | nil => simp [Token.place?] at hplace
  | cons t ts =>
    rw [length_cons] at hlength
    omega

/-- Later on, fewer tokens are left and more is noted. -/
structure Cursor.Later (c c' : Cursor) : Prop where
  suffix : c'.rest <:+ c.rest
  journal : c.journal <+: c'.journal

theorem Cursor.Later.trans (h : c.Later c1) (h1 : c1.Later c2) : c.Later c2 :=
  ⟨h1.suffix.trans h.suffix, h.journal.trans h1.journal⟩

theorem Cursor.later_enter (c : Cursor) (level : Nat) : c.Later (c.enter level) :=
  ⟨suffix_rfl, prefix_append _ _⟩

theorem line_advances {reader : LineReader} {done : List Node} {line : Line} (hreader : reader ≠ .idle)
    (hnext : Reader.nextLine floor c = .ok (some (level, t)) c1)
    (hline : Reader.line reader t level done c1 = .ok line c2) :
    c.Later c2 ∧ c2.rest.length < c.rest.length := by
  obtain ⟨-, hsuffix, hjournal, -, hfound⟩ := Reader.Search.line hnext
  obtain ⟨-, -, rest, hc1⟩ := hfound level t rfl
  have hread := (Reader.line_meets hreader hc1 false nofun).ok hline
  have hgrows := (Reader.line_meets hreader hc1 false nofun).exchange.ok hline
  have hle := hsuffix.length_le
  have htaken : ∀ {s location comments}, LineRead reader level done s location comments c1 c2 →
      c.Later c2 ∧ c2.rest.length < c.rest.length := by
    intro s location comments hread
    obtain ⟨ts, trailing, hfinish, -⟩ := hread.written
    have hlt := hread.length_lt
    exact ⟨⟨hfinish.suffix.trans hsuffix, hjournal.trans hgrows.1.1⟩, by omega⟩
  cases line with
  | complete nodes =>
    obtain ⟨s, location, comments, -, -, hread⟩ := hread
    exact htaken hread
  | header s location comments body => exact htaken hread.2.2

theorem BodyKind.close_ok {body : BodyKind} {source : Source} {members : List Node} (hsuits : body.Suits s)
    (h : body.close source nodes = .ok members) : members = s.members nodes ∧ s.Filled nodes := by
  cases s with
  | structType type =>
    obtain ⟨name, rfl⟩ := hsuits
    cases hkept : nodes.filter fun n => !n.isComment with
    | nil => simp [close, hkept] at h
    | cons only others =>
      cases others with
      | nil =>
        have hmembers : members = [only] := by simpa [close, hkept] using h.symm
        exact ⟨hmembers.trans hkept.symm, only, hkept⟩
      | cons second others => simp [close, hkept] at h
  | choose mode =>
    obtain rfl := hsuits
    exact ⟨(Except.ok.inj h).symm, trivial⟩
  | _ =>
    obtain rfl := hsuits
    exact ⟨(Except.ok.inj h).symm, trivial⟩

theorem BodyKind.close_error {body : BodyKind} {source : Source} {report : Diagnostic}
    (h : body.close source nodes = .error report) : report.fault.isReading = true := by
  cases body with
  | statements | options => simp [close] at h
  | member name =>
    rw [close] at h
    split at h <;> cases h <;> rfl

theorem BodyKind.Suits.reader {body : BodyKind} (h : body.Suits s) : body.reader = s.bodyReader := by
  cases s with
  | structType type => obtain ⟨name, rfl⟩ := h; rfl
  | _ => obtain rfl := h; rfl

theorem unitWidth_probe (ls rest : List SourceLine) :
    (unitWidth (ls ++ rest).head?.toList).or (unitWidth (ls ++ rest.head?.toList)) =
      unitWidth (ls ++ rest.head?.toList) := by
  have hhead : ∀ (l : SourceLine) (more : List SourceLine),
      (unitWidth [l]).or (unitWidth (l :: more)) = unitWidth (l :: more) := by
    intro l more
    rw [unitWidth_cons l more, ← Option.or_assoc, Option.or_self]
  cases ls with
  | cons l ls => exact hhead l _
  | nil =>
    cases rest with
    | nil => rfl
    | cons l rest => exact hhead l []

/-- A line was taken: it is the first of the lines left, and it was measured and read. -/
structure LineTaken (reader : LineReader) (floor level : Nat) (done : List Node) (s : Statement)
    (location : Location) (comments : List Node) (l : SourceLine) (c c' : Cursor) : Prop where
  suffix : c'.rest <:+ c.rest
  lines : sourceLines c.rest = l :: sourceLines c'.rest
  unit : c'.unit = c.unit.or (unitWidth [l])
  types : c'.typeNames = c.typeNames ++ s.definedTypes
  level : ∀ unit, Extends c'.unit unit → l.level unit = level
  told : ∀ unit, Extends c'.unit unit →
    l.Says unit reader floor c.typeNames done s location comments

theorem LineRead.taken {reader : LineReader} (h : LineRead reader level done s location comments c1 c2)
    (hscan : Scanned c.rest) (htypes : c1.typeNames = c.typeNames) (hsuffix : c1.rest <:+ c.rest)
    (hlines : sourceLines c.rest = l :: sourceLines (afterLine c1.rest))
    (hmeasured : Measured c.unit l level c1.unit) (hdeep : floor ≤ level)
    (hink : lineInk c1.rest = Token.ink l) :
    LineTaken reader floor level done s location comments l c c2 := by
  have hplain := (hscan.of_suffix hsuffix).breaks
  obtain ⟨ts, trailing, hfinish, -⟩ := h.written
  refine ⟨hfinish.suffix.trans hsuffix, ?_, ?_, ?_, ?_, ?_⟩
  · rw [hfinish.after hplain, hlines]
  · rw [hfinish.unit, hmeasured.unit]
  · rw [hfinish.types, htypes]
  · rw [hfinish.unit]
    exact hmeasured.level
  · intro unit hunit
    rw [hfinish.unit] at hunit
    rw [← htypes]
    exact h.told hplain hink hmeasured hdeep hunit

theorem LineTaken.leaf {reader : LineReader} (h : LineTaken reader floor level done s location comments l c c1)
    (hopens : s.opensBlock = false)
    (hrest : BlockRead reader floor (done ++ .mk s (some location) [] :: comments) c1 nodes c') :
    BlockRead reader floor done c nodes c' := by
  obtain ⟨hover, ls, new, rfl, hlines, hunit, houtlined⟩ := hrest
  have hlater : Extends c1.unit c'.unit := hunit ▸ extends_or _ _
  have htypes : c1.typeNames = c.typeNames := by
    have hnone : s.definedTypes = [] := by
      cases s <;> first | rfl | simp [Statement.opensBlock] at hopens
    rw [h.types, hnone, append_nil]
  refine ⟨hover, l :: ls, .mk s (some location) [] :: comments ++ new, ?_, ?_, ?_, ?_⟩
  · rw [append_assoc]
  · rw [h.lines, hlines, cons_append]
  · rw [hunit, h.unit, Option.or_assoc, cons_append, ← unitWidth_cons]
  · intro unit hextends
    exact .leaf hopens (h.told unit (hlater.trans hextends)) (htypes ▸ houtlined unit hextends)

theorem LineTaken.header {reader : LineReader} {block : List Node}
    (h : LineTaken reader floor level done s location comments l c c1) (hopens : s.opensBlock = true)
    (hblock : BlockRead s.bodyReader (level + 1) comments c1 block c2) (hfilled : s.Filled block)
    (hrest : BlockRead reader floor (done ++ [.mk s (some location) (s.members block)]) c2 nodes c') :
    BlockRead reader floor done c nodes c' := by
  obtain ⟨hover1, inner, new1, rfl, hlines1, hunit1, houtlined1⟩ := hblock
  obtain ⟨hover2, ls, new2, rfl, hlines2, hunit2, houtlined2⟩ := hrest
  have hlater1 : Extends c1.unit c2.unit := hunit1 ▸ extends_or _ _
  have hlater2 : Extends c2.unit c'.unit := hunit2 ▸ extends_or _ _
  refine ⟨hover2, l :: (inner ++ ls), .mk s (some location) (s.members (comments ++ new1)) :: new2, ?_, ?_, ?_, ?_⟩
  · rw [append_assoc, singleton_append]
  · rw [h.lines, hlines1, hlines2, cons_append, append_assoc]
  · rw [hunit2, hunit1, h.unit, hlines2, unitWidth_append inner, Option.or_assoc, Option.or_assoc,
      Option.or_assoc, unitWidth_probe, ← unitWidth_append, cons_append, append_assoc,
      ← unitWidth_cons]
  · intro unit hextends
    have hunit := hlater2.trans hextends
    have hlevel := h.level unit (hlater1.trans hunit)
    have hinner := houtlined1 unit hunit
    rw [h.types, ← hlevel] at hinner
    refine .header hopens (h.told unit (hlater1.trans hunit)) hinner hfilled ?_ (houtlined2 unit hextends)
    intro next hnext
    rcases hover1 with hend | ⟨first, more, hfirst, hshallow⟩
    · rw [hend, sourceLines_nil] at hlines2
      have hnil : ls = [] := (append_eq_nil_iff.mp hlines2.symm).1
      simp [hnil] at hnext
    · have hsame : next = first := by
        rw [hlines2] at hfirst
        cases ls with
        | nil => simp at hnext
        | cons x ls =>
          obtain ⟨rfl, -⟩ := List.cons.inj hfirst
          exact (Option.some.inj hnext).symm
      have hlt := hshallow unit hunit
      rw [hlevel, hsame]
      omega

theorem BlockRead.nil {reader : LineReader} (htypes : c'.typeNames = c.typeNames)
    (hlines : sourceLines c'.rest = sourceLines c.rest)
    (hover : (c'.rest = [] ∧ c'.unit = c.unit) ∨ ∃ l more level, sourceLines c.rest = l :: more ∧
      Measured c.unit l level c'.unit ∧ level < floor) : BlockRead reader floor done c done c' := by
  rcases hover with ⟨hend, hunit⟩ | ⟨l, more, level, hmore, hmeasured, hlevel⟩
  · refine ⟨.inl hend, [], [], by simp, hlines.symm, ?_, fun unit _ => htypes ▸ .nil⟩
    rw [hend, hunit]
    exact (or_none).symm
  · rw [← hlines] at hmore
    refine ⟨.inr ⟨l, more, hmore, ?_⟩, [], [], by simp, hlines.symm, ?_, fun unit _ => htypes ▸ .nil⟩
    · intro unit hunit
      rwa [hmeasured.level unit hunit]
    · rw [hmore]
      exact hmeasured.unit

def Line.Taken (reader : LineReader) (floor level : Nat) (done : List Node) (c c' : Cursor) :
    Line → Prop
  | .complete nodes => ∃ s location comments l, nodes = .mk s (some location) [] :: comments ∧
      s.opensBlock = false ∧ LineTaken reader floor level done s location comments l c c'
  | .header s location comments body => s.opensBlock = true ∧ body.Suits s ∧
      ∃ l, LineTaken reader floor level done s location comments l c c'

theorem line_taken {reader : LineReader} {t : Token} {line : Line} (hreader : reader ≠ .idle)
    (hscan : Scanned c.rest) (hnext : Reader.nextLine floor c = .ok (some (level, t)) c1)
    (hline : Reader.line reader t level done c1 = .ok line c2) : line.Taken reader floor level done c c2 := by
  obtain ⟨htypes, hsuffix, l, hlines, hmeasured, hdeep, hink, rest, hc1⟩ :=
    (Reader.nextLine_meets floor hscan).ok hnext
  have hread := (Reader.line_meets hreader hc1 false nofun).ok hline
  cases line with
  | complete nodes =>
    obtain ⟨s, location, comments, rfl, hopens, hread⟩ := hread
    exact ⟨s, location, comments, l, rfl, hopens, hread.taken hscan htypes hsuffix hlines hmeasured hdeep hink⟩
  | header s location comments body =>
    obtain ⟨hopens, hsuits, hread⟩ := hread
    exact ⟨hopens, hsuits, l, hread.taken hscan htypes hsuffix hlines hmeasured hdeep hink⟩

theorem BodyKind.reader_ne_idle (body : BodyKind) : body.reader ≠ .idle := by
  cases body <;> simp [reader]

theorem BlockRuns.later {reader : LineReader} (h : BlockRuns reader floor done c nodes c') (hreader : reader ≠ .idle) :
    c.Later c' := by
  induction h with
  | nil hnext =>
    obtain ⟨-, hsuffix, hjournal, -⟩ := Reader.Search.line hnext
    exact ⟨hsuffix, hjournal.trans (prefix_append _ _)⟩
  | leaf hnext hline _ ih => exact (line_advances hreader hnext hline).1.trans (ih hreader)
  | @header _ _ _ _ _ _ _ _ body _ _ _ _ _ c2 _ _ hnext hline _ _ _ ih ih' =>
    have hinner := (c2.later_enter _).trans (ih body.reader_ne_idle)
    exact (line_advances hreader hnext hline).1.trans (hinner.trans (ih' hreader))

theorem block_advances {reader : LineReader} {t : Token} {body : BodyKind} (hreader : reader ≠ .idle)
    (hnext : Reader.nextLine floor c = .ok (some (level, t)) c1)
    (hline : Reader.line reader t level done c1 = .ok (.header s location comments body) c2)
    (hblock : readBlock body.reader (level + 1) comments (c2.enter (level + 1)) = .ok (nodes, c')) :
    c.Later c' ∧ c'.rest.length < c.rest.length := by
  obtain ⟨hlater, hlt⟩ := line_advances hreader hnext hline
  have hinner := (readBlock_runs hblock).later body.reader_ne_idle
  exact ⟨hlater.trans ((c2.later_enter _).trans hinner), Nat.lt_of_le_of_lt hinner.suffix.length_le hlt⟩

theorem BlockRuns.readBlock_eq {reader : LineReader} (h : BlockRuns reader floor done c nodes c')
    (hreader : reader ≠ .idle) : readBlock reader floor done c = .ok (nodes, c') := by
  induction h with
  | nil hnext => rw [readBlock, hnext]
  | leaf hnext hline _ ih =>
    rw [readBlock, hnext]
    simp only [hline, (line_advances hreader hnext hline).2, if_true, ih hreader]
  | @header _ _ _ _ _ _ _ _ body _ _ _ _ _ _ _ _ hnext hline _ hclose _ ih ih' =>
    have hblock := ih body.reader_ne_idle
    rw [readBlock, hnext]
    simp only [hline, (line_advances hreader hnext hline).2, if_true, hblock, hclose,
      (block_advances hreader hnext hline hblock).2, ih' hreader]

theorem BlockRuns.blockRead {reader : LineReader} (h : BlockRuns reader floor done c nodes c')
    (hreader : reader ≠ .idle) (hscan : Scanned c.rest) : BlockRead reader floor done c nodes c' := by
  induction h with
  | nil hnext =>
    obtain ⟨htypes, -, hlines, hover⟩ := (Reader.nextLine_meets _ hscan).ok hnext
    exact BlockRead.nil htypes hlines hover
  | leaf hnext hline hrest ih =>
    obtain ⟨s, location, comments, l, rfl, hopens, htaken⟩ := line_taken hreader hscan hnext hline
    exact htaken.leaf hopens (ih hreader (hscan.of_suffix htaken.suffix))
  | @header _ _ _ _ _ _ _ _ body _ _ _ _ _ _ _ _ hnext hline hblock hclose hrest ih ih' =>
    obtain ⟨hopens, hsuits, l, htaken⟩ := line_taken hreader hscan hnext hline
    have hscan2 := hscan.of_suffix htaken.suffix
    have hinner := ih body.reader_ne_idle hscan2
    rw [hsuits.reader] at hinner
    obtain ⟨rfl, hfilled⟩ := close_ok hsuits hclose
    have hrest := ih' hreader (hscan2.of_suffix (hblock.later body.reader_ne_idle).suffix)
    exact htaken.header hopens ⟨hinner.ended, hinner.outlined⟩ hfilled hrest

section

variable {tokens : List Token} {file : String} {lines : List String}

theorem readProgram_ok {program : Program} (h : readProgram tokens file lines = .ok program) :
    ∃ c, readBlock .statements 0 [] ((Cursor.start tokens file lines).enter 0) = .ok (program.nodes, c) ∧
      program.unit = c.unit ∧ program.journal = c.journal := by
  rw [readProgram, readTokens] at h
  split at h
  · next nodes c hblock =>
    obtain rfl := Except.ok.inj h
    exact ⟨c, hblock, rfl, rfl⟩
  · cases h

theorem readProgram_fails {failure : ProgramFailure} (h : readProgram tokens file lines = .error failure) :
    ∃ block, readBlock .statements 0 [] ((Cursor.start tokens file lines).enter 0) = .error block ∧
      failure = block.toProgramFailure := by
  rw [readProgram, readTokens] at h
  split at h
  · cases h
  · next block hblock => exact ⟨block, hblock, (Except.error.inj h).symm⟩

end

/-- A program that is read is outlined by all of its lines, with the width of the first indented one
as unit, and nothing is left. -/
theorem readProgram_outlined {tokens : List Token} {file : String} {lines : List String}
    {program : Program} (hscan : Scanned tokens) (h : readProgram tokens file lines = .ok program) :
    program.unit = unitWidth (sourceLines tokens) ∧
      (∃ after, Outlined program.unit .statements 0 (Cursor.start tokens file lines).typeNames []
        (sourceLines tokens) program.nodes after) ∧
      ∃ c, readBlock .statements 0 [] ((Cursor.start tokens file lines).enter 0) = .ok (program.nodes, c) ∧
        c.rest = [] := by
  obtain ⟨c, hblock, hsame, -⟩ := readProgram_ok h
  have hmeets := (readBlock_runs hblock).blockRead (by simp) hscan
  obtain ⟨hover, ls, new, hnodes, hlines, hunit, houtlined⟩ := hmeets
  have hend : c.rest = [] := by
    rcases hover with hend | ⟨l, more, -, hshallow⟩
    · exact hend
    · exact absurd (hshallow _ (Extends.refl _)) (Nat.not_lt_zero _)
  rw [hend, sourceLines_nil, append_nil] at hlines
  rw [hend, sourceLines_nil, head?_nil, toList_none, append_nil] at hunit
  have hlines : sourceLines tokens = ls := hlines
  rw [hlines, hsame]
  refine ⟨hunit, ⟨c.typeNames, ?_⟩, c, hblock, hend⟩
  have houtline := houtlined _ (Extends.refl _)
  rw [nil_append] at hnodes
  rw [hnodes]
  exact houtline

/-- The tokens and the program of a source text. -/
def read? (source file : String) : Option (List Token × Program) := do
  let tokens ← (tokenize source file).toOption
  let program ← (readProgram tokens file []).toOption
  some (tokens, program)

theorem exists_read (source file : String) (P : List Token → Program → Prop)
    [∀ tokens program, Decidable (P tokens program)]
    (h : ((read? source file).any fun r => decide (P r.1 r.2)) = true) :
    ∃ tokens program, tokenize source file = .ok tokens ∧ readProgram tokens file [] = .ok program ∧
      P tokens program := by
  obtain ⟨r, h, hr⟩ := (Option.any_eq_true _ _).mp h
  obtain ⟨tokens, htokens, h⟩ := bind_eq_some_iff.mp h
  obtain ⟨program, hread, h⟩ := bind_eq_some_iff.mp h
  cases h
  exact ⟨tokens, program, eq_ok_of_toOption htokens, eq_ok_of_toOption hread, of_decide_eq_true hr⟩

end CirOutline
