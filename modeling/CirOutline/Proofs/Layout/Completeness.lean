import CirOutline.Proofs.Layout.BlockPairs
import CirOutline.Proofs.Layout.RoundTrip
import CirOutline.Proofs.Token.LongestMatch

/-!
Outlined lines are read. `BlockRuns.blockRead` says that what is read is outlined by its lines; here is
the other direction, for lines without comments: where lines outline a forest, reading them succeeds
and gives the forest, up to white space and places.

A line that says a statement need not be spaced as the marks of the statement ask. It is read like
a line with the same ink that is.
-/

namespace CirOutline

open List

variable {after types : List String} {body : BodyKind} {line : Line} {mark : Mark} {more : List SourceLine}
  {ms ns siblings comments nodes : List Node} {t : Token} {unit : Option Nat} {reader : LineReader}
  {floor : Nat} {s s' : Statement} {location : Location} {l : SourceLine}

/-! ### Writing a line for its ink -/

/-- A token with a text of its class: symbols have one of theirs, and only operators are brackets. -/
structure Token.Plain (t : Token) : Prop where
  symbol : t.kind.symbols ≠ [] → t.raw ∈ t.kind.symbols
  bracket : t.raw = "[" ∨ t.raw = "]" → t.kind = .operator

theorem Mark.Fits.exact (h : mark.Fits t) (hmark : mark.Plain) (ht : t.Plain) : mark.Exact t := by
  refine ⟨h, ?_⟩
  cases mark with
  | symbol kind =>
    obtain rfl : t.kind = kind := h
    exact ht.symbol hmark
  | bracket text =>
    obtain rfl : t.raw = text := h
    exact ht.bracket hmark
  | _ => trivial

theorem Mark.token_kind_of_isGap (h : mark.isGap = true) : mark.token.kind = .spaces := by
  cases mark with
  | gap => rfl
  | copy t => simpa [Mark.isGap, Mark.token] using h
  | _ => cases h

theorem Mark.exists_written {marks : List Mark} {ts : List Token}
    (h : List.Forall₂ Mark.Fits (Mark.ink marks) ts) (hmarks : ∀ mark ∈ marks, mark.Plain)
    (hts : ∀ t ∈ ts, t.kind ≠ .spaces ∧ t.Plain) :
    ∃ written, Mark.Writes marks written ∧ Token.ink written = ts := by
  induction marks generalizing ts with
  | nil =>
    obtain rfl := forall₂_nil_left_iff.mp h
    exact ⟨[], List.Forall₂.nil, rfl⟩
  | cons mark marks ih =>
    obtain ⟨hmark, hmarks⟩ := forall_mem_cons.mp hmarks
    cases hgap : mark.isGap with
    | true =>
      rw [Mark.ink, filter_cons_of_neg (by simp [hgap])] at h
      obtain ⟨written, hwritten, hink⟩ := ih h hmarks hts
      refine ⟨mark.token :: written, List.Forall₂.cons hmark.exact hwritten, ?_⟩
      rw [ink_cons_of_spaces (Mark.token_kind_of_isGap hgap), hink]
    | false =>
      rw [Mark.ink_cons hgap] at h
      obtain ⟨t, rest, hfits, hrest, rfl⟩ := forall₂_cons_left_iff.mp h
      obtain ⟨⟨hspaces, hplain⟩, hts⟩ := forall_mem_cons.mp hts
      obtain ⟨written, hwritten, hink⟩ := ih hrest hmarks hts
      refine ⟨t :: written, List.Forall₂.cons (hfits.exact hmark hplain) hwritten, ?_⟩
      rw [CirOutline.ink_cons hspaces, hink]

theorem Token.Plain.of_lexeme (hspaces : t.kind ≠ .spaces) (hbreak : t.kind ≠ .lineBreak)
    (h : t.kind.Lexeme t.raw.toList) : t.Plain where
  symbol := by
    intro hsymbols
    generalize t.kind = kind at *
    rw [← String.ofList_toList (s := t.raw)]
    cases kind <;> first | exact h | exact absurd rfl hsymbols
  bracket := by
    intro hraw
    have hchars : t.raw.toList = ['['] ∨ t.raw.toList = [']'] :=
      hraw.imp (congrArg String.toList) (congrArg String.toList)
    generalize t.kind = kind at *
    generalize t.raw.toList = cs at *
    cases kind with
    | operator => rfl
    | spaces => exact absurd rfl hspaces
    | lineBreak => exact absurd rfl hbreak
    | word | number =>
      obtain ⟨c, rest, rfl, hc, -⟩ := h
      rcases hchars with hchars | hchars <;> obtain ⟨rfl, -⟩ := List.cons.inj hchars <;>
        exact absurd hc (by decide)
    | comment =>
      obtain ⟨rest, rfl⟩ := h
      rcases hchars with hchars | hchars <;> cases hchars
    | keyword =>
      obtain ⟨k, hk⟩ := h
      have hupper := LexicalRule.keywords_upper k
      rw [← hk] at hupper
      rcases hchars with rfl | rfl <;> exact absurd hupper (by decide)
    | _ => rcases hchars with rfl | rfl <;> simp [TokenKind.Lexeme, TokenKind.symbols] at h

/-! ### Lines without comments -/

/-- A line of tokens with texts of their classes and no comment among them. -/
def SourceLine.Bare (l : SourceLine) : Prop :=
  ∀ t ∈ Token.ink l, t.kind ≠ .lineBreak ∧ t.kind ≠ .comment ∧ t.Plain

theorem SourceLine.Says.spelled (h : l.Says unit reader floor types siblings s location comments)
    (hbare : l.Bare) :
    s.Spelled (Token.ink l) ∧ comments = [] := by
  obtain ⟨ts, trailing, hink, htrailing, hspelled, -, rfl⟩ := h.written
  have hnone : trailing = [] := by
    rw [eq_nil_iff_forall_not_mem]
    intro t ht
    exact (hbare t (hink ▸ mem_append_right ts ht)).2.1 (htrailing t ht)
  subst hnone
  rw [append_nil] at hink
  rw [hink]
  refine ⟨hspelled, ?_⟩
  cases s <;> rfl

theorem BodyKind.Suits.of_alike {body' : BodyKind} (h : body.Suits s) (hs : s.Alike s')
    (hbody : body.Alike body') : body'.Suits s' := by
  cases hs with
  | same =>
    cases s with
    | structType name =>
      obtain ⟨place, rfl⟩ := h
      cases hbody
      exact ⟨_, rfl⟩
    | _ =>
      obtain rfl := h
      cases hbody
      rfl
  | _ =>
    obtain rfl := h
    cases hbody
    rfl

/-- The line holds the statement, up to white space and places, and no comment. -/
def Line.Tells (s : Statement) : Line → Prop
  | .complete nodes => s.opensBlock = false ∧ ∃ s' location, nodes = [.mk s' location []] ∧ s.Alike s'
  | .header s' _ comments body => s.opensBlock = true ∧ comments = [] ∧ s.Alike s' ∧ body.Suits s'

theorem Line.Agrees.tells {line' : Line} (h : line.Agrees s) (hsame : line.Alike line') : line'.Tells s := by
  cases hsame with
  | complete hnodes =>
    obtain ⟨hopens, s', location, rfl, hagrees⟩ := h
    cases hnodes with
    | cons hs hbody hrest =>
      cases hbody
      cases hrest
      exact ⟨hopens, _, _, rfl, (Statement.Alike.of_agrees hagrees).trans hs⟩
  | header hs hcomments hbody =>
    obtain ⟨hopens, rfl, hagrees, hsuits⟩ := h
    cases hcomments
    exact ⟨hopens, rfl, (Statement.Alike.of_agrees hagrees).trans hs, hsuits.of_alike hs hbody⟩

theorem Reader.line_tells (hreader : reader ≠ .idle) {built : List Node} {rest : List Token}
    {c : Cursor} (h : l.Says unit reader floor c.typeNames siblings s location comments)
    (hbare : l.Bare) (hbuilt : Node.AllAlike siblings built) (hplain : PlainBreaks c.rest)
    (hlast : CommentsLast c.rest) (hink : lineInk c.rest = Token.ink l) (hc : c.rest = t :: rest)
    (hspaces : t.kind ≠ .spaces) :
    ∃ line c', Reader.line reader t (l.level unit) built c = .ok line c' ∧ line.Tells s := by
  obtain ⟨⟨loose, hfits⟩, -⟩ := h.spelled hbare
  have hclass : ∀ u ∈ Token.ink l, u.kind ≠ .spaces ∧ u.Plain := by
    intro u hu
    exact ⟨by simpa using of_mem_filter hu, (hbare u hu).2.2⟩
  obtain ⟨written, hexact, hwritten⟩ := Mark.exists_written hfits (s.marks_plain loose) hclass
  have hkinds : ∀ u ∈ written, u.kind ≠ .lineBreak ∧ u.kind ≠ .comment := by
    intro u hu
    by_cases hgap : u.kind = .spaces
    · simp [hgap]
    · have hu : u ∈ Token.ink l := hwritten ▸ mem_filter.mpr ⟨hu, by simpa using hgap⟩
      exact ⟨(hbare u hu).1, (hbare u hu).2.1⟩
  -- the line is read beside one that is spaced as the marks ask
  obtain ⟨u, more, rfl, hgives⟩ := Reader.line_gives (c := { c with rest := written })
    (append_nil written).symm .last hreader hexact h.proper h.allowed
  obtain ⟨w, others, hhead, hwspaces, hwbreak⟩ := Statement.marks_head hexact
  obtain ⟨rfl, rfl⟩ := List.cons.inj hhead
  obtain ⟨line, d, hline, htaken⟩ := hgives.exists_ok
  have habreast : Abreast (u :: more) c.rest := by
    refine abreast_of_ink (fun v hv hbreak => absurd hbreak (hkinds v hv).1) ?_ hplain hlast ?_
    · refine (pairwise_of_forall_mem_list ?_).isChain
      exact fun v hv _ _ hcomment => absurd hcomment (hkinds v hv).2
    · have hall := lineInk_append (fun v hv => (hkinds v hv).1) []
      rw [append_nil, lineInk_nil, append_nil] at hall
      rw [hall, hwritten, hink]
      exact Token.SameInk.refl l
  rw [hc] at habreast
  have hstarts : Cursor.Starts u t { c with rest := u :: more } c :=
    ⟨hc ▸ habreast.heads hwspaces hwbreak hspaces, rfl⟩
  rcases (Reader.line_pairs reader (l.level unit) hbuilt hstarts).results with
    ⟨line1, d1, line', c', hline1, hline', hsame⟩ | ⟨stop, d1, stop', c', hstop, -, -⟩
  · rw [hline] at hline1
    cases hline1
    exact ⟨line', c', hline', htaken.line.tells hsame⟩
  · rw [hline] at hstop
    cases hstop

/-! ### Blocks -/

theorem Node.AllAlike.members (h : AllAlike ns ms) (hs : s.Alike s') :
    AllAlike (s.members ns) (s'.members ms) := by
  cases hs with
  | same =>
    cases s with
    | structType name => exact h.filter_comments
    | _ => exact h
  | _ => exact h

theorem Node.AllAlike.filled (h : AllAlike ns ms) (hs : s.Alike s') (hfilled : s.Filled ns) : s'.Filled ms := by
  have hlength := (h.members hs).statements.length_eq
  cases hs with
  | same => exact hfilled.of_length hlength
  | _ => trivial

theorem Statement.Alike.bodyReader (h : s.Alike s') : s.bodyReader = s'.bodyReader := by
  cases h <;> rfl

theorem BodyKind.close_of_filled (source : Source) (hsuits : body.Suits s) (h : s.Filled nodes) :
    body.close source nodes = .ok (s.members nodes) := by
  cases s with
  | structType type =>
    obtain ⟨name, rfl⟩ := hsuits
    obtain ⟨only, honly⟩ := h
    have hkept : nodes.filter (fun n => !n.isComment) = [only] := honly
    simp [BodyKind.close, Statement.members, hkept]
  | _ =>
    obtain rfl := hsuits
    rfl

theorem Statement.definedTypes_of_leaf (h : s.opensBlock = false) : s.definedTypes = [] := by
  cases s <;> first | rfl | simp [Statement.opensBlock] at h

/-- A block was read that says what the lines outline, and the lines after them are left. -/
structure BlockTold (unit : Option Nat) (nodes : List Node) (later : List SourceLine)
    (after : List String) (new : List Node) (c : Cursor) : Prop where
  alike : Node.AllAlike nodes new
  fits : c.Fits unit
  lines : sourceLines c.rest = later
  types : c.typeNames = after

section Block

variable {built : List Node} {c : Cursor} {later : List SourceLine}

theorem readBlock_shallow (hfits : c.Fits unit)
    (hlater : ∀ next ∈ (sourceLines c.rest).head?, next.level unit < floor) :
    ∃ d, BlockRuns reader floor built c built d ∧ BlockTold unit [] (sourceLines c.rest) c.typeNames [] d := by
  rcases Reader.nextLine_decides floor hfits with ⟨d, hnext, hnone⟩ | ⟨l, t, d, hnext, hfound⟩
  · exact ⟨_, .nil hnext, .nil, hnone.fits.of_eq rfl rfl, hnone.lines, hnone.types⟩
  · obtain ⟨more, hlines⟩ := hfound.first
    exact absurd (hlater l (by rw [hlines]; rfl)) (Nat.not_lt.mpr hfound.deep)

/-- The line of a statement was taken, and the lines after it are left. -/
structure LineTold (unit : Option Nat) (s : Statement) (more : List SourceLine) (c c' : Cursor) :
    Prop where
  fits : c'.Fits unit
  lines : sourceLines c'.rest = more
  types : c'.typeNames = c.typeNames ++ s.definedTypes

theorem Line.Taken.told {level : Nat} {c' : Cursor} (h : line.Taken reader floor level built c c')
    (htells : line.Tells s) (hfits : c.Fits unit) (hlines : sourceLines c.rest = l :: more) :
    LineTold unit s more c c' := by
  have htaken : ∃ s' location comments m, s.Alike s' ∧
      LineTaken reader floor level built s' location comments m c c' := by
    cases line with
    | complete nodes =>
      obtain ⟨-, s1, place, rfl, hs⟩ := htells
      obtain ⟨s', location, comments, m, hnode, -, htaken⟩ := h
      cases hnode
      exact ⟨s1, location, [], m, hs, htaken⟩
    | header s' location comments body =>
      obtain ⟨-, -, hs, -⟩ := htells
      obtain ⟨-, -, m, htaken⟩ := h
      exact ⟨s', location, comments, m, hs, htaken⟩
  obtain ⟨s', location, comments, m, hs, htaken⟩ := htaken
  obtain ⟨rfl, rfl⟩ := List.cons.inj (htaken.lines.symm.trans hlines)
  exact ⟨hfits.later htaken.suffix hlines htaken.unit (.inr rfl), rfl, by rw [htaken.types, hs.definedTypes]⟩

theorem line_found (hreader : reader ≠ .idle) (hfits : c.Fits unit) (hlines : sourceLines c.rest = l :: more)
    (htold : l.Says unit reader floor c.typeNames siblings s location comments) (hbare : l.Bare)
    (hbuilt : Node.AllAlike siblings built) :
    ∃ t c1 line c2, Reader.nextLine floor c = .ok (some (l.level unit, t)) c1 ∧
      Reader.line reader t (l.level unit) built c1 = .ok line c2 ∧ line.Tells s ∧
      LineTold unit s more c c2 := by
  rcases Reader.nextLine_decides floor hfits with ⟨d, hnext, hnone⟩ | ⟨m, t, d, hnext, hfound⟩
  · exact absurd (hnone.shallow l more hlines) (Nat.not_lt.mpr htold.deep)
  · obtain ⟨ms, hms⟩ := hfound.first
    obtain ⟨rfl, -⟩ := List.cons.inj (hlines.symm.trans hms)
    obtain ⟨rest, hstart⟩ := hfound.start
    rw [← hfound.types] at htold
    obtain ⟨line, c2, hline, htells⟩ := Reader.line_tells hreader htold hbare hbuilt
      (hfits.scanned.breaks.of_suffix hfound.suffix)
      (List.IsChain.suffix hfits.comments hfound.suffix) hfound.ink hstart hfound.spaces
    have htaken := line_taken hreader hfits.scanned hnext hline
    exact ⟨t, d, line, c2, hnext, hline, htells, htaken.told htells hfits hlines⟩

end Block

theorem readBlock_outlined {done : List Node} {lines : List SourceLine}
    (h : Outlined unit reader floor types done lines nodes after) :
    ∀ {built : List Node} {c : Cursor} {later : List SourceLine}, reader ≠ .idle →
      Node.AllAlike done built → c.Fits unit → (∀ l ∈ lines, l.Bare) →
      sourceLines c.rest = lines ++ later → (∀ next ∈ later.head?, next.level unit < floor) →
      c.typeNames = types → ∃ new d, BlockRuns reader floor built c (built ++ new) d ∧
        BlockTold unit nodes later after new d := by
  induction h with
  | nil =>
    intro built c later _ _ hfits _ hlines hlater htypes
    rw [nil_append] at hlines
    obtain ⟨d, hruns, htold⟩ := readBlock_shallow hfits (hlines ▸ hlater)
    rw [hlines, htypes] at htold
    exact ⟨[], d, by rwa [append_nil], htold⟩
  | @leaf reader floor types after done nodes l ls s location comments hopens htold hrest ih =>
    intro built c later hreader hbuilt hfits hbare hlines hlater htypes
    subst htypes
    rw [forall_mem_cons] at hbare
    obtain ⟨-, rfl⟩ := htold.spelled hbare.1
    obtain ⟨t, c1, line, c2, hnext, hline, htells, htaken⟩ :=
      line_found hreader hfits hlines htold hbare.1 hbuilt
    cases line with
    | header s' place comments body => exact absurd (hopens.symm.trans htells.1) Bool.false_ne_true
    | complete found =>
      obtain ⟨-, s', place, rfl, hs⟩ := htells
      have hnode : Node.AllAlike [.mk s (some location) []] [.mk s' place []] := .cons hs .nil .nil
      have htypes : c2.typeNames = c.typeNames := by
        rw [htaken.types, Statement.definedTypes_of_leaf hopens, append_nil]
      obtain ⟨new, d, hruns, hafter⟩ := ih hreader (hbuilt.append hnode) htaken.fits hbare.2
        htaken.lines hlater htypes
      refine ⟨.mk s' place [] :: new, d, ?_, hnode.append hafter.alike, hafter.fits, hafter.lines, hafter.types⟩
      rw [append_assoc] at hruns
      exact .leaf hnext hline hruns
  | @header reader floor types between after done block nodes l inner ls s location comments hopens
      htold hblock hfilled hnext hrest ihblock ihrest =>
      intro built c later hreader hbuilt hfits hbare hlines hlater htypes
      subst htypes
      rw [forall_mem_cons, forall_mem_append] at hbare
      obtain ⟨-, rfl⟩ := htold.spelled hbare.1
      obtain ⟨t, c1, line, c2, hfound, hline, htells, htaken⟩ :=
        line_found hreader hfits hlines htold hbare.1 hbuilt
      cases line with
      | complete found => exact absurd (htells.1.symm.trans hopens) Bool.false_ne_true
      | header s' place comments body =>
        obtain ⟨-, rfl, hs, hsuits⟩ := htells
        -- the lines after the block are shallower than its floor
        have hshallow : ∀ next ∈ (ls ++ later).head?, next.level unit < l.level unit + 1 := by
          cases ls with
          | nil => exact fun next hmem => (hlater next hmem).trans_le (Nat.le_succ_of_le htold.deep)
          | cons m ls => exact fun next hmem => Nat.lt_succ_of_le (hnext next hmem)
        have hentered : (c2.enter (l.level unit + 1)).Fits unit := htaken.fits.of_eq rfl rfl
        obtain ⟨inside, c3, hinside, hbelow⟩ := ihblock s.bodyReader_ne_idle .nil hentered hbare.2.1
          (htaken.lines.trans (append_assoc inner ls later)) hshallow htaken.types
        have hclose := BodyKind.close_of_filled c3.source hsuits (hbelow.alike.filled hs hfilled)
        have hnode : Node.AllAlike [.mk s (some location) (s.members ([] ++ block))]
            [.mk s' (some place) (s'.members inside)] := .cons hs (hbelow.alike.members hs) .nil
        obtain ⟨new, d, hruns, hafter⟩ := ihrest hreader (hbuilt.append hnode) hbelow.fits hbare.2.2
          hbelow.lines hlater hbelow.types
        rw [hs.bodyReader, ← hsuits.reader, nil_append] at hinside
        refine ⟨.mk s' (some place) (s'.members inside) :: new, d, ?_, hnode.append hafter.alike,
          hafter.fits, hafter.lines, hafter.types⟩
        rw [append_assoc] at hruns
        exact .header hfound hline hinside hclose hruns

theorem readProgram_of_outlined {tokens : List Token} {file : String} {lines : List String}
    (h : Outlined (unitWidth (sourceLines tokens)) .statements 0 (Cursor.start tokens file lines).typeNames []
      (sourceLines tokens) nodes after)
    (hfits : (Cursor.start tokens file lines).Fits (unitWidth (sourceLines tokens)))
    (hbare : ∀ l ∈ sourceLines tokens, l.Bare) :
    ∃ program, readProgram tokens file lines = .ok program ∧ Node.AllAlike nodes program.nodes := by
  have hentered : ((Cursor.start tokens file lines).enter 0).Fits (unitWidth (sourceLines tokens)) :=
    hfits.of_eq rfl rfl
  obtain ⟨new, c, hruns, htold⟩ := readBlock_outlined h (by simp) .nil hentered hbare
    (append_nil _).symm (by simp) rfl
  refine ⟨⟨new, c.unit, c.journal⟩, ?_, htold.alike⟩
  rw [readProgram, readTokens, hruns.readBlock_eq (by simp)]
  rfl

end CirOutline
