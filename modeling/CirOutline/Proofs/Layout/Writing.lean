import CirOutline.Proofs.Alike
import CirOutline.Proofs.Layout.Listing

/-!
Written lines are read. Where the tokens of a line are exactly those that the marks of a statement
ask for, its reader does not fail, takes the line and gives the statement back, up to the places of
the tokens. The steps are evaluated one after the other from the tokens in front of them.
-/

namespace CirOutline

open List Token Mark SequenceResult Statement

variable {arguments expression rest run ts condition : List Token} {depth : Nat} {isMutable loose : Bool}
  {reader : LineReader} {statement : List Token → Statement} {type name mode : String} {α : Type}
  {stop : Token → Bool} {names : List String} {close word : Token} {ps : List Parameter} {k : Keyword}
  {kind : TokenKind}

/-- A token that writes a mark: the mark admits it, a symbol has a text of its class, and a bracket
is an operator. -/
def Mark.Exact (mark : Mark) (t : Token) : Prop :=
  mark.Fits t ∧
    match mark with
    | symbol kind => t.raw ∈ kind.symbols
    | bracket _ => t.kind = .operator
    | _ => True

/-- The tokens write the marks one by one. -/
abbrev Mark.Writes (marks : List Mark) (ts : List Token) : Prop := List.Forall₂ Exact marks ts

theorem Mark.Writes.nil (h : Writes [] ts) : ts = [] := forall₂_nil_left_iff.mp h

theorem Mark.Writes.cons {mark : Mark} {marks : List Mark} (h : Writes (mark :: marks) ts) :
    ∃ t more, mark.Exact t ∧ Writes marks more ∧ ts = t :: more :=
  forall₂_cons_left_iff.mp h

theorem Mark.Writes.single {mark : Mark} (h : Writes [mark] ts) : ∃ t, mark.Exact t ∧ ts = [t] := by
  obtain ⟨t, _, ht, hnil, rfl⟩ := h.cons
  obtain rfl := hnil.nil
  exact ⟨t, ht, rfl⟩

/-- The end of a line: the end of the input, or a line break. -/
inductive LineEnd : (tail rest : List Token) → Prop
  | last : LineEnd [] []
  | next {t : Token} {rest : List Token} (h : t.kind = .lineBreak) : LineEnd (t :: rest) rest

theorem LineEnd.endsLine {tail : List Token} (h : LineEnd tail rest) : ∀ t ∈ tail.head?, t.kind = .lineBreak := by
  cases h with
  | last => simp
  | next h => simpa using h

theorem LineEnd.ink {tail : List Token} (h : LineEnd tail rest) : ∀ t ∈ tail.head?, t.kind ≠ .spaces :=
  fun t ht => by simp [h.endsLine t ht]

namespace Reader

/-- The step gives a value with `Q`; it does not stop. -/
abbrev Gives {α : Type} (m : Reader α) (c : Cursor) (Q : α → Cursor → Prop) : Prop :=
  Ends m c Q fun _ _ => False

variable {c : Cursor} {t : Token} {gaps tail : List Token}

theorem dropWhile_gaps (hgaps : ∀ g ∈ gaps, g.kind = .spaces) (hrest : ∀ t ∈ rest.head?, t.kind ≠ .spaces) :
    (gaps ++ rest).dropWhile (fun t => t.kind == .spaces) = rest := by
  rw [dropWhile_append_of_pos fun g hg => by simpa using hgaps g hg]
  cases rest with
  | nil => rfl
  | cons t rest => exact dropWhile_cons_of_neg (by simpa using hrest t rfl)

theorem skipSpaces_to (hc : c.rest = gaps ++ rest) (hgaps : ∀ g ∈ gaps, g.kind = .spaces)
    (hrest : ∀ t ∈ rest.head?, t.kind ≠ .spaces) :
    skipSpaces c = .ok rest.head? { c with rest := rest } := by
  rw [skipSpaces_eq, hc, dropWhile_gaps hgaps hrest]

theorem accept?_hit (hc : c.rest = gaps ++ t :: rest) (hgaps : ∀ g ∈ gaps, g.kind = .spaces)
    (hkind : t.kind = kind) (hink : kind ≠ .spaces) :
    accept? kind c = .ok (some t) { c with rest := rest } := by
  rw [accept?, bind_of_ok (skipSpaces_to hc hgaps (by simpa [hkind] using hink))]
  simp only [head?_cons, hkind, beq_self_eq_true, if_true]
  rw [bind_of_ok (advance_eq rfl)]
  rfl

theorem accept?_miss (hc : c.rest = gaps ++ rest) (hgaps : ∀ g ∈ gaps, g.kind = .spaces)
    (hrest : ∀ t ∈ rest.head?, t.kind ≠ .spaces ∧ t.kind ≠ kind) :
    accept? kind c = .ok none { c with rest := rest } := by
  have hdrop := dropWhile_gaps hgaps fun t ht => (hrest t ht).1
  rw [← hc] at hdrop
  have hnone : accept? kind c = _ := accept?_none (by rw [hdrop]; exact fun t ht => (hrest t ht).2)
  rwa [hdrop] at hnone

theorem expect_hit (description : String) (hc : c.rest = gaps ++ t :: rest)
    (hgaps : ∀ g ∈ gaps, g.kind = .spaces) (hkind : t.kind = kind) (hink : kind ≠ .spaces) :
    expect kind description c = .ok t { c with rest := rest } := by
  rw [expect, bind_of_ok (accept?_hit hc hgaps hkind hink)]
  rfl

theorem takeWhile_split {p : Token → Bool} (hc : c.rest = run ++ tail) (hrun : ∀ t ∈ run, p t = true)
    (htail : ∀ t ∈ tail.head?, p t = false) : takeWhile p c = .ok run { c with rest := tail } := by
  have htake : (run ++ tail).takeWhile p = run := by
    rw [takeWhile_append_of_pos hrun]
    cases tail with
    | nil => rw [takeWhile_nil, append_nil]
    | cons t tail => rw [takeWhile_cons_of_neg (by simpa using htail t rfl), append_nil]
  have hdrop : (run ++ tail).dropWhile p = tail := by
    rw [dropWhile_append_of_pos hrun]
    cases tail with
    | nil => rfl
    | cons t tail => exact dropWhile_cons_of_neg (by simpa using htail t rfl)
  rw [takeWhile_eq, hc, htake, hdrop]

theorem takeUntil_hit (description : String) (hc : c.rest = run ++ t :: rest)
    (hrun : ∀ t ∈ run, t.endsLine = false ∧ stop t = false) (hstop : stop t = true)
    (hend : t.endsLine = false) :
    takeUntil stop description c = .ok run { c with rest := t :: rest } := by
  rw [takeUntil, bind_of_ok (takeWhile_split hc (fun u hu => by simp [hrun u hu]) (by simp [hstop]))]
  have hline : atLineEnd { c with rest := t :: rest } = .ok false { c with rest := t :: rest } := by
    change EStateM.Result.ok t.endsLine _ = _
    rw [hend]
  rw [bind_of_ok hline]
  rfl

theorem takeLine_to (hc : c.rest = run ++ tail) (hrun : ∀ t ∈ run, t.endsLine = false)
    (htail : LineEnd tail rest) : takeLine c = .ok run { c with rest := tail } := by
  refine takeWhile_split hc (fun t ht => by simp [hrun t ht]) fun t ht => ?_
  simp [endsLine, htail.endsLine t ht]

theorem finishLine_to (hc : c.rest = tail) (htail : LineEnd tail rest) :
    finishLine c = .ok [] { c with rest := rest } := by
  have hmiss : accept? .comment c = .ok none { c with rest := tail } :=
    accept?_miss (show c.rest = [] ++ tail from hc) (by simp) fun t ht => by
      simp [htail.endsLine t ht]
  rw [finishLine, bind_of_ok hmiss]
  cases htail with
  | last => rfl
  | @next t rest hbreak => exact endLine_break (c := { c with rest := t :: rest }) rfl hbreak

theorem finishHeader_to (hc : c.rest = t :: tail) (hkind : t.kind = .colon) (htail : LineEnd tail rest) :
    finishHeader c = .ok [] { c with rest := rest } := by
  have hcolon := expect_hit "':'" (show c.rest = [] ++ t :: tail from hc) (by simp) hkind (by decide)
  rw [finishHeader, bind_of_ok hcolon]
  exact finishLine_to rfl htail

theorem sequence_to {read : Source → List Token → SequenceResult α} {a : α} (h : read c.source c.rest = .ok (a, rest)) :
    sequence read c = .ok a { c with rest := rest } := by
  rw [sequence, h]

end Reader

/-! ### Runs and sequences -/

theorem forall₂_append_split {β : Type} {R : α → β → Prop} {a b : List α} {ts : List β}
    (h : List.Forall₂ R (a ++ b) ts) :
    ∃ x y, List.Forall₂ R a x ∧ List.Forall₂ R b y ∧ ts = x ++ y := by
  induction a generalizing ts with
  | nil => exact ⟨[], ts, .nil, h, rfl⟩
  | cons m a ih =>
    obtain ⟨t, rest, hfirst, hrest, rfl⟩ := forall₂_cons_left_iff.mp h
    obtain ⟨x, y, hx, hy, rfl⟩ := ih hrest
    exact ⟨t :: x, y, .cons hfirst hx, hy, rfl⟩

theorem Mark.Writes.append {a b : List Mark} (h : Writes (a ++ b) ts) :
    ∃ x y, Writes a x ∧ Writes b y ∧ ts = x ++ y :=
  forall₂_append_split h

theorem Mark.Writes.alike (h : Writes (Mark.run run) ts) : Forall₂ Token.Alike run ts := by
  rw [Writes, Mark.run, forall₂_map_left_iff] at h
  refine h.imp fun u t hcopy => ?_
  obtain ⟨hkind, hraw⟩ : t.kind = u.kind ∧ t.raw = u.raw := by simpa [Fits, Token.agrees] using hcopy.1
  exact ⟨hkind.symm, hraw.symm⟩

theorem Token.Captured.of_alike (h : Forall₂ Token.Alike run ts)
    (hstop : ∀ u t : Token, u.Alike t → stop u = stop t) (hrun : Captured stop run) : Captured stop ts := by
  obtain ⟨⟨u, more, rfl, hink⟩, hall⟩ := hrun
  refine ⟨?_, Token.Alike.forall_mem h (fun u t hsame hu => ?_) hall⟩
  · obtain ⟨t, rest, hfirst, -, rfl⟩ := forall₂_cons_left_iff.mp h
    exact ⟨t, rest, rfl, hfirst.kind ▸ hink⟩
  · rw [← hstop u t hsame, ← hsame.endsLine]
    exact hu

theorem Token.Balanced.of_alike (h : Forall₂ Token.Alike run ts) (hrun : Balanced depth run) :
    Balanced depth ts := by
  induction h generalizing depth with
  | nil => exact hrun
  | @cons u t run ts hfirst _ ih =>
    rw [Balanced, ← hfirst.kind]
    rw [Balanced] at hrun
    split_ifs at hrun ⊢
    · exact ih hrun
    · obtain ⟨outer, hdepth, hrun⟩ := hrun
      exact ⟨outer, hdepth, ih hrun⟩
    · exact ih hrun

theorem readItems_more (source : Source) (construct : String) (rest : List Token)
    (h : Writes (moreItems loose names) ts) (hclose : close.kind = .closeParen) :
    readItems construct source false (ts ++ close :: rest) = .ok (names, rest) := by
  induction names generalizing ts with
  | nil =>
    cases loose with
    | false =>
      obtain rfl := h.nil
      simp [readItems, hclose]
    | true =>
      obtain ⟨comma, more, hcomma, hmore, rfl⟩ := h.cons
      obtain rfl := hmore.nil
      have hkind : comma.kind = .comma := hcomma.1
      simp [readItems, hkind, hclose]
  | cons name names ih =>
    obtain ⟨comma, _, hcomma, h1, rfl⟩ := h.cons
    obtain ⟨gap, _, hgap, h2, rfl⟩ := h1.cons
    obtain ⟨item, more, hitem, hmore, rfl⟩ := h2.cons
    have hcomma : comma.kind = .comma := hcomma.1
    have hgap : gap.kind = .spaces := hgap.1
    obtain ⟨hitem, rfl⟩ : (item.kind = .word ∨ item.kind = .number) ∧ item.raw = name := hitem.1
    have hrest := ih hmore
    rcases hitem with hitem | hitem <;>
      simp [readItems, hcomma, hgap, hitem, hrest, prepend]

theorem readItems_written {construct : String} (h : Writes (items loose names) ts)
    (hclose : close.kind = .closeParen) :
    readItems construct source true (ts ++ close :: rest) = .ok (names, rest) := by
  cases names with
  | nil =>
    obtain rfl := h.nil
    simp [readItems, hclose]
  | cons name names =>
    obtain ⟨item, more, hitem, hmore, rfl⟩ := h.cons
    obtain ⟨hitem, rfl⟩ : (item.kind = .word ∨ item.kind = .number) ∧ item.raw = name := hitem.1
    have hrest := readItems_more source construct rest hmore hclose
    rcases hitem with hitem | hitem <;> simp [readItems, hitem, hrest, prepend]

theorem readArguments_written {opening : Token} (hbalanced : Balanced depth arguments)
    (hline : ∀ t ∈ arguments, t.kind ≠ .lineBreak) (hclose : close.kind = .closeParen) :
    readArguments opening source depth (arguments ++ close :: rest) = .ok (arguments, rest) := by
  induction arguments generalizing depth with
  | nil =>
    obtain rfl : depth = 0 := hbalanced
    simp [readArguments, hclose]
  | cons t arguments ih =>
    rw [forall_mem_cons] at hline
    have hbreak : (t.kind == TokenKind.lineBreak) = false := beq_eq_false_iff_ne.mpr hline.1
    rw [Token.Balanced] at hbalanced
    rw [cons_append]
    unfold readArguments
    split_ifs at hbalanced with hopen hclosing
    · simp [hopen, ih hbalanced hline.2, prepend]
    · obtain ⟨outer, rfl, hinner⟩ := hbalanced
      simp [hclosing, ih hinner hline.2, prepend]
    · simp [hbreak, hopen, hclosing, ih hbalanced hline.2, prepend]

theorem readParameters_dimensions (source : Source) (opening array : Token) (element : String) (done : List String)
    (rest : List Token) {dims : List String} (h : Writes (dimensions dims) ts) :
    readParameters opening source (.separator array element done) (ts ++ rest) =
      readParameters opening source (.separator array element (done ++ dims)) rest := by
  induction dims generalizing done ts with
  | nil =>
    obtain rfl := h.nil
    rw [append_nil, nil_append]
  | cons dim dims ih =>
    obtain ⟨comma, _, hcomma, h1, rfl⟩ := h.cons
    obtain ⟨gap, _, hgap, h2, rfl⟩ := h1.cons
    obtain ⟨item, more, hitem, hmore, rfl⟩ := h2.cons
    have hraw : comma.raw = "," := mem_singleton.mp hcomma.2
    have hcomma : comma.kind = .comma := hcomma.1
    have hgap : gap.kind = .spaces := hgap.1
    obtain ⟨hitem, rfl⟩ : (item.kind = .word ∨ item.kind = .number) ∧ item.raw = dim := hitem.1
    have hrest := ih (done ++ [item.raw]) hmore
    rw [append_assoc, singleton_append] at hrest
    rcases hitem with hitem | hitem <;>
      simp [readParameters, hcomma, hraw, hgap, hitem, hrest]

theorem readParameters_parameter (source : Source) (opening : Token) (first : Bool) (rest : List Token)
    {p : Parameter} (hp : p.Proper) (h : Writes (parameter p) ts) :
    readParameters opening source (.typeName first) (ts ++ rest) =
      prepend p (readParameters opening source .next rest) := by
  obtain ⟨type, name, dims⟩ := p
  rw [parameter] at h
  split_ifs at h with hdims
  · obtain rfl : dims = [] := hdims
    have htype : type ≠ arrayTypeName := hp rfl
    obtain ⟨typeToken, _, ⟨⟨hword, rfl⟩, -⟩, h1, rfl⟩ := h.cons
    obtain ⟨gap, _, hgap, h2, rfl⟩ := h1.cons
    obtain ⟨nameToken, ⟨⟨hname, rfl⟩, -⟩, rfl⟩ := h2.single
    have hgap : gap.kind = .spaces := hgap.1
    simp [readParameters, hword, hgap, hname, htype]
  · obtain ⟨front, back, hfront, hback, rfl⟩ := h.append
    obtain ⟨head, middle, hhead, hmiddle, rfl⟩ := hfront.append
    obtain ⟨array, _, ⟨⟨harray, hraw⟩, -⟩, h1, rfl⟩ := hhead.cons
    obtain ⟨opened, _, ⟨hopened, hopenKind⟩, h2, rfl⟩ := h1.cons
    obtain ⟨element, ⟨⟨helement, rfl⟩, -⟩, rfl⟩ := h2.single
    obtain ⟨closed, _, ⟨hclosed, hcloseKind⟩, h4, rfl⟩ := hback.cons
    obtain ⟨gap, _, hgap, h5, rfl⟩ := h4.cons
    obtain ⟨nameToken, ⟨⟨hname, rfl⟩, -⟩, rfl⟩ := h5.single
    have hopenKind : opened.kind = .operator := hopenKind
    have hcloseKind : closed.kind = .operator := hcloseKind
    have hopened : opened.raw = "[" := hopened
    have hclosed : closed.raw = "]" := hclosed
    have hgap : gap.kind = .spaces := hgap.1
    have hfull : dims ≠ [] := hdims
    have hread := readParameters_dimensions source opening array element.raw []
      (closed :: gap :: nameToken :: rest) hmiddle
    simp [readParameters, harray, hraw, hopenKind, hopened, helement, hread, hcloseKind, hclosed, hfull,
      hgap, hname]

theorem readParameters_more (source : Source) (opening : Token) (rest : List Token)
    (h : Writes (moreParameters ps) ts) (hproper : ∀ p ∈ ps, p.Proper)
    (hclose : close.kind = .closeParen) :
    readParameters opening source .next (ts ++ close :: rest) = .ok (ps, rest) := by
  induction ps generalizing ts with
  | nil =>
    obtain rfl := h.nil
    simp [readParameters, hclose]
  | cons p ps ih =>
    rw [forall_mem_cons] at hproper
    obtain ⟨front, back, hfront, hback, rfl⟩ := h.append
    obtain ⟨comma, _, hcomma, h1, rfl⟩ := hfront.cons
    obtain ⟨gap, parameter, hgap, hparameter, rfl⟩ := h1.cons
    have hcomma : comma.kind = .comma := hcomma.1
    have hgap : gap.kind = .spaces := hgap.1
    have hfirst := readParameters_parameter source opening false (back ++ close :: rest) hproper.1 hparameter
    rw [ih hback hproper.2] at hfirst
    simp [readParameters, hcomma, hgap, hfirst, prepend]

theorem readParameters_written (opening : Token) (rest : List Token)
    (h : Writes (parameters ps) ts) (hproper : ∀ p ∈ ps, p.Proper)
    (hclose : close.kind = .closeParen) :
    readParameters opening source (.typeName true) (ts ++ close :: rest) = .ok (ps, rest) := by
  cases ps with
  | nil =>
    obtain rfl := h.nil
    simp [readParameters, hclose]
  | cons p ps =>
    rw [forall_mem_cons] at hproper
    obtain ⟨parameter, more, hparameter, hmore, rfl⟩ := h.append
    rw [append_assoc, readParameters_parameter source opening true _ hproper.1 hparameter,
      readParameters_more source opening rest hmore hproper.2 hclose]
    rfl

/-! ### Lines -/

/-- The line holds the statement, up to the places of its tokens, and no comment. -/
def Line.Agrees (s : Statement) : Line → Prop
  | .complete nodes => s.opensBlock = false ∧
      ∃ s' location, nodes = [.mk s' (some location) []] ∧ s'.agrees s = true
  | .header s' _ comments body => s.opensBlock = true ∧ comments = [] ∧ s'.agrees s = true ∧
      body.Suits s'

structure Taken (s : Statement) (rest : List Token) (c : Cursor) (line : Line) (c' : Cursor) :
    Prop where
  line : line.Agrees s
  rest : c'.rest = rest
  unit : c'.unit = c.unit
  types : c'.typeNames = c.typeNames ++ s.definedTypes

namespace Reader

variable {c0 c : Cursor} {s s' : Statement} {location : Location} {t : Token} {tail : List Token}
  {level : Nat} {siblings : List Node}

theorem complete_gives (hc : c.rest = tail) (htail : LineEnd tail rest) (hunit : c.unit = c0.unit)
    (htypes : c.typeNames = c0.typeNames) (hagrees : s'.agrees s = true)
    (hopens : s.opensBlock = false) : Gives (complete s' location) c (Taken s rest c0) := by
  refine Ends.bind_ok (finishLine_to hc htail) (Ends.pure ⟨?_, rfl, hunit, ?_⟩)
  · exact ⟨hopens, s', location, rfl, hagrees⟩
  · have hnone : s.definedTypes = [] := by
      cases s <;> first | rfl | simp [opensBlock] at hopens
    rw [hnone, append_nil]
    exact htypes

theorem openBlock_gives {body : BodyKind} (hc : c.rest = t :: tail) (hcolon : t.kind = .colon)
    (htail : LineEnd tail rest) (hunit : c.unit = c0.unit)
    (htypes : c.typeNames = c0.typeNames ++ s.definedTypes) (hagrees : s'.agrees s = true)
    (hopens : s.opensBlock = true) (hsuits : body.Suits s') :
    Gives (openBlock s' location body) c (Taken s rest c0) :=
  Ends.bind_ok (finishHeader_to hc hcolon htail) (Ends.pure ⟨⟨hopens, rfl, hagrees, hsuits⟩, rfl, hunit, htypes⟩)

theorem keyword_gives {Q : Line → Cursor → Prop} (hkey : t.keyword? = some k)
    (h : ∀ journal, Gives (keywordStatement t level siblings (some k)) { c with journal := journal } Q) :
    Gives (line .statements t level siblings) c Q := by
  obtain ⟨journal, hcheck⟩ := checkCase_ok t c
  have hkind := kind_of_keyword? hkey
  have hline : line .statements t level siblings = keywordLine t level siblings := by
    simp only [line, statementLine, hkind]
  rw [hline, keywordLine, hkey]
  exact Ends.bind_ok hcheck (h journal)

theorem Statement.agrees_self (s : Statement) : s.agrees s = true := by
  have hrun : ∀ run, runsAgree run run = true := by
    intro run
    induction run with
    | nil => rfl
    | cons t run ih => simp [Token.runsAgree, Token.agrees, ih]
  cases s <;> simp [Statement.agrees, hrun]

theorem exact_keyword (h : (keyword k).Exact t) (hk : k ≠ .elseIfKey) : t.keyword? = some k := by
  obtain ⟨found, hfound, rfl⟩ := Option.map_eq_some_iff.mp h.1
  rw [hfound]
  cases found <;> first | rfl | exact absurd rfl hk

theorem gap_only {g : Token} (h : gap.Exact g) : ∀ x ∈ [g], x.kind = .spaces := by
  intro x hx
  rw [mem_singleton.mp hx]
  exact h.1

/-- The first of the tokens begins a line that its reader takes as the statement. -/
abbrev TakesBack (reader : LineReader) (level : Nat) (siblings : List Node) (c : Cursor) (s : Statement)
    (ts rest : List Token) : Prop :=
  ∃ t more, ts = t :: more ∧ Gives (line reader t level siblings) c (Taken s rest c)

/-! ### Commands and declarations -/

theorem checkBranch_eq (h : branchMayFollow siblings = true) : checkBranch t siblings c = .ok () c := by
  rw [checkBranch, if_pos h]
  rfl

theorem declaration_gives (h : Writes ([.symbol .openParen] ++ items loose names ++ [.symbol .closeParen]) ts)
    (hraw : word.raw = type) (hnames : names ≠ []) (hc : c.rest = word :: (ts ++ tail))
    (htail : LineEnd tail rest) (hunit : c.unit = c0.unit) (htypes : c.typeNames = c0.typeNames) :
    Gives (declaration word isMutable) c (Taken (.declaration type names isMutable) rest c0) := by
  obtain ⟨front, last, hfront, hlast, rfl⟩ := h.append
  obtain ⟨head, items, hhead, hitems, rfl⟩ := hfront.append
  obtain ⟨opening, hopening, rfl⟩ := hhead.single
  obtain ⟨close, hclose, rfl⟩ := hlast.single
  subst hraw
  rw [append_assoc, append_assoc] at hc
  refine Ends.bind_ok (advance_eq hc) ?_
  refine Ends.bind_ok (expect_hit _ (nil_append _).symm (by simp) hopening.1 (by decide)) ?_
  refine Ends.bind_ok (sequence_to (readItems_written hitems hclose.1)) ?_
  have hfull : names.isEmpty = false := by simpa using hnames
  simp only [hfull, Bool.false_eq_true, if_false]
  exact complete_gives rfl htail hunit htypes (Statement.agrees_self _) rfl

theorem word_gives {word next : Token} {gaps more : List Token} {Q : Line → Cursor → Prop}
    {m : Reader Line} (hword : word.kind = .word) (hc : c.rest = word :: (gaps ++ next :: more))
    (hgaps : ∀ g ∈ gaps, g.kind = .spaces) (hnext : next.kind ≠ .spaces)
    (hm : (if next.kind == .openParen then
        if c.typeNames.contains word.raw then declaration word false else callLine word
      else if next.kind == .setEquals then assignmentLine word
      else failUnexpected (if next.endsLine then word else next) "'(' or '=' after a name") = m)
    (h : Gives m c Q) : Gives (line .statements word level siblings) c Q := by
  have hline : line .statements word level siblings = wordLine word := by
    simp only [line, statementLine, hword]
  have hfollows : (c.rest.tail.dropWhile fun t => t.kind == .spaces).head? = some next := by
    rw [hc, tail_cons, dropWhile_gaps hgaps (by simpa using hnext), head?_cons]
  rw [hline, wordLine]
  refine Ends.bind_get ?_
  simp only [hfollows, hm]
  exact h

/-! ### Captured runs -/

theorem not_blank_of_captured (h : Captured stop run) : runIsBlank run = false := by
  obtain ⟨⟨t, rest, rfl, hink⟩, -⟩ := h
  simp [runIsBlank, hink]

theorem head?_of_captured (h : Captured stop run) : ∀ t ∈ (run ++ tail).head?, t.kind ≠ .spaces := by
  obtain ⟨⟨t, rest, rfl, hink⟩, -⟩ := h
  simpa using hink

theorem conditionLine_gives {key : Token} (h : Mark.Writes ([.gap] ++ Mark.run condition ++ [.symbol .colon]) ts)
    (hproper : Captured (fun t => t.kind == .colon) condition)
    (hagrees : ∀ run, runsAgree run condition = true → (statement run).agrees (statement condition) = true)
    (hopens : (statement condition).opensBlock = true) (htypes : (statement condition).definedTypes = [])
    (hsuits : ∀ run, BodyKind.statements.Suits (statement run)) (hc : c.rest = key :: (ts ++ tail))
    (htail : LineEnd tail rest) (hunit : c.unit = c0.unit) (hnames : c.typeNames = c0.typeNames) :
    Gives (conditionLine key statement) c (Taken (statement condition) rest c0) := by
  obtain ⟨front, last, hfront, hlast, rfl⟩ := h.append
  obtain ⟨gap, run, hgap, hrun, rfl⟩ := hfront.cons
  obtain ⟨colon, hcolon, rfl⟩ := hlast.single
  have hkind : colon.kind = .colon := hcolon.1
  have hagree := hrun.alike
  have hcaptured : Captured (fun t => t.kind == .colon) run :=
    hproper.of_alike hagree fun u t hsame => by rw [hsame.kind]
  rw [append_assoc] at hc
  have hcondition : Gives Reader.condition { c with rest := gap :: (run ++ colon :: tail) } fun taken c' =>
      taken = run ∧ c' = { c with rest := colon :: tail } := by
    refine Ends.bind_ok (skipSpaces_to (show _ = [gap] ++ (run ++ colon :: tail) from rfl)
      (gap_only hgap) (head?_of_captured hcaptured)) ?_
    refine Ends.bind_ok (takeUntil_hit _ rfl hcaptured.2 (by simp [hkind]) (by simp [endsLine, hkind])) ?_
    simp only [not_blank_of_captured hcaptured, Bool.false_eq_true, if_false]
    exact Ends.pure ⟨rfl, rfl⟩
  refine Ends.bind_ok (advance_eq hc) (Ends.bind hcondition ?_)
  rintro _ _ ⟨rfl, rfl⟩
  refine openBlock_gives rfl hkind htail hunit (by simpa [htypes] using hnames) ?_ hopens (hsuits _)
  exact hagrees _ (runsAgree_of_alike hagree)

theorem endsLine_of_keyword (h : t.keyword? = some k) : t.endsLine = false := by
  simp [endsLine, kind_of_keyword? h]

/-! ### Methods -/

theorem methodParameters_gives (h : Writes (if loose && ps.isEmpty then []
      else .symbol .openParen :: parameters ps ++ [.symbol .closeParen]) ts)
    (hproper : ∀ p ∈ ps, p.Proper) (hgaps : ∀ g ∈ run, g.kind = .spaces)
    (hnext : t.kind ≠ .spaces ∧ t.kind ≠ .openParen) (hc : c.rest = ts ++ (run ++ t :: tail)) :
    Gives methodParameters c fun found c' => found = ps ∧
      ∃ gaps, c' = { c with rest := gaps ++ t :: tail } ∧ ∀ g ∈ gaps, g.kind = .spaces := by
  split at h
  case isTrue hempty =>
      obtain rfl := h.nil
      have hps : ps = [] := by simpa using (Bool.and_eq_true_iff.mp hempty).2
      refine Ends.bind_ok (accept?_miss (show c.rest = run ++ t :: tail from hc) hgaps
        (by simpa using hnext)) (Ends.pure ⟨hps.symm, [], rfl, by simp⟩)
  case isFalse =>
      obtain ⟨front, last, hfront, hlast, rfl⟩ := h.append
      obtain ⟨opening, items, hopening, hitems, rfl⟩ := hfront.cons
      obtain ⟨close, hclose, rfl⟩ := hlast.single
      rw [append_assoc] at hc
      refine Ends.bind_ok (accept?_hit (show _ = [] ++ opening :: _ from hc) (by simp) hopening.1 (by decide)) ?_
      refine Ends.of_ok (sequence_to (readParameters_written opening (run ++ t :: tail) hitems hproper
        hclose.1)) ⟨rfl, run, rfl, hgaps⟩

theorem methodLine_gives {key gap word : Token} {returnType : Option String}
    (hgap : Mark.gap.Exact gap) (hword : word.kind = .word)
    (h : Writes (if loose && ps.isEmpty then []
      else .symbol .openParen :: parameters ps ++ [.symbol .closeParen]) ts)
    (hproper : ∀ p ∈ ps, p.Proper) (hgaps : ∀ g ∈ run, g.kind = .spaces)
    (hnext : t.kind ≠ .spaces ∧ t.kind ≠ .openParen)
    (hc : c.rest = key :: gap :: word :: (ts ++ (run ++ t :: tail)))
    (hresult : ∀ gaps, (∀ g ∈ gaps, g.kind = .spaces) →
      Gives methodResult { c with rest := gaps ++ t :: tail } fun found c' =>
        found = returnType ∧ ∃ colon tail', c' = { c with rest := colon :: tail' } ∧
          colon.kind = .colon ∧ LineEnd tail' rest) (hunit : c.unit = c0.unit)
    (htypes : c.typeNames = c0.typeNames) :
    Gives (methodLine key 0) c (Taken (.method word.raw ps returnType) rest c0) := by
  refine Ends.bind_ok (advance_eq hc) ?_
  refine Ends.bind_ok (expect_hit _ (show _ = [gap] ++ word :: _ from rfl) (gap_only hgap) hword (by decide)) ?_
  refine Ends.bind (methodParameters_gives h hproper hgaps hnext rfl) ?_
  rintro _ _ ⟨rfl, gaps, rfl, hleft⟩
  refine Ends.bind (hresult gaps hleft) ?_
  rintro _ _ ⟨rfl, colon, tail', rfl, hcolon, htail⟩
  exact openBlock_gives rfl hcolon htail hunit (by simpa [definedTypes] using htypes)
    (Statement.agrees_self _) rfl rfl

/-! ### Every line -/

section

variable (hc : c.rest = ts ++ tail) (htail : LineEnd tail rest)
include hc htail

theorem structType_gives (h : Writes ((structType name).marks loose) ts) :
    TakesBack .statements level siblings c (.structType name) ts rest := by
  obtain ⟨key, _, hkey, h1, rfl⟩ := h.cons
  obtain ⟨gap, _, hgap, h2, rfl⟩ := h1.cons
  obtain ⟨word, _, ⟨⟨hword, rfl⟩, -⟩, h3, rfl⟩ := h2.cons
  obtain ⟨colon, hcolon, rfl⟩ := h3.single
  refine ⟨key, _, rfl, keyword_gives (exact_keyword hkey (by decide)) fun journal => ?_⟩
  refine Ends.bind_ok (advance_eq hc) ?_
  refine Ends.bind_ok (expect_hit _ rfl (gap_only hgap) hword (by decide)) (Ends.bind_modify ?_)
  exact openBlock_gives rfl hcolon.1 htail rfl rfl (Statement.agrees_self _) rfl ⟨_, rfl⟩

theorem choose_gives (h : Writes ((choose mode).marks loose) ts) :
    TakesBack .statements level siblings c (.choose mode) ts rest := by
  obtain ⟨key, _, hkey, h1, rfl⟩ := h.cons
  obtain ⟨gap, _, hgap, h2, rfl⟩ := h1.cons
  obtain ⟨word, _, ⟨⟨hword, rfl⟩, -⟩, h3, rfl⟩ := h2.cons
  obtain ⟨colon, hcolon, rfl⟩ := h3.single
  refine ⟨key, _, rfl, keyword_gives (exact_keyword hkey (by decide)) fun journal => ?_⟩
  refine Ends.bind_ok (advance_eq hc) ?_
  refine Ends.bind_ok (expect_hit _ rfl (gap_only hgap) hword (by decide)) ?_
  exact openBlock_gives rfl hcolon.1 htail rfl (by simp [definedTypes]) (Statement.agrees_self _) rfl rfl

theorem otherwise_gives (h : Writes (otherwise.marks loose) ts) (hbranch : branchMayFollow siblings = true) :
    TakesBack .statements level siblings c .otherwise ts rest := by
  obtain ⟨key, _, hkey, h1, rfl⟩ := h.cons
  obtain ⟨colon, hcolon, rfl⟩ := h1.single
  refine ⟨key, _, rfl, keyword_gives (exact_keyword hkey (by decide)) fun journal => ?_⟩
  refine Ends.bind_ok (checkBranch_eq hbranch) (Ends.bind_ok (advance_eq hc) ?_)
  exact openBlock_gives rfl hcolon.1 htail rfl (by simp [definedTypes]) (Statement.agrees_self _) rfl rfl

theorem option_gives (h : Writes ((option name).marks loose) ts) :
    TakesBack .options level siblings c (.option name) ts rest := by
  obtain ⟨word, _, ⟨⟨hword, rfl⟩, -⟩, h1, rfl⟩ := h.cons
  obtain ⟨colon, hcolon, rfl⟩ := h1.single
  refine ⟨word, _, rfl, ?_⟩
  simp only [line, optionLine, hword]
  refine Ends.bind_ok (advance_eq hc) ?_
  exact openBlock_gives rfl hcolon.1 htail rfl (by simp [definedTypes]) (Statement.agrees_self _) rfl rfl

theorem comment_gives (hreader : reader ≠ .idle) {text : String}
    (h : Writes ((comment text).marks loose) ts) : TakesBack reader level siblings c (.comment text) ts rest:= by
  obtain ⟨remark, ⟨⟨hkind, rfl⟩, -⟩, rfl⟩ := h.single
  refine ⟨remark, _, rfl, ?_⟩
  have hline : line reader remark level siblings = commentLine remark := by
    cases reader with
    | statements => simp only [line, statementLine, hkind]
    | options => simp only [line, optionLine, hkind]
    | idle => exact absurd rfl hreader
  rw [hline]
  refine Ends.bind_ok (advance_eq hc) (Ends.bind_ok (finishLine_to rfl htail) (Ends.pure ?_))
  exact ⟨⟨rfl, _, _, rfl, Statement.agrees_self _⟩, rfl, rfl, by simp [Statement.definedTypes]⟩

theorem pass_gives (h : Writes (pass.marks loose) ts) : TakesBack .statements level siblings c .pass ts rest:= by
  obtain ⟨key, hkey, rfl⟩ := h.single
  refine ⟨key, _, rfl, keyword_gives (exact_keyword hkey (by decide)) fun journal => ?_⟩
  refine Ends.bind_ok (advance_eq hc) ?_
  exact complete_gives rfl htail rfl rfl (Statement.agrees_self _) rfl

theorem selection_gives {mode choice : String} {statement : String → String → Statement} (hk : k ≠ .elseIfKey)
    (hstatement : ∀ key : Token, keywordStatement key level siblings (some k) = modeLine key statement)
    (hopens : (statement mode choice).opensBlock = false)
    (h : Writes [.keyword k, .gap, .word mode, .gap, .symbol .setEquals, .gap, .word choice] ts) :
    TakesBack .statements level siblings c (statement mode choice) ts rest := by
  obtain ⟨key, _, hkey, h1, rfl⟩ := h.cons
  obtain ⟨gap1, _, hgap1, h2, rfl⟩ := h1.cons
  obtain ⟨modeToken, _, ⟨⟨hmode, rfl⟩, -⟩, h3, rfl⟩ := h2.cons
  obtain ⟨gap2, _, hgap2, h4, rfl⟩ := h3.cons
  obtain ⟨equals, _, hequals, h5, rfl⟩ := h4.cons
  obtain ⟨gap3, _, hgap3, h6, rfl⟩ := h5.cons
  obtain ⟨choiceToken, ⟨⟨hchoice, rfl⟩, -⟩, rfl⟩ := h6.single
  refine ⟨key, _, rfl, keyword_gives (exact_keyword hkey hk) fun journal => ?_⟩
  rw [hstatement]
  refine Ends.bind_ok (advance_eq hc) ?_
  have hchoose : Gives (modeChoice key) { c with journal := journal, rest := gap1 :: modeToken :: gap2 ::
      equals :: gap3 :: choiceToken :: tail } fun selected c' =>
      selected = (modeToken.raw, choiceToken.raw) ∧ c' = { c with journal := journal, rest := tail } := by
    refine Ends.bind_ok (accept?_hit rfl (gap_only hgap1) hmode (by decide)) ?_
    refine Ends.bind_ok (accept?_hit rfl (gap_only hgap2) hequals.1 (by decide)) ?_
    refine Ends.bind_ok (accept?_hit rfl (gap_only hgap3) hchoice (by decide)) ?_
    refine Ends.bind_ok (skipSpaces_to (nil_append _).symm (by simp) htail.ink) ?_
    exact Ends.bind_ok (atLineEnd_over htail.endsLine) (Ends.pure ⟨rfl, rfl⟩)
  refine Ends.bind hchoose ?_
  rintro _ _ ⟨rfl, rfl⟩
  exact complete_gives rfl htail rfl rfl (Statement.agrees_self _) hopens

theorem setMode_gives {options : List String} (h : Writes ((setMode mode options).marks loose) ts)
    (hoptions : options ≠ []) : TakesBack .statements level siblings c (.setMode mode options) ts rest:= by
  obtain ⟨front, last, hfront, hlast, rfl⟩ := h.append
  obtain ⟨head, items, hhead, hitems, rfl⟩ := hfront.append
  obtain ⟨key, _, hkey, h1, rfl⟩ := hhead.cons
  obtain ⟨gap, _, hgap, h2, rfl⟩ := h1.cons
  obtain ⟨word, _, ⟨⟨hword, rfl⟩, -⟩, h3, rfl⟩ := h2.cons
  obtain ⟨opening, hopening, rfl⟩ := h3.single
  obtain ⟨close, hclose, rfl⟩ := hlast.single
  rw [append_assoc, append_assoc] at hc
  refine ⟨key, _, rfl, keyword_gives (exact_keyword hkey (by decide)) fun journal => ?_⟩
  refine Ends.bind_ok (advance_eq hc) ?_
  refine Ends.bind_ok (accept?_hit rfl (gap_only hgap) hword (by decide)) ?_
  refine Ends.bind_ok (accept?_hit (nil_append _).symm (by simp) hopening.1 (by decide)) ?_
  refine Ends.bind_ok (sequence_to (readItems_written hitems hclose.1)) ?_
  have hfull : options.isEmpty = false := by simpa using hoptions
  simp only [hfull, Bool.false_eq_true, if_false]
  refine Ends.bind_ok (skipSpaces_to (nil_append _).symm (by simp) htail.ink) ?_
  refine Ends.bind_ok (atLineEnd_over htail.endsLine) ?_
  exact complete_gives rfl htail rfl rfl (Statement.agrees_self _) rfl

theorem declaration_line_gives
    (h : Mark.Writes ((Statement.declaration type names isMutable).marks loose) ts) (hnames : names ≠ [])
    (htype : type ∈ c.typeNames) :
    TakesBack .statements level siblings c (.declaration type names isMutable) ts rest := by
  cases isMutable with
  | false =>
    obtain ⟨word, _, ⟨⟨hword, rfl⟩, -⟩, h1, rfl⟩ := h.cons
    obtain ⟨opening, more, hopening, h2, rfl⟩ := h1.cons
    have hkind : opening.kind = .openParen := hopening.1
    refine ⟨word, _, rfl, word_gives hword (show _ = word :: ([] ++ opening :: _) from hc)
      (by simp) (by simp [hkind]) ?_ (declaration_gives h1 rfl hnames hc htail rfl rfl)⟩
    simp [hkind, htype]
  | true =>
    obtain ⟨key, _, hkey, h1, rfl⟩ := h.cons
    obtain ⟨gap, _, hgap, h2, rfl⟩ := h1.cons
    obtain ⟨word, more, ⟨⟨hword, rfl⟩, -⟩, h3, rfl⟩ := h2.cons
    refine ⟨key, _, rfl, keyword_gives (exact_keyword hkey (by decide)) fun journal => ?_⟩
    refine Ends.bind_ok (advance_eq hc) ?_
    refine Ends.bind_ok (skipSpaces_to (show _ = [gap] ++ word :: (more ++ tail) from rfl)
      (gap_only hgap) (by simp [hword])) ?_
    refine Ends.bind_get ?_
    have hok : (word.kind == TokenKind.word && c.typeNames.contains word.raw) = true := by
      simp [hword, htype]
    simp only [hok, if_true]
    exact declaration_gives h3 rfl hnames rfl htail rfl rfl

theorem assignment_gives (h : Writes ((assignment name expression).marks loose) ts)
    (hproper : (assignment name expression).Proper) :
    TakesBack .statements level siblings c (.assignment name expression) ts rest := by
  obtain ⟨word, _, ⟨⟨hword, rfl⟩, -⟩, h1, rfl⟩ := h.cons
  obtain ⟨gap1, _, hgap1, h2, rfl⟩ := h1.cons
  obtain ⟨equals, _, hequals, h3, rfl⟩ := h2.cons
  obtain ⟨gap2, run, hgap2, hrun, rfl⟩ := h3.cons
  have hkind : equals.kind = .setEquals := hequals.1
  have hagree := hrun.alike
  have hcaptured : Captured (fun _ => false) run := hproper.of_alike hagree fun _ _ _ => rfl
  have hassign : Gives (assignmentLine word) c (Taken (.assignment word.raw expression) rest c) := by
    refine Ends.bind_ok (advance_eq hc) ?_
    refine Ends.bind_ok (expect_hit _ rfl (gap_only hgap1) hkind (by decide)) ?_
    refine Ends.bind_ok (skipSpaces_to (show _ = [gap2] ++ (run ++ tail) from rfl) (gap_only hgap2)
      (head?_of_captured hcaptured)) ?_
    refine Ends.bind_ok (takeLine_to rfl (fun t ht => (hcaptured.2 t ht).1) htail) ?_
    simp only [not_blank_of_captured hcaptured, Bool.false_eq_true, if_false]
    refine complete_gives rfl htail rfl rfl ?_ rfl
    simp [Statement.agrees, runsAgree_of_alike hagree]
  refine ⟨word, _, rfl, word_gives hword (show _ = word :: ([gap1] ++ equals :: _) from hc)
    (gap_only hgap1) (by simp [hkind]) ?_ hassign⟩
  simp [hkind]

theorem call_gives (h : Writes ((call name arguments).marks loose) ts)
    (hproper : (call name arguments).Proper) (hname : name ∉ c.typeNames) :
    TakesBack .statements level siblings c (.call name arguments) ts rest := by
  obtain ⟨front, last, hfront, hlast, rfl⟩ := h.append
  obtain ⟨word, _, ⟨⟨hword, rfl⟩, -⟩, h1, rfl⟩ := hfront.cons
  obtain ⟨opening, run, hopening, hrun, rfl⟩ := h1.cons
  obtain ⟨close, hclose, rfl⟩ := hlast.single
  have hkind : opening.kind = .openParen := hopening.1
  have hagree := hrun.alike
  have hline : ∀ t ∈ run, t.kind ≠ .lineBreak :=
    Token.Alike.forall_mem hagree (fun u t hsame hu => hsame.kind ▸ hu) hproper.2
  have hcall : Gives (callLine word) c (Taken (.call word.raw arguments) rest c) := by
    rw [append_assoc] at hc
    refine Ends.bind_ok (advance_eq hc) ?_
    refine Ends.bind_ok (expect_hit _ (nil_append _).symm (by simp) hkind (by decide)) ?_
    refine Ends.bind_ok (sequence_to (readArguments_written (hproper.1.of_alike hagree) hline hclose.1)) ?_
    refine complete_gives rfl htail rfl rfl ?_ rfl
    simp [Statement.agrees, runsAgree_of_alike hagree]
  refine ⟨word, _, rfl, word_gives hword (show _ = word :: ([] ++ opening :: _) from hc)
    (by simp) (by simp [hkind]) ?_ hcall⟩
  simp [hkind, hname]

theorem returns_gives (h : Writes ((returns expression).marks loose) ts) (hproper : (returns expression).Proper) :
    TakesBack .statements level siblings c (.returns expression) ts rest := by
  obtain ⟨key, value, hkey, hvalue, rfl⟩ := h.cons
  refine ⟨key, _, rfl, keyword_gives (exact_keyword hkey (by decide)) fun journal => ?_⟩
  refine Ends.bind_ok (advance_eq hc) ?_
  rcases hproper with rfl | hproper
  · obtain rfl := hvalue.nil
    refine Ends.bind_ok (skipSpaces_to (nil_append _).symm (by simp) htail.ink) ?_
    refine Ends.bind_ok (takeLine_to (nil_append _).symm (by simp) htail) ?_
    exact complete_gives rfl htail rfl rfl (Statement.agrees_self _) rfl
  · obtain ⟨⟨u, more, rfl, -⟩, -⟩ := id hproper
    obtain ⟨gap, run, hgap, hrun, rfl⟩ := hvalue.cons
    have hagree := hrun.alike
    have hcaptured : Captured (fun _ => false) run := hproper.of_alike hagree fun _ _ _ => rfl
    refine Ends.bind_ok (skipSpaces_to (show _ = [gap] ++ (run ++ tail) from rfl) (gap_only hgap)
      (head?_of_captured hcaptured)) ?_
    refine Ends.bind_ok (takeLine_to rfl (fun t ht => (hcaptured.2 t ht).1) htail) ?_
    refine complete_gives rfl htail rfl rfl ?_ rfl
    simpa [Statement.agrees] using runsAgree_of_alike hagree

theorem condition_gives (hk : k ≠ .elseIfKey)
    (hstatement : ∀ key : Token, keywordStatement key level siblings (some k) = conditionLine key statement)
    (h : Mark.Writes ([.keyword k, .gap] ++ Mark.run condition ++ [.symbol .colon]) ts)
    (hproper : Captured (fun t => t.kind == .colon) condition)
    (hagrees : ∀ run, runsAgree run condition = true → (statement run).agrees (statement condition) = true)
    (hopens : (statement condition).opensBlock = true) (htypes : (statement condition).definedTypes = [])
    (hsuits : ∀ run, BodyKind.statements.Suits (statement run)) :
    TakesBack .statements level siblings c (statement condition) ts rest := by
  obtain ⟨key, more, hkey, hmore, rfl⟩ := h.cons
  refine ⟨key, more, rfl, keyword_gives (exact_keyword hkey hk) fun journal => ?_⟩
  rw [hstatement]
  exact conditionLine_gives hmore hproper hagrees hopens htypes hsuits hc htail rfl rfl

theorem elseIf_gives (h : Mark.Writes ((Statement.elseIf condition).marks loose) ts)
    (hproper : (elseIf condition).Proper) (hbranch : branchMayFollow siblings = true) :
    TakesBack .statements level siblings c (.elseIf condition) ts rest := by
  obtain ⟨key, more, hkey, hmore, rfl⟩ := h.cons
  obtain ⟨k, hk, hplain⟩ := Option.map_eq_some_iff.mp hkey.1
  refine ⟨key, more, rfl, keyword_gives hk fun journal => ?_⟩
  have hstatement : keywordStatement key level siblings (some k) =
      (do checkBranch key siblings; conditionLine key .elseIf) := by
    cases k <;> first | rfl | cases hplain
  rw [hstatement]
  refine Ends.bind_ok (checkBranch_eq hbranch) ?_
  exact conditionLine_gives hmore hproper (fun _ => id) rfl rfl (fun _ => rfl) hc htail rfl rfl

theorem repeatLoop_gives {count : List Token} (h : Writes ((repeatLoop count).marks loose) ts)
    (hproper : (repeatLoop count).Proper) : TakesBack .statements level siblings c (.repeatLoop count) ts rest:= by
  obtain ⟨front, last, hfront, hlast, rfl⟩ := h.append
  obtain ⟨key, _, hkey, h1, rfl⟩ := hfront.cons
  obtain ⟨gap, run, hgap, hrun, rfl⟩ := h1.cons
  obtain ⟨times, _, htimes, h2, rfl⟩ := hlast.cons
  obtain ⟨colon, hcolon, rfl⟩ := h2.single
  have htimes : times.keyword? = some .timesKey := exact_keyword htimes (by decide)
  have hagree := hrun.alike
  have hcaptured : Captured (fun t => t.keyword? == some .timesKey) run :=
    hproper.of_alike hagree fun u t hsame => by rw [hsame.keyword?]
  rw [append_assoc] at hc
  refine ⟨key, _, rfl, keyword_gives (exact_keyword hkey (by decide)) fun journal => ?_⟩
  refine Ends.bind_ok (advance_eq hc) ?_
  refine Ends.bind_ok (skipSpaces_to (show _ = [gap] ++ (run ++ times :: colon :: tail) from rfl)
    (gap_only hgap) (head?_of_captured hcaptured)) ?_
  refine Ends.bind_ok (takeUntil_hit _ rfl hcaptured.2 (by simp [htimes]) (endsLine_of_keyword htimes)) ?_
  simp only [not_blank_of_captured hcaptured, Bool.false_eq_true, if_false]
  refine Ends.bind_ok (next_eq rfl) ?_
  obtain ⟨_, hcheck⟩ := checkCase_ok times { c with journal := journal, rest := colon :: tail }
  refine Ends.bind_ok hcheck ?_
  refine openBlock_gives rfl hcolon.1 htail rfl (by simp [definedTypes]) ?_ rfl rfl
  simpa [Statement.agrees] using runsAgree_of_alike hagree

theorem forLoop_gives {start stop : List Token} (h : Writes ((forLoop start stop).marks loose) ts)
    (hproper : (forLoop start stop).Proper) :
    TakesBack .statements level siblings c (.forLoop start stop) ts rest := by
  obtain ⟨⟨first, more, rfl, hfirst⟩, hstarts, hstart, hstop⟩ := hproper
  obtain ⟨_, last, ha, hlast, rfl⟩ := h.append
  obtain ⟨_, bound, hb, hbound, rfl⟩ := ha.append
  obtain ⟨_, middle, hd, hmiddle, rfl⟩ := hb.append
  obtain ⟨key, _, hkey, h1, rfl⟩ := hd.cons
  obtain ⟨gap1, _, hgap1, hrun, rfl⟩ := h1.cons
  obtain ⟨limit, _, hlimit, h2, rfl⟩ := hmiddle.cons
  obtain ⟨gap2, hgap2, rfl⟩ := h2.single
  obtain ⟨colon, hcolon, rfl⟩ := hlast.single
  have hlimit : limit.keyword? = some .toKey := exact_keyword hlimit (by decide)
  have hcolon : colon.kind = .colon := hcolon.1
  have hrun := hrun.alike
  have hbound := hbound.alike
  have hstarts := (SameInk.of_forall₂ hrun).startsLoop.symm.trans hstarts
  have hstart : Captured (fun t => t.keyword? == some .toKey) _ :=
    hstart.of_alike hrun fun u t hsame => by rw [hsame.keyword?]
  have hstop : Captured (fun t => t.kind == .colon) bound :=
    hstop.of_alike hbound fun u t hsame => by rw [hsame.kind]
  obtain ⟨iterator, run, hiterator, -, rfl⟩ := forall₂_cons_left_iff.mp hrun
  simp only [append_assoc, cons_append, nil_append] at hc
  refine ⟨key, _, rfl, keyword_gives (exact_keyword hkey (by decide)) fun journal => ?_⟩
  refine Ends.bind_ok (advance_eq hc) ?_
  refine Ends.bind_ok (expect_hit _ (show _ = [gap1] ++ iterator :: _ from rfl) (gap_only hgap1)
    (hiterator.kind.symm.trans hfirst) (by decide)) ?_
  refine Ends.bind_ok (takeUntil_hit _ (show _ = run ++ limit :: gap2 :: (bound ++ colon :: tail) from rfl)
    (fun u hu => hstart.2 u (.tail _ hu)) (by simp [hlimit]) (endsLine_of_keyword hlimit)) ?_
  simp only [hstarts, Bool.not_true, Bool.false_eq_true, if_false]
  refine Ends.bind_ok (next_eq rfl) ?_
  obtain ⟨_, hcheck⟩ := checkCase_ok limit
    { c with journal := journal, rest := gap2 :: (bound ++ colon :: tail) }
  refine Ends.bind_ok hcheck ?_
  refine Ends.bind_ok (skipSpaces_to (show _ = [gap2] ++ (bound ++ colon :: tail) from rfl)
    (gap_only hgap2) (head?_of_captured hstop)) ?_
  refine Ends.bind_ok (takeUntil_hit _ rfl hstop.2 (by simp [hcolon]) (by simp [endsLine, hcolon])) ?_
  simp only [not_blank_of_captured hstop, Bool.false_eq_true, if_false]
  refine openBlock_gives rfl hcolon htail rfl (by simp [definedTypes]) ?_ rfl rfl
  simp [Statement.agrees, runsAgree_of_alike hrun, runsAgree_of_alike hbound]

theorem method_gives {returnType : Option String} (h : Writes ((method name ps returnType).marks loose) ts)
    (hproper : (method name ps returnType).Proper) :
    TakesBack .statements 0 siblings c (.method name ps returnType) ts rest := by
  obtain ⟨_, last, ha, hlast, rfl⟩ := h.append
  obtain ⟨_, result, hb, hresult, rfl⟩ := ha.append
  obtain ⟨_, parameters, hd, hparameters, rfl⟩ := hb.append
  obtain ⟨key, _, hkey, h1, rfl⟩ := hd.cons
  obtain ⟨gap, _, hgap, h2, rfl⟩ := h1.cons
  obtain ⟨word, ⟨⟨hword, rfl⟩, -⟩, rfl⟩ := h2.single
  obtain ⟨colon, hcolon, rfl⟩ := hlast.single
  have hcolon : colon.kind = .colon := hcolon.1
  refine ⟨key, _, rfl, keyword_gives (exact_keyword hkey (by decide)) fun journal => ?_⟩
  simp only [append_assoc, cons_append, nil_append] at hc
  -- The token after the parameters is the colon, or the arrow of the result type.
  cases returnType with
  | none =>
    obtain rfl := hresult.nil
    refine methodLine_gives hgap hword hparameters hproper (forall_mem_nil _) (by simp [hcolon]) hc ?_ rfl rfl
    intro gaps hgaps
    refine Ends.bind_ok (accept?_miss rfl hgaps (by simp [hcolon])) (Ends.pure ?_)
    exact ⟨rfl, colon, tail, rfl, hcolon, htail⟩
  | some type =>
    obtain ⟨gap1, _, hgap1, h5, rfl⟩ := hresult.cons
    obtain ⟨arrow, _, harrow, h6, rfl⟩ := h5.cons
    obtain ⟨gap2, _, hgap2, h7, rfl⟩ := h6.cons
    obtain ⟨typeToken, ⟨⟨htype, rfl⟩, -⟩, rfl⟩ := h7.single
    have harrow : arrow.kind = .returnArrow := harrow.1
    refine methodLine_gives hgap hword hparameters hproper (gap_only hgap1) (by simp [harrow]) hc ?_ rfl rfl
    intro gaps hgaps
    refine Ends.bind_ok (accept?_hit rfl hgaps harrow (by decide)) ?_
    refine Ends.bind_ok (expect_hit _ (show _ = [gap2] ++ typeToken :: _ from rfl) (gap_only hgap2)
      htype (by decide)) (Ends.pure ?_)
    exact ⟨rfl, colon, tail, rfl, hcolon, htail⟩

theorem line_gives (hreader : reader ≠ .idle) {s : Statement} (h : Writes (s.marks loose) ts)
    (hproper : s.Proper) (hallowed : s.Allowed reader level siblings c.typeNames) :
    TakesBack reader level siblings c s ts rest := by
  cases s with
  | comment text => exact comment_gives hc htail hreader h
  | option name =>
    obtain rfl := hallowed
    exact option_gives hc htail h
  | method name ps returnType =>
    obtain ⟨rfl, rfl⟩ := hallowed
    exact method_gives hc htail h hproper
  | elseIf condition =>
    obtain ⟨rfl, hbranch⟩ := hallowed
    exact elseIf_gives hc htail h hproper hbranch
  | otherwise =>
    obtain ⟨rfl, hbranch⟩ := hallowed
    exact otherwise_gives hc htail h hbranch
  | declaration type names isMutable =>
    obtain ⟨rfl, htype⟩ := hallowed
    exact declaration_line_gives hc htail h hproper htype
  | call name arguments =>
    obtain ⟨rfl, hname⟩ := hallowed
    exact call_gives hc htail h hproper hname
  | assignment name expression =>
    obtain rfl := hallowed
    exact assignment_gives hc htail h hproper
  | pass =>
    obtain rfl := hallowed
    exact pass_gives hc htail h
  | returns expression =>
    obtain rfl := hallowed
    exact returns_gives hc htail h hproper
  | setMode mode options =>
    obtain rfl := hallowed
    exact setMode_gives hc htail h hproper
  | defaultMode mode choice | defineMode mode choice =>
    obtain rfl := hallowed
    exact selection_gives hc htail (by decide) (fun _ => rfl) rfl h
  | structType name =>
    obtain rfl := hallowed
    exact structType_gives hc htail h
  | ifThen condition | whileLoop condition =>
    obtain rfl := hallowed
    exact condition_gives hc htail (by decide) (fun _ => rfl) h hproper (fun _ => id) rfl rfl (fun _ => rfl)
  | forLoop start stop =>
    obtain rfl := hallowed
    exact forLoop_gives hc htail h hproper
  | repeatLoop count =>
    obtain rfl := hallowed
    exact repeatLoop_gives hc htail h hproper
  | choose mode =>
    obtain rfl := hallowed
    exact choose_gives hc htail h

end

end Reader

end CirOutline
