import CirOutline.Proofs.Alike
import CirOutline.Proofs.Layout.Outlined
import CirOutline.Proofs.Layout.Writing

/-!
Laying out a forest and reading it back. A well formed forest is written one node a line, from top
to bottom, each line indented by its depth in units; reading any such writing succeeds and gives
the forest back, up to the places of its tokens.

The proof is an induction over forests: the lines of a block are read up to the next shallower line
or the end, whatever follows there.
-/

namespace CirOutline

open List Node

variable {body : BodyKind} {done nodes ns ms : List Node} {later : List ListedNode} {m n : Node}
  {rest : List Token} {s s' : Statement} {t : Token} {reader : LineReader} {unit depth : Nat} {c : Cursor}

/-! ### Well formed forests -/

mutual
def Node.typesAfter (types : List String) : Node → List String
  | .mk s _ body => allTypesAfter (types ++ s.definedTypes) body

def Node.allTypesAfter (types : List String) : List Node → List String
  | [] => types
  | n :: ns => allTypesAfter (n.typesAfter types) ns
end

/-- What may stand below a statement: nothing unless it opens a block, and one member that is no
comment below a named type. -/
def Statement.Holds (s : Statement) (body : List Node) : Prop :=
  match s with
  | structType _ => ∃ only, body = [only] ∧ only.isComment = false
  | s => s.opensBlock = false → body = []

mutual
/-- A tree that lines can write, after `siblings` in its block. -/
def Node.WellFormed (reader : LineReader) (depth : Nat) (types : List String)
    (siblings : List Node) : Node → Prop
  | .mk s _ body => s.Proper ∧ s.Allowed reader depth siblings types ∧ s.Holds body ∧
      AllWellFormed s.bodyReader (depth + 1) (types ++ s.definedTypes) [] body

/-- A forest that lines can write, after `siblings` in its block. -/
def Node.AllWellFormed (reader : LineReader) (depth : Nat) (types : List String)
    (siblings : List Node) : List Node → Prop
  | [] => True
  | n :: ns => n.WellFormed reader depth types siblings ∧
      AllWellFormed reader depth (n.typesAfter types) (siblings ++ [n]) ns
end

/-! ### Written forests -/

/-- The white space in front of a line: none at the top, and one token of `unit` characters for each
level below. -/
def Margin (unit depth : Nat) (margin : List Token) : Prop :=
  if depth = 0 then margin = []
  else ∃ t, margin = [t] ∧ t.kind = .spaces ∧ t.raw.length = unit * depth

inductive Written (unit : Nat) : (entries : List ListedNode) → (tokens : List Token) → Prop
  | nil : Written unit [] []
  | line {e entries loose margin body tail rest} (hmargin : Margin unit e.depth margin)
      (hbody : Mark.Writes (e.statement.marks loose) body) (hend : LineEnd tail rest)
      (hrest : Written unit entries rest) : Written unit (e :: entries) (margin ++ (body ++ tail))

theorem Statement.marks_head {loose : Bool} {ts : List Token} (h : Mark.Writes (s.marks loose) ts) :
    ∃ t more, ts = t :: more ∧ t.kind ≠ .spaces ∧ t.kind ≠ .lineBreak := by
  have hkey : ∀ {k : Keyword} {t : Token}, (Mark.keyword k).Exact t →
      t.kind ≠ .spaces ∧ t.kind ≠ .lineBreak := by
    intro k t ht
    obtain ⟨found, hfound, -⟩ := Option.map_eq_some_iff.mp ht.1
    simp [kind_of_keyword? hfound]
  have hword : ∀ {text : String} {t : Token}, (Mark.word text).Exact t →
      t.kind ≠ .spaces ∧ t.kind ≠ .lineBreak := by
    intro text t ht
    simp [ht.1.1]
  cases s with
  | comment text =>
    obtain ⟨t, more, ht, -, rfl⟩ := forall₂_cons_left_iff.mp h
    exact ⟨t, more, rfl, by simp [ht.1.1]⟩
  | declaration type names isMutable =>
    cases isMutable with
    | false =>
      obtain ⟨t, more, ht, -, rfl⟩ := forall₂_cons_left_iff.mp h
      exact ⟨t, more, rfl, hword ht⟩
    | true =>
      obtain ⟨t, more, ht, -, rfl⟩ := forall₂_cons_left_iff.mp h
      exact ⟨t, more, rfl, hkey ht⟩
  | assignment | call | option =>
    obtain ⟨t, more, ht, -, rfl⟩ := forall₂_cons_left_iff.mp h
    exact ⟨t, more, rfl, hword ht⟩
  | pass | returns | setMode | defaultMode | defineMode | structType | method | ifThen | elseIf
  | otherwise | whileLoop | forLoop | repeatLoop | choose =>
    obtain ⟨t, more, ht, -, rfl⟩ := forall₂_cons_left_iff.mp h
    exact ⟨t, more, rfl, hkey ht⟩

/-! ### Agreement -/

theorem Node.kinds_of_agrees (h : n.agrees m = true) :
    n.isComment = m.isComment ∧ n.isConditional = m.isConditional := by
  obtain ⟨s', location', body'⟩ := n
  obtain ⟨s, location, body⟩ := m
  rw [Node.agrees, Bool.and_eq_true] at h
  have hkinds := kinds_of_alike (n := .mk s location body) (m := .mk s' location' body') (.of_agrees h.1)
  exact ⟨hkinds.1.symm, hkinds.2.symm⟩

section

variable (h : List.Forall₂ (fun n m : Node => n.agrees m = true) ns ms)
include h

theorem Node.allAgree_of_forall₂ : allAgree ns ms = true := by
  induction h with
  | nil => rfl
  | cons hfirst _ ih => rw [allAgree, hfirst, ih, Bool.and_self]

theorem Statement.Allowed.of_agrees {level : Nat} {types : List String}
    (hallowed : s.Allowed reader level ms types) : s.Allowed reader level ns types := by
  cases s with
  | elseIf | otherwise =>
    refine ⟨hallowed.1, ?_⟩
    rw [branchMayFollow_congr (h.imp fun _ _ => kinds_of_agrees)]
    exact hallowed.2
  | _ => exact hallowed

end

/-! ### Finding the next line -/

/-- The reader knows the unit of the writing, or has yet to meet an indented line. -/
def UnitKnown (unit depth : Nat) (found : Option Nat) : Prop :=
  found = some unit ∨ (found = none ∧ depth ≤ 1)

namespace Reader

theorem Gives.exists_ok {α : Type} {m : Reader α} {Q : α → Cursor → Prop}
    (h : Gives m c Q) : ∃ a c', m c = .ok a c' ∧ Q a c' := by
  cases hm : m c with
  | ok a c' => exact ⟨a, c', rfl, Ends.ok h hm⟩
  | error e c' => exact (Ends.error h hm).elim

variable {floor : Nat} {margin : List Token}

theorem indent?_written {found : Option Nat} (hunit : 0 < unit) (hmargin : Margin unit depth margin)
    (hknown : UnitKnown unit depth found) (hspaces : t.kind ≠ .spaces) (hbreak : t.kind ≠ .lineBreak)
    (rest : List Token) : ∃ u more after, margin ++ t :: rest = u :: more ∧
      dropBlankLines (u :: more) = u :: more ∧ Token.ink [u] ++ more = t :: rest ∧
      indent? found u = some (depth, after) ∧ UnitKnown unit (depth + 1) after ∧
      (after = some unit ∨ after = found) := by
  rw [Margin] at hmargin
  split_ifs at hmargin with hdepth
  · subst hmargin hdepth
    refine ⟨t, rest, found, rfl, dropBlankLines_of_line hbreak fun h => absurd h hspaces, ?_, ?_, ?_, .inr rfl⟩
    · rw [ink_cons hspaces]
      rfl
    · simp [indent?, hspaces]
    · exact hknown.imp_right fun h => ⟨h.1, Nat.le_refl 1⟩
  · obtain ⟨g, rfl, hg, hwidth⟩ := hmargin
    refine ⟨g, t :: rest, some unit, rfl, ?_, ?_, ?_, .inl rfl, .inl rfl⟩
    · exact dropBlankLines_of_line (by simp [hg]) fun _ => ⟨t, rest, rfl, hbreak⟩
    · rw [ink_cons_of_spaces hg]
      rfl
    · rcases hknown with rfl | ⟨rfl, hone⟩
      · simp [indent?, hg, hwidth, Nat.mul_div_cancel_left depth hunit]
      · obtain rfl : depth = 1 := by omega
        simp [indent?, hg, hwidth, hunit.ne']

theorem nextLine_written (hunit : 0 < unit) (hmargin : Margin unit depth margin)
    (hknown : UnitKnown unit depth c.unit) (hspaces : t.kind ≠ .spaces) (hbreak : t.kind ≠ .lineBreak)
    (hc : c.rest = margin ++ t :: rest) (hfloor : floor ≤ depth) :
    ∃ c', nextLine floor c = .ok (some (depth, t)) c' ∧ c'.rest = t :: rest ∧
      c'.typeNames = c.typeNames ∧ UnitKnown unit (depth + 1) c'.unit := by
  obtain ⟨u, more, after, hline, hdrop, hstart, hindent, hafter, -⟩ :=
    indent?_written hunit hmargin hknown hspaces hbreak rest
  exact ⟨_, nextLine_deep (by rw [hc, hline, hdrop]) hindent hfloor hstart, rfl, rfl, hafter⟩

theorem nextLine_shallow (hunit : 0 < unit) (hmargin : Margin unit depth margin)
    (hknown : UnitKnown unit floor c.unit) (hspaces : t.kind ≠ .spaces) (hbreak : t.kind ≠ .lineBreak)
    (hc : c.rest = margin ++ t :: rest) (hfloor : depth < floor) :
    ∃ c', nextLine floor c = .ok none c' ∧ c'.rest = c.rest ∧
      c'.typeNames = c.typeNames ∧ UnitKnown unit floor c'.unit := by
  have hbelow : UnitKnown unit depth c.unit := hknown.imp_right fun ⟨hnone, hone⟩ => ⟨hnone, by omega⟩
  obtain ⟨u, more, after, hline, hdrop, -, hindent, -, hafter⟩ :=
    indent?_written hunit hmargin hbelow hspaces hbreak rest
  refine ⟨_, nextLine_back (by rw [hc, hline, hdrop]) hindent hfloor, ?_, rfl, ?_⟩
  · rw [hc, hline]
  · rcases hafter with rfl | rfl
    · exact .inl rfl
    · exact hknown

end Reader

/-! ### Reading blocks -/

theorem BodyKind.close_of_agrees {forest : List Node} (source : Source) (hsuits : body.Suits s')
    (hagrees : s'.agrees s = true) (hholds : s.Holds forest)
    (h : List.Forall₂ (fun n m : Node => n.agrees m = true) nodes forest) :
    body.close source nodes = .ok nodes ∧ body.reader = s.bodyReader := by
  cases s <;> cases s' <;> first | cases hagrees | skip
  case structType.structType name name' =>
      obtain ⟨place, rfl⟩ := hsuits
      obtain ⟨only, rfl, honly⟩ := hholds
      obtain ⟨n, rest, hn, hrest, rfl⟩ := forall₂_cons_right_iff.mp h
      obtain rfl := forall₂_nil_right_iff.mp hrest
      refine ⟨?_, rfl⟩
      simp [BodyKind.close, kinds_of_agrees hn, honly]
  all_goals
    obtain rfl := hsuits
    exact ⟨rfl, rfl⟩

theorem UnitKnown.outer {found : Option Nat} (h : UnitKnown unit (depth + 1) found) : UnitKnown unit depth found :=
  h.imp_right fun ⟨hnone, hone⟩ => ⟨hnone, by omega⟩

theorem Statement.bodyReader_ne_idle (s : Statement) : s.bodyReader ≠ .idle := by
  cases s <;> simp [Statement.bodyReader]

theorem Node.head?_listing (h : ∀ e ∈ later.head?, e.depth < depth) :
    ∀ e ∈ (listing depth ns ++ later).head?, e.depth < depth + 1 := by
  cases ns with
  | nil =>
    intro e he
    exact (h e he).trans (Nat.lt_succ_self depth)
  | cons n ns =>
    obtain ⟨s, location, body⟩ := n
    intro e he
    obtain rfl : ⟨depth, s, location⟩ = e := by simpa [listing, Node.entries] using he
    exact Nat.lt_succ_self depth

/-- The block was read: its nodes agree with the forest, and the lines after it are left. -/
structure BlockGiven (unit depth : Nat) (types : List String) (ns : List Node)
    (later : List ListedNode) (nodes : List Node) (c' : Cursor) : Prop where
  agrees : List.Forall₂ (fun n m : Node => n.agrees m = true) nodes ns
  rest : Written unit later c'.rest
  types : c'.typeNames = allTypesAfter types ns
  unit : UnitKnown unit depth c'.unit

theorem readBlock_ends (hunit : 0 < unit) (hwritten : Written unit later c.rest)
    (hlater : ∀ e ∈ later.head?, e.depth < depth) (hknown : UnitKnown unit depth c.unit) :
    ∃ c', BlockRuns reader depth done c done c' ∧ BlockGiven unit depth c.typeNames [] later [] c' := by
  have hend : ∃ c', Reader.nextLine depth c = .ok none c' ∧ c'.rest = c.rest ∧
      c'.typeNames = c.typeNames ∧ UnitKnown unit depth c'.unit := by
    generalize hrest : c.rest = tokens at hwritten
    cases hwritten with
    | nil => exact ⟨_, Reader.nextLine_nil (by rw [hrest]; rfl), rfl, rfl, hknown⟩
    | @line e _ _ margin body tail _ hmargin hbody _ _ =>
      obtain ⟨t, more, rfl, hspaces, hbreak⟩ := Statement.marks_head hbody
      rw [← hrest]
      exact Reader.nextLine_shallow hunit hmargin hknown hspaces hbreak hrest (hlater e rfl)
  obtain ⟨c', hnext, hrest, htypes, hfound⟩ := hend
  refine ⟨_, .nil hnext, .nil, ?_, htypes, hfound⟩
  rw [← hrest] at hwritten
  exact hwritten

theorem line_written (hunit : 0 < unit) (hreader : reader ≠ .idle) {e : ListedNode}
    {entries : List ListedNode} {siblings : List Node} (hwritten : Written unit (e :: entries) c.rest)
    (hproper : e.statement.Proper) (hallowed : e.statement.Allowed reader e.depth siblings c.typeNames)
    (hdone : List.Forall₂ (fun n m : Node => n.agrees m = true) done siblings)
    (hknown : UnitKnown unit e.depth c.unit) :
    ∃ t c1 line c2, Reader.nextLine e.depth c = .ok (some (e.depth, t)) c1 ∧
      Reader.line reader t e.depth done c1 = .ok line c2 ∧ line.Agrees e.statement ∧
      Written unit entries c2.rest ∧ c2.typeNames = c.typeNames ++ e.statement.definedTypes ∧
      UnitKnown unit (e.depth + 1) c2.unit := by
  generalize hrest : c.rest = tokens at hwritten
  cases hwritten with
  | @line _ _ loose margin body tail rest hmargin hbody hend hentries =>
    obtain ⟨t, more, rfl, hspaces, hbreak⟩ := Statement.marks_head hbody
    obtain ⟨c1, hnext, hrest1, htypes1, hunit1⟩ :=
      Reader.nextLine_written hunit hmargin hknown hspaces hbreak hrest (Nat.le_refl _)
    have hallowed1 : e.statement.Allowed reader e.depth done c1.typeNames := by
      rw [htypes1]
      exact hallowed.of_agrees hdone
    obtain ⟨_, _, hsame, hgives⟩ := Reader.line_gives hrest1 hend hreader hbody hproper hallowed1
    obtain ⟨rfl, rfl⟩ := List.cons.inj hsame
    obtain ⟨line, c2, hline, htaken⟩ := hgives.exists_ok
    refine ⟨t, c1, line, c2, hnext, hline, htaken.line, ?_, ?_, ?_⟩
    · rw [htaken.rest]
      exact hentries
    · rw [htaken.types, htypes1]
    · rw [htaken.unit]
      exact hunit1

theorem readBlock_written (hunit : 0 < unit) (ns : List Node) :
    ∀ {reader : LineReader} {depth : Nat} {siblings done : List Node} {later : List ListedNode}
      {c : Cursor}, reader ≠ .idle → AllWellFormed reader depth c.typeNames siblings ns →
      List.Forall₂ (fun n m : Node => n.agrees m = true) done siblings →
      Written unit (listing depth ns ++ later) c.rest →
      (∀ e ∈ later.head?, e.depth < depth) → UnitKnown unit depth c.unit →
      ∃ nodes c', BlockRuns reader depth done c (done ++ nodes) c' ∧
        BlockGiven unit depth c.typeNames ns later nodes c' := by
  induction ns using forest_induction with
  | nil =>
    intro reader depth siblings done later c _ _ _ hwritten hlater hknown
    obtain ⟨c', hruns, hgiven⟩ := readBlock_ends hunit hwritten hlater hknown
    exact ⟨[], c', by rwa [append_nil], hgiven⟩
  | cons s location body ns ihbody ihns =>
    intro reader depth siblings done later c hreader hformed hdone hwritten hlater hknown
    obtain ⟨⟨hproper, hallowed, hholds, hbody⟩, hns⟩ := hformed
    rw [listing, Node.entries, cons_append, cons_append, append_assoc] at hwritten
    obtain ⟨t, c1, line, c2, hnext, hline, hagrees, hrest, htypes, hfound⟩ :=
      line_written hunit hreader hwritten hproper hallowed hdone hknown
    cases line with
    | complete nodes =>
      obtain ⟨hopens, s', place, rfl, hs'⟩ := hagrees
      obtain rfl : body = [] := by
        cases s <;> first | exact hholds hopens | cases hopens
      have hnode : (mk s' (some place) []).agrees (.mk s location []) = true := by
        rw [Node.agrees, hs']
        rfl
      have htypes' : c2.typeNames = (mk s location []).typesAfter c.typeNames := htypes
      rw [← htypes'] at hns
      obtain ⟨more, c', hruns, hgiven⟩ := ihns hreader hns
        (rel_append hdone (.cons hnode .nil)) hrest hlater hfound.outer
      refine ⟨.mk s' (some place) [] :: more, c', ?_, .cons hnode hgiven.agrees, hgiven.rest, ?_,
        hgiven.unit⟩
      · refine .leaf hnext hline ?_
        rwa [append_assoc] at hruns
      · rw [hgiven.types, htypes', allTypesAfter]
    | header s' place comments kind =>
      obtain ⟨-, rfl, hs', hsuits⟩ := hagrees
      have hbody' : AllWellFormed s.bodyReader (depth + 1) (c2.enter (depth + 1)).typeNames []
          body := by
        rw [show (c2.enter (depth + 1)).typeNames = _ from htypes]
        exact hbody
      obtain ⟨block, c3, hblock, hinner⟩ := ihbody s.bodyReader_ne_idle hbody' .nil hrest
        (head?_listing hlater) hfound
      obtain ⟨hclose, hkind⟩ := BodyKind.close_of_agrees c3.source hsuits hs' hholds hinner.agrees
      rw [← hkind, nil_append] at hblock
      have hnode : (mk s' (some place) block).agrees (.mk s location body) = true := by
        rw [Node.agrees, hs', allAgree_of_forall₂ hinner.agrees, Bool.and_self]
      have htypes' : c3.typeNames = (mk s location body).typesAfter c.typeNames := by
        rw [hinner.types, show (c2.enter (depth + 1)).typeNames = _ from htypes, typesAfter]
      rw [← htypes'] at hns
      obtain ⟨more, c', hruns, hgiven⟩ := ihns hreader hns
        (rel_append hdone (.cons hnode .nil)) hinner.rest hlater hinner.unit.outer
      refine ⟨.mk s' (some place) block :: more, c', ?_, .cons hnode hgiven.agrees, hgiven.rest, ?_,
        hgiven.unit⟩
      · refine .header hnext hline hblock hclose ?_
        rwa [append_assoc] at hruns
      · rw [hgiven.types, htypes', allTypesAfter]

/-! ### A layout -/

/-- The plain token of a mark; all tokens of a layout but the captured ones have one place. -/
def Mark.token : Mark → Token
  | gap => ⟨.spaces, " ", ⟨"", 1, 1⟩⟩
  | keyword k => ⟨.keyword, k.spelling, ⟨"", 1, 1⟩⟩
  | symbol kind => ⟨kind, kind.symbols.headD "", ⟨"", 1, 1⟩⟩
  | bracket text => ⟨.operator, text, ⟨"", 1, 1⟩⟩
  | word text => ⟨.word, text, ⟨"", 1, 1⟩⟩
  | item text => ⟨if text.front.isDigit then .number else .word, text, ⟨"", 1, 1⟩⟩
  | remark text => ⟨.comment, text, ⟨"", 1, 1⟩⟩
  | copy t => t

def marginTokens (unit depth : Nat) : List Token :=
  if depth = 0 then []
  else [⟨.spaces, String.ofList (List.replicate (unit * depth) ' '), ⟨"", 1, 1⟩⟩]

def layout (unit : Nat) (entries : List ListedNode) : List Token :=
  entries.flatMap fun e => marginTokens unit e.depth ++
    ((e.statement.marks false).map Mark.token ++ [⟨.lineBreak, "\n", ⟨"", 1, 1⟩⟩])

namespace Mark

/-- The mark has a plain token: a keyword in its plain spelling, a symbol with a text, or a square
bracket. -/
def Plain : Mark → Prop
  | keyword k => k.plain = k
  | symbol kind => kind.symbols ≠ []
  | bracket text => text = "[" ∨ text = "]"
  | _ => True

theorem keyword?_spelling (k : Keyword) (location : Location) :
    Token.keyword? ⟨.keyword, k.spelling, location⟩ = some k := by
  have hspelling : Keyword.ofSpelling? (Text.upper k.spelling) = some k := by
    cases k <;> decide +kernel
  exact hspelling

theorem Plain.exact {mark : Mark} (h : mark.Plain) : mark.Exact mark.token := by
  cases mark with
  | keyword k =>
    refine ⟨?_, trivial⟩
    rw [Fits, token, keyword?_spelling, Option.map_some]
    exact congrArg some h
  | symbol kind =>
    refine ⟨rfl, ?_⟩
    cases hsymbols : kind.symbols with
    | nil => exact absurd hsymbols h
    | cons text more => simp [token, hsymbols]
  | item text =>
    refine ⟨⟨?_, rfl⟩, trivial⟩
    rw [token]
    split
    · exact .inr rfl
    · exact .inl rfl
  | bracket text => exact ⟨rfl, rfl⟩
  | copy t => exact ⟨fits_copy t, trivial⟩
  | gap => exact ⟨rfl, trivial⟩
  | word text | remark text => exact ⟨⟨rfl, rfl⟩, trivial⟩

theorem plain_moreItems (loose : Bool) (names : List String) : ∀ mark ∈ moreItems loose names, mark.Plain := by
  induction names with
  | nil => cases loose <;> simp [moreItems, Plain, TokenKind.symbols]
  | cons name names ih => simpa [moreItems, Plain, TokenKind.symbols] using ih

theorem plain_items (loose : Bool) (names : List String) : ∀ mark ∈ items loose names, mark.Plain := by
  cases names with
  | nil => simp [items]
  | cons name names => simpa [items, Plain] using plain_moreItems loose names

theorem plain_parameter (p : Parameter) : ∀ mark ∈ parameter p, mark.Plain := by
  rw [parameter]
  split
  · simp [Plain]
  · intro mark hmark
    simp only [dimensions, mem_append, mem_flatMap, mem_cons, not_mem_nil] at hmark
    rcases hmark with ((rfl | rfl | rfl | h) | ⟨dim, -, rfl | rfl | rfl | h⟩) | rfl | rfl | rfl | h <;>
      simp_all [Plain, TokenKind.symbols]

theorem plain_parameters (ps : List Parameter) : ∀ mark ∈ parameters ps, mark.Plain := by
  cases ps with
  | nil => simp [parameters]
  | cons p ps =>
    intro mark hmark
    simp only [parameters, moreParameters, mem_append, mem_flatMap, mem_cons] at hmark
    rcases hmark with h | ⟨q, -, rfl | rfl | h⟩
    · exact plain_parameter p mark h
    · simp [Plain, TokenKind.symbols]
    · trivial
    · exact plain_parameter q mark h

theorem plain_run (tokens : List Token) : ∀ mark ∈ run tokens, mark.Plain := by
  simp [run, Plain]

end Mark

theorem Statement.marks_plain (s : Statement) (loose : Bool) : ∀ mark ∈ s.marks loose, mark.Plain := by
  have hitems := Mark.plain_items loose
  have hrun := Mark.plain_run
  intro mark hmark
  cases s with
  | declaration type names isMutable =>
    cases isMutable <;> simp only [Statement.marks, mem_append, mem_cons, not_mem_nil,
      or_false, Bool.false_eq_true, if_false, if_true] at hmark <;>
      grind [Mark.Plain, TokenKind.symbols, Keyword.plain]
  | returns expression =>
    simp only [Statement.marks, mem_cons] at hmark
    split at hmark <;> simp only [mem_cons, not_mem_nil] at hmark <;>
      grind [Mark.Plain, Keyword.plain]
  | method name ps returnType =>
    have hparameters := Mark.plain_parameters ps
    simp only [Statement.marks, mem_append, mem_cons, not_mem_nil, or_false] at hmark
    cases returnType <;> split at hmark <;>
      simp only [Mark.result, mem_append, mem_cons, not_mem_nil, or_false] at hmark <;>
      grind [Mark.Plain, TokenKind.symbols, Keyword.plain]
  | _ =>
    simp only [Statement.marks, mem_append, mem_cons, not_mem_nil, or_false] at hmark
    grind [Mark.Plain, TokenKind.symbols, Keyword.plain]

theorem marginTokens_margin (unit depth : Nat) : Margin unit depth (marginTokens unit depth) := by
  rw [Margin, marginTokens]
  split
  · rfl
  · exact ⟨_, rfl, rfl, by simp⟩

theorem written_layout (unit : Nat) (entries : List ListedNode) : Written unit entries (layout unit entries) := by
  induction entries with
  | nil => exact .nil
  | cons e entries ih =>
    have hbody : Mark.Writes (e.statement.marks false)
        ((e.statement.marks false).map Mark.token) := by
      rw [Mark.Writes, forall₂_map_right_iff, forall₂_same]
      exact fun mark hmark => (e.statement.marks_plain false mark hmark).exact
    have hline := Written.line (marginTokens_margin unit e.depth) hbody
      (LineEnd.next (t := ⟨.lineBreak, "\n", ⟨"", 1, 1⟩⟩) rfl) ih
    rw [layout, flatMap_cons, append_assoc, append_assoc]
    exact hline

def WellFormedForest (forest : List Node) : Prop :=
  AllWellFormed .statements 0 ["Int", "Byte", arrayTypeName] [] forest

/-- A well formed forest has a layout of any unit, and every layout of it, whatever the case of its
keywords and the other choices that its marks leave open, is read as the forest. -/
theorem layout_reads_back (unit : Nat) (hunit : 0 < unit) {forest : List Node}
    (hforest : WellFormedForest forest) (file : String) (lines : List String) :
    Written unit (Node.listing 0 forest) (layout unit (Node.listing 0 forest)) ∧
      ∀ tokens, Written unit (Node.listing 0 forest) tokens →
        ∃ program, readProgram tokens file lines = .ok program ∧
          Node.allAgree program.nodes forest = true := by
  refine ⟨written_layout unit _, fun tokens hwritten => ?_⟩
  rw [← append_nil (listing 0 forest)] at hwritten
  have hreader : LineReader.statements ≠ .idle := nofun
  obtain ⟨nodes, c, hruns, hgiven⟩ := readBlock_written hunit forest
    (c := (Cursor.start tokens file lines).enter 0) hreader hforest .nil hwritten (by simp)
    (.inr ⟨rfl, Nat.zero_le 1⟩)
  refine ⟨⟨nodes, c.unit, c.journal⟩, ?_, allAgree_of_forall₂ hgiven.agrees⟩
  rw [readProgram, readTokens, hruns.readBlock_eq hreader]
  rfl

/-- A named type in use, a branch after a comment, and a block of options. -/
def branchingForest : List Node := [
  .mk (.structType "Grid") none [.mk .pass none []],
  .mk (.method "step" [⟨"Int", "x", []⟩, ⟨"Byte", "row", ["4"]⟩] (some "Int")) none [
    .mk (.declaration "Grid" ["g", "h"] true) none [],
    .mk (.ifThen [⟨.word, "x", ⟨"", 1, 1⟩⟩]) none [.mk (.call "print" []) none []],
    .mk (.comment "// otherwise") none [],
    .mk .otherwise none [
      .mk (.choose "speed") none [.mk (.option "FAST") none [.mk (.returns []) none []]]]]]

theorem layout_reads_back_of_branches :
    WellFormedForest branchingForest ∧
      ∃ program,
        readProgram (layout 4 (Node.listing 0 branchingForest)) "grid.cir" [] = .ok program ∧
          Node.allAgree program.nodes branchingForest = true := by
  have hformed : WellFormedForest branchingForest := by
    simp [branchingForest, WellFormedForest, AllWellFormed, WellFormed, Statement.Proper,
      Statement.Allowed, Statement.Holds, Statement.opensBlock, Statement.bodyReader,
      Statement.definedTypes, typesAfter, allTypesAfter, Token.Captured, Token.Balanced,
      Token.endsLine, branchMayFollow, isComment, isConditional, statement, arrayTypeName]
  have hreads := layout_reads_back 4 (by decide) hformed "grid.cir" []
  exact ⟨hformed, hreads.2 _ hreads.1⟩

end CirOutline
