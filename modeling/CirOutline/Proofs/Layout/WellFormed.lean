import CirOutline.Proofs.Layout.Outlined
import CirOutline.Proofs.Layout.RoundTrip
import Mathlib.Data.List.Infix

/-!
Every program that is read is well formed, whatever tokens it is read from. The layout reader checks
the parts of a statement on its line, the kind of a line by the block that it stands in, a branch by
the nodes before it, a method by its level, and a named type when its block is over. Together the
checks let through only forests that can be laid out, so this is the other direction of laying out
and reading back. What it means for one node is read off at the node's position.
-/

namespace CirOutline

open List Token Node

variable {c' : Cursor} {level depth : Nat} {ns siblings : List Node} {s : Statement} {types : List String}
  {e : ListedNode} {n : Node} {reader : LineReader}

/-! ### What reading a block adds -/

/-- An entry of a listing that tokens tell: a run of them writes the statement, and its place is the
place of the statement. -/
def ListedNode.Told (tokens : List Token) (e : ListedNode) : Prop :=
  ∃ run location, run <:+: tokens ∧ e.statement.Spelled (ink run) ∧
    place? (ink run) = some location ∧ e.location = some location

theorem ListedNode.Told.of_suffix {a b : List Token} (h : e.Told a) (hab : a <:+ b) : e.Told b := by
  obtain ⟨run, location, hrun, hrest⟩ := h
  exact ⟨run, location, hrun.trans hab.isInfix, hrest⟩

namespace Node

theorem allTypesAfter_append (types : List String) (a b : List Node) :
    allTypesAfter types (a ++ b) = allTypesAfter (allTypesAfter types a) b := by
  induction a generalizing types with
  | nil => rfl
  | cons n a ih => rw [cons_append, allTypesAfter, allTypesAfter, ih]

theorem allWellFormed_append {a b : List Node} : AllWellFormed reader depth types siblings (a ++ b) ↔
      AllWellFormed reader depth types siblings a ∧
        AllWellFormed reader depth (allTypesAfter types a) (siblings ++ a) b := by
  induction a generalizing types siblings with
  | nil => simp [AllWellFormed, allTypesAfter]
  | cons n a ih =>
    rw [cons_append, AllWellFormed, AllWellFormed, ih, allTypesAfter, and_assoc, append_assoc, singleton_append]

theorem WellFormed.withoutComments (h : n.WellFormed reader depth types siblings) :
    n.WellFormed reader depth types (siblings.filter fun m => !m.isComment) := by
  have hbranch : branchMayFollow (siblings.filter fun m => !m.isComment) = branchMayFollow siblings := by
    rw [branchMayFollow, branchMayFollow, ← filter_reverse, find?_filter]
    simp only [and_self, Bool.decide_eq_true]
  obtain ⟨s, location, body⟩ := n
  obtain ⟨hproper, hallowed, hrest⟩ := h
  refine ⟨hproper, ?_, hrest⟩
  cases s with
  | elseIf | otherwise => exact ⟨hallowed.1, hbranch.trans hallowed.2⟩
  | _ => exact hallowed

theorem WellFormed.typesAfter_comment (h : n.WellFormed reader depth types siblings)
    (hcomment : n.isComment = true) : n.typesAfter types = types := by
  obtain ⟨s, location, body⟩ := n
  cases s with
  | comment text =>
    obtain rfl : body = [] := h.2.2.1 rfl
    exact append_nil types
  | _ => cases hcomment

theorem AllWellFormed.withoutComments (h : AllWellFormed reader depth types siblings ns) :
    AllWellFormed reader depth types (siblings.filter fun m => !m.isComment) (ns.filter fun m => !m.isComment) ∧
      allTypesAfter types (ns.filter fun m => !m.isComment) = allTypesAfter types ns := by
  induction ns generalizing types siblings with
  | nil => exact ⟨trivial, rfl⟩
  | cons n ns ih =>
    obtain ⟨hn, hns⟩ := h
    obtain ⟨hformed, htypes⟩ := ih hns
    rw [filter_append] at hformed
    cases hcomment : n.isComment with
    | true =>
      rw [hn.typesAfter_comment hcomment] at hformed htypes
      rw [filter_cons_of_neg (by simp [hcomment]), allTypesAfter, hn.typesAfter_comment hcomment]
      rw [filter_cons_of_neg (by simp [hcomment]), filter_nil, append_nil] at hformed
      exact ⟨hformed, htypes⟩
    | false =>
      rw [filter_cons_of_pos (by simp [hcomment]), allTypesAfter, allTypesAfter, htypes]
      rw [filter_cons_of_pos (by simp [hcomment]), filter_nil] at hformed
      exact ⟨⟨hn.withoutComments, hformed⟩, rfl⟩

theorem mem_listing_of_filter {p : Node → Bool} (h : e ∈ listing depth (ns.filter p)) : e ∈ listing depth ns := by
  induction ns with
  | nil => exact h
  | cons n ns ih =>
    rw [listing, mem_append]
    cases hp : p n with
    | true =>
      rw [filter_cons_of_pos hp, listing, mem_append] at h
      exact h.imp_right ih
    | false =>
      rw [filter_cons_of_neg (by simp [hp])] at h
      exact .inr (ih h)

end Node

/-- What reading a block of tokens adds to its nodes and to the names of types. -/
structure FormedBlock (tokens : List Token) (reader : LineReader) (depth : Nat) (types : List String)
    (siblings new : List Node) (after : List String) : Prop where
  formed : AllWellFormed reader depth types siblings new
  after : after = allTypesAfter types new
  told : ∀ depth, ∀ e ∈ listing depth new, e.Told tokens

namespace FormedBlock

variable {tokens : List Token} {between after : List String}

theorem nil : FormedBlock tokens reader depth types siblings [] types :=
  ⟨trivial, rfl, fun _ _ he => absurd he not_mem_nil⟩

theorem append {ms : List Node} (h : FormedBlock tokens reader depth types siblings ns between)
    (h' : FormedBlock tokens reader depth between (siblings ++ ns) ms after) :
    FormedBlock tokens reader depth types siblings (ns ++ ms) after := by
  obtain ⟨hns, rfl, hold⟩ := h
  refine ⟨allWellFormed_append.mpr ⟨hns, h'.formed⟩, ?_, fun depth e he => ?_⟩
  · rw [allTypesAfter_append]
    exact h'.after
  · rw [listing_append, mem_append] at he
    exact he.elim (hold depth e) (h'.told depth e)

theorem tree {location : Option Location} (hproper : s.Proper)
    (hallowed : s.Allowed reader depth siblings types) (hholds : s.Holds ns)
    (htold : ∀ depth, (⟨depth, s, location⟩ : ListedNode).Told tokens)
    (h : FormedBlock tokens s.bodyReader (depth + 1) (types ++ s.definedTypes) [] ns after) :
    FormedBlock tokens reader depth types siblings [.mk s location ns] after := by
  refine ⟨⟨⟨hproper, hallowed, hholds, h.formed⟩, trivial⟩, h.after, fun depth e he => ?_⟩
  rw [Node.listing, Node.entries, Node.listing, append_nil, mem_cons] at he
  rcases he with rfl | he
  · exact htold depth
  · exact h.told _ e he

theorem remarks {trailing : List Token} (hcomments : ∀ t ∈ trailing, t.kind = .comment)
    (htrailing : ∀ t ∈ trailing, t ∈ tokens) :
    FormedBlock tokens reader depth types siblings (s.remarks trailing) types := by
  have hremarks : FormedBlock tokens reader depth types siblings (trailing.map remark) types := by
    induction trailing generalizing siblings with
    | nil => exact nil
    | cons t trailing ih =>
      rw [forall_mem_cons] at hcomments htrailing
      have hink : ink [t] = [t] := by rw [ink_cons (by simp [hcomments.1]), ink_nil]
      have htold : ∀ depth,
          (⟨depth, .comment t.raw, some t.location⟩ : ListedNode).Told tokens := by
        intro depth
        refine ⟨[t], t.location, (singleton_infix_iff t tokens).mpr htrailing.1, ?_, ?_, rfl⟩
        · rw [hink]
          exact ⟨false, .cons ⟨hcomments.1, rfl⟩ .nil⟩
        · simp [hink, place?, keyword?, keywordText?, hcomments.1]
      have hempty : FormedBlock tokens .statements (depth + 1) (types ++ []) [] [] types := by
        rw [append_nil]
        exact nil
      have hfirst : FormedBlock tokens reader depth types siblings [t.remark] types :=
        tree trivial trivial (fun _ => rfl) htold hempty
      exact hfirst.append (ih hcomments.2 htrailing.2)
  cases s with
  | comment text => exact nil
  | _ => exact hremarks

theorem members (h : FormedBlock tokens reader depth types [] ns after) :
    FormedBlock tokens reader depth types [] (s.members ns) after := by
  cases s with
  | structType name =>
    obtain ⟨hformed, htypes⟩ := h.formed.withoutComments
    exact ⟨hformed, h.after.trans htypes.symm, fun depth e he => h.told depth e (mem_listing_of_filter he)⟩
  | _ => exact h

theorem of_suffix {more : List Token} (h : FormedBlock tokens reader depth types siblings ns after)
    (hsuffix : tokens <:+ more) : FormedBlock more reader depth types siblings ns after :=
  ⟨h.formed, h.after, fun depth e he => (h.told depth e he).of_suffix hsuffix⟩

end FormedBlock

theorem Statement.Filled.holds (h : s.Filled ns) (hopens : s.opensBlock = true) : s.Holds (s.members ns) := by
  cases s with
  | structType name =>
    obtain ⟨only, hmembers⟩ := h
    have hmem : only ∈ ns.filter fun n => !n.isComment := by
      rw [show (ns.filter fun n => !n.isComment) = [only] from hmembers]
      exact mem_cons_self
    exact ⟨only, hmembers, by simpa using (mem_filter.mp hmem).2⟩
  | _ => exact fun hclosed => absurd (hopens.symm.trans hclosed) (by decide)

theorem Statement.Allowed.of_le (h : s.Allowed reader level siblings types) (hdepth : depth ≤ level) :
    s.Allowed reader depth siblings types := by
  cases s with
  | method name parameters returnType => exact ⟨h.1, Nat.eq_zero_of_le_zero (h.2 ▸ hdepth)⟩
  | _ => exact h

theorem LineRead.formed {comments : List Node} {location : Location} {c : Cursor}
    (h : LineRead reader level siblings s location comments c c') (hdepth : depth ≤ level) :
    c'.typeNames = c.typeNames ++ s.definedTypes ∧ c'.rest <:+ c.rest ∧ (∀ reader depth types siblings,
        FormedBlock c.rest reader depth types siblings comments types) ∧
      ∀ ns after, s.Holds ns →
        FormedBlock c.rest s.bodyReader (depth + 1) (c.typeNames ++ s.definedTypes) [] ns after →
        FormedBlock c.rest reader depth c.typeNames siblings [.mk s (some location) ns] after := by
  obtain ⟨ts, trailing, hfinish, hspelled, hplace, rfl⟩ := h.written
  obtain ⟨run, hprefix, hink⟩ := hfinish.run
  obtain ⟨said, rest, rfl, hsaid, hrest⟩ := filter_eq_append_iff.mp hink
  refine ⟨hfinish.types, hfinish.suffix, fun reader depth types siblings => ?_, fun ns after hholds hbody => ?_⟩
  · refine .remarks hfinish.remarks fun t ht => hprefix.subset ?_
    rw [← hrest] at ht
    exact mem_append_right said (mem_of_mem_filter ht)
  · refine .tree h.proper (h.allowed.of_le hdepth) hholds (fun depth => ?_) hbody
    refine ⟨said, location, (infix_append [] said rest).trans hprefix.isInfix, ?_, ?_, rfl⟩
    · rw [ink, hsaid]
      exact hspelled
    · rw [ink, hsaid]
      exact hplace

theorem BlockRuns.formed {floor : Nat} {done nodes : List Node} {c : Cursor}
    (h : BlockRuns reader floor done c nodes c') (hreader : reader ≠ .idle) (hdepth : depth ≤ floor) :
    c'.rest <:+ c.rest ∧
      ∃ new, nodes = done ++ new ∧ FormedBlock c.rest reader depth c.typeNames done new c'.typeNames := by
  induction h generalizing depth with
  | @nil reader floor done c c1 hnext =>
    obtain ⟨htypes, hsuffix, -⟩ := Reader.Search.line hnext
    refine ⟨hsuffix, [], (append_nil done).symm, ?_⟩
    rw [show (c1.leave floor done.length).typeNames = c.typeNames from htypes]
    exact .nil
  | @leaf reader floor level t done _ _ c c1 c2 _ hnext hline _ ih =>
    obtain ⟨htypes1, hsuffix1, -, -, hfound⟩ := Reader.Search.line hnext
    obtain ⟨hlevel, -, rest, hc1⟩ := hfound level t rfl
    obtain ⟨s, location, comments, rfl, hopens, hread⟩ := (Reader.line_meets hreader hc1 false nofun).ok hline
    obtain ⟨htypes2, hsuffix2, hcomments, htree⟩ := hread.formed (hdepth.trans hlevel)
    obtain ⟨hsuffix, new, rfl, hnew⟩ := ih hreader hdepth
    have hbare : s.Holds [] := by
      cases s with
      | structType name => cases hopens
      | _ => exact fun _ => rfl
    have hfirst := htree [] c2.typeNames hbare (htypes2 ▸ .nil)
    have hline := hfirst.append (hcomments reader depth c2.typeNames _)
    refine ⟨hsuffix.trans (hsuffix2.trans hsuffix1), .mk s (some location) [] :: comments ++ new,
      by rw [append_assoc], ?_⟩
    rw [← htypes1]
    exact (hline.of_suffix hsuffix1).append (hnew.of_suffix (hsuffix2.trans hsuffix1))
  | @header reader floor level t done s location comments body _ _ _ c c1 c2 c3 _ hnext hline _ hclose _ ih ih' =>
    obtain ⟨htypes1, hsuffix1, -, -, hfound⟩ := Reader.Search.line hnext
    obtain ⟨hlevel, -, rest, hc1⟩ := hfound level t rfl
    obtain ⟨hopens, hsuits, hread⟩ := (Reader.line_meets hreader hc1 false nofun).ok hline
    obtain ⟨htypes2, hsuffix2, hcomments, htree⟩ := hread.formed (hdepth.trans hlevel)
    have hbelow : depth + 1 ≤ level + 1 := Nat.succ_le_succ (hdepth.trans hlevel)
    obtain ⟨hsuffix3, inner, rfl, hinner⟩ := ih body.reader_ne_idle hbelow
    obtain ⟨rfl, hfilled⟩ := BodyKind.close_ok hsuits hclose
    obtain ⟨hsuffix, new, rfl, hnew⟩ := ih' hreader hdepth
    rw [hsuits.reader] at hinner
    have hblock : FormedBlock c1.rest s.bodyReader (depth + 1) (c1.typeNames ++ s.definedTypes) []
        (comments ++ inner) c3.typeNames :=
      (hcomments _ _ _ _).append (htypes2 ▸ hinner.of_suffix hsuffix2)
    have hfirst := htree _ _ (hfilled.holds hopens) hblock.members
    refine ⟨hsuffix.trans (hsuffix3.trans (hsuffix2.trans hsuffix1)),
      [.mk s (some location) (s.members (comments ++ inner))] ++ new, by rw [append_assoc], ?_⟩
    rw [← htypes1]
    exact (hfirst.of_suffix hsuffix1).append (hnew.of_suffix (hsuffix3.trans (hsuffix2.trans hsuffix1)))

theorem readProgram_wellFormed {tokens : List Token} {file : String} {lines : List String}
    {program : Program} (h : readProgram tokens file lines = .ok program) :
    WellFormedForest program.nodes ∧ ∀ e ∈ listing 0 program.nodes, e.Told tokens := by
  obtain ⟨c, hblock, -⟩ := readProgram_ok h
  obtain ⟨-, new, hnodes, hnew⟩ := (readBlock_runs hblock).formed (by simp) (Nat.le_refl 0)
  obtain rfl : program.nodes = new := hnodes
  exact ⟨hnew.formed, hnew.told 0⟩

/-! ### Nodes at their positions -/

/-- The nodes of a forest at all depths: each with the statement whose block it stands in, none at the
top, and with the nodes before it in that block. -/
inductive Node.At (forest : List Node) : (owner : Option Statement) → (before : List Node) → Node → Prop
  | top {before after n} (hsplit : forest = before ++ n :: after) :
      At forest none before n
  | inside {owner siblings before after m n}
      (hm : At forest owner siblings m) (hsplit : m.body = before ++ n :: after) :
      At forest (some m.statement) before n

namespace Node

variable {forest before : List Node} {owner : Option Statement}

theorem WellFormed.body (h : n.WellFormed reader depth types siblings) :
    n.statement.Holds n.body ∧ AllWellFormed n.statement.bodyReader (depth + 1)
      (types ++ n.statement.definedTypes) [] n.body := by
  obtain ⟨s, location, body⟩ := n
  exact h.2.2

theorem At.wellFormed (h : At forest owner before n) (hforest : AllWellFormed .statements 0 types [] forest) :
    ∃ depth types, n.WellFormed (owner.elim .statements Statement.bodyReader) depth types before ∧
      (depth = 0 → owner = none) := by
  induction h with
  | @top before after n hsplit =>
    rw [hsplit, allWellFormed_append] at hforest
    exact ⟨0, _, hforest.2.1, fun _ => rfl⟩
  | @inside owner siblings before after m n hm hsplit ih =>
    obtain ⟨depth, types, hformed, -⟩ := ih
    have hbody := hformed.body.2
    rw [hsplit, allWellFormed_append] at hbody
    exact ⟨depth + 1, _, hbody.2.1, fun hzero => absurd hzero (Nat.succ_ne_zero depth)⟩

theorem mem_listing_body {m : Node} (hm : m ∈ ns) (he : e ∈ listing (depth + 1) m.body) :
    e ∈ listing depth ns := by
  obtain ⟨a, b, rfl⟩ := append_of_mem hm
  obtain ⟨s, location, body⟩ := m
  rw [listing_append, listing, entries, mem_append, mem_append, mem_cons]
  exact .inr (.inl (.inr he))

theorem At.mem_listing (h : At forest owner before n) :
    ∃ depth, (⟨depth, n.statement, n.location⟩ : ListedNode) ∈ listing 0 forest ∧
      ∀ e ∈ listing (depth + 1) n.body, e ∈ listing 0 forest := by
  have hstart : ∀ (depth : Nat) {ns a b : List Node} {m : Node}, ns = a ++ m :: b →
      (⟨depth, m.statement, m.location⟩ : ListedNode) ∈ listing depth ns ∧
        ∀ e ∈ listing (depth + 1) m.body, e ∈ listing depth ns := by
    rintro depth ns a b m rfl
    refine ⟨?_, fun e he => mem_listing_body (by simp) he⟩
    obtain ⟨s, location, body⟩ := m
    simp [listing_append, listing, entries, statement, Node.location]
  induction h with
  | top hsplit => exact ⟨0, hstart 0 hsplit⟩
  | @inside owner siblings before after m n hm hsplit ih =>
    obtain ⟨depth, -, hbody⟩ := ih
    obtain ⟨hmem, hmore⟩ := hstart (depth + 1) hsplit
    exact ⟨depth + 1, hbody _ hmem, fun e he => hbody e (hmore e he)⟩

end Node

theorem exists_of_branchMayFollow (h : branchMayFollow siblings = true) :
    ∃ front condition between, siblings = front ++ condition :: between ∧
      condition.isConditional = true ∧ ∀ m ∈ between, m.isComment = true := by
  unfold branchMayFollow at h
  cases hfound : siblings.reverse.find? fun n => !n.isComment with
  | none => simp [hfound] at h
  | some condition =>
    obtain ⟨-, comments, front, hsplit, hcomments⟩ := find?_eq_some_iff_append.mp hfound
    refine ⟨front.reverse, condition, comments.reverse, ?_, by simpa [hfound] using h, fun m hm => ?_⟩
    · rw [← reverse_reverse siblings, hsplit, reverse_append, reverse_cons, append_assoc, singleton_append]
    · simpa using hcomments m (mem_reverse.mp hm)

theorem Token.Captured.ink {stop : Token → Bool} {run : List Token} (h : Captured stop run) :
    ∃ t ∈ run, t.kind ≠ .spaces := by
  obtain ⟨⟨t, rest, rfl, ht⟩, -⟩ := h
  exact ⟨t, mem_cons_self, ht⟩

/-- The parts that a statement cannot do without: names, options, a token that is no white space, a
start that sets the loop variable, and dimensions where the type is that of arrays. -/
def Statement.Complete : Statement → Prop
  | declaration _ names _ => names ≠ []
  | setMode _ options => options ≠ []
  | assignment _ run | ifThen run | elseIf run | whileLoop run | repeatLoop run =>
    ∃ t ∈ run, t.kind ≠ .spaces
  | forLoop start stop =>
    (∃ iterator equals first more, start.head? = some iterator ∧ iterator? start = some iterator.raw ∧
      ink start = iterator :: equals :: first :: more ∧ equals.kind = .setEquals) ∧
    ∃ t ∈ stop, t.kind ≠ .spaces
  | method _ parameters _ => ∀ p ∈ parameters, p.typeName = arrayTypeName → p.dimensions ≠ []
  | _ => True

theorem Statement.Proper.complete (h : s.Proper) : s.Complete := by
  cases s with
  | assignment | ifThen | elseIf | whileLoop | repeatLoop => exact h.ink
  | forLoop start stop =>
    obtain ⟨⟨iterator, rest, rfl, hword⟩, hstarts, -, hstop⟩ := h
    refine ⟨?_, hstop.ink⟩
    have hink : ink (iterator :: rest) = iterator :: ink rest :=
      ink_cons (by rw [hword]; decide) rest
    have hfilter : (iterator :: rest).filter (fun t => t.kind != .spaces) = iterator :: ink rest := hink
    rw [Reader.startsLoop, hfilter] at hstarts
    cases hmore : ink rest with
    | nil => simp [hmore] at hstarts
    | cons equals more =>
      cases more with
      | nil => simp [hmore] at hstarts
      | cons first more =>
        refine ⟨iterator, equals, first, more, rfl, ?_, hink.trans (by rw [hmore]), ?_⟩
        · simp [iterator?, hword]
        · simpa [hmore] using hstarts
  | method name parameters returnType =>
    intro p hp harray hdims
    exact h p hp hdims harray
  | declaration | setMode => exact h
  | _ => trivial

/-- How a node stands in its block, and what stands in the block of the node. -/
structure Node.Placed (owner : Option Statement) (before : List Node) (n : Node) : Prop where
  method : ∀ name parameters returnType, n.statement = .method name parameters returnType → owner = none
  option : ∀ name, n.statement = .option name → ∃ mode, owner = some (.choose mode)
  choice : ∀ mode, owner = some (.choose mode) →
    n.isComment = true ∨ ∃ name, n.statement = .option name
  branch : (∃ condition, n.statement = .elseIf condition) ∨ n.statement = .otherwise →
    ∃ front condition between, before = front ++ condition :: between ∧
      condition.isConditional = true ∧ ∀ m ∈ between, m.isComment = true
  member : ∀ name, n.statement = .structType name → ∃ only, n.body = [only] ∧ only.isComment = false
  leaf : n.statement.opensBlock = false → n.body = []

theorem Node.WellFormed.placed {owner : Option Statement} {before : List Node}
    (h : n.WellFormed (owner.elim .statements Statement.bodyReader) depth types before)
    (hdepth : depth = 0 → owner = none) : n.Placed owner before := by
  obtain ⟨s, location, body⟩ := n
  obtain ⟨-, hallowed, hholds, -⟩ := h
  -- below a mode-dependent block, and only there, lines are read as options
  have hoptions : ∀ mode, owner = some (.choose mode) →
      owner.elim .statements Statement.bodyReader = LineReader.options := by
    rintro mode rfl
    rfl
  have hchoose : owner.elim .statements Statement.bodyReader = LineReader.options →
      ∃ mode, owner = some (.choose mode) := by
    intro hreader
    cases owner with
    | none => cases hreader
    | some s =>
      cases s with
      | choose mode => exact ⟨mode, rfl⟩
      | _ => cases hreader
  refine ⟨?_, ?_, ?_, ?_, ?_, ?_⟩
  · rintro name parameters returnType rfl
    exact hdepth hallowed.2
  · rintro name rfl
    exact hchoose hallowed
  · intro mode howner
    rw [hoptions mode howner] at hallowed
    cases s with
    | comment text => exact .inl rfl
    | option name => exact .inr ⟨name, rfl⟩
    | method | elseIf | otherwise | declaration | call => cases hallowed.1
    | _ => cases hallowed
  · rintro (⟨condition, rfl⟩ | rfl)
    · exact exists_of_branchMayFollow hallowed.2
    · exact exists_of_branchMayFollow hallowed.2
  · rintro name rfl
    exact hholds
  · intro hleaf
    cases s with
    | structType name => cases hleaf
    | _ => exact hholds hleaf

/-- Every program that is read is well formed at every node: the node stands where its kind may stand,
its block holds what it may hold, its statement has the parts it needs, and it has the place of a run
of the tokens that writes its statement. -/
theorem program_well_formed {tokens : List Token} {file : String} {lines : List String}
    {program : Program} (h : readProgram tokens file lines = .ok program)
    {owner : Option Statement} {before : List Node} {n : Node}
    (hn : Node.At program.nodes owner before n) :
    n.Placed owner before ∧ n.statement.Complete ∧
      ∃ run location, run <:+: tokens ∧ n.statement.Spelled (Token.ink run) ∧
        Token.place? (Token.ink run) = some location ∧ n.location = some location := by
  obtain ⟨hforest, htold⟩ := readProgram_wellFormed h
  obtain ⟨depth, types, hformed, hdepth⟩ := hn.wellFormed hforest
  obtain ⟨level, hmem, -⟩ := hn.mem_listing
  refine ⟨hformed.placed hdepth, ?_, htold _ hmem⟩
  obtain ⟨s, location, body⟩ := n
  exact Statement.Proper.complete hformed.1

/-- A condition, a comment, and the branch that follows the condition. -/
def branchTokens : List Token := [
  ⟨.keyword, "IF", ⟨"f", 1, 1⟩⟩, ⟨.spaces, " ", ⟨"f", 1, 3⟩⟩, ⟨.word, "x", ⟨"f", 1, 4⟩⟩,
  ⟨.colon, ":", ⟨"f", 1, 5⟩⟩, ⟨.lineBreak, "\n", ⟨"f", 1, 6⟩⟩, ⟨.spaces, "  ", ⟨"f", 2, 1⟩⟩,
  ⟨.keyword, "PASS", ⟨"f", 2, 3⟩⟩, ⟨.lineBreak, "\n", ⟨"f", 2, 7⟩⟩, ⟨.comment, "// c", ⟨"f", 3, 1⟩⟩,
  ⟨.lineBreak, "\n", ⟨"f", 3, 5⟩⟩, ⟨.keyword, "ELSE", ⟨"f", 4, 1⟩⟩, ⟨.colon, ":", ⟨"f", 4, 5⟩⟩]

theorem program_well_formed_of_branch : ∃ program before n,
    readProgram branchTokens "f" [] = .ok program ∧ Node.At program.nodes none before n ∧
      n.statement = .otherwise ∧ ∃ front condition between, before = front ++ condition :: between ∧
        condition.isConditional = true ∧ ∀ m ∈ between, m.isComment = true := by
  obtain ⟨program, hprogram, hnodes⟩ : ∃ program, readProgram branchTokens "f" [] = .ok program ∧
      program.nodes = [
        .mk (.ifThen [⟨.word, "x", ⟨"f", 1, 4⟩⟩]) (some ⟨"f", 1, 1⟩) [.mk .pass (some ⟨"f", 2, 3⟩) []],
        .mk (.comment "// c") (some ⟨"f", 3, 1⟩) []] ++ [.mk .otherwise (some ⟨"f", 4, 1⟩) []] :=
    ⟨_, by cbv, by rfl⟩
  have hat := Node.At.top hnodes
  obtain ⟨hplaced, -, -⟩ := program_well_formed hprogram hat
  exact ⟨program, _, _, hprogram, hat, rfl, hplaced.branch (.inr rfl)⟩

end CirOutline
