import CirOutline.Proofs.Emission.NameEvents
import CirOutline.Proofs.Emission.Wording

/-!
Printing does to names what static scoping foretells. A printer that comes to a node prints it at once
or prints a block of it in between; `visit_prints` says for every node what its lines do to names and
what is known before and after the block. So the events of a whole program are those of its statements.

On the way the printout is described: `Prints` relates the nodes of a block to the pieces that they
become, with what is known at each of them, and `PrintsProgram` a program to its header and definitions.
-/

namespace CirOutline

open List Option String Node CLine Passed Scope TypeTable TemporaryPool

variable {e : Emitter} {ns body : List Node} {s : Statement} {n : Node} {how : Option Mode}
  {first last : Context} {place : Option Location} {returnType : Option String}
  {parameters : List Parameter} {past : List Passed} {source file : String} {tokens : List Token}
  {options : Options}

def Context.sight (c : Context) : Sight := ⟨c.types, c.scope, c.scope.locals.isSome⟩

theorem Scope.isSome_declare (scope : Scope) (b : Binding) :
    (scope.declare b).locals.isSome = scope.locals.isSome :=
  isSome_foldl_declare [b] scope

theorem Scope.isSome_forget (scope : Scope) (name : Option String) :
    (scope.forget name).locals.isSome = scope.locals.isSome := by
  simp [forget]

def Passed.modes (past : List Passed) : ModeRegistry :=
  past.foldr (fun f modes => f.statement.modesAfter modes) []

theorem TemporaryPool.isWord_name (index : Nat) : Text.IsWord (name index) := by
  refine ⟨'_', "temp_".toList ++ Nat.toDigits 10 index, by simp [name, stem], by decide, fun d hd => ?_⟩
  rcases mem_append.mp hd with hd | hd
  · have hall : "temp_".toList.all LexicalRule.continuesName = true := by decide
    exact List.all_eq_true.mp hall d hd
  · have hdigit := Nat.isDigit_of_mem_toDigits (by decide) (by decide) hd
    simp [LexicalRule.continuesName, Char.isAlphanum, hdigit]

theorem Node.statement_mem_of_walkAll (ns : List Node) : ∀ (parent : List Nat) (index : Nat),
    ∀ f ∈ walkAll parent index ns, f.statement ∈ statements ns := by
  induction ns using forest_induction with
  | nil => simp [walkAll]
  | cons s location body ns ihbody ihns =>
    intro parent index f hf
    rw [walkAll_cons, cons_append, mem_cons, mem_append] at hf
    rw [statements_cons, mem_cons, mem_append]
    rcases hf with rfl | hf | hf
    · exact .inl rfl
    · exact .inr (.inl (ihbody _ _ f hf))
    · exact .inr (.inr (ihns _ _ f hf))

theorem Node.statement_mem_of_walk {n : Node} {f : Passed} {parent : List Nat} {index : Nat}
    (h : f ∈ n.walk (index :: parent)) : f.statement ∈ statements [n] := by
  refine statement_mem_of_walkAll [n] parent index f ?_
  rwa [walkAll, walkAll, append_nil]

namespace Printer

def block (options : Options) : Option Mode → List Node → Printer
  | none => nodes options
  | some mode => choices options mode

/-- The printer of one node of a block, given the printer of its own block. -/
def visit (options : Options) (how : Option Mode) (n : Node) (inner : Option Mode → Printer) : Printer :=
  match how, n.statement with
  | some mode, .option choice => modeOption mode choice (inner none)
  | _, _ => statement options n.statement n.body (inner none) fun mode => inner (some mode)

theorem block_nil (options : Options) (how : Option Mode) : block options how [] = nothing := by
  cases how with
  | none => rw [block, nodes]
  | some mode => rw [block, choices]

theorem block_cons (options : Options) (how : Option Mode) (n : Node) (ns : List Node) :
    block options how (n :: ns) =
      (visit options how n fun how' => block options how' n.body).andThen (block options how ns) := by
  obtain ⟨s, location, body⟩ := n
  cases how with
  | none => rw [block, nodes, node]; rfl
  | some mode =>
    change choices options mode (mk s location body :: ns) = _
    unfold choices
    cases s <;> rfl

/-- A node that is printed without a block to enter. -/
structure Leaf (options : Options) (counters : Nat) (n : Node) (c c' : Context) (pieces : List Piece) :
    Prop where
  closed : n.statement.opensBlock = false ∨ ∃ name member, n.statement = .structType name ∧
    n.body = [member] ∧ member.statement.opensBlock = false
  sight : c'.sight = c.sight.after n.statement
  pool : c'.pool = c.pool
  events : Piece.allEvents pieces = (n.statement.event? c.scope.lookup counters).toList
  modes : c'.modes = n.statement.modesAfter c.modes
  wording : Says options c n pieces

/-- A node that is printed around its block, which leads from the context `first` to `last`. -/
structure Around (counters : Nat) (n : Node) (c c' : Context) (pieces : List Piece)
    (outer how : Option Mode) (first last : Context) (inner : List Piece) : Prop where
  opens : n.statement.opensBlock = true
  reader : n.statement.bodyReader = Emission.blockReader how
  unnamed : n.statement.isStructType = false
  unmethod : n.statement.isMethod = false
  entering : first.sight = c.sight.entering n.statement
  leaving : c'.sight = c.sight.leaving n.statement last.sight
  taken : first.pool.Holds (counters + if n.statement.isRepeat then 1 else 0)
  given : last.pool.Holds (counters + if n.statement.isRepeat then 1 else 0) → c'.pool.Holds counters
  events : Piece.allEvents pieces = (n.statement.event? c.scope.lookup counters).toList ++
    Piece.allEvents inner ++
    if (n.statement.event? c.scope.lookup counters).any NameEvent.isOpening then [.closes] else []
  modes : first.modes = c.modes ∧ c'.modes = last.modes
  wraps : Wraps c outer how n.statement inner pieces

variable {counters : Nat} {c c' : Context} {pieces : List Piece} {outer : Option Mode}

theorem Around.modesAfter_eq {inner : List Piece} (h : Around counters n c c' pieces outer how first last inner)
    (modes : ModeRegistry) :
    n.statement.modesAfter modes = modes := by
  have hopens := h.opens
  cases hs : n.statement with
  | setMode name choices | defaultMode name choice | defineMode name choice =>
    simp [hs, Statement.opensBlock] at hopens
  | _ => rfl

theorem leaf_of_say {line : String} (hclosed : n.statement.opensBlock = false)
    (hafter : c.sight.after n.statement = c.sight)
    (hevent : (n.statement.event? c.scope.lookup counters) = CLine.event? line)
    (hmodes : n.statement.modesAfter c.modes = c.modes) (hwording : Says options c n [.line line])
    (h : say line c = some (pieces, c')) : Leaf options counters n c c' pieces := by
  cases h
  refine ⟨.inl hclosed, hafter.symm, rfl, ?_, hmodes.symm, hwording⟩
  rw [hevent]
  exact append_nil _

theorem around_of_braced {opening : String} {inner : Printer} (hopens : n.statement.opensBlock = true)
    (hreader : n.statement.bodyReader = .statements) (hplain : n.statement.isStructType = false ∧
      n.statement.isMethod = false ∧ n.statement.isRepeat = false ∧ n.statement.counter? = none)
    (hpool : c.pool.Holds counters) (hevent : CLine.event? (opening ++ " \x7b") = some (.opens [] none))
    (hown : n.statement.event? c.scope.lookup counters = some (.opens [] none))
    (hhead : Heads c n.statement opening) (h : braced opening inner c = some (pieces, c')) :
    ∃ first last ps, inner first = some (ps, last) ∧
      Around counters n c c' pieces outer none first last ps := by
  obtain ⟨⟨ps, last⟩, hinner, h⟩ := bind_eq_some_iff.mp h
  obtain ⟨rfl, rfl⟩ := Prod.mk.inj (Option.some.inj h)
  obtain ⟨hname, hmethod, hrepeat, hcounter⟩ := hplain
  obtain ⟨s, location, body⟩ := n
  have hentering : c.sight.entering s = c.sight ∧ ∀ v, c.sight.leaving s v = v := by
    cases s with
    | method name parameters returnType => cases hmethod
    | forLoop start stop => cases hcounter
    | _ => exact ⟨rfl, fun _ => rfl⟩
  refine ⟨c, last, ps, hinner, hopens, hreader, hname, hmethod, hentering.1.symm, (hentering.2 _).symm,
    ?_, ?_, ?_, ⟨rfl, rfl⟩, .braces hhead⟩
  · rw [hrepeat]
    exact hpool
  · rw [hrepeat]
    exact id
  · rw [hown]
    simp [Piece.allEvents, Piece.events, hevent, NameEvent.isOpening]

theorem comment_line {text : String} (h : ∀ c ∈ text.toList, c ≠ '\n') :
    ∃ rest, "// " ++ Text.trim (String.ofList (text.toList.drop 3)) = "//" ++ rest ∧
      ∀ c ∈ rest.toList, c ≠ '\n' := by
  refine ⟨" " ++ Text.trim (String.ofList (text.toList.drop 3)), ?_, fun c hc => ?_⟩
  · rw [← String.append_assoc]
    rfl
  · rw [toList_append, mem_append] at hc
    rcases hc with hc | hc
    · obtain rfl : c = ' ' := by simpa using hc
      decide
    · apply h
      have hsub : (Text.trim (String.ofList (text.toList.drop 3))).toList ⊆ text.toList.drop 3 := by
        intro d hd
        simp only [Text.trim, Text.dropEndWhile, toList_ofList, mem_reverse] at hd
        have hd := (dropWhile_suffix _).subset hd
        rw [mem_reverse] at hd
        exact (dropWhile_suffix _).subset hd
      exact mem_of_mem_drop (hsub hc)

theorem comment_prints {text : String} (htext : ∀ c ∈ text.toList, c ≠ '\n')
    (h : comment options text c = some (pieces, c')) :
    Leaf options counters (.mk (.comment text) place body) c c' pieces := by
  unfold comment at h
  split_ifs at h with hcopied
  · obtain ⟨rest, hline, hrest⟩ := comment_line htext
    rw [hline] at h
    have hwording : Says options c (.mk (.comment text) place body) [.line ("//" ++ rest)] := by
      refine .remarks rfl (forall_mem_singleton.mpr ⟨_, rfl, by simp, tokens_remark hrest, fun hsplices => ?_⟩)
      rw [Node.statement, Statement.splices, hcopied, hline, hsplices]
      rfl
    exact leaf_of_say rfl rfl (event?_remark hrest).symm rfl hwording h
  · cases h
    exact ⟨.inl rfl, rfl, rfl, rfl, rfl, .remarks rfl (forall_mem_nil _)⟩

theorem declaration_prints {typeName : String} {names : List String} {isMutable : Bool}
    (htypes : ∀ entry ∈ c.types, Text.IsType entry.2) (hnames : ∀ name ∈ names, Text.IsItem name)
    (hne : names ≠ []) (h : declaration typeName names isMutable c = some (pieces, c')) :
    Leaf options counters (.mk (.declaration typeName names isMutable) place body) c c' pieces := by
  obtain ⟨_, hguard, h⟩ := bind_eq_some_iff.mp h
  obtain ⟨type, htype, h⟩ := bind_eq_some_iff.mp h
  cases h
  obtain ⟨hword, hdimensions⟩ := forall_resolve (P := Text.IsType) htypes htype
  have htext := CType.text_of_plain hdimensions
  have hfound : c.types.resolve typeName [] = .ok type := eq_ok_of_toOption htype
  refine ⟨.inl rfl, ?_, rfl, ?_, rfl, .declares ((guard_eq_some' _).mp hguard) hfound⟩
  · have hbindings : (Statement.declaration typeName names isMutable).bindings c.types =
        names.map fun name => ⟨some name, type, isMutable⟩ := by
      simp [Statement.bindings, hfound]
    have hscope : names.foldl (fun scope name => scope.declare ⟨some name, type, isMutable⟩) c.scope =
        ((Statement.declaration typeName names isMutable).bindings c.types).foldl declare c.scope := by
      rw [hbindings, foldl_map]
    simp only [Context.sight, Sight.after, hscope, isSome_foldl_declare]
    rfl
  · rw [Piece.allEvents, Piece.events, htext, event?_declaration hword hnames hne]
    rfl

theorem assignment_prints {name : String} {expression : List Token} (hname : Text.IsType name)
    (h : assignment name expression c = some (pieces, c')) :
    Leaf options counters (.mk (.assignment name expression) place body) c c' pieces := by
  obtain ⟨b, hfound, h⟩ := bind_eq_some_iff.mp h
  dsimp only at h
  have hown : (Statement.assignment name expression).event? c.scope.lookup counters =
      if b.isMutable then some (.writes name) else none := by
    simp [Statement.event?, hfound]
  split_ifs at h with hmutable
  · refine leaf_of_say rfl rfl ?_ rfl (.assigns hfound hmutable) h
    rw [event?_assignment hname]
    exact hown.trans (if_pos hmutable)
  · refine leaf_of_say rfl rfl ?_ rfl (.fixes hfound (by simpa using hmutable)) h
    simp only [String.append_assoc]
    rw [event?_of_directive rfl (by decide)]
    exact hown.trans (if_neg hmutable)

theorem forall_intercalate {P : Char → Prop} {separator : String} {texts : List String}
    (hseparator : ∀ c ∈ separator.toList, P c) (h : ∀ text ∈ texts, ∀ c ∈ text.toList, P c) :
    ∀ c ∈ (separator.intercalate texts).toList, P c := by
  induction texts with
  | nil => simp
  | cons text texts ih =>
    rw [forall_mem_cons] at h
    cases texts with
    | nil => simpa using h.1
    | cons second texts =>
      rw [String.intercalate_cons_cons, toList_append, toList_append, forall_mem_append, forall_mem_append]
      exact ⟨⟨h.1, hseparator⟩, ih h.2⟩

theorem setMode_line {name : String} {choices : List String} (hname : Text.IsWord name)
    (hchoices : ∀ choice ∈ choices, Text.IsItem choice) :
    ∃ text, "/** " ++ name ++ ": " ++ " | ".intercalate (Mode.symbols ⟨name, choices, none⟩) ++ " **/" =
      "/** " ++ text ++ "**/" ∧ ∀ c ∈ text.toList, c ≠ '*' := by
  have hplain : ∀ {text : String}, Text.IsItem text → ∀ c ∈ text.toList, c ≠ '*' := by
    rintro text htext c hc rfl
    exact absurd (htext.continuesName.2 _ hc) (by decide)
  have hsymbols : ∀ c ∈ (" | ".intercalate (Mode.symbols ⟨name, choices, none⟩)).toList, c ≠ '*' := by
    apply forall_intercalate
    · simp
    · rintro symbol hsymbol c hc
      obtain ⟨choice, hchoice, rfl⟩ := List.mem_map.mp hsymbol
      simp only [Mode.symbol, toList_append, mem_append] at hc
      rcases hc with (hc | hc) | hc
      · exact hplain (.inl hname) c hc
      · obtain rfl : c = '_' := by simpa using hc
        decide
      · exact hplain (hchoices choice hchoice) c hc
  refine ⟨name ++ ": " ++ " | ".intercalate (Mode.symbols ⟨name, choices, none⟩) ++ " ", ?_, fun c hc => ?_⟩
  · simp only [String.append_assoc]
    rfl
  · simp only [toList_append, mem_append] at hc
    rcases hc with ((hc | hc) | hc) | hc
    · exact hplain (.inl hname) c hc
    · rcases (by simpa using hc : c = ':' ∨ c = ' ') with rfl | rfl <;> decide
    · exact hsymbols c hc
    · obtain rfl : c = ' ' := by simpa using hc
      decide

theorem structureType_prints {name : String} (htypes : ∀ entry ∈ c.types, Text.IsType entry.2)
    (hname : Text.IsType name) (hmembers : ∀ m ∈ body, m.statement.Named)
    (h : structureType name body c = some (pieces, c')) :
    Leaf options counters (.mk (.structType name) place body) c c' pieces := by
  match body, h with
  | [], h => cases h
  | _ :: _ :: _, h => cases h
  | [.mk t place' inner], h =>
    have htypes' : ∀ entry ∈ c.types.register name, Text.IsType entry.2 :=
      forall_register htypes hname
    have hnamed : t.Named := hmembers _ mem_cons_self
    -- both kinds of members give one line that names a type
    have hleaf : ∀ line, CLine.event? line = none → t.opensBlock = false →
        Says options c (.mk (.structType name) place [.mk t place' inner]) [.line line] →
        say line { c with types := c.types.register name } = some (pieces, c') →
        Leaf options counters (.mk (.structType name) place [.mk t place' inner]) c c' pieces := by
      intro line hevent hclosed hwording hsay
      cases hsay
      refine ⟨.inr ⟨name, _, rfl, rfl, hclosed⟩, rfl, rfl, ?_, rfl, hwording⟩
      rw [Piece.allEvents, Piece.events, hevent]
      rfl
    unfold structureType structureMember at h
    dsimp only [Node.statement] at h
    split at h
    · refine hleaf _ ?_ rfl .named h
      rw [typedef_struct]
      exact event?_typedef (Text.isWord_of_all rfl) hname.word (by simp; decide)
    · next typeName element dimension dimensions isMutable =>
      obtain ⟨_, hguard, h⟩ := bind_eq_some_iff.mp h
      obtain ⟨type, htype, h⟩ := bind_eq_some_iff.mp h
      obtain ⟨hword, -⟩ := forall_resolve (P := Text.IsType) htypes' htype
      have harray : typeName = arrayTypeName := (guard_eq_some' _).mp hguard
      refine hleaf _ ?_ rfl (harray ▸ .array (eq_ok_of_toOption htype)) h
      exact event?_typedef hword.word hname.word type.stops_suffix
    · cases h

theorem forLoop_prints {start stop : List Token} {inner : Printer}
    (hproper : (Statement.forLoop start stop).Proper) (hnamed : (Statement.forLoop start stop).Named)
    (hpool : c.pool.Holds counters) (h : forLoop start stop inner c = some (pieces, c')) :
    ∃ first last ps, inner first = some (ps, last) ∧
      Around counters (.mk (.forLoop start stop) place body) c c' pieces outer none first last ps := by
  obtain ⟨⟨t, rest, rfl, hword⟩, hloop, hrun, -⟩ := hproper
  have hcounter : nameText (Statement.iterator? (t :: rest)) = t.raw := by
    simp [Statement.iterator?, hword, nameText]
  have hstarts : CLine.Starts t.raw (Expression.render (t :: rest)) :=
    starts_render rfl hword hloop (fun u hu => (hrun.2 u hu).1) hnamed
  have htail : ∀ last : String, ("; " ++ t.raw ++ " <= " ++ last ++ "; " ++ t.raw ++ "++)").toList.head? =
      some ';' := by simp
  have hlacks : c.sight.scope.lacks (.forLoop (t :: rest) stop) =
      (c.scope.lookup (Statement.iterator? (t :: rest))).isNone := rfl
  unfold forLoop at h
  dsimp only at h
  rw [hcounter] at h
  have hown : ∀ found, c.scope.lookup (Statement.iterator? (t :: rest)) = found →
      (Statement.forLoop (t :: rest) stop).event? c.scope.lookup counters =
        if found.isSome then some (.opens [] (some t.raw)) else some (.opens [t.raw] none) := by
    rintro found rfl
    simp only [Statement.event?, hcounter]
  cases hfound : c.scope.lookup (Statement.iterator? (t :: rest)) with
  | some b =>
    simp only [hfound] at h
    obtain ⟨⟨ps, last⟩, hinner, h⟩ := bind_eq_some_iff.mp h
    obtain ⟨rfl, rfl⟩ := Prod.mk.inj (Option.some.inj h)
    have hkept : c.sight.scope.lacks (.forLoop (t :: rest) stop) = false := by rw [hlacks, hfound]; rfl
    refine ⟨c, last, ps, hinner, rfl, rfl, rfl, rfl, ?_, ?_, hpool, id, ?_, ⟨rfl, rfl⟩,
      .braces (hcounter ▸ .loop hfound)⟩
    · simp only [Node.statement, Sight.entering, hkept]
      rfl
    · simp only [Node.statement, Sight.leaving, hkept]
      rfl
    · have hevent := hown _ hfound
      simp only [Node.statement, hevent, Piece.allEvents, Piece.events, event?_loop hstarts (htail _)]
      simp [NameEvent.isOpening]
  | none =>
    simp only [hfound] at h
    obtain ⟨⟨inside, after⟩, hinside, h⟩ := bind_eq_some_iff.mp h
    cases h
    obtain ⟨⟨ps, last⟩, hinner, hinside⟩ := bind_eq_some_iff.mp hinside
    obtain ⟨rfl, rfl⟩ := Prod.mk.inj (Option.some.inj hinside)
    have hdropped : c.scope.lacks (.forLoop (t :: rest) stop) = true := hlacks.trans (by rw [hfound]; rfl)
    refine ⟨_, last, ps, hinner, rfl, rfl, rfl, rfl, ?_, ?_, hpool, id, ?_, ⟨rfl, rfl⟩,
      .braces (hcounter ▸ .declaringLoop hfound)⟩
    · simp only [Node.statement, Sight.entering, Context.sight, hdropped, if_true, isSome_declare]
    · simp only [Node.statement, Sight.leaving, Context.sight, hdropped, if_true, isSome_forget]
    · have hevent := hown _ hfound
      simp only [Node.statement, hevent, Piece.allEvents, Piece.events, event?_declaringLoop hstarts (htail _)]
      simp [NameEvent.isOpening]

theorem repeatLoop_prints {count : List Token} {inner : Printer} (hpool : c.pool.Holds counters)
    (h : repeatLoop count inner c = some (pieces, c')) :
    ∃ first last ps, inner first = some (ps, last) ∧
      Around counters (.mk (.repeatLoop count) place body) c c' pieces outer none first last ps := by
  obtain ⟨⟨counter, pool⟩, htaken, h⟩ := bind_eq_some_iff.mp h
  obtain ⟨⟨inside, last⟩, hinside, h⟩ := bind_eq_some_iff.mp h
  obtain ⟨⟨ps, last'⟩, hinner, hinside⟩ := bind_eq_some_iff.mp hinside
  obtain ⟨rfl, rfl⟩ := Prod.mk.inj (Option.some.inj hinside)
  obtain ⟨after, hafter, h⟩ := bind_eq_some_iff.mp h
  obtain ⟨rfl, rfl⟩ := Prod.mk.inj (Option.some.inj h)
  obtain ⟨rfl, hholds⟩ := hpool.acquire htaken
  refine ⟨_, last', ps, hinner, rfl, rfl, rfl, rfl, rfl, rfl, hholds, fun hlast => ?_, ?_, ⟨rfl, rfl⟩,
    .braces (.countedLoop htaken)⟩
  · obtain ⟨given, hgiven, hholds'⟩ := TemporaryPool.Holds.release hlast
    rw [hgiven] at hafter
    obtain rfl : given = after := Option.some.inj hafter
    exact hholds'
  · rw [Piece.allEvents, Piece.events, event?_repeat (isWord_name counters)]
    simp [Piece.allEvents, Node.statement, Statement.event?, NameEvent.isOpening]

section

variable {inner : Option Mode → Printer} (hnamed : n.statement.Named) (hmembers : ∀ m ∈ n.body, m.statement.Named)
  (hproper : n.statement.Proper) (htypes : ∀ entry ∈ c.types, Text.IsType entry.2) (hpool : c.pool.Holds counters)
include hnamed hmembers hproper htypes hpool

theorem statement_prints (h : statement options n.statement n.body (inner none) (fun mode => inner (some mode)) c =
      some (pieces, c')) :
    Leaf options counters n c c' pieces ∨ ∃ how' first last ps, inner how' first = some (ps, last) ∧
      Around counters n c c' pieces how how' first last ps := by
  obtain ⟨s, place, body⟩ := n
  cases s with
  | comment text => exact .inl (comment_prints hnamed h)
  | declaration typeName names isMutable => exact .inl (declaration_prints htypes hnamed hproper h)
  | assignment name expression => exact .inl (assignment_prints hnamed h)
  | call name arguments => exact .inl (leaf_of_say rfl rfl (event?_call hnamed _).symm rfl .calls h)
  | pass =>
    have hwording : Says options c (.mk .pass place body) [.line Emission.todoMark] :=
      .remarks rfl (forall_mem_singleton.mpr ⟨_, rfl, by decide, @CLine.tokens_remark "TODO:" (by simp),
        fun hsplices => absurd hsplices (by decide)⟩)
    refine .inl (leaf_of_say rfl rfl ?_ rfl hwording h)
    exact (@CLine.event?_remark "TODO:" (by simp)).symm
  | returns expression =>
    exact .inl (leaf_of_say rfl rfl (event?_return _).symm rfl .returns h)
  | setMode mode choices =>
    cases h
    obtain ⟨text, hline, htext⟩ := setMode_line hnamed.1 hnamed.2
    refine .inl ⟨.inl rfl, rfl, rfl, ?_, rfl, .remarks rfl ?_⟩
    · rw [Piece.allEvents, Piece.events, hline, event?_starred htext]
      rfl
    · refine forall_mem_singleton.mpr ⟨_, rfl, by simp, hline ▸ tokens_starred htext, ?_⟩
      rw [hline, CLine.splices, toList_append, getLast?_append]
      intro hsplices
      cases hsplices
  | defaultMode mode choice =>
    obtain ⟨found, hvalid, h⟩ := bind_eq_some_iff.mp h
    cases h
    refine .inl ⟨.inl rfl, rfl, rfl, rfl, ?_, .defaults (eq_ok_of_toOption hvalid)⟩
    have hfound := (ModeRegistry.validate_ok hvalid).1
    cases hselected : found.current <;> simp [Node.statement, Statement.modesAfter, hfound, hselected]
  | defineMode mode choice =>
    obtain ⟨found, hvalid, h⟩ := bind_eq_some_iff.mp h
    cases h
    have hmodes : (Statement.defineMode mode choice).modesAfter c.modes =
        c.modes.put { found with current := some choice } := by
      simp [Statement.modesAfter, (ModeRegistry.validate_ok hvalid).1]
    refine .inl ⟨.inl rfl, rfl, rfl, ?_, hmodes.symm, .selects (eq_ok_of_toOption hvalid)⟩
    have hdefine : CLine.event? ("#define " ++ found.symbol choice) = none :=
      event?_of_directive rfl (by decide) _
    rw [Piece.allEvents_append, Piece.allEvents, Piece.events, hdefine]
    cases found.current with
    | none => rfl
    | some current =>
      have hundef : CLine.event? ("#undef " ++ found.symbol current) = none :=
        event?_of_directive rfl (by decide) _
      simp [Piece.allEvents, Piece.events, hundef, Node.statement, Statement.event?]
  | structType name => exact .inl (structureType_prints htypes hnamed hmembers h)
  | method name parameters returnType => cases h
  | ifThen condition =>
    exact .inr ⟨none, around_of_braced rfl rfl ⟨rfl, rfl, rfl, rfl⟩ hpool (event?_if _) rfl
      .ifThen h⟩
  | elseIf condition =>
    exact .inr ⟨none, around_of_braced rfl rfl ⟨rfl, rfl, rfl, rfl⟩ hpool (event?_elseIf _) rfl
      .elseIf h⟩
  | otherwise =>
    exact .inr ⟨none, around_of_braced rfl rfl ⟨rfl, rfl, rfl, rfl⟩ hpool event?_else rfl
      .otherwise h⟩
  | whileLoop condition =>
    exact .inr ⟨none, around_of_braced rfl rfl ⟨rfl, rfl, rfl, rfl⟩ hpool (event?_while _) rfl
      .whileLoop h⟩
  | forLoop start stop => exact .inr ⟨none, forLoop_prints hproper hnamed hpool h⟩
  | repeatLoop count => exact .inr ⟨none, repeatLoop_prints hpool h⟩
  | choose name =>
    obtain ⟨mode, hmode, h⟩ := bind_eq_some_iff.mp h
    refine .inr ⟨some mode, c, c', pieces, h, rfl, rfl, rfl, rfl, rfl, rfl, hpool, id, ?_, ⟨rfl, rfl⟩,
      .choose (eq_ok_of_toOption hmode)⟩
    simp [Node.statement, Statement.event?]
  | option name => cases h

theorem visit_prints (h : visit options how n inner c = some (pieces, c')) :
    Leaf options counters n c c' pieces ∨ ∃ how' first last ps, inner how' first = some (ps, last) ∧
      Around counters n c c' pieces how how' first last ps := by
  obtain ⟨s, place, body⟩ := n
  cases how with
  | none => exact statement_prints hnamed hmembers hproper htypes hpool h
  | some mode =>
    cases s with
    | option choice =>
      obtain ⟨_, hvalid, h⟩ := bind_eq_some_iff.mp h
      obtain ⟨⟨ps, last⟩, hinner, h⟩ := bind_eq_some_iff.mp h
      obtain ⟨rfl, rfl⟩ := Prod.mk.inj (Option.some.inj h)
      refine .inr ⟨none, c, last, ps, hinner, rfl, rfl, rfl, rfl, rfl, rfl, hpool, id, ?_, ⟨rfl, rfl⟩,
        .option rfl (eq_ok_of_toOption hvalid)⟩
      simp [Piece.allEvents, Piece.events, Node.statement, Statement.event?]
    | _ => exact statement_prints hnamed hmembers hproper htypes hpool h

end

/-! ### Blocks -/

/-- What is known at a position of a block while a program is printed: the variables are those that
static scoping finds, the types are words, there is a counter in use for each loop around, and the
modes are those after what has been passed. -/
structure Told (past : List Passed) (parent : List Nat) (index : Nat) (c : Context) : Prop where
  agrees : Agrees past parent index c.sight
  types : ∀ entry ∈ c.types, Text.IsType entry.2
  pool : c.pool.Holds (repeats past parent)
  modes : c.modes = Passed.modes past

section

variable {parent : List Nat} {index : Nat}

theorem Told.event? (h : Told past parent index c) (s : Statement) : Passed.event? past ⟨index :: parent, s⟩ =
      s.event? c.scope.lookup (repeats past parent) := by
  have hmeaning : CirOutline.resolve past parent = c.scope.lookup := by
    funext name
    exact (h.agrees.lookup name).symm
  rw [Passed.event?, h.agrees.not_isMember, ← hmeaning]
  rfl

theorem repeats_walk (n : Node) :
    repeats ((n.walk (index :: parent)).reverse ++ past) parent = repeats past parent :=
  repeats_append past fun _ hf => ⟨index, suffix_of_mem_walk (mem_reverse.mp hf)⟩

/-- What printing a block gives: the events of its statements, no blocks in named types, and what is
known after it. -/
structure Tells (past : List Passed) (parent : List Nat) (index : Nat) (walk : List Passed)
    (events : List NameEvent) (after : Nat) (pieces : List Piece) (c' : Context) : Prop where
  events : Piece.allEvents pieces = events
  members : ∀ x ∈ Passed.steps past walk, x.2.isMember x.1 = true → x.2.statement.opensBlock = false
  told : Told (walk.reverse ++ past) parent after c'

theorem Leaf.tells (hsane : Emission.Sane parent how (n :: ns)) (hnamed : n.statement.Named)
    (h : Told past parent index c) (hleaf : Leaf options (repeats past parent) n c c' pieces) :
    Tells past parent index (n.walk (index :: parent)) (n.events past (index :: parent)) (index + 1)
      pieces c' := by
  obtain ⟨s, location, body⟩ := n
  have htypes : ∀ entry ∈ c'.types, Text.IsType entry.2 := by
    have hsight : c'.types = (c.sight.after s).types := congrArg Sight.types hleaf.sight
    rw [hsight]
    cases s with
    | structType name => exact forall_register h.types hnamed
    | _ => exact h.types
  have hagrees : s.opensBlock = false ∨ s.isStructType = true →
      Agrees (⟨index :: parent, s⟩ :: past) parent (index + 1) c'.sight := by
    intro hs
    rw [hleaf.sight]
    exact h.agrees.after hs
  have hpool : ∀ news : List Passed, (∀ f ∈ news, ∃ j, (j :: parent) <:+ f.path) →
      c'.pool.Holds (repeats (news ++ past) parent) := by
    intro news hnews
    rw [repeats_append past hnews, hleaf.pool]
    exact h.pool
  have hmodes : c'.modes = s.modesAfter (Passed.modes past) := by rw [hleaf.modes, h.modes]; rfl
  have hown := hleaf.events
  rcases hleaf.closed with hclosed | ⟨name, member, hs, hmember, hclosed⟩
  · obtain rfl : body = [] := hsane.trim.1.1 hclosed
    refine ⟨?_, ?_, ?_, htypes, ?_, hmodes⟩
    · rw [hown, Node.events, h.event?, Statement.isOpening_event? (s := s) (.inl hclosed)]
      simp [allEvents, Node.statement]
    · intro x hx _
      obtain rfl := mem_singleton.mp hx
      exact hclosed
    · exact hagrees (.inl hclosed)
    · exact hpool [_] (forall_mem_singleton.mpr ⟨index, suffix_rfl⟩)
  · obtain rfl : s = .structType name := hs
    obtain rfl : body = [member] := hmember
    obtain ⟨t, place, inner⟩ := member
    obtain rfl : inner = [] := hsane.trim.1.2.1.1 hclosed
    have hmember : isMember (⟨index :: parent, .structType name⟩ :: past)
        ⟨0 :: index :: parent, t⟩ = true := by
      simp [isMember, Statement.isStructType]
    have hquiet : t.modesAfter (Passed.modes past) = Passed.modes past := by
      cases hleaf.wording with
      | remarks hn _ => cases hn
      | named | array _ => rfl
    refine ⟨?_, ?_, ?_, htypes, ?_, hmodes.trans hquiet.symm⟩
    · have hevent : Passed.event? (⟨index :: parent, .structType name⟩ :: past)
          ⟨0 :: index :: parent, t⟩ = none := by
        rw [Passed.event?, hmember, if_pos rfl]
      rw [hown, Node.events, h.event?, allEvents, Node.events, hevent]
      rfl
    · rw [show walk (index :: parent) (.mk (.structType name) location [.mk t place []]) =
          [⟨index :: parent, .structType name⟩, ⟨0 :: index :: parent, t⟩] from rfl]
      intro x hx hinside
      rcases mem_cons.mp hx with rfl | hx
      · exact absurd (hinside.symm.trans (h.agrees.not_isMember _)) (by decide)
      · obtain rfl := mem_singleton.mp hx
        exact hclosed
    · rw [hleaf.sight]
      exact h.agrees.after_struct hclosed
    · refine hpool [_, _] ?_
      rw [forall_mem_cons, forall_mem_singleton]
      exact ⟨⟨index, suffix_cons 0 _⟩, ⟨index, suffix_rfl⟩⟩

/-- Outside methods the statements do nothing to names but declare some. -/
def AllIdle (past : List Passed) (walk : List Passed) : Prop :=
  ∀ x ∈ Passed.steps past walk, x.2.Outside x.1 → x.2.Idle x.1

section

variable (h : Told past parent index c)
include h

theorem Told.inMethod_of_opens (hs : s.isMethod = false)
    (hopens : ∃ names target, s.event? c.scope.lookup (repeats past parent) = some (.opens names target))
    (hidle : Outside past ⟨index :: parent, s⟩ → Idle past ⟨index :: parent, s⟩) : InMethod past parent := by
  obtain ⟨names, target, hevent⟩ := hopens
  by_contra hnone
  have houtside : Outside past ⟨index :: parent, s⟩ := fun g hg hmethod hpath =>
    hnone ((h.agrees.fresh.inMethod_inside hs).mp ⟨g, hg, hmethod, hpath⟩)
  cases hidle houtside _ ((h.event? s).trans hevent)

theorem Told.inMethod_of_loop
    (hidle : Outside past ⟨index :: parent, s⟩ → Idle past ⟨index :: parent, s⟩) (hloop : s.counter? ≠ none) :
    c.sight.inMethod = true := by
  cases s with
  | forLoop start stop =>
    refine h.agrees.method.mpr (h.inMethod_of_opens rfl ?_ hidle)
    simp only [Statement.event?]
    split_ifs
    · exact ⟨_, _, rfl⟩
    · exact ⟨_, _, rfl⟩
  | _ => exact absurd rfl hloop

theorem Told.entering {inner : List Piece}
    (hidle : Outside past ⟨index :: parent, n.statement⟩ → Idle past ⟨index :: parent, n.statement⟩)
    (haround : Around (repeats past parent) n c c' pieces outer how first last inner) :
    Told (⟨index :: parent, n.statement⟩ :: past) (index :: parent) 0 first := by
  refine ⟨?_, ?_, ?_, ?_⟩
  · rw [haround.entering]
    exact h.agrees.entering_block haround.opens haround.unnamed haround.unmethod (h.inMethod_of_loop hidle)
  · have hsight : first.types = (c.sight.entering n.statement).types := congrArg Sight.types haround.entering
    rw [hsight, Sight.types_entering]
    exact h.types
  · rw [repeats_entering h.agrees.fresh]
    exact haround.taken
  · rw [haround.modes.1, h.modes]
    exact (haround.modesAfter_eq _).symm

theorem Around.tells {inner : List Piece}
    (haround : Around (repeats past parent) n c c' pieces outer how first last inner)
    (hblock : Tells (⟨index :: parent, n.statement⟩ :: past) (index :: parent) 0
      (walkAll (index :: parent) 0 n.body)
      (allEvents (⟨index :: parent, n.statement⟩ :: past) (index :: parent) 0 n.body)
      (0 + n.body.length) inner last) :
    Tells past parent index (n.walk (index :: parent)) (n.events past (index :: parent)) (index + 1)
      pieces c' := by
  obtain ⟨s, location, body⟩ := n
  have hnews := exists_suffix_of_walkAll (index :: parent) body
  refine ⟨?_, ?_, ?_, ?_, ?_, ?_⟩
  · rw [haround.events, Node.events, h.event?, hblock.events]
    rfl
  · rw [walk, Passed.steps, forall_mem_cons]
    refine ⟨fun hmember => ?_, hblock.members⟩
    exact absurd (hmember.symm.trans (h.agrees.not_isMember _)) (by decide)
  · rw [haround.leaving, reverse_walk]
    exact h.agrees.leaving_block hnews hblock.told.agrees haround.unmethod
  · have hsight : c'.types = (c.sight.leaving s last.sight).types := congrArg Sight.types haround.leaving
    rw [hsight, Sight.types_leaving]
    exact hblock.told.types
  · have hlast : last.pool.Holds (repeats ((walkAll (index :: parent) 0 body).reverse ++
        ⟨index :: parent, s⟩ :: past) (index :: parent)) := hblock.told.pool
    rw [repeats_append _ hnews, repeats_entering h.agrees.fresh] at hlast
    rw [repeats_walk]
    exact haround.given hlast
  · rw [haround.modes.2, hblock.told.modes, reverse_walk]
    rfl

end

/-! ### Printouts -/

theorem Heads.event? (h : Heads c s opening) (meaning : Option String → Option Binding) (counters : Nat) :
    ∃ names target, s.event? meaning counters = some (.opens names target) := by
  cases h with
  | loop _ | declaringLoop _ =>
    simp only [Statement.event?]
    split_ifs
    · exact ⟨_, _, rfl⟩
    · exact ⟨_, _, rfl⟩
  | _ => exact ⟨_, _, rfl⟩

abbrev AllLexical (ns : List Node) : Prop := ∀ s ∈ statements ns, s.Lexical ∧ s.Unreserved

/-- A node of a program that was read, at a position that printing comes to. -/
structure Stands (past : List Passed) (parent : List Nat) (index : Nat) (how : Option Mode) (n : Node)
    (c : Context) : Prop where
  told : Told past parent index c
  sane : Emission.Sane parent how [n]
  lexical : AllLexical [n]
  past : ∀ f ∈ past, f.statement.Named

theorem Stands.named (hn : Stands past parent index how n c) :
    ∀ s ∈ statements [n], s.Named := fun s hs =>
  Statement.named_of (hn.lexical s hs).1 (hn.lexical s hs).2

theorem Stands.named_own (hn : Stands past parent index how n c) : n.statement.Named :=
  (forall_statements.mp hn.named n mem_cons_self).1

/-- The nodes of a block from a position on become the pieces. -/
inductive Prints (options : Options) : (past : List Passed) → (parent : List Nat) → (index : Nat) →
    (how : Option Mode) → List Node → List Piece → Prop where
  | nil {past : List Passed} {parent : List Nat} {index : Nat} {how : Option Mode} :
      Prints options past parent index how [] []
  | leaf {past parent index how n ns c pieces rest} (hn : Stands past parent index how n c)
      (hwording : Says options c n pieces)
      (hrest : Prints options ((n.walk (index :: parent)).reverse ++ past) parent (index + 1) how ns rest) :
      Prints options past parent index how (n :: ns) (pieces ++ rest)
  | block {past parent index how how' n ns c inner pieces rest} (hn : Stands past parent index how n c)
      (hwraps : Wraps c how how' n.statement inner pieces)
      (hmethod : ∀ opening, Heads c n.statement opening → InMethod past parent)
      (hinner : Prints options (⟨index :: parent, n.statement⟩ :: past) (index :: parent) 0 how' n.body inner)
      (hrest : Prints options ((n.walk (index :: parent)).reverse ++ past) parent (index + 1) how ns rest) :
      Prints options past parent index how (n :: ns) (pieces ++ rest)

/-- The top-level nodes from a position on become a header and definitions. -/
inductive PrintsProgram (options : Options) : (past : List Passed) → (index : Nat) → List Node →
    (header definitions : List Piece) → Prop where
  | nil {past : List Passed} {index : Nat} : PrintsProgram options past index [] [] []
  | method {past index name parameters returnType place body ns c inside head inner header definitions}
      (hn : Stands past [] index none (.mk (.method name parameters returnType) place body) c)
      (hhead : signature name parameters returnType c = some (head, inside))
      (hinner : Prints options (⟨[index], .method name parameters returnType⟩ :: past) [index] 0 none body inner)
      (hrest : PrintsProgram options
        (((mk (.method name parameters returnType) place body).walk [index]).reverse ++ past)
        (index + 1) ns header definitions) :
      PrintsProgram options past index (.mk (.method name parameters returnType) place body :: ns)
        (.line (head ++ ";") :: header) (.braces head inner :: definitions)
  | other {past index n ns pieces header definitions} (hmethod : n.statement.isMethod = false)
      (hnode : Prints options past [] index none [n] pieces)
      (hrest : PrintsProgram options ((n.walk [index]).reverse ++ past) (index + 1) ns header definitions) :
      PrintsProgram options past index (n :: ns) (pieces ++ header) definitions

theorem named_cons {path : List Nat} (hpast : ∀ f ∈ past, f.statement.Named) (hn : AllLexical [n]) :
    ∀ f ∈ (⟨path, n.statement⟩ : Passed) :: past, f.statement.Named :=
  have hown := (forall_statements.mp hn n mem_cons_self).1
  forall_mem_cons.mpr ⟨Statement.named_of hown.1 hown.2, hpast⟩

theorem named_walk (hpast : ∀ f ∈ past, f.statement.Named) (hn : AllLexical [n]) :
    ∀ f ∈ (n.walk (index :: parent)).reverse ++ past, f.statement.Named := by
  rw [forall_mem_append]
  refine ⟨fun f hf => ?_, hpast⟩
  have hown := hn f.statement (statement_mem_of_walk (mem_reverse.mp hf))
  exact Statement.named_of hown.1 hown.2

theorem lexical_body (h : AllLexical [n]) : AllLexical n.body := (forall_statements.mp h n mem_cons_self).2

theorem steps_walk (past : List Passed) (n : Node) (ns : List Node) (parent : List Nat) (index : Nat) :
    Passed.steps past (walkAll parent index (n :: ns)) = Passed.steps past (n.walk (index :: parent)) ++
        Passed.steps ((n.walk (index :: parent)).reverse ++ past) (walkAll parent (index + 1) ns) := by
  rw [walkAll, steps_append]

/-- What is known in front of a block that is printed says what its statements do to names, and the
printout is that of its nodes. -/
def BlockTells (options : Options) (past : List Passed) (parent : List Nat) (index : Nat) (how : Option Mode)
    (ns : List Node) : Prop :=
  ∀ {c c' : Context} {pieces : List Piece}, Told past parent index c →
    block options how ns c = some (pieces, c') →
    Prints options past parent index how ns pieces ∧ Tells past parent index (walkAll parent index ns)
      (allEvents past parent index ns) (index + ns.length) pieces c'

theorem visit_tells (hsane : Emission.Sane parent how (n :: ns))
    (hlexical : AllLexical [n]) (hpast : ∀ f ∈ past, f.statement.Named)
    (hidle : AllIdle past (n.walk (index :: parent))) (h : Told past parent index c)
    (hrun : visit options how n (fun how' => block options how' n.body) c = some (pieces, c'))
    (hbody : ∀ how', Emission.Sane (index :: parent) how' n.body →
      BlockTells options (⟨index :: parent, n.statement⟩ :: past) (index :: parent) 0 how' n.body) :
    (∀ {ns : List Node} {rest : List Piece},
      Prints options ((n.walk (index :: parent)).reverse ++ past) parent (index + 1) how ns rest →
      Prints options past parent index how (n :: ns) (pieces ++ rest)) ∧
    Tells past parent index (n.walk (index :: parent)) (n.events past (index :: parent)) (index + 1)
      pieces c' := by
  have hn : Stands past parent index how n c := ⟨h, hsane.head, hlexical, hpast⟩
  obtain ⟨s, location, body⟩ := n
  have hnamed := hn.named
  rw [forall_statements_cons] at hnamed
  have hmembers : ∀ m ∈ body, m.statement.Named := fun m hm =>
    (forall_statements.mp hnamed.2.1 m hm).1
  rcases visit_prints (n := .mk s location body) hnamed.1 hmembers hsane.readable.1.proper h.types h.pool
    hrun with hleaf | ⟨how', first, last, ps, hblock, haround⟩
  · exact ⟨.leaf hn hleaf.wording, hleaf.tells hsane hnamed.1 h⟩
  · have hown := hidle (past, ⟨index :: parent, s⟩) mem_cons_self
    obtain ⟨hinner, htells⟩ := hbody how' (hsane.body index haround.reader) (h.entering hown haround) hblock
    refine ⟨.block hn haround.wraps (fun _ hhead => ?_) hinner, haround.tells h htells⟩
    exact h.inMethod_of_opens (by cases hhead <;> rfl) (hhead.event? _ _) hown

theorem block_tells (ns : List Node) : ∀ {how : Option Mode} {parent : List Nat} {index : Nat}
    {past : List Passed}, Emission.Sane parent how ns → AllLexical ns → (∀ f ∈ past, f.statement.Named) →
      AllIdle past (walkAll parent index ns) →
    BlockTells options past parent index how ns := by
  induction ns using forest_induction with
  | nil =>
    intro how parent index past _ _ _ _ c c' pieces h hrun
    rw [block_nil] at hrun
    cases hrun
    exact ⟨.nil, rfl, fun x hx => (not_mem_nil hx).elim, h⟩
  | cons s location body ns ihbody ihns =>
    intro how parent index past hsane hlexical hpast hidle c c' pieces h hrun
    rw [block_cons] at hrun
    obtain ⟨⟨before, c1⟩, hbefore, hrun⟩ := bind_eq_some_iff.mp hrun
    obtain ⟨⟨after, c2⟩, hafter, hrun⟩ := bind_eq_some_iff.mp hrun
    cases hrun
    rw [AllLexical, statements_split, forall_mem_append] at hlexical
    rw [AllIdle, steps_walk, forall_mem_append] at hidle
    obtain ⟨hone, hlater⟩ := hlexical
    obtain ⟨hfirst, hidle⟩ := hidle
    obtain ⟨hprints, htells⟩ := visit_tells hsane hone hpast hfirst h hbefore fun how' hsane' =>
      ihbody hsane' (lexical_body hone) (named_cons hpast hone) (forall_mem_cons.mp hfirst).2
    obtain ⟨hrest, hthen⟩ := ihns hsane.tail hlater (named_walk hpast hone) hidle htells.told hafter
    refine ⟨hprints hrest, ?_, ?_, ?_⟩
    · rw [Piece.allEvents_append, htells.events, hthen.events, allEvents]
    · rw [steps_walk, forall_mem_append]
      exact ⟨htells.members, hthen.members⟩
    · have htold := hthen.told
      rw [← List.append_assoc, ← reverse_append] at htold
      rw [walkAll, length_cons, show index + (ns.length + 1) = index + 1 + ns.length by omega]
      exact htold

/-! ### Programs -/

theorem isType_void : Text.IsType CType.void := by
  refine ⟨Text.isWord_of_all rfl, ?_⟩
  rintro ⟨k, hk⟩
  cases k <;> exact absurd hk (by decide)

theorem isType_resultType {result : String} (htypes : ∀ entry ∈ c.types, Text.IsType entry.2)
    (h : resultType returnType c = some result) :
    Text.IsType result := by
  unfold resultType at h
  split at h
  · obtain rfl := Option.some.inj h
    exact isType_void
  · split_ifs at h
    · obtain rfl := Option.some.inj h
      exact isType_void
    · obtain ⟨type, htype, rfl⟩ := map_eq_some_iff.mp h
      exact (forall_resolve htypes htype).1

/-- The types that a table gives to parameters. -/
def Resolved (table : TypeTable) (parameters : List Parameter) (types : List CType) : Prop :=
  Forall₂ (fun p type => (table.resolve p.typeName p.dimensions).toOption = some type) parameters types

theorem resolved_of_mapM {table : TypeTable} {types : List CType}
    (h : parameters.mapM (fun p => (table.resolve p.typeName p.dimensions).toOption) = some types) :
    Resolved table parameters types := by
  induction parameters generalizing types with
  | nil =>
    obtain rfl := Option.some.inj h
    exact .nil
  | cons p parameters ih =>
    rw [mapM_cons] at h
    obtain ⟨type, htype, h⟩ := bind_eq_some_iff.mp h
    obtain ⟨others, hothers, h⟩ := bind_eq_some_iff.mp h
    obtain rfl := Option.some.inj h
    exact .cons htype (ih hothers)

theorem of_signature {name head : String} {inside : Context}
    (h : signature name parameters returnType c = some (head, inside)) :
    ∃ types result, Resolved c.types parameters types ∧ resultType returnType c = some result ∧
      head = Printer.head result name (parameters.zip types) ∧
      inside = { c with
        scope := (parameters.zip types).foldl (fun scope x => scope.declare ⟨some x.1.name, x.2, true⟩)
          c.scope.enterMethod } := by
  obtain ⟨types, htypes, h⟩ := bind_eq_some_iff.mp h
  obtain ⟨result, hresult, h⟩ := bind_eq_some_iff.mp h
  obtain ⟨rfl, rfl⟩ := Prod.mk.inj (Option.some.inj h)
  exact ⟨types, result, resolved_of_mapM htypes, hresult, rfl, rfl⟩

theorem Resolved.isEmpty_eq {table : TypeTable} {types : List CType} (h : Resolved table parameters types) :
    (parameters.zip types).isEmpty = parameters.isEmpty := by
  cases h <;> rfl

theorem parameters_declared {table : TypeTable} (hwords : ∀ entry ∈ table, Text.IsType entry.2)
    {types : List CType}
    (hparameters : ∀ p ∈ parameters, Text.IsWord p.name ∧ ∀ d ∈ p.dimensions, Text.IsItem d)
    (htypes : Resolved table parameters types) :
    (∀ x ∈ parameters.zip types, CLine.Declarable x) ∧
      (parameters.zip types).map (fun x => x.1.name) = parameters.map Parameter.name ∧
      (parameters.zip types).map (fun x => (⟨some x.1.name, x.2, true⟩ : Binding)) =
        parameters.filterMap fun p => (table.resolve p.typeName p.dimensions).toOption.map fun type =>
          ⟨some p.name, type, true⟩ := by
  induction htypes with
  | nil => exact ⟨by simp, rfl, rfl⟩
  | cons htype _ ih =>
    rw [forall_mem_cons] at hparameters
    obtain ⟨hall, hnames, hbindings⟩ := ih hparameters.2
    obtain ⟨htypeword, hdimensions⟩ := forall_resolve hwords htype
    rw [zip_cons_cons, forall_mem_cons, map_cons, map_cons, map_cons, hnames, hbindings]
    refine ⟨⟨⟨htypeword.word, hparameters.1.1, ?_⟩, hall⟩, rfl, ?_⟩
    · rw [hdimensions]
      exact hparameters.1.2
    · simp only [filterMap_cons, htype, map_some]

theorem signature_tells {name : String} {head : String} {inside : Context} (h : Told past [] index c)
    (hnamed : (Statement.method name parameters returnType).Named)
    (hsignature : signature name parameters returnType c = some (head, inside)) :
    CLine.event? (head ++ " \x7b") = some (.opens (parameters.map Parameter.name) none) ∧
      CLine.event? (head ++ ";") = none ∧
      Told (⟨[index], .method name parameters returnType⟩ :: past) [index] 0 inside := by
  obtain ⟨types, result, htypes, hresult, rfl, rfl⟩ := of_signature hsignature
  have hword : Text.IsType result := isType_resultType h.types hresult
  obtain ⟨hname, hparameters⟩ := hnamed
  obtain ⟨hall, hnames, hbindings⟩ := parameters_declared h.types hparameters htypes
  refine ⟨?_, event?_prototype hword hname hall, ?_, h.types, ?_, h.modes⟩
  · rw [event?_method hword hname hall, hnames]
  · have hscope : (parameters.zip types).foldl (fun scope (x : Parameter × CType) =>
        scope.declare ⟨some x.1.name, x.2, true⟩) c.scope.enterMethod =
        ((Statement.method name parameters returnType).bindings c.types).foldl declare
          c.scope.enterMethod := by
      rw [Statement.bindings, ← hbindings, foldl_map]
    have hsight : Context.sight { c with scope := (parameters.zip types).foldl (fun scope
        (x : Parameter × CType) => scope.declare ⟨some x.1.name, x.2, true⟩) c.scope.enterMethod } =
        c.sight.entering (.method name parameters returnType) := by
      simp only [Context.sight, hscope, isSome_foldl_declare]
      rfl
    have hentering := h.agrees.entering_method (s := .method name parameters returnType) rfl
    rw [← hsight] at hentering
    exact hentering
  · have hrepeats := repeats_entering h.agrees.fresh (.method name parameters returnType)
    rw [hrepeats]
    exact h.pool

theorem Told.after_method {name : String} (place : Option Location) {count : Nat} (h : Told past [] index c)
    (hlast : Told ((walkAll [index] 0 body).reverse ++ ⟨[index], .method name parameters returnType⟩ :: past)
      [index] count last) :
    Told (((Node.mk (.method name parameters returnType) place body).walk [index]).reverse ++ past) []
      (index + 1) { last with scope := last.scope.exitMethod } := by
  have hnews := exists_suffix_of_walkAll [index] body
  have hinside := hlast.pool
  rw [repeats_append _ hnews, repeats_entering h.agrees.fresh] at hinside
  refine ⟨?_, hlast.types, ?_, ?_⟩
  · rw [reverse_walk]
    exact h.agrees.leaving_method (s := .method name parameters returnType) hnews hlast.agrees rfl
  · rw [repeats_walk]
    exact hinside
  · rw [reverse_walk]
    exact hlast.modes

end

/-- What the top-level nodes from a position on do to names: the methods, or the other ones. -/
def topEvents (methods : Bool) (past : List Passed) (index : Nat) : List Node → List NameEvent
  | [] => []
  | n :: ns =>
    (if n.statement.isMethod == methods then n.events past [index] else []) ++
      topEvents methods ((n.walk [index]).reverse ++ past) (index + 1) ns

theorem program_tells (forest : List Node) : ∀ {index : Nat} {past : List Passed} {c c' : Context}
    {header definitions : List Piece}, Emission.Sane [] none forest → AllLexical forest →
    (∀ f ∈ past, f.statement.Named) → AllIdle past (walkAll [] index forest) → Told past [] index c →
    program options forest c = some (header, definitions, c') →
    PrintsProgram options past index forest header definitions ∧
      Piece.allEvents header = topEvents false past index forest ∧
      Piece.allEvents definitions = topEvents true past index forest ∧
      ∀ x ∈ Passed.steps past (walkAll [] index forest), x.2.isMember x.1 = true →
        x.2.statement.opensBlock = false := by
  induction forest with
  | nil =>
    intro index past c c' header definitions _ _ _ _ _ hrun
    cases hrun
    exact ⟨.nil, rfl, rfl, fun x hx => (not_mem_nil hx).elim⟩
  | cons n rest ih =>
    obtain ⟨s, location, body⟩ := n
    intro index past c c' header definitions hsane hlexical hpast hidle h hrun
    rw [AllLexical, statements_split, forall_mem_append] at hlexical
    rw [AllIdle, steps_walk, forall_mem_append] at hidle
    obtain ⟨hone, hlater⟩ := hlexical
    obtain ⟨hfirst, hidle⟩ := hidle
    have hpast' : ∀ f ∈ (Node.walk [index] (.mk s location body)).reverse ++ past, f.statement.Named :=
      named_walk hpast hone
    have hblocks : ∀ how', Emission.Sane [index] how' body →
        BlockTells options (⟨[index], s⟩ :: past) [index] 0 how' body := fun how' hsane' =>
      block_tells body hsane' (lexical_body hone) (named_cons hpast hone) (forall_mem_cons.mp hfirst).2
    rw [steps_walk, topEvents, topEvents]
    unfold program at hrun
    split at hrun
    · next name parameters returnType =>
      obtain ⟨⟨head, inside⟩, hhead, hrun⟩ := bind_eq_some_iff.mp hrun
      obtain ⟨⟨pieces, last⟩, hpieces, hrun⟩ := bind_eq_some_iff.mp hrun
      obtain ⟨⟨later, others, after⟩, hafter, hrun⟩ := bind_eq_some_iff.mp hrun
      cases hrun
      have hn : Stands past [] index none (.mk (.method name parameters returnType) location body) c :=
        ⟨h, hsane.head, hone, hpast⟩
      obtain ⟨hopening, hprototype, hinside⟩ := signature_tells h hn.named_own hhead
      obtain ⟨hinner, hblock⟩ := hblocks none (hsane.body index rfl) hinside hpieces
      obtain ⟨hprints, hheader, hdefinitions, hmembers⟩ :=
        ih hsane.tail hlater hpast' hidle (h.after_method location hblock.told) hafter
      have hevent : Passed.event? past ⟨[index], .method name parameters returnType⟩ =
          some (.opens (parameters.map Parameter.name) none) := h.event? _
      refine ⟨.method hn hhead hinner hprints, ?_, ?_, ?_⟩
      · rw [Piece.allEvents, Piece.events, hprototype, hheader]
        rfl
      · rw [Piece.allEvents, Piece.events, hopening, hblock.events, hdefinitions, events, hevent]
        rfl
      · rw [forall_mem_append, walk, Passed.steps, forall_mem_cons]
        refine ⟨⟨fun hmember => ?_, hblock.members⟩, hmembers⟩
        exact absurd (hmember.symm.trans (h.agrees.not_isMember _)) (by decide)
    · next hmethod =>
      obtain ⟨⟨pieces, last⟩, hpieces, hrun⟩ := bind_eq_some_iff.mp hrun
      obtain ⟨⟨later, others, after⟩, hafter, hrun⟩ := bind_eq_some_iff.mp hrun
      cases hrun
      obtain ⟨hnode, htells⟩ := visit_tells hsane hone hpast hfirst h hpieces hblocks
      obtain ⟨hprints, hheader, hdefinitions, hmembers⟩ :=
        ih hsane.tail hlater hpast' hidle htells.told hafter
      have hs : s.isMethod = false := by
        cases s with
        | method name parameters returnType => exact (hmethod name parameters returnType rfl).elim
        | _ => rfl
      refine ⟨.other hs (append_nil pieces ▸ hnode .nil) hprints, ?_, ?_, ?_⟩
      · rw [Piece.allEvents_append, htells.events, hheader]
        simp [Node.statement, hs]
      · rw [hdefinitions]
        simp [Node.statement, hs]
      · rw [forall_mem_append]
        exact ⟨htells.members, hmembers⟩

end Printer

/-! ### The two lists of lines -/

theorem Passed.of_mem_steps {past fs : List Passed} {x : List Passed × Passed} (h : x ∈ steps past fs) :
    x.2 ∈ fs ∧ ∀ g ∈ x.1, g ∈ fs ∨ g ∈ past := by
  induction fs generalizing past with
  | nil => cases h
  | cons f fs ih =>
    rcases mem_cons.mp h with rfl | h
    · exact ⟨mem_cons_self, fun g hg => .inr hg⟩
    · obtain ⟨hmem, hpast⟩ := ih h
      refine ⟨mem_cons_of_mem f hmem, fun g hg => ?_⟩
      rcases hpast g hg with hg | hg
      · exact .inl (mem_cons_of_mem f hg)
      · rcases mem_cons.mp hg with rfl | hg
        · exact .inl mem_cons_self
        · exact .inr hg

namespace Printer

/-- What has been passed stands before a position of the top level. -/
def Before (index : Nat) (past : List Passed) : Prop :=
  ∀ g ∈ past, g.path ≠ [] ∧ ∀ j, index ≤ j → ¬ [j] <:+ g.path

theorem Before.next {index : Nat} (h : Before index past) (n : Node) :
    Before (index + 1) ((n.walk [index]).reverse ++ past) := by
  intro g hg
  rcases mem_append.mp hg with hg | hg
  · have hpath := suffix_of_mem_walk (mem_reverse.mp hg)
    refine ⟨fun hnil => ?_, fun j hj => not_suffix_of_ne (i := index) (by omega) hpath⟩
    rw [hnil] at hpath
    exact Nat.not_succ_le_self _ hpath.length_le
  · exact ⟨(h g hg).1, fun j hj => (h g hg).2 j (by omega)⟩

theorem outside_of_walk {index : Nat} (h : Before index past)
    (hmethods : ∀ s ∈ statements [n], s.isMethod = false) :
    ∀ x ∈ Passed.steps past (n.walk [index]), x.2.Outside x.1 := by
  intro x hx g hg hmethod hpath
  have hwalk : ∀ f ∈ n.walk [index], f.statement.isMethod = false := fun f hf =>
    hmethods f.statement (statement_mem_of_walk hf)
  obtain ⟨hmem, hpast⟩ := of_mem_steps hx
  have hg : g ∈ n.walk [index] ∨ g ∈ past := by
    rcases mem_cons.mp hg with rfl | hg
    · exact .inl hmem
    · exact hpast g hg
  rcases hg with hg | hg
  · exact absurd (hmethod.symm.trans (hwalk g hg)) (by decide)
  · obtain ⟨hrooted, hfresh⟩ := h g hg
    rcases suffix_or_suffix_of_suffix hpath (suffix_of_mem_walk hmem) with hshort | hlong
    · rcases suffix_cons_iff.mp hshort with hsame | hnil
      · exact hfresh index (Nat.le_refl index) (hsame ▸ suffix_rfl)
      · exact hrooted (suffix_nil.mp hnil)
    · exact hfresh index (Nat.le_refl index) hlong

theorem filterMap_topEvents {β : Type} (g : NameEvent → Option β) (hcloses : g .closes = none)
    (hdeclares : ∀ names, g (.declares names) = none) (forest : List Node) : ∀ {index : Nat}
    {past : List Passed}, (∀ n ∈ forest, ∀ s ∈ statements n.body, s.isMethod = false) →
    Before index past → AllIdle past (walkAll [] index forest) →
    (topEvents false past index forest).filterMap g = [] ∧ (topEvents true past index forest).filterMap g =
        (Passed.steps past (walkAll [] index forest)).filterMap fun x => (x.2.event? x.1).bind g := by
  induction forest with
  | nil => intros; exact ⟨rfl, rfl⟩
  | cons n rest ih =>
    intro index past hmethods hbefore hidle
    rw [forall_mem_cons] at hmethods
    rw [AllIdle, steps_walk, forall_mem_append] at hidle
    obtain ⟨hheader, hcode⟩ := ih hmethods.2 (hbefore.next n) hidle.2
    have hevents : (n.events past [index]).filterMap g =
        (Passed.steps past (n.walk [index])).filterMap fun x => (x.2.event? x.1).bind g := by
      have hone := filterMap_allEvents g hcloses [n] past [] index
      simpa [allEvents, walkAll] using hone
    rw [topEvents, topEvents, filterMap_append, filterMap_append, hheader, hcode, steps_walk, filterMap_append]
    cases hmethod : n.statement.isMethod with
    | true => exact ⟨rfl, by rw [← hevents]; rfl⟩
    | false =>
      have hstatements : ∀ s ∈ statements [n], s.isMethod = false := by
        obtain ⟨s, location, body⟩ := n
        rw [forall_statements_cons]
        exact ⟨hmethod, hmethods.1, by simp [statements, listing]⟩
      -- outside methods every event is a declaration
      have hquiet : (Passed.steps past (n.walk [index])).filterMap
          (fun x => (x.2.event? x.1).bind g) = [] := by
        rw [filterMap_eq_nil_iff]
        intro x hx
        have hdeclares' := hidle.1 x hx (outside_of_walk hbefore hstatements x hx)
        cases hevent : x.2.event? x.1 with
        | none => rfl
        | some event =>
          have hdeclaration := hdeclares' event hevent
          cases event with
          | declares names => exact hdeclares names
          | _ => cases hdeclaration
      rw [hquiet]
      refine ⟨?_, by simp⟩
      rw [beq_self_eq_true, if_pos rfl, hevents, hquiet]
      rfl

end Printer

/-! ### Emissions -/

theorem readProgram_named {lines : List String} {program : Program} (htokens : tokenize source file = .ok tokens)
    (hread : readProgram tokens file lines = .ok program) : ∀ s ∈ statements program.nodes, s.Named := by
  intro s hs
  obtain ⟨hlexical, hunreserved⟩ := readProgram_names htokens hread s hs
  exact Statement.named_of hlexical hunreserved

theorem Statement.worded_of_named (h : s.Named) : s.Worded := by
  cases s with
  | assignment name expression | structType name => exact h.word.startsWord
  | call name arguments => exact Text.IsWord.startsWord h
  | _ => trivial

theorem Emitter.worded_start (pool : TemporaryPool) (lines : List String) :
    (start pool lines).context.types.Worded := by
  change Worded TypeTable.builtin
  simp only [Worded, TypeTable.builtin, forall_mem_cons]
  exact ⟨by decide, by decide, fun entry hentry => (not_mem_nil hentry).elim⟩

theorem Options.emitter_start {start : Emitter} {lines : List String} (h : options.emitter lines = .ok start) :
    ∃ pool, start = Emitter.start pool lines ∧ start.Sound ∧ pool.Holds 0 := by
  unfold Options.emitter at h
  cases hcreate : create options.poolSize with
  | error b =>
    rw [hcreate] at h
    cases h
  | ok pool =>
    rw [hcreate] at h
    cases h
    obtain ⟨-, hcapacity, hslots⟩ := create_spec hcreate
    refine ⟨pool, rfl, ⟨⟨?_, ?_⟩, hcapacity⟩, hcapacity, fun index => ?_⟩
    · simp [Emitter.start, empty]
    · simp [Emitter.start, empty]
    · simp [uses, hslots]

/-- The program of a source text, with what its emission leads to. -/
def emitted? (options : Options) (source file : String) : Option (Program × String × Emitter) := do
  let tokens ← (tokenize source file).toOption
  let program ← (readProgram tokens file []).toOption
  let start ← options.emitter.toOption
  let output ← (emitProgram start options program.nodes).1.toOption
  some (program, output, (emitProgram start options program.nodes).2)

theorem exists_emitted {Q : Program → String → Emitter → Prop}
    (P : Program → String → Emitter → Prop) [∀ program output e, Decidable (P program output e)]
    (h : ((emitted? options source file).any fun r => decide (P r.1 r.2.1 r.2.2)) = true)
    (hfollows : ∀ {tokens program start output e}, tokenize source file = .ok tokens →
      readProgram tokens file [] = .ok program → options.emitter = .ok start →
      emitProgram start options program.nodes = (.ok output, e) → P program output e → Q program output e) :
    ∃ tokens program start output e, tokenize source file = .ok tokens ∧
      readProgram tokens file [] = .ok program ∧ options.emitter = .ok start ∧
      emitProgram start options program.nodes = (.ok output, e) ∧ Q program output e := by
  obtain ⟨r, h, hr⟩ := (Option.any_eq_true _ _).mp h
  obtain ⟨tokens, htokens, h⟩ := bind_eq_some_iff.mp h
  obtain ⟨program, hread, h⟩ := bind_eq_some_iff.mp h
  obtain ⟨start, hstart, h⟩ := bind_eq_some_iff.mp h
  obtain ⟨output, houtput, h⟩ := bind_eq_some_iff.mp h
  cases h
  have hrun : emitProgram start options program.nodes = (.ok output, (emitProgram start options program.nodes).2) :=
    Prod.ext (eq_ok_of_toOption houtput) rfl
  exact ⟨tokens, program, start, output, _, eq_ok_of_toOption htokens, eq_ok_of_toOption hread,
    eq_ok_of_toOption hstart, hrun, hfollows (eq_ok_of_toOption htokens) (eq_ok_of_toOption hread)
      (eq_ok_of_toOption hstart) hrun (of_decide_eq_true hr)⟩

theorem emitProgram_ends (options : Options) (start : Emitter) (forest : List Node) :
    Ends (Emission.block options none forest) start (fun _ e => (emitProgram start options forest).2 = e ∧
        ∀ stop, (emitProgram start options forest).1 = .error stop →
          stop = .diagnosed ⟨.groupsLeftOpen e.groups, none, none⟩)
      fun stop e => emitProgram start options forest = (.error stop, e) := by
  cases hrun : Emission.block options none forest start with
  | error stop e =>
    refine Ends.of_error hrun ?_
    have hprogram : Emission.program options forest start = .error stop e := bind_of_error hrun
    rw [emitProgram, hprogram]
  | ok _ e =>
    refine Ends.of_ok hrun ?_
    have hprogram : Emission.program options forest start =
        (if e.groups != 0 then Emission.failBare (.groupsLeftOpen e.groups) none
          else pure (e.output options.includes) : Emission String) e := bind_of_ok hrun
    rw [emitProgram, hprogram]
    split_ifs
    · exact ⟨rfl, fun stop hstop => (Except.error.inj hstop).symm⟩
    · refine ⟨rfl, fun stop hstop => ?_⟩
      cases hstop

theorem emitProgram_block {start : Emitter} {forest : List Node} {output : String}
    (h : emitProgram start options forest = (.ok output, e)) :
    Emission.block options none forest start = .ok () e := by
  have hprogram : Emission.program options forest start = .ok output e := by
    unfold emitProgram at h
    split at h
    · next text e' hrun =>
      cases h
      exact hrun
    · cases h
  obtain ⟨_, e', hnodes, hrest⟩ := exists_of_bind_ok hprogram
  rw [get_bind] at hrest
  split_ifs at hrest
  · cases hrest
  · cases hrest
    exact hnodes

theorem TypeTable.isType_builtin : ∀ entry ∈ builtin, Text.IsType entry.2 := by
  have hint : Text.IsType "int" := by
    refine ⟨Text.isWord_of_all rfl, ?_⟩
    rintro ⟨k, hk⟩
    cases k <;> exact absurd hk (by decide)
  have hbyte : Text.IsType "uint8_t" := by
    refine ⟨Text.isWord_of_all rfl, ?_⟩
    rintro ⟨k, hk⟩
    cases k <;> exact absurd hk (by decide)
  rw [builtin, forall_mem_cons, forall_mem_singleton]
  exact ⟨hint, hbyte⟩

theorem Printer.Told.start {pool : TemporaryPool} {lines : List String} (hpool : pool.Holds 0) :
    Told [] [] 0 (Emitter.start pool lines).context :=
  ⟨Agrees.start pool, isType_builtin, hpool, rfl⟩

/-- What the lines of an emission do to names: in the header what the statements outside methods do,
which is nothing but declaring, in the code what the methods do. -/
structure Foretold (nodes : List Node) (e : Emitter) : Prop where
  header : e.header.filterMap CLine.event? = Printer.topEvents false [] 0 nodes
  code : e.code.filterMap CLine.event? = Printer.topEvents true [] 0 nodes
  idle : Printer.AllIdle [] (walkAll [] 0 nodes)
  members : ∀ x ∈ Passed.steps [] (walkAll [] 0 nodes), x.2.isMember x.1 = true →
    x.2.statement.opensBlock = false

theorem emitProgram_foretold {lines : List String} {program : Program} {start : Emitter} {output : String}
    (htokens : tokenize source file = .ok tokens) (hread : readProgram tokens file lines = .ok program)
    (hstart : options.emitter lines = .ok start)
    (hrun : emitProgram start options program.nodes = (.ok output, e)) :
    Foretold program.nodes e := by
  have hsane := Emission.sane_of_read hread
  obtain ⟨pool, rfl, hsound, hpool⟩ := Options.emitter_start hstart
  obtain ⟨hmethods, -⟩ := readProgram_statements htokens hread
  obtain ⟨header, definitions, hprinter, -, hheader, hcode, -⟩ := emitProgram_wrote hmethods hrun
  have hlexical := readProgram_names htokens hread
  have hidle : Printer.AllIdle [] (walkAll [] 0 program.nodes) :=
    Emission.block_idle program.nodes hsane hsound (Agrees.start pool) (emitProgram_block hrun)
  obtain ⟨-, hheaderEvents, hcodeEvents, hmembers⟩ := Printer.program_tells program.nodes hsane hlexical
    (forall_mem_nil _) hidle (Printer.Told.start hpool) hprinter
  refine ⟨?_, ?_, hidle, hmembers⟩
  · rw [hheader, Piece.filterMap_event?_allLines, hheaderEvents]
  · have hblank : Piece.allEvents [.line ""] = [] := by rw [Piece.allEvents, Piece.events, event?_blank]; rfl
    rw [hcode, Piece.filterMap_event?_allLines, ← hcodeEvents]
    exact Piece.intersperse_of_append Piece.allEvents_append hblank definitions

end CirOutline
