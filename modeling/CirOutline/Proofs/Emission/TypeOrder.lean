import CirOutline.Proofs.Emission.TypeReading

/-!
The order of types in an emitted text. The header holds what stands outside methods together with the
prototypes, and the definitions follow it, so a type outside methods is in sight of every definition,
also of those that stand before it in the source, while a type that a method introduces is in sight of
the rest of that method alone. `types_precede_use_iff` says for which programs every line names only
types in sight. Types are recorded in the order of the source and never forgotten, so there are programs
that are emitted without this.
-/

namespace CirOutline

open List Passed Piece CLine Node TypeLine TypeScope

variable {body ns : List Node} {definitions header : List Piece} {m f : Passed} {name : String}
  {names file : List String} {parameters : List Parameter} {path : List Nat} {returnType : Option String}
  {i index : Nat} {n : Node} {past whole : List Passed} {options : Options} {x : List Passed × Passed}

/-! ### Methods at the top level -/

theorem Node.mem_walkAll_iff (ns : List Node) (parent : List Nat) : ∀ (index : Nat) {f : Passed},
    f ∈ walkAll parent index ns ↔
      ∃ (i : Nat) (n : Node), ns[i]? = some n ∧ f ∈ n.walk ((index + i) :: parent) := by
  induction ns with
  | nil => intro index f; simp [walkAll]
  | cons n ns ih =>
    intro index f
    have hnext : ∀ i, index + (i + 1) = index + 1 + i := fun i => by omega
    rw [walkAll, mem_append, ih]
    constructor
    · rintro (hf | ⟨i, m, hm, hf⟩)
      · exact ⟨0, n, rfl, hf⟩
      · exact ⟨i + 1, m, hm, by rwa [hnext]⟩
    · rintro ⟨i, m, hm, hf⟩
      cases i with
      | zero =>
        obtain rfl : n = m := Option.some.inj hm
        exact .inl hf
      | succ i => exact .inr ⟨i, m, hm, by rwa [← hnext]⟩

def Node.history (forest : List Node) : List Passed := (walkAll [] 0 forest).reverse

namespace Passed

variable {forest : List Node}

section

variable (hmethods : MethodsOutside forest)
include hmethods

theorem exists_of_method (hm : m ∈ history forest) (hmethod : m.statement.isMethod = true) :
    ∃ i n, forest[i]? = some n ∧ m = ⟨[i], n.statement⟩ := by
  obtain ⟨i, n, hn, hwalk⟩ := (mem_walkAll_iff forest [] 0).mp (mem_reverse.mp hm)
  rw [Nat.zero_add, Printer.walk_split, mem_cons] at hwalk
  rcases hwalk with rfl | hbody
  · exact ⟨i, n, hn, rfl⟩
  · have hplain := hmethods n (mem_of_getElem? hn) m.statement (statement_mem_of_walkAll n.body _ _ m hbody)
    exact absurd (hmethod.symm.trans hplain) (by decide)

theorem method_eq (hm : m ∈ history forest)
    (hmethod : m.statement.isMethod = true) (hpath : m.path <:+ path) (hn : forest[i]? = some n)
    (hi : [i] <:+ path) :
    m = ⟨[i], n.statement⟩ := by
  obtain ⟨j, n', hn', rfl⟩ := exists_of_method hmethods hm hmethod
  obtain rfl : j = i := by
    by_contra hne
    exact not_suffix_of_ne hne hpath hi
  obtain rfl := Option.some.inj (hn.symm.trans hn')
  rfl

theorem inMethod_iff (hn : forest[i]? = some n) (hi : [i] <:+ path) :
    InMethod (history forest) path ↔ n.statement.isMethod = true := by
  constructor
  · rintro ⟨m, hm, hmethod, hpath⟩
    rw [method_eq hmethods hm hmethod hpath hn hi] at hmethod
    exact hmethod
  · intro hmethod
    refine ⟨⟨[i], n.statement⟩, mem_reverse.mpr ?_, hmethod, hi⟩
    refine (mem_walkAll_iff forest [] 0).mpr ⟨i, n, hn, ?_⟩
    rw [Nat.zero_add, Printer.walk_split]
    exact mem_cons_self

end

theorem outside_iff (hf : f ∈ whole) : Outside whole f ↔ ¬ InMethod whole f.path := by
  constructor
  · rintro houtside ⟨m, hm, hmethod, hpath⟩
    exact houtside m (mem_cons_of_mem f hm) hmethod hpath
  · intro hnone g hg hmethod hpath
    rcases mem_cons.mp hg with rfl | hg
    · exact hnone ⟨g, hf, hmethod, hpath⟩
    · exact hnone ⟨g, hg, hmethod, hpath⟩

theorem outside_walk_iff (hmethods : MethodsOutside forest) (hn : forest[i]? = some n)
    (hf : f ∈ n.walk [i]) : Outside (history forest) f ↔ n.statement.isMethod = false := by
  have hwhole : f ∈ history forest :=
    mem_reverse.mpr ((mem_walkAll_iff forest [] 0).mpr ⟨i, n, hn, by rwa [Nat.zero_add]⟩)
  rw [outside_iff hwhole, inMethod_iff hmethods hn (suffix_of_mem_walk hf), Bool.not_eq_true]

theorem inMethod_nil (hmethods : MethodsOutside forest) : ¬ InMethod (history forest) [] := by
  rintro ⟨m, hm, hmethod, hpath⟩
  obtain ⟨i, n, -, rfl⟩ := exists_of_method hmethods hm hmethod
  exact Nat.not_succ_le_self _ hpath.length_le

theorem suffix_tail_of_mem_body (hf : f ∈ walkAll [i] 0 body) : [i] <:+ f.path.tail := by
  obtain ⟨j, -, -, hj⟩ := exists_of_mem_walkAll body _ _ f hf
  obtain ⟨front, hfront⟩ := hj
  cases front with
  | nil => exact hfront ▸ suffix_rfl
  | cons first front =>
    rw [← hfront, cons_append, tail_cons]
    exact (suffix_cons j [i]).trans (suffix_append front [j, i])

end Passed

/-! ### The two parts of a text -/

namespace Printer

variable {forest : List Node}

theorem Before.not_inMethod (h : Before index past) : ¬ InMethod past [] := by
  rintro ⟨m, hm, -, hpath⟩
  exact (h m hm).1 (suffix_nil.mp hpath)

theorem getElem?_of_drop (h : forest.drop index = n :: ns) :
    forest[index]? = some n ∧ forest.drop (index + 1) = ns := by
  constructor
  · rw [← head?_drop, h]
    rfl
  · rw [← drop_drop, h]
    rfl

/-- The statements that become lines of the header name types that the header has introduced. -/
def InHeader (whole : List Passed) (names : List String) (x : List Passed × Passed) : Prop :=
  ¬ InMethod whole x.2.path.tail → Sighted names [] (Outside whole) x

theorem PrintsProgram.reads_header (hmethods : MethodsOutside forest)
    (hprints : PrintsProgram options past index ns header definitions) (names : List String) :
    ∀ inner : List String,
    forest.drop index = ns → Before index past →
    Introduces (Outside (history forest)) past inner →
    ∃ later, ReadsTypes names (Outside (history forest)) (InHeader (history forest) names) past ⟨0, [], inner⟩
      (allReading of header) (walkAll [] index ns) later := by
  induction hprints with
  | nil =>
    intro inner _ _ h
    exact ⟨inner, .silent h (forall_mem_nil _) (forall_mem_nil _) (forall_mem_nil _)⟩
  | @method past index name parameters returnType place body ns c inside head _ header definitions hn hhead
      hinner _ ih =>
      intro inner hdrop hbefore h
      obtain ⟨hnode, hrest⟩ := getElem?_of_drop hdrop
      have htyped := hn.typed_head hhead (.inl rfl)
      have hown : ReadsTypes names (Outside (history forest)) (InHeader (history forest) names)
          past ⟨0, [], inner⟩ (reading of (.line (head ++ ";")))
          [⟨[index], .method name parameters returnType⟩] inner := by
        refine (ReadsTypes.uses h hn.unnamed rfl htyped.1 htyped.2 rfl).congr (forall_mem_singleton.mpr ?_)
        exact (imp_iff_right (inMethod_nil hmethods)).symm
      have hbody : ReadsTypes names (Outside (history forest)) (InHeader (history forest) names)
          (⟨[index], .method name parameters returnType⟩ :: past) ⟨0, [], inner⟩ []
          (walkAll [index] 0 body) inner := by
        refine .silent (h.cons fun _ => rfl) (forall_mem_nil _) (fun x hx hnone => ?_) fun f hf hregion => ?_
        · exact absurd ((inMethod_iff hmethods hnode (suffix_tail_of_mem_body (of_mem_steps hx).1)).mpr rfl) hnone
        · have hfalse := (outside_walk_iff hmethods hnode (mem_cons_of_mem _ hf)).mp hregion
          cases hfalse
      obtain ⟨later, hlater⟩ := ih inner hrest (hbefore.next _) (hown.append hbody).introduces
      exact ⟨later, (hown.append hbody).append hlater⟩
  | @other past index n ns pieces header definitions hmethod hprints _ ih =>
    intro inner hdrop hbefore h
    obtain ⟨hnode, hrest⟩ := getElem?_of_drop hdrop
    have houtside : ∀ f ∈ n.walk [index], Outside (history forest) f := fun f hf =>
      (outside_walk_iff hmethods hnode hf).mpr hmethod
    have hone : walkAll [] index [n] = n.walk [index] := by
      rw [walkAll, walkAll, append_nil]
    have hfirst : ∃ between, ReadsTypes names (Outside (history forest))
        (Sighted names [] (Outside (history forest))) past ⟨0, [], inner⟩
        (allReading of pieces) (walkAll [] index [n]) between :=
      hprints.readsTypes ⟨0, [], inner⟩ h (hone ▸ houtside) fun hin => absurd hin hbefore.not_inMethod
    obtain ⟨between, hfirst⟩ := hfirst
    rw [hone] at hfirst
    have hheader : ReadsTypes names (Outside (history forest)) (InHeader (history forest) names)
        past ⟨0, [], inner⟩ (allReading of pieces) (n.walk [index]) between := by
      refine hfirst.congr fun x hx => (imp_iff_right ?_).symm
      rintro ⟨m, hm, hismethod, hpath⟩
      exact houtside x.2 (of_mem_steps hx).1 m (mem_cons_of_mem _ hm) hismethod (hpath.trans (tail_suffix _))
    obtain ⟨later, hlater⟩ := ih between hrest (hbefore.next n) hheader.introduces
    rw [walkAll, allReading_append]
    exact ⟨later, hheader.append hlater⟩

def SharesMethod (whole : List Passed) (f g : Passed) : Prop :=
  ∃ m ∈ whole, m.statement.isMethod = true ∧ m.path <:+ f.path.tail ∧ m.path <:+ g.path

/-- The types of methods are types of the file, and the statements in methods name those or types of the
same method. -/
def InDefinitions (whole : List Passed) (names file : List String) (x : List Passed × Passed) : Prop :=
  (x.2.statement.isMethod = true → ∀ type ∈ x.2.types x.1, type ∈ names → type ∈ file) ∧
    (InMethod whole x.2.path.tail → Sighted names file (SharesMethod whole x.2) x)

theorem inDefinitions_of_outside (h : Outside whole x.2) : InDefinitions whole names file x := by
  constructor
  · intro hmethod
    exact absurd suffix_rfl (h x.2 mem_cons_self hmethod)
  · rintro ⟨m, hm, hmethod, hpath⟩
    exact absurd (hpath.trans (tail_suffix _)) (h m (mem_cons_of_mem _ hm) hmethod)

section

variable (hmethods : MethodsOutside forest)
include hmethods

theorem sharesMethod_iff (hn : forest[i]? = some n)
    (hmethod : n.statement.isMethod = true) (hf : f ∈ walkAll [i] 0 n.body) (g : Passed) :
    SharesMethod (history forest) f g ↔ [i] <:+ g.path := by
  have hi := suffix_tail_of_mem_body hf
  constructor
  · rintro ⟨m, hm, hismethod, hpath, hg⟩
    rw [method_eq hmethods hm hismethod hpath hn hi] at hg
    exact hg
  · intro hg
    obtain ⟨m, hm, hismethod, hpath⟩ := (inMethod_iff hmethods hn hi).mpr hmethod
    refine ⟨m, hm, hismethod, hpath, ?_⟩
    rw [method_eq hmethods hm hismethod hpath hn hi]
    exact hg

theorem inDefinitions_method :
    InDefinitions (history forest) names file (past, ⟨[index], .method name parameters returnType⟩) ↔
      ∀ type ∈ types past ⟨[index], .method name parameters returnType⟩, type ∈ names → type ∈ file :=
  (and_iff_left fun hin => absurd hin (inMethod_nil hmethods)).trans (imp_iff_right rfl)

theorem inDefinitions_body (hn : forest[i]? = some n)
    (hmethod : n.statement.isMethod = true) (hx : x.2 ∈ walkAll [i] 0 n.body) :
    InDefinitions (history forest) names file x ↔
      Sighted names file (fun g => [i] <:+ g.path) x := by
  have hplain : x.2.statement.isMethod = false :=
    hmethods n (mem_of_getElem? hn) _ (statement_mem_of_walkAll n.body _ _ _ hx)
  have hshares : SharesMethod (history forest) x.2 = fun g => [i] <:+ g.path :=
    funext fun g => propext (sharesMethod_iff hmethods hn hmethod hx g)
  rw [InDefinitions, hshares]
  refine (and_iff_right fun hother => absurd (hother.symm.trans hplain) (by decide)).trans (imp_iff_right ?_)
  exact (inMethod_iff hmethods hn (suffix_tail_of_mem_body hx)).mpr hmethod

theorem reads_definition {place : Option Location}
    {c inside : Context} {head : String} {inner : List Piece} (file : List String)
    (hnode : forest[index]? = some (.mk (.method name parameters returnType) place body))
    (hbefore : Before index past)
    (hn : Stands past [] index none (.mk (.method name parameters returnType) place body) c)
    (hhead : signature name parameters returnType c = some (head, inside))
    (hinner : Prints options (⟨[index], .method name parameters returnType⟩ :: past) [index] 0 none body inner) :
    scan ⟨0, [], file⟩ (reading of (.braces head inner)) = ⟨0, [], file⟩ ∧
    (defined names ⟨0, [], file⟩ (reading of (.braces head inner)) = true ↔
      ∀ x ∈ steps past ((mk (.method name parameters returnType) place body).walk [index]),
        InDefinitions (history forest) names file x) := by
  obtain ⟨hused, hintroduced⟩ := hn.typed_head hhead (.inr rfl)
  have hend := untyped_brace
  have hnothing : Introduces (fun g => [index] <:+ g.path)
      (⟨[index], .method name parameters returnType⟩ :: past) [] := by
    refine Introduces.cons (fun type => iff_of_false not_mem_nil ?_) fun _ => rfl
    rintro ⟨g, hg, hpath, -⟩
    exact (hbefore g hg).2 index (Nat.le_refl index) hpath
  have hregion : ∀ f ∈ walkAll [index] 0 body, [index] <:+ f.path := fun f hf =>
    (suffix_tail_of_mem_body hf).trans (tail_suffix _)
  have hblock : ∃ later, ReadsTypes names (fun g => [index] <:+ g.path)
      (Sighted names file fun g => [index] <:+ g.path)
      (⟨[index], .method name parameters returnType⟩ :: past) ⟨1, file, []⟩
      (allReading of inner) (walkAll [index] 0 body) later :=
    hinner.readsTypes ⟨1, file, []⟩ hnothing hregion fun _ => Nat.one_pos
  obtain ⟨later, hblock⟩ := hblock
  have hopens : TypeScope.after ⟨0, [], file⟩ (.of (.opens .brace true) (head ++ " \x7b")) = ⟨1, file, []⟩ := by
    simp [TypeScope.after, TypeLine.of, hintroduced]
  constructor
  · change scan (after ⟨0, [], file⟩ _) _ = _
    rw [hopens, scan_append, hblock.scan]
    rfl
  · have hlast : ∀ scope, defined names scope [.of (.closes .brace) "\x7d"] = true := by
      intro scope
      rw [defined_singleton, of, hend.used]
      exact forall_mem_nil _
    rw [reading, defined, hopens, defined_append, hlast, Bool.and_true,
      Bool.and_eq_true, all_eq_true, hblock.defined, walk, steps, forall_mem_cons,
      inDefinitions_method hmethods, ← hused]
    refine and_congr (forall₂_congr fun type _ => ?_) (forall₂_congr fun x hx => ?_)
    · rw [sees_iff, or_iff_right not_mem_nil]
    · exact (inDefinitions_body hmethods hnode rfl (of_mem_steps hx).1).symm

theorem PrintsProgram.reads_definitions
    (hprints : PrintsProgram options past index ns header definitions) (names file : List String) :
    forest.drop index = ns → Before index past →
    (∀ p ∈ definitions, scan ⟨0, [], file⟩ (p.reading of) = ⟨0, [], file⟩) ∧
    ((∀ p ∈ definitions, defined names ⟨0, [], file⟩ (p.reading of) = true) ↔
      ∀ x ∈ steps past (walkAll [] index ns), InDefinitions (history forest) names file x) := by
  induction hprints with
  | nil =>
    intro _ _
    exact ⟨forall_mem_nil _, iff_of_true (forall_mem_nil _) (forall_mem_nil _)⟩
  | method hn hhead hinner _ ih =>
    intro hdrop hbefore
    obtain ⟨hnode, hrest⟩ := getElem?_of_drop hdrop
    obtain ⟨hscan, hdefined⟩ := reads_definition hmethods file hnode hbefore hn hhead hinner
    obtain ⟨hscans, hall⟩ := ih hrest (hbefore.next _)
    rw [forall_mem_cons, forall_mem_cons, walkAll, steps_append, forall_mem_append]
    exact ⟨⟨hscan, hscans⟩, and_congr hdefined hall⟩
  | @other past index n ns pieces header definitions hmethod hnode _ ih =>
    intro hdrop hbefore
    obtain ⟨hnode, hrest⟩ := getElem?_of_drop hdrop
    obtain ⟨hscans, hall⟩ := ih hrest (hbefore.next _)
    refine ⟨hscans, hall.trans ?_⟩
    rw [walkAll, steps_append, forall_mem_append, iff_and_self]
    intro _ x hx
    exact inDefinitions_of_outside ((outside_walk_iff hmethods hnode (of_mem_steps hx).1).mpr hmethod)

end

end Printer

theorem TypeScope.defined_intersperse {scope : TypeScope} {ps : List Piece}
    (h : ∀ p ∈ ps, scope.scan (p.reading of) = scope) :
    scope.defined names (allReading of (ps.intersperse (.line ""))) = true ↔
      ∀ p ∈ ps, scope.defined names (p.reading of) = true := by
  induction ps with
  | nil => exact iff_of_true rfl (forall_mem_nil _)
  | cons p ps ih =>
    rw [forall_mem_cons] at h
    cases ps with
    | nil =>
      rw [intersperse_singleton, allReading, allReading, append_nil, forall_mem_singleton]
    | cons q ps =>
      have hblank : of .plain "" = ⟨[], none, .plain⟩ := by
        simp [of, CLine.tokens, CToken.lex, usedTypes, introducedType?]
      rw [intersperse_cons_cons, allReading, allReading, reading, defined_append,
        h.1, Bool.and_eq_true, forall_mem_cons, ← ih h.2, hblank]
      rfl

/-! ### Types before their use -/

def Node.typeNames (ns : List Node) : List String :=
  (statements ns).filterMap fun s =>
    match s with
    | .structType name => some name
    | _ => none

/-- A type has been introduced where a statement of a program names it. -/
inductive Passed.Introduced (whole past : List Passed) (f : Passed) (type : String) : Prop where
  | before {g : Passed} (hg : g ∈ past) (hs : g.statement = .structType type) (houtside : g.Outside whole)
      (hopen : ¬ g.path <:+ f.path)
  | outside {g : Passed} (hg : g ∈ whole) (hs : g.statement = .structType type) (houtside : g.Outside whole)
      (hin : InMethod whole f.path.tail)
  /-- Before the statement and in the same method. -/
  | inside {g : Passed} (hg : g ∈ past) (hs : g.statement = .structType type)
      (hin : Printer.SharesMethod whole f g) (hopen : ¬ g.path <:+ f.path)

/-- A statement names types that are introduced exactly if the lines that it becomes, in the header and in
the definitions, name types in sight. -/
theorem Passed.introduced_iff (hfile : Introduces (Outside whole) whole file) (hpast : ∀ g ∈ x.1, g ∈ whole)
    (htop : x.2.statement.isMethod = true → ¬ InMethod whole x.2.path.tail) :
    (∀ type ∈ x.2.types x.1, type ∈ names → Introduced whole x.1 x.2 type) ↔
      Printer.InHeader whole names x ∧ Printer.InDefinitions whole names file x := by
  have hnone : ∀ g, Printer.SharesMethod whole x.2 g → InMethod whole x.2.path.tail := by
    rintro g ⟨m, hm, hmethod, hpath, -⟩
    exact ⟨m, hm, hmethod, hpath⟩
  constructor
  · intro h
    refine ⟨fun hout type htype hname => ?_, fun hmethod type htype hname => ?_, fun hin type htype hname => ?_⟩
    · cases h type htype hname with
      | before hg hs houtside hopen => exact .inr ⟨_, hg, houtside, hs, hopen⟩
      | outside _ _ _ hin => exact absurd hin hout
      | inside _ _ hin _ => exact absurd (hnone _ hin) hout
    · cases h type htype hname with
      | before hg hs houtside _ => exact (hfile type).mpr ⟨_, hpast _ hg, houtside, hs⟩
      | outside hg hs houtside _ => exact (hfile type).mpr ⟨_, hg, houtside, hs⟩
      | inside _ _ hin _ => exact absurd (hnone _ hin) (htop hmethod)
    · cases h type htype hname with
      | before hg hs houtside _ => exact .inl ((hfile type).mpr ⟨_, hpast _ hg, houtside, hs⟩)
      | outside hg hs houtside _ => exact .inl ((hfile type).mpr ⟨_, hg, houtside, hs⟩)
      | inside hg hs hin hopen => exact .inr ⟨_, hg, hin, hs, hopen⟩
  · rintro ⟨hheader, -, hdefinitions⟩ type htype hname
    by_cases hin : InMethod whole x.2.path.tail
    · rcases hdefinitions hin type htype hname with hknown | ⟨g, hg, hshares, hs, hopen⟩
      · obtain ⟨g, hg, houtside, hs⟩ := (hfile type).mp hknown
        exact .outside hg hs houtside hin
      · exact .inside hg hs hshares hopen
    · rcases hheader hin type htype hname with hknown | ⟨g, hg, houtside, hs, hopen⟩
      · cases hknown
      · exact .before hg hs houtside hopen

/-- The lines of an emitted text name only types that lines before them have introduced, in the same
definition or outside definitions, exactly if each statement that names a type finds it before itself and
outside methods, or stands in a method and finds it anywhere outside methods or before itself in the same
method. -/
theorem types_precede_use_iff {options : Options} {source file : String} {lines : List String}
    {tokens : List Token} {program : Program} {start e : Emitter} {output : String}
    (htokens : tokenize source file = .ok tokens)
    (hread : readProgram tokens file lines = .ok program) (hstart : options.emitter lines = .ok start)
    (hrun : emitProgram start options program.nodes = (.ok output, e)) :
    output = e.output options.includes ∧
    (TypeScope.defined (Node.typeNames program.nodes) ⟨0, [], []⟩
        ((e.header ++ e.code).map CLine.typeLine) = true ↔
      ∀ x ∈ Passed.steps [] (Node.walkAll [] 0 program.nodes), ∀ type ∈ x.2.types x.1,
        type ∈ Node.typeNames program.nodes → x.2.Introduced (Node.history program.nodes) x.1 type) := by
  obtain ⟨houtput, header, definitions, hprints, hevident, hheader, hcode⟩ :=
    emitProgram_printout htokens hread hstart hrun
  obtain ⟨hmethods, -⟩ := readProgram_statements htokens hread
  have hbefore : Printer.Before 0 [] := fun g hg => (not_mem_nil hg).elim
  have hnothing : Introduces (Passed.Outside (Node.history program.nodes)) [] [] := fun type => by simp
  obtain ⟨top, htop⟩ := hprints.reads_header hmethods (Node.typeNames program.nodes) [] drop_zero hbefore hnothing
  obtain ⟨hscans, hdefinitions⟩ := hprints.reads_definitions hmethods (Node.typeNames program.nodes) top
    drop_zero hbefore
  refine ⟨houtput, ?_⟩
  have hfirst : e.header.map typeLine = allReading TypeLine.of header := by
    rw [hheader]
    exact map_allLines TypeLine.of TypeLine.of_shift options.indentWidth hevident.1
  have hsecond : e.code.map typeLine =
      allReading TypeLine.of (definitions.intersperse (.line "")) := by
    rw [hcode]
    exact map_allLines TypeLine.of TypeLine.of_shift options.indentWidth
      (allEvident_definitions hevident.2)
  have hfile : Introduces (Passed.Outside (Node.history program.nodes)) (Node.history program.nodes) top := by
    have hlater := htop.introduces
    rwa [append_nil] at hlater
  rw [map_append, hfirst, hsecond, TypeScope.defined_append, Bool.and_eq_true, htop.defined, htop.scan,
    TypeScope.defined_intersperse hscans, hdefinitions, ← forall₂_and]
  refine (forall₂_congr fun x hx => ?_).symm
  obtain ⟨hmem, hpast⟩ := of_mem_steps hx
  refine introduced_iff hfile (fun g hg => mem_reverse.mpr ?_) fun hmethod => ?_
  · exact (hpast g hg).resolve_right not_mem_nil
  · obtain ⟨i, n, -, hsame⟩ := exists_of_method hmethods (mem_reverse.mpr hmem) hmethod
    rw [hsame]
    exact inMethod_nil hmethods

/-- A type of a method is named in it, and a type of the file in methods before and after it. -/
theorem types_precede_use_iff_of_hoisted_type :
    ∃ tokens program start output e,
      tokenize ("METHOD a:\n    STRUCTURE S:\n        PASS\n    S(x)\nMETHOD b:\n    S(y)\n    y = 1\n" ++
        "STRUCTURE S:\n    Array(Int, 4)\nMETHOD c(S s) -> S:\n    PASS") "f" = .ok tokens ∧
      readProgram tokens "f" [] = .ok program ∧ ({} : Options).emitter = .ok start ∧
      emitProgram start {} program.nodes = (.ok output, e) ∧
      (Passed.steps [] (Node.walkAll [] 0 program.nodes)).flatMap (fun x => x.2.types x.1) =
        ["void", "void", "S", "void", "void", "S", "S", "int", "S", "S"] ∧
      ∀ x ∈ Passed.steps [] (Node.walkAll [] 0 program.nodes), ∀ type ∈ x.2.types x.1,
        type ∈ Node.typeNames program.nodes → x.2.Introduced (Node.history program.nodes) x.1 type := by
  refine exists_emitted (fun program _ e =>
    (Passed.steps [] (Node.walkAll [] 0 program.nodes)).flatMap (fun x => x.2.types x.1) =
        ["void", "void", "S", "void", "void", "S", "S", "int", "S", "S"] ∧
      TypeScope.defined (Node.typeNames program.nodes) ⟨0, [], []⟩
        ((e.header ++ e.code).map typeLine) = true) (by decide +kernel) ?_
  rintro tokens program start output e htokens hread hstart hrun ⟨htypes, hdefined⟩
  obtain ⟨-, hintroduced⟩ := types_precede_use_iff htokens hread hstart hrun
  exact ⟨htypes, hintroduced.mp hdefined⟩

/-- A type that is introduced in one method is named in the next, where C does not see it. -/
theorem type_of_method_named_in_next :
    ∃ tokens program start output e,
      tokenize "METHOD a:\n    STRUCTURE S:\n        PASS\nMETHOD b:\n    S(x)" "<input>" = .ok tokens ∧
      readProgram tokens "<input>" [] = .ok program ∧ ({} : Options).emitter = .ok start ∧
      emitProgram start {} program.nodes = (.ok output, e) ∧
      output = "#include <stdint.h>\n\nvoid a(void);\nvoid b(void);\n\nvoid a(void) \x7b\n" ++
        "    typedef struct S S;\n\x7d\n\nvoid b(void) \x7b\n    S x;\n\x7d" ∧
      TypeScope.defined (Node.typeNames program.nodes) ⟨0, [], []⟩
        ((e.header ++ e.code).map CLine.typeLine) = false := by
  exact exists_emitted _ (by decide +kernel) fun _ _ _ _ h => h

end CirOutline
