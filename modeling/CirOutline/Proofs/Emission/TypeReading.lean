import CirOutline.Proofs.Emission.TypeLines

/-!
Reading types along a text. A `TypeScope` holds the types that lines have introduced, those of the file
apart from those of the definition that is being read, and `TypeScope.defined` checks that each line
names only types in sight. `Prints.readsTypes` says which statements the lines of a block pass the check
for: those whose types have been passed before them.
-/

namespace CirOutline

open CLine Text List TypeTable Option Passed Statement Piece TypeLine Node CToken

variable {between dimensions inner : List String} {c : Context} {line : TypeLine} {opening name : String}
  {parameters : List Parameter} {place : Option Location} {returnType : Option String} {table : TypeTable}
  {type : CType} {options : Options} {region : Passed → Prop} {past : List Passed} {f : Passed}

/-! ### Types in sight of a line -/

/-- Where the reading of a text stands: the number of open braces, the types introduced before the
outermost of them, and those introduced since. -/
structure TypeScope where
  depth : Nat
  outer : List String
  inner : List String

def TypeLine.isFlat (line : TypeLine) : Bool :=
  match line.role with
  | .opens .brace _ | .closes .brace => false
  | _ => true

namespace TypeScope

/-- What has been introduced in a definition is out of sight after its end. -/
def after (scope : TypeScope) (line : TypeLine) : TypeScope :=
  let inner := line.introduced.toList ++ scope.inner
  match line.role with
  | .opens .brace _ =>
    if scope.depth = 0 then ⟨1, inner, []⟩ else ⟨scope.depth + 1, scope.outer, inner⟩
  | .closes .brace =>
    if scope.depth = 1 then ⟨0, [], scope.outer⟩ else ⟨scope.depth - 1, scope.outer, inner⟩
  | _ => ⟨scope.depth, scope.outer, inner⟩

def scan (scope : TypeScope) (lines : List TypeLine) : TypeScope := lines.foldl after scope

/-- A type that a line names and that is one of the names is in sight. -/
def sees (names : List String) (scope : TypeScope) (type : String) : Bool :=
  !names.contains type || scope.outer.contains type || scope.inner.contains type

/-- Every type that a line names and that is one of the names has been introduced by a line before it,
in the same definition or outside definitions. -/
def defined (names : List String) : TypeScope → List TypeLine → Bool
  | _, [] => true
  | scope, line :: rest => line.used.all (sees names scope) && defined names (scope.after line) rest

theorem scan_append (scope : TypeScope) (lines more : List TypeLine) :
    scan scope (lines ++ more) = scan (scan scope lines) more :=
  foldl_append

theorem defined_append (names : List String) (lines more : List TypeLine) : ∀ scope : TypeScope,
    defined names scope (lines ++ more) = (defined names scope lines && defined names (scan scope lines) more) := by
  induction lines with
  | nil => intro scope; rfl
  | cons line lines ih =>
    intro scope
    rw [cons_append, defined, defined, ih, Bool.and_assoc]
    rfl

theorem sees_iff {names : List String} {scope : TypeScope} {type : String} :
    sees names scope type = true ↔ (type ∈ names → type ∈ scope.outer ∨ type ∈ scope.inner) := by
  rw [sees, Bool.or_assoc, Bool.or_eq_true, Bool.or_eq_true, Bool.not_eq_true', contains_iff_mem,
    contains_iff_mem, ← Bool.not_eq_true, contains_iff_mem, imp_iff_not_or]

theorem defined_singleton (names : List String) (scope : TypeScope) (line : TypeLine) :
    defined names scope [line] = true ↔ ∀ type ∈ line.used, sees names scope type = true := by
  rw [defined, defined, Bool.and_true, List.all_eq_true]

theorem after_flat (h : line.isFlat = true) (scope : TypeScope) :
    scope.after line = ⟨scope.depth, scope.outer, line.introduced.toList ++ scope.inner⟩ := by
  obtain ⟨used, introduced, role⟩ := line
  match role, h with
  | .plain, _ => rfl
  | .opens .conditional _, _ => rfl
  | .closes .conditional, _ => rfl

end TypeScope

open TypeScope

/-! ### Types of statements -/

theorem TypeTable.lookup_of_resolve (h : table.resolve name dimensions = .ok type) :
    table.lookup name = some type.name := by
  unfold resolve at h
  split at h
  · next spelling hfound => rw [hfound, ← Except.ok.inj h]
  · cases h

/-- The types that the lines of a statement name, in their C spelling, given the types that are known
and what names mean. -/
def Statement.types (table : TypeTable) (meaning : Option String → Option Binding) :
    Statement → List String
  | declaration typeName names _ =>
    if typeName = arrayTypeName then (names.head?.bind fun name => table.lookup name).toList
    else (table.lookup typeName).toList
  | assignment name _ =>
    ((meaning (some name)).filter fun b => !b.isMutable).toList.map fun b => b.type.name
  | method _ parameters returnType =>
    ((returnType.filter fun name => !name.isEmpty).bind fun name => table.lookup name).getD CType.void ::
      if parameters.isEmpty then [CType.void] else parameters.filterMap fun p => table.lookup p.typeName
  | _ => []

namespace Statement

variable {meaning : Option String → Option Binding}

theorem types_declaration {typeName : String} (hplain : typeName ≠ arrayTypeName)
    (h : table.resolve typeName [] = .ok type) (names : List String) (isMutable : Bool) :
    types table meaning (declaration typeName names isMutable) = [type.name] := by
  rw [types, if_neg hplain, lookup_of_resolve h]
  rfl

theorem types_array {element : String} (h : table.resolve element dimensions = .ok type)
    (others : List String) (isMutable : Bool) :
    types table meaning (declaration arrayTypeName (element :: others) isMutable) = [type.name] := by
  rw [types, if_pos rfl, head?_cons, bind_some, lookup_of_resolve h]
  rfl

theorem types_assignment {b : Binding} (hfound : meaning (some name) = some b)
    (expression : List Token) : types table meaning (assignment name expression) =
      if b.isMutable then [] else [b.type.name] := by
  rw [types, hfound]
  cases hb : b.isMutable with
  | true => rw [filter_some_neg (by simp [hb])]; rfl
  | false => rw [filter_some_pos (by simp [hb])]; rfl

end Statement

namespace Passed

/-- The types that the lines of a statement name, by the statements before it. -/
def types (past : List Passed) (f : Passed) : List String :=
  f.statement.types (knownTypes past) (resolve past f.path.tail)

/-- A named type with the name has been passed, in the part of the program that counts, and the
statement does not stand in it. -/
def Preceded (region : Passed → Prop) (past : List Passed) (f : Passed) (type : String) : Prop :=
  ∃ g ∈ past, region g ∧ g.statement = .structType type ∧ ¬ g.path <:+ f.path

/-- The types of a statement that are among the names are given from outside or have been passed. -/
def Sighted (names outer : List String) (region : Passed → Prop) (x : List Passed × Passed) : Prop :=
  ∀ type ∈ x.2.types x.1, type ∈ names → type ∈ outer ∨ Preceded region x.1 x.2 type

end Passed

/-! ### Reading pieces -/

/-- The types are those of the named types that have been passed in a part of the program. -/
def Introduces (region : Passed → Prop) (past : List Passed) (inner : List String) : Prop :=
  ∀ type, type ∈ inner ↔ ∃ g ∈ past, region g ∧ g.statement = .structType type

theorem Introduces.preceded_iff (h : Introduces region past inner)
    (hopen : ∀ g ∈ past, g.statement.isStructType = true → ¬ g.path <:+ f.path) {type : String} :
    Preceded region past f type ↔ type ∈ inner := by
  rw [h type]
  constructor
  · rintro ⟨g, hg, hregion, hs, -⟩
    exact ⟨g, hg, hregion, hs⟩
  · rintro ⟨g, hg, hregion, hs⟩
    exact ⟨g, hg, hregion, hs, hopen g hg (by rw [hs]; rfl)⟩

theorem Introduces.append {past fs : List Passed} (h : Introduces region past inner)
    (hfs : ∀ f ∈ fs, region f → f.statement.isStructType = false) :
    Introduces region (fs.reverse ++ past) inner := by
  intro type
  rw [h type]
  constructor
  · rintro ⟨g, hg, hregion, hs⟩
    exact ⟨g, mem_append_right _ hg, hregion, hs⟩
  · rintro ⟨g, hg, hregion, hs⟩
    rcases mem_append.mp hg with hg | hg
    · have hplain := hfs g (mem_reverse.mp hg) hregion
      rw [hs] at hplain
      cases hplain
    · exact ⟨g, hg, hregion, hs⟩

theorem Introduces.cons (h : Introduces region past inner) (hf : region f → f.statement.isStructType = false) :
    Introduces region (f :: past) inner := by
  have happend : Introduces region ([f].reverse ++ past) inner := h.append (forall_mem_singleton.mpr hf)
  exact happend

/-- Lines lead from the types in sight to `later`, and name types in sight exactly if the statements that
they come from fit the condition. -/
structure ReadsTypes (names : List String) (region : Passed → Prop) (fits : List Passed × Passed → Prop)
    (past : List Passed) (scope : TypeScope) (lines : List TypeLine) (fs : List Passed)
    (later : List String) : Prop where
  scan : scope.scan lines = ⟨scope.depth, scope.outer, later⟩
  introduces : Introduces region (fs.reverse ++ past) later
  defined : scope.defined names lines = true ↔ ∀ x ∈ steps past fs, fits x

namespace ReadsTypes

variable {names : List String} {fits : List Passed × Passed → Prop} {fs gs : List Passed}
  {scope : TypeScope} {lines more : List TypeLine} {later : List String}

theorem append (h : ReadsTypes names region fits past scope lines fs between)
    (hmore : ReadsTypes names region fits (fs.reverse ++ past) ⟨scope.depth, scope.outer, between⟩ more gs later) :
    ReadsTypes names region fits past scope (lines ++ more) (fs ++ gs) later := by
  refine ⟨?_, ?_, ?_⟩
  · rw [scan_append, h.scan, hmore.scan]
  · rw [reverse_append, append_assoc]
    exact hmore.introduces
  · rw [defined_append, Bool.and_eq_true, h.scan, h.defined, hmore.defined, steps_append,
      forall_mem_append]

theorem congr {others : List Passed × Passed → Prop} (h : ReadsTypes names region fits past scope lines fs later)
    (hfits : ∀ x ∈ steps past fs, fits x ↔ others x) :
    ReadsTypes names region others past scope lines fs later :=
  ⟨h.scan, h.introduces, h.defined.trans (forall₂_congr hfits)⟩

section

variable (h : Introduces region past scope.inner)
include h

theorem silent (hlines : ∀ line ∈ lines, line.isFlat = true ∧ line.used = [] ∧ line.introduced = none)
    (hfits : ∀ x ∈ steps past fs, fits x)
    (hfs : ∀ f ∈ fs, region f → f.statement.isStructType = false) :
    ReadsTypes names region fits past scope lines fs scope.inner := by
  have hstill : ∀ line ∈ lines, scope.after line = scope := by
    intro line hline
    obtain ⟨hflat, -, hintroduced⟩ := hlines line hline
    rw [after_flat hflat, hintroduced]
    rfl
  have hscan : scope.scan lines = scope ∧ scope.defined names lines = true := by
    clear hfits
    induction lines with
    | nil => exact ⟨rfl, rfl⟩
    | cons line lines ih =>
      rw [forall_mem_cons] at hlines hstill
      obtain ⟨hscan, hdefined⟩ := ih hlines.2 hstill.2
      have hafter : scope.scan (line :: lines) = (scope.after line).scan lines := rfl
      rw [hafter, TypeScope.defined, hstill.1, hscan, hdefined, hlines.1.2.1]
      exact ⟨rfl, rfl⟩
  refine ⟨hscan.1, h.append hfs, iff_of_true hscan.2 hfits⟩

theorem uses
    (hopen : ∀ g ∈ past, g.statement.isStructType = true → ¬ g.path <:+ f.path) (hflat : line.isFlat = true)
    (hused : line.used = f.types past) (hintroduced : line.introduced = none)
    (hf : f.statement.isStructType = false) :
    ReadsTypes names region (Sighted names scope.outer region) past scope [line] [f]
      scope.inner := by
  refine ⟨?_, h.append (forall_mem_singleton.mpr fun _ => hf), ?_⟩
  · change scope.after line = _
    rw [after_flat hflat, hintroduced]
    rfl
  · rw [steps, steps, forall_mem_singleton, defined_singleton, hused]
    exact forall₂_congr fun type _ => sees_iff.trans
      (imp_congr_right fun _ => or_congr_right (h.preceded_iff hopen).symm)

theorem named {f member : Passed} (hopen : ∀ g ∈ past, g.statement.isStructType = true → ¬ g.path <:+ member.path)
    (hflat : line.isFlat = true) (hused : line.used = member.types (f :: past))
    (hintroduced : line.introduced = some name) (hf : f.statement = .structType name) (hregion : region f)
    (hmember : member.statement.isStructType = false) (hpath : f.path <:+ member.path) :
    ReadsTypes names region (Sighted names scope.outer region) past scope [line] [f, member]
      (name :: scope.inner) := by
  refine ⟨?_, fun type => ?_, ?_⟩
  · change scope.after line = _
    rw [after_flat hflat, hintroduced]
    rfl
  · rw [mem_cons, h type]
    constructor
    · rintro (rfl | ⟨g, hg, hg'⟩)
      · exact ⟨f, by simp, hregion, hf⟩
      · exact ⟨g, by simp [hg], hg'⟩
    · rintro ⟨g, hg, hregion', hs⟩
      rcases (by simpa using hg : g = member ∨ g = f ∨ g ∈ past) with rfl | rfl | hg
      · rw [hs] at hmember
        cases hmember
      · exact .inl (structType.inj (hs.symm.trans hf))
      · exact .inr ⟨g, hg, hregion', hs⟩
  · have hown : ∀ type, Preceded region (f :: past) member type ↔ type ∈ scope.inner := by
      intro type
      rw [← h.preceded_iff hopen]
      constructor
      · rintro ⟨g, hg, hregion', hs, hg'⟩
        rcases mem_cons.mp hg with rfl | hg
        · exact absurd hpath hg'
        · exact ⟨g, hg, hregion', hs, hg'⟩
      · rintro ⟨g, hg, hg'⟩
        exact ⟨g, mem_cons_of_mem f hg, hg'⟩
    have htypes : f.types past = [] := by rw [Passed.types, hf]; rfl
    rw [steps, steps, steps, forall_mem_cons, forall_mem_singleton,
      defined_singleton, hused, and_iff_right]
    · exact forall₂_congr fun type _ => sees_iff.trans
        (imp_congr_right fun _ => or_congr_right (hown type).symm)
    · intro type htype
      rw [htypes] at htype
      cases htype

end

theorem wrap {first last : TypeLine} {depth : Nat}
    (hfirst : first.used = [] ∧ scope.after first = ⟨depth, scope.outer, scope.inner⟩)
    (hlast : last.used = [] ∧ ∀ inner, TypeScope.after ⟨depth, scope.outer, inner⟩ last =
      ⟨scope.depth, scope.outer, inner⟩) (hf : fits (past, f))
    (h : ReadsTypes names region fits (f :: past) ⟨depth, scope.outer, scope.inner⟩ lines fs later) :
    ReadsTypes names region fits past scope (first :: (lines ++ [last])) (f :: fs) later := by
  have hscan : scope.scan (first :: (lines ++ [last])) = ⟨scope.depth, scope.outer, later⟩ := by
    change (scope.after first).scan (lines ++ [last]) = _
    rw [hfirst.2, scan_append, h.scan]
    exact hlast.2 later
  refine ⟨hscan, ?_, ?_⟩
  · rw [reverse_cons, append_assoc]
    exact h.introduces
  · rw [TypeScope.defined, hfirst.1, hfirst.2, defined_append, h.scan, TypeScope.defined, hlast.1]
    simp only [all_nil, TypeScope.defined, Bool.and_true, Bool.true_and]
    rw [h.defined, steps, forall_mem_cons, and_iff_right hf]

end ReadsTypes

namespace Printer

variable {names : List String} {parent : List Nat} {index : Nat} {how : Option Mode} {n : Node}
  {pieces : List Piece} {scope : TypeScope}

section

variable (hn : Stands past parent index how n c)
include hn

theorem Stands.unnamed :
    ∀ g ∈ past, g.statement.isStructType = true → ¬ g.path <:+ index :: parent := fun g hg htype hpath =>
  hn.told.agrees.unnamed g hg htype ((hn.told.agrees.fresh.suffix_child hg).mp hpath)

theorem Stands.walk_eq (hclosed : n.statement.opensBlock = false) :
    n.walk (index :: parent) = [⟨index :: parent, n.statement⟩] := by
  obtain ⟨s, place, body⟩ := n
  obtain rfl : body = [] := hn.sane.trim.1.1 hclosed
  rfl

theorem Stands.types_eq (s : Statement) :
    Passed.types past ⟨index :: parent, s⟩ = s.types c.types c.scope.lookup := by
  have htypes : c.types = knownTypes past := hn.told.agrees.types
  have hmeaning : c.scope.lookup = resolve past parent := funext fun name => hn.told.agrees.lookup name
  rw [Passed.types, htypes, hmeaning]
  rfl

theorem Stands.readsTypes_silent
    (h : Introduces region past scope.inner) (hclosed : n.statement.opensBlock = false)
    (htypes : n.statement.types c.types c.scope.lookup = []) {lines : List TypeLine}
    (hlines : ∀ line ∈ lines, line.isFlat = true ∧ line.used = [] ∧ line.introduced = none) :
    ReadsTypes names region (Sighted names scope.outer region) past scope lines
      (n.walk (index :: parent)) scope.inner := by
  rw [hn.walk_eq hclosed]
  refine .silent h hlines (forall_mem_singleton.mpr ?_) (forall_mem_singleton.mpr ?_)
  · intro type htype
    rw [hn.types_eq, htypes] at htype
    cases htype
  · intro _
    cases hs : n.statement with
    | structType name => simp [hs, opensBlock] at hclosed
    | _ => rfl

theorem Stands.readsTypes_uses
    (h : Introduces region past scope.inner) (hclosed : n.statement.opensBlock = false) {line : String}
    (hused : usedTypes (tokens line) = n.statement.types c.types c.scope.lookup)
    (hintroduced : introducedType? (tokens line) = none) :
    ReadsTypes names region (Sighted names scope.outer region) past scope (allReading of [.line line])
      (n.walk (index :: parent)) scope.inner := by
  rw [hn.walk_eq hclosed]
  refine .uses h hn.unnamed rfl ?_ hintroduced ?_
  · rw [hn.types_eq]
    exact hused
  · cases hs : n.statement with
    | structType name => simp [hs, opensBlock] at hclosed
    | _ => rfl

end

theorem Stands.readsTypes_named {name line : String} {place' : Option Location} {member : Statement}
    {inner : List Node}
    (hn : Stands past parent index how (.mk (.structType name) place [.mk member place' inner]) c)
    (h : Introduces region past scope.inner)
    (hregion : ∀ f ∈ (Node.mk (.structType name) place [.mk member place' inner]).walk (index :: parent), region f)
    (hclosed : member.opensBlock = false)
    (hused : ∀ meaning, usedTypes (tokens line) = member.types (c.types.register name) meaning)
    (hintroduced : introducedType? (tokens line) = some name) :
    ReadsTypes names region (Sighted names scope.outer region) past scope (allReading of [.line line])
      ((Node.mk (.structType name) place [.mk member place' inner]).walk (index :: parent))
      (name :: scope.inner) := by
  obtain rfl : inner = [] := hn.sane.trim.1.2.1.1 hclosed
  refine .named h ?_ rfl ?_ hintroduced rfl (hregion _ List.mem_cons_self) ?_ (List.suffix_cons 0 _)
  · intro g hg htype hpath
    rcases suffix_cons_iff.mp hpath with hsame | hpath
    · exact hn.told.agrees.fresh g hg index (Nat.le_refl index) (hsame ▸ suffix_cons 0 _)
    · exact hn.unnamed g hg htype hpath
  · have htypes : c.types = knownTypes past := hn.told.agrees.types
    rw [htypes] at hused
    exact hused _
  · cases member with
    | structType other => cases hclosed
    | _ => rfl

theorem untyped_line {role : Role} {content : String} (hrole : isFlat ⟨[], none, role⟩ = true)
    (h : Untyped (tokens content)) :
    (of role content).isFlat = true ∧ (of role content).used = [] ∧ (of role content).introduced = none :=
  ⟨hrole, h.used, h.introduced⟩

/-- The lines say something, and name no types. -/
structure Quiet (pieces : List Piece) : Prop where
  lines : ∀ line ∈ allReading of pieces, line.isFlat = true ∧ line.used = [] ∧ line.introduced = none
  contents : ∀ content ∈ contents pieces, content ≠ "" ∧ Untyped (tokens content)

theorem quiet_of_lines {pieces : List Piece}
    (h : ∀ p ∈ pieces, ∃ line, p = .line line ∧ line ≠ "" ∧ Untyped (tokens line)) : Quiet pieces := by
  refine ⟨?_, contents_of_lines h⟩
  induction pieces with
  | nil => exact forall_mem_nil _
  | cons p pieces ih =>
    rw [forall_mem_cons] at h
    obtain ⟨line, rfl, -, hline⟩ := h.1
    exact forall_mem_cons.mpr ⟨untyped_line rfl hline, ih h.2⟩

theorem quiet_line {line : String} (hfilled : line ≠ "") (h : Untyped (tokens line)) : Quiet [.line line] :=
  quiet_of_lines (forall_mem_singleton.mpr ⟨line, rfl, hfilled, h⟩)

theorem quiet_fallback (condition : String) {symbol : String} (hsymbol : IsWord symbol) :
    Quiet [.fallback condition symbol] := by
  have hdefine : Untyped (tokens ("  #define " ++ symbol)) := by
    rw [tokens_define_shifted]
    exact untyped_define hsymbol
  have hif := untyped_directive "if" (isWord_of_all (by decide)) (by decide) rfl condition
  exact ⟨forall_mem_cons.mpr ⟨untyped_line rfl hif, forall_mem_cons.mpr ⟨untyped_line rfl hdefine,
    forall_mem_singleton.mpr (untyped_line rfl untyped_endif)⟩⟩, forall_mem_cons.mpr ⟨⟨by simp, hif⟩,
    forall_mem_cons.mpr ⟨⟨by simp, hdefine⟩, forall_mem_singleton.mpr ⟨by decide, untyped_endif⟩⟩⟩⟩

/-- The lines of a statement without a block, by the types that they name. A line that names types is no
head of a method. -/
inductive SaysTypes (c : Context) (n : Node) : List Piece → Prop
  | silent {pieces : List Piece} (hclosed : n.statement.opensBlock = false)
      (htypes : n.statement.types c.types c.scope.lookup = []) (hquiet : Quiet pieces) : SaysTypes c n pieces
  | uses {line : String} (hclosed : n.statement.opensBlock = false) (hfilled : line ≠ "")
      (hthird : (tokens line)[2]? ≠ some "(")
      (hused : usedTypes (tokens line) = n.statement.types c.types c.scope.lookup)
      (hintroduced : introducedType? (tokens line) = none) : SaysTypes c n [.line line]
  | named {name line : String} {place place' : Option Location} {member : Statement} {inner : List Node}
      (hnode : n = .mk (.structType name) place [.mk member place' inner]) (hclosed : member.opensBlock = false)
      (hfilled : line ≠ "") (hthird : (tokens line)[2]? ≠ some "(")
      (hused : ∀ meaning, usedTypes (tokens line) = member.types (c.types.register name) meaning)
      (hintroduced : introducedType? (tokens line) = some name) : SaysTypes c n [.line line]

theorem Says.saysTypes (hn : Stands past parent index how n c) (hwording : Says options c n pieces) :
    SaysTypes c n pieces := by
  have hs := hn.named_own
  cases hwording with
  | remarks hremark hpieces =>
    refine .silent ?_ ?_ (quiet_of_lines fun p hp => ?_)
    · generalize n.statement = s at hremark
      cases s <;> first | rfl | cases hremark
    · generalize n.statement = s at hremark
      cases s <;> first | rfl | cases hremark
    · obtain ⟨line, rfl, hfilled, hline, -⟩ := hpieces p hp
      exact ⟨line, rfl, hfilled, hline ▸ untyped_nil⟩
  | @declares typeName declared isMutable type _ _ hplain htype =>
    obtain ⟨hword, hdimensions⟩ := forall_resolve (P := IsType) hn.told.types (by rw [htype]; rfl)
    have htext := CType.text_of_plain hdimensions
    have htyped := typed_declaration hword hs hn.sane.readable.1.proper
    have htokens := tokens_declaration hword.word hs
    rw [← htokens, ← htext] at htyped
    refine .uses rfl (by simp) ?_ (htyped.1.trans ?_) htyped.2
    · rw [htext, htokens]
      rcases declared with _ | ⟨first, _ | ⟨second, declared⟩⟩ <;> simp
    · exact (congrArg (fun text => [text]) htext).trans (types_declaration hplain htype _ _).symm
  | @assigns name expression b _ _ hfound hb =>
    refine .silent rfl ((types_assignment hfound expression).trans (if_pos hb)) (quiet_line (by simp) ?_)
    rw [tokens_assignment hs.word]
    exact untyped_of_mark (ne_of_isName hs.word.isName rfl) rfl _
  | @fixes name expression b _ _ hfound hb =>
    have hplain : b.Plain := plain_of_resolve hn.past ((hn.told.agrees.lookup _).symm.trans hfound)
    have htext := CType.text_of_plain (hplain.dimensions hb)
    have htyped := typed_cast name b.type.name (")" :: lex ((Expression.render expression).toList ++ [')']))
    have htokens := tokens_constant hs.word hplain.type.word (Expression.render expression)
    rw [← htokens, ← htext] at htyped
    refine .uses rfl (by simp) ?_ (htyped.1.trans ?_) htyped.2
    · rw [htext, htokens]
      simpa using ne_of_isName hs.word.isName rfl
    · rw [htext]
      exact ((types_assignment hfound expression).trans (if_neg (by simp [hb]))).symm
  | @calls name arguments =>
    refine .silent rfl rfl (quiet_line (by simp) ?_)
    rw [tokens_call hs]
    exact untyped_of_mark (ne_of_isName hs.isName rfl) rfl _
  | @returns expression =>
    refine .silent rfl rfl (quiet_line (by split_ifs <;> simp) ?_)
    rw [tokens_return]
    exact untyped_of_key (.inl rfl) _
  | @defaults name choice mode _ _ hvalid =>
    obtain ⟨-, rfl, -⟩ := ModeRegistry.validate_ok (by rw [hvalid]; rfl)
    exact .silent rfl rfl (quiet_fallback _ (Mode.isWord_symbol hs.1 (.inl hs.2)))
  | @selects name choice mode _ _ hvalid =>
    obtain ⟨-, rfl, -⟩ := ModeRegistry.validate_ok (by rw [hvalid]; rfl)
    refine .silent rfl rfl (quiet_of_lines fun p hp => ?_)
    rcases mem_append.mp hp with hp | hp
    · obtain ⟨current, -, rfl⟩ := mem_map.mp hp
      have hundef : IsWord "undef" := isWord_of_all rfl
      exact ⟨_, rfl, by simp, untyped_directive "undef" hundef (by decide) rfl _⟩
    · obtain rfl := mem_singleton.mp hp
      exact ⟨_, rfl, by simp, untyped_define (Mode.isWord_symbol hs.1 (.inl hs.2))⟩
  | @named name place place' inner =>
    have htokens := tokens_named hs.word
    have htyped := typed_named hs.word
    rw [← htokens] at htyped
    refine .named rfl rfl (by simp) ?_ (fun _ => htyped.1) htyped.2
    rw [htokens]
    simpa using ne_of_isName hs.word.isName rfl
  | @array name element dimension dimensions isMutable type place place' inner htype =>
    have htypes : ∀ entry ∈ c.types.register name, IsType entry.2 :=
      forall_register hn.told.types hs
    obtain ⟨hword, hdimensions⟩ := forall_resolve (P := IsType) htypes (by rw [htype]; rfl)
    have hmember : ∀ name ∈ element :: dimension :: dimensions, IsItem name :=
      (forall_statements.mp (forall_statements.mp hn.named _ mem_cons_self).2 _ mem_cons_self).1
    have htokens := tokens_array hword.word hs.word (hdimensions ▸ (forall_mem_cons.mp hmember).2)
    rw [hdimensions, flatMap_cons, append_assoc, cons_append] at htokens
    have htyped := typed_array hword.word hs.word
      ([dimension, "]"] ++ (dimensions.flatMap (fun d => ["[", d, "]"]) ++ [";"]))
    rw [← htokens] at htyped
    refine .named rfl rfl (by simp) ?_ (fun _ => htyped.1.trans (types_array htype _ _).symm) htyped.2
    rw [htokens]
    simpa using ne_of_isName hs.word.isName rfl

theorem SaysTypes.readsTypes (hn : Stands past parent index how n c) (hlines : SaysTypes c n pieces)
    (h : Introduces region past scope.inner) (hregion : ∀ f ∈ n.walk (index :: parent), region f) :
    ∃ later, ReadsTypes names region (Sighted names scope.outer region) past scope (allReading of pieces)
      (n.walk (index :: parent)) later := by
  cases hlines with
  | silent hclosed htypes hquiet => exact ⟨_, hn.readsTypes_silent h hclosed htypes hquiet.lines⟩
  | uses hclosed _ _ hused hintroduced => exact ⟨_, hn.readsTypes_uses h hclosed hused hintroduced⟩
  | named hnode hclosed _ _ hused hintroduced =>
    subst hnode
    exact ⟨_, hn.readsTypes_named h hregion hclosed hused hintroduced⟩

theorem Heads.untyped {s : Statement} (h : Heads c s opening) :
    s.isMethod = false ∧ s.isStructType = false ∧ ∀ table meaning, s.types table meaning = [] := by
  cases h <;> exact ⟨rfl, rfl, fun _ _ => rfl⟩

theorem walk_split (n : Node) (path : List Nat) : n.walk path = ⟨path, n.statement⟩ :: walkAll path 0 n.body := by
  cases n
  rfl

theorem sighted_of_untyped {outer : List String} (h : ∀ table meaning, f.statement.types table meaning = []) :
    Passed.Sighted names outer region (past, f) := by
  intro type htype
  rw [Passed.types, h] at htype
  cases htype

theorem readsTypes_braces {inner : List Piece} (hhead : Heads c n.statement opening) (hpositive : 0 < scope.depth)
    (hinner : ReadsTypes names region (Sighted names scope.outer region)
      (⟨index :: parent, n.statement⟩ :: past) ⟨scope.depth + 1, scope.outer, scope.inner⟩
      (allReading of inner) (walkAll (index :: parent) 0 n.body) between) :
    ReadsTypes names region (Sighted names scope.outer region) past scope
      (reading of (.braces opening inner)) (n.walk (index :: parent)) between := by
  have hline := untyped_heads hhead
  have hend := untyped_brace
  rw [walk_split, reading]
  refine hinner.wrap ⟨hline.used, ?_⟩ ⟨hend.used, fun types => ?_⟩ (sighted_of_untyped hhead.untyped.2.2)
  · simp [TypeScope.after, of, hline.introduced, hpositive.ne']
  · simp [TypeScope.after, of, hend.introduced, hpositive.ne']

theorem readsTypes_option (symbol : String) {choice : String} {inner : List Piece}
    (hs : n.statement = .option choice)
    (hinner : ReadsTypes names region (Sighted names scope.outer region)
      (⟨index :: parent, n.statement⟩ :: past) scope
      (allReading of inner) (walkAll (index :: parent) 0 n.body) between) :
    ReadsTypes names region (Sighted names scope.outer region) past scope
      (reading of (.option symbol inner)) (n.walk (index :: parent)) between := by
  have hifdef : Untyped (tokens ("#ifdef " ++ symbol)) :=
    untyped_directive "ifdef" (isWord_of_all (by decide)) (by decide) rfl symbol
  have hend := untyped_endif
  rw [walk_split, reading]
  refine hinner.wrap ⟨hifdef.used, ?_⟩ ⟨hend.used, fun types => ?_⟩ (sighted_of_untyped fun _ _ => by rw [hs]; rfl)
  · simp [TypeScope.after, of, hifdef.introduced]
  · simp [TypeScope.after, of, hend.introduced]

/-- The lines of a block name the types of its statements. Blocks in braces stand in methods only, so
none of them is taken for a definition. -/
theorem Prints.readsTypes {ns : List Node} (hprints : Prints options past parent index how ns pieces) :
    ∀ scope : TypeScope, Introduces region past scope.inner → (∀ f ∈ walkAll parent index ns, region f) →
      (InMethod past parent → 0 < scope.depth) →
      ∃ later, ReadsTypes names region (Sighted names scope.outer region) past scope
        (allReading of pieces) (walkAll parent index ns) later := by
  induction hprints with
  | nil =>
    intro scope h _ _
    exact ⟨scope.inner, .silent h (forall_mem_nil _) (forall_mem_nil _) (forall_mem_nil _)⟩
  | leaf hn hwording _ ih =>
    intro scope h hregion hdepth
    rw [walkAll, forall_mem_append] at hregion
    obtain ⟨between, hfirst⟩ := (hwording.saysTypes hn).readsTypes hn h hregion.1
    obtain ⟨later, hlater⟩ := ih ⟨scope.depth, scope.outer, between⟩ hfirst.introduces hregion.2
      fun hin => hdepth (inMethod_after hin)
    rw [walkAll, allReading_append]
    exact ⟨later, hfirst.append hlater⟩
  | @block past parent index how how' n ns c inner pieces rest hn hwraps hmethod _ _ ihinner ih =>
    intro scope h hregion hdepth
    rw [walkAll, forall_mem_append, walk_split, forall_mem_cons] at hregion
    obtain ⟨between, hfirst⟩ : ∃ between, ReadsTypes names region (Sighted names scope.outer region) past scope
        (allReading of pieces) (n.walk (index :: parent)) between := by
      obtain ⟨s, place, body⟩ := n
      cases hwraps with
      | @braces _ opening _ hhead =>
        obtain ⟨between, hinner⟩ := ihinner ⟨scope.depth + 1, scope.outer, scope.inner⟩
          (h.cons fun _ => hhead.untyped.2.1) hregion.1.2 fun _ => Nat.succ_pos scope.depth
        rw [allReading, allReading, append_nil]
        exact ⟨between, readsTypes_braces hhead (hdepth (hmethod opening hhead)) hinner⟩
      | @choose name =>
        obtain ⟨between, hinner⟩ := ihinner scope (h.cons fun _ => rfl) hregion.1.2
          fun hin => hdepth ((hn.told.agrees.fresh.inMethod_inside rfl).mp hin)
        -- the line of the statement itself is empty
        have hown : ReadsTypes names region (Sighted names scope.outer region) past scope []
            [⟨index :: parent, .choose name⟩] scope.inner :=
          .silent h (forall_mem_nil _) (forall_mem_singleton.mpr (sighted_of_untyped fun _ _ => rfl))
            (forall_mem_singleton.mpr fun _ => rfl)
        exact ⟨between, hown.append hinner⟩
      | @option mode _ choice =>
        obtain ⟨between, hinner⟩ := ihinner scope (h.cons fun _ => rfl) hregion.1.2
          fun hin => hdepth ((hn.told.agrees.fresh.inMethod_inside rfl).mp hin)
        rw [allReading, allReading, append_nil]
        exact ⟨between, readsTypes_option (mode.symbol choice) rfl hinner⟩
    obtain ⟨later, hlater⟩ := ih ⟨scope.depth, scope.outer, between⟩ hfirst.introduces hregion.2
      fun hin => hdepth (inMethod_after hin)
    rw [walkAll, allReading_append]
    exact ⟨later, hfirst.append hlater⟩

end Printer

/-! ### Heads of methods -/

namespace Printer

theorem resultType_eq {result : String} (h : resultType returnType c = some result) :
    ((returnType.filter fun name => !name.isEmpty).bind fun name => c.types.lookup name).getD CType.void =
      result := by
  unfold resultType at h
  cases returnType with
  | none => exact some.inj h
  | some name =>
    dsimp only at h
    split_ifs at h with hempty
    · rw [filter_some_neg (by simp [hempty])]
      exact some.inj h
    · obtain ⟨type, htype, rfl⟩ := map_eq_some_iff.mp h
      rw [filter_some_pos (by simp [hempty]), bind_some, lookup_of_resolve (eq_ok_of_toOption htype)]
      rfl

theorem parameters_typed {types : List CType}
    (h : Resolved table parameters types) :
    parameters.filterMap (fun p => table.lookup p.typeName) =
      (parameters.zip types).map fun x => x.2.name := by
  induction h with
  | nil => rfl
  | cons htype _ ih =>
    rw [filterMap_cons, lookup_of_resolve (eq_ok_of_toOption htype), ih]
    rfl

theorem Stands.typed_head {index : Nat} {how : Option Mode} {body : List Node} {inside : Context}
    {head : String} (hn : Stands past [] index how (.mk (.method name parameters returnType) place body) c)
    (hhead : signature name parameters returnType c = some (head, inside)) {last : String}
    (hlast : last = ";" ∨ last = " \x7b") :
    usedTypes (tokens (head ++ last)) = types past ⟨[index], .method name parameters returnType⟩ ∧
      introducedType? (tokens (head ++ last)) = none := by
  obtain ⟨types, result, htypes, hresult, rfl, -⟩ := of_signature hhead
  obtain ⟨hname, hparameters⟩ : (method name parameters returnType).Named := hn.named_own
  have hword := isType_resultType hn.told.types hresult
  obtain ⟨hall, -⟩ := parameters_declared hn.told.types hparameters htypes
  have hend : ∀ token ∈ CToken.lex last.toList, token ≠ "(" ∧ token ≠ "," := by
    rcases hlast with rfl | rfl
    · change ∀ token ∈ CToken.lex [';'], _
      rw [CToken.lex_mark rfl, CToken.lex, List.forall_mem_singleton]
      exact ⟨by decide, by decide⟩
    · change ∀ token ∈ CToken.lex [' ', '\x7b'], _
      rw [CToken.lex_space rfl, CToken.lex_mark rfl, CToken.lex, List.forall_mem_singleton]
      exact ⟨by decide, by decide⟩
  have htyped := CLine.typed_head hword hname hall hend
  rw [← tokens_head hword.word hname hall] at htyped
  refine ⟨htyped.1.trans ?_, htyped.2⟩
  rw [hn.types_eq]
  change _ = _ :: if parameters.isEmpty then _ else _
  rw [resultType_eq hresult, parameters_typed htypes, htypes.isEmpty_eq]

end Printer

end CirOutline
