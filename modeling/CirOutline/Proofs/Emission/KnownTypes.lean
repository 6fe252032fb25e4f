import CirOutline.Proofs.Emission.Foretold

/-!
The layout reader and the emission agree on the names of types, whatever tokens a program is read
from. The reader takes a line for a declaration if it starts with the name of a type, and adds a name
with the header of a named type; the emission fills a table of its own on its walk. Both follow the
order of the lines, so the type of a declaration is in the table when the emission comes to it.
-/

namespace CirOutline

open List Statement Node TypeTable TemporaryPool

variable {isMutable : Bool} {path : List Nat} {s : Statement} {v : Visit} {ns : List Node}
  {how : Option Mode} {e : Emitter}

/-! ### Types of declarations that were read -/

/-- Every declaration is of a type with one of the given names, or of one that a statement before it
defines. -/
def Statement.Typed (types : List String) : List Statement → Prop
  | [] => True
  | s :: rest =>
    (∀ typeName names isMutable, s = .declaration typeName names isMutable → typeName ∈ types) ∧
      Typed (types ++ s.definedTypes) rest

namespace Statement

variable {types : List String}

theorem typed_append {ss ts : List Statement} :
    Typed types (ss ++ ts) ↔ Typed types ss ∧ Typed (types ++ ss.flatMap definedTypes) ts := by
  induction ss generalizing types with
  | nil => simp [Typed]
  | cons s ss ih =>
    rw [cons_append, Typed, Typed, ih, flatMap_cons, append_assoc, and_assoc]

theorem Typed.declaration {before after : List Statement} {typeName : String} {names : List String}
    (h : Typed types (before ++ .declaration typeName names isMutable :: after)) :
    typeName ∈ types ∨ .structType typeName ∈ before := by
  have hmem := (typed_append.mp h).2.1 typeName names isMutable rfl
  rcases mem_append.mp hmem with hmem | hmem
  · exact .inl hmem
  · obtain ⟨s, hs, hname⟩ := mem_flatMap.mp hmem
    cases s with
    | structType name =>
      obtain rfl := mem_singleton.mp hname
      exact .inr hs
    | _ => exact absurd hname not_mem_nil

end Statement

namespace Node

variable {reader : LineReader} {depth : Nat} {types : List String} {siblings : List Node}

theorem allTypesAfter_eq (types : List String) (ns : List Node) :
    allTypesAfter types ns = types ++ (statements ns).flatMap definedTypes := by
  induction ns using forest_induction generalizing types with
  | nil => exact (append_nil types).symm
  | cons s location body ns ihbody ihns =>
    rw [allTypesAfter, typesAfter, ihbody, ihns, statements_cons, flatMap_cons, flatMap_append]
    simp only [append_assoc]

theorem AllWellFormed.typed (h : AllWellFormed reader depth types siblings ns) : Typed types (statements ns) := by
  induction ns using forest_induction generalizing reader depth types siblings with
  | nil => trivial
  | cons s location body ns ihbody ihns =>
    obtain ⟨⟨-, hallowed, -, hbody⟩, hns⟩ := h
    rw [statements_cons, Typed, typed_append, ← allTypesAfter_eq]
    refine ⟨?_, ihbody hbody, ihns hns⟩
    intro typeName names isMutable hs
    subst hs
    exact hallowed.2

end Node

/-! ### Types that are known on the way -/

theorem TypeTable.knows_eq (table : TypeTable) (name : String) :
    table.knows name = (table.lookup name).isSome := by
  induction table with
  | nil => rfl
  | cons entry table ih =>
    obtain ⟨key, spelling⟩ := entry
    rw [knows, names, map_cons, contains_cons, lookup_cons]
    cases hkey : name == key with
    | true => rfl
    | false => exact ih

/-- The built-in types are known, and so are the named types among the statements passed. -/
theorem Passed.isSome_knownTypes {past : List Passed} {name : String}
    (h : name ∈ builtin.names ∨ ∃ f ∈ past, f.statement = .structType name) :
    ((knownTypes past).lookup name).isSome = true := by
  induction past with
  | nil =>
    rcases h with hname | ⟨f, hf, -⟩
    · rcases (by simpa [builtin, names] using hname : name = "Int" ∨ name = "Byte") with rfl | rfl
      · rfl
      · rfl
    · exact absurd hf not_mem_nil
  | cons f past ih =>
    obtain ⟨path, s⟩ := f
    simp only [mem_cons, exists_eq_or_imp] at h
    rw [or_left_comm] at h
    cases s with
    | structType other =>
      rw [show knownTypes (⟨path, .structType other⟩ :: past) = (knownTypes past).register other from rfl,
        lookup_register]
      split_ifs with hsame
      · rfl
      · refine ih (h.resolve_left fun hname => hsame ?_)
        simpa [eq_comm] using hname
    | _ => exact ih (h.resolve_left fun hname => by cases hname)

theorem Statement.Typed.before {before after : List Statement} {typeName : String} {names : List String}
    (h : Typed ["Int", "Byte", arrayTypeName] (before ++ .declaration typeName names isMutable :: after))
    (harray : typeName ≠ arrayTypeName) :
    typeName ∈ builtin.names ∨ .structType typeName ∈ before := by
  refine h.declaration.imp_left fun hmem => ?_
  simpa [TypeTable.builtin, TypeTable.names, harray] using hmem

theorem exists_passed {past : List Passed} (h : s ∈ past.reverse.map Passed.statement) :
    ∃ f ∈ past, f.statement = s := by
  obtain ⟨f, hf, rfl⟩ := mem_map.mp h
  exact ⟨f, mem_reverse.mp hf, rfl⟩

theorem Node.map_statement_walkAll (ns : List Node) : ∀ (parent : List Nat) (index : Nat),
    (walkAll parent index ns).map Passed.statement = statements ns := by
  induction ns using forest_induction with
  | nil => intros; rfl
  | cons s location body ns ihbody ihns =>
    intro parent index
    rw [walkAll_cons, statements_cons, map_append, map_cons, ihbody, ihns, cons_append]

namespace Emission

theorem Reached.statements {options : Options} {parent : List Nat} {index : Nat}
    (h : Reached options how e [] parent index ns v) :
    ∃ after, statements ns = v.past.reverse.map Passed.statement ++ v.node.statement ::
      (statements v.node.body ++ after) := by
  obtain ⟨rest, hrest⟩ := h.walk
  obtain ⟨past, parent', index', how', ⟨s, location, body⟩, e'⟩ := v
  refine ⟨rest.map Passed.statement, ?_⟩
  have hmap := congrArg (List.map Passed.statement) hrest
  rw [reverse_nil, nil_append, map_statement_walkAll] at hmap
  rw [hmap, Node.walk, map_append, map_append, map_cons, Node.map_statement_walkAll, append_assoc, cons_append]
  rfl

/-- The node of a visit asks for a type as the type of a parameter or of a result of a method, or as the
element type of an array that is the member of a named type. -/
def Visit.AsksElsewhere (v : Visit) (name : String) (place : Option Location) : Prop :=
  (∃ method parameters result, v.node.statement = .method method parameters result ∧
      v.node.location = place ∧ ((∃ p ∈ parameters, p.typeName = name) ∨ result = some name)) ∨
    ∃ type dimensions isMutable inner, v.node.statement = .structType type ∧
      v.node.body = [.mk (.declaration arrayTypeName (name :: dimensions) isMutable) place inner]

end Emission

/-- When the emission of a program that was read comes to a declaration of a type other than arrays, the
type is known, also to a declaration in a named type; so a type can only be unknown as the type of a
parameter, of a result, or of the elements of an array. -/
theorem declared_types_are_known {options : Options} {tokens : List Token} {file : String}
    {lines : List String} {program : Program} {start : Emitter}
    (hread : readProgram tokens file lines = .ok program) (hstart : options.emitter lines = .ok start) :
    (∀ v, Emission.Reached options none start [] [] 0 program.nodes v →
      (∀ typeName names isMutable, v.node.statement = .declaration typeName names isMutable →
        typeName ≠ arrayTypeName → v.emitter.context.types.knows typeName = true) ∧
      ∀ type member typeName names isMutable, v.node.statement = .structType type →
        v.node.body = [member] → member.statement = .declaration typeName names isMutable →
        typeName ≠ arrayTypeName → (v.emitter.context.types.register type).knows typeName = true) ∧
    ∀ name known place shown, (emitProgram start options program.nodes).1 =
        .error (.diagnosed ⟨.unknownType name known, place, shown⟩) →
      ∃ v, Emission.Reached options none start [] [] 0 program.nodes v ∧
        v.emitter.context.types.knows name = false ∧ v.AsksElsewhere name place := by
  have htyped : Typed ["Int", "Byte", arrayTypeName] _ := (readProgram_wellFormed hread).1.typed
  obtain ⟨pool, rfl, hsound, -⟩ := Options.emitter_start hstart
  have hcovers : ∀ v, Emission.Reached options none (Emitter.start pool lines) [] [] 0 program.nodes v → ∀ name,
      name ∈ builtin.names ∨ (∃ f ∈ v.past, f.statement = .structType name) →
        (v.emitter.context.types.lookup name).isSome = true := by
    intro v hv name hname
    have htypes : v.emitter.context.types = Passed.knownTypes v.past :=
      (hv.agrees (Emission.sane_of_read hread) hsound (Agrees.start pool)).1.types
    rw [htypes]
    exact Passed.isSome_knownTypes hname
  have hdeclared : ∀ v, Emission.Reached options none (Emitter.start pool lines) [] [] 0 program.nodes v →
      ∀ typeName names isMutable, v.node.statement = .declaration typeName names isMutable →
        typeName ≠ arrayTypeName → v.emitter.context.types.knows typeName = true := by
    rintro v hv typeName names isMutable hs harray
    obtain ⟨after, hstatements⟩ := hv.statements
    rw [hstatements, hs] at htyped
    rw [TypeTable.knows_eq]
    exact hcovers v hv typeName ((htyped.before harray).imp_right exists_passed)
  refine ⟨fun v hv => ⟨hdeclared v hv, ?_⟩, ?_⟩
  · rintro type ⟨t, place, inner⟩ typeName names isMutable hs hbody rfl harray
    obtain ⟨after, hstatements⟩ := hv.statements
    rw [hstatements, hs, hbody, Node.statements_cons, cons_append, append_cons] at htyped
    rw [TypeTable.knows_eq, TypeTable.lookup_register]
    split_ifs with hself
    · rfl
    · refine hcovers v hv typeName ((htyped.before harray).imp_right fun hmem => ?_)
      rcases mem_append.mp hmem with hmem | hmem
      · exact exists_passed hmem
      · exact absurd (by simpa using hmem) hself
  · intro name known place shown hstop
    have hends := emitProgram_ends options (Emitter.start pool lines) program.nodes
    cases hrun : Emission.block options none program.nodes (Emitter.start pool lines) with
    | ok _ e => cases (hends.ok hrun).2 _ hstop
    | error stop e =>
      rw [hends.error hrun] at hstop
      obtain rfl := Except.error.inj hstop
      obtain ⟨v, hv, hblamed⟩ :=
        Emission.exists_reached_of_stop program.nodes [] 0 [] hsound.capacity hrun
      obtain ⟨hasks, hunknown⟩ := hblamed.unknown name known place shown rfl
      have hknows : v.emitter.context.types.knows name = false := by
        rw [TypeTable.knows_eq, hunknown]
        rfl
      refine ⟨v, hv, hknows, ?_⟩
      have hlocal := hdeclared v hv
      obtain ⟨past, parent, index, how, n, e'⟩ := v
      cases hasks with
      | declaration harray => exact absurd (hlocal _ _ _ rfl harray) (by rw [hknows]; decide)
      | parameter hp => exact .inl ⟨_, _, _, rfl, rfl, .inl ⟨_, hp, rfl⟩⟩
      | result => exact .inl ⟨_, _, _, rfl, rfl, .inr rfl⟩
      | element => exact .inr ⟨_, _, _, _, rfl, rfl⟩

/-- A declaration of a named type passes, and a parameter of a type that is not there does not. -/
theorem declared_types_are_known_before_parameter : ∃ tokens program start,
    tokenize "STRUCTURE S:\n  PASS\nMETHOD m:\n  S(x)\nMETHOD p(T t):\n  PASS" "types" = .ok tokens ∧
    readProgram tokens "types" [] = .ok program ∧ ({} : Options).emitter = .ok start ∧
    ∃ v, Emission.Reached {} none start [] [] 0 program.nodes v ∧
      v.emitter.context.types.knows "T" = false ∧ v.AsksElsewhere "T" (some ⟨"types", 5, 1⟩) := by
  obtain ⟨tokens, program, htokens, hread, hstop⟩ := exists_read
    "STRUCTURE S:\n  PASS\nMETHOD m:\n  S(x)\nMETHOD p(T t):\n  PASS" "types"
    (fun _ program => (({} : Options).emitter.toOption.map fun start => (emitProgram start {} program.nodes).1) =
      some (.error (.diagnosed ⟨.unknownType "T" ["Int", "Byte", "S"], some ⟨"types", 5, 1⟩, none⟩)))
    (by decide +kernel)
  obtain ⟨start, hstart, hstop⟩ := Option.map_eq_some_iff.mp hstop
  have hstart := eq_ok_of_toOption hstart
  exact ⟨tokens, program, start, htokens, hread, hstart, (declared_types_are_known hread hstart).2 _ _ _ _ hstop⟩

end CirOutline
