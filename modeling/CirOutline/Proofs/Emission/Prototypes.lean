import CirOutline.Proofs.Emission.Directives
import CirOutline.Proofs.Emission.KnownTypes
import CirOutline.Proofs.Emission.TypeReading

/-!
Prototypes and definitions. The methods of a program have signatures in C that depend on the types
known before them. The prototypes among the lines of the header are those signatures, in the order of
the methods, and the code holds their definitions in the same order with one empty line between two of
them. No line of a definition is empty, so the empty lines of the code are the separators.
-/

namespace CirOutline

open List Option Node CLine Text TypeTable Statement Piece

variable {options : Options} {head name line : String} {inside : Context} {returnType : Option String}
  {parameters : List Parameter} {ns : List Node}

/-! ### Signatures -/

/-- The signature of a method in C, given the types that are known. -/
def TypeTable.signature? (types : TypeTable) (name : String) (parameters : List Parameter)
    (returnType : Option String) : Option String := do
  let declared ← parameters.mapM fun p =>
    (types.resolve p.typeName p.dimensions).toOption.map fun type => type.declare p.name
  let result ← (returnType.filter fun type => !type.isEmpty).elim (some CType.void) fun type =>
    types.lookup type
  return result ++ " " ++ name ++ "(" ++
    (if parameters.isEmpty then "void" else ", ".intercalate declared) ++ ")"

namespace Statement

def typesAfter (types : TypeTable) : Statement → TypeTable
  | structType name => types.register name
  | _ => types

def signatures (types : TypeTable) : List Statement → List (Option String)
  | [] => []
  | method name parameters returnType :: rest =>
    types.signature? name parameters returnType :: signatures types rest
  | s :: rest => signatures (s.typesAfter types) rest

theorem signatures_of_other {s : Statement} (h : s.isMethod = false) (types : TypeTable)
    (rest : List Statement) : signatures types (s :: rest) = signatures (s.typesAfter types) rest := by
  cases s with
  | method name parameters returnType => cases h
  | _ => rfl

theorem signatures_append {before : List Statement} (h : ∀ s ∈ before, s.isMethod = false)
    (types : TypeTable) (rest : List Statement) :
    signatures types (before ++ rest) = signatures (before.foldl typesAfter types) rest := by
  induction before generalizing types with
  | nil => rfl
  | cons s before ih =>
    rw [forall_mem_cons] at h
    rw [cons_append, signatures_of_other h.1, ih h.2, foldl_cons]

end Statement

theorem Passed.knownTypes_append (news past : List Passed) : knownTypes (news.reverse ++ past) =
      (news.map Passed.statement).foldl Statement.typesAfter (knownTypes past) := by
  induction news generalizing past with
  | nil => rfl
  | cons f news ih =>
    rw [reverse_cons, append_assoc, ih, map_cons, foldl_cons]
    rfl

theorem Node.statements_singleton (n : Node) : statements [n] = n.statement :: statements n.body := by
  obtain ⟨s, location, body⟩ := n
  rw [statements_cons]
  exact congrArg (s :: ·) (append_nil _)

theorem Node.knownTypes_walk (n : Node) (parent : List Nat) (index : Nat) (past : List Passed) :
    Passed.knownTypes ((n.walk (index :: parent)).reverse ++ past) =
      (Node.statements [n]).foldl Statement.typesAfter (Passed.knownTypes past) := by
  have hwalk : (n.walk (index :: parent)).map Passed.statement = Node.statements [n] := by
    rw [← map_statement_walkAll [n] parent index, Node.walkAll, Node.walkAll, append_nil]
  rw [Passed.knownTypes_append, hwalk]

namespace Printer

theorem declares_parameters {table : TypeTable} {types : List CType}
    (h : Resolved table parameters types) :
    parameters.mapM (fun p =>
        (table.resolve p.typeName p.dimensions).toOption.map fun type => type.declare p.name) =
      some ((parameters.zip types).map fun x => x.2.declare x.1.name) := by
  induction h with
  | nil => rfl
  | cons htype _ ih =>
    rw [mapM_cons, htype, ih]
    rfl

theorem signature_eq {c : Context} (h : signature name parameters returnType c = some (head, inside)) :
    c.types.signature? name parameters returnType = some head := by
  obtain ⟨types, result, htypes, hresult, rfl, -⟩ := of_signature h
  have hspelling : ((returnType.filter fun type => !type.isEmpty).elim (some CType.void) fun type =>
      c.types.lookup type) = some result := by
    cases returnType with
    | none => exact hresult
    | some type =>
      rw [resultType] at hresult
      split_ifs at hresult with htype
      · rw [filter_some_neg (by simp [htype])]
        exact hresult
      · obtain ⟨spelling, hspelling, rfl⟩ := map_eq_some_iff.mp hresult
        rw [filter_some_pos (by simp [htype])]
        exact lookup_of_resolve (eq_ok_of_toOption hspelling)
  rw [signature?, declares_parameters htypes, bind_eq_bind, bind_some, hspelling, head_eq, htypes.isEmpty_eq]
  rfl

end Printer

/-! ### Prototypes among lines -/

namespace CLine

def declaresFunction : List String → Bool
  | type :: name :: opening :: rest =>
    isName type && isName name && type != "return" && type != "else" && opening == "(" &&
      rest.getLast? == some ";"
  | _ => false

def isPrototype (line : String) : Bool := declaresFunction (tokens line)

theorem isPrototype_shift (width : Int) (line : String) : isPrototype (shift width line) = isPrototype line := by
  rw [isPrototype, isPrototype, tokens_shift]

theorem usedTypes_of_declaresFunction {tokens : List String} (h : declaresFunction tokens = true) :
    usedTypes tokens ≠ [] := by
  rcases tokens with _ | ⟨type, _ | ⟨name, _ | ⟨opening, rest⟩⟩⟩
  · cases h
  · cases h
  · cases h
  · simp only [declaresFunction, Bool.and_eq_true, bne_iff_ne, beq_iff_eq] at h
    obtain ⟨⟨⟨⟨⟨htype, hname⟩, hreturn⟩, helse⟩, hopening⟩, -⟩ := h
    have hhash : type ≠ "#" := ne_of_isName htype rfl
    simp [usedTypes, htype, hname, hreturn, helse, hopening, hhash]

/-- The line says something, and is no prototype. -/
structure Ordinary (line : String) : Prop where
  filled : line ≠ ""
  other : isPrototype line = false

theorem Untyped.ordinary (h : Untyped (tokens line)) (hline : line ≠ "") : Ordinary line := by
  refine ⟨hline, Bool.eq_false_iff.mpr fun hprototype => ?_⟩
  exact usedTypes_of_declaresFunction hprototype h.used

theorem ordinary_of_third (hline : line ≠ "") (h : (tokens line)[2]? ≠ some "(") : Ordinary line := by
  refine ⟨hline, ?_⟩
  rw [isPrototype]
  rcases htokens : tokens line with _ | ⟨first, _ | ⟨second, _ | ⟨third, rest⟩⟩⟩
  · rfl
  · rfl
  · rfl
  · have hthird : third ≠ "(" := by simpa [htokens] using h
    simp [declaresFunction, hthird]

theorem ordinary_endif : Ordinary "#endif" := untyped_endif.ordinary (by decide)

theorem ordinary_brace : Ordinary "\x7d" := untyped_brace.ordinary (by decide)

theorem isPrototype_head {result name : String} {declared : List (Parameter × CType)}
    (hresult : IsType result) (hname : IsWord name) (h : ∀ x ∈ declared, Declarable x) :
    isPrototype (Printer.head result name declared ++ ";") = true := by
  have hlast : CToken.lex ";".toList = [";"] := by
    change CToken.lex [';'] = [";"]
    rw [CToken.lex_mark rfl, CToken.lex]
  have hreturn : result ≠ "return" := hresult.ne (k := .returnKey) rfl
  have helse : result ≠ "else" := hresult.ne (k := .elseKey) rfl
  rw [isPrototype, tokens_head hresult.word hname h, hlast]
  simp [declaresFunction, hresult.word.isName, hname.isName, hreturn, helse, getLast?_append]

end CLine

/-! ### Lines of statements -/

namespace Piece

theorem allLines_intersperse (width : Int) (ps : List Piece) :
    allLines width (ps.intersperse (.line "")) = [""].intercalate (ps.map (lines width)) := by
  induction ps with
  | nil => rfl
  | cons p ps ih =>
    cases ps with
    | nil => rfl
    | cons q ps =>
      rw [intersperse_cons_cons, allLines, allLines, ih]
      rfl

end Piece

theorem shift_ne_empty {gap : Int} (h : line ≠ "") : shift gap line ≠ "" := by
  rw [shift, if_neg (by simpa using h)]
  simp [h]

namespace Printer

variable {past : List Passed} {parent : List Nat} {index : Nat} {how : Option Mode} {c : Context} {n : Node}
  {pieces : List Piece}

theorem SaysTypes.ordinary (h : SaysTypes c n pieces) : ∀ content ∈ contents pieces, Ordinary content := by
  cases h with
  | silent _ _ hquiet =>
    intro content hcontent
    obtain ⟨hfilled, huntyped⟩ := hquiet.contents content hcontent
    exact huntyped.ordinary hfilled
  | uses _ hfilled hthird | named _ _ hfilled hthird =>
    exact forall_mem_singleton.mpr (ordinary_of_third hfilled hthird)

theorem Prints.ordinary (hprints : Prints options past parent index how ns pieces) :
    ∀ content ∈ contents pieces, Ordinary content := by
  refine hprints.forall_contents (fun hn _ hwording => (hwording.saysTypes hn).ordinary)
    (fun hhead => (untyped_heads hhead).ordinary (by simp)) ordinary_brace (fun _ => ?_) ordinary_endif
    fun _ _ => trivial
  exact (untyped_directive "ifdef" (isWord_of_all (by decide)) (by decide) rfl _).ordinary (by simp)

theorem Prints.no_prototypes (hprints : Prints options past parent index how ns pieces) (width : Int) :
    (allLines width pieces).filter isPrototype = [] := by
  rw [filter_eq_nil_iff]
  intro line hline
  obtain ⟨gap, content, hcontent, rfl⟩ := of_mem_allLines hline
  rw [isPrototype_shift, (hprints.ordinary content hcontent).other]
  decide

theorem Stands.isPrototype {place : Option Location} {body : List Node}
    (hn : Stands past [] index how (.mk (.method name parameters returnType) place body) c)
    (hhead : signature name parameters returnType c = some (head, inside)) :
    isPrototype (head ++ ";") = true := by
  obtain ⟨types, result, htypes, hresult, rfl, -⟩ := of_signature hhead
  obtain ⟨hname, hparameters⟩ : (method name parameters returnType).Named := hn.named_own
  obtain ⟨hall, -⟩ := parameters_declared hn.told.types hparameters htypes
  exact isPrototype_head (isType_resultType hn.told.types hresult) hname hall

theorem PrintsProgram.methods {header definitions : List Piece}
    (hprints : PrintsProgram options past index ns header definitions) (hmethods : Node.MethodsOutside ns) :
    ∃ methods : List (String × List Piece),
      signatures (Passed.knownTypes past) (Node.statements ns) = methods.map (fun m => some m.1) ∧
      (∀ width, (allLines width header).filter isPrototype = methods.map fun m => m.1 ++ ";") ∧
      definitions = methods.map (fun m => .braces m.1 m.2) ∧
      ∀ m ∈ methods, ∀ content ∈ contents m.2, Ordinary content := by
  induction hprints with
  | nil => exact ⟨[], rfl, fun _ => rfl, rfl, forall_mem_nil _⟩
  | @method past index name parameters returnType place body ns c inside head inner header definitions hn hhead
      hinner _ ih =>
      obtain ⟨hbody, hrest⟩ := forall_mem_cons.mp hmethods
      obtain ⟨methods, hsignatures, hheader, hdefinitions, hcontents⟩ := ih hrest
      refine ⟨(head, inner) :: methods, ?_, fun width => ?_, ?_, forall_mem_cons.mpr ⟨hinner.ordinary, hcontents⟩⟩
      · have hown : (Passed.knownTypes past).signature? name parameters returnType = some head :=
          hn.told.agrees.types ▸ signature_eq hhead
        have hinside : ∀ s ∈ Node.statements body, s.isMethod = false := hbody
        rw [statements_cons, signatures, hown, signatures_append hinside, map_cons,
          ← hsignatures, knownTypes_walk, statements_singleton, foldl_cons]
        rfl
      · rw [Piece.allLines, Piece.lines, singleton_append, filter_cons_of_pos (hn.isPrototype hhead),
          hheader, map_cons]
      · rw [hdefinitions, map_cons]
  | @other past index n ns pieces header definitions hmethod hnode _ ih =>
    obtain ⟨hbody, hrest⟩ := forall_mem_cons.mp hmethods
    obtain ⟨methods, hsignatures, hheader, hdefinitions, hcontents⟩ := ih hrest
    refine ⟨methods, ?_, fun width => ?_, hdefinitions, hcontents⟩
    · have hplain : ∀ s ∈ Node.statements [n], s.isMethod = false := by
        rw [statements_singleton]
        exact forall_mem_cons.mpr ⟨hmethod, hbody⟩
      rw [statements_split, signatures_append hplain, ← hsignatures, knownTypes_walk]
    · rw [allLines_append, filter_append, hnode.no_prototypes, hheader, nil_append]

end Printer

/-- The prototypes in the header are the signatures of the methods of the program, in order, and the code
is their definitions in the same order, with one empty line between two of them. -/
theorem prototypes_match_definitions {options : Options} {source file : String} {lines : List String}
    {tokens : List Token} {program : Program} {start e : Emitter} {output : String}
    (htokens : tokenize source file = .ok tokens)
    (hread : readProgram tokens file lines = .ok program) (hstart : options.emitter lines = .ok start)
    (hrun : emitProgram start options program.nodes = (.ok output, e)) :
    output = e.output options.includes ∧
    ∃ methods : List (String × List String),
      Statement.signatures TypeTable.builtin (Node.statements program.nodes) =
        methods.map (fun m => some m.1) ∧
      e.header.filter CLine.isPrototype = methods.map (fun m => m.1 ++ ";") ∧
      e.code = [""].intercalate (methods.map fun m =>
        (m.1 ++ " \x7b") :: (m.2.map (shift options.indentWidth) ++ ["\x7d"])) ∧
      ∀ m ∈ methods, ∀ line ∈ m.2, line ≠ "" := by
  obtain ⟨houtput, header, definitions, hprints, -, hheader, hcode⟩ :=
    emitProgram_printout htokens hread hstart hrun
  obtain ⟨hmethods, -⟩ := readProgram_statements htokens hread
  obtain ⟨methods, hsignatures, hprototypes, hdefinitions, hcontents⟩ := hprints.methods hmethods
  refine ⟨houtput, methods.map fun m => (m.1, Piece.allLines options.indentWidth m.2), ?_, ?_, ?_, ?_⟩
  · rw [List.map_map]
    exact hsignatures
  · rw [hheader, hprototypes, List.map_map]
    rfl
  · rw [hcode, Piece.allLines_intersperse, hdefinitions, List.map_map, List.map_map]
    rfl
  · rw [List.forall_mem_map]
    intro m hm line hline
    obtain ⟨gap, content, hcontent, rfl⟩ := Piece.of_mem_allLines hline
    exact shift_ne_empty (hcontents m hm content hcontent).filled

/-- Declarations and conditional blocks stand between the prototypes of a header. -/
theorem prototypes_match_definitions_of_mixed_header :
    ∃ tokens program start output e,
      tokenize ("STRUCTURE V:\n    Array(Int, 3)\nMETHOD first(V v, Int n) -> Int:\n    RETURN n\n" ++
        "SETMODE M(A, B)\nCHOOSE M:\n    A:\n        Int(x)\nMETHOD second:\n    PASS") "f" = .ok tokens ∧
      readProgram tokens "f" [] = .ok program ∧ ({} : Options).emitter = .ok start ∧
      emitProgram start {} program.nodes = (.ok output, e) ∧
      e.header = ["typedef int V[3];", "int first(V v, int n);", "/** M: M_A | M_B **/", "#ifdef M_A",
        "    int x;", "#endif", "void second(void);"] ∧
      e.header.filter CLine.isPrototype = ["int first(V v, int n);", "void second(void);"] ∧
      ∃ methods : List (String × List String),
        methods.map Prod.fst = ["int first(V v, int n)", "void second(void)"] ∧
        e.code = [""].intercalate (methods.map fun m => (m.1 ++ " \x7b") :: (m.2.map (shift 4) ++ ["\x7d"])) := by
  refine exists_emitted (fun program _ e => e.header = ["typedef int V[3];", "int first(V v, int n);",
      "/** M: M_A | M_B **/", "#ifdef M_A", "    int x;", "#endif", "void second(void);"] ∧
    Statement.signatures builtin (Node.statements program.nodes) =
      [some "int first(V v, int n)", some "void second(void)"]) (by decide +kernel) ?_
  rintro tokens program start output e htokens hread hstart hrun ⟨hheader, hsignatures⟩
  obtain ⟨-, methods, hmethods, hprototypes, hcode, -⟩ :=
    prototypes_match_definitions htokens hread hstart hrun
  have hheads : methods.map Prod.fst = ["int first(V v, int n)", "void second(void)"] := by
    apply map_injective_iff.mpr (some_injective String)
    rw [List.map_map]
    exact hmethods.symm.trans hsignatures
  refine ⟨hheader, ?_, methods, hheads, hcode⟩
  have hlines : methods.map (fun m => m.1 ++ ";") = (methods.map Prod.fst).map (· ++ ";") := by
    rw [List.map_map]
    rfl
  rw [hprototypes, hlines, hheads]
  rfl

end CirOutline
