import CirOutline.Emission.Statement
import CirOutline.Proofs.Emission.Piece
import CirOutline.Proofs.Layout.Statements

/-!
Emission as a plain recursion over the tree. A printer turns what has been learnt so far into pieces
of output and what is known after them; it has no lists of lines to write to, counts no groups and
keeps no journal. Where the names of a program start as words do, the text that it prints shows how
it is nested.

What is printed twice is compared piece by piece: `Alongside R p q` says that two printers print what is
related by `R`, and one walk over the tree lifts that from the statements without blocks to programs.
-/

namespace CirOutline

open Text Expression Piece Option

variable {P : String → Prop} {c : Context} {dimensions : List String} {type : CType} {table : TypeTable}
  {name : String}

/-- The output of a part of a program, given what has been learnt before it, and what is known after
it; none where the part has no C form. -/
abbrev Printer := Context → Option (List Piece × Context)

namespace Printer

variable {p : Printer}

def nothing : Printer := fun c => some ([], c)

def say (content : String) : Printer := fun c => some ([.line content], c)

def andThen (p q : Printer) : Printer := fun c => do
  let (before, c) ← p c
  let (after, c) ← q c
  return (before ++ after, c)

def braced (opening : String) (inner : Printer) : Printer := fun c => do
  let (pieces, c) ← inner c
  return ([.braces opening pieces], c)

def declaration (typeName : String) (names : List String) (isMutable : Bool) : Printer := fun c => do
  guard (typeName ≠ arrayTypeName)
  let type ← (c.types.resolve typeName []).toOption
  let scope := names.foldl (fun scope name => scope.declare ⟨some name, type, isMutable⟩) c.scope
  return ([.line (type.text ++ " " ++ ", ".intercalate names ++ ";")], { c with scope := scope })

/-- A statement for a mutable variable, a preprocessor definition for another. -/
def assignment (name : String) (expression : List Token) : Printer := fun c => do
  let b ← c.scope.lookup (some name)
  let value := render expression
  if b.isMutable then say (name ++ " = " ++ value ++ ";") c
  else say ("#define " ++ name ++ " ((" ++ b.type.text ++ ") " ++ value ++ ")") c

def structureMember (name : String) (member : Node) : Printer :=
  match member.statement with
  | .pass => say ("typedef struct " ++ name ++ " " ++ name ++ ";")
  | .declaration typeName (element :: dimension :: dimensions) _ => fun c => do
    guard (typeName = arrayTypeName)
    let type ← (c.types.resolve element (dimension :: dimensions)).toOption
    say ("typedef " ++ type.declare name ++ ";") c
  | _ => fun _ => none

def structureType (name : String) : List Node → Printer
  | [member] => fun c => structureMember name member { c with types := c.types.register name }
  | _ => fun _ => none

/-- A loop over a range. The loop declares its variable unless there is one. -/
def forLoop (start stop : List Token) (inner : Printer) : Printer := fun c => do
  let iterator := Statement.iterator? start
  let counter := Scope.nameText iterator
  let initial := render start
  let tail := "; " ++ counter ++ " <= " ++ render stop ++ "; " ++ counter ++ "++)"
  match c.scope.lookup iterator with
  | some _ => braced ("for(" ++ initial ++ tail) inner c
  | none =>
    let (pieces, c) ← braced ("for(int " ++ initial ++ tail) inner
      { c with scope := c.scope.declare ⟨iterator, CType.int, true⟩ }
    return (pieces, { c with scope := c.scope.forget iterator })

def repeatLoop (count : List Token) (inner : Printer) : Printer := fun c => do
  let (counter, pool) ← c.pool.acquire?
  let (pieces, c) ← braced
    ("for(int " ++ counter ++ " = 0; " ++ counter ++ " < " ++ render count ++ "; " ++
      counter ++ "++)") inner { c with pool := pool }
  let pool ← (c.pool.release counter).toOption
  return (pieces, { c with pool := pool })

def defaultMode (name choice : String) : Printer := fun c => do
  let mode ← (c.modes.validate name choice).toOption
  let modes := match mode.current with
    | none => c.modes.put { mode with current := some choice }
    | some _ => c.modes
  let condition := " && ".intercalate (mode.symbols.map fun symbol => "!defined(" ++ symbol ++ ")")
  return ([.fallback condition (mode.symbol choice)], { c with modes := modes })

def defineMode (name choice : String) : Printer := fun c => do
  let mode ← (c.modes.validate name choice).toOption
  let before := mode.current.toList.map fun current => line ("#undef " ++ mode.symbol current)
  return (before ++ [.line ("#define " ++ mode.symbol choice)],
    { c with modes := c.modes.put { mode with current := some choice } })

def modeOption (mode : Mode) (choice : String) (inner : Printer) : Printer := fun c => do
  let _ ← (c.modes.validate mode.name choice).toOption
  let (pieces, c) ← inner c
  return ([.option (mode.symbol choice) pieces], c)

def comment (options : Options) (text : String) : Printer :=
  if options.docComments && "///".toList.isPrefixOf text.toList then
    say ("// " ++ trim (String.ofList (text.toList.drop 3)))
  else nothing

/-- A statement that stands in the place of its node. A method stands in two places. -/
def statement (options : Options) (s : Statement) (body : List Node) (inner : Printer)
    (choices : Mode → Printer) : Printer :=
  match s with
  | .comment text => comment options text
  | .declaration typeName names isMutable => declaration typeName names isMutable
  | .assignment name expression => assignment name expression
  | .call name arguments => say (name ++ "(" ++ render arguments ++ ");")
  | .pass => say Emission.todoMark
  | .returns expression =>
    let value := render expression
    say (if value.isEmpty then "return;" else "return " ++ value ++ ";")
  | .setMode name choices => fun c =>
    say ("/** " ++ name ++ ": " ++ " | ".intercalate (Mode.symbols ⟨name, choices, none⟩) ++ " **/")
      { c with modes := c.modes.register name choices }
  | .defaultMode name choice => defaultMode name choice
  | .defineMode name choice => defineMode name choice
  | .structType name => structureType name body
  | .ifThen condition => braced ("if(" ++ render condition ++ ")") inner
  | .elseIf condition => braced ("else if(" ++ render condition ++ ")") inner
  | .otherwise => braced "else" inner
  | .whileLoop condition => braced ("while(" ++ render condition ++ ")") inner
  | .forLoop start stop => forLoop start stop inner
  | .repeatLoop count => repeatLoop count inner
  | .choose name => fun c => do choices (← (c.modes.get name).toOption) c
  | .method .. | .option _ => fun _ => none

mutual
def node (options : Options) : Node → Printer
  | .mk s _ body => statement options s body (nodes options body) fun mode => choices options mode body

def nodes (options : Options) : List Node → Printer
  | [] => nothing
  | n :: rest => (node options n).andThen (nodes options rest)

def choices (options : Options) (mode : Mode) : List Node → Printer
  | [] => nothing
  | .mk s _ body :: rest =>
    (match s with
      | .option choice => modeOption mode choice (nodes options body)
      | _ => statement options s body (nodes options body) fun mode => choices options mode body).andThen
      (choices options mode rest)
end

def resultType (returnType : Option String) (c : Context) : Option String :=
  match returnType with
  | none => some CType.void
  | some name =>
    if name.isEmpty then some CType.void else (c.types.resolve name []).toOption.map CType.name

def head (result name : String) (declared : List (Parameter × CType)) : String :=
  let list := ", ".intercalate (declared.map fun (p, type) => type.declare p.name)
  result ++ " " ++ name ++ "(" ++ (if list.isEmpty then "void" else list) ++ ")"

/-- The head of a method in C, and what is known inside the method. -/
def signature (name : String) (parameters : List Parameter) (returnType : Option String)
    (c : Context) : Option (String × Context) := do
  let types ← parameters.mapM fun p => (c.types.resolve p.typeName p.dimensions).toOption
  let result ← resultType returnType c
  let declared := parameters.zip types
  let scope := declared.foldl (fun scope (p, type) => scope.declare ⟨some p.name, type, true⟩)
    c.scope.enterMethod
  return (head result name declared, { c with scope := scope })

/-- The header of a program and the definitions of its methods. -/
def program (options : Options) : List Node → Context → Option (List Piece × List Piece × Context)
  | [], c => some ([], [], c)
  | .mk s location body :: rest, c =>
    match s with
    | .method name parameters returnType => do
      let (head, inside) ← signature name parameters returnType c
      let (pieces, inside) ← nodes options body inside
      let (header, definitions, after) ← program options rest
        { inside with scope := inside.scope.exitMethod }
      return (.line (head ++ ";") :: header, .braces head pieces :: definitions, after)
    | _ => do
      let (pieces, c) ← node options (.mk s location body) c
      let (header, definitions, after) ← program options rest c
      return (pieces ++ header, definitions, after)

end Printer

theorem TypeTable.forall_register (h : ∀ entry ∈ table, P entry.2) (hname : P name) :
    ∀ entry ∈ register name table, P entry.2 := by
  induction table with
  | nil => simpa [register] using hname
  | cons entry rest ih =>
    obtain ⟨hentry, hrest⟩ := List.forall_mem_cons.mp h
    rw [register]
    split_ifs
    · exact List.forall_mem_cons.mpr ⟨hname, hrest⟩
    · exact List.forall_mem_cons.mpr ⟨hentry, ih hrest⟩

theorem TypeTable.forall_resolve (h : ∀ entry ∈ table, P entry.2)
    (htype : (table.resolve name dimensions).toOption = some type) :
    P type.name ∧ type.dimensions = dimensions := by
  unfold resolve at htype
  cases hfound : table.lookup name with
  | none => simp [hfound, Except.toOption] at htype
  | some spelling =>
    rw [hfound] at htype
    obtain rfl := some.inj htype
    obtain ⟨before, after, rfl, -⟩ := List.lookup_eq_some_iff.mp hfound
    exact ⟨h (name, spelling) (by simp), rfl⟩

def TypeTable.Worded (table : TypeTable) : Prop := ∀ entry ∈ table, startsWord entry.2 = true

theorem TypeTable.worded_register (h : table.Worded) (hname : startsWord name = true) :
    (register name table).Worded :=
  forall_register (P := fun spelling => startsWord spelling = true) h hname

theorem TypeTable.worded_resolve (h : table.Worded)
    (htype : (table.resolve name dimensions).toOption = some type) :
    startsWord type.name = true :=
  (forall_resolve (P := fun spelling => startsWord spelling = true) h htype).1

namespace Printer

/-- What the printer prints shows how it is nested, given words for types. -/
def Shows (p : Printer) : Prop :=
  ∀ c pieces c', c.types.Worded → p c = some (pieces, c') → AllEvident pieces ∧ c'.types.Worded

theorem nothing_shows : Shows nothing := by
  rintro c pieces c' hc ⟨⟩
  exact ⟨trivial, hc⟩

theorem none_shows : Shows fun _ => none := by
  intro c pieces c' hc h
  cases h

theorem say_shows {content : String} (h : role content = .plain) : Shows (say content) := by
  rintro c pieces c' hc ⟨⟩
  exact ⟨⟨h, trivial⟩, hc⟩

theorem comment_shows (options : Options) (text : String) : Shows (comment options text) := by
  unfold comment
  split_ifs
  · apply say_shows
    apply role_of_remark
    rw [String.toList_append]
    rfl
  · exact nothing_shows

theorem declaration_shows (typeName : String) (names : List String) (isMutable : Bool) :
    Shows (declaration typeName names isMutable) := by
  intro c pieces c' hc h
  obtain ⟨_, -, h⟩ := bind_eq_some_iff.mp h
  obtain ⟨type, htype, h⟩ := bind_eq_some_iff.mp h
  cases h
  refine ⟨⟨role_of_statement ?_, trivial⟩, hc⟩
  simp only [CType.text, String.append_assoc]
  exact startsWord_append (TypeTable.worded_resolve hc htype) _

theorem assignment_shows (hname : startsWord name = true)
    (expression : List Token) : Shows (assignment name expression) := by
  intro c pieces c' hc h
  obtain ⟨b, -, h⟩ := bind_eq_some_iff.mp h
  dsimp only at h
  split_ifs at h
  · refine say_shows (role_of_statement ?_) c pieces c' hc h
    rw [String.append_assoc]
    exact startsWord_append hname _
  · refine say_shows ?_ c pieces c' hc h
    simp only [String.append_assoc]
    exact role_of_directive rfl _

theorem structureMember_shows (name : String) (member : Node) : Shows (structureMember name member) := by
  unfold structureMember
  split
  · apply say_shows
    apply role_of_statement
    simp only [String.append_assoc]
    exact startsWord_append rfl _
  · intro c pieces c' hc h
    obtain ⟨_, -, h⟩ := bind_eq_some_iff.mp h
    obtain ⟨type, -, h⟩ := bind_eq_some_iff.mp h
    refine say_shows (role_of_statement ?_) c pieces c' hc h
    exact startsWord_append rfl _
  · exact none_shows

theorem structureType_shows (hname : startsWord name = true) (body : List Node) :
    Shows (structureType name body) := by
  unfold structureType
  split
  · intro c pieces c' hc h
    exact structureMember_shows name _ _ pieces c' (TypeTable.worded_register hc hname) h
  · exact none_shows

theorem defaultMode_shows (name choice : String) : Shows (defaultMode name choice) := by
  intro c pieces c' hc h
  obtain ⟨mode, -, h⟩ := bind_eq_some_iff.mp h
  cases h
  exact ⟨⟨trivial, trivial⟩, hc⟩

theorem defineMode_shows (name choice : String) : Shows (defineMode name choice) := by
  intro c pieces c' hc h
  obtain ⟨mode, -, h⟩ := bind_eq_some_iff.mp h
  cases h
  have hdefine : role ("#define " ++ mode.symbol choice) = .plain :=
    role_of_directive rfl _
  refine ⟨allEvident_append.mpr ⟨?_, hdefine, trivial⟩, hc⟩
  cases mode.current with
  | none => exact trivial
  | some current => exact ⟨role_of_directive rfl _, trivial⟩

theorem leaf_shows (options : Options) {s : Statement} (hs : s.Worded)
    (hleaf : s.opensBlock = true → ∃ name, s = .structType name) (body : List Node) :
    (statement options s body nothing fun _ => nothing).Shows := by
  cases s with
  | comment text => exact comment_shows options text
  | declaration typeName names isMutable => exact declaration_shows _ _ _
  | assignment name expression => exact assignment_shows hs expression
  | call name arguments =>
    apply say_shows
    have hline : name ++ "(" ++ render arguments ++ ");" =
        name ++ ("(" ++ render arguments ++ ")") ++ ";" := by
      simp only [String.append_assoc]
      rfl
    rw [hline]
    exact role_of_statement (startsWord_append hs _)
  | pass => exact say_shows rfl
  | returns expression =>
    apply say_shows
    split_ifs
    · decide
    · exact role_of_statement (startsWord_append rfl _)
  | setMode mode choices =>
    intro c pieces c' hc h
    have hsay : Shows (say ("/** " ++ mode ++ ": " ++
        " | ".intercalate (Mode.symbols ⟨mode, choices, none⟩) ++ " **/")) := by
      apply say_shows
      apply role_of_delimited
      · simp only [String.toList_append, List.append_assoc]
        rfl
      · rw [String.toList_append, List.getLast?_append]
        rfl
    exact hsay { c with modes := c.modes.register mode choices } pieces c' hc h
  | defaultMode mode choice => exact defaultMode_shows _ _
  | defineMode mode choice => exact defineMode_shows _ _
  | structType name => exact structureType_shows hs body
  | method | ifThen | elseIf | otherwise | whileLoop | forLoop | repeatLoop | choose | option =>
    obtain ⟨_, ⟨⟩⟩ := hleaf rfl

theorem signature_shows {parameters : List Parameter} {returnType : Option String} {inside : Context}
    {head : String} (hc : c.types.Worded) (h : signature name parameters returnType c = some (head, inside)) :
    startsWord head = true ∧ inside.types.Worded := by
  obtain ⟨types, -, h⟩ := bind_eq_some_iff.mp h
  obtain ⟨result, hresult, h⟩ := bind_eq_some_iff.mp h
  cases h
  refine ⟨?_, hc⟩
  simp only [head, String.append_assoc]
  apply startsWord_append
  unfold resultType at hresult
  split at hresult
  · obtain rfl := some.inj hresult
    decide
  · split_ifs at hresult
    · obtain rfl := some.inj hresult
      decide
    · obtain ⟨type, htype, rfl⟩ := map_eq_some_iff.mp hresult
      exact TypeTable.worded_resolve hc htype

/-! ### Two printers side by side -/

/-- A relation of printouts that blocks around related printouts keep. -/
structure Composes (R : List Piece → List Piece → Prop) : Prop where
  refl : ∀ ps, AllEvident ps → R ps ps
  append : ∀ {ps qs ps' qs'}, R ps qs → R ps' qs' → R (ps ++ ps') (qs ++ qs')
  braces : ∀ {opening ps qs}, startsWord opening = true → R ps qs → R [.braces opening ps] [.braces opening qs]
  option : ∀ {symbol ps qs}, R ps qs → R [.option symbol ps] [.option symbol qs]

/-- Two results of printing, with related printouts and one context, or none. -/
inductive Printed (R : List Piece → List Piece → Prop) :
    Option (List Piece × Context) → Option (List Piece × Context) → Prop
  | none : Printed R none none
  | some {ps qs : List Piece} {c : Context} (h : R ps qs) (hc : c.types.Worded) :
      Printed R (some (ps, c)) (some (qs, c))

def Alongside (R : List Piece → List Piece → Prop) (p q : Printer) : Prop :=
  ∀ c, c.types.Worded → Printed R (p c) (q c)

variable {R : List Piece → List Piece → Prop} {q p' q' : Printer} {s : Statement} {options options' : Options}

theorem Printed.bind {x y : Option (List Piece × Context)} (h : Printed R x y)
    {f g : List Piece × Context → Option (List Piece × Context)}
    (hfg : ∀ ps qs c, R ps qs → c.types.Worded → Printed R (f (ps, c)) (g (qs, c))) :
    Printed R (x.bind f) (y.bind g) := by
  cases h with
  | none => exact .none
  | some h hc => exact hfg _ _ _ h hc

section

variable (hR : Composes R)
include hR

theorem Shows.alongside (hp : p.Shows) : Alongside R p p := by
  intro c hc
  cases h : p c with
  | none => exact .none
  | some printed =>
    obtain ⟨hshows, hc'⟩ := hp c _ _ hc h
    exact .some (hR.refl _ hshows) hc'

section

variable (hp : Alongside R p p')
include hp

theorem Alongside.andThen (hq : Alongside R q q') : Alongside R (p.andThen q) (p'.andThen q') := fun c hc =>
  (hp c hc).bind fun _ _ c1 hps hc1 => (hq c1 hc1).bind fun _ _ _ hqs hc2 => .some (hR.append hps hqs) hc2

theorem Alongside.braced {opening : String} (hopening : startsWord opening = true) :
    Alongside R (braced opening p) (braced opening p') := fun c hc =>
  (hp c hc).bind fun _ _ _ hps hc1 => .some (hR.braces hopening hps) hc1

theorem Alongside.forLoop (start stop : List Token) : Alongside R (forLoop start stop p) (forLoop start stop p') := by
  have hword : ∀ opening : String, startsWord opening = true → ∀ second rest,
      startsWord (opening ++ second ++ rest) = true := by
    intro opening hopening second rest
    rw [String.append_assoc]
    exact startsWord_append hopening _
  intro c hc
  cases hfound : c.scope.lookup (Statement.iterator? start) with
  | some b =>
    simp only [Printer.forLoop, hfound]
    exact hp.braced hR (hword "for(" rfl _ _) c hc
  | none =>
    simp only [Printer.forLoop, hfound]
    exact (hp.braced hR (hword "for(int " rfl _ _)
      { c with scope := c.scope.declare ⟨Statement.iterator? start, CType.int, true⟩ } hc).bind
      fun _ _ _ hps hc1 => .some hps hc1

theorem Alongside.repeatLoop (count : List Token) : Alongside R (repeatLoop count p) (repeatLoop count p') := by
  intro c hc
  unfold Printer.repeatLoop
  cases c.pool.acquire? with
  | none => exact .none
  | some taken =>
    refine (hp.braced hR ?_ { c with pool := taken.2 } hc).bind fun _ _ c1 hps hc1 => ?_
    · simp only [String.append_assoc]
      exact startsWord_append rfl _
    · dsimp only
      cases (c1.pool.release taken.1).toOption with
      | none => exact .none
      | some pool => exact .some hps hc1

theorem Alongside.modeOption (mode : Mode) (choice : String) :
    Alongside R (modeOption mode choice p) (modeOption mode choice p') := by
  intro c hc
  unfold Printer.modeOption
  cases (c.modes.validate mode.name choice).toOption with
  | none => exact .none
  | some found => exact (hp c hc).bind fun _ _ _ hps hc1 => .some (hR.option hps) hc1

theorem statement_alongside {body : List Node} {choices choices' : Mode → Printer}
    (hleaf : (s.opensBlock = true → ∃ name, s = .structType name) → Alongside R
      (statement options s body nothing fun _ => nothing) (statement options' s body nothing fun _ => nothing))
    (hchoices : ∀ mode, Alongside R (choices mode) (choices' mode)) :
    Alongside R (statement options s body p choices) (statement options' s body p' choices') := by
  cases s with
  | ifThen condition | elseIf condition | whileLoop condition =>
    apply hp.braced hR
    rw [String.append_assoc]
    exact startsWord_append rfl _
  | otherwise => exact hp.braced hR rfl
  | forLoop start stop => exact hp.forLoop hR start stop
  | repeatLoop count => exact hp.repeatLoop hR count
  | choose name =>
    intro c hc
    change Printed R ((c.modes.get name).toOption.bind fun mode => choices mode c)
      ((c.modes.get name).toOption.bind fun mode => choices' mode c)
    cases (c.modes.get name).toOption with
    | none => exact .none
    | some mode => exact hchoices mode c hc
  | method | option => exact fun _ _ => .none
  | structType name => exact hleaf fun _ => ⟨name, rfl⟩
  | _ => exact hleaf nofun

end

variable {S : Statement → Prop} (hleaf : ∀ {s} (body : List Node), S s →
  (s.opensBlock = true → ∃ name, s = .structType name) → Alongside R
    (statement options s body nothing fun _ => nothing) (statement options' s body nothing fun _ => nothing))
include hleaf

theorem nodes_alongside (ns : List Node) (h : ∀ s ∈ Node.statements ns, S s) :
    Alongside R (nodes options ns) (nodes options' ns) ∧
      ∀ mode, Alongside R (choices options mode ns) (choices options' mode ns) := by
  have hnothing : Alongside R nothing nothing := nothing_shows.alongside hR
  induction ns using Node.forest_induction with
  | nil => exact ⟨hnothing, fun _ => hnothing⟩
  | cons s location body ns ihbody ihns =>
    obtain ⟨hs, hbody, hns⟩ := Node.forall_statements_cons.mp h
    obtain ⟨hinner, hchoices⟩ := ihbody hbody
    have hstatement := statement_alongside hR hinner (hleaf body hs) hchoices
    refine ⟨hstatement.andThen hR (ihns hns).1, fun mode => ?_⟩
    unfold choices
    cases s with
    | option choice => exact (hinner.modeOption hR mode choice).andThen hR ((ihns hns).2 mode)
    | _ => exact hstatement.andThen hR ((ihns hns).2 mode)

theorem program_alongside (ns : List Node) (hS : ∀ s ∈ Node.statements ns, S s) :
    ∀ {c after after' : Context} {header definitions header' definitions' : List Piece}, c.types.Worded →
      program options ns c = some (header, definitions, after) →
      program options' ns c = some (header', definitions', after') →
      R header header' ∧ R definitions definitions' := by
  induction ns with
  | nil =>
    intro c after after' header definitions header' definitions' hc h h'
    cases h
    cases h'
    exact ⟨hR.refl [] trivial, hR.refl [] trivial⟩
  | cons n ns ih =>
    intro c after after' header definitions header' definitions' hc h h'
    obtain ⟨s, location, body⟩ := n
    obtain ⟨hs, hbody, hrest⟩ := Node.forall_statements_cons.mp hS
    obtain ⟨hinner, hchoices⟩ := nodes_alongside hR hleaf body hbody
    unfold program at h h'
    split at h
    · dsimp only at h'
      obtain ⟨⟨head, inside⟩, hhead, h⟩ := bind_eq_some_iff.mp h
      obtain ⟨⟨pieces, last⟩, hpieces, h⟩ := bind_eq_some_iff.mp h
      obtain ⟨⟨later, others, end1⟩, hlater, h⟩ := bind_eq_some_iff.mp h
      cases h
      rw [hhead, bind_eq_bind, bind_some] at h'
      obtain ⟨⟨pieces', last'⟩, hpieces', h'⟩ := bind_eq_some_iff.mp h'
      obtain ⟨⟨later', others', end2⟩, hlater', h'⟩ := bind_eq_some_iff.mp h'
      cases h'
      obtain ⟨hword, hinside⟩ := signature_shows hc hhead
      have hprinted := hinner inside hinside
      rw [hpieces, hpieces'] at hprinted
      cases hprinted with
      | some hps hlast =>
        obtain ⟨hheader, hdefinitions⟩ :=
          ih hrest (c := { last with scope := last.scope.exitMethod }) hlast hlater hlater'
        have hprototype := hR.refl [.line (head ++ ";")] ⟨role_of_statement hword, trivial⟩
        exact ⟨hR.append hprototype hheader, hR.append (hR.braces hword hps) hdefinitions⟩
    · next hmethod =>
      obtain ⟨⟨pieces, last⟩, hpieces, h⟩ := bind_eq_some_iff.mp h
      obtain ⟨⟨later, others, end1⟩, hlater, h⟩ := bind_eq_some_iff.mp h
      cases h
      split at h'
      · exact (hmethod _ _ _ rfl).elim
      · obtain ⟨⟨pieces', last'⟩, hpieces', h'⟩ := bind_eq_some_iff.mp h'
        obtain ⟨⟨later', others', end2⟩, hlater', h'⟩ := bind_eq_some_iff.mp h'
        cases h'
        have hprinted := statement_alongside hR hinner (hleaf body hs) hchoices c hc
        change Printed R (node options (.mk s location body) c) (node options' (.mk s location body) c) at hprinted
        rw [hpieces, hpieces'] at hprinted
        cases hprinted with
        | some hps hlast =>
          obtain ⟨hheader, hdefinitions⟩ := ih hrest hlast hlater hlater'
          exact ⟨hR.append hps hheader, hdefinitions⟩

end

theorem program_shows (options : Options) (forest : List Node)
    (hworded : ∀ s ∈ Node.statements forest, s.Worded) {after : Context} {header definitions : List Piece}
    (hc : c.types.Worded) (h : program options forest c = some (header, definitions, after)) :
    AllEvident header ∧ AllEvident definitions := by
  have hR : Composes fun ps _ => AllEvident ps :=
    ⟨fun _ h => h, fun h h' => allEvident_append.mpr ⟨h, h'⟩, fun hword h => ⟨⟨hword, h⟩, trivial⟩,
      fun h => ⟨h, trivial⟩⟩
  exact program_alongside hR (fun body hs hleaf => (leaf_shows options hs hleaf body).alongside hR) forest hworded
    hc h h

end Printer

end CirOutline
