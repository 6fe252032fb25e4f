import CirOutline.Emission.Emitter

/-!
The C form of each statement, and of whole programs by a walk over the tree.
-/

namespace CirOutline

namespace Emission

/-- What stands for a part that is left open. -/
def todoMark : String := "//TODO:"

/-- A comment. Only comments with three slashes are copied, and only on demand. -/
def comment (options : Options) (text : String) : Emission Unit :=
  if options.docComments && "///".toList.isPrefixOf text.toList then
    emit options ("// " ++ Text.trim (String.ofList (text.toList.drop 3)))
  else pure ()

def resolve (name : String) (dimensions : List String) (place : Option Location) :
    Emission CType := do
  orFail place ((← get).context.types.resolve name dimensions)

def declaration (options : Options) (typeName : String) (names : List String) (isMutable : Bool)
    (place : Option Location) : Emission Unit := do
  if typeName == arrayTypeName then
    fail (.unsupported "Array declarations outside a STRUCTURE"
      (some "declare the array as a STRUCTURE and use its name as the type")) place
  else
    let type ← resolve typeName [] place
    names.forM fun name => declare ⟨some name, type, isMutable⟩
    emit options (type.text ++ " " ++ ", ".intercalate names ++ ";")

/-- An assignment: a statement for a mutable variable, a preprocessor definition for another. -/
def assignment (options : Options) (name : String) (expression : List Token)
    (place : Option Location) : Emission Unit := do
  let scope := (← get).context.scope
  match scope.lookup (some name) with
  | none =>
    match scope.similar name with
    | .ok names => fail (.undeclaredName name names) place
    | .error b => breakOff b
  | some b =>
    let value := Expression.render expression
    if b.isMutable then
      requireMethod ("assign to mutable '" ++ name ++ "'") place
      emit options (name ++ " = " ++ value ++ ";")
    else emit options ("#define " ++ name ++ " ((" ++ b.type.text ++ ") " ++ value ++ ")")

/-- The member of a named type: an array, or nothing yet. -/
def structureMember (options : Options) (name : String) (member : Node) : Emission Unit := do
  let unsupported :=
    fail (.unsupported (member.statement.kindName ++ " inside STRUCTURE")
      (some "use a single Array declaration or PASS")) member.location
  match member.statement with
  | .pass => emit options ("typedef struct " ++ name ++ " " ++ name ++ ";")
  | .declaration typeName names _ =>
    if typeName != arrayTypeName then unsupported
    else match names with
    | [] => breakOff .missingElementType
    | [element] =>
      fail (.unsupported "Array without dimensions" (some ("e.g. 'Array(" ++ element ++ ", 4)'")))
        member.location
    | element :: dimensions =>
      let type ← resolve element dimensions member.location
      emit options ("typedef " ++ type.declare name ++ ";")
  | _ => unsupported

def structureType (options : Options) (name : String) (body : List Node)
    (place : Option Location) : Emission Unit := do
  learn fun context => { context with types := context.types.register name }
  match body with
  | [member] => structureMember options name member
  | _ => fail (.unsupported "complex structures currently unimplemented" none) place

def parameterTypes (parameters : List Parameter) (place : Option Location) :
    Emission (List CType) :=
  parameters.mapM fun p => resolve p.typeName p.dimensions place

def resultType (returnType : Option String) (place : Option Location) : Emission String := do
  match returnType with
  | none => return CType.void
  | some name => if name.isEmpty then return CType.void else return (← resolve name [] place).name

/-- A method: a prototype where the method stands, and a definition in the code. -/
def method (options : Options) (name : String) (parameters : List Parameter)
    (returnType : Option String) (place : Option Location) (body : Emission Unit) :
    Emission Unit := do
  let types ← parameterTypes parameters place
  let result ← resultType returnType place
  let declared := parameters.zip types
  let list := ", ".intercalate (declared.map fun (p, type) => type.declare p.name)
  let signature := result ++ " " ++ name ++ "(" ++ (if list.isEmpty then "void" else list) ++ ")"
  emit options (signature ++ ";")
  learn fun context => { context with scope := context.scope.enterMethod }
  declared.forM fun (p, type) => declare ⟨some p.name, type, true⟩
  let enclosing := (← get).stream
  modify fun e => { e with
    stream := .code
    code := if e.code.isEmpty then e.code else e.code ++ [""]
    inMethod := true }
  braced options signature body
  modify fun e => { e with stream := enclosing, inMethod := false }
  learn fun context => { context with scope := context.scope.exitMethod }

/-- The type of an argument as far as it can be told: a number, or a declared variable. -/
def knownType? (scope : Scope) (t : Token) : Option String :=
  if t.kind == .number then some CType.int.text
  else if t.kind == .word then (scope.lookup (some t.raw)).map fun b => b.type.text
  else none

/-- The type of an argument for the journal; a single token that is not known is worth a warning. -/
def argumentType (callee : String) (argument : List Token) : Emission String := do
  match argument with
  | [t] =>
    match knownType? (← get).context.scope t with
    | some type => return type
    | none =>
      note .warning (t.location.text ++ ": cannot infer type of argument '" ++ t.raw ++ "' to " ++
        callee ++ "()")
      return "?"
  | _ => return "?"

def call (options : Options) (name : String) (arguments : List Token) (place : Option Location) :
    Emission Unit := do
  requireMethod "call method" place
  let types ← (Expression.arguments arguments).mapM (argumentType name)
  note .debug ("Call " ++ name ++ "(" ++ ", ".intercalate types ++ ")")
  emit options (name ++ "(" ++ Expression.render arguments ++ ");")

def returns (options : Options) (expression : List Token) (place : Option Location) :
    Emission Unit := do
  requireMethod "return" place
  let value := Expression.render expression
  emit options (if value.isEmpty then "return;" else "return " ++ value ++ ";")

/-- A loop over a range. A loop variable that is not declared is declared by the loop and dropped
after it. -/
def forLoop (options : Options) (start stop : List Token) (place : Option Location)
    (body : Emission Unit) : Emission Unit := do
  requireMethod "use FOR" place
  let iterator := Statement.iterator? start
  let counter := Scope.nameText iterator
  let initial := Expression.render start
  let tail := "; " ++ counter ++ " <= " ++ Expression.render stop ++ "; " ++ counter ++ "++)"
  match (← get).context.scope.lookup iterator with
  | some _ => braced options ("for(" ++ initial ++ tail) body
  | none =>
    declare ⟨iterator, CType.int, true⟩
    braced options ("for(int " ++ initial ++ tail) body
    learn fun context => { context with scope := context.scope.forget iterator }

def repeatLoop (options : Options) (count : List Token) (place : Option Location)
    (body : Emission Unit) : Emission Unit := do
  requireMethod "use REPEAT" place
  withCounter place fun counter =>
    braced options
      ("for(int " ++ counter ++ " = 0; " ++ counter ++ " < " ++ Expression.render count ++ "; " ++
        counter ++ "++)") body

def methodBlock (options : Options) (action opening : String) (place : Option Location)
    (body : Emission Unit) : Emission Unit := do
  requireMethod action place
  braced options opening body

def setMode (options : Options) (name : String) (choices : List String) : Emission Unit := do
  let modes := (← get).context.modes
  modify (Emitter.note (modes.registerEntries name))
  learn fun context => { context with modes := modes.register name choices }
  let mode : Mode := ⟨name, choices, none⟩
  emit options ("/** " ++ name ++ ": " ++ " | ".intercalate mode.symbols ++ " **/")

def select (mode : Mode) (choice : String) : Emission Unit :=
  learn fun context =>
    { context with modes := context.modes.put { mode with current := some choice } }

/-- A default selection: it counts when no option of the mode is defined. -/
def defaultMode (options : Options) (name choice : String) (place : Option Location) :
    Emission Unit := do
  let mode ← orFail place ((← get).context.modes.validate name choice)
  emit options ("#if " ++
    " && ".intercalate (mode.symbols.map fun symbol => "!defined(" ++ symbol ++ ")"))
  emit options ("  #define " ++ mode.symbol choice)
  emit options "#endif"
  match mode.current with
  | none => select mode choice
  | some _ => pure ()

/-- A selection: it takes the place of the one before. -/
def defineMode (options : Options) (name choice : String) (place : Option Location) :
    Emission Unit := do
  let mode ← orFail place ((← get).context.modes.validate name choice)
  match mode.current with
  | some current => emit options ("#undef " ++ mode.symbol current)
  | none => pure ()
  emit options ("#define " ++ mode.symbol choice)
  select mode choice

def modeOption (options : Options) (mode : Mode) (choice : String) (place : Option Location)
    (body : Emission Unit) : Emission Unit := do
  let _ ← orFail place ((← get).context.modes.validate mode.name choice)
  emit options ("#ifdef " ++ mode.symbol choice)
  grouped body
  emit options "#endif"

/-- The C form of a statement. `inner` emits the nodes of its block, and `choices` emits them as
the options of a mode. -/
def statement (options : Options) (s : Statement) (place : Option Location) (body : List Node)
    (inner : Emission Unit) (choices : Mode → Emission Unit) : Emission Unit :=
  match s with
  | .comment text => comment options text
  | .declaration typeName names isMutable => declaration options typeName names isMutable place
  | .assignment name expression => assignment options name expression place
  | .call name arguments => call options name arguments place
  | .pass => emit options todoMark
  | .returns expression => returns options expression place
  | .setMode mode choices => setMode options mode choices
  | .defaultMode mode choice => defaultMode options mode choice place
  | .defineMode mode choice => defineMode options mode choice place
  | .structType name => structureType options name body place
  | .method name parameters returnType => method options name parameters returnType place inner
  | .ifThen condition =>
    methodBlock options "use IF" ("if(" ++ Expression.render condition ++ ")") place inner
  | .elseIf condition =>
    methodBlock options "use ELSEIF" ("else if(" ++ Expression.render condition ++ ")") place inner
  | .otherwise => methodBlock options "use ELSE" "else" place inner
  | .whileLoop condition =>
    methodBlock options "use WHILE" ("while(" ++ Expression.render condition ++ ")") place inner
  | .forLoop start stop => forLoop options start stop place inner
  | .repeatLoop count => repeatLoop options count place inner
  | .choose name => do choices (← orFail place ((← get).context.modes.get name))
  | .option _ => failBare (.unhandledKind s.kindName.toUpper) place

/-- Notes a node that has a C form, and emits it. -/
def noted (options : Options) (s : Statement) (place : Option Location) (body : List Node)
    (inner : Emission Unit) (choices : Mode → Emission Unit) : Emission Unit := do
  match s with
  | .option _ => pure ()
  | _ => note .debug ("Generating " ++ (Node.mk s place body).tag)
  statement options s place body inner choices

mutual
def node (options : Options) : Node → Emission Unit
  | .mk s place body =>
    noted options s place body (nodes options body) fun mode => modeOptions options mode body

def nodes (options : Options) : List Node → Emission Unit
  | [] => pure ()
  | n :: rest => do
    node options n
    nodes options rest

/-- The C form of a mode-dependent block: its options, and whatever else stands there. -/
def modeOptions (options : Options) (mode : Mode) : List Node → Emission Unit
  | [] => pure ()
  | .mk s place body :: rest => do
    match s with
    | .option choice => modeOption options mode choice place (nodes options body)
    | _ => noted options s place body (nodes options body) fun mode => modeOptions options mode body
    modeOptions options mode rest
end

def program (options : Options) (forest : List Node) : Emission String := do
  nodes options forest
  let e ← get
  if e.groups != 0 then failBare (.groupsLeftOpen e.groups) none
  else return e.output options.includes

end Emission

end CirOutline
