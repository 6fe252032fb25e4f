import CirOutline.Proofs.Emission.Preprocessor

/-!
The lines of statements. A statement that is printed becomes lines whose text depends on the statement
and on what is known before it. `Says` lists those of statements that stand alone, `Heads` the headers
of blocks in braces, and `Wraps` the ways in which a block is printed.
-/

namespace CirOutline

open Expression

variable {m : Mode} {modes : ModeRegistry} {name : String}

theorem Mode.isWord_symbol (hname : Text.IsWord m.name) {o : String} (ho : Text.IsItem o) :
    Text.IsWord (m.symbol o) := by
  obtain ⟨c, rest, htext, hc, hrest⟩ := hname
  refine ⟨c, rest ++ '_' :: o.toList, by simp [Mode.symbol, htext], hc, fun d hd => ?_⟩
  rcases List.mem_append.mp hd with hd | hd
  · exact hrest d hd
  · rcases List.mem_cons.mp hd with rfl | hd
    · decide
    · exact ho.continuesName.2 d hd

namespace ModeRegistry

theorem mem_of_find? (h : modes.find? name = some m) : m ∈ modes ∧ m.name = name :=
  ⟨List.mem_of_find?_eq_some h, by simpa using List.find?_some h⟩

theorem validate_ok {choice : String} (h : (modes.validate name choice).toOption = some m) :
    modes.find? name = some m ∧ m.name = name ∧ choice ∈ m.options := by
  unfold validate get at h
  cases hfound : modes.find? name with
  | none => simp [hfound, Except.toOption] at h
  | some found =>
    rw [hfound] at h
    dsimp only at h
    split_ifs at h with hchoice
    · obtain rfl : found = m := Option.some.inj h
      exact ⟨rfl, (mem_of_find? hfound).2, by simpa using hchoice⟩
    · cases h

end ModeRegistry

namespace Statement

def isRemark : Statement → Bool
  | comment _ | pass | setMode .. => true
  | _ => false

def copied? : Statement → Option String
  | comment text =>
    if "///".toList.isPrefixOf text.toList then
      some ("// " ++ Text.trim (String.ofList (text.toList.drop 3)))
    else none
  | _ => none

def splices (options : Options) : Statement → Bool
  | comment text => options.docComments && "///".toList.isPrefixOf text.toList &&
      CLine.splices ("// " ++ Text.trim (String.ofList (text.toList.drop 3)))
  | _ => false

def modesAfter (modes : ModeRegistry) : Statement → ModeRegistry
  | setMode name choices => modes.register name choices
  | defaultMode name choice => (modes.find? name).elim modes fun m =>
    if m.current.isSome then modes else modes.put { m with current := some choice }
  | defineMode name choice => (modes.find? name).elim modes fun m =>
    modes.put { m with current := some choice }
  | _ => modes

end Statement

namespace Printer

/-- The lines of a node without a block to enter. -/
inductive Says (options : Options) (c : Context) : Node → List Piece → Prop where
  | remarks {n pieces} (hn : n.statement.isRemark = true)
      (hpieces : ∀ p ∈ pieces, ∃ line, p = .line line ∧ line ≠ "" ∧ CLine.tokens line = [] ∧
        (CLine.splices line = true → n.statement.splices options = true)) : Says options c n pieces
  | declares {typeName names isMutable type place body} (hplain : typeName ≠ arrayTypeName)
      (htype : c.types.resolve typeName [] = .ok type) :
      Says options c (.mk (.declaration typeName names isMutable) place body)
        [.line (type.text ++ " " ++ ", ".intercalate names ++ ";")]
  | assigns {name expression b place body} (hfound : c.scope.lookup (some name) = some b) (hb : b.isMutable = true) :
      Says options c (.mk (.assignment name expression) place body)
        [.line (name ++ " = " ++ render expression ++ ";")]
  | fixes {name expression b place body} (hfound : c.scope.lookup (some name) = some b) (hb : b.isMutable = false) :
      Says options c (.mk (.assignment name expression) place body)
        [.line ("#define " ++ name ++ " ((" ++ b.type.text ++ ") " ++ render expression ++ ")")]
  | calls {name arguments place body} :
      Says options c (.mk (.call name arguments) place body)
        [.line (name ++ "(" ++ render arguments ++ ");")]
  | returns {expression place body} :
      Says options c (.mk (.returns expression) place body)
        [.line (if (render expression).isEmpty then "return;"
          else "return " ++ render expression ++ ";")]
  | defaults {name choice mode place body} (hvalid : c.modes.validate name choice = .ok mode) :
      Says options c (.mk (.defaultMode name choice) place body)
        [.fallback (" && ".intercalate (mode.symbols.map fun symbol => "!defined(" ++ symbol ++ ")"))
          (mode.symbol choice)]
  | selects {name choice mode place body} (hvalid : c.modes.validate name choice = .ok mode) :
      Says options c (.mk (.defineMode name choice) place body)
        ((mode.current.toList.map fun current => .line ("#undef " ++ mode.symbol current)) ++
          [.line ("#define " ++ mode.symbol choice)])
  | named {name place place' inner} :
      Says options c (.mk (.structType name) place [.mk .pass place' inner])
        [.line ("typedef struct " ++ name ++ " " ++ name ++ ";")]
  | array {name element dimension dimensions isMutable type place place' inner}
      (htype : (c.types.register name).resolve element (dimension :: dimensions) = .ok type) :
      Says options c (.mk (.structType name) place
          [.mk (.declaration arrayTypeName (element :: dimension :: dimensions) isMutable) place' inner])
        [.line ("typedef " ++ type.declare name ++ ";")]

/-- The header of a block in braces. -/
inductive Heads (c : Context) : Statement → String → Prop where
  | ifThen {condition} :
      Heads c (.ifThen condition) ("if(" ++ render condition ++ ")")
  | elseIf {condition} :
      Heads c (.elseIf condition) ("else if(" ++ render condition ++ ")")
  | otherwise : Heads c .otherwise "else"
  | whileLoop {condition} :
      Heads c (.whileLoop condition) ("while(" ++ render condition ++ ")")
  | loop {start stop b} (hfound : c.scope.lookup (Statement.iterator? start) = some b) :
      Heads c (.forLoop start stop) ("for(" ++ render start ++
        ("; " ++ Scope.nameText (Statement.iterator? start) ++ " <= " ++ render stop ++ "; " ++
          Scope.nameText (Statement.iterator? start) ++ "++)"))
  | declaringLoop {start stop} (hnone : c.scope.lookup (Statement.iterator? start) = none) :
      Heads c (.forLoop start stop) ("for(int " ++ render start ++
        ("; " ++ Scope.nameText (Statement.iterator? start) ++ " <= " ++ render stop ++ "; " ++
          Scope.nameText (Statement.iterator? start) ++ "++)"))
  | countedLoop {count counter pool} (htaken : c.pool.acquire? = some (counter, pool)) :
      Heads c (.repeatLoop count) ("for(int " ++ counter ++ " = 0; " ++ counter ++ " < " ++
        render count ++ "; " ++ counter ++ "++)")

/-- How a statement is printed around its block: in braces, as an option of the mode `how`, or as the
block alone. The statements of the block are the options of the mode `how'`. -/
inductive Wraps (c : Context) (how : Option Mode) : (how' : Option Mode) → Statement →
    (inner pieces : List Piece) → Prop where
  | braces {s opening inner} (hhead : Heads c s opening) :
      Wraps c how none s inner [.braces opening inner]
  | choose {name mode inner} (hmode : c.modes.get name = .ok mode) :
      Wraps c how (some mode) (.choose name) inner inner
  | option {mode found choice inner} (hhow : how = some mode)
      (hvalid : c.modes.validate mode.name choice = .ok found) :
      Wraps c how none (.option choice) inner [.option (mode.symbol choice) inner]

end Printer

end CirOutline
