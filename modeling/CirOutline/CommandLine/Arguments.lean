import CirOutline.FileSystem

/-!
Reading the arguments of a run, by the rules of the package `click`. Options may stand before and
after the input file; the last value of a repeated option counts, and two dashes end the options.
-/

namespace CirOutline.CommandLine

/-- The options of a run. -/
inductive OptionName where
  | output | toStdout | ast | tokens | indent | tempPool | docComments | verbose | version | help
deriving DecidableEq

namespace OptionName

def longSpellings : List (String × OptionName) :=
  [("--output", output), ("--stdout", toStdout), ("--ast", ast), ("--tokens", tokens),
    ("--indent", indent), ("--temp-pool", tempPool), ("--doc-comments", docComments),
    ("--verbose", verbose), ("--version", version), ("--help", help)]

def letters : List (Char × OptionName) := [('o', output), ('v', verbose)]

def takesValue : OptionName → Bool
  | output | indent | tempPool => true
  | _ => false

def shown : OptionName → String
  | output => "'-o' / '--output'"
  | indent => "'--indent'"
  | tempPool => "'--temp-pool'"
  | _ => ""

end OptionName

/-- Why arguments cannot be used. -/
inductive UsageFault where
  | noSuchOption (spelling : String)
  | needsValue (spelling : String)
  | takesNoValue (spelling : String)
  | missingInput
  | inputNotFound (name : String)
  | inputIsDirectory (name : String)
  | outputIsDirectory (name : String)
  | notInteger (option : OptionName) (text : String)
  | outOfRange (option : OptionName) (value least : Int)
  /-- A null character in the name of a file; the run ends without a report. -/
  | nullInName
  | surplus (arguments : List String)

def UsageFault.message : UsageFault → String
  | noSuchOption spelling => "No such option: " ++ spelling
  | needsValue spelling => "Option " ++ Text.quoted spelling ++ " requires an argument."
  | takesNoValue spelling => "Option " ++ Text.quoted spelling ++ " does not take a value."
  | missingInput => "Missing argument 'INPUT_FILE'."
  | inputNotFound name =>
    "Invalid value for 'INPUT_FILE': File " ++ Text.quoted name ++ " does not exist."
  | inputIsDirectory name =>
    "Invalid value for 'INPUT_FILE': File " ++ Text.quoted name ++ " is a directory."
  | outputIsDirectory name =>
    "Invalid value for " ++ OptionName.output.shown ++ ": File " ++ Text.quoted name ++
      " is a directory."
  | notInteger option text =>
    "Invalid value for " ++ option.shown ++ ": " ++ Text.quoted text ++
      " is not a valid integer range."
  | outOfRange option value least =>
    "Invalid value for " ++ option.shown ++ ": " ++ toString value ++ " is not in the range x>=" ++
      toString least ++ "."
  | nullInName => ""
  | surplus arguments =>
    "Got unexpected extra argument" ++ (if arguments.length == 1 then "" else "s") ++ " (" ++
      " ".intercalate arguments ++ ")"

/-- Arguments taken apart: options with their values, in order, and the others. Flags have an empty
value. -/
structure RawArguments where
  options : List (OptionName × String)
  others : List String

/-- What one argument says: options with their values, and an option, as it was spelled, whose
value is the next argument. -/
structure OptionWord where
  options : List (OptionName × String)
  pending : Option (OptionName × String)

/-- A long option, with its value after an equals sign if there is one. -/
def readLong (text : String) : Except UsageFault OptionWord :=
  let cs := text.toList
  let spelling := String.ofList (cs.takeWhile (· != '='))
  let value : Option String :=
    match cs.dropWhile (· != '=') with
    | [] => none
    | _ :: rest => some (String.ofList rest)
  match OptionName.longSpellings.lookup spelling with
  | none => .error (.noSuchOption spelling)
  | some option =>
    match value, option.takesValue with
    | some value, true => .ok ⟨[(option, value)], none⟩
    | none, true => .ok ⟨[], some (option, spelling)⟩
    | some _, false => .error (.takesNoValue spelling)
    | none, false => .ok ⟨[(option, "")], none⟩

/-- Letters after a single dash. A letter that takes a value takes the rest of the argument. -/
def readLetters : List Char → Except UsageFault OptionWord
  | [] => .ok ⟨[], none⟩
  | c :: rest =>
    let spelling := String.ofList ['-', c]
    match OptionName.letters.lookup c with
    | none => .error (.noSuchOption spelling)
    | some option =>
      if option.takesValue then
        if rest.isEmpty then .ok ⟨[], some (option, spelling)⟩
        else .ok ⟨[(option, String.ofList rest)], none⟩
      else
        (readLetters rest).map fun word => { word with options := (option, "") :: word.options }

def readOptionWord (text : String) : Except UsageFault OptionWord :=
  match text.toList with
  | '-' :: '-' :: _ => readLong text
  | _ :: rest => readLetters rest
  | [] => .ok ⟨[], none⟩

/-- An argument is an option when it is a dash with something after it. -/
def isOptionWord (text : String) : Bool :=
  match text.toList with
  | '-' :: _ :: _ => true
  | _ => false

def takeApart : List String → Except UsageFault RawArguments
  | [] => .ok ⟨[], []⟩
  | text :: rest =>
    if text == "--" then .ok ⟨[], rest⟩
    else if !isOptionWord text then
      (takeApart rest).map fun raw => { raw with others := text :: raw.others }
    else
      match readOptionWord text with
      | .error fault => .error fault
      | .ok ⟨options, none⟩ =>
        (takeApart rest).map fun raw => { raw with options := options ++ raw.options }
      | .ok ⟨options, some (option, spelling)⟩ =>
        match rest with
        | [] => .error (.needsValue spelling)
        | value :: rest =>
          (takeApart rest).map fun raw =>
            { raw with options := options ++ (option, value) :: raw.options }

/-- The settings of a run. -/
structure Arguments where
  input : String
  output : Option String := none
  toStdout : Bool := false
  ast : Bool := false
  tokens : Bool := false
  indent : Option Int := none
  tempPool : Option Int := none
  docComments : Bool := false
  verbose : Bool := false

/-- A whole number that is not below a bound. -/
def readAtLeast (least : Int) (option : OptionName) (text : String) : Except UsageFault Int :=
  match Text.Numeral.integer? text with
  | none => .error (.notInteger option text)
  | some value => if value < least then .error (.outOfRange option value least) else .ok value

def applyOption (fs : FileSystem) (a : Arguments) : OptionName × String → Except UsageFault Arguments
  | (.output, name) =>
    if name.toList.contains '\x00' then .error .nullInName
    else if fs.nameIsDirectory name then .error (.outputIsDirectory name)
    else .ok { a with output := some name }
  | (.toStdout, _) => .ok { a with toStdout := true }
  | (.ast, _) => .ok { a with ast := true }
  | (.tokens, _) => .ok { a with tokens := true }
  | (.indent, text) => (readAtLeast 0 .indent text).map fun n => { a with indent := some n }
  | (.tempPool, text) => (readAtLeast 1 .tempPool text).map fun n => { a with tempPool := some n }
  | (.docComments, _) => .ok { a with docComments := true }
  | (.verbose, _) => .ok { a with verbose := true }
  | (.version, _) | (.help, _) => .ok a

/-- Each option once, in the order of first use, with its last value. -/
def lastValues (options : List (OptionName × String)) : List (OptionName × String) :=
  let names := (options.map Prod.fst).eraseDups
  names.map fun name => (name, (options.reverse.lookup name).getD "")

def checkInput (fs : FileSystem) (name : String) : Except UsageFault Unit :=
  if name.toList.contains '\x00' then .error .nullInName
  else if !fs.nameExists name then .error (.inputNotFound name)
  else if fs.nameIsDirectory name then .error (.inputIsDirectory name)
  else .ok ()

/-- What a run is asked to do. -/
inductive Request where
  | showVersion
  | showHelp
  | run (arguments : Arguments)

/-- The first option that asks for information only. -/
def informationRequest? (options : List (OptionName × String)) : Option Request :=
  options.findSome? fun option =>
    match option.1 with
    | .version => some .showVersion
    | .help => some .showHelp
    | _ => none

/-- Reads arguments: the options in the order of first use, then the input file, then what is left
over. -/
def readArguments (fs : FileSystem) (arguments : List String) : Except UsageFault Request := do
  let raw ← takeApart arguments
  match informationRequest? raw.options with
  | some request => return request
  | none =>
    let input := raw.others.headD ""
    let settings ← (lastValues raw.options).foldlM (applyOption fs) { input := input }
    match raw.others with
    | [] => throw .missingInput
    | name :: surplus =>
      checkInput fs name
      if surplus.isEmpty then return .run settings else throw (.surplus surplus)

end CirOutline.CommandLine
