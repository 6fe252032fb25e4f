import CirOutline.CommandLine.Arguments
import CirOutline.CommandLine.Report
import CirOutline.Text.ControlSequence

/-!
A run of the command `circ`: a function from arguments, environment variables and files to what is
printed, the exit status and the files afterwards.
-/

namespace CirOutline.CommandLine

def commandName : String := "circ"

def version : String := "1.0.0"

/-- What a run leaves. -/
structure Outcome where
  status : ExitStatus
  stdout : String
  stderr : String
  files : FileSystem

def line (text : String) : String := text ++ "\n"

/-- A text as it is printed for a reader: a line without control sequences. -/
def echo (text : String) : String := line (Text.plain text)

def usage : String := line "Usage: main [OPTIONS] INPUT_FILE"

/-- The report of arguments that cannot be used. -/
def usageReport (fault : UsageFault) : String :=
  usage ++ line "Try 'main --help' for help." ++ line "" ++ echo ("Error: " ++ fault.message)

/-- The journal as it is printed: all of it with severities, or the warnings alone. -/
def journalText (verbose : Bool) (journal : Journal) : String :=
  String.join (journal.map fun entry =>
    if verbose then line (entry.severity.name ++ ": " ++ entry.text)
    else if entry.severity == .warning then line entry.text
    else "")

/-- The settings of the environment, overridden by the arguments. -/
def effectiveOptions (a : Arguments) (base : Options) : Options :=
  { base with
    indentWidth := a.indent.getD base.indentWidth
    poolSize := a.tempPool.getD base.poolSize
    docComments := a.docComments || base.docComments }

def preamble (input : String) (options : Options) : String :=
  echo ("Compiling " ++ input ++ "...") ++
    echo ("Indent width: " ++ toString options.indentWidth ++ ", temporaries: " ++
      toString options.poolSize ++ ", doc comments: " ++
      (if options.docComments then "on" else "off"))

def fail (fs : FileSystem) (stderr : String) (failure : Failure) : Outcome :=
  let (report, status) := (troubleOf failure).report (some "Compilation")
  ⟨status, "", stderr ++ echo report, fs⟩

def writeResult (fs : FileSystem) (a : Arguments) (input output stderr : String)
    (result : Compiled) : Outcome :=
  match fs.writeText output (line result.output) with
  | .error failure => fail fs stderr failure
  | .ok later =>
    let summary :=
      echo ("Tokenized: " ++ toString result.tokenCount ++ " tokens") ++
      echo ("Parsed: " ++ toString result.nodes.length ++ " top-level nodes") ++
      echo ("Wrote " ++ toString (result.output.length + 1) ++ " bytes to " ++ output)
    ⟨.success, echo ("Compiled " ++ input ++ " -> " ++ output),
      stderr ++ (if a.verbose then summary else ""), later⟩

/-- Compiles a source and shows or writes what was asked for. -/
def compileSource (fs : FileSystem) (a : Arguments) (options : Options)
    (input output stderr source : String) : Outcome :=
  if a.tokens then
    match tokenize source input with
    | .error failure => fail fs stderr (.reported (.diagnosed failure.diagnostic))
    | .ok tokens => ⟨.success, String.join (tokens.map fun t => echo t.listing), stderr, fs⟩
  else
    let (journal, result) := compile options source input
    let stderr := stderr ++ journalText a.verbose journal
    match result with
    | .error failure => fail fs stderr failure
    | .ok compiled =>
      if a.ast then
        ⟨.success, echo (Node.outline Node.outlineIndent compiled.nodes), stderr, fs⟩
      else if a.toStdout then ⟨.success, echo compiled.output, stderr, fs⟩
      else writeResult fs a input output stderr compiled

def execute (fs : FileSystem) (environment : List (String × String)) (a : Arguments) : Outcome :=
  let (base, entries) := Options.fromEnvironment environment
  let options := effectiveOptions a base
  let path := Path.ofText a.input
  let input := path.text
  let output :=
    match a.output with
    | some name => (Path.ofText name).text
    | none => (path.withSuffix ".c").text
  let stderr :=
    journalText a.verbose entries ++ (if a.verbose then preamble input options else "")
  match fs.readText input with
  | .error failure => fail fs stderr failure
  | .ok source => compileSource fs a options input output stderr source

/-- A run of the command. Of the text that a request for help prints, only the first line is here. -/
def run (arguments : List String) (environment : List (String × String)) (fs : FileSystem) :
    Outcome :=
  match readArguments fs arguments with
  | .error .nullInName => ⟨.buildError, "", "", fs⟩
  | .error fault => ⟨.invalidArguments, "", usageReport fault, fs⟩
  | .ok .showVersion => ⟨.success, line (commandName ++ ", version " ++ version), "", fs⟩
  | .ok .showHelp => ⟨.success, usage, "", fs⟩
  | .ok (.run a) => execute fs environment a

end CirOutline.CommandLine
