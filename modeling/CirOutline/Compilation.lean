import CirOutline.Emission.Statement
import CirOutline.Layout.Block
import CirOutline.Text.Utf8
import CirOutline.Token.Scan

/-!
Whole compilations: text to tokens, tokens to a program, the program to C. The first failure ends
the run, and there is no partial output.
-/

namespace CirOutline

/-- Why a compilation has no result. -/
inductive Failure where
  | reported (report : Stop)
  | sourceMissing (path : String)
  | undecodable (fault : Text.Utf8.Fault)
  | noSuchFile (path : String)
  | isDirectory (path : String)
  | notDirectory (path : String)
  | nameTooLong (path : String)
  /-- A null character in the name of a file. -/
  | nullInName

def Failure.message : Failure → String
  | reported report => report.text
  | sourceMissing path => "Source file not found: " ++ path
  | undecodable fault => fault.message
  | noSuchFile path => "[Errno 2] No such file or directory: " ++ Text.quoted path
  | isDirectory path => "[Errno 21] Is a directory: " ++ Text.quoted path
  | notDirectory path => "[Errno 20] Not a directory: " ++ Text.quoted path
  | nameTooLong path => "[Errno 36] File name too long: " ++ Text.quoted path
  | nullInName => "embedded null byte"

/-- The start of an emission with the settings and the lines of the source, as far as they are at
hand. -/
def Options.emitter (options : Options) (lines : List String := []) : Except Breakdown Emitter :=
  (TemporaryPool.create options.poolSize).map fun pool => .start pool lines

/-- Emits a program from a fresh start: the C text or the stop, and the state at the end. -/
def emitProgram (start : Emitter) (options : Options) (forest : List Node) :
    Except Stop String × Emitter :=
  match Emission.program options forest start with
  | .ok output e => (.ok output, e)
  | .error stop e => (.error stop, e)

/-- The result of a compilation. -/
structure Compiled where
  file : String
  output : String
  nodes : List Node
  tokenCount : Nat
  warnings : List String

/-- The last entry of a compilation that succeeds. -/
def Compiled.entry (c : Compiled) : Entry :=
  ⟨.compilation, .debug, "Compiled " ++ c.file ++ ": " ++ toString c.tokenCount ++ " tokens, " ++
    toString c.nodes.length ++ " top-level nodes, " ++ toString c.warnings.length ++ " warnings"⟩

/-- Compiles a text. The given lines are handed to the later stages, for their reports. -/
def compileQuoting (lines : List String) (options : Options) (source file : String) :
    Journal × Except Failure Compiled :=
  match tokenize source file with
  | .error failure => ([], .error (.reported (.diagnosed failure.diagnostic)))
  | .ok tokens =>
    match readProgram tokens file lines with
    | .error failure => (failure.cursor.journal, .error (.reported failure.report))
    | .ok program =>
      match options.emitter lines with
      | .error b => (program.journal, .error (.reported (.broken b)))
      | .ok start =>
        match emitProgram start options program.nodes with
        | (.error stop, e) =>
          (program.journal ++ e.journal, .error (.reported stop))
        | (.ok output, e) =>
          let compiled : Compiled :=
            { file := file
              output := output
              nodes := program.nodes
              tokenCount := tokens.length
              warnings := program.journal.warnings .layout ++ e.journal.warnings .emission }
          (program.journal ++ e.journal ++ [compiled.entry], .ok compiled)

/-- Compiles a text; reports quote its lines. -/
def compile (options : Options) (source file : String) : Journal × Except Failure Compiled :=
  compileQuoting (Text.lines source) options source file

def compileText (options : Options) (source file : String) : Except Failure String :=
  (compile options source file).2.map Compiled.output

end CirOutline
