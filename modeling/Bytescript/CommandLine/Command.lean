/-
Commands.

A command is a conversation with the file system: it may read a file, it may write one, and it
ends with a text for each output and a status. Nothing in it depends on how files are kept.
-/
import Bytescript.Ast.Outline
import Bytescript.Bytecode.File
import Bytescript.Bytecode.Listing
import Bytescript.CommandLine.Highlight
import Bytescript.CommandLine.Options
import Bytescript.CommandLine.Path
import Bytescript.Diagnostic.Report
import Bytescript.Session
import Bytescript.Token.Dump

namespace Bytescript.CommandLine

open Text (Palette)

/-- Why a file cannot be read or written. -/
inductive FileError where
  | notFound
  | notADirectory
  | isADirectory
  | permissionDenied
  | nameTooLong
  | other (text : String)
  deriving DecidableEq, Repr

/-- The wording of an error. -/
def FileError.message : FileError → String
  | notFound => "No such file or directory (os error 2)"
  | notADirectory => "Not a directory (os error 20)"
  | isADirectory => "Is a directory (os error 21)"
  | permissionDenied => "Permission denied (os error 13)"
  | nameTooLong => "File name too long (os error 36)"
  | other text => text

/-- What a command leaves behind. -/
structure Response where
  stdout : String := ""
  stderr : String := ""
  status : UInt32 := 0
  deriving DecidableEq, Repr

/-- A conversation with the file system. -/
inductive Interaction where
  | done (response : Response)
  | read (path : String) (next : Except FileError (List UInt8) → Interaction)
  | write (path : String) (content : List UInt8) (next : Except FileError Unit → Interaction)

/-- Which inner stages are shown. -/
structure Debug where
  tokens : Bool := false
  ast : Bool := false
  code : Bool := false

/-- The stages named by the debug options, and the options that name none. -/
def Debug.ofOptions : List String → Debug × List String
  | [] => ({}, [])
  | option :: rest =>
    let (debug, unknown) := ofOptions rest
    match option with
    | "tokens" => ({ debug with tokens := true }, unknown)
    | "ast" => ({ debug with ast := true }, unknown)
    | "asm" => ({ debug with code := true }, unknown)
    | _ => (debug, option :: unknown)

/-- What a command needs besides files. -/
structure Settings where
  palette : Palette
  debug : Debug
  config : MachineConfig
  /-- Bound on the number of instructions of a run. -/
  fuel : Nat

/-- Work that writes to the standard output and may end with an error text. -/
abbrev Task := ExceptT String (StateM String)

namespace Task

/-- Writes to the standard output. -/
def print (text : String) : Task Unit :=
  modify (· ++ text)

/-- A result or the report of an error. -/
def orReport {α : Type} (palette : Palette) : Except Diagnostic α → Task α
  | .ok a => return a
  | .error d => throw (d.report palette)

/-- The response of finished work, after some text on the error output. -/
def respond (task : Task Unit) (notes : String) : Response :=
  match (task.run).run "" with
  | (.ok (), stdout) => { stdout, stderr := notes }
  | (.error text, stdout) => { stdout, stderr := notes ++ text ++ "\n", status := 1 }

end Task

/-- Scans, parses and compiles, and shows tokens and tree if asked to. Without the code among the
stages shown, the work ends at the last of them. -/
def build (settings : Settings) (file source : String) : Task (Option Program) := do
  let tokens ← Task.orReport settings.palette (scanSource file source)
  if settings.debug.tokens then
    Task.print (settings.palette.paint .cyan "-- Tokens --" ++ "\n")
    Task.print (String.join (tokens.map Token.dump) ++ "\n")
  if settings.debug.tokens && !settings.debug.ast && !settings.debug.code then return none
  let ast ← Task.orReport settings.palette
    ((parse tokens).mapError (Diagnostic.ofParseError file source))
  if settings.debug.ast then Task.print ast.outline.render
  if settings.debug.ast && !settings.debug.code then return none
  let program ← Task.orReport settings.palette
    ((compile ast).mapError (Diagnostic.ofCompileError file source))
  return some program

/-- Runs a program and shows its result, after its listing if asked to. -/
def execute (settings : Settings) (file source : String) (program : Program) : Task Unit := do
  if settings.debug.code then Task.print (program.disassemble file ++ "\n")
  let final := runProgram settings.fuel settings.config program #[] 0
  Task.print final.2.host.printed
  match Evaluation.ofOutcome file source final with
  | .value v =>
    match resultText? settings.palette v with
    | some text => Task.print (text ++ "\n")
    | none => return
  | .error d => throw (d.report settings.palette)
  | .outOfFuel => throw "Out of fuel"

/-- Builds and runs a source text. -/
def runSourceText (settings : Settings) (file source : String) : Task Unit := do
  match ← build settings file source with
  | some program => execute settings file source program
  | none => return

/-- The source text held by the bytes of a file. -/
def decodeSource (path : String) : Except FileError (List UInt8) → Task String
  | .error e => throw ("Error reading file '" ++ path ++ "': " ++ e.message)
  | .ok bytes =>
    match String.fromUTF8? ⟨bytes.toArray⟩ with
    | some source => return source
    | none => throw ("Error reading file '" ++ path ++ "': stream did not contain valid UTF-8")

/-- Compiles a file without running it. -/
def checkFile (settings : Settings) (path : String) (content : Except FileError (List UInt8)) :
    Task Unit := do
  let source ← decodeSource path content
  discard <| build { settings with debug := {} } path source
  Task.print (settings.palette.paint .green "✓" ++ " No errors found in " ++ path ++ "\n")

/-- Runs a file: a program file if its extension says so, else a source text. -/
def runFile (settings : Settings) (path : String) (content : Except FileError (List UInt8)) :
    Task Unit := do
  if Path.extension? path = some "ktlc" then
    match content with
    | .error e => throw ("Error reading file '" ++ path ++ "': " ++ e.message)
    | .ok bytes =>
      match File.decode bytes with
      | .ok program => execute settings path "" program
      | .error e =>
        throw (settings.palette.paint .boldRed "Error:" ++ " " ++ path ++ ": " ++ e.message)
  else
    let source ← decodeSource path content
    runSourceText settings path source

/-- The program of a file, unless only an inner stage is to be shown. -/
def compileFile (settings : Settings) (path : String) (content : Except FileError (List UInt8)) :
    Task (Option Program) := do
  let source ← decodeSource path content
  match ← build settings path source with
  | none => return none
  | some program =>
    if settings.debug.code then
      Task.print (program.disassemble path ++ "\n")
      return none
    else return some program

/-- The end of a compilation whose file was or was not written. -/
def reportWritten (settings : Settings) (path : String) : Except FileError Unit → Task Unit
  | .ok () => Task.print (settings.palette.paint .green "✓" ++ " Compiled to " ++ path ++ "\n")
  | .error e => throw ("Error writing file: " ++ e.message)

/-- Compiles a file and writes the program. -/
def compileCommand (settings : Settings) (notes path output : String) : Interaction :=
  .read path fun content =>
    match ((compileFile settings path content).run).run "" with
    | (.ok (some program), shown) =>
      .write output (File.encode program) fun written =>
        .done (Task.respond (do Task.print shown; reportWritten settings output written) notes)
    | (.ok none, shown) => .done { stdout := shown, stderr := notes }
    | (.error text, shown) =>
      .done { stdout := shown, stderr := notes ++ text ++ "\n", status := 1 }

/-- What is printed for an unknown debug option. -/
def unknownDebug (palette : Palette) (option : String) : String :=
  palette.paint .yellow "!" ++ " Unknown debug option: " ++ option ++ "\n"

/-- Carries out what the options ask for. -/
def runOptions (palette : Palette) (fuel : Nat) (options : Options) : Interaction :=
  let (debug, unknown) := Debug.ofOptions options.debug
  let notes := String.join (unknown.map (unknownDebug palette))
  let settings : Settings := { palette, debug, config := options.config, fuel }
  match options.exec?, options.file? with
  | some code, _ => .done (Task.respond (runSourceText settings "<exec>" code) notes)
  | none, some path =>
    if options.check then
      .read path fun content => .done (Task.respond (checkFile settings path content) notes)
    else if options.compile then
      compileCommand settings notes path (options.output?.getD (Path.withExtension path "ktlc"))
    else .read path fun content => .done (Task.respond (runFile settings path content) notes)
  | none, none =>
    .done { stderr := notes ++ UsageError.nothingToDo.message ++ "\n", status := 2 }

/-- The command given by some arguments. -/
def command (palette : Palette) (fuel : Nat) (args : List String) : Interaction :=
  match parseArguments args with
  | .error e => .done { stderr := e.message ++ "\n", status := 2 }
  | .ok .version => .done { stdout := "kettle 0.1.0\n" }
  | .ok (.options options) => runOptions palette fuel options

end Bytescript.CommandLine
