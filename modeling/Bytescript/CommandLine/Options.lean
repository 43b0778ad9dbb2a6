/-
Arguments of the command line.

Options have a long name and most of them a short one. The value of an option is the next
argument, or stands in the same argument: after an equal sign for a long name, right behind the
letter for a short one. Short options without a value can be written together.
-/
import Bytescript.Machine.Basic

namespace Bytescript.CommandLine

/-- What the user asks for. -/
structure Options where
  file? : Option String := none
  /-- Debug options in the order they were given. -/
  debug : List String := []
  exec? : Option String := none
  compile : Bool := false
  check : Bool := false
  output? : Option String := none
  config : MachineConfig := {}

/-- Why arguments cannot be understood. -/
inductive UsageError where
  | unexpectedArgument (text : String)
  | missingValue (option : String)
  | repeated (option : String)
  | invalidNumber (option value : String)
  | nothingToDo
  deriving DecidableEq, Repr

/-- The wording of an error. -/
def UsageError.message : UsageError → String
  | unexpectedArgument text => "error: unexpected argument '" ++ text ++ "' found"
  | missingValue option => "error: a value is required for '" ++ option ++ "' but none was supplied"
  | repeated option => "error: the argument '" ++ option ++ "' cannot be used multiple times"
  | invalidNumber option value => "error: invalid value '" ++ value ++ "' for '" ++ option ++ "'"
  | nothingToDo => "error: a file or code to execute is required"

/-- What the arguments come to. -/
inductive Request where
  | version
  | options (options : Options)

/-- Options that take a value. -/
inductive ValueOption where
  | debug | exec | output | stackSize | maxFrames
  deriving DecidableEq, Repr

/-- Options that take none. -/
inductive Flag where
  | compile | check | version
  deriving DecidableEq, Repr

/-- An option. -/
inductive OptionName where
  | value (option : ValueOption)
  | flag (flag : Flag)

/-- The option with a long name. -/
def OptionName.ofLong? : String → Option OptionName
  | "debug" => some (.value .debug)
  | "exec" => some (.value .exec)
  | "output" => some (.value .output)
  | "stack-size" => some (.value .stackSize)
  | "max-frames" => some (.value .maxFrames)
  | "compile" => some (.flag .compile)
  | "check" => some (.flag .check)
  | "version" => some (.flag .version)
  | _ => none

/-- The option with a short name. -/
def OptionName.ofShort? : Char → Option OptionName
  | 'd' => some (.value .debug)
  | 'e' => some (.value .exec)
  | 'o' => some (.value .output)
  | 'c' => some (.flag .compile)
  | 'V' => some (.flag .version)
  | _ => none

/-- The largest size. -/
def maxSize : Nat := 18446744073709551615

/-- A size in decimal digits. -/
def parseSize? (text : String) : Option Nat :=
  let digits := match text.toList with
    | '+' :: rest => rest
    | all => all
  if digits ≠ [] ∧ digits.all Char.isDigit then
    let n := digits.foldl (fun n d => 10 * n + (d.toNat - '0'.toNat)) 0
    if n ≤ maxSize then some n else none
  else none

/-- Sets an option that may be given once. -/
def setOnce {α : Type} (name : String) (old : Option α) (new : α) : Except UsageError (Option α) :=
  match old with
  | none => .ok (some new)
  | some _ => .error (.repeated name)

/-- Takes up an option with its value. -/
def Options.setValue (options : Options) (option : ValueOption) (name value : String) :
    Except UsageError Options := do
  match option with
  | .debug => return { options with debug := options.debug ++ value.splitOn "," }
  | .exec => return { options with exec? := ← setOnce name options.exec? value }
  | .output => return { options with output? := ← setOnce name options.output? value }
  | .stackSize =>
    match parseSize? value with
    | some n => return { options with config := { options.config with stackSize := n } }
    | none => throw (.invalidNumber name value)
  | .maxFrames =>
    match parseSize? value with
    | some n => return { options with config := { options.config with maxFrames := n } }
    | none => throw (.invalidNumber name value)

/-- Takes up an option without a value. -/
def Options.setFlag (options : Options) : Flag → Options
  | .compile => { options with compile := true }
  | .check => { options with check := true }
  | .version => options

/-- Takes up the file to work on. -/
def Options.setFile (options : Options) (path : String) : Except UsageError Options :=
  match options.file? with
  | none => .ok { options with file? := some path }
  | some _ => .error (.unexpectedArgument path)

/-- The name of a long option and the value after an equal sign. -/
def splitLong (text : List Char) : String × Option String :=
  let name := String.ofList (text.takeWhile (· ≠ '='))
  match text.dropWhile (· ≠ '=') with
  | _ :: value => (name, some (String.ofList value))
  | [] => (name, none)

/-- What the letters of one argument lead to. -/
inductive ShortResult where
  | done (options : Options)
  | version
  /-- The last letter is an option that needs the next argument. -/
  | needsValue (option : ValueOption) (name : String) (options : Options)

/-- Reads short options written together. -/
def readShort (options : Options) : List Char → Except UsageError ShortResult
  | [] => .ok (.done options)
  | letter :: rest =>
    let name := "-" ++ letter.toString
    match OptionName.ofShort? letter with
    | none => .error (.unexpectedArgument name)
    | some (.flag .version) => .ok .version
    | some (.flag flag) => readShort (options.setFlag flag) rest
    | some (.value option) =>
      match rest with
      | [] => .ok (.needsValue option name options)
      | '=' :: value => .done <$> options.setValue option name (String.ofList value)
      | value => .done <$> options.setValue option name (String.ofList value)

/-- May an argument be the value of an option? A single minus sign may, other arguments that
begin with one may not. -/
def isValue (text : String) : Bool :=
  match text.toList with
  | '-' :: _ :: _ => false
  | _ => true

/-- Reads the arguments from left to right. -/
def readArguments : (onlyFiles : Bool) → Options → List String → Except UsageError Request
  | _, options, [] => .ok (.options options)
  | true, options, arg :: rest => do
    readArguments true (← options.setFile arg) rest
  | false, options, arg :: rest =>
    match arg.toList with
    | ['-', '-'] => readArguments true options rest
    | '-' :: '-' :: long =>
      let (name, value?) := splitLong long
      match OptionName.ofLong? name, value? with
      | none, _ => .error (.unexpectedArgument arg)
      | some (.flag .version), none => .ok .version
      | some (.flag flag), none => readArguments false (options.setFlag flag) rest
      | some (.flag _), some _ => .error (.unexpectedArgument arg)
      | some (.value option), some value => do
        readArguments false (← options.setValue option ("--" ++ name) value) rest
      | some (.value option), none =>
        match rest with
        | value :: rest =>
          if isValue value then do
            readArguments false (← options.setValue option ("--" ++ name) value) rest
          else .error (.unexpectedArgument value)
        | [] => .error (.missingValue ("--" ++ name))
    | '-' :: letter :: letters => do
      match ← readShort options (letter :: letters) with
      | .done options => readArguments false options rest
      | .version => return .version
      | .needsValue option name options =>
        match rest with
        | value :: rest =>
          if isValue value then readArguments false (← options.setValue option name value) rest
          else throw (.unexpectedArgument value)
        | [] => throw (.missingValue name)
    | _ => do readArguments false (← options.setFile arg) rest

/-- The request made by the arguments of a command. -/
def parseArguments (args : List String) : Except UsageError Request :=
  readArguments false {} args

end Bytescript.CommandLine
