import FluentGrammar.Command.Options
import FluentGrammar.Rewriting.Canonical

/-! # Requests

    The commands of the program and what they are asked to do. `canon` brings a grammar into
    canonical form, `check` reports what stands in the way of that, and `viz` draws a
    grammar.
-/

namespace FluentGrammar

/-! ## Commands -/

/-- How `canon` is asked to proceed. -/
structure CanonFlags where
  /-- The number of rounds that are allowed, if there is a limit. -/
  maxIterations : Option Nat
  /-- Factor ambiguous shapes instead of refusing them. -/
  allowUnsupported : Bool
  /-- Leave the empty rules of the input alone until factoring begins. -/
  keepInputEmpties : Bool
deriving DecidableEq

/-- The configuration that the flags stand for. -/
def CanonFlags.config (flags : CanonFlags) : Config where
  detectUnsupported := !flags.allowUnsupported
  maxIterations := flags.maxIterations
  foldInputEmpties := !flags.keepInputEmpties

/-- What a command does to its grammar. -/
inductive Action where
  /-- Bring it into canonical form and write it in a format. -/
  | canon (output : Option String) (format : OutputFormat) (flags : CanonFlags)
  /-- Report what stands between it and canonical form. -/
  | check
  /-- Draw it, or its canonical form. -/
  | viz (output : Option String) (canonical showConflicts : Bool)
deriving DecidableEq

/-- The configuration that the rewriting of a command uses. -/
def Action.config : Action → Config
  | .canon _ _ flags => flags.config
  | .check => .default
  | .viz .. => .default

/-- Where the result goes, if not to the standard output. -/
def Action.output? : Action → Option String
  | .canon output _ _ => output
  | .check => none
  | .viz output _ _ => output

/-- What the program is asked to do. -/
inductive Request where
  /-- Explain the arguments. -/
  | help
  /-- Name the version. -/
  | version
  /-- Do something to the grammar in a file. -/
  | perform (input : String) (action : Action)
deriving DecidableEq

/-! ## Options of the commands -/

def helpOption : OptionSpec :=
  .final "help" (some 'h')

def versionOption : OptionSpec :=
  .final "version" (some 'V')

def verboseOption : OptionSpec :=
  .flag "verbose" (some 'v')

def inputOption : OptionSpec :=
  .valued "input" (some 'i') .path

def outputOption : OptionSpec :=
  .valued "output" (some 'o') .path

/-- The options in front of a command. -/
def globalOptions : List OptionSpec :=
  [verboseOption, versionOption, helpOption]

def canonOptions : List OptionSpec :=
  [inputOption, outputOption, .valued "format" (some 'f') .format,
    .valued "max-iterations" none .count, .flag "allow-unsupported" none,
    .flag "keep-input-empties" none, verboseOption, helpOption]

def checkOptions : List OptionSpec :=
  [inputOption, verboseOption, helpOption]

def vizOptions : List OptionSpec :=
  [inputOption, outputOption, .flag "canonical" (some 'c'),
    .flag "show-conflicts" (some 's'), verboseOption, helpOption]

/-- The names of the commands. -/
def commandNames : List String :=
  ["canon", "check", "viz", "help"]

/-! ## Reading requests -/

/-- Whether an option is given. -/
def hasOption (given : List Given) (long : String) : Bool :=
  given.any (fun g => g.option.long == long)

/-- The value of an option. -/
def optionValue? (given : List Given) (long : String) : Option String :=
  (given.find? (fun g => g.option.long == long)).bind (·.value)

/-- The action of `canon`. -/
def canonAction (given : List Given) : Action :=
  .canon (optionValue? given "output")
    (((optionValue? given "format").bind OutputFormat.ofName?).getD .text)
    { maxIterations := (optionValue? given "max-iterations").bind readCount
      allowUnsupported := hasOption given "allow-unsupported"
      keepInputEmpties := hasOption given "keep-input-empties" }

/-- The action of `viz`. -/
def vizAction (given : List Given) : Action :=
  .viz (optionValue? given "output") (hasOption given "canonical")
    (hasOption given "show-conflicts")

/-- Read the arguments behind the name of a command that works on a grammar. -/
def readAction (specs : List OptionSpec) (action : List Given → Action)
    (args : List String) : Except UsageError Request := do
  let (given, _) ← readOptions specs [] none args []
  if hasOption given "help" then return .help
  match optionValue? given "input" with
  | none => throw (.missingOption "input")
  | some input => return .perform input (action given)

/-- Read the arguments behind `help`: at most the name of one command. -/
def readHelp : List String → Except UsageError Request
  | [] => .ok .help
  | [name] => if commandNames.contains name then .ok .help else .error (.unknownCommand name)
  | _ :: name :: _ => .error (.unknownCommand name)

/-- Read the arguments of the program. -/
def Request.ofArguments (args : List String) : Except UsageError Request := do
  let (given, rest) ← readOptions globalOptions commandNames none args []
  if hasOption given "help" then return .help
  if hasOption given "version" then return .version
  match rest with
  | "canon" :: args => readAction canonOptions canonAction args
  | "check" :: args => readAction checkOptions (fun _ => .check) args
  | "viz" :: args => readAction vizOptions vizAction args
  | "help" :: args => readHelp args
  | _ => throw .missingCommand

end FluentGrammar
