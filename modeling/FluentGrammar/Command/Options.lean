import FluentGrammar.Number.Decimal

/-! # Options

    Arguments are read from left to right. A long option begins with two dashes, and its
    value stands behind `=` or is the next argument. Short options are single letters and can
    be joined behind one dash; the value of the last one can follow at once, with or without
    a `=`, or is the next argument. A next argument that begins with a dash is no value,
    except for the dash alone. Two dashes alone end the options. An option is given at most
    once.
-/

namespace FluentGrammar

/-! ## Output formats -/

/-- A format for canonical grammars. -/
inductive OutputFormat where
  | text
  | dot
  | json
deriving DecidableEq

namespace OutputFormat

/-- The format of a name. Capitals do not matter. -/
def ofName? (name : String) : Option OutputFormat :=
  match String.ofList (name.toList.map Char.toLower) with
  | "text" => some .text
  | "bnf" => some .text
  | "dot" => some .dot
  | "graphviz" => some .dot
  | "json" => some .json
  | _ => none

/-- What is said about a name that is none of these. -/
def unknownText (name : String) : String :=
  s!"Unknown format: {name}. Supported: text, dot, json"

end OutputFormat

/-! ## Values -/

/-- A natural number of 64 bits in decimal digits, perhaps with a plus sign. -/
def readCount (text : String) : Option Nat :=
  let digits := match text.toList with
    | '+' :: rest => rest
    | cs => cs
  if digits.isEmpty || !digits.all Char.isDigit then none
  else
    let value := Number.ofDigits digits
    if value < UInt64.size then some value else none

/-- What an option takes. -/
inductive ValueKind where
  /-- The path of a file. -/
  | path
  /-- A natural number. -/
  | count
  /-- The name of a format. -/
  | format

/-- Whether a text is a value of the kind. -/
def ValueKind.accepts : ValueKind → String → Bool
  | .path, text => !text.isEmpty
  | .count, text => (readCount text).isSome
  | .format, text => (OutputFormat.ofName? text).isSome

/-! ## Options -/

/-- An option. -/
structure OptionSpec where
  /-- The long name. -/
  long : String
  /-- The letter, if it has one. -/
  short : Option Char
  /-- What it takes; a flag takes nothing. -/
  takes : Option ValueKind
  /-- Whether nothing behind it is read. -/
  ends : Bool

/-- An option that takes a value. -/
def OptionSpec.valued (long : String) (short : Option Char) (kind : ValueKind) : OptionSpec :=
  ⟨long, short, some kind, false⟩

/-- An option that takes no value. -/
def OptionSpec.flag (long : String) (short : Option Char) : OptionSpec :=
  ⟨long, short, none, false⟩

/-- A flag behind which nothing is read. -/
def OptionSpec.final (long : String) (short : Option Char) : OptionSpec :=
  ⟨long, short, none, true⟩

/-- An option as it was given. -/
structure Given where
  option : OptionSpec
  value : Option String

/-! ## Errors -/

/-- What is wrong with the arguments. -/
inductive UsageError where
  | unknownOption (text : String)
  | unexpectedValue (option : String)
  | missingValue (option : String)
  | badValue (option value : String)
  | repeated (option : String)
  | unexpectedArgument (text : String)
  | missingOption (option : String)
  | missingCommand
  | unknownCommand (name : String)
deriving DecidableEq

/-- The sentence that reports an error. -/
def UsageError.message : UsageError → String
  | .unknownOption text => s!"unexpected argument '{text}' found"
  | .unexpectedValue option => s!"option '--{option}' takes no value"
  | .missingValue option => s!"a value is required for '--{option}'"
  | .badValue option value => s!"invalid value '{value}' for '--{option}'"
  | .repeated option => s!"the argument '--{option}' cannot be used multiple times"
  | .unexpectedArgument text => s!"unexpected argument '{text}' found"
  | .missingOption option => s!"the argument '--{option}' is required"
  | .missingCommand => "a subcommand is required"
  | .unknownCommand name => s!"unrecognized subcommand '{name}'"

/-! ## One argument -/

/-- What an argument gives: options, and perhaps one whose value is still to come. -/
structure Piece where
  given : List Given
  awaiting : Option OptionSpec

/-- An option with a value that its kind accepts. -/
def Given.withValue (spec : OptionSpec) (kind : ValueKind) (value : String) :
    Except UsageError Given :=
  if kind.accepts value then .ok ⟨spec, some value⟩ else .error (.badValue spec.long value)

/-- Read a long option; `text` is what stands behind the dashes. -/
def readLong (specs : List OptionSpec) (text : List Char) : Except UsageError Piece := do
  let name := String.ofList (text.takeWhile (· != '='))
  match specs.find? (fun spec => spec.long == name) with
  | none => throw (.unknownOption ("--" ++ String.ofList text))
  | some spec =>
    match spec.takes, text.dropWhile (· != '=') with
    | none, [] => return ⟨[⟨spec, none⟩], none⟩
    | none, _ :: _ => throw (.unexpectedValue name)
    | some _, [] => return ⟨[], some spec⟩
    | some kind, _ :: value =>
      return ⟨[← Given.withValue spec kind (String.ofList value)], none⟩

/-- Read short options; the text is what stands behind the dash. -/
def readShort (specs : List OptionSpec) : List Char → Except UsageError Piece
  | [] => .ok ⟨[], none⟩
  | c :: rest =>
    match specs.find? (fun spec => spec.short == some c) with
    | none => .error (.unknownOption ("-" ++ String.singleton c))
    | some spec =>
      match spec.takes, rest with
      | none, _ =>
        if spec.ends then .ok ⟨[⟨spec, none⟩], none⟩
        else do
          let piece ← readShort specs rest
          return { piece with given := ⟨spec, none⟩ :: piece.given }
      | some _, [] => .ok ⟨[], some spec⟩
      | some kind, '=' :: value => do
        return ⟨[← Given.withValue spec kind (String.ofList value)], none⟩
      | some kind, value => do
        return ⟨[← Given.withValue spec kind (String.ofList value)], none⟩

/-- Whether an argument is read as options. -/
def looksLikeOption (arg : String) : Bool :=
  match arg.toList with
  | '-' :: _ :: _ => true
  | _ => false

/-- Read an argument that looks like options. -/
def readPiece (specs : List OptionSpec) (arg : String) : Except UsageError Piece :=
  match arg.toList with
  | '-' :: '-' :: text => readLong specs text
  | '-' :: text => readShort specs text
  | _ => .error (.unexpectedArgument arg)

/-! ## All arguments -/

/-- Add options to those given before, unless one is given again. -/
def addGiven (before : List Given) : List Given → Except UsageError (List Given)
  | [] => .ok before
  | g :: rest =>
    if before.any (fun b => b.option.long == g.option.long) then
      .error (.repeated g.option.long)
    else addGiven (before ++ [g]) rest

/-- Whether one of the options ends the reading. -/
def anyEnds (given : List Given) : Bool :=
  given.any (fun g => g.option.ends)

/-- Read options up to a word that is a command, or to the end. The result is what was given,
    and the arguments from that word on. -/
def readOptions (specs : List OptionSpec) (commands : List String) :
    (awaiting : Option OptionSpec) → (args : List String) → (given : List Given) →
    Except UsageError (List Given × List String)
  | none, [], given => .ok (given, [])
  | some spec, [], _ => .error (.missingValue spec.long)
  | some spec, arg :: rest, given => do
    if looksLikeOption arg then throw (.missingValue spec.long)
    match spec.takes with
    | none => throw (.unexpectedValue spec.long)
    | some kind =>
      let given ← addGiven given [← Given.withValue spec kind arg]
      readOptions specs commands none rest given
  | none, arg :: rest, given => do
    if commands.contains arg then return (given, arg :: rest)
    if arg == "--" then
      match rest with
      | [] => return (given, [])
      | extra :: _ => throw (.unexpectedArgument extra)
    if !looksLikeOption arg then throw (.unexpectedArgument arg)
    let piece ← readPiece specs arg
    let given ← addGiven given piece.given
    if anyEnds given then return (given, [])
    readOptions specs commands piece.awaiting rest given

end FluentGrammar
