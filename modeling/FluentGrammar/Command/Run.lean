import FluentGrammar.Command.Request
import FluentGrammar.Grammar.Reader
import FluentGrammar.Report.Annotated
import FluentGrammar.Report.Document
import FluentGrammar.Report.Graph

/-! # Running the program

    A run reads one file, makes one text out of it, and prints the text or writes it to a
    file. Access to files is a parameter, so a run is an ordinary function of the arguments
    and of what the files hold.
-/

namespace FluentGrammar

/-! ## Actions -/

/-- A canonical grammar in a format. -/
def Canonical.write (c : Canonical) : OutputFormat → String
  | .text => c.grammar.annotatedText c.tags
  | .dot => c.grammar.graph ⟨some c.tags, false⟩
  | .json => c.listing.indented

/-- The canonical form of a grammar whose variables build nodes of their own names. -/
def canonicalForm (config : Config) (g : Grammar) : Except Diagnostic Canonical :=
  (canonicalize config g (.full g)).mapError PassError.diagnostic

/-- What an action makes of a grammar. -/
def Action.apply (action : Action) (g : Grammar) : Except Diagnostic String :=
  match action with
  | .canon _ format _ => do
    return (← canonicalForm action.config g).write format
  | .check => .ok ((Check.of g).toJson.indented ++ "\n")
  | .viz _ false showConflicts => .ok (g.graph ⟨none, showConflicts⟩)
  | .viz _ true showConflicts => do
    let c ← canonicalForm action.config g
    return c.grammar.graph ⟨some c.tags, showConflicts⟩

/-- What an action makes of a text that holds a grammar. -/
def Action.applyText (action : Action) (text : String) : Except Diagnostic String := do
  let g ← (Grammar.read text).mapError ReadError.diagnostic
  action.apply g

/-! ## Runs -/

/-- Access to files. -/
structure Files (m : Type → Type) where
  /-- The text of a file, if it can be read. -/
  read : (path : String) → m (Option String)
  /-- Write a file; whether that succeeds. -/
  write : (path content : String) → m Bool

/-- How a run ends. -/
structure Ending where
  code : UInt32
  /-- What is printed to the standard output. -/
  output : String
  /-- What is printed to the standard error. -/
  complaint : String

namespace Ending

/-- The run has done what was asked. -/
def success (output : String) : Ending :=
  ⟨0, output, ""⟩

/-- The run has failed. -/
def failure (complaint : String) : Ending :=
  ⟨1, "", s!"error: {complaint}\n"⟩

/-- The arguments cannot be understood. -/
def usage (e : UsageError) : Ending :=
  ⟨2, "", s!"error: {e.message}\n"⟩

end Ending

/-- A diagnostic as it is printed. -/
def Diagnostic.text (d : Diagnostic) : String :=
  s!"{d.message} ({d.code})" ++ (d.help.map (fun help => s!"\nhelp: {help}")).getD ""

/-- The name and version of the program. -/
def versionText : String :=
  "stepwise 0.3.0\n"

/-- How the program is called. -/
def helpText : String :=
  "Usage: [-v] <canon|check|viz> -i <input> [options]\n"

/-- Print a text, or write it to a file. -/
def deliver {m : Type → Type} [Monad m] (files : Files m) (content : String) :
    (output : Option String) → m Ending
  | none => return .success content
  | some path => do
    if ← files.write path content then return .success ""
    else return .failure s!"could not write {path}"

/-- Do something to the grammar in a file. -/
def perform {m : Type → Type} [Monad m] (files : Files m) (input : String)
    (action : Action) : m Ending := do
  match ← files.read input with
  | none => return .failure s!"could not read grammar file {input}"
  | some text =>
    match action.applyText text with
    | .error d => return .failure d.text
    | .ok content => deliver files content action.output?

/-- Run the program. -/
def run {m : Type → Type} [Monad m] (files : Files m) (args : List String) : m Ending :=
  match Request.ofArguments args with
  | .error e => return .usage e
  | .ok .help => return .success helpText
  | .ok .version => return .success versionText
  | .ok (.perform input action) => perform files input action

end FluentGrammar
