import FluentGrammar.Grammar.Rule

/-! # Tags

    Every variable becomes a method of a builder interface, and its tag says what the method
    does. A full method builds a node. Once a rule has been split, what is left of it builds
    the same node out of components that were read before; a partial tag lists them. A
    derivation can build the nodes of empty rules besides its own. A bridge only passes one
    terminal on.
-/

namespace FluentGrammar

/-- What the method of a variable does. -/
inductive Tag where
  /-- Builds a complete node. -/
  | full (node : String)
  /-- Chooses among partial methods; the types of the components read before matter. -/
  | partialSelection (node : String) (required : List Parameter)
  /-- Completes a node; the names of the components read before matter. The empty rules whose
      nodes it builds as well are listed in the order in which they were folded in. -/
  | partialDerivation (node : String) (required : List Parameter) (implicit : List Variable)
  /-- Passes on a single terminal. -/
  | bridge
deriving DecidableEq

namespace Tag

/-- The node that the method builds. -/
def node? : Tag → Option String
  | .full node => some node
  | .partialSelection node _ => some node
  | .partialDerivation node _ _ => some node
  | .bridge => none

/-- The components that were read before the method runs. -/
def required : Tag → List Parameter
  | .partialSelection _ required => required
  | .partialDerivation _ required _ => required
  | .full _ => []
  | .bridge => []

/-- The empty rules that the method builds as well. -/
def implicit : Tag → List Variable
  | .partialDerivation _ _ implicit => implicit
  | .full _ => []
  | .partialSelection .. => []
  | .bridge => []

/-- The kind of a tag in one word. -/
def kind : Tag → String
  | .full _ => "full"
  | .partialSelection .. => "partial-selection"
  | .partialDerivation .. => "partial-derivation"
  | .bridge => "bridge"

/-- A list of words between square brackets. -/
def bracketedList (words : List String) : String :=
  "[" ++ String.intercalate ", " words ++ "]"

/-- The tag in one line. -/
def text : Tag → String
  | .full node => s!"full {node}"
  | .partialSelection node required =>
    s!"partial selection {node} " ++ bracketedList (required.map (·.type))
  | .partialDerivation node required implicit =>
    s!"partial derivation {node} " ++ bracketedList (required.map (·.name)) ++
      (if implicit.isEmpty then ""
       else " implicit " ++ bracketedList (implicit.map (·.name)))
  | .bridge => "bridge"

end Tag

end FluentGrammar
