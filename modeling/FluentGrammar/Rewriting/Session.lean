import FluentGrammar.Supply.Names
import FluentGrammar.Supply.Variables
import FluentGrammar.Tag.Tagging
import FluentGrammar.Grammar.Validation

/-! # Sessions

    A rewriting takes ids and names that are in use nowhere else and keeps a tally of what it
    does. That is its session. A pass that fails leaves the grammar and the tags as they were,
    but what it took from the session stays taken.
-/

namespace FluentGrammar

/-- What a rewriting has done. -/
structure Tally where
  /-- Rounds of factoring. -/
  iterations : Nat
  /-- Bridges added for terminals behind the first position. -/
  bridges : Nat
  /-- Variables added by factoring. -/
  synthesized : Nat
  /-- Empty rules folded into a derivation. -/
  folded : Nat
  /-- Variables removed as unreachable. -/
  pruned : Nat
deriving DecidableEq

/-- The tally of a rewriting that has done nothing. -/
def Tally.zero : Tally :=
  ⟨0, 0, 0, 0, 0⟩

/-- The state of a rewriting besides the grammar and the tags. -/
structure Session where
  /-- Where new ids come from. -/
  ids : VariableSupply
  /-- Where new names come from. -/
  names : NameSupply
  /-- What has been done. -/
  tally : Tally

namespace Session

/-- A session whose new variables share neither an id nor a name with one of the grammar. -/
def ofGrammar (g : Grammar) : Session where
  ids := .after g.vars
  names := .reserving (g.vars.map (·.name))
  tally := .zero

/-- A new variable, named after the seed or after the seed and a number. -/
def take (s : Session) (seed : String) : Variable × Session :=
  let (name, names) := s.names.take seed
  let (v, ids) := s.ids.take name
  (v, { s with names := names, ids := ids })

/-- The session with another tally. -/
def count (s : Session) (change : Tally → Tally) : Session :=
  { s with tally := change s.tally }

end Session

/-! ## Passes -/

/-- A step of a rewriting. It keeps the session also when it fails. -/
abbrev Pass := EStateM PassError Session

/-- What a pass works on. -/
abbrev Tagged := Grammar × Tagging

/-- The outcome of something that does not touch the state. -/
def ofExcept {ε σ α : Type} : Except ε α → EStateM ε σ α
  | .ok value => pure value
  | .error error => throw error

/-- The grammar of rewritten rules. -/
def rebuild (start : Variable) (rules : List Rule) : Pass Grammar :=
  ofExcept ((Grammar.ofRules start rules).mapError .grammar)

end FluentGrammar
