import FluentGrammar.Grammar.WellFormed
import FluentGrammar.Language.Derivation
import FluentGrammar.Tag.Tagging

/-! # What tags mean

    What it means that tags describe the rules of a grammar, said without the steps that
    change them: a selection chooses, a derivation completes a node or passes one terminal
    on, and a node that is built implicitly belongs to a rule that reads nothing.

    And what it means that a tag is right about a variable: some variable of the original
    grammar has the name of the node that the tag tells to build, and the tagged variable goes
    on where that one has read a word, the parameters of which are the components that the tag
    lists.
-/

namespace FluentGrammar

/-! ## Tags that fit their rules -/

/-- A tag can describe a rule. -/
inductive Tag.Fits : Tag → Rule → Prop where
  /-- Any rule can build a node. -/
  | full (node : String) (r : Rule) : Fits (.full node) r
  /-- Only a selection chooses among partial methods. -/
  | partialSelection (node : String) (required : List Parameter) (lhs : Variable)
      (alternatives : List Variable) :
      Fits (.partialSelection node required) (.selection lhs alternatives)
  /-- Only a derivation completes a node. -/
  | partialDerivation (node : String) (required : List Parameter) (implicit : List Variable)
      (lhs : Variable) (rhs : List Symbol) :
      Fits (.partialDerivation node required implicit) (.derivation lhs rhs)
  /-- Only a derivation of a single terminal passes it on. -/
  | bridge (lhs : Variable) (t : Terminal) : Fits .bridge (.derivation lhs [.term t])

/-- The rule of a variable of the grammar is `<empty>`. -/
def Grammar.ReadsNothing (g : Grammar) (v : Variable) : Prop :=
  ∃ lhs, g.rule? v = some (.derivation lhs [.term .empty])

/-- Every rule has a tag that describes it in a given sense, and every variable that a tag
    lists as implicit reads nothing. -/
def TaggedBy (describes : Tag → Rule → Prop) (g : Grammar) (tags : Tagging) : Prop :=
  ∀ r ∈ g.rules, ∃ tag, tags.tag? r.lhs = some tag ∧ describes tag r ∧
    ∀ v ∈ tag.implicit, g.ReadsNothing v

/-- The tags fit the rules of the grammar. -/
def WellTagged (g : Grammar) (tags : Tagging) : Prop :=
  TaggedBy Tag.Fits g tags

/-! ## Tags that are right -/

/-- The tag of the variable `v` of a rewritten grammar is right: `v` goes on where the
    variable `o` of the original grammar has read the word `read`. -/
structure Tag.Continues (tag : Tag) (original g : Grammar) (v o : Variable) (read : Word) :
    Prop where
  /-- The node belongs to a variable of the original grammar. -/
  origin : o ∈ original.vars
  /-- It is named after that variable. -/
  node_eq : tag.node? = some o.name
  /-- What has been read before are the components of the word, in order. -/
  required_eq : tag.required = read.flatMap Terminal.params
  /-- Behind the word, every word of `v` completes one of `o`. -/
  derives : ∀ w, Derives g v w → Derives original o (read ++ w)
  /-- A variable that the original grammar had goes on with itself, and has read nothing. -/
  kept : Defines original.rules v → o.id = v.id ∧ read = []

end FluentGrammar
