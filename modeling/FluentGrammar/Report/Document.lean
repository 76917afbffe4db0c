import FluentGrammar.Grammar.Metrics
import FluentGrammar.Json.Printer
import FluentGrammar.Stored.Writer

/-! # Report documents

    Two JSON documents about a grammar. A listing holds the rules with their tags, and the
    tally of the rewriting they come from. A check holds what stands between a grammar and
    its canonical form. There a derivation is not empty, and a terminal stands only in front;
    what a single rule shows against that is a violation. Alternatives that start alike are
    another matter: they show on chains of rules.
-/

namespace FluentGrammar

/-- The fields of an object that are there. -/
def Json.presentFields (fields : List (String × Option Json)) : Json :=
  .object (fields.filterMap (fun (name, value) => value.map (fun json => (name, json))))

/-! ## Listings -/

/-- A rule with its tag. -/
def ruleEntry (tags : Option Tagging) (r : Rule) : Json :=
  .presentFields
    [("variable", some r.lhs.toJson), ("rule", some r.toJson),
      ("info", (tags.bind (fun t => t.tag? r.lhs)).map Tag.toJson)]

/-- The rules of a grammar, the start rule first, with their tags and a tally where these
    are given. -/
def listing (g : Grammar) (tags : Option Tagging) (tally : Option Tally) : Json :=
  .presentFields
    [("start", some g.start.toJson), ("rules", some (.list (ruleEntry tags) g.rulesStartFirst)),
      ("stats", tally.map Tally.toJson)]

/-- The listing of a canonical grammar. -/
def Canonical.listing (c : Canonical) : Json :=
  FluentGrammar.listing c.grammar (some c.tags) (some c.tally)

/-! ## Violations of canonical form -/

/-- A way in which a rule falls short of canonical form. -/
inductive Violation where
  /-- A terminal stands behind the first position of a derivation. -/
  | nonLeadingTerminal (lhs : Variable) (position : Nat)
  /-- A derivation has nothing on its right-hand side. -/
  | emptyDerivation (lhs : Variable)
deriving DecidableEq

/-- The violation in one line. -/
def Violation.text : Violation → String
  | .nonLeadingTerminal lhs position => s!"{lhs.name}: terminal at position {position}"
  | .emptyDerivation lhs => s!"{lhs.name}: empty right-hand side"

/-- The positions behind the first at which a terminal stands. -/
def lateTerminals (rhs : List Symbol) : List Nat :=
  (rhs.zipIdx.filter (fun (s, position) => 0 < position && s.isTerminal)).map (·.2)

/-- The violations of a rule, from left to right. -/
def Rule.violations : Rule → List Violation
  | .derivation lhs [] => [.emptyDerivation lhs]
  | .derivation lhs rhs => (lateTerminals rhs).map (.nonLeadingTerminal lhs)
  | .selection .. => []

/-- The violations of a grammar, in the order of its rules. -/
def Grammar.violations (g : Grammar) : List Violation :=
  g.rules.flatMap Rule.violations

/-! ## Checks -/

/-- What stands between a grammar and its canonical form. -/
structure Check where
  metrics : Metrics
  violations : List Violation
  /-- The first shared prefix, if there is one. -/
  sharedPrefix : Option SharedPrefix

namespace Check

/-- Check a grammar. -/
def of (g : Grammar) : Check where
  metrics := .of g
  violations := g.violations
  sharedPrefix := (g.discover false).toOption.join

/-- Whether the grammar is in canonical form. -/
def isCanonical (c : Check) : Bool :=
  c.violations.isEmpty && c.sharedPrefix.isNone

/-- The root and the terminal of a shared prefix. -/
def prefixEntry (p : SharedPrefix) : Json :=
  .array [.string p.root.name, .string p.symbol.text]

/-- The check as a document. -/
def toJson (c : Check) : Json :=
  .presentFields
    [("rules", some (.natural c.metrics.rules)),
      ("derivations", some (.natural c.metrics.derivations)),
      ("selections", some (.natural c.metrics.selections)),
      ("terminals", some (.natural c.metrics.terminals)),
      ("empty", some (.natural c.metrics.empty)),
      ("max_depth", some (.natural c.metrics.maxDepth)),
      ("violations", some (.list Json.string (c.violations.map Violation.text))),
      ("shared_prefix", c.sharedPrefix.map prefixEntry)]

end Check

end FluentGrammar
