import FluentGrammar.Grammar.Evaluation
import FluentGrammar.Number.Decimal

/-! # Metrics

    Counts of the rules of a grammar by shape, and the depth of its references.
-/

namespace FluentGrammar

/-- The largest of a list of numbers, and zero for none. -/
def largest (ns : List Nat) : Nat :=
  ns.foldl max 0

/-- The number of references on the longest path from the start variable. -/
def Grammar.depth (g : Grammar) : Nat :=
  let step := fun (depth : Variable → Option Nat) (r : Rule) =>
    (r.references.mapM depth).map (fun depths => largest (depths.map (· + 1)))
  (g.evaluate step).getD 0

/-- Size and shape of a grammar. -/
structure Metrics where
  /-- Number of rules. -/
  rules : Nat
  /-- Number of derivations. -/
  derivations : Nat
  /-- Number of selections. -/
  selections : Nat
  /-- Number of distinct terminals, parameters included. -/
  terminals : Nat
  /-- Number of derivations with nothing on the right-hand side. -/
  empty : Nat
  /-- Length of the longest path of references from the start variable. -/
  maxDepth : Nat
  /-- Number of alternatives of all selections together. -/
  alternatives : Nat

namespace Metrics

/-- The metrics of a grammar. -/
def of (g : Grammar) : Metrics where
  rules := g.size
  derivations := (g.rules.filter (fun r => !r.isSelection)).length
  selections := (g.rules.filter Rule.isSelection).length
  terminals := g.terminals.length
  empty := (g.rules.filter Rule.isEmptyDerivation).length
  maxDepth := g.depth
  alternatives := ((g.rules.filter Rule.isSelection).flatMap Rule.references).length

/-- The average number of alternatives of a selection, with the given number of places. -/
def averageAlternatives (m : Metrics) (places : Nat) : String :=
  Number.average places m.alternatives m.selections

/-- The metrics in one line. -/
def summary (m : Metrics) : String :=
  s!"Grammar summary: {m.rules} rules ({m.derivations} derivations, " ++
  s!"{m.selections} selections), {m.terminals} terminals, max depth {m.maxDepth}, " ++
  m.averageAlternatives 1 ++ s!" avg alternatives, {m.empty} empty"

end Metrics

end FluentGrammar
