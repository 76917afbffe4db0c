import FluentGrammar.Grammar.Basic

/-! # Well-formed rule sets

    What it means that a start variable and rules make a grammar, said without a search for
    faults: one rule for each variable, also for the start variable and for every variable
    that is referred to; at least two alternatives in a selection, no two of them the same;
    and no path of references back to where it began.
-/

namespace FluentGrammar

/-- No two of the variables are the same. -/
def Distinct (vars : List Variable) : Prop :=
  vars.Pairwise (fun v w => v.id ≠ w.id)

/-- Whether one of the rules belongs to the variable. -/
def Defines (rules : List Rule) (v : Variable) : Prop :=
  ∃ r ∈ rules, r.lhs.id = v.id

/-- The rule of the first variable refers to the second one. Variables are given by their
    ids. -/
def RefersTo (rules : List Rule) (i j : Nat) : Prop :=
  ∃ r ∈ rules, r.lhs.id = i ∧ ∃ v ∈ r.references, v.id = j

/-- A start variable and rules that make a grammar. -/
structure WellFormed (start : Variable) (rules : List Rule) : Prop where
  /-- No variable has two rules. -/
  distinct : Distinct (rules.map Rule.lhs)
  /-- The start variable has a rule. -/
  start_defined : Defines rules start
  /-- A selection has two or more alternatives, all different. -/
  selections : ∀ lhs alternatives, Rule.selection lhs alternatives ∈ rules →
    2 ≤ alternatives.length ∧ Distinct alternatives
  /-- Every variable that is referred to has a rule. -/
  closed : ∀ r ∈ rules, ∀ v ∈ r.references, Defines rules v
  /-- No path of references leads from a variable to itself. -/
  acyclic : ∀ i, ¬ Relation.TransGen (RefersTo rules) i i

/-- A grammar as the operations of the library make it: its rules are well formed and stand
    in the order of their left-hand sides. -/
structure Grammar.Valid (g : Grammar) : Prop where
  well_formed : WellFormed g.start g.rules
  ordered : sortRules g.rules = g.rules

/-! ## References -/

theorem refersTo_of_mem {rules : List Rule} {r : Rule} {v : Variable} (hr : r ∈ rules)
    (hv : v ∈ r.references) : RefersTo rules r.lhs.id v.id :=
  ⟨r, hr, rfl, v, hv, rfl⟩

end FluentGrammar
