import FluentGrammar.Grammar.Rule
import FluentGrammar.Sorted

/-! # Grammars

    A grammar is a start variable and one rule for each variable. The rules stand in the
    order of their left-hand sides, so a grammar has one representation. Grammars are made
    by `Grammar.ofRules`, which refuses rule sets with a fault, and by operations that cannot
    introduce one; a rewriting makes a new grammar and leaves the old one alone.

    In the text format a grammar is a `start` line, the rule of the start variable, and the
    other rules in order, each on a line of its own. What is written reads back as the same
    grammar up to the ids, provided the names are identifiers of the format and no two
    variables share one.
-/

namespace FluentGrammar

/-- Rules in the order of their left-hand sides. -/
def sortRules (rules : List Rule) : List Rule :=
  sortOn Rule.lhs rules

/-- A start variable and the rules, in the order of their left-hand sides. -/
structure Grammar where
  /-- Where derivations begin. -/
  start : Variable
  /-- One rule per variable, in order. -/
  rules : List Rule
deriving DecidableEq

namespace Grammar

/-- The variables of the grammar, in order. -/
def vars (g : Grammar) : List Variable :=
  g.rules.map Rule.lhs

/-- The number of rules. -/
def size (g : Grammar) : Nat :=
  g.rules.length

/-- The rule of a variable. -/
def rule? (g : Grammar) (v : Variable) : Option Rule :=
  g.rules.find? (fun r => r.lhs == v)

/-- Whether the variable has a rule. -/
def contains (g : Grammar) (v : Variable) : Bool :=
  g.rules.any (fun r => r.lhs == v)

/-- The distinct terminals of the grammar, in order. -/
def terminals (g : Grammar) : List Terminal :=
  sortedSet (g.rules.flatMap Rule.terminals)

/-- The rules with the start rule in front and the others in order. -/
def rulesStartFirst (g : Grammar) : List Rule :=
  g.rules.filter (fun r => r.lhs == g.start) ++ g.rules.filter (fun r => r.lhs != g.start)

/-! ## The text format, written -/

/-- The lines of the text format. -/
def textLines (g : Grammar) : List String :=
  ("start " ++ g.start.name) :: g.rulesStartFirst.map Rule.text

/-- The grammar in the text format; every line ends with a line feed. -/
def text (g : Grammar) : String :=
  String.join (g.textLines.map (fun line => line ++ "\n"))

/-! ## Looking up rules -/

theorem mem_of_rule? {g : Grammar} {v : Variable} {r : Rule} (h : g.rule? v = some r) :
    r ∈ g.rules :=
  List.mem_of_find?_eq_some h

theorem lhs_of_rule? {g : Grammar} {v : Variable} {r : Rule} (h : g.rule? v = some r) :
    r.lhs.id = v.id := by
  have := List.find?_some h
  simpa using this

theorem rule?_isSome {g : Grammar} {v : Variable} : (g.rule? v).isSome = g.contains v := by
  unfold rule? contains
  induction g.rules with
  | nil => rfl
  | cons r rest ih =>
    simp only [List.find?_cons, List.any_cons]
    cases r.lhs == v <;> simp [ih]

/-- A rule is looked up by the id of the variable alone. -/
theorem rule?_congr {g : Grammar} {v w : Variable} (h : v.id = w.id) :
    g.rule? v = g.rule? w := by
  unfold rule?
  congr 1
  funext r
  change (r.lhs.id == v.id) = (r.lhs.id == w.id)
  rw [h]

end Grammar

end FluentGrammar
