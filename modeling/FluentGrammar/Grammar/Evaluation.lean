import FluentGrammar.Grammar.Reachability

/-! # Evaluation from the bottom up

    References of a grammar do not run in circles, so its rules can be put in an order in
    which every rule stands behind the rules it refers to. A quantity that is defined rule
    by rule out of the values of the references (the depth, the language, the number of
    derivations) is then computed once for each variable, in that order.
-/

namespace FluentGrammar

/-! ## Dependency order -/

/-- Move the rules whose references are all placed behind the placed ones, round by round.
    Structural recursion on `rounds`; every round but the last places a rule. -/
def placeRules : (rounds : Nat) → (placed pending : List Rule) → List Rule
  | 0, placed, _ => placed
  | rounds + 1, placed, pending =>
    let (ready, blocked) := pending.partition (fun r =>
      r.references.all (fun v => placed.any (fun s => s.lhs == v)))
    if ready.isEmpty then placed else placeRules rounds (placed ++ ready) blocked

/-- The rules, each behind those it refers to. -/
def dependencyOrder (rules : List Rule) : List Rule :=
  placeRules rules.length [] rules

/-! ## Tables of values -/

/-- Values of variables. -/
abbrev ValueTable (α : Type) := List (Variable × α)

/-- The value of a variable. -/
def ValueTable.value? {α : Type} (table : ValueTable α) (v : Variable) : Option α :=
  (table.find? (fun entry => entry.1 == v)).map (·.2)

/-- The values of the left-hand sides, computed rule by rule. `step` computes the value of a
    rule from the values of the variables before it, or gives up on the whole table. -/
def tabulate {α : Type} (step : (Variable → Option α) → Rule → Option α)
    (rules : List Rule) : Option (ValueTable α) :=
  rules.foldlM (fun table r => do
    let value ← step table.value? r
    return (r.lhs, value) :: table) []

namespace Grammar

/-- The rules that a derivation from the start variable can use. -/
def liveRules (g : Grammar) : List Rule :=
  let reached := g.reachable []
  g.rules.filter (fun r => reached.contains r.lhs)

/-- The value of the start variable, computed over the rules it can use. -/
def evaluate {α : Type} (g : Grammar) (step : (Variable → Option α) → Rule → Option α) :
    Option α := do
  let table ← tabulate step (dependencyOrder g.liveRules)
  table.value? g.start

end Grammar

end FluentGrammar
