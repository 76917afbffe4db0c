import FluentGrammar.Grammar.Validation
import FluentGrammar.Sample.Xorshift

/-! # Random grammars

    Variables are numbered, and the rule of each refers only to variables with higher
    numbers. So the rules never run in circles, whatever is drawn. Some variables may be
    unreachable.
-/

namespace FluentGrammar

/-- What random grammars look like. -/
structure SampleConfig where
  /-- Number of variables, at least one. The start variable is the first of them. -/
  variableCount : Nat
  /-- Number of names for terminals, from 1 to 26. -/
  terminals : Nat
  /-- Largest number of symbols of a derivation. -/
  maxRhs : Nat
  /-- Largest number of alternatives of a selection. -/
  maxAlternatives : Nat
  /-- Probability that a variable has a selection, where it can have one. -/
  selectionProbability : Float
  /-- Probability that a derivation is empty. -/
  emptyProbability : Float
  /-- Probability that a terminal takes a parameter. -/
  paramProbability : Float
  /-- Where the draws begin. -/
  seed : Option UInt64

/-- Small grammars with a few collisions. -/
def SampleConfig.default : SampleConfig where
  variableCount := 7
  terminals := 3
  maxRhs := 3
  maxAlternatives := 3
  selectionProbability := 0.4
  emptyProbability := 0.1
  paramProbability := 0.1
  seed := none

namespace Draw

/-- A terminal: a small letter, perhaps with a parameter. -/
def terminal (config : SampleConfig) : Draw Terminal := do
  let index ← below (min (max config.terminals 1) 26)
  let name := String.singleton (Char.ofNat ('a'.toNat + index))
  if ← chance config.paramProbability then return ⟨name, [⟨"int", "v"⟩]⟩
  return ⟨name, []⟩

/-- A symbol: one of the higher variables, if there is one, or a terminal. -/
def symbol (config : SampleConfig) (higher : List Variable) : Draw Symbol := do
  -- The last variable draws no word for this choice, since it has none.
  if !higher.isEmpty then
    if ← chance 0.5 then
      match higher[← below higher.length]? with
      | some v => return .var v
      | none => pure ()
  return .term (← terminal config)

/-- A selection among higher variables. -/
def selection (config : SampleConfig) (lhs : Variable) (higher : List Variable) :
    Draw Rule := do
  let wanted := 2 + (← below (max config.maxAlternatives 2 - 1))
  return .selection lhs (← among wanted higher)

/-- A derivation, which may be empty. -/
def derivation (config : SampleConfig) (lhs : Variable) (higher : List Variable) :
    Draw Rule := do
  if ← chance config.emptyProbability then return .derivation lhs []
  let length := 1 + (← below (max config.maxRhs 1))
  return .derivation lhs (← times (symbol config higher) length)

/-- The rule of a variable that may refer to the higher ones. -/
def rule (config : SampleConfig) (lhs : Variable) (higher : List Variable) : Draw Rule := do
  if 2 ≤ higher.length then
    if ← chance config.selectionProbability then return ← selection config lhs higher
  derivation config lhs higher

/-- The rules of variables in the order of their numbers. -/
def rules (config : SampleConfig) : List Variable → Draw (List Rule)
  | [] => return []
  | v :: higher => do
    let r ← rule config v higher
    return r :: (← rules config higher)

end Draw

/-- The variable of a number. -/
def numberedVariable (i : Nat) : Variable :=
  ⟨i, "V" ++ toString i⟩

/-- The random grammar of a configuration. -/
def Grammar.sample (config : SampleConfig) : Except GrammarError Grammar :=
  let vars := (List.range (max config.variableCount 1)).map numberedVariable
  let register := (config.seed.map Xorshift.ofSeed).getD .unseeded
  Grammar.ofRules (numberedVariable 0) ((Draw.rules config vars).run register).1

end FluentGrammar
