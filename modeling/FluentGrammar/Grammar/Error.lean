import FluentGrammar.Grammar.Symbol

/-! # Faults of a rule set

    The ways in which a start variable and a list of rules fail to make a grammar. Each
    fault names the variable it was found at. A diagnostic reports a failure, of this or any
    other kind: a sentence for the reader, a stable code, sometimes a hint on how to mend the
    input, and the variables the failure is about.
-/

namespace FluentGrammar

/-- A report of a failure. -/
structure Diagnostic where
  /-- One sentence that names the offender. -/
  message : String
  /-- A code that does not change with the wording. -/
  code : String
  /-- A hint on how to mend the input. -/
  help : Option String
  /-- The variables that the failure is about. -/
  subjects : List Variable

/-- What is wrong with a start variable and a list of rules. -/
inductive GrammarError where
  /-- No start variable was given. -/
  | missingStart
  /-- A variable has two rules. -/
  | duplicateRule (v : Variable)
  /-- The start variable has no rule. -/
  | missingStartRule (v : Variable)
  /-- A variable is asked for, or referred to, that has no rule. -/
  | undefinedRule (v : Variable)
  /-- A selection has fewer than two alternatives, or one twice. -/
  | malformedSelection (v : Variable)
  /-- Rules refer to one another in a circle; the first variable is repeated at the end. -/
  | recursive (cycle : List Variable)
deriving DecidableEq

/-- How a fault is reported. -/
def GrammarError.diagnostic : GrammarError → Diagnostic
  | .missingStart =>
    { message := "Missing start variable"
      code := "stepwise::grammar::missing_start"
      help := none
      subjects := [] }
  | .duplicateRule v =>
    { message := s!"Duplicate rules for variable {v.name}"
      code := "stepwise::grammar::duplicate_rule"
      help := some "every variable must have exactly one rule"
      subjects := [v] }
  | .missingStartRule v =>
    { message := s!"Start variable {v.name} has no rule"
      code := "stepwise::grammar::missing_start_rule"
      help := none
      subjects := [v] }
  | .undefinedRule v =>
    { message := s!"Undefined rule: {v.name}"
      code := "stepwise::grammar::undefined_rule"
      help := none
      subjects := [v] }
  | .malformedSelection v =>
    { message := s!"Selection {v.name} needs at least two distinct alternatives"
      code := "stepwise::grammar::malformed_selection"
      help := some "write a single alternative as a derivation instead"
      subjects := [v] }
  | .recursive cycle =>
    { message := s!"Recursion detected: " ++ joinNames " -> " cycle
      code := "stepwise::grammar::recursive"
      help := some "only recursion-free grammars can be canonicalized"
      subjects := cycle }

end FluentGrammar
