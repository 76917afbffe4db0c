import FluentGrammar.Chain.Basic
import FluentGrammar.Grammar.Error
import FluentGrammar.Tag.Basic

/-! # Failures of a rewriting

    A rewriting fails when a variable has no tag, when a tag cannot describe the rule that it
    is to be moved to, when the shape of the grammar has no canonical form, or when more
    rounds are needed than were allowed.
-/

namespace FluentGrammar

/-- A shape that has no canonical form, because the grammar is ambiguous there. -/
inductive AmbiguousShape where
  /-- Two chains of a selection derive the same strings. -/
  | identicalAlternatives (selection : Variable) (first second : List Variable)
  /-- Two chains of a selection end at the same empty rule with nothing to tell them apart. -/
  | convergingEmpty (selection terminus : Variable)
deriving DecidableEq

/-- The shape in one sentence. -/
def AmbiguousShape.text : AmbiguousShape → String
  | .identicalAlternatives selection first second =>
    s!"alternatives of {selection.name} derive identical strings via " ++
      "[" ++ joinNames ", " first ++ "] and [" ++ joinNames ", " second ++ "]"
  | .convergingEmpty selection terminus =>
    s!"several alternatives of {selection.name} reconverge on the empty production " ++
      terminus.name

/-- The variables that a shape is about. -/
def AmbiguousShape.subjects : AmbiguousShape → List Variable
  | .identicalAlternatives selection first second => selection :: (first ++ second)
  | .convergingEmpty selection terminus => [selection, terminus]

/-- Parts of the input of a step that do not fit together. -/
inductive Mismatch where
  /-- A tag cannot take components on for a rule of the shape. -/
  | components (tag : Tag) (shape : Rule.Shape)
  /-- A tag cannot take on an empty rule. -/
  | folding (v : Variable) (tag : Tag)
  /-- A tag has no counterpart for a rule of the shape. -/
  | retagging (tag : Tag) (shape : Rule.Shape)
  /-- A chain ends where it should go on. -/
  | chainAtDerivation (chain : Chain)
  /-- A chain ends at a selection. -/
  | chainAtSelection (chain : Chain)
  /-- Chains part below a variable that offers no choice. -/
  | divergence (pivot : Variable)
  /-- A variable of a chain does not start with the terminal of the chain. -/
  | offChain (v : Variable) (symbol : Terminal)
  /-- No alternative of a selection on a chain is on the chain. -/
  | deadEnd (selection : Variable)
  /-- The root of a shared prefix offers no choice. -/
  | rootShape (root : Variable)
deriving DecidableEq

/-- The mismatch in one sentence. -/
def Mismatch.text : Mismatch → String
  | .components tag shape =>
    s!"cannot add components to {tag.kind} info of a {shape.text}"
  | .folding v tag => s!"cannot fold empty rule {v.name} into {tag.kind} info"
  | .retagging tag shape => s!"cannot re-tag {tag.kind} info as a {shape.text}"
  | .chainAtDerivation chain =>
    s!"chain {chain.text} ends at a derivation led by a variable"
  | .chainAtSelection chain => s!"chain {chain.text} ends at a selection"
  | .divergence pivot =>
    s!"chains diverge below {pivot.name}, which is not a selection"
  | .offChain v symbol =>
    s!"{v.name} is on a chain for {symbol.text} but does not lead to it"
  | .deadEnd selection =>
    s!"selection {selection.name} is on a chain but none of its alternatives are"
  | .rootShape root => s!"common prefix root {root.name} is not a selection"

/-- Why a rewriting fails. -/
inductive PassError where
  /-- The rewritten rules have a fault, or a variable has no rule. -/
  | grammar (fault : GrammarError)
  /-- A variable has no tag. -/
  | missingTag (v : Variable)
  /-- The grammar has no canonical form. -/
  | unsupported (shape : AmbiguousShape)
  /-- The parts of the input do not fit together. -/
  | mismatch (m : Mismatch)
  /-- More rounds are needed than the limit allows. -/
  | iterationLimit (limit : Nat)
deriving DecidableEq

/-- How a failure is reported. -/
def PassError.diagnostic : PassError → Diagnostic
  | .grammar fault => fault.diagnostic
  | .missingTag v =>
    { message := s!"No parser info for variable {v.name}"
      code := "stepwise::canon::missing_parser_info"
      help := some "every variable of the input grammar needs a parser info entry"
      subjects := [v] }
  | .unsupported shape =>
    { message := "Unsupported grammar shape: " ++ shape.text
      code := "stepwise::canon::unsupported"
      help := some
        "the grammar is ambiguous at this point; merge the offending alternatives"
      subjects := shape.subjects }
  | .mismatch m =>
    { message := "Unexpected state: " ++ m.text
      code := "stepwise::canon::unexpected_state"
      help := none
      subjects := [] }
  | .iterationLimit limit =>
    { message := s!"Canonicalization did not converge within {limit} iterations"
      code := "stepwise::canon::iteration_limit"
      help := none
      subjects := [] }

end FluentGrammar
