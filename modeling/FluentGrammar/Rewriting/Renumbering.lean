import FluentGrammar.Grammar.Naming
import FluentGrammar.Rewriting.Canonical

/-! # Rewriting under other ids

    A run of the passes hands tags, chains and failures around besides grammars, and each of
    them mentions variables. Here is what they become when the ids of the variables are
    exchanged for others. Names, terminals, nodes and numbers stay.
-/

namespace FluentGrammar

section Renumber

variable (f : Nat → Nat)

/-- The tag with the empty rules that it lists under other ids. -/
def Tag.renumber : Tag → Tag
  | .full node => .full node
  | .partialSelection node required => .partialSelection node required
  | .partialDerivation node required implicit =>
    .partialDerivation node required (implicit.map (Variable.renumber f))
  | .bridge => .bridge

/-- The chain with its variables under other ids. -/
def Chain.renumber (c : Chain) : Chain :=
  ⟨c.root.renumber f, c.below.map (Variable.renumber f)⟩

/-- The fault at the same variables under other ids. -/
def GrammarError.renumber : GrammarError → GrammarError
  | .missingStart => .missingStart
  | .duplicateRule v => .duplicateRule (v.renumber f)
  | .missingStartRule v => .missingStartRule (v.renumber f)
  | .undefinedRule v => .undefinedRule (v.renumber f)
  | .malformedSelection v => .malformedSelection (v.renumber f)
  | .recursive cycle => .recursive (cycle.map (Variable.renumber f))

/-- The shape at the same variables under other ids. -/
def AmbiguousShape.renumber : AmbiguousShape → AmbiguousShape
  | .identicalAlternatives selection first second =>
    .identicalAlternatives (selection.renumber f) (first.map (Variable.renumber f))
      (second.map (Variable.renumber f))
  | .convergingEmpty selection terminus =>
    .convergingEmpty (selection.renumber f) (terminus.renumber f)

/-- The mismatch at the same variables under other ids. -/
def Mismatch.renumber : Mismatch → Mismatch
  | .components tag shape => .components (tag.renumber f) shape
  | .folding v tag => .folding (v.renumber f) (tag.renumber f)
  | .retagging tag shape => .retagging (tag.renumber f) shape
  | .chainAtDerivation chain => .chainAtDerivation (chain.renumber f)
  | .chainAtSelection chain => .chainAtSelection (chain.renumber f)
  | .divergence pivot => .divergence (pivot.renumber f)
  | .offChain v symbol => .offChain (v.renumber f) symbol
  | .deadEnd selection => .deadEnd (selection.renumber f)
  | .rootShape root => .rootShape (root.renumber f)

/-- The failure at the same variables under other ids. -/
def PassError.renumber : PassError → PassError
  | .grammar fault => .grammar (fault.renumber f)
  | .missingTag v => .missingTag (v.renumber f)
  | .unsupported shape => .unsupported (shape.renumber f)
  | .mismatch m => .mismatch (m.renumber f)
  | .iterationLimit limit => .iterationLimit limit

end Renumber

end FluentGrammar
