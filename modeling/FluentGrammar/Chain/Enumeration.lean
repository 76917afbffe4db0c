import FluentGrammar.Grammar.Validation
import FluentGrammar.Rewriting.Error

/-! # The chains of a variable

    All chains that begin at a variable, depth first, in the order of the alternatives. For
    each of them: what it reads first, and which symbols it leaves to be read after that.
-/

namespace FluentGrammar

/-- What a chain reads first. -/
inductive Head where
  /-- Nothing: its terminus is an empty derivation. -/
  | nothing
  /-- The empty terminal. -/
  | sentinel
  /-- Any other terminal. -/
  | terminal (t : Terminal)
deriving DecidableEq

/-- The terminal that a chain reads first, if it reads one. -/
def Head.terminal? : Head → Option Terminal
  | .terminal t => some t
  | .nothing => none
  | .sentinel => none

/-- The symbols that a rule on a chain leaves behind its leading one. -/
def Rule.behindLeading : Rule → List Symbol
  | .derivation _ rhs => rhs.tail
  | .selection .. => []

namespace Grammar

/-- The rule of a variable that a rewriting needs. -/
def requireRule (g : Grammar) (v : Variable) : Except PassError Rule :=
  (g.rule v).mapError .grammar

/-- The chains that begin at a variable. Structural recursion on `fuel`, the largest number
    of variables on a chain. -/
def chainsWithin (g : Grammar) : (fuel : Nat) → Variable → Except PassError (List Chain)
  | 0, _ => .ok []
  | fuel + 1, v => do
    match ← g.requireRule v with
    | .derivation _ (.var w :: _) => return (← chainsWithin g fuel w).map (Chain.cons v)
    | .derivation .. => return [⟨v, []⟩]
    | .selection _ alternatives =>
      return (← alternatives.mapM (chainsWithin g fuel)).flatten.map (Chain.cons v)

/-- The chains that begin at a variable. No variable stands on a chain twice, so a chain has
    at most as many variables as there are rules. -/
def chains (g : Grammar) (v : Variable) : Except PassError (List Chain) :=
  g.chainsWithin (g.size + 1) v

/-- What a chain reads first. -/
def head (g : Grammar) (c : Chain) : Except PassError Head := do
  match ← g.requireRule c.terminus with
  | .derivation _ [] => return .nothing
  | .derivation _ (.term t :: _) => return if t.isEmpty then .sentinel else .terminal t
  | .derivation _ (.var _ :: _) => throw (.mismatch (.chainAtDerivation c))
  | .selection .. => throw (.mismatch (.chainAtSelection c))

/-- The symbols that a chain leaves to be read behind its head, in the order in which they
    are read: the terminus leaves its own first. -/
def trailing (g : Grammar) (c : Chain) : Except PassError (List Symbol) := do
  let rules ← c.vars.reverse.mapM g.requireRule
  return rules.flatMap Rule.behindLeading

end Grammar

end FluentGrammar
