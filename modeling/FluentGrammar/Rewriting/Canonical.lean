import FluentGrammar.Rewriting.Bridging
import FluentGrammar.Rewriting.Countdown
import FluentGrammar.Rewriting.EmptyFolding
import FluentGrammar.SharedPrefix.Factoring

/-! # Canonical form

    In canonical form every derivation has at most one terminal, in front; no right-hand side
    is empty; and no selection offers two alternatives that start with the same terminal. So
    the first call of a fluent interface settles which rule is meant.

    A grammar is brought into this form by bridging terminals, folding empty rules, dropping
    what is unreachable, and then factoring shared prefixes out, one round for each, until
    none is left.
-/

namespace FluentGrammar

/-- How to canonicalize. -/
structure Config where
  /-- Whether ambiguous shapes are refused. -/
  detectUnsupported : Bool
  /-- The number of rounds that are allowed; any number, if none is given. -/
  maxIterations : Option Nat
  /-- Whether the empty rules of the input are folded before the first round. -/
  foldInputEmpties : Bool
deriving DecidableEq

/-- Refuse ambiguous shapes, allow any number of rounds, fold empty rules first. -/
def Config.default : Config :=
  ⟨true, none, true⟩

/-- A grammar in canonical form, its tags, and what was done to get there. -/
structure Canonical where
  grammar : Grammar
  tags : Tagging
  tally : Tally
deriving DecidableEq

/-- Remove unreachable variables from the grammar and all others than its variables from the
    tags. An empty rule that a reachable rule builds implicitly is kept. -/
def dropUnreachable (g : Grammar) (tags : Tagging) : Pass Tagged := do
  let (g, removed) := g.prune tags.implicitEdges
  modify (·.count (fun t => { t with pruned := t.pruned + removed.length }))
  return (g, tags.retain g.contains)

/-- Count a round, and fail if it is one too many. -/
def countRound (limit : Option Nat) : Pass Unit := do
  modify (·.count (fun t => { t with iterations := t.iterations + 1 }))
  match limit with
  | none => return ()
  | some n => if n < (← get).tally.iterations then throw (.iterationLimit n)

/-- One round: factor a shared prefix out, drop what nothing leads to any more, and fold the
    rules that have become empty. -/
def factorRound (g : Grammar) (tags : Tagging) (target : SharedPrefix) : Pass Tagged := do
  let (g, tags) ← leftFactor g tags target
  let (g, tags) ← dropUnreachable g tags
  foldEmpties g tags

/-- Rounds of factoring until there is no shared prefix. -/
def factorAll (config : Config) : (rounds : Countdown) → Grammar → Tagging → Pass Tagged
  | rounds, g, tags => do
    match ← ofExcept (g.discover config.detectUnsupported) with
    | none => return (g, tags)
    | some target =>
      match rounds with
      -- Not reached: factoring ends before the bound is used up.
      | .done => throw (.iterationLimit (← get).tally.iterations)
      | .more rest =>
        countRound config.maxIterations
        let (g, tags) ← factorRound g tags target
        factorAll config (rest ()) g tags

/-- All passes, one after the other. -/
def canonicalPass (config : Config) (g : Grammar) (tags : Tagging) : Pass Tagged := do
  let (g, tags) ← bridgeTerminals g tags
  let (g, tags) ← if config.foldInputEmpties then foldEmpties g tags else pure (g, tags)
  let (g, tags) ← dropUnreachable g tags
  -- The bound is taken from the grammar that factoring starts with.
  let (g, tags) ← factorAll config g.roundBound g tags
  dropUnreachable g tags

/-- Bring a grammar into canonical form, and its tags along with it. Every variable of the
    grammar has to have a tag; tags of other variables are left out. -/
def canonicalize (config : Config) (g : Grammar) (tags : Tagging) :
    Except PassError Canonical := do
  let _ ← g.vars.mapM tags.require
  match (canonicalPass config g (tags.retain g.contains)).run (.ofGrammar g) with
  | .ok (g, tags) session => return ⟨g, tags, session.tally⟩
  | .error error _ => throw error

/-- Bring a grammar into canonical form, every variable building a node of its own name. -/
def Grammar.canonical (g : Grammar) : Except PassError Canonical :=
  canonicalize .default g (.full g)

end FluentGrammar
