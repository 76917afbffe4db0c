import FluentGrammar.Chain.Enumeration
import FluentGrammar.Grammar.Reachability

/-! # Discovering shared prefixes

    Alternatives of a selection cannot be told apart by their first terminal when two chains
    of the selection have the same head. The chains with that head are a shared prefix. Its
    root is moved down to the last variable that all of them pass, which is the selection
    where they part.

    Two chains that also end at the same terminus and leave the same symbols to be read
    derive the same strings. No factoring tells them apart, so such a selection is reported.
-/

namespace FluentGrammar

/-- Chains of one selection that read the same terminal first. -/
structure SharedPrefix where
  /-- The terminal. -/
  symbol : Terminal
  /-- The selection the chains begin at. -/
  root : Variable
  /-- The chains, in order. -/
  chains : List Chain
deriving DecidableEq

/-! ## Chains with their contents -/

/-- A chain with what it reads first and what it leaves to be read. -/
structure ReadChain where
  chain : Chain
  head : Head
  trailing : List Symbol

/-- The chains of a variable with their contents. -/
def Grammar.readChains (g : Grammar) (v : Variable) : Except PassError (List ReadChain) := do
  (← g.chains v).mapM (fun c => do return ⟨c, ← g.head c, ← g.trailing c⟩)

/-! ## Ambiguous shapes -/

/-- Whether two chains end alike and leave the same symbols: they derive the same strings. -/
def ReadChain.alike (c d : ReadChain) : Bool :=
  c.chain.terminus == d.chain.terminus && c.trailing == d.trailing

/-- The shape of a selection with two chains alike. -/
def ReadChain.shape (selection : Variable) (c d : ReadChain) : AmbiguousShape :=
  match c.head with
  | .terminal _ =>
    .identicalAlternatives selection c.chain.vars d.chain.vars
  | .nothing => .convergingEmpty selection c.chain.terminus
  | .sentinel => .convergingEmpty selection c.chain.terminus

/-- The first two chains of a selection that are alike. -/
def firstAmbiguity (selection : Variable) : List ReadChain → Option AmbiguousShape
  | [] => none
  | c :: rest =>
    match rest.find? c.alike with
    | some d => some (c.shape selection d)
    | none => firstAmbiguity selection rest

/-! ## Shared prefixes -/

/-- The first terminal in a list of heads that stands there again. -/
def sharedTerminal : List Head → Option Terminal
  | [] => none
  | .terminal t :: rest => if rest.contains (.terminal t) then some t else sharedTerminal rest
  | .nothing :: rest => sharedTerminal rest
  | .sentinel :: rest => sharedTerminal rest

/-- The chains that read the first shared terminal. -/
def gather (root : Variable) (chains : List ReadChain) : Option SharedPrefix :=
  (sharedTerminal (chains.map (·.head))).map (fun t =>
    ⟨t, root, (chains.filter (fun c => c.head == .terminal t)).map (·.chain)⟩)

/-- The number of variables two lists have in common at their front. -/
def commonLength (vs ws : List Variable) : Nat :=
  ((vs.zip ws).takeWhile (fun (v, w) => v == w)).length

/-- The number of variables that all chains have in common at their front. -/
def sharedLength : List Chain → Nat
  | [] => 0
  | first :: rest =>
    rest.foldl (fun n c => min n (commonLength first.vars c.vars)) first.length

/-- The chain without its first variables; a chain that would be left empty stays whole. -/
def Chain.dropFront (c : Chain) (n : Nat) : Chain :=
  match c.vars.drop n with
  | [] => c
  | root :: below => ⟨root, below⟩

/-- Move the root down to the last variable that all chains pass. -/
def SharedPrefix.narrow (g : Grammar) (p : SharedPrefix) : Except PassError SharedPrefix := do
  let shared := sharedLength p.chains
  -- The chains always share the root; there is something to move only if they share more.
  if shared < 2 then return p
  match p.chains with
  | [] => return p
  | first :: _ =>
    let pivot := (first.dropFront (shared - 1)).root
    if (← g.requireRule pivot).isSelection then
      return { p with root := pivot, chains := p.chains.map (·.dropFront (shared - 1)) }
    else throw (.mismatch (.divergence pivot))

/-- The shared prefix of a selection, if it has one. With `detect`, a selection with two
    chains alike is an error. -/
def Grammar.prefixAt (g : Grammar) (detect : Bool) (selection : Variable) :
    Except PassError (Option SharedPrefix) := do
  let chains ← g.readChains selection
  if detect then
    match firstAmbiguity selection chains with
    | some shape => throw (.unsupported shape)
    | none => pure ()
  match gather selection chains with
  | none => return none
  | some p => return some (← p.narrow g)

/-- The shared prefix of the first selection in a list that has one. -/
def Grammar.firstPrefix (g : Grammar) (detect : Bool) :
    List Variable → Except PassError (Option SharedPrefix)
  | [] => .ok none
  | v :: rest => do
    match ← g.prefixAt detect v with
    | some p => return some p
    | none => firstPrefix g detect rest

/-- The selections that references lead to from the start variable, in order. -/
def Grammar.reachableSelections (g : Grammar) : List Variable :=
  let reached := g.reachable []
  ((g.rules.filter Rule.isSelection).map Rule.lhs).filter reached.contains

/-- The shared prefix of the first reachable selection that has one. -/
def Grammar.discover (g : Grammar) (detect : Bool) :
    Except PassError (Option SharedPrefix) :=
  g.firstPrefix detect g.reachableSelections

end FluentGrammar
