import FluentGrammar.Rewriting.Session
import FluentGrammar.Tag.Tagging
import FluentGrammar.SharedPrefix.Discovery

/-! # Factoring a shared prefix out

    Every variable on the chains of a shared prefix is split in two. Its full part derives
    what it derived before except through the chains; its partial part derives what is left
    of those strings behind the shared terminal. The root then offers one new alternative,
    which reads the terminal and goes on with the partial parts, and for the rest the full
    parts of its old alternatives.

    The old rules stay where they are; those that nothing leads to any more are dropped
    afterwards.
-/

namespace FluentGrammar

/-! ## State -/

/-- The two parts of a variable. There is no full part when every string goes through the
    chains. -/
structure Split where
  full : Option Variable
  part : Variable

/-- What factoring has made so far. -/
structure Workbench where
  session : Session
  /-- The variables that are split already. -/
  splits : List (Variable × Split)
  /-- The new rules, in the order in which they were made. -/
  rules : List Rule
  /-- The tags of the new variables. -/
  tags : List (Variable × Tag)

/-- A step of factoring. -/
abbrev Factoring := EStateM PassError Workbench

/-- What is to be factored. -/
structure FactorTask where
  grammar : Grammar
  tags : Tagging
  target : SharedPrefix

/-- The neighbours of a list: each element with the next one. -/
def neighbours {α : Type} (xs : List α) : List (α × α) :=
  xs.zip xs.tail

/-- The variables that stand behind `v` on one of the chains. -/
def FactorTask.successors (task : FactorTask) (v : Variable) : List Variable :=
  targetsFrom (task.target.chains.flatMap (fun c => neighbours c.vars)) v

/-- Add an element to a list unless the list has it. -/
def addUnique (vars : List Variable) (v : Variable) : List Variable :=
  if vars.contains v then vars else vars ++ [v]

/-! ## New rules -/

/-- Add a new variable, with a rule and a tag. -/
def addVariable (seed : String) (rule : Variable → Rule) (tag : Tag) : Factoring Variable := do
  let bench ← get
  let (v, session) := bench.session.take seed
  set { bench with
    session := session.count (fun t => { t with synthesized := t.synthesized + 1 })
    rules := bench.rules ++ [rule v]
    tags := bench.tags ++ [(v, tag)] }
  return v

/-- A new derivation. -/
def addDerivation (seed : String) (rhs : List Symbol) (tag : Tag) : Factoring Variable :=
  addVariable seed (fun v => .derivation v rhs) tag

/-- A new selection among the given variables, or the variable itself if there is but one. -/
def addSelection (seed : String) (alternatives : List Variable) (tag : Tag) :
    Factoring Variable :=
  match alternatives with
  | [only] => return only
  | _ => addVariable seed (fun v => .selection v alternatives) tag

/-! ## Splitting -/

/-- Split a derivation. One that reads the shared terminal itself has no full part. One that
    starts with a variable starts with the parts of that variable instead. -/
def splitDerivation (task : FactorTask) (split : Variable → Factoring Split) (lhs : Variable)
    (rhs : List Symbol) (tag : Tag) : Factoring Split := do
  let symbol := task.target.symbol
  let partTag ← ofExcept (tag.withComponents symbol.params .derivation)
  match rhs with
  | .term t :: rest =>
    if t != symbol then throw (.mismatch (.offChain lhs symbol))
    -- The root reads the terminal from now on, so only what stands behind it is left.
    return ⟨none, ← addDerivation ("Partial_" ++ lhs.name) rest partTag⟩
  | .var w :: rest =>
    let below ← split w
    -- Both parts keep what stands behind `w`; only `w` itself is split.
    let part ← addDerivation ("Partial_" ++ lhs.name) (.var below.part :: rest) partTag
    match below.full with
    | none => return ⟨none, part⟩
    | some full =>
      return ⟨some (← addDerivation ("Full_" ++ lhs.name) (.var full :: rest) tag), part⟩
  | [] => throw (.mismatch (.offChain lhs symbol))

/-- The full and the partial parts of alternatives, without repetitions. Alternatives that
    are on no chain are their own full part. -/
def splitAlternatives (split : Variable → Factoring Split) (onChain : List Variable) :
    List Variable → (fulls parts : List Variable) → Factoring (List Variable × List Variable)
  | [], fulls, parts => return (fulls, parts)
  | v :: rest, fulls, parts =>
    if onChain.contains v then do
      let s ← split v
      let fulls := match s.full with
        | some full => addUnique fulls full
        | none => fulls
      splitAlternatives split onChain rest fulls (addUnique parts s.part)
    else splitAlternatives split onChain rest (addUnique fulls v) parts

/-- Split a selection: select among the parts of its alternatives. -/
def splitSelection (task : FactorTask) (split : Variable → Factoring Split) (lhs : Variable)
    (alternatives : List Variable) (tag : Tag) : Factoring Split := do
  let (fulls, parts) ← splitAlternatives split (task.successors lhs) alternatives [] []
  if parts.isEmpty then throw (.mismatch (.deadEnd lhs))
  let partTag ← ofExcept (tag.withComponents task.target.symbol.params .selection)
  let part ← addSelection ("Partial_" ++ lhs.name) parts partTag
  -- Without a full alternative, every string of `lhs` goes through the chains.
  if fulls.isEmpty then return ⟨none, part⟩
  return ⟨some (← addSelection ("Full_" ++ lhs.name) fulls tag), part⟩

/-- Split a variable, or recall how it was split before. Structural recursion on `fuel`, the
    largest number of variables on a path of leading references. -/
def splitWithin (task : FactorTask) : (fuel : Nat) → Variable → Factoring Split
  | 0, v => throw (.mismatch (.offChain v task.target.symbol))
  | fuel + 1, v => do
    match (← get).splits.find? (fun entry => entry.1 == v) with
    | some entry => return entry.2
    | none =>
      let tag ← ofExcept (task.tags.require v)
      let split ← match ← ofExcept (task.grammar.requireRule v) with
        | .derivation lhs rhs => splitDerivation task (splitWithin task fuel) lhs rhs tag
        | .selection lhs alternatives =>
          splitSelection task (splitWithin task fuel) lhs alternatives tag
      modify (fun bench => { bench with splits := (v, split) :: bench.splits })
      return split

/-- Split a variable of the grammar. -/
def splitVariable (task : FactorTask) (v : Variable) : Factoring Split :=
  splitWithin task (task.grammar.size + 1) v

/-! ## The root -/

/-- Split the alternatives of the root and give it the new alternative. The result is the new
    rule of the root; if all alternatives go through the chains, that is the derivation of
    the new alternative itself. -/
def factorRoot (task : FactorTask) (alternatives : List Variable) (tag : Tag) :
    Factoring Unit := do
  let root := task.target.root
  let symbol := task.target.symbol
  let (remaining, parts) ←
    splitAlternatives (splitVariable task) (task.successors root) alternatives [] []
  let seed := root.name ++ "_" ++ symbol.name
  let restTag ← ofExcept (tag.withComponents symbol.params .selection)
  let rest ← addSelection (seed ++ "_K") parts restTag
  let rhs := [Symbol.term symbol, .var rest]
  let leadTag ← ofExcept (tag.reshaped .derivation)
  -- The root keeps its id, so the rules that refer to it need no change.
  if remaining.isEmpty then
    modify (fun bench => { bench with
      rules := bench.rules ++ [.derivation root rhs]
      tags := bench.tags ++ [(root, leadTag)] })
  else
    let lead ← addDerivation seed rhs leadTag
    modify (fun bench => { bench with
      rules := bench.rules ++ [.selection root (lead :: remaining)] })

/-- Run factoring on a session. What it makes comes with the session that is left. -/
def runFactoring (step : Factoring Unit) : Pass Workbench := do
  match step.run ⟨← get, [], [], []⟩ with
  | .ok _ bench =>
    set bench.session
    return bench
  | .error error bench =>
    set bench.session
    throw error

/-- Factor a shared prefix out of its root. -/
def leftFactor (g : Grammar) (tags : Tagging) (target : SharedPrefix) : Pass Tagged := do
  match ← ofExcept (g.requireRule target.root) with
  | .derivation .. => throw (.mismatch (.rootShape target.root))
  | .selection _ alternatives =>
    let tag ← ofExcept (tags.require target.root)
    let bench ← runFactoring (factorRoot ⟨g, tags, target⟩ alternatives tag)
    let kept := g.rules.filter (fun r => r.lhs != target.root)
    let g ← rebuild g.start (kept ++ bench.rules)
    return (g, tags.extend bench.tags)

end FluentGrammar
