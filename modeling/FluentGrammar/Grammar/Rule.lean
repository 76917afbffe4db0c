import FluentGrammar.Grammar.Symbol

/-! # Rules

    A rule has one of two shapes. A derivation replaces its variable by a sequence of
    symbols, which may be empty. A selection replaces its variable by one of several other
    variables. A choice among sequences is written with one variable for each sequence.
-/

namespace FluentGrammar

/-- A rule of a grammar. -/
inductive Rule where
  /-- `lhs` derives the concatenation of `rhs`. -/
  | derivation (lhs : Variable) (rhs : List Symbol)
  /-- `lhs` derives what one of the alternatives derives. -/
  | selection (lhs : Variable) (alternatives : List Variable)
deriving DecidableEq

namespace Rule

/-- The shape of a rule without its contents. -/
inductive Shape where
  | derivation
  | selection
deriving DecidableEq

/-- The name of a shape. -/
def Shape.text : Shape → String
  | .derivation => "derivation"
  | .selection => "selection"

/-- The variable that the rule belongs to. -/
def lhs : Rule → Variable
  | .derivation lhs _ => lhs
  | .selection lhs _ => lhs

/-- The shape of the rule. -/
def shape : Rule → Shape
  | .derivation .. => .derivation
  | .selection .. => .selection

/-- Whether the rule is a selection. -/
def isSelection : Rule → Bool
  | .derivation .. => false
  | .selection .. => true

/-- Whether the rule is a derivation with nothing on its right-hand side. -/
def isEmptyDerivation : Rule → Bool
  | .derivation _ rhs => rhs.isEmpty
  | .selection .. => false

/-- The first symbol of a derivation. -/
def leading? : Rule → Option Symbol
  | .derivation _ rhs => rhs.head?
  | .selection .. => none

/-- The terminal that a derivation starts with. -/
def leadingTerminal? (r : Rule) : Option Terminal :=
  r.leading?.bind Symbol.toTerminal?

/-- The variables mentioned on the right-hand side, in order. -/
def references : Rule → List Variable
  | .derivation _ rhs => rhs.filterMap Symbol.toVariable?
  | .selection _ alternatives => alternatives

/-- The terminals mentioned on the right-hand side, in order. -/
def terminals : Rule → List Terminal
  | .derivation _ rhs => rhs.filterMap Symbol.toTerminal?
  | .selection .. => []

/-- The right-hand side as it is written after the mark `::=`. An empty one is written `ε`. -/
def body : Rule → String
  | .derivation _ [] => " ε"
  | .derivation _ rhs => String.join (rhs.map (fun s => " " ++ s.text))
  | .selection _ [] => ""
  | .selection _ alternatives =>
    " " ++ String.intercalate " | " (alternatives.map (·.name))

/-- The rule on one line. -/
def text (r : Rule) : String :=
  r.lhs.name ++ " ::=" ++ r.body

/-! ## What a rule mentions -/

@[simp] theorem mem_references_derivation {lhs : Variable} {rhs : List Symbol} {v : Variable} :
    v ∈ (derivation lhs rhs).references ↔ Symbol.var v ∈ rhs := by
  simp only [references, List.mem_filterMap]
  constructor
  · rintro ⟨s, hs, hv⟩
    cases s with
    | term t => cases hv
    | var w => cases hv; exact hs
  · intro h
    exact ⟨_, h, rfl⟩

@[simp] theorem references_selection {lhs : Variable} {alternatives : List Variable} :
    (selection lhs alternatives).references = alternatives := rfl

end Rule

end FluentGrammar
