import FluentGrammar.Grammar.Symbol

/-! # Chains

    A chain follows leading positions: from a selection into one of its alternatives, from a
    derivation into the variable it starts with, down to a derivation that starts with a
    terminal or is empty. That last variable is the terminus. What a chain reads first is
    what its terminus starts with.
-/

namespace FluentGrammar

/-- A chain: the variable it begins at, and the ones below it in order. -/
structure Chain where
  /-- The variable the chain begins at. -/
  root : Variable
  /-- The variables below the root. -/
  below : List Variable
deriving DecidableEq

namespace Chain

/-- The variables of the chain, the root first. -/
def vars (c : Chain) : List Variable :=
  c.root :: c.below

/-- The variable the chain ends at. -/
def terminus (c : Chain) : Variable :=
  c.vars.getLast (List.cons_ne_nil _ _)

/-- The number of variables. -/
def length (c : Chain) : Nat :=
  c.vars.length

/-- The variable behind the first occurrence of `v`, if there is one. -/
def successor? (c : Chain) (v : Variable) : Option Variable :=
  (c.vars.dropWhile (fun w => w != v))[1]?

/-- The chain with a variable put in front. -/
def cons (v : Variable) (c : Chain) : Chain :=
  ⟨v, c.vars⟩

/-- The chain as text. -/
def text (c : Chain) : String :=
  joinNames " -> " c.vars

@[simp] theorem vars_cons (v : Variable) (c : Chain) :
    (cons v c).vars = v :: c.vars := rfl

@[simp] theorem terminus_cons (v : Variable) (c : Chain) : (cons v c).terminus = c.terminus := by
  unfold terminus
  simp only [vars_cons]
  exact List.getLast_cons (List.cons_ne_nil _ _)

end Chain

end FluentGrammar
