import FluentGrammar.Rewriting.Session
import FluentGrammar.Tag.Tagging

/-! # Folding empty rules

    An empty derivation has no method of its own to call. Every derivation that starts with
    its variable drops it and builds its node implicitly; the tag records that. The empty
    rule itself becomes `<empty>`, so that selections which offer it still have a rule to
    point at. A derivation that becomes empty by folding is folded in the next round.
-/

namespace FluentGrammar

/-- The variables whose rules are empty derivations. -/
def Grammar.emptyVariables (g : Grammar) : List Variable :=
  (g.rules.filter Rule.isEmptyDerivation).map Rule.lhs

/-- Drop the empty variables that a right-hand side starts with, and record each in the tag
    of the left-hand side. -/
def foldLeading (empties : List Variable) (lhs : Variable) (tags : Tagging) :
    List Symbol → Pass (List Symbol × Tagging)
  | .var w :: rest =>
    if empties.contains w then do
      let tag ← ofExcept (tags.require lhs)
      let tag ← ofExcept (tag.withImplicit w)
      modify (·.count (fun t => { t with folded := t.folded + 1 }))
      foldLeading empties lhs (tags.insert lhs tag) rest
    else return (.var w :: rest, tags)
  | rhs => return (rhs, tags)

/-- One round for one rule. -/
def foldRule (empties : List Variable) (tags : Tagging) : Rule → Pass (Rule × Tagging)
  | .selection lhs alternatives => return (.selection lhs alternatives, tags)
  | .derivation lhs rhs =>
    -- The empty terminal keeps the rule in place, and out of the next round.
    if empties.contains lhs then return (.derivation lhs [.term .empty], tags)
    else do
      let (rhs, tags) ← foldLeading empties lhs tags rhs
      return (.derivation lhs rhs, tags)

/-- One round for several rules, one after the other. -/
def foldRules (empties : List Variable) (tags : Tagging) :
    List Rule → Pass (List Rule × Tagging)
  | [] => return ([], tags)
  | r :: rest => do
    let (r, tags) ← foldRule empties tags r
    let (rules, tags) ← foldRules empties tags rest
    return (r :: rules, tags)

/-- Rounds of folding until no rule is empty. Structural recursion on `rounds`. -/
def foldRounds : (rounds : Nat) → Grammar → Tagging → Pass Tagged
  | 0, g, tags => return (g, tags)
  | rounds + 1, g, tags => do
    let empties := g.emptyVariables
    if empties.isEmpty then return (g, tags)
    let (rules, tags) ← foldRules empties tags g.rules
    let g ← rebuild g.start rules
    foldRounds rounds g tags

/-- Fold every empty rule. A round turns at least one empty derivation into `<empty>` for
    good, so no more rounds are needed than there are rules. -/
def foldEmpties (g : Grammar) (tags : Tagging) : Pass Tagged :=
  foldRounds (g.size + 1) g tags

end FluentGrammar
