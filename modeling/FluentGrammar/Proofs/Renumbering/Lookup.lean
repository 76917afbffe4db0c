import FluentGrammar.Chain.Enumeration
import FluentGrammar.Proofs.Grammar.Reachability
import FluentGrammar.Proofs.Grammar.Renumbering
import FluentGrammar.Rewriting.Countdown

/-! # Looking up under other ids

    When no two variables get the same id, whatever is looked up by a variable is found where
    it was before: rules, places in a list, the variables that references lead to, and the
    values that are computed from the bottom up.
-/

namespace FluentGrammar

variable {f : Nat → Nat} (hf : Function.Injective f)

/-! ## Variables and symbols -/

section Symbols

include hf

end Symbols

/-! ## Rules -/

namespace Rule

end Rule

namespace Grammar

variable (g : Grammar)

section Rules

include hf

theorem renumber_not_mem_ruleIds {g : Grammar} {i : Nat} (h : i ∉ ruleIds g.rules) :
    f i ∉ ruleIds (g.renumber f).rules := by
  intro hmem
  obtain ⟨j, hj, heq⟩ := exists_of_mem_ruleIds_renumber hmem
  exact h (hf heq ▸ hj)

end Rules

/-! ## What references lead to -/

section Reachable

include hf

end Reachable

end Grammar

/-! ## Values from the bottom up -/

section Values

variable {α : Type}

/-- A table of values under other ids. -/
def ValueTable.renumber (f : Nat → Nat) (table : ValueTable α) : ValueTable α :=
  table.map (fun entry => (entry.1.renumber f, entry.2))

include hf

end Values

end FluentGrammar
