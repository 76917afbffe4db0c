import FluentGrammar.Proofs.Renumbering.Runs

/-! # Bridging, folding and pruning under other ids

    Each of these passes does the same under other ids. Where a grammar is made of new rules,
    they have to come in the same order, which is the order of their names: the variables have
    different names as long as a pool of told-apart variables is kept.
-/

namespace FluentGrammar

variable {f : Nat → Nat} {g g' : Grammar} {tags tags' : Tagging} {s s' : Session}

/-- The session knows all variables of a grammar, and no two of them have the same name. -/
def ToldApart (g : Grammar) (tags : Tagging) (s : Session) : Prop :=
  ∃ pool, Pooled pool g tags s ∧ ToldByName pool

namespace ToldApart

theorem valid (h : ToldApart g tags s) : g.Valid := by
  obtain ⟨pool, hpooled, -⟩ := h
  exact hpooled.valid

theorem toldByName (h : ToldApart g tags s) : ToldByName g.occurrences := by
  obtain ⟨pool, hpooled, htold⟩ := h
  exact htold.of_subset hpooled.occurrences_subset

end ToldApart

/-- Rules make the same grammar under other ids, when names tell their variables apart. -/
theorem Grammar.ofRules_renumber (hf : Function.Injective f) {start : Variable}
    {rules : List Rule} (hof : Grammar.ofRules start rules = .ok g)
    (htold : ToldByName g.occurrences) :
    Grammar.ofRules (start.renumber f) (rules.map (Rule.renumber f)) = .ok (g.renumber f) := by
  have hapart : KeepsApart f g.rules := fun _ _ _ _ heq => hf heq
  have hstart : g.start = start := by rw [Grammar.rules_of_ofRules hof]
  have hperm : rules.Perm g.rules := by
    rw [Grammar.rules_of_ofRules hof]
    exact (sortOn_perm Rule.lhs rules).symm
  rw [← hstart]
  exact (Grammar.valid_of_ofRules hof).ofRules_renumber htold hapart (hperm.map _)

/-- The bridge with its holder under another id. -/
def Bridge.renumber (f : Nat → Nat) (b : Bridge) : Bridge :=
  ⟨b.holder.renumber f, b.terminal⟩

section Folding

variable (hf : Function.Injective f) (empties : List Variable)

include hf

omit empties

end Folding

/-! ## Pruning -/

section Pruning

variable (hf : Function.Injective f)

include hf

end Pruning

end FluentGrammar
