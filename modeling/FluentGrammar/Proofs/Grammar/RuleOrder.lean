import FluentGrammar.Proofs.Grammar.Validation
import FluentGrammar.Proofs.Sorted

/-! # The order of the rules

    Validation sorts the rules, but sorting is stable: rules of one left-hand side stay in the
    order in which they were given. This cannot be seen. The left-hand sides alone tell whether
    a variable has two rules, and when none has, there is one way to sort the rules.
-/

namespace FluentGrammar

variable {start : Variable} {rules rules' : List Rule}

/-- The left-hand sides of sorted rules are the sorted left-hand sides. -/
theorem map_lhs_sortRules (rules : List Rule) :
    (sortRules rules).map Rule.lhs = sortOn id (rules.map Rule.lhs) := by
  have hsorted : ((sortRules rules).map Rule.lhs).Pairwise (fun v w => keyLe id v w = true) :=
    List.pairwise_map.mpr (pairwise_sortOn Rule.lhs rules)
  rw [← sortOn_eq_of_perm ((sortOn_perm Rule.lhs rules).map Rule.lhs)]
  exact (sortOn_of_pairwise hsorted).symm

/-- Rules without a repeated left-hand side are sorted in one way. -/
theorem sortRules_eq_of_perm (hdistinct : Distinct (rules.map Rule.lhs))
    (hperm : rules.Perm rules') : sortRules rules' = sortRules rules := by
  have hsorted : (sortRules rules).Perm rules := sortOn_perm Rule.lhs rules
  have hnodup : (ruleIds (sortRules rules)).Nodup :=
    ((hsorted.map _).nodup_iff).mpr (distinct_iff_nodup.mp hdistinct)
  exact sortRules_of_perm hnodup (sortRules_sortRules rules) (hsorted.trans hperm).symm

theorem firstFault_of_repeated {v : Variable}
    (h : firstRepeated (rules.map Rule.lhs) = some v) :
    firstFault start rules = some (.duplicateRule v) := by
  unfold firstFault
  rw [h]
  rfl

/-- What comes of rules, the grammar or the fault with the variables that it names, does not
    hang on the order in which the rules are given. -/
theorem Grammar.ofRules_perm (start : Variable) (hperm : rules.Perm rules') :
    Grammar.ofRules start rules = Grammar.ofRules start rules' := by
  have hlhs : (sortRules rules).map Rule.lhs = (sortRules rules').map Rule.lhs := by
    rw [map_lhs_sortRules, map_lhs_sortRules, sortOn_eq_of_perm (hperm.map Rule.lhs)]
  unfold ofRules
  cases hrepeated : firstRepeated ((sortRules rules).map Rule.lhs) with
  | some v =>
    -- The fault is seen on the left-hand sides, before the rules are looked at.
    simp only [firstFault_of_repeated hrepeated, firstFault_of_repeated (hlhs ▸ hrepeated)]
  | none =>
    have hdistinct : Distinct (rules.map Rule.lhs) := by
      have hsorted := distinct_iff_nodup.mp (firstRepeated_eq_none.mp hrepeated)
      exact distinct_iff_nodup.mpr
        ((((sortOn_perm Rule.lhs rules).map _).nodup_iff).mp hsorted)
    rw [sortRules_eq_of_perm hdistinct hperm]

/-- A variable with two rules under two names, beside a circle. -/
def renamedTwice : List Rule :=
  [.derivation ⟨0, "B"⟩ [.var ⟨1, "A"⟩],
   .derivation ⟨1, "A"⟩ [.var ⟨0, "B"⟩],
   .derivation ⟨0, "C"⟩ []]

/-- It is named as in the later one of its rules, from whichever end they are given. -/
theorem renamedTwice_reversed :
    renamedTwice.Perm renamedTwice.reverse ∧
      Grammar.ofRules ⟨1, "A"⟩ renamedTwice = .error (.duplicateRule ⟨0, "C"⟩) ∧
      Grammar.ofRules ⟨1, "A"⟩ renamedTwice.reverse = .error (.duplicateRule ⟨0, "C"⟩) := by
  have hperm : renamedTwice.Perm renamedTwice.reverse := renamedTwice.reverse_perm.symm
  have hrun : Grammar.ofRules ⟨1, "A"⟩ renamedTwice = .error (.duplicateRule ⟨0, "C"⟩) := by cbv
  exact ⟨hperm, hrun, Grammar.ofRules_perm ⟨1, "A"⟩ hperm ▸ hrun⟩

end FluentGrammar
