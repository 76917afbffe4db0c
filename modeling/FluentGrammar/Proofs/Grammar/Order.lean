import FluentGrammar.Proofs.Grammar.Acyclicity

/-! # Rules in order

    Variables are totally preordered by name and id, so sorting rules by their left-hand
    sides is idempotent, and a part of sorted rules is sorted. Terminals are ordered by what
    they consist of.
-/

namespace FluentGrammar

instance : Std.TransOrd Variable :=
  inferInstanceAs (Std.TransCmp
    (compareLex (compareOn Variable.name) (compareOn Variable.id)))

/-- Only one and the same occurrence, id and name, compares as equal. -/
instance : Std.LawfulEqOrd Variable where
  eq_of_compare {v w} h := by
    obtain ⟨hname, hid⟩ := Ordering.then_eq_eq.mp h
    cases v
    cases w
    cases Std.LawfulEqOrd.eq_of_compare hname
    cases Std.LawfulEqOrd.eq_of_compare hid
    rfl

instance : Std.TransOrd Parameter :=
  inferInstanceAs (Std.TransCmp
    (compareLex (compareOn Parameter.type) (compareOn Parameter.name)))

instance : Std.LawfulEqOrd Parameter where
  eq_of_compare {p q} h := by
    obtain ⟨htype, hname⟩ := Ordering.then_eq_eq.mp h
    cases p
    cases q
    cases Std.LawfulEqOrd.eq_of_compare htype
    cases Std.LawfulEqOrd.eq_of_compare hname
    rfl

instance : Std.TransOrd Terminal :=
  inferInstanceAs (Std.TransCmp
    (compareLex (compareOn Terminal.name) (compareOn Terminal.params)))

instance : Std.LawfulEqOrd Terminal where
  eq_of_compare {s t} h := by
    obtain ⟨hname, hparams⟩ := Ordering.then_eq_eq.mp h
    cases s
    cases t
    cases Std.LawfulEqOrd.eq_of_compare hname
    cases Std.LawfulEqOrd.eq_of_compare hparams
    rfl

theorem keyLe_trans {α β : Type} [Ord β] [Std.TransOrd β] {key : α → β} (a b c : α)
    (hab : keyLe key a b = true) (hbc : keyLe key b c = true) : keyLe key a c = true :=
  Std.TransCmp.isLE_trans hab hbc

theorem keyLe_total {α β : Type} [Ord β] [Std.TransOrd β] {key : α → β} (a b : α) :
    (keyLe key a b || keyLe key b a) = true := by
  unfold keyLe
  rw [@Std.OrientedCmp.eq_swap β compare _ (key b) (key a)]
  cases compare (key a) (key b) <;> rfl

/-- Variables neither of which comes behind the other are the same. -/
theorem id_eq_of_isLE {v w : Variable} (hvw : (compare v w).isLE = true)
    (hwv : (compare w v).isLE = true) : v.id = w.id := by
  have heq : compare v w = .eq := Std.OrientedCmp.isLE_antisymm hvw hwv
  have hids := (Ordering.then_eq_eq.mp heq).2
  exact Std.LawfulEqOrd.eq_of_compare hids

theorem pairwise_sortOn {α β : Type} [Ord β] [Std.TransOrd β] (key : α → β) (xs : List α) :
    (sortOn key xs).Pairwise (fun a b => keyLe key a b = true) :=
  List.pairwise_mergeSort keyLe_trans keyLe_total xs

theorem sortOn_of_pairwise {α β : Type} [Ord β] {key : α → β} {xs : List α}
    (h : xs.Pairwise (fun a b => keyLe key a b = true)) : sortOn key xs = xs :=
  List.mergeSort_of_pairwise h

/-- Sorting sorted rules changes nothing. -/
theorem sortRules_sortRules (rules : List Rule) :
    sortRules (sortRules rules) = sortRules rules :=
  sortOn_of_pairwise (pairwise_sortOn Rule.lhs rules)

/-- A part of sorted rules is sorted. -/
theorem sortRules_of_sublist {rules part : List Rule} (h : sortRules rules = rules)
    (hpart : part.Sublist rules) : sortRules part = part := by
  have hsorted := pairwise_sortOn Rule.lhs rules
  rw [show sortOn Rule.lhs rules = rules from h] at hsorted
  exact sortOn_of_pairwise (hsorted.sublist hpart)

/-- Rules of the same variables are sorted alike. -/
theorem sortRules_of_lhs_eq {rules rules' : List Rule} (hsorted : sortRules rules = rules)
    (h : rules'.map Rule.lhs = rules.map Rule.lhs) : sortRules rules' = rules' := by
  have hpairwise := pairwise_sortOn Rule.lhs rules
  rw [show sortOn Rule.lhs rules = rules from hsorted] at hpairwise
  have hlhs : (rules'.map Rule.lhs).Pairwise (fun v w => keyLe id v w = true) := by
    rw [h]
    exact List.pairwise_map.mpr hpairwise
  exact sortOn_of_pairwise (List.pairwise_map.mp hlhs)

/-- Sorted rules are what sorting makes of them, in whatever order they come. -/
theorem sortRules_of_perm {rules rules' : List Rule} (hnodup : (ruleIds rules).Nodup)
    (hsorted : sortRules rules = rules) (hperm : rules'.Perm rules) : sortRules rules' = rules := by
  have hpairwise := pairwise_sortOn Rule.lhs rules
  rw [show sortOn Rule.lhs rules = rules from hsorted] at hpairwise
  refine List.Perm.eq_of_pairwise ?_ (pairwise_sortOn Rule.lhs rules') hpairwise
    ((sortOn_perm _ _).trans hperm)
  intro r s hr hs hrs hsr
  have hr : r ∈ rules := ((sortOn_perm _ _).trans hperm).mem_iff.mp hr
  exact eq_of_lhs_id_eq hnodup hr hs (id_eq_of_isLE hrs hsr)

@[simp] theorem mem_sortRules {rules : List Rule} {r : Rule} :
    r ∈ sortRules rules ↔ r ∈ rules :=
  mem_sortOn

end FluentGrammar
