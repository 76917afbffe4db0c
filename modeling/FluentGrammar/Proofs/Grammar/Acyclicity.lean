import FluentGrammar.Grammar.WellFormed
import Mathlib.Data.Finset.Card
import Mathlib.Logic.Relation
import Mathlib.Order.WellFounded

/-! # Induction along references

    References of a well-formed rule set lead from a variable to variables of smaller rank,
    the rank being the number of variables that can be reached. This gives an induction
    principle (a property passes from the references of a rule to its left-hand side), a way
    to define values rule by rule, and a bound on the length of every path.
-/

namespace FluentGrammar

/-! ## Rules by the id of their variable -/

/-- The ids of the variables that rules belong to. -/
def ruleIds (rules : List Rule) : List Nat :=
  rules.map (fun r => r.lhs.id)

@[simp] theorem mem_ruleIds {rules : List Rule} {i : Nat} :
    i ∈ ruleIds rules ↔ ∃ r ∈ rules, r.lhs.id = i := by
  simp [ruleIds]

theorem mem_ruleIds_of_mem {rules : List Rule} {r : Rule} (h : r ∈ rules) :
    r.lhs.id ∈ ruleIds rules :=
  mem_ruleIds.mpr ⟨r, h, rfl⟩

theorem ruleIds_subset {rules rules' : List Rule} (h : rules ⊆ rules') :
    ruleIds rules ⊆ ruleIds rules' :=
  List.map_subset _ h

@[simp] theorem length_ruleIds (rules : List Rule) : (ruleIds rules).length = rules.length := by
  simp [ruleIds]

theorem defines_iff_mem_ruleIds {rules : List Rule} {v : Variable} :
    Defines rules v ↔ v.id ∈ ruleIds rules :=
  mem_ruleIds.symm

theorem distinct_iff_nodup {rules : List Rule} :
    Distinct (rules.map Rule.lhs) ↔ (ruleIds rules).Nodup := by
  simp only [Distinct, ruleIds, List.Nodup, List.pairwise_map]

theorem any_lhs_iff {rules : List Rule} {v : Variable} :
    rules.any (fun r => r.lhs == v) = true ↔ v.id ∈ ruleIds rules := by
  simp

/-- Distinct rules are told apart by the ids of their variables. -/
theorem eq_of_lhs_id_eq {rules : List Rule} (hnodup : (ruleIds rules).Nodup) {r s : Rule}
    (hr : r ∈ rules) (hs : s ∈ rules) (hid : r.lhs.id = s.lhs.id) : r = s :=
  List.inj_on_of_nodup_map hnodup hr hs hid

/-- Of distinct elements only one contributes anything. -/
theorem flatMap_eq_of_unique {α β : Type} {xs : List α} {f : α → List β} {x : α}
    (hnodup : xs.Nodup) (hx : x ∈ xs) (hother : ∀ y ∈ xs, f y ≠ [] → y = x) :
    xs.flatMap f = f x := by
  obtain ⟨front, back, rfl⟩ := List.append_of_mem hx
  rw [List.nodup_append] at hnodup
  obtain ⟨-, hback, hdisjoint⟩ := hnodup
  have hfront : front.flatMap f = [] := by
    rw [List.flatMap_eq_nil_iff]
    intro y hy
    by_contra hne
    exact hdisjoint y hy x (List.mem_cons_self ..)
      (hother y (List.mem_append_left _ hy) hne)
  have hback : back.flatMap f = [] := by
    rw [List.flatMap_eq_nil_iff]
    intro y hy
    by_contra hne
    have hyx := hother y (List.mem_append_right _ (List.mem_cons_of_mem _ hy)) hne
    exact (List.nodup_cons.mp hback).1 (hyx ▸ hy)
  rw [List.flatMap_append, List.flatMap_cons, hfront, hback, List.nil_append, List.append_nil]

namespace Grammar

variable {g : Grammar}

/-- In a grammar with one rule for each variable, a rule is found under its variable. -/
theorem rule?_of_mem (hnodup : (ruleIds g.rules).Nodup) {r : Rule} (hr : r ∈ g.rules)
    {v : Variable} (hv : r.lhs.id = v.id) : g.rule? v = some r := by
  have hcontains : g.contains v = true := by
    rw [contains, any_lhs_iff]
    exact hv ▸ mem_ruleIds_of_mem hr
  rw [← rule?_isSome, Option.isSome_iff_exists] at hcontains
  obtain ⟨s, hs⟩ := hcontains
  have hsv := lhs_of_rule? hs
  rw [hs, eq_of_lhs_id_eq hnodup (mem_of_rule? hs) hr (hsv.trans hv.symm)]

theorem contains_iff_mem_ruleIds {v : Variable} :
    g.contains v = true ↔ v.id ∈ ruleIds g.rules :=
  any_lhs_iff

theorem Valid.start_mem (hg : g.Valid) : g.start.id ∈ ruleIds g.rules :=
  defines_iff_mem_ruleIds.mp hg.well_formed.start_defined

end Grammar

/-! ## Rank -/

open Classical in
/-- The number of variables that references lead to from a variable. -/
noncomputable def rank (rules : List Rule) (i : Nat) : Nat :=
  ((ruleIds rules).toFinset.filter (Relation.TransGen (RefersTo rules) i)).card

namespace WellFormed

variable {start : Variable} {rules : List Rule}

theorem nodup_ruleIds (h : WellFormed start rules) : (ruleIds rules).Nodup :=
  distinct_iff_nodup.mp h.distinct

theorem mem_of_refersTo (h : WellFormed start rules) {i j : Nat} (hij : RefersTo rules i j) :
    j ∈ ruleIds rules := by
  obtain ⟨r, hr, rfl, v, hv, rfl⟩ := hij
  exact defines_iff_mem_ruleIds.mp (h.closed r hr v hv)

/-- References lead to variables of smaller rank. -/
theorem rank_lt (h : WellFormed start rules) {i j : Nat} (hij : RefersTo rules i j) :
    rank rules j < rank rules i := by
  classical
  apply Finset.card_lt_card
  rw [Finset.ssubset_iff_of_subset]
  · -- The variable that is referred to is reached, but not from itself.
    refine ⟨j, ?_, ?_⟩
    · simp only [Finset.mem_filter, List.mem_toFinset]
      exact ⟨h.mem_of_refersTo hij, .single hij⟩
    · simp only [Finset.mem_filter, not_and]
      intro _
      exact h.acyclic j
  · intro k hk
    simp only [Finset.mem_filter] at hk ⊢
    exact ⟨hk.1, .head hij hk.2⟩

/-- The rank of a variable stays below the number of rules. -/
theorem rank_lt_length (h : WellFormed start rules) {i : Nat} (hi : i ∈ ruleIds rules) :
    rank rules i < rules.length := by
  classical
  have hsub : (ruleIds rules).toFinset.filter (Relation.TransGen (RefersTo rules) i) ⊆
      (ruleIds rules).toFinset.erase i := by
    intro k hk
    simp only [Finset.mem_filter, Finset.mem_erase] at hk ⊢
    refine ⟨?_, hk.1⟩
    rintro rfl
    exact h.acyclic k hk.2
  have hi' : i ∈ (ruleIds rules).toFinset := List.mem_toFinset.mpr hi
  calc rank rules i
      ≤ ((ruleIds rules).toFinset.erase i).card := Finset.card_le_card hsub
    _ < (ruleIds rules).toFinset.card := Finset.card_erase_lt_of_mem hi'
    _ ≤ (ruleIds rules).length := List.toFinset_card_le _
    _ = rules.length := length_ruleIds rules

/-- A property that passes from the references of every rule to its left-hand side holds of
    all variables with a rule. -/
theorem reference_induction (h : WellFormed start rules) {P : Nat → Prop}
    (step : ∀ r ∈ rules, (∀ v ∈ r.references, P v.id) → P r.lhs.id) :
    ∀ i ∈ ruleIds rules, P i := by
  intro i hi
  induction hn : rank rules i using Nat.strong_induction_on generalizing i with
  | _ n ih =>
    obtain ⟨r, hr, rfl⟩ := mem_ruleIds.mp hi
    apply step r hr
    intro v hv
    have href := refersTo_of_mem hr hv
    exact ih _ (hn ▸ h.rank_lt href) v.id (h.mem_of_refersTo href) rfl

/-- A value for every variable can be defined rule by rule, out of the values of the
    references. -/
theorem exists_assignment {α : Type} [Inhabited α] (h : WellFormed start rules)
    (value : (Nat → α) → Rule → α)
    (hcongr : ∀ r a b, (∀ v ∈ r.references, a v.id = b v.id) → value a r = value b r) :
    ∃ a : Nat → α, ∀ r ∈ rules, a r.lhs.id = value a r := by
  classical
  have hwf : WellFounded (fun j i => RefersTo rules i j) :=
    Subrelation.wf (fun hji => h.rank_lt hji) (measure (rank rules)).wf
  -- The value of a rule depends on its references only, so the value of every other variable
  -- may be left out when it is computed.
  let below (i : Nat) (known : ∀ j, RefersTo rules i j → α) : Nat → α :=
    fun j => if hij : RefersTo rules i j then known j hij else default
  let a : Nat → α := hwf.fix (fun i known =>
    (rules.find? (fun r => r.lhs.id == i)).elim default (value (below i known)))
  refine ⟨a, fun r hr => ?_⟩
  have hfind : rules.find? (fun s => s.lhs.id == r.lhs.id) = some r :=
    Grammar.rule?_of_mem (g := ⟨start, rules⟩) h.nodup_ruleIds hr (v := r.lhs) rfl
  have heq : a r.lhs.id = value (below r.lhs.id (fun j _ => a j)) r := by
    show hwf.fix _ _ = _
    rw [hwf.fix_eq]
    simp only [hfind]
    rfl
  rw [heq]
  apply hcongr
  intro v hv
  simp only [below]
  rw [dif_pos (refersTo_of_mem hr hv)]

end WellFormed

/-- If references lead to lower levels only, no path of them leads back to where it began. -/
theorem acyclic_of_levels {rules : List Rule} (level : Nat → Nat)
    (h : ∀ r ∈ rules, ∀ v ∈ r.references, level v.id < level r.lhs.id) :
    ∀ i, ¬ Relation.TransGen (RefersTo rules) i i := by
  have hstep : ∀ i j, RefersTo rules i j → level j < level i := by
    intro i j hij
    obtain ⟨r, hr, rfl, v, hv, rfl⟩ := hij
    exact h r hr v hv
  have hpath : ∀ i j, Relation.TransGen (RefersTo rules) i j → level j < level i := by
    intro i j hij
    induction hij with
    | single hij => exact hstep _ _ hij
    | tail _ hjk ih => exact (hstep _ _ hjk).trans ih
  intro i hi
  exact absurd (hpath i i hi) (Nat.lt_irrefl _)

/-- A property of the variables of a valid grammar, proved rule by rule out of the same
    property of the references. -/
theorem Grammar.Valid.rule_induction {g : Grammar} (hg : g.Valid) {P : Variable → Prop}
    (step : ∀ v r, g.rule? v = some r → (∀ u ∈ r.references, P u) → P v) :
    ∀ v, v.id ∈ ruleIds g.rules → P v := by
  -- Rules are told apart by ids, so the induction is on the id and for all of its names.
  suffices hall : ∀ i ∈ ruleIds g.rules, ∀ v, v.id = i → P v from
    fun v hv => hall v.id hv v rfl
  refine hg.well_formed.reference_induction (P := fun i => ∀ v, v.id = i → P v) ?_
  intro r hr ih v hv
  apply step v r
  · exact Grammar.rule?_of_mem hg.well_formed.nodup_ruleIds hr hv.symm
  · intro u hu
    exact ih u hu u rfl

end FluentGrammar
