import FluentGrammar.Proofs.Grammar.Acyclicity
import Mathlib.Algebra.BigOperators.Group.List.Basic
import Mathlib.Algebra.Ring.Defs

/-! # Valuations of a grammar

    Many quantities of a grammar are defined rule by rule: the value of a derivation is the
    product of the values of its symbols, that of a selection the sum of the values of its
    alternatives. The language of a variable is such a value, and so are the number of its
    derivation trees and the bound on the rounds of factoring. What a rewriting does to all
    of them is proved once, here for an arbitrary `K`.
-/

namespace FluentGrammar

variable {K : Type}

/-- The value of a symbol, out of values of terminals and of variables. -/
def Symbol.value (term : Terminal → K) (a : Nat → K) : Symbol → K
  | .term t => term t
  | .var v => a v.id

section Sequences

variable [Monoid K] (term : Terminal → K) (a : Nat → K)

/-- The value of a sequence of symbols. -/
def sequenceValue (symbols : List Symbol) : K :=
  (symbols.map (Symbol.value term a)).prod

@[simp] theorem sequenceValue_nil : sequenceValue term a [] = 1 := rfl

@[simp] theorem sequenceValue_cons (s : Symbol) (rest : List Symbol) :
    sequenceValue term a (s :: rest) = s.value term a * sequenceValue term a rest :=
  List.prod_cons

end Sequences

section Choices

variable [AddCommMonoid K] (a : Nat → K)

/-- The value of a choice among variables. -/
def choiceValue (vars : List Variable) : K :=
  (vars.map (fun v => a v.id)).sum

@[simp] theorem choiceValue_nil : choiceValue a [] = 0 := rfl

@[simp] theorem choiceValue_cons (v : Variable) (rest : List Variable) :
    choiceValue a (v :: rest) = a v.id + choiceValue a rest :=
  List.sum_cons

@[simp] theorem choiceValue_append (vars rest : List Variable) :
    choiceValue a (vars ++ rest) = choiceValue a vars + choiceValue a rest := by
  simp [choiceValue]

end Choices

variable [Monoid K] [AddCommMonoid K]

/-- The value of a rule. -/
def Rule.value (term : Terminal → K) (a : Nat → K) : Rule → K
  | .derivation _ rhs => sequenceValue term a rhs
  | .selection _ alternatives => choiceValue a alternatives

/-- Every variable with a rule has the value of its rule. -/
def IsValuation (term : Terminal → K) (rules : List Rule) (a : Nat → K) : Prop :=
  ∀ r ∈ rules, a r.lhs.id = r.value term a

theorem IsValuation.derivation_eq {term : Terminal → K} {rules : List Rule} {a : Nat → K}
    (ha : IsValuation term rules a) {v : Variable} {rhs : List Symbol}
    (h : Rule.derivation v rhs ∈ rules) : a v.id = sequenceValue term a rhs :=
  ha _ h

theorem IsValuation.selection_eq {term : Terminal → K} {rules : List Rule} {a : Nat → K}
    (ha : IsValuation term rules a) {v : Variable} {alternatives : List Variable}
    (h : Rule.selection v alternatives ∈ rules) : a v.id = choiceValue a alternatives :=
  ha _ h

/-! ## Existence and agreement -/

/-- The value of a rule hangs only on the values of its references. -/
theorem Rule.value_congr (term : Terminal → K) (r : Rule) {a b : Nat → K}
    (h : ∀ v ∈ r.references, a v.id = b v.id) : r.value term a = r.value term b := by
  cases r with
  | derivation lhs rhs =>
    show sequenceValue term a rhs = sequenceValue term b rhs
    unfold sequenceValue
    congr 1
    apply List.map_congr_left
    intro s hs
    cases s with
    | term t => rfl
    | var v => exact h v (mem_references_derivation.mpr hs)
  | selection lhs alternatives =>
    show choiceValue a alternatives = choiceValue b alternatives
    unfold choiceValue
    congr 1
    exact List.map_congr_left h

theorem WellFormed.exists_valuation {start : Variable} {rules : List Rule}
    (h : WellFormed start rules) (term : Terminal → K) : ∃ a, IsValuation term rules a :=
  have : Inhabited K := ⟨0⟩
  h.exists_assignment (fun a r => r.value term a) (fun r _ _ hab => r.value_congr term hab)

/-- A valuation of some rules has the values of a valuation of more rules. -/
theorem IsValuation.eq_of_subset {term : Terminal → K} {start : Variable}
    {part rules : List Rule} (h : WellFormed start part) (hsub : part ⊆ rules)
    {a b : Nat → K} (ha : IsValuation term part a) (hb : IsValuation term rules b) :
    ∀ i ∈ ruleIds part, a i = b i := by
  refine h.reference_induction (P := fun i => a i = b i) ?_
  intro r hr ih
  rw [ha r hr, hb r (hsub hr)]
  exact r.value_congr term ih

/-! ## Comparing values -/

/-- A preorder on values that sums and products respect. Products distribute over sums from
    the right; from the left they need not, but the distributed form is the greater one. -/
structure Compatible (le : K → K → Prop) : Prop where
  refl : ∀ a, le a a
  trans : ∀ {a b c}, le a b → le b c → le a c
  add_le_add : ∀ {a b c d}, le a b → le c d → le (a + c) (b + d)
  mul_le_mul : ∀ {a b c d}, le a b → le c d → le (a * c) (b * d)
  zero_mul : ∀ a : K, 0 * a = 0
  add_mul : ∀ a b c : K, (a + b) * c = a * c + b * c
  mul_add_le : ∀ a b c : K, le (a * (b + c)) (a * b + a * c)

/-- A summand that occurs twice counts for no less than one that occurs once. -/
def Repeatable (le : K → K → Prop) : Prop :=
  ∀ a b : K, le (a + b) (a + (b + b))

/-- A preorder on values that sums and products respect, and that repeated summands respect
    as well. -/
structure Comparison (le : K → K → Prop) : Prop extends Compatible le where
  add_repeat : Repeatable le

namespace Compatible

variable {le : K → K → Prop}

theorem of_eq (h : Compatible le) {a b : K} (hab : a = b) : le a b :=
  hab ▸ h.refl a

theorem sequenceValue_le (h : Compatible le) (term : Terminal → K) {a b : Nat → K}
    {symbols : List Symbol} (hab : ∀ v, Symbol.var v ∈ symbols → le (a v.id) (b v.id)) :
    le (sequenceValue term a symbols) (sequenceValue term b symbols) := by
  induction symbols with
  | nil => exact h.refl 1
  | cons s rest ih =>
    rw [sequenceValue_cons, sequenceValue_cons]
    refine h.mul_le_mul ?_ (ih fun v hv => hab v (List.mem_cons_of_mem _ hv))
    cases s with
    | term t => exact h.refl _
    | var v => exact hab v (List.mem_cons_self ..)

theorem choiceValue_le (h : Compatible le) {a b : Nat → K} {vars : List Variable}
    (hab : ∀ v ∈ vars, le (a v.id) (b v.id)) : le (choiceValue a vars) (choiceValue b vars) := by
  induction vars with
  | nil => exact h.refl 0
  | cons v rest ih =>
    rw [choiceValue_cons, choiceValue_cons]
    exact h.add_le_add (hab v (List.mem_cons_self ..))
      (ih fun w hw => hab w (List.mem_cons_of_mem _ hw))

/-- Lower values of the references give a rule a lower value. -/
theorem value_le (h : Compatible le) (term : Terminal → K) (r : Rule) {a b : Nat → K}
    (hab : ∀ v ∈ r.references, le (a v.id) (b v.id)) :
    le (r.value term a) (r.value term b) := by
  cases r with
  | derivation lhs rhs =>
    exact h.sequenceValue_le term fun v hv => hab v (Rule.mem_references_derivation.mpr hv)
  | selection lhs alternatives => exact h.choiceValue_le hab

/-- Adding a variable to a choice that offers it already does not lower the value. -/
theorem choiceValue_le_add (h : Compatible le) (hrepeat : Repeatable le) {a : Nat → K}
    {vars : List Variable} {v : Variable} (hv : v.id ∈ vars.map (·.id)) :
    le (choiceValue a vars) (choiceValue a vars + a v.id) := by
  induction vars with
  | nil => cases hv
  | cons u rest ih =>
    rw [choiceValue_cons]
    rw [List.map_cons, List.mem_cons] at hv
    rcases hv with hv | hv
    · -- Sums commute, so the second occurrence may stand beside the first.
      rw [hv]
      have hdouble := hrepeat (choiceValue a rest) (a u.id)
      rwa [← add_assoc, add_comm (choiceValue a rest)] at hdouble
    · rw [add_assoc]
      exact h.add_le_add (h.refl _) (ih hv)

end Compatible

/-- Equality is compatible where products distribute over sums from both sides. -/
theorem compatible_eq {K : Type} [Semiring K] : Compatible (Eq : K → K → Prop) where
  refl := fun _ => rfl
  trans := Eq.trans
  add_le_add := fun hab hcd => by rw [hab, hcd]
  mul_le_mul := fun hab hcd => by rw [hab, hcd]
  zero_mul := MulZeroClass.zero_mul
  add_mul := RightDistribClass.right_distrib
  mul_add_le := LeftDistribClass.left_distrib

/-- Valuations give a variable of both grammars the same value in both of them. -/
def ValuedAlike (g g' : Grammar) : Prop :=
  ∀ (K : Type) [Monoid K] [AddCommMonoid K] (term : Terminal → K), term .empty = 1 →
    ∀ a a', IsValuation term g.rules a → IsValuation term g'.rules a' →
      ∀ i ∈ ruleIds g.rules, i ∈ ruleIds g'.rules → a' i = a i

/-- No valuation gives a variable of both grammars a higher value in the second one than in
    the first one. -/
def ValuedBelow (g g' : Grammar) : Prop :=
  ∀ (K : Type) [Monoid K] [AddCommMonoid K] (term : Terminal → K) (le : K → K → Prop),
    term .empty = 1 → Comparison le → ∀ a a', IsValuation term g.rules a →
      IsValuation term g'.rules a' → ∀ i ∈ ruleIds g.rules, i ∈ ruleIds g'.rules →
        le (a' i) (a i)

theorem ValuedAlike.valuedBelow {g g' : Grammar} (h : ValuedAlike g g') : ValuedBelow g g' := by
  intro K _ _ term le hterm hle a a' ha ha' i hi hi'
  exact hle.of_eq (h K term hterm a a' ha ha' i hi hi')

end FluentGrammar
