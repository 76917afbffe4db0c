import FluentGrammar.Language.Tree
import FluentGrammar.Proofs.Grammar.Validation
import FluentGrammar.Proofs.Value.Valuation
import Mathlib.Algebra.BigOperators.Ring.Finset
import Mathlib.Algebra.FreeMonoid.Basic
import Mathlib.Algebra.MonoidAlgebra.Defs

/-! # Trees as values

    In a semiring a variable has the value of all of its derivation trees together, the value
    of a tree being the product over its leaves. When a tree is valued by its word, the value
    of a variable is a formal sum of words, in which every word has as its coefficient the
    number of its trees. So the numbers of trees are compared like all values.
-/

namespace FluentGrammar

variable {g : Grammar}

/-! ## Totals -/

section Totals

variable {K α β : Type} [Semiring K]

/-- There are finitely many elements, and their values add up to `k`. -/
def Totals (value : α → K) (k : K) : Prop :=
  ∃ _ : Fintype α, ∑ x, value x = k

theorem Totals.finite {value : α → K} {k : K} (h : Totals value k) : Finite α := by
  obtain ⟨hfintype, -⟩ := h
  exact Fintype.finite hfintype

theorem Totals.sum_eq [hα : Fintype α] {value : α → K} {k : K} (h : Totals value k) :
    ∑ x, value x = k := by
  obtain ⟨hfintype, hsum⟩ := h
  rw [Subsingleton.elim hα hfintype]
  exact hsum

/-- Elements that correspond to each other one by one add up to the same value. -/
theorem Totals.of_bijective {value : α → K} {value' : β → K} {k : K} (h : Totals value k)
    {f : α → β} (hf : Function.Bijective f) (hvalue : ∀ x, value' (f x) = value x) :
    Totals value' k := by
  obtain ⟨hfintype, hsum⟩ := h
  have hfintype' : Fintype β := Fintype.ofBijective f hf
  refine ⟨hfintype', ?_⟩
  rw [← hsum, ← hf.sum_comp]
  exact Finset.sum_congr rfl fun x _ => hvalue x

theorem Totals.one : Totals (fun _ : Unit => (1 : K)) 1 :=
  ⟨inferInstance, by simp⟩

theorem Totals.mul_left {value : α → K} {k : K} (h : Totals value k) (c : K) :
    Totals (fun x => c * value x) (c * k) := by
  obtain ⟨hfintype, hsum⟩ := h
  exact ⟨hfintype, by rw [← Finset.mul_sum, hsum]⟩

/-- The values of pairs add up to the product of two totals. -/
theorem Totals.mul {value : α → K} {value' : β → K} {k l : K} (h : Totals value k)
    (h' : Totals value' l) : Totals (fun p : α × β => value p.1 * value' p.2) (k * l) := by
  obtain ⟨hfintype, hsum⟩ := h
  obtain ⟨hfintype', hsum'⟩ := h'
  refine ⟨inferInstance, ?_⟩
  rw [Fintype.sum_prod_type, ← hsum, ← hsum', Finset.sum_mul_sum]

/-- The totals of several kinds of elements, listed without repetition, add up. -/
theorem Totals.sigma {xs : List α} (hnodup : xs.Nodup) {family : α → Type}
    {value : ∀ x, family x → K} {k : α → K} (h : ∀ x ∈ xs, Totals (value x) (k x)) :
    Totals (fun p : (Σ x : {x // x ∈ xs}, family x) => value p.1 p.2) (xs.map k).sum := by
  classical
  choose hfintype hsum using h
  have hfamily : ∀ x : {x // x ∈ xs}, Fintype (family x) := fun x => hfintype x x.2
  refine ⟨inferInstance, ?_⟩
  have hlisted : ∑ x : {x // x ∈ xs}, k x = (xs.map k).sum := by
    rw [← List.sum_toFinset k hnodup, ← Finset.sum_coe_sort xs.toFinset]
    refine Fintype.sum_equiv (Equiv.subtypeEquivRight fun x => List.mem_toFinset.symm) _ _ ?_
    exact fun _ => rfl
  rw [Fintype.sum_sigma, ← hlisted]
  refine Finset.sum_congr rfl fun x _ => ?_
  exact Totals.sum_eq ⟨hfintype x x.2, hsum x x.2⟩

end Totals

/-! ## The trees of a rule -/

/-- The trees of a derivation are those of its symbols. -/
theorem Tree.bijective_derivation {v lhs : Variable} {rhs : List Symbol}
    (rule : g.rule? v = some (.derivation lhs rhs)) :
    Function.Bijective (Tree.derivation rule : Forest g rhs → Tree g v) := by
  constructor
  · intro F F' h
    cases h
    rfl
  · intro T
    cases T with
    | derivation rule' below =>
      cases rule.symm.trans rule'
      exact ⟨below, rfl⟩
    | selection rule' choice below => cases rule.symm.trans rule'

/-- The trees of a selection are those of its alternatives. -/
theorem Tree.bijective_selection {v lhs : Variable} {alternatives : List Variable}
    (rule : g.rule? v = some (.selection lhs alternatives)) :
    Function.Bijective (fun p : (Σ u : {u // u ∈ alternatives}, Tree g u) =>
      (Tree.selection rule p.1.2 p.2 : Tree g v)) := by
  constructor
  · rintro ⟨⟨u, hu⟩, T⟩ ⟨⟨u', hu'⟩, T'⟩ h
    cases h
    rfl
  · intro T
    cases T with
    | derivation rule' below => cases rule.symm.trans rule'
    | selection rule' choice below =>
      cases rule.symm.trans rule'
      exact ⟨⟨⟨_, choice⟩, below⟩, rfl⟩

theorem Forest.bijective_nil :
    Function.Bijective (fun _ : Unit => (Forest.nil : Forest g [])) := by
  constructor
  · exact fun _ _ _ => rfl
  · intro F
    cases F
    exact ⟨(), rfl⟩

theorem Forest.bijective_term (t : Terminal) (rest : List Symbol) :
    Function.Bijective (Forest.term : Forest g rest → Forest g (.term t :: rest)) := by
  constructor
  · intro F F' h
    cases h
    rfl
  · intro F
    cases F with
    | term behind => exact ⟨behind, rfl⟩

theorem Forest.bijective_var (v : Variable) (rest : List Symbol) :
    Function.Bijective (fun p : Tree g v × Forest g rest =>
      (Forest.var p.1 p.2 : Forest g (.var v :: rest))) := by
  constructor
  · rintro ⟨T, F⟩ ⟨T', F'⟩ h
    cases h
    rfl
  · intro F
    cases F with
    | var front behind => exact ⟨⟨front, behind⟩, rfl⟩

/-! ## Values of trees -/

section Values

variable {K : Type} [Semiring K] (term : Terminal → K)

mutual

/-- The value of a tree: the product of the values of its leaves. -/
def Tree.value {v : Variable} : Tree g v → K
  | .derivation _ below => below.value
  | .selection _ _ below => below.value

/-- The value of a sequence of trees. -/
def Forest.value {symbols : List Symbol} : Forest g symbols → K
  | .nil => 1
  | @Forest.term _ t _ behind => term t * behind.value
  | .var front behind => front.value * behind.value

end

variable {term} {a : Nat → K}

theorem Forest.totals_value {symbols : List Symbol}
    (h : ∀ v, Symbol.var v ∈ symbols → Totals (Tree.value term : Tree g v → K) (a v.id)) :
    Totals (Forest.value term : Forest g symbols → K) (sequenceValue term a symbols) := by
  induction symbols with
  | nil => exact Totals.one.of_bijective Forest.bijective_nil fun _ => rfl
  | cons s rest ih =>
    have hrest := ih fun v hv => h v (List.mem_cons_of_mem _ hv)
    rw [sequenceValue_cons]
    cases s with
    | term t =>
      exact (hrest.mul_left (term t)).of_bijective (Forest.bijective_term t rest) fun _ => rfl
    | var v =>
      have hfront := h v (List.mem_cons_self ..)
      exact (hfront.mul hrest).of_bijective (Forest.bijective_var v rest) fun _ => rfl

/-- Every variable has finitely many trees, the values of which add up to its own. -/
theorem Tree.totals_value (hg : g.Valid) (ha : IsValuation term g.rules a) {v : Variable}
    (hv : v.id ∈ ruleIds g.rules) : Totals (Tree.value term : Tree g v → K) (a v.id) := by
  refine hg.rule_induction
    (P := fun v => Totals (Tree.value term : Tree g v → K) (a v.id)) ?_ v hv
  intro v r hrule ih
  have hvalue := ha r (Grammar.mem_of_rule? hrule)
  rw [Grammar.lhs_of_rule? hrule] at hvalue
  rw [hvalue]
  cases r with
  | derivation lhs rhs =>
    have hforests : Totals (Forest.value term : Forest g rhs → K) (sequenceValue term a rhs) :=
      Forest.totals_value fun u hu => ih u (Rule.mem_references_derivation.mpr hu)
    exact hforests.of_bijective (Tree.bijective_derivation hrule) fun _ => rfl
  | selection lhs alternatives =>
    have hdistinct :=
      (hg.well_formed.selections lhs alternatives (Grammar.mem_of_rule? hrule)).2
    have hids : (alternatives.map (·.id)).Nodup := List.pairwise_map.mpr hdistinct
    have hnodup : alternatives.Nodup := hids.of_map
    exact (Totals.sigma hnodup ih).of_bijective (Tree.bijective_selection hrule) fun _ => rfl

end Values

/-! ## Numbers of trees -/

/-- Formal sums of words. -/
abbrev WordSum : Type :=
  MonoidAlgebra Nat (FreeMonoid Terminal)

/-- A word as a sum of its own. -/
noncomputable def Word.once (w : Word) : WordSum :=
  .single (FreeMonoid.ofList w) 1

/-- The value of a terminal: its word. -/
noncomputable def Terminal.once (t : Terminal) : WordSum :=
  Word.once t.word

theorem Word.once_nil : Word.once [] = 1 := rfl

theorem Word.once_append (u w : Word) : Word.once (u ++ w) = Word.once u * Word.once w := by
  unfold once
  rw [MonoidAlgebra.single_mul_single, one_mul, FreeMonoid.ofList_append]

theorem Terminal.once_empty : Terminal.empty.once = 1 := by
  rw [once, word_empty, Word.once_nil]

mutual

theorem Tree.value_once {v : Variable} (T : Tree g v) :
    T.value Terminal.once = Word.once T.word := by
  cases T with
  | derivation rule below =>
    rw [Tree.value, Tree.word]
    exact below.value_once
  | selection rule choice below =>
    rw [Tree.value, Tree.word]
    exact below.value_once

theorem Forest.value_once {symbols : List Symbol} (F : Forest g symbols) :
    F.value Terminal.once = Word.once F.word := by
  cases F with
  | nil => rfl
  | @term t rest behind =>
    rw [Forest.value, Forest.word, Word.once_append, behind.value_once]
    rfl
  | var front behind =>
    rw [Forest.value, Forest.word, Word.once_append, front.value_once, behind.value_once]

end

/-- The coefficient of a word in a sum of words. -/
noncomputable def WordSum.count (x : WordSum) (w : Word) : Nat :=
  x.coeff (FreeMonoid.ofList w)

@[simp] theorem WordSum.count_add (x y : WordSum) (w : Word) :
    (x + y).count w = x.count w + y.count w := rfl

theorem WordSum.count_sum_map {α : Type} (xs : List α) (f : α → WordSum) (w : Word) :
    (xs.map f).sum.count w = (xs.map fun x => (f x).count w).sum := by
  induction xs with
  | nil => rfl
  | cons x rest ih =>
    rw [List.map_cons, List.sum_cons, WordSum.count_add, ih, List.map_cons, List.sum_cons]

theorem WordSum.count_sum {α : Type} [Fintype α] (f : α → WordSum) (w : Word) :
    (∑ x, f x).count w = ∑ x, (f x).count w := by
  unfold count
  rw [MonoidAlgebra.coeff_sum, Finsupp.finsetSum_apply]

theorem WordSum.count_once (u w : Word) [Decidable (u = w)] :
    (Word.once u).count w = if u = w then 1 else 0 := by
  classical
  unfold count Word.once
  rw [MonoidAlgebra.coeff_single, Finsupp.single_apply]
  exact if_congr FreeMonoid.ofList.injective.eq_iff rfl rfl

/-- Where elements are valued by their words, each word counts the elements that have it. -/
theorem Totals.count_eq {α : Type} {word : α → Word} {k : WordSum}
    (h : Totals (fun x => Word.once (word x)) k) (w : Word) :
    k.count w = Nat.card {x // word x = w} := by
  classical
  have hfinite := h.finite
  have hfintype := Fintype.ofFinite α
  rw [← h.sum_eq, WordSum.count_sum, Nat.card_eq_fintype_card, Fintype.card_subtype,
    Finset.card_filter]
  exact Finset.sum_congr rfl fun x _ => WordSum.count_once (word x) w

/-- The number of trees of a word is its coefficient in the value of the variable. -/
theorem treeCount_eq (hg : g.Valid) {a : Nat → WordSum}
    (ha : IsValuation Terminal.once g.rules a) {v : Variable} (hv : v.id ∈ ruleIds g.rules)
    (w : Word) : treeCount g v w = (a v.id).count w := by
  have htotals := Tree.totals_value hg ha hv
  rw [funext Tree.value_once] at htotals
  exact (htotals.count_eq w).symm

theorem finite_treesOf (hg : g.Valid) {v : Variable} (hv : v.id ∈ ruleIds g.rules) (w : Word) :
    Finite (TreesOf g v w) := by
  obtain ⟨a, ha⟩ := hg.well_formed.exists_valuation Terminal.once
  have hfinite := (Tree.totals_value hg ha hv).finite
  exact Subtype.finite

/-! ## Comparing numbers of trees -/

/-- One value is a part of another one. -/
def PartOf {K : Type} [Semiring K] (a b : K) : Prop :=
  ∃ c, b = a + c

/-- Sums and products keep parts. -/
theorem comparison_partOf {K : Type} [Semiring K] : Comparison (PartOf : K → K → Prop) where
  refl := fun a => ⟨0, (add_zero a).symm⟩
  trans := by
    rintro a _ _ ⟨c, rfl⟩ ⟨d, rfl⟩
    exact ⟨c + d, add_assoc a c d⟩
  add_le_add := by
    rintro a _ b _ ⟨c, rfl⟩ ⟨d, rfl⟩
    exact ⟨c + d, add_add_add_comm a c b d⟩
  mul_le_mul := by
    rintro a _ b _ ⟨c, rfl⟩ ⟨d, rfl⟩
    refine ⟨a * d + (c * b + c * d), ?_⟩
    rw [add_mul, mul_add, mul_add, add_assoc]
  zero_mul := MulZeroClass.zero_mul
  add_mul := RightDistribClass.right_distrib
  mul_add_le := fun a b c => ⟨0, by rw [mul_add, add_zero]⟩
  add_repeat := fun a b => ⟨b, (add_assoc a b b).symm⟩

theorem PartOf.count_le {x y : WordSum} (h : PartOf x y) (w : Word) :
    x.count w ≤ y.count w := by
  obtain ⟨c, rfl⟩ := h
  rw [WordSum.count_add]
  exact Nat.le_add_right _ _

/-- Variables of both grammars have the same trees of every word, as to their number. -/
def TreesAlike (g g' : Grammar) : Prop :=
  ∀ v : Variable, v.id ∈ ruleIds g.rules → v.id ∈ ruleIds g'.rules →
    ∀ w, treeCount g' v w = treeCount g v w

/-- Grammars with the same values in the sums of words have the same numbers of trees. -/
theorem TreesAlike.of_values {g' : Grammar} (hg : g.Valid) (hg' : g'.Valid)
    (h : ∀ a a', IsValuation Terminal.once g.rules a → IsValuation Terminal.once g'.rules a' →
      ∀ i ∈ ruleIds g.rules, i ∈ ruleIds g'.rules → a' i = a i) : TreesAlike g g' := by
  intro v hv hv' w
  obtain ⟨a, ha⟩ := hg.well_formed.exists_valuation Terminal.once
  obtain ⟨a', ha'⟩ := hg'.well_formed.exists_valuation Terminal.once
  rw [treeCount_eq hg ha hv, treeCount_eq hg' ha' hv', h a a' ha ha' v.id hv hv']

theorem ValuedAlike.treesAlike {g' : Grammar} (h : ValuedAlike g g') (hg : g.Valid)
    (hg' : g'.Valid) : TreesAlike g g' :=
  .of_values hg hg' (h WordSum Terminal.once Terminal.once_empty)

/-- A grammar whose valuations stay below those of another one has no more trees. -/
theorem ValuedBelow.treeCount_le {g' : Grammar} (h : ValuedBelow g g') (hg : g.Valid)
    (hg' : g'.Valid) {v : Variable} (hv : v.id ∈ ruleIds g.rules)
    (hv' : v.id ∈ ruleIds g'.rules) (w : Word) : treeCount g' v w ≤ treeCount g v w := by
  obtain ⟨a, ha⟩ := hg.well_formed.exists_valuation Terminal.once
  obtain ⟨a', ha'⟩ := hg'.well_formed.exists_valuation Terminal.once
  rw [treeCount_eq hg ha hv, treeCount_eq hg' ha' hv']
  exact (h WordSum Terminal.once PartOf Terminal.once_empty comparison_partOf a a' ha ha' v.id
    hv hv').count_le w

end FluentGrammar
