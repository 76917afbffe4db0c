import FluentGrammar.Language.Derivation
import FluentGrammar.Proofs.Value.Valuation
import Mathlib.Computability.Language

/-! # Languages as values

    The words that a variable derives are its value when terminals are valued by their own
    words, products concatenate and sums unite. Under equality these values compare: sums of
    languages are idempotent and concatenation distributes over them from both sides.
-/

namespace FluentGrammar

/-- The words that a grammar derives from a variable, which is given by its id. -/
def Grammar.languageOf (g : Grammar) (i : Nat) : Language Terminal :=
  {w | Derives g ⟨i, ""⟩ w}

/-- The language of a single terminal. -/
def Terminal.language (t : Terminal) : Language Terminal :=
  {t.word}

theorem Terminal.language_empty : Terminal.empty.language = 1 := by
  unfold language
  rw [word_empty]
  rfl

variable {g : Grammar}

theorem mem_languageOf {v : Variable} {w : Word} :
    w ∈ g.languageOf v.id ↔ Derives g v w := by
  have hid : (⟨v.id, ""⟩ : Variable).id = v.id := rfl
  exact ⟨Derives.congr hid, Derives.congr hid.symm⟩

theorem derivesAll_iff_mem_value {symbols : List Symbol} {w : Word} :
    DerivesAll g symbols w ↔
      w ∈ sequenceValue Terminal.language g.languageOf symbols := by
  induction symbols generalizing w with
  | nil => rw [derivesAll_nil, sequenceValue_nil, Language.mem_one]
  | cons s rest ih =>
    rw [sequenceValue_cons, Language.mem_mul]
    cases s with
    | term t =>
      rw [derivesAll_term]
      constructor
      · intro hex
        obtain ⟨u, hw, hu⟩ := hex
        exact ⟨t.word, rfl, u, ih.mp hu, hw.symm⟩
      · intro hex
        obtain ⟨front, hfront, u, hu, hw⟩ := hex
        rw [show front = t.word from hfront] at hw
        exact ⟨u, hw.symm, ih.mpr hu⟩
    | var v =>
      rw [derivesAll_var]
      constructor
      · intro hex
        obtain ⟨u₁, u₂, hw, h₁, h₂⟩ := hex
        exact ⟨u₁, mem_languageOf.mpr h₁, u₂, ih.mp h₂, hw.symm⟩
      · intro hex
        obtain ⟨u₁, h₁, u₂, h₂, hw⟩ := hex
        exact ⟨u₁, u₂, hw.symm, mem_languageOf.mp h₁, ih.mpr h₂⟩

theorem mem_choiceValue_languageOf {vars : List Variable} {w : Word} :
    w ∈ choiceValue g.languageOf vars ↔ ∃ v ∈ vars, Derives g v w := by
  induction vars with
  | nil => simp
  | cons v rest ih =>
    rw [choiceValue_cons, Language.mem_add, mem_languageOf, ih]
    simp

/-- The languages of its variables are a valuation of a grammar. -/
theorem isValuation_languageOf (hnodup : (ruleIds g.rules).Nodup) :
    IsValuation Terminal.language g.rules g.languageOf := by
  intro r hr
  have hrule := Grammar.rule?_of_mem hnodup hr (v := r.lhs) rfl
  ext w
  rw [mem_languageOf]
  cases r with
  | derivation lhs rhs =>
    rw [derives_iff_of_derivation hrule]
    exact derivesAll_iff_mem_value
  | selection lhs alternatives =>
    rw [derives_iff_of_selection hrule]
    exact mem_choiceValue_languageOf.symm

theorem comparison_language : Comparison (K := Language Terminal) Eq where
  refl := fun _ => rfl
  trans := fun hab hbc => hab.trans hbc
  add_le_add := fun hab hcd => by rw [hab, hcd]
  mul_le_mul := fun hab hcd => by rw [hab, hcd]
  zero_mul := fun a => MulZeroClass.zero_mul a
  add_mul := fun a b c => RightDistribClass.right_distrib a b c
  mul_add_le := fun a b c => LeftDistribClass.left_distrib a b c
  add_repeat := fun a b => by rw [Language.add_self]

/-- A grammar whose valuations stay below those of another one has the same languages. -/
theorem ValuedBelow.languageOf_eq {g' : Grammar} (h : ValuedBelow g g') (hg : g.Valid)
    (hg' : g'.Valid) {i : Nat} (hi : i ∈ ruleIds g.rules) (hi' : i ∈ ruleIds g'.rules) :
    g'.languageOf i = g.languageOf i :=
  h _ Terminal.language Eq Terminal.language_empty comparison_language
    g.languageOf g'.languageOf (isValuation_languageOf hg.well_formed.nodup_ruleIds)
    (isValuation_languageOf hg'.well_formed.nodup_ruleIds) i hi hi'

theorem ValuedBelow.derives_iff {g' : Grammar} (h : ValuedBelow g g') (hg : g.Valid)
    (hg' : g'.Valid) {v : Variable} (hv : Defines g.rules v) (hv' : Defines g'.rules v)
    {w : Word} : Derives g' v w ↔ Derives g v w := by
  rw [← mem_languageOf, ← mem_languageOf, h.languageOf_eq hg hg'
    (defines_iff_mem_ruleIds.mp hv) (defines_iff_mem_ruleIds.mp hv')]

end FluentGrammar
