import FluentGrammar.Proofs.Grammar.Evaluation
import FluentGrammar.Proofs.Value.Reads
import FluentGrammar.Rewriting.Countdown

/-! # The bound on the rounds

    The bound is the weight of the start variable, where a terminal weighs two. Weights are
    values again, and every variable weighs more than it has reads. Since each round lowers
    the reads of the start variable, the bound is never used up.
-/

namespace FluentGrammar

variable {g : Grammar} {w : Nat → Nat}

/-- Two for a terminal, one for the empty terminal. -/
def Terminal.weight (t : Terminal) : Nat :=
  if t.isEmpty then 1 else 2

/-- The weights of all variables. -/
abbrev Weighs (rules : List Rule) (w : Nat → Nat) : Prop :=
  IsValuation Terminal.weight rules w

/-! ## The countdown is the weight -/

theorem toNat_product {symbols : List Symbol} {cs : List Countdown}
    (h : List.Forall₂ (fun x c => c.toNat = x.value Terminal.weight w) symbols cs) :
    (Countdown.product cs).toNat = sequenceValue Terminal.weight w symbols := by
  induction h with
  | nil => rfl
  | cons hx _ ih => rw [Countdown.product, Countdown.toNat_mul, sequenceValue_cons, hx, ih]

theorem toNat_sum {vars : List Variable} {cs : List Countdown}
    (h : List.Forall₂ (fun v c => c.toNat = w v.id) vars cs) :
    (Countdown.sum cs).toNat = choiceValue w vars := by
  induction h with
  | nil => rfl
  | cons hv _ ih => rw [Countdown.sum, Countdown.toNat_add, choiceValue_cons, hv, ih]

theorem exists_ruleWeight {r : Rule} {weight : Variable → Option Countdown}
    (h : ∀ v ∈ r.references, ∃ c, weight v = some c ∧ c.toNat = w v.id) :
    ∃ c, ruleWeight weight r = some c ∧ c.toNat = r.value Terminal.weight w := by
  cases r with
  | derivation lhs rhs =>
    -- A terminal weighs what the valuation says, and a variable what is known of it.
    have hsymbols : ∀ x ∈ rhs, ∃ c, symbolWeight weight x = some c ∧
        c.toNat = x.value Terminal.weight w := by
      intro x hx
      cases x with
      | term t =>
        refine ⟨_, rfl, ?_⟩
        show _ = t.weight
        unfold Terminal.weight
        split <;> rfl
      | var v => exact h v (Rule.mem_references_derivation.mpr hx)
    obtain ⟨cs, hcs, hvalues⟩ := exists_mapM hsymbols
    refine ⟨.product cs, ?_, toNat_product hvalues⟩
    rw [ruleWeight, hcs]
    rfl
  | selection lhs alternatives =>
    rw [Rule.references_selection] at h
    obtain ⟨cs, hcs, hvalues⟩ := exists_mapM h
    refine ⟨.sum cs, ?_, toNat_sum hvalues⟩
    rw [ruleWeight, hcs]
    rfl

/-- The bound on the rounds is the weight of the start variable. -/
theorem toNat_roundBound (hg : g.Valid) (hw : Weighs g.rules w) :
    g.roundBound.toNat = w g.start.id := by
  have hstep : ∀ r ∈ g.rules, ∀ weight : Variable → Option Countdown,
      (∀ v ∈ r.references, ∃ c, weight v = some c ∧ c.toNat = w v.id) →
        ∃ c, ruleWeight weight r = some c ∧ c.toNat = w r.lhs.id := by
    intro r hr weight hweight
    rw [hw r hr]
    exact exists_ruleWeight hweight
  obtain ⟨c, hc, hvalue⟩ := evaluate_spec (R := fun i c => Countdown.toNat c = w i) hg hstep
  unfold Grammar.roundBound
  rw [hc]
  exact hvalue

/-! ## Weights exceed reads -/

section Weights

variable {a : Nat → Reads}

theorem reads_sequenceValue_le_weight {symbols : List Symbol}
    (h : ∀ v, Symbol.var v ∈ symbols →
      0 < (a v.id).trees ∧ (a v.id).reads + (a v.id).trees ≤ w v.id) :
    (sequenceValue Terminal.readsOf a symbols).reads +
        (sequenceValue Terminal.readsOf a symbols).trees ≤
      sequenceValue Terminal.weight w symbols := by
  induction symbols with
  | nil => exact Nat.le_refl 1
  | cons x rest ih =>
    have hrest := ih fun v hv => h v (List.mem_cons_of_mem _ hv)
    have hpos : 0 < (sequenceValue Terminal.readsOf a rest).trees :=
      trees_sequenceValue_pos fun v hv => (h v (List.mem_cons_of_mem _ hv)).1
    have hx : (x.value Terminal.readsOf a).reads + (x.value Terminal.readsOf a).trees ≤
        x.value Terminal.weight w := by
      cases x with
      | term t =>
        show t.readsOf.reads + t.readsOf.trees ≤ t.weight
        unfold Terminal.readsOf Terminal.weight
        split <;> exact Nat.le_refl _
      | var v => exact (h v (List.mem_cons_self ..)).2
    rw [sequenceValue_cons, sequenceValue_cons, Reads.reads_mul, Reads.trees_mul]
    generalize x.value Terminal.readsOf a = front at hx ⊢
    generalize sequenceValue Terminal.readsOf a rest = behind at hrest hpos ⊢
    -- The reads in front are counted once on the left, and for every tree behind on the right.
    have hone : front.reads ≤ front.reads * (behind.reads + behind.trees) :=
      Nat.le_mul_of_pos_right _ (by omega)
    calc front.reads + front.trees * behind.reads + front.trees * behind.trees
        = front.reads + front.trees * (behind.reads + behind.trees) := by
          rw [Nat.mul_add, Nat.add_assoc]
      _ ≤ front.reads * (behind.reads + behind.trees) +
            front.trees * (behind.reads + behind.trees) := Nat.add_le_add_right hone _
      _ = (front.reads + front.trees) * (behind.reads + behind.trees) :=
          (Nat.add_mul _ _ _).symm
      _ ≤ _ := Nat.mul_le_mul hx hrest

theorem reads_choiceValue_le_weight {vars : List Variable}
    (h : ∀ v ∈ vars, (a v.id).reads + (a v.id).trees ≤ w v.id) :
    (choiceValue a vars).reads + (choiceValue a vars).trees ≤ choiceValue w vars := by
  induction vars with
  | nil => exact Nat.le_refl 0
  | cons v rest ih =>
    have hv := h v (List.mem_cons_self ..)
    have hrest := ih fun u hu => h u (List.mem_cons_of_mem _ hu)
    rw [choiceValue_cons, choiceValue_cons, Reads.reads_add, Reads.trees_add]
    omega

/-- A variable weighs at least its reads and its trees together. -/
theorem CountsReads.add_le_weight {start : Variable} {rules : List Rule}
    (ha : CountsReads rules a) (hw : Weighs rules w) (h : WellFormed start rules) :
    ∀ i ∈ ruleIds rules, (a i).reads + (a i).trees ≤ w i := by
  refine h.reference_induction (P := fun i => (a i).reads + (a i).trees ≤ w i) ?_
  intro r hr ih
  have hdefined : ∀ v ∈ r.references, v.id ∈ ruleIds rules :=
    fun v hv => defines_iff_mem_ruleIds.mp (h.closed r hr v hv)
  rw [ha r hr, hw r hr]
  cases r with
  | derivation lhs rhs =>
    refine reads_sequenceValue_le_weight fun v hv => ?_
    have href : v ∈ (Rule.derivation lhs rhs).references :=
      Rule.mem_references_derivation.mpr hv
    exact ⟨ha.trees_pos h v.id (hdefined v href), ih v href⟩
  | selection lhs alternatives => exact reads_choiceValue_le_weight ih

/-- The bound on the rounds exceeds the reads of the start variable. -/
theorem reads_start_lt_roundBound (hg : g.Valid) (ha : CountsReads g.rules a) :
    (a g.start.id).reads < g.roundBound.toNat := by
  have hwell := hg.well_formed
  have hstart : g.start.id ∈ ruleIds g.rules :=
    defines_iff_mem_ruleIds.mp hwell.start_defined
  obtain ⟨w, hw⟩ := hwell.exists_valuation Terminal.weight
  have hle := ha.add_le_weight hw hwell g.start.id hstart
  have hpos := ha.trees_pos hwell g.start.id hstart
  rw [toNat_roundBound hg hw]
  omega

end Weights

end FluentGrammar
