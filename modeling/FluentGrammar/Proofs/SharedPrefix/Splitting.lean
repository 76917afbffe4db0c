import FluentGrammar.Proofs.Grammar.Validation
import FluentGrammar.Proofs.Value.Valuation
import FluentGrammar.SharedPrefix.Factoring

/-! # Splitting keeps values

    Splitting makes two variables out of one. Their rules are such that the full part, and
    the shared terminal followed by the partial part, together have at most the value of the
    variable that was split. This needs nothing of the chains: whatever alternatives are said
    to be on them, their splits account for all of their value. Value is lost only where two
    alternatives give the same variable, which is then listed once.
-/

namespace FluentGrammar

/-! ## The shape of what is made -/

/-- Which variable stands for a choice among variables: the only one of them, or one with a
    selection among them. -/
def Selects (rules : List Rule) (v : Variable) (vars : List Variable) : Prop :=
  vars = [v] ∨ Rule.selection v vars ∈ rules

/-- How the alternatives of a selection are distributed over full and partial parts, from the
    lists collected before to the lists collected in the end. `S` tells the parts of the
    alternatives that are on a chain. -/
inductive Parted (S : Variable → Split → Prop) (onChain : List Variable) :
    List Variable → List Variable → List Variable → List Variable → List Variable → Prop where
  /-- All alternatives are distributed. -/
  | nil {fulls parts : List Variable} : Parted S onChain [] fulls parts fulls parts
  /-- An alternative that is on no chain is its own full part. -/
  | aside {v : Variable} {rest fulls parts fulls' parts' : List Variable}
      (hv : onChain.contains v = false)
      (hrest : Parted S onChain rest (addUnique fulls v) parts fulls' parts') :
      Parted S onChain (v :: rest) fulls parts fulls' parts'
  /-- An alternative whose strings all go through the chains has no full part. -/
  | through {v part : Variable} {rest fulls parts fulls' parts' : List Variable}
      (hv : onChain.contains v = true) (hs : S v ⟨none, part⟩)
      (hrest : Parted S onChain rest fulls (addUnique parts part) fulls' parts') :
      Parted S onChain (v :: rest) fulls parts fulls' parts'
  /-- Any other alternative has both parts. -/
  | both {v full part : Variable} {rest fulls parts fulls' parts' : List Variable}
      (hv : onChain.contains v = true) (hs : S v ⟨some full, part⟩)
      (hrest : Parted S onChain rest (addUnique fulls full) (addUnique parts part)
        fulls' parts') :
      Parted S onChain (v :: rest) fulls parts fulls' parts'

/-- How the rules of the parts of a variable come from its own rule. `S` tells the parts of
    the variables that this rule refers to. -/
inductive SplitShape (task : FactorTask) (S : Variable → Split → Prop) (rules : List Rule) :
    Variable → Split → Prop where
  /-- A derivation that reads the shared terminal leaves what stands behind it. -/
  | reads {v lhs part : Variable} {rest : List Symbol}
      (hrule : Rule.derivation lhs (.term task.target.symbol :: rest) ∈ task.grammar.rules)
      (hlhs : lhs.id = v.id) (hpart : Rule.derivation part rest ∈ rules) :
      SplitShape task S rules v ⟨none, part⟩
  /-- A derivation starts with the partial part of the variable that it started with. -/
  | through {v lhs w below part : Variable} {rest : List Symbol}
      (hrule : Rule.derivation lhs (.var w :: rest) ∈ task.grammar.rules)
      (hlhs : lhs.id = v.id) (hbelow : S w ⟨none, below⟩)
      (hpart : Rule.derivation part (.var below :: rest) ∈ rules) :
      SplitShape task S rules v ⟨none, part⟩
  /-- Another derivation starts with the full part of that variable, if there is one. -/
  | both {v lhs w belowFull below full part : Variable} {rest : List Symbol}
      (hrule : Rule.derivation lhs (.var w :: rest) ∈ task.grammar.rules)
      (hlhs : lhs.id = v.id) (hbelow : S w ⟨some belowFull, below⟩)
      (hpart : Rule.derivation part (.var below :: rest) ∈ rules)
      (hfull : Rule.derivation full (.var belowFull :: rest) ∈ rules) :
      SplitShape task S rules v ⟨some full, part⟩
  /-- A selection selects among the partial parts. -/
  | choice {v lhs part : Variable} {alternatives parts : List Variable}
      (hrule : Rule.selection lhs alternatives ∈ task.grammar.rules) (hlhs : lhs.id = v.id)
      (hparted : Parted S (task.successors lhs) alternatives [] [] [] parts)
      (hne : parts ≠ []) (hpart : Selects rules part parts) :
      SplitShape task S rules v ⟨none, part⟩
  /-- Another selection selects among the full parts, if there are any. -/
  | choices {v lhs full part : Variable} {alternatives fulls parts : List Variable}
      (hrule : Rule.selection lhs alternatives ∈ task.grammar.rules) (hlhs : lhs.id = v.id)
      (hparted : Parted S (task.successors lhs) alternatives [] [] fulls parts)
      (hne : parts ≠ []) (hpart : Selects rules part parts) (hfull : Selects rules full fulls) :
      SplitShape task S rules v ⟨some full, part⟩

/-- What a memo of splits says of a variable. -/
def Recorded (splits : List (Variable × Split)) (v : Variable) (s : Split) : Prop :=
  ∃ w, (w, s) ∈ splits ∧ w.id = v.id

theorem Selects.mono {rules rules' : List Rule} (hrules : rules ⊆ rules') {v : Variable}
    {vars : List Variable} (h : Selects rules v vars) : Selects rules' v vars := by
  rcases h with h | h
  · exact Or.inl h
  · exact Or.inr (hrules h)

theorem Parted.mono {S S' : Variable → Split → Prop} (hS : ∀ v s, S v s → S' v s)
    {onChain alternatives fulls parts fulls' parts' : List Variable}
    (h : Parted S onChain alternatives fulls parts fulls' parts') :
    Parted S' onChain alternatives fulls parts fulls' parts' := by
  induction h with
  | nil => exact .nil
  | aside hv _ ih => exact .aside hv ih
  | through hv hs _ ih => exact .through hv (hS _ _ hs) ih
  | both hv hs _ ih => exact .both hv (hS _ _ hs) ih

/-- Further splits and rules do not touch the ones that are there. -/
theorem SplitShape.mono {task : FactorTask} {S S' : Variable → Split → Prop}
    {rules rules' : List Rule} (hS : ∀ v s, S v s → S' v s) (hrules : rules ⊆ rules')
    {v : Variable} {s : Split} (h : SplitShape task S rules v s) :
    SplitShape task S' rules' v s := by
  cases h with
  | reads hrule hlhs hpart => exact .reads hrule hlhs (hrules hpart)
  | through hrule hlhs hbelow hpart => exact .through hrule hlhs (hS _ _ hbelow) (hrules hpart)
  | both hrule hlhs hbelow hpart hfull =>
    exact .both hrule hlhs (hS _ _ hbelow) (hrules hpart) (hrules hfull)
  | choice hrule hlhs hparted hne hpart =>
    exact .choice hrule hlhs (hparted.mono hS) hne (hpart.mono hrules)
  | choices hrule hlhs hparted hne hpart hfull =>
    exact .choices hrule hlhs (hparted.mono hS) hne (hpart.mono hrules) (hfull.mono hrules)

theorem Recorded.mono {splits splits' : List (Variable × Split)} (h : splits ⊆ splits') :
    ∀ v s, Recorded splits v s → Recorded splits' v s := by
  intro v s hex
  obtain ⟨w, hw, hid⟩ := hex
  exact ⟨w, h hw, hid⟩

/-- The new rule of the root: it selects among the new alternative and the remaining ones, or
    it is the new alternative itself when none remains. -/
inductive Rerooted (task : FactorTask) (rules : List Rule) (remaining : List Variable)
    (rest : Variable) : Prop where
  | replaced (hremaining : remaining = [])
      (hroot : Rule.derivation task.target.root
        [.term task.target.symbol, .var rest] ∈ rules)
  | offered (lead : Variable)
      (hlead : Rule.derivation lead [.term task.target.symbol, .var rest] ∈ rules)
      (hroot : Rule.selection task.target.root (lead :: remaining) ∈ rules)

theorem Rerooted.mono {task : FactorTask} {rules rules' : List Rule}
    {remaining : List Variable} {rest : Variable} (hrules : rules ⊆ rules')
    (h : Rerooted task rules remaining rest) : Rerooted task rules' remaining rest := by
  cases h with
  | replaced hremaining hroot => exact .replaced hremaining (hrules hroot)
  | offered lead hlead hroot => exact .offered lead (hrules hlead) (hrules hroot)

/-! ## What alternatives give -/

/-- The full part that an alternative gives: itself, if it is on no chain. -/
def GivesFull (S : Variable → Split → Prop) (onChain : List Variable) (v y : Variable) :
    Prop :=
  onChain.contains v = false ∧ y = v ∨
    onChain.contains v = true ∧ ∃ part, S v ⟨some y, part⟩

/-- The partial part that an alternative gives. -/
def GivesPart (S : Variable → Split → Prop) (onChain : List Variable) (v y : Variable) :
    Prop :=
  onChain.contains v = true ∧ ∃ full, S v ⟨full, y⟩

/-- No alternative gives a variable that is listed already, and no two of them give the same
    variable. -/
structure Apart (gives : Variable → Variable → Prop) (alternatives listed : List Variable) :
    Prop where
  unlisted : ∀ v ∈ alternatives, ∀ y, gives v y → y.id ∉ listed.map (·.id)
  given : alternatives.Pairwise (fun v w => ∀ y z, gives v y → gives w z → y.id ≠ z.id)

theorem Apart.tail {gives : Variable → Variable → Prop} {v : Variable}
    {rest listed : List Variable} (h : Apart gives (v :: rest) listed) :
    Apart gives rest listed :=
  ⟨fun w hw => h.unlisted w (List.mem_cons_of_mem _ hw), (List.pairwise_cons.mp h.given).2⟩

theorem Apart.add {gives : Variable → Variable → Prop} {v y : Variable}
    {rest listed : List Variable} (h : Apart gives (v :: rest) listed) (hy : gives v y) :
    Apart gives rest (addUnique listed y) := by
  refine ⟨?_, (List.pairwise_cons.mp h.given).2⟩
  intro w hw z hz hmem
  have hne := (List.pairwise_cons.mp h.given).1 w hw y z hy hz
  have hold := h.unlisted w (List.mem_cons_of_mem _ hw) z hz
  unfold addUnique at hmem
  split at hmem
  · exact hold hmem
  · rw [List.map_append, List.mem_append] at hmem
    rcases hmem with hmem | hmem
    · exact hold hmem
    · exact hne (List.mem_singleton.mp hmem).symm

/-- The alternatives of a selection give different full parts and different partial parts. -/
structure SplitsApart (task : FactorTask) (S : Variable → Split → Prop) (i : Nat) : Prop where
  fulls : ∀ lhs alternatives, Rule.selection lhs alternatives ∈ task.grammar.rules →
    lhs.id = i → Apart (GivesFull S (task.successors lhs)) alternatives []
  parts : ∀ lhs alternatives, Rule.selection lhs alternatives ∈ task.grammar.rules →
    lhs.id = i → Apart (GivesPart S (task.successors lhs)) alternatives []

/-! ## Listing variables once -/

section Merging

variable {K : Type} [AddCommMonoid K] {le : K → K → Prop} {a : Nat → K}

/-- Listing a variable once is enough if repeated summands do not matter, or if it has not
    been listed before. -/
def Mergeable (le : K → K → Prop) (gives : Variable → Variable → Prop)
    (alternatives listed : List Variable) : Prop :=
  Repeatable le ∨ Apart gives alternatives listed

theorem choiceValue_addUnique (vars : List Variable) {v : Variable}
    (hv : v.id ∉ vars.map (·.id)) :
    choiceValue a (addUnique vars v) = choiceValue a vars + a v.id := by
  unfold addUnique
  rw [if_neg fun hc => hv (contains_iff_mem_ids.mp hc), choiceValue_append, choiceValue_cons,
    choiceValue_nil, add_zero]

variable {gives : Variable → Variable → Prop} {v y : Variable} {rest listed : List Variable}

theorem Mergeable.tail (h : Mergeable le gives (v :: rest) listed) :
    Mergeable le gives rest listed :=
  h.imp_right Apart.tail

theorem Mergeable.add (h : Mergeable le gives (v :: rest) listed) (hy : gives v y) :
    Mergeable le gives rest (addUnique listed y) :=
  h.imp_right fun hapart => hapart.add hy

theorem mergeable_of_rule {task : FactorTask} {S : Variable → Split → Prop} {i : Nat}
    (h : Repeatable le ∨ SplitsApart task S i)
    {lhs : Variable} {alternatives : List Variable}
    (hrule : Rule.selection lhs alternatives ∈ task.grammar.rules) (hlhs : lhs.id = i) :
    Mergeable le (GivesFull S (task.successors lhs)) alternatives [] ∧
      Mergeable le (GivesPart S (task.successors lhs)) alternatives [] :=
  ⟨h.imp_right fun hapart => hapart.fulls lhs alternatives hrule hlhs,
    h.imp_right fun hapart => hapart.parts lhs alternatives hrule hlhs⟩

end Merging

/-! ## Values of parts -/

section Values

variable {K : Type} [Monoid K] [AddCommMonoid K] {term : Terminal → K} {le : K → K → Prop}
variable {a a' : Nat → K} {task : FactorTask} {S : Variable → Split → Prop} {rules : List Rule}

/-- The value of what a split stands for: the full part, and the terminal with the partial
    part behind it. -/
def Split.value (term : Terminal → K) (a : Nat → K) (t : Terminal) (s : Split) : K :=
  ((s.full.map (fun full => a full.id)).getD 0) + term t * a s.part.id

@[simp] theorem Split.value_none {t : Terminal} {part : Variable} :
    Split.value term a t ⟨none, part⟩ = term t * a part.id :=
  zero_add _

@[simp] theorem Split.value_some {t : Terminal} {full part : Variable} :
    Split.value term a t ⟨some full, part⟩ = a full.id + term t * a part.id := rfl

theorem Selects.value_eq {v : Variable} {vars : List Variable} (h : Selects rules v vars)
    (ha : IsValuation term rules a) : a v.id = choiceValue a vars := by
  rcases h with rfl | h
  · rw [choiceValue_cons, choiceValue_nil, add_zero]
  · exact ha.selection_eq h

theorem choiceValue_addUnique_le (hle : Compatible le) (hrepeat : Repeatable le)
    (vars : List Variable) (v : Variable) :
    le (choiceValue a (addUnique vars v)) (choiceValue a vars + a v.id) := by
  by_cases hv : v.id ∈ vars.map (·.id)
  · unfold addUnique
    rw [if_pos (contains_iff_mem_ids.mpr hv)]
    exact hle.choiceValue_le_add hrepeat hv
  · exact hle.of_eq (choiceValue_addUnique vars hv)

theorem Mergeable.value_le {gives : Variable → Variable → Prop} {v y : Variable}
    {rest listed : List Variable} (h : Mergeable le gives (v :: rest) listed)
    (hle : Compatible le) (hy : gives v y) :
    le (choiceValue a (addUnique listed y)) (choiceValue a listed + a y.id) := by
  rcases h with hrepeat | hapart
  · exact choiceValue_addUnique_le hle hrepeat listed y
  · have hnew := hapart.unlisted v (List.mem_cons_self ..) y hy
    exact hle.of_eq (choiceValue_addUnique listed hnew)

/-- A factor in front of a choice is below the choice with the factor in front of every
    alternative. -/
theorem mul_choiceValue_le (hle : Compatible le) (k : K) {vars : List Variable}
    (hne : vars ≠ []) : le (k * choiceValue a vars) (choiceValue (fun i => k * a i) vars) := by
  induction vars with
  | nil => exact absurd rfl hne
  | cons v rest ih =>
    rw [choiceValue_cons, choiceValue_cons]
    by_cases hrest : rest = []
    · rw [hrest, choiceValue_nil, choiceValue_nil, add_zero, add_zero]
      exact hle.refl _
    · exact hle.trans (hle.mul_add_le _ _ _) (hle.add_le_add (hle.refl _) (ih hrest))

/-- The collected parts are worth no more than the alternatives they were made of. -/
theorem Parted.value_le (hle : Compatible le) {t : Terminal}
    {onChain alternatives fulls parts fulls' parts' : List Variable}
    (h : Parted S onChain alternatives fulls parts fulls' parts')
    (hfulls : Mergeable le (GivesFull S onChain) alternatives fulls)
    (hparts : Mergeable le (GivesPart S onChain) alternatives parts)
    (hvars : ∀ v ∈ alternatives, le (a' v.id) (a v.id))
    (hS : ∀ v ∈ alternatives, ∀ s, S v s → le (s.value term a' t) (a v.id)) :
    le (choiceValue a' fulls' + choiceValue (fun i => term t * a' i) parts')
      (choiceValue a' fulls + choiceValue (fun i => term t * a' i) parts +
        choiceValue a alternatives) := by
  -- The lists collected so far change from step to step, so the bound is on what the
  -- remaining alternatives add to them.
  induction h with
  | nil =>
    rw [choiceValue_nil, add_zero]
    exact hle.refl _
  | @aside v rest fulls parts fulls' parts' hoff _ ih =>
    have hgives : GivesFull S onChain v v := Or.inl ⟨hoff, rfl⟩
    refine hle.trans (ih (hfulls.add hgives) hparts.tail
      (fun u hu => hvars u (List.mem_cons_of_mem _ hu))
      (fun u hu => hS u (List.mem_cons_of_mem _ hu))) ?_
    have hadd := hfulls.value_le (a := a') hle hgives
    have hv := hvars v (List.mem_cons_self ..)
    refine hle.trans (hle.add_le_add (hle.add_le_add
      (hle.trans hadd (hle.add_le_add (hle.refl _) hv)) (hle.refl _)) (hle.refl _)) ?_
    rw [choiceValue_cons]
    exact hle.of_eq (by ac_rfl)
  | @through v part rest fulls parts fulls' parts' hon hs _ ih =>
    have hgives : GivesPart S onChain v part := ⟨hon, none, hs⟩
    refine hle.trans (ih hfulls.tail (hparts.add hgives)
      (fun u hu => hvars u (List.mem_cons_of_mem _ hu))
      (fun u hu => hS u (List.mem_cons_of_mem _ hu))) ?_
    have hadd := hparts.value_le (a := fun i => term t * a' i) hle hgives
    have hsplit := hS v (List.mem_cons_self ..) _ hs
    rw [Split.value_none] at hsplit
    refine hle.trans (hle.add_le_add (hle.add_le_add (hle.refl _)
      (hle.trans hadd (hle.add_le_add (hle.refl _) hsplit))) (hle.refl _)) ?_
    rw [choiceValue_cons]
    exact hle.of_eq (by ac_rfl)
  | @both v full part rest fulls parts fulls' parts' hon hs _ ih =>
    have hgives : GivesFull S onChain v full := Or.inr ⟨hon, part, hs⟩
    have hgives' : GivesPart S onChain v part := ⟨hon, some full, hs⟩
    refine hle.trans (ih (hfulls.add hgives) (hparts.add hgives')
      (fun u hu => hvars u (List.mem_cons_of_mem _ hu))
      (fun u hu => hS u (List.mem_cons_of_mem _ hu))) ?_
    have hadd := hfulls.value_le (a := a') hle hgives
    have hadd' := hparts.value_le (a := fun i => term t * a' i) hle hgives'
    have hsplit := hS v (List.mem_cons_self ..) _ hs
    rw [Split.value_some] at hsplit
    refine hle.trans (hle.add_le_add (hle.add_le_add hadd hadd') (hle.refl _)) ?_
    -- The two parts of the alternative have to stand side by side before they can be bounded.
    have hshift : choiceValue a' fulls + a' full.id +
        (choiceValue (fun i => term t * a' i) parts + term t * a' part.id) +
          choiceValue a rest =
        choiceValue a' fulls + choiceValue (fun i => term t * a' i) parts +
          ((a' full.id + term t * a' part.id) + choiceValue a rest) := by
      ac_rfl
    rw [hshift, choiceValue_cons]
    exact hle.add_le_add (hle.refl _) (hle.add_le_add hsplit (hle.refl _))

/-- With the shared terminal read in front of all partial parts at once, they are worth no
    more than the alternatives. -/
theorem Parted.read_value_le (hle : Compatible le) {t : Terminal}
    {onChain alternatives fulls parts : List Variable}
    (h : Parted S onChain alternatives [] [] fulls parts) (hne : parts ≠ [])
    (hfulls : Mergeable le (GivesFull S onChain) alternatives [])
    (hparts : Mergeable le (GivesPart S onChain) alternatives [])
    (hvars : ∀ v ∈ alternatives, le (a' v.id) (a v.id))
    (hS : ∀ v ∈ alternatives, ∀ s, S v s → le (s.value term a' t) (a v.id)) :
    le (choiceValue a' fulls + term t * choiceValue a' parts)
      (choiceValue a alternatives) := by
  have hparted := h.value_le hle hfulls hparts hvars hS
  rw [choiceValue_nil, choiceValue_nil, zero_add, zero_add] at hparted
  exact hle.trans (hle.add_le_add (hle.refl _) (mul_choiceValue_le hle _ hne)) hparted

/-- The parts of a variable are worth no more than the variable, if that is so for the parts
    of the variables that its rule refers to. -/
theorem SplitShape.value_le (hle : Compatible le)
    (ha : IsValuation term task.grammar.rules a) (ha' : IsValuation term rules a')
    {r : Rule} (hr : r ∈ task.grammar.rules)
    (hnodup : (ruleIds task.grammar.rules).Nodup)
    (hvars : ∀ v ∈ r.references, le (a' v.id) (a v.id))
    (hS : ∀ v ∈ r.references, ∀ s, S v s → le (s.value term a' task.target.symbol) (a v.id))
    {v : Variable} (hv : r.lhs.id = v.id) (hmerge : Repeatable le ∨ SplitsApart task S v.id)
    {s : Split} (h : SplitShape task S rules v s) :
    le (s.value term a' task.target.symbol) (a v.id) := by
  -- The shape speaks of some rule of the variable; there is only the given one.
  have hsame : ∀ r' ∈ task.grammar.rules, r'.lhs.id = v.id → r' = r :=
    fun r' hr' hid => eq_of_lhs_id_eq hnodup hr' hr (hid.trans hv.symm)
  have hbehind : ∀ {lhs x rest}, Rule.derivation lhs (x :: rest) ∈ task.grammar.rules →
      lhs.id = v.id → le (sequenceValue term a' rest) (sequenceValue term a rest) := by
    intro lhs x rest hrule hlhs
    obtain rfl := hsame _ hrule hlhs
    refine hle.sequenceValue_le term fun u hu => ?_
    exact hvars u (Rule.mem_references_derivation.mpr (List.mem_cons_of_mem _ hu))
  have hleading : ∀ {lhs w rest s}, Rule.derivation lhs (.var w :: rest) ∈ task.grammar.rules →
      lhs.id = v.id → S w s → le (s.value term a' task.target.symbol) (a w.id) := by
    intro lhs w rest s hrule hlhs hs
    obtain rfl := hsame _ hrule hlhs
    exact hS w (Rule.mem_references_derivation.mpr (List.mem_cons_self ..)) s hs
  rw [← hv, ha r hr]
  cases h with
  | reads hrule hlhs hpart =>
    have hrest := hbehind hrule hlhs
    obtain rfl := hsame _ hrule hlhs
    rw [Split.value_none, ha'.derivation_eq hpart]
    exact hle.mul_le_mul (hle.refl _) hrest
  | @through lhs w below part rest hrule hlhs hbelow hpart =>
    have hrest := hbehind hrule hlhs
    have hsplit := hleading hrule hlhs hbelow
    obtain rfl := hsame _ hrule hlhs
    rw [Split.value_none] at hsplit
    rw [Split.value_none, ha'.derivation_eq hpart]
    show le _ (sequenceValue term a (.var w :: rest))
    rw [sequenceValue_cons, sequenceValue_cons, ← mul_assoc]
    exact hle.mul_le_mul hsplit hrest
  | @both lhs w belowFull below full part rest hrule hlhs hbelow hpart hfull =>
    have hrest := hbehind hrule hlhs
    have hsplit := hleading hrule hlhs hbelow
    obtain rfl := hsame _ hrule hlhs
    rw [Split.value_some] at hsplit
    rw [Split.value_some, ha'.derivation_eq hpart, ha'.derivation_eq hfull]
    show le _ (sequenceValue term a (.var w :: rest))
    -- What stands behind the split variable is the same in both parts.
    rw [sequenceValue_cons, sequenceValue_cons, sequenceValue_cons, ← mul_assoc,
      ← hle.add_mul]
    exact hle.mul_le_mul hsplit hrest
  | choice hrule hlhs hparted hne hpart =>
    -- Without full parts the choice among them has no value.
    obtain ⟨hfulls, hparts⟩ := mergeable_of_rule hmerge hrule hlhs
    obtain rfl := hsame _ hrule hlhs
    have hchoice := hparted.read_value_le hle hne hfulls hparts hvars hS
    rw [choiceValue_nil, zero_add] at hchoice
    rw [Split.value_none, hpart.value_eq ha']
    exact hchoice
  | choices hrule hlhs hparted hne hpart hfull =>
    obtain ⟨hfulls, hparts⟩ := mergeable_of_rule hmerge hrule hlhs
    obtain rfl := hsame _ hrule hlhs
    rw [Split.value_some, hpart.value_eq ha', hfull.value_eq ha']
    exact hparted.read_value_le hle hne hfulls hparts hvars hS

/-- The value of the root out of the values of what its new rule mentions. -/
theorem Rerooted.value_eq {remaining parts : List Variable} {rest : Variable}
    (h : Rerooted task rules remaining rest) (hrest : Selects rules rest parts)
    (ha : IsValuation term rules a) :
    a task.target.root.id =
      choiceValue a remaining + term task.target.symbol * choiceValue a parts := by
  have hread : sequenceValue term a [.term task.target.symbol, .var rest] =
      term task.target.symbol * choiceValue a parts := by
    rw [sequenceValue_cons, sequenceValue_cons, sequenceValue_nil, mul_one,
      ← hrest.value_eq ha]
    rfl
  cases h with
  | replaced hremaining hroot =>
    rw [hremaining, choiceValue_nil, zero_add, ← hread]
    exact ha.derivation_eq hroot
  | offered lead hlead hroot =>
    rw [ha.selection_eq hroot, choiceValue_cons, ha.derivation_eq hlead, hread, add_comm]

end Values

end FluentGrammar
