import FluentGrammar.Grammar.Naming
import FluentGrammar.Grammar.Basic
import FluentGrammar.Proofs.Grammar.Validation

/-! # Variables under other ids

    Exchanging the ids of a valid grammar for others, different ones for different variables,
    gives a valid grammar again. Where names tell the variables apart, the rules keep their
    order, and everything that is printed without ids stays as it was.
-/

namespace FluentGrammar

variable {f : Nat → Nat} {start : Variable} {rules : List Rule} {g : Grammar}

/-! ## Well-formed rules -/

/-- Different variables of the rules get different ids. -/
def KeepsApart (f : Nat → Nat) (rules : List Rule) : Prop :=
  ∀ i ∈ ruleIds rules, ∀ j ∈ ruleIds rules, f i = f j → i = j

theorem ruleIds_renumber (f : Nat → Nat) (rules : List Rule) :
    ruleIds (rules.map (Rule.renumber f)) = (ruleIds rules).map f := by
  simp [ruleIds, Function.comp_def]

theorem Grammar.renumber_mem_ruleIds {i : Nat} (h : i ∈ ruleIds g.rules) :
    f i ∈ ruleIds (g.renumber f).rules := by
  rw [Grammar.renumber, ruleIds_renumber]
  exact List.mem_map_of_mem h

theorem Grammar.exists_of_mem_ruleIds_renumber {j : Nat} (h : j ∈ ruleIds (g.renumber f).rules) :
    ∃ i ∈ ruleIds g.rules, f i = j := by
  rw [Grammar.renumber, ruleIds_renumber] at h
  exact List.mem_map.mp h

theorem Defines.renumber {v : Variable} (h : Defines rules v) :
    Defines (rules.map (Rule.renumber f)) (v.renumber f) := by
  obtain ⟨r, hr, hid⟩ := h
  exact ⟨r.renumber f, List.mem_map_of_mem hr, by simp [hid]⟩

theorem refersTo_renumber {i j : Nat} (h : RefersTo (rules.map (Rule.renumber f)) i j) :
    ∃ i' j', RefersTo rules i' j' ∧ f i' = i ∧ f j' = j := by
  obtain ⟨r', hr', rfl, v', hv', rfl⟩ := h
  obtain ⟨r, hr, rfl⟩ := List.mem_map.mp hr'
  rw [Rule.renumber_references] at hv'
  obtain ⟨v, hv, rfl⟩ := List.mem_map.mp hv'
  exact ⟨r.lhs.id, v.id, refersTo_of_mem hr hv, by simp, rfl⟩

/-- A path under other ids is one of the rules as they were. -/
theorem WellFormed.transGen_renumber (h : WellFormed start rules) (hf : KeepsApart f rules)
    {i j : Nat} (hpath : Relation.TransGen (RefersTo (rules.map (Rule.renumber f))) i j) :
    ∃ i' ∈ ruleIds rules, ∃ j' ∈ ruleIds rules,
      Relation.TransGen (RefersTo rules) i' j' ∧ f i' = i ∧ f j' = j := by
  have hends : ∀ {i j}, RefersTo rules i j → i ∈ ruleIds rules ∧ j ∈ ruleIds rules := by
    intro i j hij
    obtain ⟨r, hr, hri, -⟩ := id hij
    exact ⟨hri ▸ mem_ruleIds_of_mem hr, h.mem_of_refersTo hij⟩
  induction hpath with
  | single hij =>
    obtain ⟨i', j', hij', hi, hj⟩ := refersTo_renumber hij
    exact ⟨i', (hends hij').1, j', (hends hij').2, .single hij', hi, hj⟩
  | tail _ hjk ih =>
    obtain ⟨i', hi', j', hj', hpath', hi, hj⟩ := ih
    obtain ⟨j'', k', hjk', hj'', hk⟩ := refersTo_renumber hjk
    obtain rfl := hf j' hj' j'' (hends hjk').1 (hj.trans hj''.symm)
    exact ⟨i', hi', k', (hends hjk').2, .tail hpath' hjk', hi, hk⟩

theorem WellFormed.renumber (h : WellFormed start rules) (hf : KeepsApart f rules) :
    WellFormed (start.renumber f) (rules.map (Rule.renumber f)) := by
  constructor
  · rw [distinct_iff_nodup, ruleIds_renumber]
    exact h.nodup_ruleIds.map_on hf
  · exact h.start_defined.renumber
  · intro lhs' alternatives' hmem
    obtain ⟨r, hr, heq⟩ := List.mem_map.mp hmem
    cases r with
    | derivation lhs rhs => cases heq
    | selection lhs alternatives =>
      cases heq
      obtain ⟨hlength, hdistinct⟩ := h.selections lhs alternatives hr
      refine ⟨by rw [List.length_map]; exact hlength, ?_⟩
      unfold Distinct at hdistinct ⊢
      rw [List.pairwise_map]
      refine hdistinct.imp_of_mem fun {v w} hv hw hne heq => hne ?_
      exact hf _ (defines_iff_mem_ruleIds.mp (h.closed _ hr v hv)) _
        (defines_iff_mem_ruleIds.mp (h.closed _ hr w hw)) heq
  · intro r' hr' v' hv'
    obtain ⟨r, hr, rfl⟩ := List.mem_map.mp hr'
    rw [Rule.renumber_references] at hv'
    obtain ⟨v, hv, rfl⟩ := List.mem_map.mp hv'
    exact (h.closed r hr v hv).renumber
  · intro i hi
    -- A circle among the new ids is one among the old ids, as none of them fall together.
    obtain ⟨i', hi', j', hj', hpath, hfi, hfj⟩ := h.transGen_renumber hf hi
    obtain rfl := hf i' hi' j' hj' (hfi.trans hfj.symm)
    exact h.acyclic i' hpath

/-! ## Rules in the order of names -/

/-- Variables of different names are in order by their names. -/
theorem compare_variable_of_ne {v w : Variable} (h : v.name ≠ w.name) :
    compare v w = compare v.name w.name := by
  show (compare v.name w.name).then (compare v.id w.id) = _
  cases hcmp : compare v.name w.name with
  | eq => exact absurd (Std.LawfulEqOrd.eq_of_compare hcmp) h
  | lt => rfl
  | gt => rfl

theorem keyLe_renumber {r s : Rule} (h : r.lhs.name ≠ s.lhs.name) :
    keyLe Rule.lhs (r.renumber f) (s.renumber f) = keyLe Rule.lhs r s := by
  unfold keyLe
  rw [Rule.renumber_lhs, Rule.renumber_lhs, compare_variable_of_ne h,
    compare_variable_of_ne (by simpa using h)]
  rfl

/-- The variables that rules belong to have different names. -/
theorem Grammar.Valid.name_ne (hg : g.Valid) (hnames : ToldByName g.occurrences) :
    g.rules.Pairwise (fun r s => r.lhs.name ≠ s.lhs.name) := by
  have hids := List.pairwise_map.mp hg.well_formed.nodup_ruleIds
  refine hids.imp_of_mem fun hr hs hne hname => hne ?_
  exact hnames _ (Grammar.lhs_mem_occurrences hr) _ (Grammar.lhs_mem_occurrences hs) hname

theorem Grammar.Valid.nodup_names (hg : g.Valid) (hnames : ToldByName g.occurrences) :
    (g.vars.map (·.name)).Nodup := by
  rw [Grammar.vars, List.map_map, List.Nodup, List.pairwise_map]
  exact hg.name_ne hnames

theorem Grammar.Valid.pairwise_keyLe (hg : g.Valid) :
    g.rules.Pairwise (fun r s => keyLe Rule.lhs r s = true) := by
  have hsorted := pairwise_sortOn Rule.lhs g.rules
  rwa [show sortOn Rule.lhs g.rules = g.rules from hg.ordered] at hsorted

theorem pairwise_keyLe_renumber (hg : g.Valid) (hnames : ToldByName g.occurrences) :
    (g.rules.map (Rule.renumber f)).Pairwise (fun r s => keyLe Rule.lhs r s = true) := by
  rw [List.pairwise_map]
  refine ((hg.name_ne hnames).and hg.pairwise_keyLe).imp fun hand => ?_
  rw [keyLe_renumber hand.1]
  exact hand.2

/-- A valid grammar whose variables have different names is valid under other ids. -/
theorem Grammar.Valid.renumber (hg : g.Valid) (hnames : ToldByName g.occurrences)
    (hf : KeepsApart f g.rules) : (g.renumber f).Valid where
  well_formed := hg.well_formed.renumber hf
  ordered := sortOn_of_pairwise (pairwise_keyLe_renumber hg hnames)

/-- Under other ids the rules are sorted in the order that they had, however they come. -/
theorem Grammar.Valid.sortRules_renumber {rules' : List Rule} (hg : g.Valid)
    (hnames : ToldByName g.occurrences) (hf : KeepsApart f g.rules)
    (hperm : rules'.Perm (g.rules.map (Rule.renumber f))) :
    sortRules rules' = g.rules.map (Rule.renumber f) := by
  have hg' := hg.renumber hnames hf
  exact sortRules_of_perm hg'.well_formed.nodup_ruleIds hg'.ordered hperm

/-- Under other ids the rules make the grammar under these ids, however they come. -/
theorem Grammar.Valid.ofRules_renumber {rules' : List Rule} (hg : g.Valid)
    (hnames : ToldByName g.occurrences) (hf : KeepsApart f g.rules)
    (hperm : rules'.Perm (g.rules.map (Rule.renumber f))) :
    Grammar.ofRules (g.start.renumber f) rules' = .ok (g.renumber f) := by
  rw [Grammar.ofRules_eq_ok, hg.sortRules_renumber hnames hf hperm]
  exact ⟨(hg.renumber hnames hf).well_formed.perm hperm.symm, rfl⟩

/-! ## What is printed -/

theorem Grammar.rulesStartFirst_renumber (hg : g.Valid) (hf : KeepsApart f g.rules) :
    (g.renumber f).rulesStartFirst = g.rulesStartFirst.map (Rule.renumber f) := by
  have hsame : ∀ r ∈ g.rules, ((r.renumber f).lhs == g.start.renumber f) = (r.lhs == g.start) := by
    intro r hr
    rw [Bool.eq_iff_iff, Variable.beq_iff, Variable.beq_iff, Rule.renumber_lhs]
    constructor
    · exact hf _ (mem_ruleIds_of_mem hr) _ hg.start_mem
    · intro heq
      simp [heq]
  unfold Grammar.rulesStartFirst Grammar.renumber
  simp only [List.map_append, List.filter_map]
  congr 2
  · exact List.filter_congr hsame
  · exact List.filter_congr fun r hr => congrArg (!·) (hsame r hr)

/-- The text of a grammar does not show ids. -/
theorem Grammar.text_renumber (hg : g.Valid) (hf : KeepsApart f g.rules) :
    (g.renumber f).text = g.text := by
  have hlines : (g.renumber f).textLines = g.textLines := by
    unfold Grammar.textLines
    rw [Grammar.rulesStartFirst_renumber hg hf, List.map_map]
    congr 1
    exact List.map_congr_left fun r _ => Rule.renumber_text r
  unfold Grammar.text
  rw [hlines]

end FluentGrammar
