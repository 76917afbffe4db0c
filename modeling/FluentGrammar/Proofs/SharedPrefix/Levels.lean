import FluentGrammar.Proofs.SharedPrefix.Outcome

/-! # Factored rules are well formed

    References of the new rules lead down as those of the old ones do. A made variable stands
    on the level of the variable that it was split from; what the root brings fits in right
    below the root, above everything that the root offered before. So no path of references
    comes back, and the new rules make a grammar.
-/

namespace FluentGrammar

variable {task : FactorTask} {s : Session} {alternatives : List Variable} {tag : Tag}
variable {bench : Workbench} {o : Outcome} {made : List Made}

/-! ## What new rules refer to -/

theorem GivenFor.congr {v w y : Variable} (h : GivenFor task made v y) (hid : v.id = w.id) :
    GivenFor task made w y :=
  ⟨h.ruled, hid ▸ h.stem⟩

/-- A variable is given for something that a rule of the grammar refers to. -/
def GivenBelow (task : FactorTask) (made : List Made) (i : Nat) (y : Variable) : Prop :=
  ∃ u : Variable, RefersTo task.grammar.rules i u.id ∧ GivenFor task made u y

section Below

variable {b : Workbench}

/-- What stands in the rule of a variable is given for itself. -/
theorem Workbench.Traced.below_self (h : b.Traced task s made) (hg : task.grammar.Valid)
    (hbefore : task.Before s) {v y : Variable} {r : Rule}
    (hrule : task.grammar.rule? v = some r) (hy : y ∈ r.references) :
    GivenBelow task made v.id y := by
  refine ⟨y, ?_, h.given_self hbefore (mem_ruleIds_of_reference hg hrule hy)⟩
  rw [← Grammar.lhs_of_rule? hrule]
  exact refersTo_of_mem (Grammar.mem_of_rule? hrule) hy

/-- What is given for one of the alternatives of a selection is given below it. -/
theorem GivenFor.below {v lhs u y : Variable}
    (hrule : task.grammar.rule? v = some (.selection lhs alternatives)) (hu : u ∈ alternatives)
    (h : GivenFor task made u y) : GivenBelow task made v.id y := by
  refine ⟨u, ?_, h⟩
  rw [← Grammar.lhs_of_rule? hrule]
  exact refersTo_of_mem (Grammar.mem_of_rule? hrule) hu

theorem refersTo_leading {v lhs w : Variable} {rest : List Symbol}
    (hrule : task.grammar.rule? v = some (.derivation lhs (.var w :: rest))) :
    RefersTo task.grammar.rules v.id w.id := by
  rw [← Grammar.lhs_of_rule? hrule]
  exact refersTo_of_mem (Grammar.mem_of_rule? hrule) (Rule.leading_mem_references ..)

/-- The rule of a made variable refers to what is given below the variable that it was split
    from. -/
theorem Workbench.Traced.given_below (h : b.Traced task s made) (hg : task.grammar.Valid)
    (hbefore : task.Before s) {m : Made} (hm : m ∈ made) :
    ∀ y ∈ m.rule.references, GivenBelow task made m.source.id y := by
  intro y hy
  cases h.explained m hm with
  | part hrule _ _ _ _ hbody =>
    -- The rule gets a name of its own, so that its shape can be told from how it was made.
    generalize hq : m.rule = q at hbody hy
    cases hbody with
    | reads =>
      refine h.below_self hg hbefore hrule ?_
      rw [Rule.mem_references_derivation] at hy ⊢
      exact List.mem_cons_of_mem _ hy
    | leading hs =>
      rcases List.mem_cons.mp (Rule.mem_references_derivation.mp hy) with heq | hy
      · cases heq
        obtain ⟨w, hw, hid⟩ := hs
        exact ⟨_, refersTo_leading hrule, (h.placed w _ hw).part.congr hid⟩
      · refine h.below_self hg hbefore hrule ?_
        rw [Rule.mem_references_derivation]
        exact List.mem_cons_of_mem _ hy
    | choice hparted =>
      obtain ⟨u, hu, hgiven, -⟩ := (h.exists_given hg hbefore hrule hparted).2 y hy
      exact hgiven.below hrule hu
  | full hrule _ _ _ hbody =>
    generalize hq : m.rule = q at hbody hy
    cases hbody with
    | leading hs hfull =>
      rcases List.mem_cons.mp (Rule.mem_references_derivation.mp hy) with heq | hy
      · cases heq
        obtain ⟨w, hw, hid⟩ := hs
        exact ⟨_, refersTo_leading hrule, ((h.placed w _ hw).full _ hfull).congr hid⟩
      · refine h.below_self hg hbefore hrule ?_
        rw [Rule.mem_references_derivation]
        exact List.mem_cons_of_mem _ hy
    | choice hparted =>
      obtain ⟨u, hu, hgiven⟩ := (h.exists_given hg hbefore hrule hparted).1 y hy
      exact hgiven.below hrule hu

end Below

/-! ## Variables of the outcome -/

section Ids

/-- What is given for a variable is not what the root brings. -/
theorem Outcome.Of.not_crafted (h : o.Of task s alternatives tag bench)
    (hbefore : task.Before s) {v y : Variable} (hy : GivenFor task o.made v y) :
    y.id ∉ o.crafted.map Made.id := by
  intro hmem
  rcases hy.ruled with hold | hmade
  · have hlt := hbefore _ hold
    have hle := h.issued_le (i := y.id) (by
      rw [List.map_append]
      exact List.mem_append_right _ hmem)
    omega
  · have hnodup := h.nodup_ids
    rw [List.map_append] at hnodup
    exact (List.nodup_append.mp hnodup).2.2 _ hmade _ hmem rfl

/-- The variables of a factored grammar are those of the grammar and the new ones. -/
theorem Outcome.Of.mem_replaced (h : o.Of task s alternatives tag bench)
    (hroot : task.target.root.id ∈ ruleIds task.grammar.rules) {i : Nat} :
    i ∈ ruleIds (task.grammar.rootReplaced task.target.root bench.rules) ↔
      i ∈ ruleIds task.grammar.rules ∨ i ∈ (o.made ++ o.crafted).map Made.id := by
  have hbench : ruleIds bench.rules =
      (o.made ++ o.crafted).map Made.id ++ [task.target.root.id] := by
    rw [h.rules_eq, ruleIds_append]
    unfold ruleIds
    rw [List.map_map, List.map_singleton, h.rooted.lhs_root]
    rfl
  rw [Grammar.mem_ruleIds_rootReplaced, hbench, List.mem_append, List.mem_singleton]
  constructor
  · intro hi
    rcases hi with hi | hi | hi
    · exact Or.inl hi.1
    · exact Or.inr hi
    · exact Or.inl (hi ▸ hroot)
  · intro hi
    -- The root loses its rule and is given another one, so its id stays.
    by_cases heq : i = task.target.root.id
    · exact Or.inr (Or.inr heq)
    · exact hi.imp (fun hi => ⟨hi, heq⟩) Or.inl

theorem Outcome.Of.nodup_ruleIds (h : o.Of task s alternatives tag bench)
    (hg : task.grammar.Valid) (hbefore : task.Before s)
    (hroot : task.target.root.id ∈ ruleIds task.grammar.rules) :
    (ruleIds (task.grammar.rootReplaced task.target.root bench.rules)).Nodup := by
  have hlt := hbefore _ hroot
  unfold Grammar.rootReplaced
  rw [ruleIds_append, h.rules_eq, ruleIds_append]
  have hmade : ruleIds ((o.made ++ o.crafted).map (·.rule)) =
      (o.made ++ o.crafted).map Made.id := by
    unfold ruleIds
    rw [List.map_map]
    rfl
  have hlast : ruleIds [o.root] = [task.target.root.id] := by
    unfold ruleIds
    rw [List.map_singleton, h.rooted.lhs_root]
  rw [hmade, hlast]
  refine List.nodup_append.mpr ⟨?_, List.nodup_append.mpr
    ⟨h.nodup_ids, List.nodup_singleton _, ?_⟩, ?_⟩
  · exact (List.filter_sublist.map _).nodup hg.well_formed.nodup_ruleIds
  · intro i hi j hj heq
    have hle := h.issued_le hi
    rw [List.mem_singleton] at hj
    omega
  · -- The kept rules are old, and the root is not among them.
    intro i hi j hj heq
    obtain ⟨r, hr, rfl⟩ := mem_ruleIds.mp hi
    obtain ⟨hr, hne⟩ := List.mem_filter.mp hr
    rcases List.mem_append.mp hj with hj | hj
    · have hold := hbefore _ (mem_ruleIds_of_mem hr)
      have hle := h.issued_le hj
      omega
    · rw [List.mem_singleton] at hj
      exact Variable.bne_iff.mp hne (heq.trans hj)

end Ids

/-! ## Levels -/

/-- The distance from the root at which a variable is put that the root brings. -/
def Made.depth (m : Made) : Nat :=
  if m.rule.isSelection then 2 else 1

theorem Made.depth_of_selection {m : Made} {v : Variable} {vars : List Variable}
    (h : m.rule = .selection v vars) : m.depth = 2 := by
  rw [Made.depth, h]
  rfl

theorem Made.depth_of_derivation {m : Made} {v : Variable} {rhs : List Symbol}
    (h : m.rule = .derivation v rhs) : m.depth = 1 := by
  rw [Made.depth, h]
  rfl

/-- The level of a variable: three times the rank of where it comes from, which leaves room
    below the root for what the root brings. -/
noncomputable def Outcome.level (task : FactorTask) (o : Outcome) (i : Nat) : Nat :=
  match o.crafted.find? (fun m => m.id == i) with
  | some m => 3 * rank task.grammar.rules task.target.root.id - m.depth
  | none => 3 * rank task.grammar.rules (sourceOf o.made i)

section Levels

theorem Outcome.level_of_not_crafted {i : Nat} (hi : i ∉ o.crafted.map Made.id) :
    o.level task i = 3 * rank task.grammar.rules (sourceOf o.made i) := by
  unfold Outcome.level
  rw [find?_made_eq_none hi]

theorem Outcome.Of.level_crafted (h : o.Of task s alternatives tag bench) {m : Made}
    (hm : m ∈ o.crafted) :
    o.level task m.id = 3 * rank task.grammar.rules task.target.root.id - m.depth := by
  have hnodup := h.nodup_ids
  rw [List.map_append] at hnodup
  unfold Outcome.level
  rw [find?_made_eq_some (List.nodup_append.mp hnodup).2.1 hm]

theorem Outcome.Of.level_given (h : o.Of task s alternatives tag bench)
    (hg : task.grammar.Valid) (hbefore : task.Before s) {v y : Variable}
    (hy : GivenFor task o.made v y) : o.level task y.id ≤ 3 * rank task.grammar.rules v.id := by
  rw [Outcome.level_of_not_crafted (h.not_crafted hbefore hy)]
  have hle := hy.stem.rank_le hg
  omega

theorem Outcome.Of.level_below (h : o.Of task s alternatives tag bench)
    (hg : task.grammar.Valid) (hbefore : task.Before s) {i : Nat} {y : Variable}
    (hy : GivenBelow task o.made i y) :
    o.level task y.id + 3 ≤ 3 * rank task.grammar.rules i := by
  obtain ⟨u, hu, hgiven⟩ := hy
  have hle := h.level_given hg hbefore hgiven
  have hlt := hg.well_formed.rank_lt hu
  omega

theorem Outcome.Of.level_old (h : o.Of task s alternatives tag bench)
    (hbefore : task.Before s) {i : Nat} (hi : i ∈ ruleIds task.grammar.rules) :
    o.level task i = 3 * rank task.grammar.rules i := by
  have hlt := hbefore i hi
  have hnew : i ∉ (o.made ++ o.crafted).map Made.id := by
    intro hmem
    have hle := h.issued_le hmem
    omega
  rw [List.map_append, List.mem_append, not_or] at hnew
  rw [Outcome.level_of_not_crafted hnew.2, sourceOf_of_not_mem hnew.1]

theorem Outcome.Of.level_made (h : o.Of task s alternatives tag bench) {m : Made}
    (hm : m ∈ o.made) : o.level task m.id = 3 * rank task.grammar.rules m.source.id := by
  have hnodup := h.nodup_ids
  rw [List.map_append] at hnodup
  obtain ⟨hmade, -, hdisjoint⟩ := List.nodup_append.mp hnodup
  rw [Outcome.level_of_not_crafted, sourceOf_of_mem hmade hm]
  exact fun hmem => hdisjoint _ (List.mem_map_of_mem hm) _ hmem rfl

end Levels

/-! ## The new grammar -/

section WellFormed

variable {lhs : Variable}

/-- What the alternatives of the root give is given below it. -/
theorem Outcome.Of.given_below_root (h : o.Of task s alternatives tag bench)
    (hg : task.grammar.Valid) (hbefore : task.Before s)
    (hrule : task.grammar.rule? task.target.root = some (.selection lhs alternatives)) :
    (∀ y ∈ o.remaining, GivenBelow task o.made task.target.root.id y) ∧
      ∀ y ∈ o.parts, GivenBelow task o.made task.target.root.id y := by
  obtain ⟨b, hsplits, hb⟩ := h.traced
  have hparted := h.parted
  rw [← hsplits] at hparted
  obtain ⟨hremaining, hparts⟩ := hb.exists_given hg hbefore hrule hparted
  constructor
  · intro y hy
    obtain ⟨u, hu, hgiven⟩ := hremaining y hy
    exact hgiven.below hrule hu
  · intro y hy
    obtain ⟨u, hu, hgiven, -⟩ := hparts y hy
    exact hgiven.below hrule hu

/-- What a new rule refers to has a rule, on a lower level. -/
structure Outcome.Lowers (task : FactorTask) (o : Outcome) (i : Nat) (y : Variable) : Prop where
  ruled : y.id ∈ ruleIds task.grammar.rules ∨ y.id ∈ (o.made ++ o.crafted).map Made.id
  level_lt : o.level task y.id < o.level task i

theorem GivenBelow.ruled {i : Nat} {y : Variable} (h : GivenBelow task o.made i y) :
    y.id ∈ ruleIds task.grammar.rules ∨ y.id ∈ (o.made ++ o.crafted).map Made.id := by
  obtain ⟨u, -, hgiven⟩ := h
  rw [List.map_append]
  exact hgiven.ruled.imp_right (List.mem_append_left _)

/-- The variable for the partial parts stands two levels below the root or lower. -/
theorem Outcome.Of.rest_lowers (h : o.Of task s alternatives tag bench)
    (hg : task.grammar.Valid) (hbefore : task.Before s)
    (hrule : task.grammar.rule? task.target.root = some (.selection lhs alternatives)) :
    (o.rest.id ∈ ruleIds task.grammar.rules ∨
        o.rest.id ∈ (o.made ++ o.crafted).map Made.id) ∧
      o.level task o.rest.id + 2 ≤ 3 * rank task.grammar.rules task.target.root.id := by
  have hparts := (h.given_below_root hg hbefore hrule).2
  rcases h.rest with hone | ⟨m, hm, hrest⟩
  · have hgiven := hparts o.rest (hone ▸ List.mem_singleton.mpr rfl)
    have hlevel := h.level_below hg hbefore hgiven
    exact ⟨hgiven.ruled, by omega⟩
  · have hid : o.rest.id = m.id := by rw [Made.id, hrest]; rfl
    have hmem : m.id ∈ (o.made ++ o.crafted).map Made.id :=
      List.mem_map_of_mem (List.mem_append_right _ hm)
    -- The root has alternatives, so its rank is not zero.
    have hpos : 0 < rank task.grammar.rules task.target.root.id := by
      have htwo := (hg.well_formed.selections lhs alternatives (Grammar.mem_of_rule? hrule)).1
      obtain ⟨u, hu⟩ := List.exists_mem_of_length_pos (show 0 < alternatives.length by omega)
      have hrefers := refersTo_of_mem (Grammar.mem_of_rule? hrule) hu
      rw [Grammar.lhs_of_rule? hrule] at hrefers
      have hlt := hg.well_formed.rank_lt hrefers
      omega
    rw [hid, h.level_crafted hm, Made.depth_of_selection hrest]
    exact ⟨Or.inr hmem, by omega⟩

/-- What is given below a variable stands three levels below it. -/
theorem Outcome.Of.lowers_given (h : o.Of task s alternatives tag bench)
    (hg : task.grammar.Valid) (hbefore : task.Before s) {i j : Nat} {y : Variable}
    (hy : GivenBelow task o.made i y)
    (hlevel : 3 * rank task.grammar.rules i ≤ o.level task j + 2) : o.Lowers task j y := by
  have hbelow := h.level_below hg hbefore hy
  exact ⟨hy.ruled, by omega⟩

/-- The rule that reads the shared terminal lowers wherever it stands, at the root or right
    below it. -/
theorem Outcome.Of.lowers_lead (h : o.Of task s alternatives tag bench)
    (hg : task.grammar.Valid) (hbefore : task.Before s)
    (hrule : task.grammar.rule? task.target.root = some (.selection lhs alternatives))
    {i : Nat} (hlevel : 3 * rank task.grammar.rules task.target.root.id ≤ o.level task i + 1)
    {v : Variable} :
    ∀ y ∈ (Rule.derivation v (task.leadBody o.rest)).references, o.Lowers task i y := by
  obtain ⟨hrest, hrestLevel⟩ := h.rest_lowers hg hbefore hrule
  intro y hy
  rw [Rule.mem_references_derivation] at hy
  obtain rfl : y = o.rest := by simpa [FactorTask.leadBody] using hy
  exact ⟨hrest, by omega⟩

theorem Outcome.Of.lowers_old (h : o.Of task s alternatives tag bench)
    (hg : task.grammar.Valid) (hbefore : task.Before s) {r : Rule} (hr : r ∈ task.grammar.rules) :
    ∀ y ∈ r.references, o.Lowers task r.lhs.id y := by
  intro y hy
  have hrefers := refersTo_of_mem hr hy
  have hyid := hg.well_formed.mem_of_refersTo hrefers
  have hlt := hg.well_formed.rank_lt hrefers
  refine ⟨Or.inl hyid, ?_⟩
  rw [h.level_old hbefore (mem_ruleIds_of_mem hr), h.level_old hbefore hyid]
  omega

theorem Outcome.Of.lowers_made (h : o.Of task s alternatives tag bench)
    (hg : task.grammar.Valid) (hbefore : task.Before s) {m : Made} (hm : m ∈ o.made) :
    ∀ y ∈ m.rule.references, o.Lowers task m.id y := by
  obtain ⟨b, -, hb⟩ := h.traced
  intro y hy
  refine h.lowers_given hg hbefore (hb.given_below hg hbefore hm y hy) ?_
  rw [h.level_made hm]
  omega

theorem Outcome.Of.lowers_crafted (h : o.Of task s alternatives tag bench)
    (hg : task.grammar.Valid) (hbefore : task.Before s)
    (hrule : task.grammar.rule? task.target.root = some (.selection lhs alternatives))
    {m : Made} (hm : m ∈ o.crafted) : ∀ y ∈ m.rule.references, o.Lowers task m.id y := by
  have hlevel := h.level_crafted hm
  cases h.crafted m hm with
  | rest _ hselection =>
    rw [Made.depth_of_selection hselection] at hlevel
    rw [hselection]
    intro y hy
    exact h.lowers_given hg hbefore ((h.given_below_root hg hbefore hrule).2 y hy) (by omega)
  | lead _ hlead =>
    rw [Made.depth_of_derivation hlead] at hlevel
    rw [hlead]
    exact h.lowers_lead hg hbefore hrule (by omega)

theorem Outcome.Of.lowers_root (h : o.Of task s alternatives tag bench)
    (hg : task.grammar.Valid) (hbefore : task.Before s)
    (hrule : task.grammar.rule? task.target.root = some (.selection lhs alternatives)) :
    ∀ y ∈ o.root.references, o.Lowers task task.target.root.id y := by
  have hroot := h.level_old hbefore (mem_ruleIds_of_rule? hrule)
  cases h.rooted with
  | replaced _ _ hderivation =>
    rw [hderivation]
    exact h.lowers_lead hg hbefore hrule (by omega)
  | @offered lead _ hm hlead hselection =>
    rw [hselection]
    intro y hy
    rcases List.mem_cons.mp hy with rfl | hy
    · -- The rank of the root is not zero, for the new alternative lowers in turn.
      have hrank := (h.rest_lowers hg hbefore hrule).2
      have hlevel := h.level_crafted hm
      rw [Made.depth_of_derivation hlead] at hlevel
      refine ⟨Or.inr (List.mem_map_of_mem (List.mem_append_right _ hm)), ?_⟩
      rw [show lead.rule.lhs.id = lead.id from rfl]
      omega
    · exact h.lowers_given hg hbefore ((h.given_below_root hg hbefore hrule).1 y hy) (by omega)

/-- All references of the rules that replace those of the grammar lead to lower levels. -/
theorem Outcome.Of.lowers (h : o.Of task s alternatives tag bench)
    (hg : task.grammar.Valid) (hbefore : task.Before s)
    (hrule : task.grammar.rule? task.target.root = some (.selection lhs alternatives)) :
    ∀ r ∈ task.grammar.rootReplaced task.target.root bench.rules, ∀ y ∈ r.references,
      o.Lowers task r.lhs.id y := by
  intro r hr
  rcases Grammar.mem_rootReplaced.mp hr with ⟨hr, -⟩ | hr
  · exact h.lowers_old hg hbefore hr
  · rw [h.rules_eq, List.mem_append, List.mem_map, List.mem_singleton] at hr
    rcases hr with ⟨m, hm, rfl⟩ | rfl
    · rcases List.mem_append.mp hm with hm | hm
      · exact h.lowers_made hg hbefore hm
      · exact h.lowers_crafted hg hbefore hrule hm
    · rw [h.rooted.lhs_root]
      exact h.lowers_root hg hbefore hrule

/-- The selections among the new rules have two or more alternatives, all different. -/
theorem Outcome.Of.selections (h : o.Of task s alternatives tag bench)
    (hg : task.grammar.Valid) (hbefore : task.Before s)
    (hrule : task.grammar.rule? task.target.root = some (.selection lhs alternatives))
    (hparts : o.parts ≠ []) {v : Variable} {vars : List Variable}
    (hr : Rule.selection v vars ∈ bench.rules) : 2 ≤ vars.length ∧ Distinct vars := by
  have hempty : Distinct [] := List.Pairwise.nil
  obtain ⟨hremaining, hdistinct⟩ := h.parted.distinct hempty hempty
  rw [h.rules_eq, List.mem_append, List.mem_map, List.mem_singleton] at hr
  rcases hr with ⟨m, hm, hm'⟩ | hr
  · rcases List.mem_append.mp hm with hm | hm
    · cases h.explained m hm with
      | part _ _ _ _ _ hbody =>
        rw [hm'] at hbody
        cases hbody with
        | choice hparted htwo => exact ⟨htwo, (hparted.distinct hempty hempty).2⟩
      | full _ _ _ _ hbody =>
        rw [hm'] at hbody
        cases hbody with
        | choice hparted htwo => exact ⟨htwo, (hparted.distinct hempty hempty).1⟩
    · cases h.crafted m hm with
      | rest _ hrule' hone =>
        rw [hm'] at hrule'
        cases hrule'
        exact ⟨two_le_length hparts hone, hdistinct⟩
      | lead _ hrule' =>
        rw [hm'] at hrule'
        cases hrule'
  · cases h.rooted with
    | replaced _ _ hroot =>
      rw [hroot] at hr
      cases hr
    | @offered lead hne hm _ hroot =>
      rw [hroot] at hr
      cases hr
      have hpos := List.length_pos_iff.mpr hne
      refine ⟨by rw [List.length_cons]; omega, List.pairwise_cons.mpr ⟨?_, hremaining⟩⟩
      -- The new alternative has just been made, so it is none of the remaining ones.
      intro y hy hid
      obtain ⟨u, -, hgiven⟩ := (h.given_below_root hg hbefore hrule).1 y hy
      apply h.not_crafted hbefore hgiven
      rw [← hid]
      exact List.mem_map_of_mem hm

/-- Whatever the chains are, factoring leaves rules that refer to one another as they should. -/
theorem Outcome.Of.linked (h : o.Of task s alternatives tag bench) (hg : task.grammar.Valid)
    (hbefore : task.Before s)
    (hrule : task.grammar.rule? task.target.root = some (.selection lhs alternatives)) :
    WellLinked task.grammar.start
      (task.grammar.rootReplaced task.target.root bench.rules) := by
  have hroot := mem_ruleIds_of_rule? hrule
  have hlowers := h.lowers hg hbefore hrule
  constructor
  · rw [distinct_iff_nodup]
    exact h.nodup_ruleIds hg hbefore hroot
  · rw [defines_iff_mem_ruleIds, h.mem_replaced hroot]
    exact Or.inl (defines_iff_mem_ruleIds.mp hg.well_formed.start_defined)
  · intro r hr y hy
    rw [defines_iff_mem_ruleIds, h.mem_replaced hroot]
    exact (hlowers r hr y hy).ruled
  · exact acyclic_of_levels (o.level task) fun r hr y hy => (hlowers r hr y hy).level_lt

/-- What factoring leaves are the rules of a grammar, if there are partial parts. -/
theorem Outcome.Of.wellFormed (h : o.Of task s alternatives tag bench)
    (hg : task.grammar.Valid) (hbefore : task.Before s)
    (hrule : task.grammar.rule? task.target.root = some (.selection lhs alternatives))
    (hparts : o.parts ≠ []) :
    WellFormed task.grammar.start
      (task.grammar.rootReplaced task.target.root bench.rules) := by
  refine (h.linked hg hbefore hrule).wellFormed fun v vars hr => ?_
  rcases Grammar.mem_rootReplaced.mp hr with ⟨hr, -⟩ | hr
  · exact hg.well_formed.selections v vars hr
  · exact h.selections hg hbefore hrule hparts hr

end WellFormed

end FluentGrammar
