import FluentGrammar.Grammar.Validation
import FluentGrammar.Proofs.Grammar.Acyclicity
import FluentGrammar.Proofs.Grammar.Order

/-! # Validation decides well-formedness

    A start variable and rules have no fault exactly when they are well formed. The search
    for circles is the part with an argument: the variables that it has done with are
    settled, which means that each refers only to variables that were settled before, and a
    reference back into the path closes a circle.
-/

namespace FluentGrammar

/-! ## Repeated variables and single rules -/

theorem firstRepeated_go_eq_none {seen vars : List Variable} :
    firstRepeated.go seen vars = none ↔
      (∀ v ∈ vars, ∀ u ∈ seen, u.id ≠ v.id) ∧ Distinct vars := by
  -- What has been seen grows along the list, so a variable is compared with all those before it.
  induction vars generalizing seen with
  | nil => simp [firstRepeated.go, Distinct]
  | cons v rest ih =>
    simp only [firstRepeated.go, Distinct, List.pairwise_cons]
    by_cases hv : seen.contains v = true
    · rw [if_pos hv]
      obtain ⟨u, hu, huv⟩ := List.contains_iff_exists_mem_beq.mp hv
      have huv' : u.id = v.id := (Variable.beq_iff.mp huv).symm
      simp only [reduceCtorEq, false_iff, not_and]
      intro hall
      exact absurd huv' (hall v (List.mem_cons_self ..) u hu)
    · rw [if_neg hv, ih]
      have hseen : ∀ u ∈ seen, u.id ≠ v.id := by
        intro u hu huv
        exact hv (List.contains_iff_exists_mem_beq.mpr ⟨u, hu, Variable.beq_iff.mpr huv.symm⟩)
      constructor
      · intro hand
        obtain ⟨hrest, hdistinct⟩ := hand
        refine ⟨?_, fun w hw => hrest w hw v (List.mem_cons_self ..), hdistinct⟩
        intro w hw u hu
        rcases List.mem_cons.mp hw with rfl | hw
        · exact hseen u hu
        · exact hrest w hw u (List.mem_cons_of_mem _ hu)
      · intro hand
        obtain ⟨hall, hv', hdistinct⟩ := hand
        refine ⟨?_, hdistinct⟩
        intro w hw u hu
        rcases List.mem_cons.mp hu with rfl | hu
        · exact hv' w hw
        · exact hall w (List.mem_cons_of_mem _ hw) u hu

theorem firstRepeated_eq_none {vars : List Variable} :
    firstRepeated vars = none ↔ Distinct vars := by
  unfold firstRepeated
  rw [firstRepeated_go_eq_none]
  simp

theorem Rule.isMalformed_eq_false {lhs : Variable} {alternatives : List Variable} :
    (Rule.selection lhs alternatives).isMalformed = false ↔
      2 ≤ alternatives.length ∧ Distinct alternatives := by
  unfold isMalformed
  rw [Bool.or_eq_false_iff, Option.isSome_eq_false_iff, Option.isNone_iff_eq_none,
    firstRepeated_eq_none, decide_eq_false_iff_not, Nat.not_lt]

theorem Rule.danglingReference_eq_none {rules : List Rule} {r : Rule} :
    Rule.danglingReference rules r = none ↔ ∀ v ∈ r.references, Defines rules v := by
  unfold danglingReference
  simp [Defines]

theorem malformed_eq_none {rules : List Rule} :
    rules.find? Rule.isMalformed = none ↔
      ∀ lhs alternatives, Rule.selection lhs alternatives ∈ rules →
        2 ≤ alternatives.length ∧ Distinct alternatives := by
  rw [List.find?_eq_none]
  constructor
  · intro h lhs alternatives hmem
    exact Rule.isMalformed_eq_false.mp (by simpa using h _ hmem)
  · intro h r hr
    cases r with
    | derivation lhs rhs => simp [Rule.isMalformed]
    | selection lhs alternatives =>
      rw [Rule.isMalformed_eq_false.mpr (h lhs alternatives hr)]
      simp

theorem dangling_eq_none {rules : List Rule} :
    rules.findSome? (Rule.danglingReference rules) = none ↔
      ∀ r ∈ rules, ∀ v ∈ r.references, Defines rules v := by
  simp only [List.findSome?_eq_none_iff, Rule.danglingReference_eq_none]

/-! ## Settled variables -/

/-- The references that the search for circles follows. -/
def referencesOf (rules : List Rule) (v : Variable) : List Variable :=
  ((rules.find? (fun r => r.lhs == v)).map Rule.references).getD []

theorem referencesOf_eq {rules : List Rule} (hnodup : (ruleIds rules).Nodup) {r : Rule}
    (hr : r ∈ rules) {v : Variable} (hv : r.lhs.id = v.id) :
    referencesOf rules v = r.references := by
  have hfind : rules.find? (fun s => s.lhs == v) = some r :=
    Grammar.rule?_of_mem (g := ⟨v, rules⟩) hnodup hr hv
  simp [referencesOf, hfind]

theorem refersTo_of_mem_referencesOf {rules : List Rule} {v w : Variable}
    (hw : w ∈ referencesOf rules v) : RefersTo rules v.id w.id := by
  unfold referencesOf at hw
  cases hfind : rules.find? (fun r => r.lhs == v) with
  | none => simp [hfind] at hw
  | some r =>
    have hr : r ∈ rules := List.mem_of_find?_eq_some hfind
    have hrv : r.lhs.id = v.id := by simpa using List.find?_some hfind
    exact ⟨r, hr, hrv, w, by simpa [hfind] using hw, rfl⟩

/-- Each variable of the list refers only to variables that stand behind it. -/
def Settled (rules : List Rule) : List Variable → Prop
  | [] => True
  | v :: done => (∀ w ∈ referencesOf rules v, w.id ∈ done.map (·.id)) ∧ Settled rules done

/-- No path of references can be followed for ever from a settled variable. -/
theorem Settled.acc {rules : List Rule} (hnodup : (ruleIds rules).Nodup)
    {done : List Variable} (h : Settled rules done) :
    ∀ i ∈ done.map (·.id), Acc (fun j i => RefersTo rules i j) i := by
  induction done with
  | nil => simp
  | cons v done ih =>
    intro i hi
    rw [List.map_cons, List.mem_cons] at hi
    rcases hi with rfl | hi
    · constructor
      intro j hex
      obtain ⟨r, hr, hrv, w, hw, rfl⟩ := hex
      rw [← referencesOf_eq hnodup hr hrv] at hw
      exact ih h.2 w.id (h.1 w hw)
    · exact ih h.2 i hi

/-- What is accessible lies on no circle. -/
theorem not_transGen_of_acc {rules : List Rule} {i : Nat}
    (h : Acc (fun j i => RefersTo rules i j) i) : ¬ Relation.TransGen (RefersTo rules) i i := by
  have hacc := h.transGen
  induction hacc with
  | intro i _ ih =>
    intro hi
    have hii : Relation.TransGen (fun j i => RefersTo rules i j) i i :=
      Relation.transGen_swap.mpr hi
    exact ih i hii h hi

theorem contains_iff_mem_ids {vars : List Variable} {v : Variable} :
    vars.contains v = true ↔ v.id ∈ vars.map (·.id) := by
  rw [List.contains_iff_exists_mem_beq]
  simp only [Variable.beq_iff, List.mem_map]
  constructor
  · intro hex
    obtain ⟨u, hu, h⟩ := hex
    exact ⟨u, hu, h.symm⟩
  · intro hex
    obtain ⟨u, hu, h⟩ := hex
    exact ⟨u, hu, h.symm⟩

theorem contains_eq_false_iff {vars : List Variable} {v : Variable} :
    vars.contains v = false ↔ v.id ∉ vars.map (·.id) := by
  rw [← contains_iff_mem_ids, Bool.not_eq_true]

/-! ## The search for circles -/

/-- What the search for circles below a variable finds. -/
structure CircleSearch (rules : List Rule) (path done : List Variable) (v : Variable)
    (result : Except (List Variable) (List Variable)) : Prop where
  /-- Without a circle, more variables are settled, and `v` is one of them. -/
  settled : ∀ done', result = .ok done' → Settled rules done →
    Settled rules done' ∧ done.map (·.id) ⊆ done'.map (·.id) ∧ v.id ∈ done'.map (·.id)
  /-- A circle is one of references, when references lead along the path to `v`. -/
  circle : ∀ c, result = .error c →
    (∀ u ∈ path, Relation.TransGen (RefersTo rules) u.id v.id) →
    ∃ i, Relation.TransGen (RefersTo rules) i i

/-- The step from one reference to the next, in the search below a variable. -/
def circleStep (rules : List Rule) (fuel : Nat) (path : List Variable)
    (done : List Variable) (w : Variable) : Except (List Variable) (List Variable) :=
  if path.contains w then .error (path.dropWhile (fun u => u != w) ++ [w])
  else if done.contains w then .ok done
  else searchCircle (referencesOf rules) fuel path done w

/-- Going through references keeps what is settled and settles each of them. -/
theorem foldlM_circleStep_settled {rules : List Rule} {fuel : Nat} {path : List Variable}
    {refs : List Variable}
    (hsearch : ∀ done, ∀ w ∈ refs, path.contains w = false →
      CircleSearch rules path done w (searchCircle (referencesOf rules) fuel path done w)) :
    ∀ done done', refs.foldlM (circleStep rules fuel path) done = .ok done' →
      Settled rules done →
      Settled rules done' ∧ done.map (·.id) ⊆ done'.map (·.id) ∧
        ∀ w ∈ refs, w.id ∈ done'.map (·.id) := by
  -- What is settled only grows, so a reference that was settled early still is at the end.
  induction refs with
  | nil =>
    intro done done' h hdone
    cases h
    exact ⟨hdone, List.Subset.refl _, by simp⟩
  | cons w refs ih =>
    intro done done' h hdone
    rw [List.foldlM_cons] at h
    cases hstep : circleStep rules fuel path done w with
    | error c => rw [hstep] at h; cases h
    | ok done₁ =>
      rw [hstep] at h
      have hw : Settled rules done₁ ∧ done.map (·.id) ⊆ done₁.map (·.id) ∧
          w.id ∈ done₁.map (·.id) := by
        unfold circleStep at hstep
        split at hstep
        · cases hstep
        · rename_i hpath
          split at hstep
          · rename_i hcontains
            cases hstep
            exact ⟨hdone, List.Subset.refl _, contains_iff_mem_ids.mp hcontains⟩
          · exact (hsearch done w (List.mem_cons_self ..) (by simpa using hpath)).settled
              done₁ hstep hdone
      obtain ⟨hdone₁, hsub₁, hw₁⟩ := hw
      obtain ⟨hdone', hsub, hrefs⟩ :=
        ih (fun d u hu => hsearch d u (List.mem_cons_of_mem _ hu)) done₁ done' h hdone₁
      refine ⟨hdone', List.Subset.trans hsub₁ hsub, ?_⟩
      intro u hu
      rcases List.mem_cons.mp hu with rfl | hu
      · exact hsub hw₁
      · exact hrefs u hu

/-- A circle that is found while going through references is one of references. -/
theorem foldlM_circleStep_circle {rules : List Rule} {fuel : Nat} {path : List Variable}
    {refs : List Variable}
    (hpath : ∀ w ∈ refs, ∀ u ∈ path, Relation.TransGen (RefersTo rules) u.id w.id)
    (hsearch : ∀ done, ∀ w ∈ refs, path.contains w = false →
      CircleSearch rules path done w (searchCircle (referencesOf rules) fuel path done w)) :
    ∀ done c, refs.foldlM (circleStep rules fuel path) done = .error c →
      ∃ i, Relation.TransGen (RefersTo rules) i i := by
  induction refs with
  | nil => intro done c h; cases h
  | cons w refs ih =>
    intro done c h
    rw [List.foldlM_cons] at h
    cases hstep : circleStep rules fuel path done w with
    | ok done₁ =>
      rw [hstep] at h
      exact ih (fun u hu => hpath u (List.mem_cons_of_mem _ hu))
        (fun d u hu => hsearch d u (List.mem_cons_of_mem _ hu)) done₁ c h
    | error c' =>
      unfold circleStep at hstep
      split at hstep
      · rename_i hcontains
        -- The reference leads back to a variable of the path.
        obtain ⟨u, hu, huw⟩ := List.mem_map.mp (contains_iff_mem_ids.mp hcontains)
        have hback := hpath w (List.mem_cons_self ..) u hu
        exact ⟨w.id, huw ▸ hback⟩
      · rename_i hcontains
        split at hstep
        · cases hstep
        · exact (hsearch done w (List.mem_cons_self ..) (by simpa using hcontains)).circle
            c' hstep (hpath w (List.mem_cons_self ..))

/-- The search below a variable goes through its references and then settles it. -/
theorem searchCircle_succ {rules : List Rule} {fuel : Nat} {path done : List Variable}
    {v : Variable} :
    searchCircle (referencesOf rules) (fuel + 1) path done v =
      ((referencesOf rules v).foldlM (circleStep rules fuel (path ++ [v])) done).map
        (v :: ·) := by
  rw [searchCircle]
  show ((referencesOf rules v).foldlM (circleStep rules fuel (path ++ [v])) done >>=
    fun done => .ok (v :: done)) = _
  cases (referencesOf rules v).foldlM (circleStep rules fuel (path ++ [v])) done <;> rfl

/-- The search below a variable does what it should when the searches below its references
    do. -/
theorem CircleSearch.of_references {rules : List Rule} {fuel : Nat}
    {path done : List Variable} {v : Variable}
    (hsearch : ∀ done, ∀ w ∈ referencesOf rules v, (path ++ [v]).contains w = false →
      CircleSearch rules (path ++ [v]) done w
        (searchCircle (referencesOf rules) fuel (path ++ [v]) done w)) :
    CircleSearch rules path done v
      (searchCircle (referencesOf rules) (fuel + 1) path done v) := by
  rw [searchCircle_succ]
  constructor
  · intro done' hok hdone
    cases hfold : (referencesOf rules v).foldlM (circleStep rules fuel (path ++ [v])) done with
    | error c => rw [hfold] at hok; cases hok
    | ok done₁ =>
      rw [hfold] at hok
      cases hok
      obtain ⟨hdone₁, hsub₁, hrefs⟩ := foldlM_circleStep_settled hsearch done done₁ hfold hdone
      refine ⟨⟨hrefs, hdone₁⟩, ?_, List.mem_map_of_mem (List.mem_cons_self ..)⟩
      intro i hi
      exact List.mem_cons_of_mem _ (hsub₁ hi)
  · intro c herr hchain
    cases hfold : (referencesOf rules v).foldlM (circleStep rules fuel (path ++ [v])) done with
    | ok done₁ => rw [hfold] at herr; cases herr
    | error c' =>
      refine foldlM_circleStep_circle ?_ hsearch done c' hfold
      -- References lead along the path to `v`, and from there to every reference of it.
      intro w hw u hu
      have hvw := refersTo_of_mem_referencesOf hw
      rcases List.mem_append.mp hu with hu | hu
      · exact .tail (hchain u hu) hvw
      · rw [List.mem_singleton.mp hu]
        exact .single hvw

/-- With as much fuel as there are rules off the path, the search is sound and complete. -/
theorem circleSearch {rules : List Rule}
    (hclosed : ∀ r ∈ rules, ∀ v ∈ r.references, Defines rules v) :
    ∀ (fuel : Nat) (path done : List Variable) (v : Variable),
      (path.map (·.id)).Nodup → path.map (·.id) ⊆ ruleIds rules → v.id ∈ ruleIds rules →
      path.contains v = false → rules.length ≤ fuel + path.length →
      CircleSearch rules path done v (searchCircle (referencesOf rules) fuel path done v) := by
  intro fuel
  induction fuel with
  | zero =>
    intro path done v hpath hsub hv hfresh hfuel
    -- The path would hold all variables, and `v` besides.
    have hnot := contains_eq_false_iff.mp hfresh
    have hcons : (v.id :: path.map (·.id)).Subperm (ruleIds rules) :=
      (List.nodup_cons.mpr ⟨hnot, hpath⟩).subperm
        (List.cons_subset.mpr ⟨hv, hsub⟩)
    have hle := hcons.length_le
    simp only [List.length_cons, List.length_map, length_ruleIds] at hle
    omega
  | succ fuel ih =>
    intro path done v hpath hsub hv hfresh hfuel
    have hnot := contains_eq_false_iff.mp hfresh
    apply CircleSearch.of_references
    -- One variable more is on the path, so there is one rule fewer off it.
    intro done w hw hfresh'
    obtain ⟨r, hr, -, u, hu, huw⟩ := refersTo_of_mem_referencesOf hw
    apply ih
    · rw [List.map_append, List.nodup_append]
      refine ⟨hpath, List.nodup_singleton _, ?_⟩
      intro i hi j hj hij
      rw [List.map_singleton, List.mem_singleton] at hj
      exact hnot (hj ▸ hij ▸ hi)
    · rw [List.map_append]
      apply List.append_subset.mpr
      exact ⟨hsub, by simpa using hv⟩
    · exact huw ▸ defines_iff_mem_ruleIds.mp (hclosed r hr u hu)
    · exact hfresh'
    · rw [List.length_append, List.length_singleton]
      omega

theorem findCircle_eq {rules : List Rule} :
    findCircle rules =
      match (rules.map Rule.lhs).foldlM (circleStep rules rules.length []) [] with
      | .error c => some c
      | .ok _ => none := by
  rw [List.foldlM_map]
  rfl

/-- The circle that is found is what the search below all left-hand sides breaks off with. -/
theorem findCircle_eq_some {rules : List Rule} {c : List Variable} :
    findCircle rules = some c ↔
      (rules.map Rule.lhs).foldlM (circleStep rules rules.length []) [] = .error c := by
  rw [findCircle_eq]
  cases (rules.map Rule.lhs).foldlM (circleStep rules rules.length []) [] <;> simp

theorem findCircle_eq_none_iff_exists {rules : List Rule} :
    findCircle rules = none ↔
      ∃ done, (rules.map Rule.lhs).foldlM (circleStep rules rules.length []) [] = .ok done := by
  rw [findCircle_eq]
  cases (rules.map Rule.lhs).foldlM (circleStep rules rules.length []) [] <;> simp

/-- No circle is found exactly when no path of references leads back to where it began. -/
theorem findCircle_eq_none {rules : List Rule} (hnodup : (ruleIds rules).Nodup)
    (hclosed : ∀ r ∈ rules, ∀ v ∈ r.references, Defines rules v) :
    findCircle rules = none ↔ ∀ i, ¬ Relation.TransGen (RefersTo rules) i i := by
  rw [findCircle_eq_none_iff_exists]
  -- The search from all left-hand sides is a search below one variable that refers to them.
  have hsearch : ∀ done, ∀ w ∈ rules.map Rule.lhs, [].contains w = false →
      CircleSearch rules [] done w
        (searchCircle (referencesOf rules) rules.length [] done w) := by
    intro done w hw _
    obtain ⟨r, hr, rfl⟩ := List.mem_map.mp hw
    exact circleSearch hclosed rules.length [] done r.lhs List.nodup_nil
      (List.nil_subset _) (mem_ruleIds_of_mem hr) rfl (Nat.le_refl _)
  constructor
  · intro hex i hi
    obtain ⟨done, hfold⟩ := hex
    -- All left-hand sides are settled, and a circle would begin at one of them.
    obtain ⟨hdone, -, hall⟩ := foldlM_circleStep_settled hsearch [] done hfold trivial
    obtain ⟨j, hij, -⟩ := Relation.TransGen.head'_iff.mp hi
    obtain ⟨r, hr, hri, -⟩ := hij
    have hmem : i ∈ done.map (·.id) := hri ▸ hall r.lhs (List.mem_map_of_mem hr)
    exact not_transGen_of_acc (hdone.acc hnodup i hmem) hi
  · intro hacyclic
    cases hfold : (rules.map Rule.lhs).foldlM (circleStep rules rules.length []) [] with
    | ok done => exact ⟨done, rfl⟩
    | error c =>
      obtain ⟨i, hi⟩ := foldlM_circleStep_circle (by simp) hsearch [] c hfold
      exact absurd hi (hacyclic i)

/-! ## Faults and well-formedness -/

/-- Rules that refer to one another as they should. Their selections may be malformed. -/
structure WellLinked (start : Variable) (rules : List Rule) : Prop where
  distinct : Distinct (rules.map Rule.lhs)
  start_defined : Defines rules start
  closed : ∀ r ∈ rules, ∀ v ∈ r.references, Defines rules v
  acyclic : ∀ i, ¬ Relation.TransGen (RefersTo rules) i i

theorem WellFormed.linked {start : Variable} {rules : List Rule} (h : WellFormed start rules) :
    WellLinked start rules :=
  ⟨h.distinct, h.start_defined, h.closed, h.acyclic⟩

theorem WellLinked.wellFormed {start : Variable} {rules : List Rule} (h : WellLinked start rules)
    (hselections : ∀ lhs alternatives, Rule.selection lhs alternatives ∈ rules →
      2 ≤ alternatives.length ∧ Distinct alternatives) : WellFormed start rules :=
  ⟨h.distinct, h.start_defined, hselections, h.closed, h.acyclic⟩

/-- The only fault of linked rules is a malformed selection. -/
theorem WellLinked.firstFault_eq {start : Variable} {rules : List Rule}
    (h : WellLinked start rules) : firstFault start rules =
      (rules.find? Rule.isMalformed).map (fun r => .malformedSelection r.lhs) := by
  have hrepeated := firstRepeated_eq_none.mpr h.distinct
  have hstart := any_lhs_iff.mpr (defines_iff_mem_ruleIds.mp h.start_defined)
  have hdangling := dangling_eq_none.mpr h.closed
  have hcircle := (findCircle_eq_none (distinct_iff_nodup.mp h.distinct) h.closed).mpr h.acyclic
  simp [firstFault, hrepeated, hstart, hdangling, hcircle]

/-- There is no fault exactly when the rules are well formed. -/
theorem firstFault_eq_none {start : Variable} {rules : List Rule} :
    firstFault start rules = none ↔ WellFormed start rules := by
  constructor
  · unfold firstFault
    simp only [Option.or_eq_none_iff, Option.map_eq_none_iff, firstRepeated_eq_none]
    intro hand
    obtain ⟨hdistinct, hstart, hmalformed, hdangling, hcircle⟩ := hand
    have hclosed := dangling_eq_none.mp hdangling
    refine ⟨hdistinct, ?_, malformed_eq_none.mp hmalformed, hclosed, ?_⟩
    · split at hstart
      · rename_i hany
        exact defines_iff_mem_ruleIds.mpr (any_lhs_iff.mp hany)
      · cases hstart
    · exact (findCircle_eq_none (distinct_iff_nodup.mp hdistinct) hclosed).mp hcircle
  · intro h
    rw [h.linked.firstFault_eq, Option.map_eq_none_iff]
    exact malformed_eq_none.mpr h.selections

theorem defines_perm {rules rules' : List Rule} (hperm : rules.Perm rules') {v : Variable} :
    Defines rules v ↔ Defines rules' v := by
  simp only [Defines, hperm.mem_iff]

/-- How rules are linked does not hang on their order. -/
theorem WellLinked.perm {start : Variable} {rules rules' : List Rule}
    (h : WellLinked start rules) (hperm : rules.Perm rules') : WellLinked start rules' := by
  have hrefers : RefersTo rules' = RefersTo rules := by
    funext i j
    simp only [RefersTo, hperm.mem_iff]
  constructor
  · exact distinct_iff_nodup.mpr
      ((hperm.map _).nodup_iff.mp (distinct_iff_nodup.mp h.distinct))
  · exact (defines_perm hperm).mp h.start_defined
  · intro r hr v hv
    exact (defines_perm hperm).mp (h.closed r (hperm.mem_iff.mpr hr) v hv)
  · rw [hrefers]
    exact h.acyclic

/-- Well-formedness does not hang on the order of the rules. -/
theorem WellFormed.perm {start : Variable} {rules rules' : List Rule}
    (h : WellFormed start rules) (hperm : rules.Perm rules') : WellFormed start rules' :=
  (h.linked.perm hperm).wellFormed fun lhs alternatives hr =>
    h.selections lhs alternatives (hperm.mem_iff.mpr hr)

namespace Grammar

/-- Rules make a grammar exactly when they are well formed; they stand in it in order. -/
theorem ofRules_eq_ok {start : Variable} {rules : List Rule} {g : Grammar} :
    Grammar.ofRules start rules = .ok g ↔
      WellFormed start rules ∧ g = ⟨start, sortRules rules⟩ := by
  have hperm : (sortRules rules).Perm rules := sortOn_perm Rule.lhs rules
  have hwell : WellFormed start (sortRules rules) ↔ WellFormed start rules :=
    ⟨fun h => h.perm hperm, fun h => h.perm hperm.symm⟩
  constructor
  · intro h
    refine ⟨?_, rules_of_ofRules h⟩
    unfold ofRules at h
    cases hfault : firstFault start (sortRules rules) with
    | some fault => simp [hfault] at h
    | none => exact hwell.mp (firstFault_eq_none.mp hfault)
  · intro hand
    obtain ⟨h, hg⟩ := hand
    unfold ofRules
    simp only [firstFault_eq_none.mpr (hwell.mpr h), hg]

theorem ofRules_eq_error_iff {start : Variable} {rules : List Rule} {fault : GrammarError} :
    Grammar.ofRules start rules = .error fault ↔
      firstFault start (sortRules rules) = some fault := by
  unfold ofRules
  simp only
  split
  · rename_i fault' hfault
    rw [hfault, Except.error.injEq, Option.some.injEq]
  · rename_i hfault
    simp [hfault]

/-- Linked rules fail to make a grammar only because one of them is a malformed selection. -/
theorem ofRules_eq_error {start : Variable} {rules : List Rule} {fault : GrammarError}
    (hlinked : WellLinked start rules) (h : Grammar.ofRules start rules = .error fault) :
    ∃ r ∈ rules, r.isMalformed = true ∧ fault = .malformedSelection r.lhs := by
  have hperm : (sortRules rules).Perm rules := sortOn_perm Rule.lhs rules
  rw [ofRules_eq_error_iff, (hlinked.perm hperm.symm).firstFault_eq,
    Option.map_eq_some_iff] at h
  obtain ⟨r, hfound, rfl⟩ := h
  exact ⟨r, hperm.mem_iff.mp (List.mem_of_find?_eq_some hfound), List.find?_some hfound, rfl⟩

theorem valid_of_ofRules {start : Variable} {rules : List Rule} {g : Grammar}
    (h : Grammar.ofRules start rules = .ok g) : g.Valid := by
  obtain ⟨hwell, rfl⟩ := ofRules_eq_ok.mp h
  exact ⟨hwell.perm (sortOn_perm Rule.lhs rules).symm, sortRules_sortRules rules⟩

/-- Rules that have no fault and stand in order make a valid grammar as they are. -/
theorem valid_of_pairwise {g : Grammar} (hfault : firstFault g.start g.rules = none)
    (hordered : g.rules.Pairwise (fun a b => keyLe Rule.lhs a b = true)) : g.Valid :=
  ⟨firstFault_eq_none.mp hfault, sortOn_of_pairwise hordered⟩

theorem mem_rules_of_ofRules {start : Variable} {rules : List Rule} {g : Grammar}
    (h : Grammar.ofRules start rules = .ok g) {r : Rule} : r ∈ g.rules ↔ r ∈ rules := by
  rw [rules_of_ofRules h]
  exact mem_sortRules

/-- A valid grammar is what validation makes of its own rules. -/
theorem Valid.ofRules_eq {g : Grammar} (h : g.Valid) :
    Grammar.ofRules g.start g.rules = .ok g := by
  rw [ofRules_eq_ok]
  exact ⟨h.well_formed, by rw [h.ordered]⟩

end Grammar

end FluentGrammar
