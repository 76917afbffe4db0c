import FluentGrammar.Proofs.Chain.Openings

/-! # Chains are the leading paths

    A leading path goes from a selection to one of its alternatives and from a derivation to
    the variable that leads it, and it ends only where it cannot go on. Which path it is, is
    told by the numbers of the alternatives that it takes: its route. The chains of a variable
    are exactly its leading paths, each listed once, in the order of their routes.
-/

namespace FluentGrammar

/-- The chain is a leading path, and takes the alternatives with the numbers of the route. -/
inductive LeadingPath (g : Grammar) : Chain → List Nat → Prop where
  /-- A derivation that is empty or starts with a terminal ends the path. -/
  | stop {v lhs : Variable} {rhs : List Symbol}
      (hrule : g.rule? v = some (.derivation lhs rhs)) (hstop : ∀ w rest, rhs ≠ .var w :: rest) :
      LeadingPath g ⟨v, []⟩ []
  /-- A derivation that is led by a variable goes on with that variable. -/
  | pass {v lhs : Variable} {rest : List Symbol} {c : Chain} {route : List Nat}
      (hrule : g.rule? v = some (.derivation lhs (.var c.root :: rest)))
      (h : LeadingPath g c route) : LeadingPath g (.cons v c) route
  /-- A selection goes on with one of its alternatives. -/
  | choose {v lhs : Variable} {alternatives : List Variable} {k : Nat} {c : Chain}
      {route : List Nat} (hrule : g.rule? v = some (.selection lhs alternatives))
      (hk : alternatives[k]? = some c.root) (h : LeadingPath g c route) :
      LeadingPath g (.cons v c) (k :: route)

variable {g : Grammar} {v : Variable} {c d : Chain} {route : List Nat}

/-! ## Along a path -/

/-- Every variable on a path leads along references to those behind it. -/
theorem LeadingPath.pairwise (h : LeadingPath g c route) :
    c.vars.Pairwise (fun u w => Relation.TransGen (RefersTo g.rules) u.id w.id) := by
  -- The first variable refers to the root of what is behind it, which leads to all the rest.
  have hcons : ∀ {v : Variable} {c : Chain}, RefersTo g.rules v.id c.root.id →
      c.vars.Pairwise (fun u w => Relation.TransGen (RefersTo g.rules) u.id w.id) →
      (Chain.cons v c).vars.Pairwise
        (fun u w => Relation.TransGen (RefersTo g.rules) u.id w.id) := by
    intro v c hrefers hbelow
    refine List.pairwise_cons.mpr ⟨fun w hw => ?_, hbelow⟩
    rcases List.mem_cons.mp hw with rfl | hw
    · exact .single hrefers
    · exact .head hrefers (List.rel_of_pairwise_cons hbelow hw)
  induction h with
  | stop => exact List.pairwise_singleton ..
  | pass hrule _ ih =>
    refine hcons ?_ ih
    rw [← Grammar.lhs_of_rule? hrule]
    exact refersTo_of_mem (Grammar.mem_of_rule? hrule) (Rule.leading_mem_references ..)
  | choose hrule hk _ ih =>
    refine hcons ?_ ih
    rw [← Grammar.lhs_of_rule? hrule]
    exact refersTo_of_mem (Grammar.mem_of_rule? hrule) (List.mem_of_getElem? hk)

/-- A path of a valid grammar repeats no variable. -/
theorem LeadingPath.distinct (h : LeadingPath g c route) (hg : g.Valid) : Distinct c.vars :=
  h.pairwise.imp fun {u w} hpath (heq : u.id = w.id) =>
    hg.well_formed.acyclic u.id (heq.symm ▸ hpath)

theorem leadingPath_stop_iff {lhs : Variable} {rhs : List Symbol}
    (hr : g.rule? v = some (.derivation lhs rhs)) (hstop : ∀ w rest, rhs ≠ .var w :: rest) :
    c.root = v ∧ LeadingPath g c route ↔ c = ⟨v, []⟩ ∧ route = [] := by
  constructor
  · rintro ⟨hroot, h⟩
    cases h with
    | stop => exact ⟨congrArg (Chain.mk · []) hroot, rfl⟩
    | pass hrule =>
      cases hroot
      cases hr.symm.trans hrule
      exact absurd rfl (hstop _ _)
    | choose hrule =>
      cases hroot
      cases hr.symm.trans hrule
  · rintro ⟨rfl, rfl⟩
    exact ⟨rfl, .stop hr hstop⟩

theorem leadingPath_pass_iff {lhs w : Variable} {rest : List Symbol}
    (hr : g.rule? v = some (.derivation lhs (.var w :: rest))) :
    c.root = v ∧ LeadingPath g c route ↔
      ∃ d, c = .cons v d ∧ d.root = w ∧ LeadingPath g d route := by
  constructor
  · rintro ⟨hroot, h⟩
    cases h with
    | stop hrule hstop =>
      cases hroot
      cases hr.symm.trans hrule
      exact absurd rfl (hstop _ _)
    | @pass _ _ _ d _ hrule h =>
      cases hroot
      cases hr.symm.trans hrule
      exact ⟨d, rfl, rfl, h⟩
    | choose hrule =>
      cases hroot
      cases hr.symm.trans hrule
  · rintro ⟨d, rfl, rfl, h⟩
    exact ⟨rfl, .pass hr h⟩

theorem leadingPath_choose_iff {lhs : Variable} {alternatives : List Variable}
    (hr : g.rule? v = some (.selection lhs alternatives)) :
    c.root = v ∧ LeadingPath g c route ↔
      ∃ k d below, c = .cons v d ∧ route = k :: below ∧ alternatives[k]? = some d.root ∧
        LeadingPath g d below := by
  constructor
  · rintro ⟨hroot, h⟩
    cases h with
    | stop hrule =>
      cases hroot
      cases hr.symm.trans hrule
    | pass hrule =>
      cases hroot
      cases hr.symm.trans hrule
    | @choose _ _ _ k d below hrule hk h =>
      cases hroot
      cases hr.symm.trans hrule
      exact ⟨k, d, below, rfl, rfl, hk, h⟩
  · rintro ⟨k, d, below, rfl, rfl, hk, h⟩
    exact ⟨rfl, .choose hr hk h⟩

/-! ## The chains of a variable -/

/-- The chains of a variable are the leading paths from it. -/
theorem mem_chainsOf_iff (hg : g.Valid) (hv : v.id ∈ ruleIds g.rules) :
    c ∈ g.chainsOf v ↔ c.root = v ∧ ∃ route, LeadingPath g c route := by
  revert c
  refine hg.rule_induction (P := fun v => ∀ {c}, c ∈ g.chainsOf v ↔
    c.root = v ∧ ∃ route, LeadingPath g c route) ?_ v hv
  intro v r hr ih c
  rw [← exists_and_left]
  cases r with
  | derivation lhs rhs =>
    -- A chain passes through a derivation that a variable leads, and stops at any other one.
    by_cases hled : ∃ w rest, rhs = .var w :: rest
    · obtain ⟨w, rest, rfl⟩ := hled
      rw [chainsOf_eq hg hr, Grammar.chainsBy, List.mem_map,
        exists_congr fun _ => leadingPath_pass_iff hr]
      constructor
      · rintro ⟨d, hd, rfl⟩
        obtain ⟨hroot, route, h⟩ := (ih w (Rule.leading_mem_references ..)).mp hd
        exact ⟨route, d, rfl, hroot, h⟩
      · rintro ⟨route, d, rfl, hroot, h⟩
        exact ⟨d, (ih w (Rule.leading_mem_references ..)).mpr ⟨hroot, route, h⟩, rfl⟩
    · have hstop : ∀ w rest, rhs ≠ .var w :: rest := fun w rest h => hled ⟨w, rest, h⟩
      rw [chainsOf_of_stop hg hr hstop, List.mem_singleton,
        exists_congr fun _ => leadingPath_stop_iff hr hstop]
      constructor
      · exact fun h => ⟨[], h, rfl⟩
      · rintro ⟨-, h, -⟩
        exact h
  | selection lhs alternatives =>
    rw [chainsOf_eq hg hr, Grammar.chainsBy, List.mem_map,
      exists_congr fun _ => leadingPath_choose_iff hr]
    constructor
    · rintro ⟨d, hd, rfl⟩
      obtain ⟨u, hu, hd⟩ := List.mem_flatMap.mp hd
      obtain ⟨rfl, route, h⟩ := (ih u hu).mp hd
      -- The number of the alternative goes to the front of the route.
      obtain ⟨k, hk⟩ := List.mem_iff_getElem?.mp hu
      exact ⟨k :: route, k, d, route, rfl, rfl, hk, h⟩
    · rintro ⟨-, k, d, route, rfl, -, hk, h⟩
      have hu := List.mem_of_getElem? hk
      exact ⟨d, List.mem_flatMap.mpr ⟨d.root, hu, (ih _ hu).mpr ⟨rfl, route, h⟩⟩, rfl⟩

/-- One chain takes alternatives with lower numbers than another one, at the first place where
    they do not take the same. -/
def RouteBefore (g : Grammar) (c d : Chain) : Prop :=
  ∀ s t, LeadingPath g c s → LeadingPath g d t → List.Lex (· < ·) s t

theorem RouteBefore.pass {lhs w : Variable} {rest : List Symbol}
    (hr : g.rule? v = some (.derivation lhs (.var w :: rest))) (h : RouteBefore g c d) :
    RouteBefore g (.cons v c) (.cons v d) := by
  intro s t hs ht
  obtain ⟨c', hc, -, hs⟩ := (leadingPath_pass_iff hr).mp ⟨rfl, hs⟩
  obtain ⟨d', hd, -, ht⟩ := (leadingPath_pass_iff hr).mp ⟨rfl, ht⟩
  rw [← Chain.cons_injective v hc] at hs
  rw [← Chain.cons_injective v hd] at ht
  exact h s t hs ht

/-- Below a selection, first the numbers of the alternatives decide, then the rest. -/
theorem RouteBefore.choose {lhs : Variable} {alternatives : List Variable}
    (hr : g.rule? v = some (.selection lhs alternatives))
    (h : ∀ j k : Nat, alternatives[j]? = some c.root → alternatives[k]? = some d.root →
      j < k ∨ j = k ∧ RouteBefore g c d) : RouteBefore g (.cons v c) (.cons v d) := by
  intro s t hs ht
  obtain ⟨j, c', s', hc, rfl, hj, hbelow⟩ := (leadingPath_choose_iff hr).mp ⟨rfl, hs⟩
  obtain ⟨k, d', t', hd, rfl, hk, hbelow'⟩ := (leadingPath_choose_iff hr).mp ⟨rfl, ht⟩
  rw [← Chain.cons_injective v hc] at hj hbelow
  rw [← Chain.cons_injective v hd] at hk hbelow'
  rcases h j k hj hk with hlt | ⟨rfl, hbefore⟩
  · exact .rel hlt
  · exact .cons (hbefore s' t' hbelow hbelow')

/-- An alternative of a selection has one number. -/
theorem Grammar.Valid.number_unique (hg : g.Valid) {lhs u : Variable}
    {alternatives : List Variable} (hr : g.rule? v = some (.selection lhs alternatives))
    {j k : Nat} (hj : alternatives[j]? = some u) (hk : alternatives[k]? = some u) : j = k := by
  have hdistinct := (hg.well_formed.selections lhs alternatives (Grammar.mem_of_rule? hr)).2
  have hnodup : alternatives.Nodup := hdistinct.imp fun hne heq => hne (congrArg _ heq)
  obtain ⟨hlt, -⟩ := List.getElem?_eq_some_iff.mp hj
  exact (List.getElem?_inj hlt hnodup).mp (hj.trans hk.symm)

/-- The chains of a variable are listed in the order of their routes. -/
theorem pairwise_routeBefore (hg : g.Valid) (hv : v.id ∈ ruleIds g.rules) :
    (g.chainsOf v).Pairwise (RouteBefore g) := by
  refine hg.rule_induction (P := fun v => (g.chainsOf v).Pairwise (RouteBefore g)) ?_ v hv
  intro v r hr ih
  cases r with
  | derivation lhs rhs =>
    by_cases hled : ∃ w rest, rhs = .var w :: rest
    · obtain ⟨w, rest, rfl⟩ := hled
      rw [chainsOf_eq hg hr, Grammar.chainsBy]
      exact List.pairwise_map.mpr
        ((ih w (Rule.leading_mem_references ..)).imp (RouteBefore.pass hr))
    · rw [chainsOf_of_stop hg hr fun w rest h => hled ⟨w, rest, h⟩]
      exact List.pairwise_singleton ..
  | selection lhs alternatives =>
    rw [chainsOf_eq hg hr, Grammar.chainsBy, List.pairwise_map, List.pairwise_flatMap]
    have hroot : ∀ u ∈ alternatives, ∀ c ∈ g.chainsOf u, c.root = u := fun u hu c hc =>
      root_of_mem_chainsOf hg (mem_ruleIds_of_reference hg hr hu) hc
    constructor
    · -- Two chains below the same alternative
      intro u hu
      refine (ih u hu).imp_of_mem fun {c d} hc hd hbefore => .choose hr fun j k hj hk => ?_
      rw [hroot u hu c hc] at hj
      rw [hroot u hu d hd] at hk
      exact Or.inr ⟨hg.number_unique hr hj hk, hbefore⟩
    · -- Chains below different alternatives
      refine List.pairwise_iff_getElem.mpr fun a b ha hb hab c hc d hd => ?_
      refine .choose hr fun j k hj hk => Or.inl ?_
      rw [hroot _ (List.getElem_mem ha) c hc] at hj
      rw [hroot _ (List.getElem_mem hb) d hd] at hk
      rw [hg.number_unique hr hj (List.getElem?_eq_getElem ha),
        hg.number_unique hr hk (List.getElem?_eq_getElem hb)]
      exact hab

/-- The chains of a variable of a valid grammar can be listed. The list holds the leading paths
    from the variable and nothing else, none of them twice, in the lexicographic order of the
    numbers of the alternatives that they take. A chain starts at the variable, is not empty and
    repeats no variable, and any two chains go the same way up to a selection, behind which they
    go on with different alternatives. -/
theorem Grammar.chains_exact (hg : g.Valid) (hv : Defines g.rules v) :
    ∃ cs, g.chains v = .ok cs ∧
      (∀ c, c ∈ cs ↔ c.root = v ∧ ∃ route, LeadingPath g c route) ∧
      (cs.map Chain.ids).Nodup ∧
      cs.Pairwise (RouteBefore g) ∧
      cs.Pairwise (fun c d => ∃ k, Part g k c d) ∧
      ∀ c ∈ cs, c.vars ≠ [] ∧ c.vars.head? = some v ∧ Distinct c.vars := by
  have hid := defines_iff_mem_ruleIds.mp hv
  refine ⟨g.chainsOf v, chains_eq_ok hg hid, fun c => mem_chainsOf_iff hg hid,
    nodup_ids_chainsOf hg hid, pairwise_routeBefore hg hid, pairwise_part hg hid,
    fun c hc => ?_⟩
  obtain ⟨hroot, route, hpath⟩ := (mem_chainsOf_iff hg hid).mp hc
  exact ⟨List.cons_ne_nil _ _, congrArg some hroot, hpath.distinct hg⟩

/-- Two calls one above the other, with a variable that both lead to. -/
def nestedWays : Grammar :=
  ⟨⟨0, "A"⟩,
    [.selection ⟨0, "A"⟩ [⟨2, "C"⟩, ⟨1, "B"⟩],
     .derivation ⟨1, "B"⟩ [.var ⟨3, "D"⟩, .term ⟨"x", []⟩],
     .selection ⟨2, "C"⟩ [⟨3, "D"⟩, ⟨4, "E"⟩],
     .derivation ⟨3, "D"⟩ [.term ⟨"a", []⟩],
     .derivation ⟨4, "E"⟩ []]⟩

theorem nestedWays_valid : nestedWays.Valid :=
  Grammar.valid_of_pairwise (by decide +kernel) (by decide +kernel)

/-- The chains of the start variable, the one through the last alternative at the end. -/
def nestedWaysChains : List Chain :=
  [⟨⟨0, "A"⟩, [⟨2, "C"⟩, ⟨3, "D"⟩]⟩, ⟨⟨0, "A"⟩, [⟨2, "C"⟩, ⟨4, "E"⟩]⟩,
    ⟨⟨0, "A"⟩, [⟨1, "B"⟩, ⟨3, "D"⟩]⟩]

/-- Three leading paths are listed, and nothing else is one. -/
theorem nestedWays_chains :
    nestedWays.Valid ∧ Defines nestedWays.rules ⟨0, "A"⟩ ∧
      nestedWays.chains ⟨0, "A"⟩ = .ok nestedWaysChains ∧
      (∀ c, c ∈ nestedWaysChains ↔ c.root = ⟨0, "A"⟩ ∧ ∃ route, LeadingPath nestedWays c route) ∧
      nestedWaysChains.Pairwise (RouteBefore nestedWays) ∧
      nestedWaysChains.Pairwise (fun c d => ∃ k, Part nestedWays k c d) := by
  have hdefines : Defines nestedWays.rules ⟨0, "A"⟩ :=
    defines_iff_mem_ruleIds.mpr (by decide +kernel)
  have hlisted : nestedWays.chains ⟨0, "A"⟩ = .ok nestedWaysChains := by rfl
  obtain ⟨cs, hchains, hexact, -, hroutes, hparts, -⟩ :=
    Grammar.chains_exact nestedWays_valid hdefines
  cases hlisted.symm.trans hchains
  exact ⟨nestedWays_valid, hdefines, hlisted, hexact, hroutes, hparts⟩

end FluentGrammar
