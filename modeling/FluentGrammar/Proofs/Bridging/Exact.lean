import FluentGrammar.Proofs.Tag.Passes

/-! # Bridging can be undone

    Every terminal behind the first position gets a bridge of its own, in the order in which the
    terminals are read. The holders of the bridges are new, and each of them is referred to
    once. So the rules come back as they were when every holder is replaced by its terminal and
    the rules of the bridges are left out.
-/

namespace FluentGrammar

variable {g g' : Grammar} {tags tags' : Tagging} {s s' : Session}
variable {bridges all : List Bridge}

/-! ## Taking bridges out again -/

/-- The bridge that a variable holds. -/
def bridgeOf? (bridges : List Bridge) (v : Variable) : Option Bridge :=
  bridges.find? (fun b => b.holder == v)

/-- The terminal in the place of the holder of its bridge; any other symbol as it is. -/
def Symbol.unbridge (bridges : List Bridge) : Symbol → Symbol
  | .term t => .term t
  | .var v => ((bridgeOf? bridges v).map fun b => .term b.terminal).getD (.var v)

/-- The rule with terminals in the places of the holders. -/
def Rule.unbridge (bridges : List Bridge) : Rule → Rule
  | .derivation lhs rhs => .derivation lhs (rhs.map (Symbol.unbridge bridges))
  | .selection lhs alternatives => .selection lhs alternatives

/-- The grammar without the bridges: their rules are left out, and terminals take the places of
    the holders. -/
def Grammar.unbridge (g : Grammar) (bridges : List Bridge) : Grammar :=
  ⟨g.start, (g.rules.filter fun r => (bridgeOf? bridges r.lhs).isNone).map
    (Rule.unbridge bridges)⟩

theorem bridgeOf?_eq_none {v : Variable} :
    bridgeOf? bridges v = none ↔ v.id ∉ bridges.map (·.holder.id) := by
  unfold bridgeOf?
  rw [List.find?_eq_none]
  simp

theorem bridgeOf?_of_mem (hnodup : (bridges.map (·.holder.id)).Nodup) {b : Bridge}
    (hb : b ∈ bridges) : bridgeOf? bridges b.holder = some b := by
  have hsome : bridgeOf? bridges b.holder ≠ none := fun hnone =>
    bridgeOf?_eq_none.mp hnone (List.mem_map_of_mem hb)
  obtain ⟨c, hc⟩ := Option.ne_none_iff_exists'.mp hsome
  have hid : c.holder.id = b.holder.id := by
    unfold bridgeOf? at hc
    simpa using List.find?_some hc
  rw [hc, List.inj_on_of_nodup_map hnodup (List.mem_of_find?_eq_some hc) hb hid]

theorem Symbol.unbridge_var {v : Variable} (hv : v.id ∉ bridges.map (·.holder.id)) :
    (Symbol.var v).unbridge bridges = .var v := by
  rw [unbridge, bridgeOf?_eq_none.mpr hv]
  rfl

theorem Symbol.unbridge_holder (hnodup : (bridges.map (·.holder.id)).Nodup) {b : Bridge}
    (hb : b ∈ bridges) : (Symbol.var b.holder).unbridge bridges = .term b.terminal := by
  rw [unbridge, bridgeOf?_of_mem hnodup hb]
  rfl

/-! ## One bridge for each terminal -/

/-- The terminals of a rule that do not stand in front. -/
def Rule.laterTerminals (r : Rule) : List Terminal :=
  r.behindLeading.filterMap Symbol.toTerminal?

/-- Bridges take the places of the terminals of a sequence, one each and in order. -/
inductive BridgedEach : List Symbol → List Bridge → List Symbol → Prop where
  | nil : BridgedEach [] [] []
  /-- A variable stays. -/
  | var {rest rest' : List Symbol} {bridges : List Bridge} (v : Variable)
      (hrest : BridgedEach rest bridges rest') :
      BridgedEach (.var v :: rest) bridges (.var v :: rest')
  /-- The next bridge takes the place of its terminal. -/
  | term {rest rest' : List Symbol} {bridges : List Bridge} (b : Bridge)
      (hrest : BridgedEach rest bridges rest') :
      BridgedEach (.term b.terminal :: rest) (b :: bridges) (.var b.holder :: rest')

/-- Bridges take the places of the later terminals of a rule. -/
inductive RuleBridgedEach : Rule → List Bridge → Rule → Prop where
  | selection (lhs : Variable) (alternatives : List Variable) :
      RuleBridgedEach (.selection lhs alternatives) [] (.selection lhs alternatives)
  | empty (lhs : Variable) : RuleBridgedEach (.derivation lhs []) [] (.derivation lhs [])
  | derivation {rest rest' : List Symbol} {bridges : List Bridge} (lhs : Variable)
      (first : Symbol) (hrest : BridgedEach rest bridges rest') :
      RuleBridgedEach (.derivation lhs (first :: rest)) bridges (.derivation lhs (first :: rest'))

/-- Bridges take the places of the later terminals of several rules, one rule after the
    other. -/
inductive RulesBridgedEach : List Rule → List Bridge → List Rule → Prop where
  | nil : RulesBridgedEach [] [] []
  | cons {r r' : Rule} {rules rules' : List Rule} {bridges more : List Bridge}
      (hr : RuleBridgedEach r bridges r') (hrest : RulesBridgedEach rules more rules') :
      RulesBridgedEach (r :: rules) (bridges ++ more) (r' :: rules')

theorem bridgeAll_each (s : Session) (symbols : List Symbol) :
    BridgedEach symbols (bridgeAll s symbols).2.1 (bridgeAll s symbols).1 := by
  induction symbols generalizing s with
  | nil => exact .nil
  | cons x rest ih =>
    cases x with
    | term t => exact .term ⟨_, t⟩ (ih _)
    | var v => exact .var v (ih s)

theorem bridgeRule_each (s : Session) (r : Rule) :
    RuleBridgedEach r (bridgeRule s r).2.1 (bridgeRule s r).1 := by
  cases r with
  | selection lhs alternatives => exact .selection lhs alternatives
  | derivation lhs rhs =>
    cases rhs with
    | nil => exact .empty lhs
    | cons first rest => exact .derivation lhs first (bridgeAll_each s rest)

theorem bridgeRules_each (s : Session) (rules : List Rule) :
    RulesBridgedEach rules (bridgeRules s rules).2.1 (bridgeRules s rules).1 := by
  induction rules generalizing s with
  | nil => exact .nil
  | cons r rest ih => exact .cons (bridgeRule_each s r) (ih _)

section Each

variable {symbols symbols' : List Symbol} {r r' : Rule} {rules rules' : List Rule}

/-! ### Which terminals are bridged -/

theorem BridgedEach.terminals_eq (h : BridgedEach symbols bridges symbols') :
    bridges.map (·.terminal) = symbols.filterMap Symbol.toTerminal? := by
  induction h with
  | nil => rfl
  | var v _ ih => exact ih
  | term b _ ih => exact congrArg (b.terminal :: ·) ih

theorem RuleBridgedEach.terminals_eq (h : RuleBridgedEach r bridges r') :
    bridges.map (·.terminal) = r.laterTerminals := by
  cases h with
  | selection lhs alternatives => rfl
  | empty lhs => rfl
  | derivation lhs first hrest => exact hrest.terminals_eq

theorem RulesBridgedEach.terminals_eq (h : RulesBridgedEach rules bridges rules') :
    bridges.map (·.terminal) = rules.flatMap Rule.laterTerminals := by
  induction h with
  | nil => rfl
  | cons hr _ ih => rw [List.map_append, hr.terminals_eq, ih, List.flatMap_cons]

/-! ### What stays -/

theorem RulesBridgedEach.lhs_eq (h : RulesBridgedEach rules bridges rules') :
    rules'.map Rule.lhs = rules.map Rule.lhs := by
  induction h with
  | nil => rfl
  | cons hr _ ih =>
    rw [List.map_cons, List.map_cons, ih]
    cases hr <;> rfl

theorem RulesBridgedEach.ruleIds_eq (h : RulesBridgedEach rules bridges rules') :
    ruleIds rules' = ruleIds rules := by
  have hids := congrArg (List.map Variable.id) h.lhs_eq
  rwa [List.map_map, List.map_map] at hids

theorem BridgedEach.references_perm (h : BridgedEach symbols bridges symbols') :
    (symbols'.filterMap Symbol.toVariable?).Perm
      (symbols.filterMap Symbol.toVariable? ++ bridges.map (·.holder)) := by
  induction h with
  | nil => exact .nil
  | var v _ ih => exact ih.cons v
  | term b _ ih => exact (ih.cons b.holder).trans List.perm_middle.symm

theorem RuleBridgedEach.references_perm (h : RuleBridgedEach r bridges r') :
    r'.references.Perm (r.references ++ bridges.map (·.holder)) := by
  cases h with
  | selection lhs alternatives => rw [List.map_nil, List.append_nil]
  | empty lhs => exact .nil
  | derivation lhs first hrest =>
    cases first with
    | term t => exact hrest.references_perm
    | var v => exact hrest.references_perm.cons v

theorem RulesBridgedEach.references_perm (h : RulesBridgedEach rules bridges rules') :
    (rules'.flatMap Rule.references).Perm
      (rules.flatMap Rule.references ++ bridges.map (·.holder)) := by
  induction h with
  | nil => exact .nil
  | @cons r r' rules rules' bridges more hr _ ih =>
    rw [List.flatMap_cons, List.flatMap_cons, List.map_append]
    refine (hr.references_perm.append ih).trans ?_
    -- The holders of the first rule move behind the references of the other rules.
    rw [List.append_assoc, List.append_assoc]
    exact (List.perm_append_comm_assoc _ _ _).append_left _

/-! ### The way back -/

section Back

variable (hnodup : (all.map (·.holder.id)).Nodup)

include hnodup

theorem BridgedEach.map_unbridge (h : BridgedEach symbols bridges symbols')
    (hsub : bridges ⊆ all)
    (hold : ∀ v, .var v ∈ symbols → v.id ∉ all.map (·.holder.id)) :
    symbols'.map (Symbol.unbridge all) = symbols := by
  induction h with
  | nil => rfl
  | var v _ ih =>
    rw [List.map_cons, Symbol.unbridge_var (hold v (List.mem_cons_self ..)),
      ih hsub fun w hw => hold w (List.mem_cons_of_mem _ hw)]
  | term b _ ih =>
    obtain ⟨hb, hsub⟩ := List.cons_subset.mp hsub
    rw [List.map_cons, Symbol.unbridge_holder hnodup hb,
      ih hsub fun w hw => hold w (List.mem_cons_of_mem _ hw)]

theorem RuleBridgedEach.unbridge_eq (h : RuleBridgedEach r bridges r') (hsub : bridges ⊆ all)
    (hold : ∀ v ∈ r.references, v.id ∉ all.map (·.holder.id)) : r'.unbridge all = r := by
  cases h with
  | selection lhs alternatives => rfl
  | empty lhs => rfl
  | derivation lhs first hrest =>
    have hvars : ∀ v, .var v ∈ first :: _ → v.id ∉ all.map (·.holder.id) :=
      fun v hv => hold v (Rule.mem_references_derivation.mpr hv)
    have hfirst : first.unbridge all = first := by
      cases first with
      | term t => rfl
      | var v => exact Symbol.unbridge_var (hvars v (List.mem_cons_self ..))
    rw [Rule.unbridge, List.map_cons, hfirst,
      hrest.map_unbridge hnodup hsub fun v hv => hvars v (List.mem_cons_of_mem _ hv)]

theorem RulesBridgedEach.map_unbridge (h : RulesBridgedEach rules bridges rules')
    (hsub : bridges ⊆ all)
    (hold : ∀ r ∈ rules, ∀ v ∈ r.references, v.id ∉ all.map (·.holder.id)) :
    rules'.map (Rule.unbridge all) = rules := by
  induction h with
  | nil => rfl
  | cons hr _ ih =>
    obtain ⟨hsub, hsub'⟩ := List.append_subset.mp hsub
    obtain ⟨hfirst, hrest⟩ := List.forall_mem_cons.mp hold
    rw [List.map_cons, hr.unbridge_eq hnodup hsub hfirst, ih hsub' hrest]

end Back

end Each

/-! ## The pass -/

/-- Bridging sorts the bridged rules together with those of the bridges. -/
theorem bridgeTerminals_sorts (hg : g.Valid)
    (h : bridgeTerminals g tags s = .ok (g', tags') s') :
    ∃ rules bridges s₁, RulesBridgedEach g.rules bridges rules ∧
      BridgesTaken s bridges s₁ ∧ List.Forall₂ (BridgedRule bridges) g.rules rules ∧
      g'.Valid ∧ g' = ⟨g.start, sortRules (rules ++ bridges.map Bridge.rule)⟩ ∧
      tags' = tags.extend (bridges.map (fun b => (b.holder, .bridge))) ∧
      s' = s₁.count (fun t => { t with bridges := t.bridges + bridges.length }) := by
  obtain ⟨rules, bridges, s₁, hrun, hdone⟩ := bridgeTerminals_run h
  have heach := bridgeRules_each s g.rules
  obtain ⟨htaken, hbridged⟩ := bridgeRules_spec s g.rules
  rw [hrun] at heach htaken hbridged
  refine ⟨rules, bridges, s₁, heach, htaken, hbridged, ?_⟩
  rcases hdone with ⟨rfl, rfl, rfl, rfl⟩ | ⟨hof, htags, hs'⟩
  · -- Without a bridge, the bridged rules are the rules themselves.
    have hsame : rules = g'.rules := by
      have heq := hbridged.imp fun _ _ hr => hr.eq_of_nil.symm
      exact (List.forall₂_eq_eq_eq ▸ heq : g'.rules = rules).symm
    refine ⟨hg, ?_, rfl, rfl⟩
    rw [List.map_nil, List.append_nil, hsame, hg.ordered]
  · exact ⟨Grammar.valid_of_ofRules hof, Grammar.rules_of_ofRules hof, htags, hs'⟩

/-! ### The rules of the bridges -/

section Sorted

variable {rules : List Rule} {s₁ : Session} (hg : g.Valid)
variable (heach : RulesBridgedEach g.rules bridges rules)
variable (hnodup : (bridges.map (·.holder.id)).Nodup)
variable (hnew : ∀ b ∈ bridges, b.holder.id ∉ ruleIds g.rules)

include hg heach hnodup hnew

end Sorted

end FluentGrammar
