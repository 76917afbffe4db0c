import FluentGrammar.Proofs.Rewriting.Rounds
import FluentGrammar.Proofs.SharedPrefix.Discovery

/-! # Canonical form is final

    Every pass leaves a canonical form as it is: there is no terminal to bridge, no empty rule
    to fold, nothing unreachable to drop and no shared prefix to factor out. So bringing a
    canonical form into canonical form changes nothing and counts nothing.
-/

namespace FluentGrammar

variable {config : Config} {g g' : Grammar} {tags tags' : Tagging} {s s' : Session}

/-! ## Passes that have nothing to do -/

/-- Where no rule is empty, none is folded. -/
theorem foldEmpties_of_noneEmpty (h : NoneEmpty g.rules) :
    foldEmpties g tags s = .ok (g, tags) s := by
  have hnone : g.emptyVariables = [] := by
    unfold Grammar.emptyVariables
    rw [List.map_eq_nil_iff, List.filter_eq_nil_iff]
    intro r hr
    rw [h r hr]
    exact Bool.false_ne_true
  unfold foldEmpties foldRounds
  simp only [hnone, List.isEmpty_nil, if_true]
  rfl

/-- Where everything is reachable, nothing is pruned. -/
theorem Grammar.prune_of_reached {extra : List Edge} (hnodup : (ruleIds g.rules).Nodup)
    (hreached : ∀ i ∈ ruleIds g.rules, g.Reaches extra i) : g.prune extra = (g, []) := by
  have hall : ∀ r ∈ g.rules, (g.reachable extra).contains r.lhs = true := by
    intro r hr
    rw [Grammar.mem_reachable_iff hnodup]
    exact hreached r.lhs.id (mem_ruleIds_of_mem hr)
  have hkept : g.rules.filter (fun r => (g.reachable extra).contains r.lhs) = g.rules :=
    List.filter_eq_self.mpr hall
  have hdropped : g.rules.filter (fun r => !(g.reachable extra).contains r.lhs) = [] := by
    rw [List.filter_eq_nil_iff]
    intro r hr
    rw [hall r hr]
    exact Bool.false_ne_true
  unfold Grammar.prune
  simp only [List.partition_eq_filter_filter, hkept]
  rw [show (Bool.not ∘ fun r : Rule => (g.reachable extra).contains r.lhs) =
    fun r => !(g.reachable extra).contains r.lhs from rfl, hdropped]
  rfl

/-- Tags of the variables of the grammar alone are all retained. -/
theorem Tagging.retain_of_subset (h : ∀ i ∈ tags.ids, i ∈ ruleIds g.rules) :
    tags.retain g.contains = tags := by
  unfold Tagging.retain
  congr 1
  rw [List.filter_eq_self]
  intro entry hentry
  rw [Grammar.contains_iff_mem_ruleIds]
  exact h _ (List.mem_map_of_mem hentry)

theorem dropUnreachable_of_reached (hg : Coherent g tags s)
    (hreached : ∀ i ∈ ruleIds g.rules, g.Reaches tags.implicitEdges i) :
    dropUnreachable g tags s = .ok (g, tags) s := by
  have hprune := Grammar.prune_of_reached hg.valid.well_formed.nodup_ruleIds hreached
  rw [dropUnreachable_eq_ok, hprune]
  exact ⟨rfl, (Tagging.retain_of_subset fun i => (hg.tagged i).mp).symm, rfl⟩

/-! ## The whole pipeline -/

/-- In a coherent state all variables can be looked up. -/
theorem Coherent.exists_entries (hg : Coherent g tags s) :
    ∃ entries, g.vars.mapM tags.require = .ok entries := by
  refine exists_entries_of_tagged fun v hv => ?_
  obtain ⟨r, hr, rfl⟩ := List.mem_map.mp hv
  have hsome := Tagging.tag?_isSome.mpr ((hg.tagged _).mpr (mem_ruleIds_of_mem hr))
  obtain ⟨tag, htag⟩ := Option.isSome_iff_exists.mp hsome
  exact ⟨tag, Tagging.require_eq_ok.mpr htag⟩

/-- Nothing is discovered in the result of all passes, also when chains alike are asked for. -/
theorem Canonicalized.discover_none (h : Canonicalized config g s g' tags' s') :
    g'.discover config.detectUnsupported = .ok none := by
  obtain ⟨g₁, extra, hg₁, hsettled, hprune⟩ := h.settled
  rw [hprune]
  exact discover_prune hg₁ extra hsettled

/-- Nothing is prepared where terminals lead, no rule is empty and everything is reachable. -/
theorem Coherent.prepare_settled (hg : Coherent g tags s) (hled : TerminalsLead g.rules)
    (hnone : config.foldInputEmpties = true → NoneEmpty g.rules)
    (hreached : ∀ i ∈ ruleIds g.rules, g.Reaches tags.implicitEdges i) :
    FluentGrammar.prepare config g tags s = .ok (g, tags) s := by
  have hbridge : FluentGrammar.bridgeTerminals g tags s = .ok (g, tags) s :=
    bridgeTerminals_of_led hled
  have hdrop := dropUnreachable_of_reached hg hreached
  unfold FluentGrammar.prepare
  refine bind_eq_ok.mpr ⟨(g, tags), s, hbridge, ?_⟩
  by_cases hfolds : config.foldInputEmpties = true
  · simp only [if_pos hfolds]
    have hfold : FluentGrammar.foldEmpties g tags s = .ok (g, tags) s :=
      foldEmpties_of_noneEmpty (hnone hfolds)
    exact bind_eq_ok.mpr ⟨(g, tags), s, hfold, hdrop⟩
  · simp only [if_neg hfolds]
    exact bind_eq_ok.mpr ⟨(g, tags), s, rfl, hdrop⟩

/-- No pass finds anything to do where, besides, no shared prefix is discovered. -/
theorem Coherent.canonicalPass_settled (hg : Coherent g tags s) (hled : TerminalsLead g.rules)
    (hnone : config.foldInputEmpties = true → NoneEmpty g.rules)
    (hreached : ∀ i ∈ ruleIds g.rules, g.Reaches tags.implicitEdges i)
    (hsettled : g.discover config.detectUnsupported = .ok none) :
    FluentGrammar.canonicalPass config g tags s = .ok (g, tags) s := by
  have hprepare := hg.prepare_settled hled hnone hreached
  have hrounds : FluentGrammar.factorAll config g.roundBound g tags s = .ok (g, tags) s :=
    factorAll_of_settled hsettled
  have hdrop := dropUnreachable_of_reached hg hreached
  rw [canonicalPass_eq]
  refine bind_eq_ok.mpr ⟨(g, tags), s, hprepare, ?_⟩
  exact bind_eq_ok.mpr ⟨(g, tags), s, hrounds, hdrop⟩

/-- All passes leave a canonical form as it is, whatever session they run on. -/
theorem Canonicalized.rerun {s₀ : Session} (h : Canonicalized config g s g' tags' s')
    (hg' : Coherent g' tags' s₀) : canonicalPass config g' tags' s₀ = .ok (g', tags') s₀ :=
  hg'.canonicalPass_settled h.led (fun hfolds => h.none_empty (Or.inl hfolds)) h.reached
    h.discover_none

/-- A canonical form is its own canonical form under the same configuration, and nothing is
    done to find that out. -/
theorem canonicalize_canonical {c : Canonical} (hg : g.Valid)
    (h : canonicalize config g tags = .ok c) :
    canonicalize config c.grammar c.tags = .ok ⟨c.grammar, c.tags, .zero⟩ := by
  obtain ⟨s', -, hcanonical⟩ := Canonicalized.of_canonicalize hg h
  have hretain := Tagging.retain_of_subset fun i => (hcanonical.coherent.tagged i).mp
  obtain ⟨entries, hentries⟩ := hcanonical.coherent.exists_entries
  have hinitial := Coherent.initial hcanonical.coherent.valid hentries
  rw [hretain] at hinitial
  rw [canonicalize_eq_ok, hretain]
  exact ⟨⟨entries, hentries⟩, _, _, _, hcanonical.rerun hinitial, rfl⟩

/-- What a round of factoring has made of a shared call stays as it is. -/
theorem sharedCall_final :
    sharedCall.Valid ∧
      canonicalize .default sharedCall (.full sharedCall) = .ok sharedCallFactored ∧
      canonicalize .default sharedCallFactored.grammar sharedCallFactored.tags =
        .ok ⟨sharedCallFactored.grammar, sharedCallFactored.tags, .zero⟩ :=
  ⟨sharedCall_valid, canonical_sharedCall,
    canonicalize_canonical sharedCall_valid canonical_sharedCall⟩

end FluentGrammar
