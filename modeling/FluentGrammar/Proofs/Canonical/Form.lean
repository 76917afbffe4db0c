import FluentGrammar.Proofs.Rewriting.Rounds
import FluentGrammar.Proofs.SharedPrefix.Discovery
import FluentGrammar.Proofs.Value.Languages

/-! # Canonical form

    All passes keep the languages of the variables that they keep, since a language is a
    value and no value grows under the order in which languages compare only with
    themselves.

    The result of all passes has no fault. Its derivations have terminals only in front, and
    none of them is empty unless empty rules were to be left and no round was needed. Nothing
    is left to be factored, nothing is unreachable, and exactly its variables are tagged.
-/

namespace FluentGrammar

/-! ## What it derives -/

/-- The canonical form of a grammar has its start variable, and every variable of the grammar
    that is still there derives the words that it derived before. -/
theorem canonicalize_derives_iff {config : Config} {g : Grammar} {tags : Tagging}
    {c : Canonical} (hg : g.Valid) (h : canonicalize config g tags = .ok c) :
    c.grammar.start = g.start ∧
      ∀ v, Defines g.rules v → Defines c.grammar.rules v →
        ∀ w, Derives c.grammar v w ↔ Derives g v w := by
  obtain ⟨s', -, hcanonical⟩ := Canonicalized.of_canonicalize hg h
  refine ⟨hcanonical.rewrites.start_eq, ?_⟩
  intro v hv hv' w
  exact hcanonical.rewrites.valued.derives_iff hg hcanonical.coherent.valid hv hv'

/-- A shared call derives the same words when it has been factored out. -/
theorem sharedCall_derives_iff :
    sharedCall.Valid ∧
      canonicalize .default sharedCall (.full sharedCall) = .ok sharedCallFactored ∧
      ∀ w, Derives sharedCallFactored.grammar sharedCall.start w ↔
        Derives sharedCall sharedCall.start w := by
  refine ⟨sharedCall_valid, canonical_sharedCall, ?_⟩
  have hstart := sharedCall_valid.well_formed.start_defined
  have hstart' : Defines sharedCallFactored.grammar.rules sharedCall.start := by
    unfold Defines
    decide +kernel
  exact (canonicalize_derives_iff sharedCall_valid canonical_sharedCall).2 _ hstart hstart'

/-! ## What it looks like -/

/-- Nothing is discovered in the result of all passes. -/
theorem Canonicalized.discover_eq {config : Config} {g g' : Grammar} {tags' : Tagging}
    {s s' : Session} (h : Canonicalized config g s g' tags' s') :
    g'.discover false = .ok none := by
  obtain ⟨g₁, extra, hg₁, hsettled, hprune⟩ := h.settled
  rw [hprune]
  exact discover_prune hg₁ extra (discover_none_of_detect hg₁ hsettled)

/-- The properties of a canonical form. -/
theorem canonicalize_form {config : Config} {g : Grammar} {tags : Tagging} {c : Canonical}
    (hg : g.Valid) (h : canonicalize config g tags = .ok c) :
    Grammar.ofRules c.grammar.start c.grammar.rules = .ok c.grammar ∧
      (∀ lhs rhs, Rule.derivation lhs rhs ∈ c.grammar.rules →
        ∀ symbol ∈ rhs.tail, symbol.isTerminal = false) ∧
      (config.foldInputEmpties = true ∨ 0 < c.tally.iterations →
        ∀ lhs, Rule.derivation lhs [] ∉ c.grammar.rules) ∧
      c.grammar.discover false = .ok none ∧
      (∀ v, Defines c.grammar.rules v →
        (c.grammar.reachable c.tags.implicitEdges).contains v = true) ∧
      ∀ v, (c.tags.tag? v).isSome = true ↔ Defines c.grammar.rules v := by
  obtain ⟨s', htally, hcanonical⟩ := Canonicalized.of_canonicalize hg h
  have hvalid := hcanonical.coherent.valid
  refine ⟨hvalid.ofRules_eq, ?_, ?_, hcanonical.discover_eq, ?_, ?_⟩
  · intro lhs rhs hr
    exact hcanonical.led _ hr
  · intro hrounds lhs hr
    have hnone : NoneEmpty c.grammar.rules := by
      apply hcanonical.none_empty
      rw [htally]
      exact hrounds
    have hempty := hnone _ hr
    cases hempty
  · intro v hv
    rw [Grammar.mem_reachable_iff hvalid.well_formed.nodup_ruleIds]
    exact hcanonical.reached v.id (defines_iff_mem_ruleIds.mp hv)
  · intro v
    rw [Tagging.tag?_isSome, hcanonical.coherent.tagged, defines_iff_mem_ruleIds]

/-- What becomes of a shared call has these properties. -/
theorem sharedCall_form :
    sharedCall.Valid ∧
      canonicalize .default sharedCall (.full sharedCall) = .ok sharedCallFactored ∧
      Grammar.ofRules sharedCallFactored.grammar.start sharedCallFactored.grammar.rules =
        .ok sharedCallFactored.grammar ∧
      (∀ lhs, Rule.derivation lhs [] ∉ sharedCallFactored.grammar.rules) ∧
      sharedCallFactored.grammar.discover false = .ok none := by
  obtain ⟨hof, -, hempty, hdiscover, -, -⟩ :=
    canonicalize_form sharedCall_valid canonical_sharedCall
  exact ⟨sharedCall_valid, canonical_sharedCall, hof, hempty (Or.inl rfl), hdiscover⟩

end FluentGrammar
