import FluentGrammar.Proofs.Rewriting.Invariants
import FluentGrammar.Proofs.SharedPrefix.Outcome
import FluentGrammar.Proofs.Value.Trees

/-! # No word gains or loses a derivation tree

    Factoring loses a tree only where two alternatives give the same part, which is then
    listed once. Where no two chains of the selection at hand are alike, that does not happen,
    neither at the root nor at any variable below it. All other passes keep the values of all
    variables, so they keep the number of trees of every word.
-/

namespace FluentGrammar

variable {config : Config} {g g₀ g' : Grammar} {tags tags' : Tagging} {s s' : Session}

/-! ## Factoring -/

/-- Where no two chains may be alike, the root of a shared prefix is separated: the chains of
    the selection that was looked at pass it. -/
theorem separated_root_of_discover {p : SharedPrefix} (hg : g.Valid)
    (h : g.discover true = .ok (some p)) : g.Separated p.root.id := by
  obtain ⟨v, q, first, rest, n, ⟨alternatives, hr⟩, -, hambiguity, hq, rfl⟩ :=
    exists_gathered_of_discover hg h
  have hv : v.id ∈ ruleIds g.rules := mem_ruleIds_of_mem hr
  have hsep : g.Separated v.id := (separated_iff hg hv).mpr (hambiguity rfl)
  have hfirst := (hq.listed first (List.mem_cons_self ..)).1
  have hpath := passes_of_mem_vars hg hv hfirst _ (root_dropFront_mem first.chain n)
  exact hsep.of_passes hg hpath

/-- Factoring a separated selection keeps the number of trees of every word. -/
theorem TreesAlike.of_leftFactor {target : SharedPrefix} (hg : Coherent g tags s)
    (hsep : g.Separated target.root.id)
    (h : leftFactor g tags target s = .ok (g', tags') s') : TreesAlike g g' := by
  obtain ⟨alternatives, tag, bench, o, hfactored⟩ := leftFactor_factoredBy hg h
  have hg' := Grammar.valid_of_ofRules hfactored.rules_eq
  have hapart := hfactored.outcome.allApart hg.valid hg.fresh hsep
  refine .of_values hg.valid hg' fun a a' ha ha' i hi _ => ?_
  exact (hfactored.factored.values_le compatible_eq (Or.inr hapart) hg.valid hg'.well_formed
    ha ha' i hi).1

/-! ## All passes -/

/-- A state in which every word has as many trees as in a given grammar. -/
structure KeepsTrees (g₀ : Grammar) (g : Grammar) (tags : Tagging) (s : Session) : Prop where
  coherent : Coherent g tags s
  count_eq : ∀ w, treeCount g g.start w = treeCount g₀ g₀.start w

theorem KeepsTrees.step (h : KeepsTrees g₀ g tags s) (hstep : Rewritten g s g' tags' s')
    (halike : TreesAlike g g') : KeepsTrees g₀ g' tags' s' := by
  refine ⟨hstep.coherent, fun w => ?_⟩
  have hstart := defines_iff_mem_ruleIds.mp h.coherent.valid.well_formed.start_defined
  have hstart' := defines_iff_mem_ruleIds.mp hstep.coherent.valid.well_formed.start_defined
  rw [hstep.rewrites.start_eq] at hstart' ⊢
  rw [halike g.start hstart hstart' w, h.count_eq]

/-- If no two chains of a selection may be alike, no pass changes the number of trees. -/
theorem passInvariant_keepsTrees (hdetect : config.detectUnsupported = true) :
    PassInvariant config (KeepsTrees g₀) where
  count := fun f h => ⟨h.coherent.count f, h.count_eq⟩
  bridge := by
    intro g tags s g' tags' s' h hrun
    obtain ⟨hstep, -⟩ := h.coherent.bridgeTerminals hrun
    have halike := ValuedAlike.of_bridgeTerminals h.coherent.valid hrun
    exact h.step hstep (halike.treesAlike h.coherent.valid hstep.coherent.valid)
  fold := by
    intro g tags s rules g' tags' s' h hfold hof
    have hstep := h.coherent.foldRound hfold hof
    have halike := ValuedAlike.of_folded h.coherent.valid (foldRules_eq_ok hfold).2
      fun r => Grammar.mem_rules_of_ofRules hof
    exact h.step hstep (halike.treesAlike h.coherent.valid hstep.coherent.valid)
  drop := by
    intro g tags s g' tags' s' h hrun
    have hstep := h.coherent.dropUnreachable hrun
    have halike := ValuedAlike.of_subset hstep.coherent.valid
      (rules_subset_of_dropUnreachable hrun)
    exact h.step hstep (halike.treesAlike h.coherent.valid hstep.coherent.valid)
  factor := by
    intro g tags s target g' tags' s' h hfound hrun
    obtain ⟨hstep, -⟩ := h.coherent.leftFactor hrun
    -- Discovery has refused alike chains, so no two parts are merged.
    rw [hdetect] at hfound
    have hsep := separated_root_of_discover h.coherent.valid hfound
    exact h.step hstep (.of_leftFactor h.coherent hsep hrun)

/-- If ambiguous shapes are refused, every word has as many derivation trees in the canonical
    form as in the grammar that was given. -/
theorem canonicalize_treeCount {c : Canonical} (hg : g.Valid)
    (hdetect : config.detectUnsupported = true) (h : canonicalize config g tags = .ok c)
    (w : Word) :
    Finite (TreesOf g g.start w) ∧ Finite (TreesOf c.grammar c.grammar.start w) ∧
      treeCount c.grammar c.grammar.start w = treeCount g g.start w := by
  obtain ⟨⟨entries, hentries⟩, g', tags', s', hrun, rfl⟩ := canonicalize_eq_ok.mp h
  have hinitial : KeepsTrees g g (tags.retain g.contains) (.ofGrammar g) :=
    ⟨.initial hg hentries, fun _ => rfl⟩
  have hfinal := (passInvariant_keepsTrees hdetect).canonicalPass hinitial hrun
  have hg' := hfinal.coherent.valid
  have hstart := defines_iff_mem_ruleIds.mp hg.well_formed.start_defined
  have hstart' := defines_iff_mem_ruleIds.mp hg'.well_formed.start_defined
  exact ⟨finite_treesOf hg hstart w, finite_treesOf hg' hstart' w, hfinal.count_eq w⟩

/-- Factoring two calls of one terminal changes no number of trees. -/
theorem sharedCall_treeCount :
    sharedCall.Valid ∧ Config.default.detectUnsupported = true ∧
      sharedCall.canonical = .ok sharedCallFactored ∧
        ∀ w, treeCount sharedCallFactored.grammar sharedCallFactored.grammar.start w =
          treeCount sharedCall sharedCall.start w :=
  ⟨sharedCall_valid, rfl, canonical_sharedCall, fun w =>
    (canonicalize_treeCount sharedCall_valid rfl canonical_sharedCall w).2.2⟩

end FluentGrammar
