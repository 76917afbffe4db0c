import FluentGrammar.Proofs.Canonical.WellTagged
import FluentGrammar.Proofs.Tag.Inheritance
import FluentGrammar.Tag.Meaning

/-! # Tags of a canonical form are right

    At the beginning every variable builds the node of its own name and has read nothing. The
    tags of a canonical form are inherited from these, so each of them says what its variable
    goes on with. Only bridges name no node, and a bridge derives but one word.
-/

namespace FluentGrammar

variable {config : Config} {g g' : Grammar} {tags tags' : Tagging} {s s' : Session}

/-- A bridge derives the word of its terminal and nothing else. -/
theorem derives_iff_of_bridge (hg : g.Valid) {r : Rule} (hr : r ∈ g.rules)
    (hfits : Tag.bridge.Fits r) :
    ∃ word : Word, word.length ≤ 1 ∧ ∀ w, Derives g r.lhs w ↔ w = word := by
  cases hfits with
  | bridge lhs t =>
    refine ⟨t.word, ?_, fun w => ?_⟩
    · unfold Terminal.word
      split <;> simp
    · rw [derives_iff_of_derivation (Grammar.rule?_of_mem hg.well_formed.nodup_ruleIds hr rfl)]
      simp

/-- What is inherited from a full tag goes on with the variable that had it. -/
theorem Inherits.continues {issued : Nat} {v v' : Variable} {tag tag' : Tag} {x : Word}
    (h : Inherits g tags issued g' v' tag' v tag x)
    (hfull : ∀ v ∈ g.vars, tags.tag? v = some (.full v.name))
    (hissued : ∀ i ∈ ruleIds g.rules, i < issued) : tag'.Continues g g' v' v x := by
  obtain rfl : tag = .full v.name :=
    Option.some.inj (h.tagged.symm.trans (hfull v h.mem))
  refine ⟨h.mem, h.node_eq, h.required_eq, h.derives, fun hdefines => ?_⟩
  obtain ⟨hid, hx⟩ := h.kept (hissued _ (defines_iff_mem_ruleIds.mp hdefines))
  exact ⟨hid.symm, hx⟩

/-- If every variable builds the node of its own name at first, the tags of the canonical
    form are right: a bridge derives a single word, of at most one terminal, and every other
    variable goes on with the variable whose node it builds, behind the components that have
    been read. -/
theorem canonicalize_meaning {c : Canonical} (hg : g.Valid)
    (h : canonicalize config g (.full g) = .ok c) :
    ∀ v ∈ c.grammar.vars, ∃ tag, c.tags.tag? v = some tag ∧
      (tag = .bridge →
        ∃ word : Word, word.length ≤ 1 ∧ ∀ w, Derives c.grammar v w ↔ w = word) ∧
      (tag ≠ .bridge → ∃ o read, tag.Continues g c.grammar v o read) := by
  obtain ⟨-, g', tags', s', hrun, rfl⟩ := canonicalize_eq_ok.mp h
  have hinitial := (wellTagged_full hg).initial hg
  have hfinal := hinitial.canonicalPass hrun
  have hdescends := passInvariant_descends.canonicalPass (.refl hinitial.coherent) hrun
  have hfull : ∀ v ∈ g.vars,
      ((Tagging.full g).retain g.contains).tag? v = some (.full v.name) := by
    intro v hv
    obtain ⟨r, hr, rfl⟩ := List.mem_map.mp hv
    rw [Tagging.tag?_retain (mem_ruleIds_of_mem hr)]
    exact Tagging.tag?_full hg hr
  -- Every tag fits its rule, and unless it is a bridge it has come down from one of these.
  intro v hv
  obtain ⟨r, hr, rfl⟩ := List.mem_map.mp hv
  obtain ⟨tag, htag, hfits, -⟩ := hfinal.tagged r hr
  refine ⟨tag, htag, fun hbridge => ?_, fun hne => ?_⟩
  · rw [hbridge] at hfits
    exact derives_iff_of_bridge hfinal.coherent.valid hr hfits
  · obtain ⟨o, tag₀, read, hinherits⟩ := hdescends.inherit r.lhs hv tag htag hne
    exact ⟨o, read, hinherits.continues hfull hinitial.coherent.fresh⟩

/-- The variable that chooses what to do behind the shared terminal goes on with the start
    variable, of which one component has been read. -/
theorem sharedCall_meaning :
    sharedCall.Valid ∧
      canonicalize .default sharedCall (.full sharedCall) = .ok sharedCallFactored ∧
      (⟨6, "S_x_K"⟩ : Variable) ∈ sharedCallFactored.grammar.vars ∧
      ∃ o read, (Tag.partialSelection "S" [countParameter]).Continues sharedCall
        sharedCallFactored.grammar ⟨6, "S_x_K"⟩ o read := by
  have hmem : (⟨6, "S_x_K"⟩ : Variable) ∈ sharedCallFactored.grammar.vars := by
    simp [sharedCallFactored, Grammar.vars, Rule.lhs]
  obtain ⟨tag, htag, -, hcontinues⟩ :=
    canonicalize_meaning sharedCall_valid canonical_sharedCall _ hmem
  have hlookup : sharedCallFactored.tags.tag? ⟨6, "S_x_K"⟩ =
      some (.partialSelection "S" [countParameter]) := by decide
  obtain rfl := Option.some.inj (htag.symm.trans hlookup)
  exact ⟨sharedCall_valid, canonical_sharedCall, hmem, hcontinues (by decide)⟩

end FluentGrammar
