import FluentGrammar.Proofs.Grammar.Reachability
import FluentGrammar.Proofs.Rewriting.Coherence
import FluentGrammar.Rewriting.Canonical

/-! # Dropping unreachable variables keeps values

    What is left after pruning is closed under references, so every variable that is kept
    has the value that it had before, under every valuation.
-/

namespace FluentGrammar

variable {g g' : Grammar} {tags tags' : Tagging} {s s' : Session}

theorem ValuedAlike.of_subset (hg' : g'.Valid) (hsub : g'.rules ⊆ g.rules) :
    ValuedAlike g g' := by
  intro K _ _ term _ a a' ha ha' i _ hi'
  exact ha'.eq_of_subset hg'.well_formed hsub ha i hi'

/-- Dropping unreachable variables always succeeds. -/
theorem dropUnreachable_eq_ok :
    dropUnreachable g tags s = .ok (g', tags') s' ↔
      g' = (g.prune tags.implicitEdges).1 ∧ tags' = tags.retain g'.contains ∧
        s' = s.count (fun t => { t with
          pruned := t.pruned + (g.prune tags.implicitEdges).2.length }) := by
  have hrun : dropUnreachable g tags s =
      .ok ((g.prune tags.implicitEdges).1,
        tags.retain (g.prune tags.implicitEdges).1.contains)
        (s.count (fun t => { t with
          pruned := t.pruned + (g.prune tags.implicitEdges).2.length })) := rfl
  rw [hrun]
  constructor
  · intro h
    cases h
    exact ⟨rfl, rfl, rfl⟩
  · intro hand
    obtain ⟨hg, htags, hs⟩ := hand
    rw [htags, hs, hg]

theorem Coherent.dropUnreachable (h : Coherent g tags s)
    (hrun : dropUnreachable g tags s = .ok (g', tags') s') : Rewritten g s g' tags' s' := by
  obtain ⟨rfl, rfl, rfl⟩ := dropUnreachable_eq_ok.mp hrun
  have hsub : (g.prune tags.implicitEdges).1.rules.Sublist g.rules :=
    Grammar.rules_prune_sublist
  have hids := ruleIds_subset hsub.subset
  have hvalid := h.valid.prune tags.implicitEdges
  constructor
  · refine ⟨hvalid, fun i hi => h.fresh i (hids hi), ?_⟩
    intro i
    rw [Tagging.mem_ids_retain, h.tagged]
    exact ⟨fun hi => hi.2, fun hi => ⟨hids hi, hi⟩⟩
  · exact ⟨rfl, Nat.le_refl _, fun i hi => Or.inl (hids hi),
      (ValuedAlike.of_subset hvalid hsub.subset).valuedBelow⟩
  · rfl

/-- After unreachable variables have been dropped, all variables are reachable through
    references and the implicit edges of the tags that are left. -/
theorem Coherent.reaches_dropUnreachable (h : Coherent g tags s)
    (hrun : FluentGrammar.dropUnreachable g tags s = .ok (g', tags') s') :
    ∀ i ∈ ruleIds g'.rules, g'.Reaches tags'.implicitEdges i := by
  obtain ⟨rfl, rfl, rfl⟩ := dropUnreachable_eq_ok.mp hrun
  have hnodup := h.valid.well_formed.nodup_ruleIds
  intro i hi
  obtain ⟨r, hr, rfl⟩ := mem_ruleIds.mp hi
  refine Grammar.reaches_prune hnodup ?_ ((Grammar.mem_rules_prune hnodup).mp hr).2
  -- The rules of reachable variables are left, so the edges of their tags are kept.
  intro e he hreach
  simp only [Tagging.implicitEdges, List.mem_flatMap] at he ⊢
  obtain ⟨entry, hentry, he⟩ := he
  refine ⟨entry, List.mem_filter.mpr ⟨hentry, ?_⟩, he⟩
  obtain ⟨w, -, rfl⟩ := List.mem_map.mp he
  have htagged : entry.1.id ∈ ruleIds g.rules := by
    rw [← h.tagged]
    exact List.mem_map_of_mem hentry
  obtain ⟨q, hq, hqentry⟩ := mem_ruleIds.mp htagged
  rw [Grammar.contains_iff_mem_ruleIds]
  exact mem_ruleIds.mpr
    ⟨q, (Grammar.mem_rules_prune hnodup).mpr ⟨hq, hqentry ▸ hreach⟩, hqentry⟩

end FluentGrammar
