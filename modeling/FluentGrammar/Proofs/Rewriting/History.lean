import FluentGrammar.Proofs.Grammar.Renumbering
import FluentGrammar.Proofs.Rewriting.Invariants
import FluentGrammar.Proofs.SharedPrefix.Levels
import FluentGrammar.Proofs.SharedPrefix.Material
import FluentGrammar.Proofs.Tag.Folding
import FluentGrammar.Proofs.Tag.Passes
import FluentGrammar.Rewriting.History

/-! # Passes in any order keep stages sound

    A pool collects every occurrence of a variable in any stage so far. The session knows the
    pool, and each move adds to it what it has been handed out. So whatever a move brings back
    from an earlier stage, it takes nothing for new that is old, and nothing for old that is
    new. Moves that fail spend some of the session, which still knows the pool.
-/

namespace FluentGrammar

variable {g g' : Grammar} {tags tags' : Tagging} {s s' : Session} {e : PassError}
variable {pool : List Variable} {target : SharedPrefix}

/-! ## Tags -/

theorem Tagging.covers_iff : tags.Covers g ↔ ∀ i ∈ ruleIds g.rules, i ∈ tags.ids := by
  constructor
  · intro h i hi
    obtain ⟨r, hr, rfl⟩ := mem_ruleIds.mp hi
    obtain ⟨tag, htag⟩ := h r.lhs (List.mem_map_of_mem hr)
    exact mem_ids_of_require htag
  · intro h v hv
    obtain ⟨r, hr, rfl⟩ := List.mem_map.mp hv
    have hsome := tag?_isSome.mpr (h _ (mem_ruleIds_of_mem hr))
    obtain ⟨tag, htag⟩ := Option.isSome_iff_exists.mp hsome
    exact ⟨tag, require_eq_ok.mpr htag⟩

/-! ## What a move keeps -/

/-- All terminals, and the variables of a pool. -/
def Vocabulary.ofPool (pool : List Variable) : Vocabulary :=
  ⟨pool, fun _ => True, fun _ => True⟩

/-- A valid grammar of occurrences that the session knows, with tags for all its variables. -/
structure Pooled (pool : List Variable) (g : Grammar) (tags : Tagging) (s : Session) : Prop where
  valid : g.Valid
  made : g.Over (.ofPool pool)
  knows : s.Knows pool
  covered : tags.Covers g

namespace Pooled

theorem occurrences_subset (h : Pooled pool g tags s) : g.occurrences ⊆ pool :=
  h.made.occurrences

theorem fresh (h : Pooled pool g tags s) : ∀ i ∈ ruleIds g.rules, i < s.ids.issued := by
  intro i hi
  obtain ⟨r, hr, rfl⟩ := mem_ruleIds.mp hi
  exact h.knows.below _ (h.occurrences_subset (Grammar.lhs_mem_occurrences hr))

/-- A session that has been used further knows the pool as well. -/
theorem spend (h : Pooled pool g tags s) (hspends : s.Spends s') : Pooled pool g tags s' :=
  ⟨h.valid, h.made, h.knows.mono hspends, h.covered⟩

theorem initial (hg : g.Valid) (hnamed : NamedAlike g.occurrences) (htags : tags.Covers g) :
    Pooled g.occurrences g tags (.ofGrammar g) where
  valid := hg
  made := ⟨Grammar.start_mem_occurrences, fun _ hr =>
    Rule.over_of_mentions (fun _ hv => Grammar.mem_occurrences_of_mentions hr hv)
      (fun _ _ => trivial) fun _ _ => trivial⟩
  knows := Session.knows_ofGrammar hg hnamed
  covered := htags

theorem sound (h : Pooled pool g tags s) : Stage.Sound ⟨g, tags, s⟩ where
  valid := h.valid
  named_alike := (h.knows.of_subset h.occurrences_subset).named_alike
  below := (h.knows.of_subset h.occurrences_subset).below
  reserved := fun v hv =>
    NameSupply.contains_iff.mpr ((h.knows.of_subset h.occurrences_subset).reserved v hv)
  covered := h.covered

/-! ### Success -/

theorem bridgeTerminals (h : Pooled pool g tags s)
    (hrun : bridgeTerminals g tags s = .ok (g', tags') s') :
    ∃ fresh, s.Issues fresh s' ∧ Pooled (pool ++ fresh) g' tags' s' := by
  obtain ⟨fresh, hissues, hmade⟩ := h.made.bridgeTerminals hrun
  obtain ⟨rules, bridges, s₁, -, hbridged, hdone⟩ := bridgeTerminals_eq_ok hrun
  have hrest : g'.Valid ∧ tags'.Covers g' := by
    rcases hdone with ⟨-, rfl, rfl, -⟩ | ⟨hof, rfl, -⟩
    · exact ⟨h.valid, h.covered⟩
    · refine ⟨Grammar.valid_of_ofRules hof, Tagging.covers_iff.mpr fun i hi => ?_⟩
      have hi := ruleIds_subset (rules_subset_of_ofRules hof) hi
      rw [ruleIds_append, ruleIds_of_bridged hbridged, List.mem_append] at hi
      rw [Tagging.mem_ids_extend, List.map_map]
      rcases hi with hi | hi
      · exact Or.inr (Tagging.covers_iff.mp h.covered i hi)
      · obtain ⟨r, hr, rfl⟩ := mem_ruleIds.mp hi
        obtain ⟨b, hb, rfl⟩ := List.mem_map.mp hr
        exact Or.inl (List.mem_map_of_mem (f := fun b : Bridge => b.holder.id) hb)
  exact ⟨fresh, hissues, hrest.1, hmade, h.knows.issues hissues, hrest.2⟩

/-- One round of folding. -/
theorem foldRound (h : Pooled pool g tags s) {rules : List Rule}
    (hrun : foldRules g.emptyVariables tags g.rules s = .ok (rules, tags') s')
    (hof : Grammar.ofRules g.start rules = .ok g') :
    s.Issues [] s' ∧ Pooled pool g' tags' s' := by
  obtain ⟨hissues, hmade⟩ := h.made.foldRules trivial hrun hof
  obtain ⟨hkept, hfolded⟩ := foldRules_eq_ok hrun
  refine ⟨hissues, Grammar.valid_of_ofRules hof, hmade, h.knows.mono hissues.spends,
    Tagging.covers_iff.mpr fun i hi => ?_⟩
  have hi := ruleIds_subset (rules_subset_of_ofRules hof) hi
  rw [ruleIds_of_folded hfolded] at hi
  exact (hkept.tagged_iff i).mpr (Tagging.covers_iff.mp h.covered i hi)

theorem foldEmpties (h : Pooled pool g tags s)
    (hrun : foldEmpties g tags s = .ok (g', tags') s') :
    s.Issues [] s' ∧ Pooled pool g' tags' s' := by
  refine foldRounds_keeps (I := fun g₁ tags₁ s₁ => s.Issues [] s₁ ∧ Pooled pool g₁ tags₁ s₁)
    (fun hI hrules hof => ?_) ⟨.refl s, h⟩ hrun
  obtain ⟨hissues, hpooled⟩ := hI.2.foldRound hrules hof
  exact ⟨hI.1.trans hissues, hpooled⟩

theorem dropUnreachable (h : Pooled pool g tags s)
    (hrun : dropUnreachable g tags s = .ok (g', tags') s') :
    s.Issues [] s' ∧ Pooled pool g' tags' s' := by
  obtain ⟨hissues, hmade⟩ := h.made.dropUnreachable hrun
  obtain ⟨rfl, rfl, -⟩ := dropUnreachable_eq_ok.mp hrun
  refine ⟨hissues, h.valid.prune _, hmade, h.knows.mono hissues.spends,
    Tagging.covers_iff.mpr fun i hi => Tagging.mem_ids_retain.mpr ⟨?_, hi⟩⟩
  exact Tagging.covers_iff.mp h.covered i (ruleIds_subset Grammar.rules_prune_sublist.subset hi)

theorem leftFactor (h : Pooled pool g tags s) (hroot : target.root ∈ pool)
    (hrun : leftFactor g tags target s = .ok (g', tags') s') :
    ∃ fresh, s.Issues fresh s' ∧ Pooled (pool ++ fresh) g' tags' s' := by
  obtain ⟨fresh, hissues, hmade⟩ := h.made.leftFactor hroot trivial hrun
  obtain ⟨lhs, alternatives, tag, bench, hrule, -, hstep, hof, rfl, -⟩ := leftFactor_eq_ok hrun
  have hbefore : FactorTask.Before ⟨g, tags, target⟩ s := h.fresh
  obtain ⟨o, ho⟩ := exists_outcome_of_factorRoot h.valid hbefore hrule hstep
  refine ⟨fresh, hissues, Grammar.valid_of_ofRules hof, hmade, h.knows.issues hissues,
    Tagging.covers_iff.mpr fun i hi => ?_⟩
  have hi := ruleIds_subset (rules_subset_of_ofRules hof) hi
  rw [Tagging.mem_ids_extend, ho.tags_eq]
  rcases (ho.mem_replaced (mem_ruleIds_of_rule? hrule)).mp hi with hi | hi
  · exact Or.inr (Tagging.covers_iff.mp h.covered i hi)
  · left
    rw [List.map_append, List.map_map]
    exact List.mem_append_left _ hi

/-! ### Failure -/

theorem foldRounds_error {rounds : Nat} (h : Pooled pool g tags s)
    (hrun : foldRounds rounds g tags s = .error e s') : ∃ m, e = .mismatch m := by
  induction rounds generalizing g tags s with
  | zero => cases hrun
  | succ rounds ih =>
    rw [foldRounds] at hrun
    by_cases hempty : g.emptyVariables.isEmpty = true
    · rw [if_pos hempty] at hrun
      cases hrun
    · rw [if_neg hempty] at hrun
      rcases bind_eq_error.mp hrun with hfails | ⟨⟨rules, tags₁⟩, s₁, hrules, hrun⟩
      · have hconfined : Confined Session.Spends (fun e => ∃ m, e = .mismatch m)
            (foldRules g.emptyVariables tags g.rules) :=
          confined_foldRules (Session.along_spends fun _ => False) (fun m => ⟨m, rfl⟩) _
            fun r hr => Or.inl (Tagging.covers_iff.mp h.covered _ (mem_ruleIds_of_mem hr))
        exact (hconfined.of_error hfails).2
      · -- What has been folded makes a grammar again, and the next round begins with it.
        have hwell := h.valid.well_formed.of_folded (foldRules_eq_ok hrules).2
        have hrebuilt := rebuild_succeeds (Grammar.ofRules_eq_ok.mpr ⟨hwell, rfl⟩) s₁
        rcases bind_eq_error.mp hrun with hfails | ⟨g₁, s₂, hrebuild, hrun⟩
        · exact absurd hfails hrebuilt.not_error
        · obtain ⟨hof, rfl⟩ := rebuild_eq_ok.mp hrebuild
          exact ih (h.foldRound hrules hof).2 hrun

/-- Looking up a variable of the grammar does not fail. -/
theorem looksUp (h : Pooled pool g tags s) (P : PassError → Prop) :
    FactorTask.LooksUp ⟨g, tags, target⟩ P (fun v => v.id ∈ ruleIds g.rules) where
  tag := fun _ hv _ herror =>
    absurd (Tagging.covers_iff.mp h.covered _ hv) (Tagging.require_eq_error.mp herror).2
  rule := fun v hv _ herror => by
    obtain ⟨r, hr, hid⟩ := mem_ruleIds.mp hv
    have hrule := Grammar.rule?_of_mem h.valid.well_formed.nodup_ruleIds hr hid
    rw [(Grammar.requireRule_eq_error.mp herror).2] at hrule
    cases hrule
  references := fun _ _ _ hrule _ hw => mem_ruleIds_of_reference h.valid hrule hw

/-- Factoring fails because the root has no rule, because no alternative of it is on a chain,
    or because something does not fit. -/
theorem leftFactor_error (h : Pooled pool g tags s)
    (hrun : FluentGrammar.leftFactor g tags target s = .error e s') :
    Move.MayFail (.factor target) e := by
  -- The steps of factoring one after another, each with the ways in which it may fail.
  unfold FluentGrammar.leftFactor at hrun
  rcases bind_eq_error.mp hrun with hlookup | ⟨r, s₁, hlookup, hrun⟩
  · exact Or.inl (Grammar.requireRule_eq_error.mp (ofExcept_eq_error.mp hlookup).1).1
  obtain ⟨hrule, rfl⟩ := ofExcept_eq_ok.mp hlookup
  rw [Grammar.requireRule_eq_ok] at hrule
  cases r with
  | derivation lhs rhs =>
    cases hrun
    exact Or.inr (Or.inr ⟨_, rfl⟩)
  | selection lhs alternatives =>
    rcases bind_eq_error.mp hrun with htag | ⟨tag, s₁, htag, hrun⟩
    · have hmissing := (Tagging.require_eq_error.mp (ofExcept_eq_error.mp htag).1).2
      exact absurd (Tagging.covers_iff.mp h.covered _ (mem_ruleIds_of_rule? hrule)) hmissing
    obtain ⟨-, rfl⟩ := ofExcept_eq_ok.mp htag
    rcases bind_eq_error.mp hrun with hstep | ⟨bench, s₁, hstep, hrun⟩
    · have hconfined : Confined Session.Spends (fun e => ∃ m, e = .mismatch m)
          (runFactoring (factorRoot ⟨g, tags, target⟩ alternatives tag)) :=
        confined_runFactoring (confined_factorRoot (Session.along_spends _) (fun m => ⟨m, rfl⟩)
          (h.looksUp _) (fun v hv => mem_ruleIds_of_reference h.valid hrule hv) tag)
      exact Or.inr (Or.inr (hconfined.of_error hstep).2)
    · -- The rules on the workbench are linked, so at worst one of them selects among too few.
      obtain ⟨hstep, -⟩ := runFactoring_eq_ok hstep
      have hbefore : FactorTask.Before ⟨g, tags, target⟩ s := h.fresh
      obtain ⟨o, ho⟩ := exists_outcome_of_factorRoot h.valid hbefore hrule hstep
      rcases bind_eq_error.mp hrun with hrebuild | ⟨g₁, s₂, -, hrun⟩
      · obtain ⟨fault, hfault, rfl⟩ :=
          except_mapError_eq_error.mp (ofExcept_eq_error.mp hrebuild).1
        obtain ⟨r, -, -, rfl⟩ :=
          Grammar.ofRules_eq_error (ho.linked h.valid hbefore hrule) hfault
        exact Or.inr (Or.inl ⟨r.lhs, rfl⟩)
      · cases hrun

/-! ### Moves -/

variable {m : Move} {now : Stage}

/-- A move that succeeds adds to the pool what it has been handed out. -/
theorem run (h : Pooled pool g tags s) (hroot : ∀ target, m = .factor target → target.root ∈ pool)
    (hrun : m.run g tags s = .ok (g', tags') s') :
    ∃ fresh, s.Issues fresh s' ∧ Pooled (pool ++ fresh) g' tags' s' := by
  cases m with
  | bridge => exact h.bridgeTerminals hrun
  | fold => exact ⟨[], by simpa using h.foldEmpties hrun⟩
  | drop => exact ⟨[], by simpa using h.dropUnreachable hrun⟩
  | factor target => exact h.leftFactor (hroot target rfl) hrun

/-- A move that fails does so in one of the expected ways, and at most spends some of the
    session. -/
theorem run_error (h : Pooled pool g tags s) (hrun : m.run g tags s = .error e s') :
    m.MayFail e ∧ s.Spends s' := by
  cases m with
  | bridge => exact absurd hrun (bridgeTerminals_succeeds h.valid h.fresh).not_error
  | fold =>
    have hconfined := confined_foldEmpties (Session.along_spends fun _ => False) g tags
    exact ⟨h.foldRounds_error hrun, (hconfined.of_error hrun).1⟩
  | drop => exact absurd hrun (dropUnreachable_succeeds g tags s).not_error
  | factor target =>
    have hconfined := confined_leftFactor g tags target (Session.along_spends _)
    exact ⟨h.leftFactor_error hrun, (hconfined.of_error hrun).1⟩

/-- A move leads from a pooled stage to a pooled stage. Names that told variables apart still
    do. -/
theorem after (h : Pooled pool now.grammar now.tags now.session)
    (hroot : ∀ target, m = .factor target → target.root ∈ pool) :
    ∃ more, Pooled (pool ++ more) (now.after m).grammar (now.after m).tags
        (now.after m).session ∧ (ToldByName pool → ToldByName (pool ++ more)) := by
  unfold Stage.after
  cases hrun : m.run now.grammar now.tags now.session with
  | ok made s' =>
    obtain ⟨fresh, hissues, hpooled⟩ := h.run hroot hrun
    exact ⟨fresh, hpooled, fun htold => htold.issues h.knows hissues⟩
  | error e s' =>
    refine ⟨[], ?_⟩
    rw [List.append_nil]
    exact ⟨h.spend (h.run_error hrun).2, id⟩

end Pooled

/-! ## Histories -/

variable {g₀ : Grammar} {tags₀ : Tagging} {now : Stage} {earlier : List Stage}

/-- The first shared prefix of `sharedCall`. -/
def sharedCallPrefix : SharedPrefix :=
  ⟨⟨"x", [countParameter]⟩, ⟨0, "S"⟩,
    [⟨⟨0, "S"⟩, [⟨1, "A"⟩]⟩, ⟨⟨0, "S"⟩, [⟨2, "B"⟩]⟩]⟩

end FluentGrammar
