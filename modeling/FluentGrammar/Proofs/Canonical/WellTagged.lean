import FluentGrammar.Proofs.SharedPrefix.Progress
import FluentGrammar.Proofs.Tag.Factoring
import FluentGrammar.Proofs.Tag.Folding

/-! # Tags fit the canonical form

    Every pass succeeds on a state whose tags fit its rules, and leaves such a state. So a run
    fails only because a shape is ambiguous or because too many rounds are needed, and when it
    ends, the tags fit the rules of the canonical form.
-/

namespace FluentGrammar

variable {config : Config} {g g' : Grammar} {tags tags' : Tagging} {s s' : Session}
variable {target : SharedPrefix}

/-- A coherent state the tags of which fit the rules. -/
structure Fitted (g : Grammar) (tags : Tagging) (s : Session) : Prop where
  coherent : Coherent g tags s
  tagged : WellTagged g tags

theorem Fitted.suited (h : Fitted g tags s) : Suited g tags s :=
  ⟨h.coherent, h.tagged.suited⟩

/-! ## Passes -/

theorem Fitted.foldEmpties (h : Fitted g tags s)
    (hrun : foldEmpties g tags s = .ok (g', tags') s') : Fitted g' tags' s' :=
  ⟨(h.coherent.foldEmpties hrun).1.coherent, h.suited.foldEmpties hrun⟩

theorem Fitted.dropUnreachable (h : Fitted g tags s)
    (hrun : dropUnreachable g tags s = .ok (g', tags') s') : Fitted g' tags' s' :=
  ⟨(h.coherent.dropUnreachable hrun).coherent, h.tagged.dropUnreachable h.coherent hrun⟩

/-- The folding in front of the rounds, which is made only if it is asked for. -/
theorem Fitted.foldInput (h : Fitted g tags s) (config : Config) :
    ∃ g₁ tags₁ s₁, (if config.foldInputEmpties then FluentGrammar.foldEmpties g tags
      else pure (g, tags)) s = .ok (g₁, tags₁) s₁ ∧ Fitted g₁ tags₁ s₁ := by
  by_cases hfolds : config.foldInputEmpties = true
  · rw [if_pos hfolds]
    obtain ⟨⟨g₁, tags₁⟩, s₁, hfold⟩ := foldEmpties_succeeds h.suited
    exact ⟨g₁, tags₁, s₁, hfold, h.foldEmpties hfold⟩
  · rw [if_neg hfolds]
    exact ⟨g, tags, s, rfl, h⟩

/-- What precedes the rounds succeeds. -/
theorem Fitted.prepare (h : Fitted g tags s) (config : Config) :
    ∃ g₁ tags₁ s₁, prepare config g tags s = .ok (g₁, tags₁) s₁ ∧ Fitted g₁ tags₁ s₁ := by
  obtain ⟨⟨g₁, tags₁⟩, s₁, hbridge⟩ := bridgeTerminals_succeeds h.coherent.valid h.coherent.fresh
  have h₁ : Fitted g₁ tags₁ s₁ :=
    ⟨(h.coherent.bridgeTerminals hbridge).1.coherent, h.tagged.bridgeTerminals h.coherent hbridge⟩
  obtain ⟨g₂, tags₂, s₂, hfold, h₂⟩ := h₁.foldInput config
  obtain ⟨⟨g₃, tags₃⟩, s₃, hdrop⟩ := dropUnreachable_succeeds g₂ tags₂ s₂
  refine ⟨g₃, tags₃, s₃, ?_, h₂.dropUnreachable hdrop⟩
  exact bind_eq_ok.mpr ⟨_, _, hbridge, bind_eq_ok.mpr ⟨_, _, hfold, hdrop⟩⟩

/-- Factoring leaves tags that suit the rules, and so does pruning behind it. -/
theorem Fitted.leftFactor (h : Fitted g tags s)
    (hrun : leftFactor g tags target s = .ok (g', tags') s') : Suited g' tags' s' := by
  obtain ⟨alternatives, tag, bench, o, hfactored⟩ := leftFactor_factoredBy h.coherent hrun
  have hbefore : FactorTask.Before ⟨g, tags, target⟩ s := h.coherent.fresh
  exact ⟨(h.coherent.leftFactor hrun).1.coherent,
    hfactored.tagged h.coherent.valid hbefore h.tagged.suited⟩

theorem Suited.dropUnreachable (h : Suited g tags s)
    (hrun : dropUnreachable g tags s = .ok (g', tags') s') : Suited g' tags' s' :=
  ⟨(h.coherent.dropUnreachable hrun).coherent, h.tagged.dropUnreachable h.coherent hrun⟩

/-! ## Rounds -/

/-- A round for a shared prefix that has been discovered succeeds. -/
theorem Fitted.factorRound_succeeds (h : Fitted g tags s)
    (hfound : g.discover config.detectUnsupported = .ok (some target)) :
    Succeeds (factorRound g tags target) s := by
  have hforks := SharedPrefix.Forks.of_discover h.coherent.valid hfound
  unfold factorRound
  refine (leftFactor_succeeds h.coherent h.tagged.suited hforks).bind fun factored s₁ hfactor => ?_
  refine (dropUnreachable_succeeds _ _ s₁).bind fun dropped s₂ hdrop => ?_
  exact foldEmpties_succeeds ((h.leftFactor hfactor).dropUnreachable hdrop)

/-- A round keeps tags fitting. -/
theorem Fitted.factorRound (h : Fitted g tags s)
    (hrun : factorRound g tags target s = .ok (g', tags') s') : Fitted g' tags' s' := by
  refine ⟨(h.coherent.factorRound hrun).1.coherent, ?_⟩
  unfold FluentGrammar.factorRound at hrun
  obtain ⟨⟨g₁, tags₁⟩, s₁, hfactor, hrun⟩ := bind_eq_ok.mp hrun
  obtain ⟨⟨g₂, tags₂⟩, s₂, hdrop, hfold⟩ := bind_eq_ok.mp hrun
  exact ((h.leftFactor hfactor).dropUnreachable hdrop).foldEmpties hfold

theorem roundInvariant_fitted : RoundInvariant config Fitted where
  count := fun f h => ⟨h.coherent.count f, h.tagged⟩
  round := fun h _ hrun => h.factorRound hrun

/-- Failures that are no fault of the input tags: an ambiguous shape, or too many rounds. -/
def PassError.External (e : PassError) : Prop :=
  (∃ shape, e = .unsupported shape) ∨ ∃ limit, e = .iterationLimit limit

theorem Fitted.factorAll_error {rounds : Countdown} {e : PassError} (h : Fitted g tags s)
    (hrun : factorAll config rounds g tags s = .error e s') : e.External := by
  cases roundInvariant_fitted.of_factorAll_error h hrun with
  | limit n he => exact Or.inr ⟨n, he⟩
  | discovery hI hdiscover =>
    obtain ⟨v, shape, -, -, -, he⟩ := exists_of_discover_error hI.coherent.valid hdiscover
    exact Or.inl ⟨shape, he⟩
  | round hI hfound hround => exact absurd hround (hI.factorRound_succeeds hfound).not_error

/-! ## The whole pipeline -/

theorem Fitted.canonicalPass (h : Fitted g tags s)
    (hrun : canonicalPass config g tags s = .ok (g', tags') s') : Fitted g' tags' s' := by
  rw [canonicalPass_eq] at hrun
  obtain ⟨⟨g₁, tags₁⟩, s₁, hprepare, hrun⟩ := bind_eq_ok.mp hrun
  obtain ⟨⟨g₂, tags₂⟩, s₂, hrounds, hlast⟩ := bind_eq_ok.mp hrun
  obtain ⟨g₀, tags₀, s₀, hprepared, h₁⟩ := h.prepare config
  rw [hprepare] at hprepared
  cases hprepared
  exact (roundInvariant_fitted.of_factorAll h₁ hrounds).1.dropUnreachable hlast

theorem Fitted.canonicalPass_error {e : PassError} (h : Fitted g tags s)
    (hrun : FluentGrammar.canonicalPass config g tags s = .error e s') : e.External := by
  obtain ⟨g₀, tags₀, s₀, hprepared, h₁⟩ := h.prepare config
  rcases FluentGrammar.canonicalPass_error hrun with hprepare | ⟨g₁, tags₁, s₁, hprepare, hrounds⟩
  · rw [hprepared] at hprepare
    cases hprepare
  · rw [hprepared] at hprepare
    cases hprepare
    exact h₁.factorAll_error hrounds

/-- All variables can be looked up in fitting tags. -/
theorem WellTagged.exists_entries (h : WellTagged g tags) :
    ∃ entries, g.vars.mapM tags.require = .ok entries := by
  have htagged : ∀ v ∈ g.vars, ∃ tag, tags.require v = .ok tag := by
    intro v hv
    obtain ⟨r, hr, rfl⟩ := List.mem_map.mp hv
    obtain ⟨tag, htag, -⟩ := h r hr
    exact ⟨tag, Tagging.require_eq_ok.mpr htag⟩
  cases hrun : g.vars.mapM tags.require with
  | ok entries => exact ⟨entries, rfl⟩
  | error e =>
    obtain ⟨v, hv, hmissing⟩ := except_mapM_eq_error hrun
    obtain ⟨tag, htag⟩ := htagged v hv
    rw [hmissing] at htag
    cases htag

/-- Leaving out the tags of other variables does not touch those of the grammar. -/
theorem WellTagged.retain (h : WellTagged g tags) : WellTagged g (tags.retain g.contains) := by
  intro r hr
  rw [Tagging.tag?_retain (mem_ruleIds_of_mem hr)]
  exact h r hr

/-- Every rule can build a node of the name of its variable. -/
theorem wellTagged_full (hg : g.Valid) : WellTagged g (.full g) := by
  intro r hr
  exact ⟨_, Tagging.tag?_full hg hr, .full r.lhs.name r, fun _ hv => nomatch hv⟩

theorem WellTagged.initial (h : WellTagged g tags) (hg : g.Valid) :
    Fitted g (tags.retain g.contains) (.ofGrammar g) := by
  obtain ⟨entries, hentries⟩ := h.exists_entries
  exact ⟨.initial hg hentries, h.retain⟩

end FluentGrammar
