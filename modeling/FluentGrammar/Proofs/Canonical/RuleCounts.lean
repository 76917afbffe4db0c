import FluentGrammar.Proofs.Bridging.Exact
import FluentGrammar.Proofs.Folding.Lossless
import FluentGrammar.Proofs.Rewriting.RoundRuns
import FluentGrammar.Proofs.SharedPrefix.RuleCounts

/-! # Accounts of rules

    The tally of a run accounts for all rules: those that there are and those that were dropped
    are the rules that the run began with and those that it has added. No pass loses a rule on
    the way into a grammar, because no variable that is added has the id of another one.
-/

namespace FluentGrammar

variable {config : Config} {g g' : Grammar} {tags tags' : Tagging} {s s' : Session}
variable {first : Nat}

/-- The rules that there are and those that were dropped are the first ones and those that were
    added. -/
def Accounts (first : Nat) (g : Grammar) (s : Session) : Prop :=
  g.size + s.tally.pruned = first + s.tally.bridges + s.tally.synthesized

theorem Accounts.initial (g : Grammar) : Accounts g.size g (.ofGrammar g) := rfl

/-! ## Passes -/

/-- A rule is added for every bridge. -/
theorem Accounts.bridgeTerminals (h : Accounts first g s) (hg : g.Valid)
    (hrun : bridgeTerminals g tags s = .ok (g', tags') s') : Accounts first g' s' := by
  obtain ⟨rules, bridges, s₁, -, htaken, hbridged, -, rfl, -, rfl⟩ :=
    bridgeTerminals_sorts hg hrun
  have hsize : (sortRules (rules ++ bridges.map Bridge.rule)).length =
      g.size + bridges.length := by
    rw [sortRules, (sortOn_perm Rule.lhs _).length_eq, List.length_append, List.length_map,
      ← hbridged.length_eq]
    rfl
  unfold Accounts at h ⊢
  simp only [Session.count, htaken.tally_eq]
  rw [Grammar.size, hsize]
  omega

/-- Folding neither adds nor drops a rule. -/
theorem Accounts.foldEmpties (h : Accounts first g s) (hg : g.Valid)
    (hrun : foldEmpties g tags s = .ok (g', tags') s') : Accounts first g' s' := by
  obtain ⟨-, hlossless⟩ := foldEmpties_lossless hg tags s
  obtain ⟨-, -, ⟨drops, hfolded⟩, -⟩ := hlossless g' tags' s' hrun
  have hsize : g'.size = g.size := hfolded.rules.length_eq.symm
  unfold Accounts at h ⊢
  rw [hsize, hfolded.session_eq]
  exact h

/-- Every rule that is dropped is counted. -/
theorem Accounts.dropUnreachable (h : Accounts first g s)
    (hrun : dropUnreachable g tags s = .ok (g', tags') s') : Accounts first g' s' := by
  obtain ⟨rfl, -, rfl⟩ := dropUnreachable_eq_ok.mp hrun
  have hparts : (g.prune tags.implicitEdges).1.size + (g.prune tags.implicitEdges).2.length =
      g.size := by
    unfold Grammar.prune Grammar.size
    simp only [List.partition_eq_filter_filter, List.length_map]
    exact (List.length_eq_length_filter_add _).symm
  unfold Accounts at h ⊢
  simp only [Session.count]
  omega

/-- A rule is added for every variable that factoring counts. -/
theorem Accounts.leftFactor {target : SharedPrefix} (h : Accounts first g s) (hg : g.Valid)
    (hrun : leftFactor g tags target s = .ok (g', tags') s') : Accounts first g' s' := by
  obtain ⟨n, hsize, htally⟩ := leftFactor_size hg hrun
  unfold Accounts at h ⊢
  simp only [hsize, htally, Tally.synthesize]
  omega

/-! ## Rounds -/

theorem Accounts.factorRound {target : SharedPrefix} (h : Accounts first g s)
    (hg : Coherent g tags s) (hrun : factorRound g tags target s = .ok (g', tags') s') :
    Accounts first g' s' := by
  unfold FluentGrammar.factorRound at hrun
  obtain ⟨⟨g₁, tags₁⟩, s₁, hfactor, hrun⟩ := bind_eq_ok.mp hrun
  obtain ⟨⟨g₂, tags₂⟩, s₂, hdrop, hfold⟩ := bind_eq_ok.mp hrun
  obtain ⟨hfactored, -, -⟩ := hg.leftFactor hfactor
  have hdropped := hfactored.coherent.dropUnreachable hdrop
  have hbehind := (h.leftFactor hg.valid hfactor).dropUnreachable hdrop
  exact hbehind.foldEmpties hdropped.coherent.valid hfold

/-- A run of rounds accounts for its rules if each round does. -/
theorem RoundsRun.accounts {detect : Bool} {n : Nat}
    (h : RoundsRun detect g tags s n (.ok (g', tags') s')) (hg : Coherent g tags s)
    (haccounts : Accounts first g s) : Accounts first g' s' := by
  generalize houtcome : EStateM.Result.ok (g', tags') s' = outcome at h
  induction h with
  | settled h =>
    cases houtcome
    exact haccounts
  | refused h => cases houtcome
  | broken h hround => cases houtcome
  | @round g g₁ tags tags₁ s s₁ target n outcome h hround hrest ih =>
    obtain ⟨hcoherent, -⟩ := hg.countRound_factorRound hround
    -- Counting a round is not counting rules.
    have hcounted : Accounts first g s.countRound := haccounts
    exact ih hcoherent (hcounted.factorRound (hg.count _) hround) houtcome

/-! ## The whole pipeline -/

theorem Accounts.prepare (h : Accounts first g s) (hg : Coherent g tags s)
    (hrun : prepare config g tags s = .ok (g', tags') s') : Accounts first g' s' := by
  unfold FluentGrammar.prepare at hrun
  obtain ⟨⟨g₁, tags₁⟩, s₁, hbridge, hrun⟩ := bind_eq_ok.mp hrun
  obtain ⟨⟨g₂, tags₂⟩, s₂, hfold, hdrop⟩ := bind_eq_ok.mp hrun
  obtain ⟨hbridged, -⟩ := hg.bridgeTerminals hbridge
  have hbehind := h.bridgeTerminals hg.valid hbridge
  refine Accounts.dropUnreachable ?_ hdrop
  by_cases hfolds : config.foldInputEmpties = true
  · rw [if_pos hfolds] at hfold
    exact hbehind.foldEmpties hbridged.coherent.valid hfold
  · rw [if_neg hfolds] at hfold
    obtain ⟨heq, rfl⟩ := pure_eq_ok.mp hfold
    cases heq
    exact hbehind

/-- The rules of a canonical form and those that were dropped on the way are the rules of the
    grammar, one for each bridge, and one for each variable that factoring has added. -/
theorem canonicalize_size {c : Canonical} (hg : g.Valid)
    (h : canonicalize config g tags = .ok c) :
    c.grammar.size + c.tally.pruned = g.size + c.tally.bridges + c.tally.synthesized := by
  obtain ⟨⟨entries, hentries⟩, g', tags', s', hrun, rfl⟩ := canonicalize_eq_ok.mp h
  have hinitial := Coherent.initial hg hentries
  rw [canonicalPass_eq] at hrun
  obtain ⟨⟨g₁, tags₁⟩, s₁, hprepare, hrun⟩ := bind_eq_ok.mp hrun
  obtain ⟨⟨g₂, tags₂⟩, s₂, hrounds, hlast⟩ := bind_eq_ok.mp hrun
  obtain ⟨hprepared, -, -⟩ := hinitial.prepare hprepare
  have hzero : s₁.tally.iterations = 0 := hprepared.rounds_eq
  have hbegun : config.Permits s₁.tally.iterations := fun m _ => hzero ▸ Nat.zero_le m
  obtain ⟨n, -, hfactored⟩ := RoundsRun.of_factorAll hprepared.coherent hbegun hrounds
  have haccounts := (Accounts.initial g).prepare hinitial hprepare
  exact (hfactored.accounts hprepared.coherent haccounts).dropUnreachable hlast

/-- Five rules are left of four and three new ones, because two are dropped. -/
theorem sharedCall_size :
    sharedCall.Valid ∧ sharedCall.canonical = .ok sharedCallFactored ∧
      sharedCallFactored.grammar.size + sharedCallFactored.tally.pruned =
        sharedCall.size + sharedCallFactored.tally.bridges +
          sharedCallFactored.tally.synthesized :=
  ⟨sharedCall_valid, canonical_sharedCall, canonicalize_size sharedCall_valid canonical_sharedCall⟩

end FluentGrammar
