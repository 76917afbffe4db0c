import FluentGrammar.Proofs.Rewriting.Failures
import FluentGrammar.Proofs.Rewriting.Rounds

/-! # Invariants of the rounds

    A property that no round of factoring destroys holds when the rounds are over, and it
    holds at the state in which a run fails: there discovery fails, or the round that was
    begun does, unless the limit on rounds was exceeded.
-/

namespace FluentGrammar

variable {config : Config} {g g' : Grammar} {tags tags' : Tagging} {s s' : Session}

/-! ## Counting -/

/-- Counting a round fails because of the limit and for no other reason. -/
theorem countRound_error {limit : Option Nat} {e : PassError}
    (h : countRound limit s = .error e s') : ∃ n, e = .iterationLimit n := by
  unfold countRound at h
  rcases bind_eq_error.mp h with h | ⟨u, s₁, -, h⟩
  · cases h
  · cases limit with
    | none => cases h
    | some n =>
      rcases bind_eq_error.mp h with h | ⟨s₂, s₃, -, h⟩
      · cases h
      · split at h <;> cases h
        exact ⟨n, rfl⟩

/-! ## Rounds -/

/-- A property of states that rounds keep. Counting is not part of the state that it speaks
    of. -/
structure RoundInvariant (config : Config) (I : Grammar → Tagging → Session → Prop) :
    Prop where
  count : ∀ {g tags s} (f : Tally → Tally), I g tags s → I g tags (s.count f)
  round : ∀ {g tags s target g' tags' s'}, I g tags s →
    g.discover config.detectUnsupported = .ok (some target) →
      factorRound g tags target s = .ok (g', tags') s' → I g' tags' s'

/-- Where a run of the rounds fails. -/
inductive RoundFailure (config : Config) (I : Grammar → Tagging → Session → Prop)
    (e : PassError) : Prop where
  /-- More rounds are needed than are allowed. -/
  | limit (n : Nat) (he : e = .iterationLimit n)
  /-- Discovery fails at a state that has been reached. -/
  | discovery {g : Grammar} {tags : Tagging} {s : Session} (hI : I g tags s)
      (h : g.discover config.detectUnsupported = .error e)
  /-- A round fails that is begun at a state that has been reached. -/
  | round {g : Grammar} {tags : Tagging} {s s' : Session} {target : SharedPrefix}
      (hI : I g tags s) (hfound : g.discover config.detectUnsupported = .ok (some target))
      (h : factorRound g tags target s = .error e s')

section Rounds

variable {I : Grammar → Tagging → Session → Prop} {rounds : Countdown}

/-- An invariant of the rounds holds when nothing is discovered any more. -/
theorem RoundInvariant.of_factorAll (hinv : RoundInvariant config I) (hI : I g tags s)
    (h : factorAll config rounds g tags s = .ok (g', tags') s') :
    I g' tags' s' ∧ g'.discover config.detectUnsupported = .ok none := by
  induction rounds generalizing g tags s with
  | done =>
    rw [factorAll] at h
    obtain ⟨found, s₁, hlook, h⟩ := bind_eq_ok.mp h
    obtain ⟨hfound, rfl⟩ := ofExcept_eq_ok.mp hlook
    cases found with
    | none =>
      obtain ⟨heq, rfl⟩ := pure_eq_ok.mp h
      cases heq
      exact ⟨hI, hfound⟩
    | some target =>
      obtain ⟨s₂, s₃, -, h⟩ := bind_eq_ok.mp h
      exact absurd h (by simp [throw_eq_ok])
  | more rest ih =>
    rw [factorAll] at h
    obtain ⟨found, s₁, hlook, h⟩ := bind_eq_ok.mp h
    obtain ⟨hfound, rfl⟩ := ofExcept_eq_ok.mp hlook
    cases found with
    | none =>
      obtain ⟨heq, rfl⟩ := pure_eq_ok.mp h
      cases heq
      exact ⟨hI, hfound⟩
    | some target =>
      simp only at h
      obtain ⟨u, s₂, hcount, h⟩ := bind_eq_ok.mp h
      obtain ⟨⟨g₁, tags₁⟩, s₃, hround, hrest⟩ := bind_eq_ok.mp h
      -- The round is counted before it is made, which the invariant has to survive.
      obtain ⟨rfl, -⟩ := countRound_eq_ok.mp hcount
      exact ih () (hinv.round (hinv.count _ hI) hfound hround) hrest

/-- Where the rounds fail, their invariants hold. -/
theorem RoundInvariant.of_factorAll_error (hinv : RoundInvariant config I) (hI : I g tags s)
    {e : PassError} (h : factorAll config rounds g tags s = .error e s') :
    RoundFailure config I e := by
  -- Rounds fail in the search, in the count of rounds or in the round itself; the invariant holds
  -- in front of each.
  induction rounds generalizing g tags s with
  | done =>
    rw [factorAll] at h
    rcases bind_eq_error.mp h with hlook | ⟨found, s₁, -, h⟩
    · exact .discovery hI (ofExcept_eq_error.mp hlook).1
    · cases found with
      | none => cases h
      | some target =>
        rcases bind_eq_error.mp h with h | ⟨s₂, s₃, -, h⟩
        · cases h
        · cases h
          exact .limit _ rfl
  | more rest ih =>
    rw [factorAll] at h
    rcases bind_eq_error.mp h with hlook | ⟨found, s₁, hlook, h⟩
    · exact .discovery hI (ofExcept_eq_error.mp hlook).1
    · obtain ⟨hfound, rfl⟩ := ofExcept_eq_ok.mp hlook
      cases found with
      | none => cases h
      | some target =>
        simp only at h
        rcases bind_eq_error.mp h with hcount | ⟨u, s₂, hcount, h⟩
        · obtain ⟨n, hn⟩ := countRound_error hcount
          exact .limit n hn
        · obtain ⟨rfl, -⟩ := countRound_eq_ok.mp hcount
          have hcounted := hinv.count (fun t => { t with iterations := t.iterations + 1 }) hI
          rcases bind_eq_error.mp h with hround | ⟨⟨g₁, tags₁⟩, s₃, hround, hrest⟩
          · exact .round hcounted hfound hround
          · exact ih () (hinv.round hcounted hfound hround) hrest

end Rounds

/-! ## Passes -/

/-- A property of states that every pass keeps. Folding is a pass round by round. -/
structure PassInvariant (config : Config) (I : Grammar → Tagging → Session → Prop) :
    Prop where
  count : ∀ {g tags s} (f : Tally → Tally), I g tags s → I g tags (s.count f)
  bridge : ∀ {g tags s g' tags' s'}, I g tags s →
    bridgeTerminals g tags s = .ok (g', tags') s' → I g' tags' s'
  fold : ∀ {g tags s rules g' tags' s'}, I g tags s →
    foldRules g.emptyVariables tags g.rules s = .ok (rules, tags') s' →
      Grammar.ofRules g.start rules = .ok g' → I g' tags' s'
  drop : ∀ {g tags s g' tags' s'}, I g tags s →
    dropUnreachable g tags s = .ok (g', tags') s' → I g' tags' s'
  factor : ∀ {g tags s target g' tags' s'}, I g tags s →
    g.discover config.detectUnsupported = .ok (some target) →
      leftFactor g tags target s = .ok (g', tags') s' → I g' tags' s'

section Passes

variable {I : Grammar → Tagging → Session → Prop}

/-- What a round of folding keeps is kept by all of them. -/
theorem foldRounds_keeps {rounds : Nat}
    (hfold : ∀ {g tags s rules g' tags' s'}, I g tags s →
      foldRules g.emptyVariables tags g.rules s = .ok (rules, tags') s' →
        Grammar.ofRules g.start rules = .ok g' → I g' tags' s')
    (hI : I g tags s) (h : foldRounds rounds g tags s = .ok (g', tags') s') :
    I g' tags' s' := by
  induction rounds generalizing g tags s with
  | zero =>
    obtain ⟨heq, rfl⟩ := pure_eq_ok.mp h
    cases heq
    exact hI
  | succ rounds ih =>
    rw [FluentGrammar.foldRounds] at h
    by_cases hempty : g.emptyVariables.isEmpty = true
    · rw [if_pos hempty, pure_eq_ok] at h
      obtain ⟨heq, rfl⟩ := h
      cases heq
      exact hI
    · rw [if_neg hempty] at h
      obtain ⟨⟨rules, tags₁⟩, s₁, hrules, h⟩ := bind_eq_ok.mp h
      obtain ⟨g₁, s₂, hrebuild, h⟩ := bind_eq_ok.mp h
      obtain ⟨hof, rfl⟩ := rebuild_eq_ok.mp hrebuild
      exact ih (hfold hI hrules hof) h

/-- What every pass keeps is kept by a round of factoring. -/
theorem PassInvariant.roundInvariant (hinv : PassInvariant config I) :
    RoundInvariant config I where
  count := hinv.count
  round := by
    intro g tags s target g' tags' s' hI hfound h
    unfold factorRound at h
    obtain ⟨⟨g₁, tags₁⟩, s₁, hfactor, h⟩ := bind_eq_ok.mp h
    obtain ⟨⟨g₂, tags₂⟩, s₂, hdrop, hfold⟩ := bind_eq_ok.mp h
    exact foldRounds_keeps hinv.fold (hinv.drop (hinv.factor hI hfound hfactor) hdrop) hfold

/-- What every pass keeps holds when the rounds begin, if it holds behind bridging. -/
theorem PassInvariant.prepare (hinv : PassInvariant config I)
    (hbridged : ∀ g₁ tags₁ s₁, bridgeTerminals g tags s = .ok (g₁, tags₁) s₁ → I g₁ tags₁ s₁)
    (h : prepare config g tags s = .ok (g', tags') s') : I g' tags' s' := by
  unfold FluentGrammar.prepare at h
  obtain ⟨⟨g₁, tags₁⟩, s₁, hbridge, h⟩ := bind_eq_ok.mp h
  obtain ⟨⟨g₂, tags₂⟩, s₂, hfold, hdrop⟩ := bind_eq_ok.mp h
  have h₁ := hbridged g₁ tags₁ s₁ hbridge
  refine hinv.drop ?_ hdrop
  by_cases hfolds : config.foldInputEmpties = true
  · simp only [if_pos hfolds] at hfold
    exact foldRounds_keeps hinv.fold h₁ hfold
  · simp only [if_neg hfolds] at hfold
    obtain ⟨heq, rfl⟩ := pure_eq_ok.mp hfold
    cases heq
    exact h₁

/-- Bridging comes first. What every pass keeps holds at the end, if it holds behind that. -/
theorem PassInvariant.of_bridged (hinv : PassInvariant config I)
    (hbridged : ∀ g₁ tags₁ s₁, bridgeTerminals g tags s = .ok (g₁, tags₁) s₁ → I g₁ tags₁ s₁)
    (h : FluentGrammar.canonicalPass config g tags s = .ok (g', tags') s') : I g' tags' s' := by
  rw [canonicalPass_eq] at h
  obtain ⟨⟨g₁, tags₁⟩, s₁, hprepare, h⟩ := bind_eq_ok.mp h
  obtain ⟨⟨g₂, tags₂⟩, s₂, hrounds, hlast⟩ := bind_eq_ok.mp h
  have h₁ := hinv.prepare hbridged hprepare
  exact hinv.drop (hinv.roundInvariant.of_factorAll h₁ hrounds).1 hlast

/-- What every pass keeps is kept by all of them together. -/
theorem PassInvariant.canonicalPass (hinv : PassInvariant config I) (hI : I g tags s)
    (h : canonicalPass config g tags s = .ok (g', tags') s') : I g' tags' s' :=
  hinv.of_bridged (fun _ _ _ hbridge => hinv.bridge hI hbridge) h

end Passes

/-! ## Following a grammar -/

/-- A state that rewriting has led to from a given grammar and session. -/
structure Follows (g₀ : Grammar) (s₀ : Session) (g : Grammar) (tags : Tagging) (s : Session) :
    Prop where
  coherent : Coherent g tags s
  rewrites : Rewrites g₀ s₀ g s

theorem Follows.refl (hg : Coherent g tags s) : Follows g s g tags s :=
  ⟨hg, .refl hg.valid s⟩

theorem Follows.count {g₀ : Grammar} {s₀ : Session} (h : Follows g₀ s₀ g tags s)
    (f : Tally → Tally) : Follows g₀ s₀ g tags (s.count f) := by
  obtain ⟨hstart, hissued, hadded, hvalued⟩ := h.rewrites
  exact ⟨h.coherent.count f, hstart, hissued, hadded, hvalued⟩

theorem Follows.trans {g₀ : Grammar} {tags₀ : Tagging} {s₀ : Session}
    (h₀ : Coherent g₀ tags₀ s₀) (h : Follows g₀ s₀ g tags s)
    (hstep : Rewritten g s g' tags' s') : Follows g₀ s₀ g' tags' s' :=
  ⟨hstep.coherent, Rewrites.trans h₀ h.coherent.valid h.rewrites hstep.rewrites⟩

/-- Rounds lead on from wherever they begin. -/
theorem roundInvariant_follows {g₀ : Grammar} {tags₀ : Tagging} {s₀ : Session}
    (h₀ : Coherent g₀ tags₀ s₀) : RoundInvariant config (Follows g₀ s₀) where
  count := fun f h => h.count f
  round := by
    intro g tags s target g' tags' s' h _ hround
    exact h.trans h₀ (h.coherent.factorRound hround).1

/-! ## The whole pipeline -/

theorem confined_prepare {R : Session → Session → Prop} [IsPreorder Session R] (config : Config)
    (g : Grammar) (tags : Tagging) (hR : Session.Along R g.BridgeSeeds) :
    Confined R Internal (prepare config g tags) := by
  unfold prepare
  refine (confined_bridgeTerminals g tags hR).bind fun bridged _ _ _ => ?_
  have hfold : Confined R Internal (if config.foldInputEmpties then
      foldEmpties bridged.1 bridged.2 else pure (bridged.1, bridged.2)) := by
    by_cases hfolds : config.foldInputEmpties = true
    · rw [if_pos hfolds]
      exact confined_foldEmpties hR _ _
    · rw [if_neg hfolds]
      exact .pure _
  exact hfold.bind fun folded _ _ _ => confined_dropUnreachable hR folded.1 folded.2

/-- A run of all passes fails before the rounds or in them. -/
theorem canonicalPass_error {e : PassError}
    (h : canonicalPass config g tags s = .error e s') :
    prepare config g tags s = .error e s' ∨
      ∃ g₁ tags₁ s₁, prepare config g tags s = .ok (g₁, tags₁) s₁ ∧
        factorAll config g₁.roundBound g₁ tags₁ s₁ = .error e s' := by
  rw [canonicalPass_eq] at h
  rcases bind_eq_error.mp h with h | ⟨⟨g₁, tags₁⟩, s₁, hprepare, h⟩
  · exact Or.inl h
  · rcases bind_eq_error.mp h with h | ⟨⟨g₂, tags₂⟩, s₂, -, h⟩
    · exact Or.inr ⟨g₁, tags₁, s₁, hprepare, h⟩
    · cases h

theorem canonicalize_error {e : PassError} (h : canonicalize config g tags = .error e) :
    g.vars.mapM tags.require = .error e ∨
      (∃ entries, g.vars.mapM tags.require = .ok entries) ∧
        ∃ s', canonicalPass config g (tags.retain g.contains) (.ofGrammar g) =
          .error e s' := by
  unfold canonicalize at h
  rcases except_bind_eq_error.mp h with h | ⟨entries, hentries, h⟩
  · exact Or.inl h
  · refine Or.inr ⟨⟨entries, hentries⟩, ?_⟩
    cases hrun : (canonicalPass config g (tags.retain g.contains)).run (.ofGrammar g) with
    | ok result s' =>
      rw [hrun] at h
      cases h
    | error e' s' =>
      rw [hrun] at h
      cases h
      exact ⟨s', hrun⟩

end FluentGrammar
