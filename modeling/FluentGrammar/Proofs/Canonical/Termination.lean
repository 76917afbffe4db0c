import FluentGrammar.Proofs.Rewriting.Bound
import FluentGrammar.Proofs.Rewriting.Invariants

/-! # The rounds of factoring end

    Every round lowers the number of reads of the start variable, and no other pass raises
    it. So there are at most as many rounds as the given grammar has reads, and a limit on
    the rounds that is not below this number makes no difference.
-/

namespace FluentGrammar

variable {config config' : Config} {g g' : Grammar} {tags tags' : Tagging} {s s' : Session}

/-! ## The reads of a grammar -/

/-- The start variable has a number of reads. -/
def HasReads (g : Grammar) (n : Nat) : Prop :=
  ∃ a, CountsReads g.rules a ∧ (a g.start.id).reads = n

theorem Grammar.Valid.exists_hasReads (hg : g.Valid) : ∃ n, HasReads g n := by
  obtain ⟨a, ha⟩ := hg.well_formed.exists_valuation Terminal.readsOf
  exact ⟨_, a, ha, rfl⟩

/-- A rewriting does not raise the number of reads. -/
theorem Rewrites.reads_le {n n' : Nat} (h : Rewrites g s g' s') (hg : g.Valid)
    (hg' : g'.Valid) (hn : HasReads g n) (hn' : HasReads g' n') : n' ≤ n := by
  obtain ⟨a, ha, rfl⟩ := hn
  obtain ⟨a', ha', rfl⟩ := hn'
  have hstart' : g.start.id ∈ ruleIds g'.rules := h.start_eq ▸ hg'.start_mem
  rw [h.start_eq]
  exact (h.valued Reads Terminal.readsOf Reads.Below Terminal.readsOf_empty
    Reads.comparison a a' ha ha' g.start.id hg.start_mem hstart').2

/-- A round that factors a discovered prefix out lowers the number of reads. -/
theorem reads_factorRound_lt {detect : Bool} {target : SharedPrefix} {n n' : Nat}
    (hg : Coherent g tags s) (hfound : g.discover detect = .ok (some target))
    (h : factorRound g tags target s = .ok (g', tags') s')
    (hn : HasReads g n) (hn' : HasReads g' n') : n' < n := by
  unfold factorRound at h
  obtain ⟨⟨g₁, tags₁⟩, s₁, hfactor, h⟩ := bind_eq_ok.mp h
  obtain ⟨⟨g₂, tags₂⟩, s₂, hdrop, hfold⟩ := bind_eq_ok.mp h
  obtain ⟨h₁, -, alternatives, remaining, parts, splits, rest, hfactored⟩ :=
    hg.leftFactor hfactor
  have h₂ := h₁.coherent.dropUnreachable hdrop
  obtain ⟨h₃, -, -⟩ := h₂.coherent.foldEmpties hfold
  -- The reads are lost in the first of the three steps.
  have hless : ∀ n₁, HasReads g₁ n₁ → n₁ < n := by
    intro n₁ hn₁
    obtain ⟨a, ha, rfl⟩ := hn
    obtain ⟨a₁, ha₁, rfl⟩ := hn₁
    have hforks : target.Forks g := .of_discover hg.valid hfound
    have hlt := hfactored.reads_start_lt hforks hg.valid h₁.coherent.valid.well_formed ha ha₁
    rw [h₁.rewrites.start_eq]
    exact hlt
  obtain ⟨n₁, hn₁⟩ := h₁.coherent.valid.exists_hasReads
  have hkept := (h₂.trans h₁.coherent h₃).rewrites.reads_le h₁.coherent.valid
    h₃.coherent.valid hn₁ hn'
  have := hless n₁ hn₁
  omega

/-! ## Limits that are not reached -/

/-- A configuration that allows a number of rounds. -/
def Config.Permits (config : Config) (rounds : Nat) : Prop :=
  ∀ m, config.maxIterations = some m → rounds ≤ m

theorem Config.Permits.mono {config : Config} {k n : Nat} (h : config.Permits n)
    (hle : k ≤ n) : config.Permits k :=
  fun m hm => hle.trans (h m hm)

/-- A round that is permitted is counted. -/
theorem countRound_of_permits {n : Nat}
    (h : config.Permits (s.tally.iterations + n + 1)) :
    countRound config.maxIterations s =
      .ok () (s.count (fun t => { t with iterations := t.iterations + 1 })) := by
  refine countRound_eq_ok.mpr ⟨rfl, ?_⟩
  intro m hm
  have := h m hm
  omega

/-- As long as a grammar has fewer reads than rounds are allowed, the limit makes no
    difference, and the countdown is not used up. -/
theorem factorAll_eq_of_permits {rounds : Countdown} {n : Nat}
    (hdetect : config.detectUnsupported = config'.detectUnsupported)
    (hg : Coherent g tags s) (hn : HasReads g n) (hrounds : n < rounds.toNat)
    (hpermits : config.Permits (s.tally.iterations + n + 1))
    (hpermits' : config'.Permits (s.tally.iterations + n + 1)) :
    factorAll config rounds g tags s = factorAll config' rounds g tags s ∧
      ∀ e s', factorAll config rounds g tags s = .error e s' → NotLimit e := by
  -- The countdown is shared, so the two runs go on in step as long as both may.
  induction rounds generalizing g tags s n with
  | done => exact absurd hrounds (Nat.not_lt_zero n)
  | more rest ih =>
    rw [factorAll, factorAll, hdetect]
    cases hfound : g.discover config'.detectUnsupported with
    | error e =>
      have hfails : (ofExcept (.error e) : Pass (Option SharedPrefix)) s = .error e s := rfl
      rw [bind_of_error hfails, bind_of_error hfails]
      refine ⟨rfl, ?_⟩
      intro e' s' h
      cases h
      obtain ⟨v, shape, -, -, -, rfl⟩ := exists_of_discover_error hg.valid hfound
      intro n hn
      cases hn
    | ok found =>
      have hdone : (ofExcept (.ok found) : Pass (Option SharedPrefix)) s = .ok found s := rfl
      rw [bind_of_ok hdone, bind_of_ok hdone]
      cases found with
      | none =>
        refine ⟨rfl, ?_⟩
        intro e s' h
        cases h
      | some target =>
        simp only
        rw [bind_of_ok (countRound_of_permits hpermits),
          bind_of_ok (countRound_of_permits hpermits')]
        cases hround : factorRound g tags target
            (s.count (fun t => { t with iterations := t.iterations + 1 })) with
        | error e s₂ =>
          rw [bind_of_error hround, bind_of_error hround]
          refine ⟨rfl, ?_⟩
          intro e' s' h
          cases h
          have hconfined := confined_factorRound g tags target (Session.along_spends _)
          exact (hconfined.of_error hround).2.not_limit
        | ok result s₂ =>
          obtain ⟨g₂, tags₂⟩ := result
          rw [bind_of_ok hround, bind_of_ok hround]
          -- One more round is counted, but there are fewer reads for the rounds behind it.
          have hcoherent := hg.count (fun t => { t with iterations := t.iterations + 1 })
          obtain ⟨h₂, -, -⟩ := hcoherent.factorRound hround
          obtain ⟨n₂, hn₂⟩ := h₂.coherent.valid.exists_hasReads
          have hless := reads_factorRound_lt hcoherent hfound hround hn hn₂
          have hcounted : s₂.tally.iterations = s.tally.iterations + 1 := h₂.rounds_eq
          have hle : s₂.tally.iterations + n₂ + 1 ≤ s.tally.iterations + n + 1 := by omega
          rw [Countdown.toNat] at hrounds
          exact ih () h₂.coherent hn₂ (by omega) (hpermits.mono hle) (hpermits'.mono hle)

/-! ## The whole pipeline -/

/-- Limits that a run of all passes does not reach make no difference to it. -/
theorem canonicalPass_eq_of_permits {n : Nat}
    (hdetect : config.detectUnsupported = config'.detectUnsupported)
    (hfolds : config.foldInputEmpties = config'.foldInputEmpties)
    (hg : Coherent g tags s) (hn : HasReads g n)
    (hpermits : config.Permits (s.tally.iterations + n + 1))
    (hpermits' : config'.Permits (s.tally.iterations + n + 1)) :
    canonicalPass config g tags s = canonicalPass config' g tags s ∧
      ∀ e s', canonicalPass config g tags s = .error e s' → NotLimit e := by
  -- The passes before the rounds look at one switch only, and never at a limit.
  have hsame : prepare config g tags = prepare config' g tags := by
    unfold prepare
    rw [hfolds]
  rw [canonicalPass_eq, canonicalPass_eq, ← hsame]
  cases hprepare : prepare config g tags s with
  | error e s₁ =>
    rw [bind_of_error hprepare, bind_of_error hprepare]
    refine ⟨rfl, ?_⟩
    intro e' s' h
    cases h
    have hconfined := confined_prepare config g tags (Session.along_spends _)
    exact (hconfined.of_error hprepare).2.not_limit
  | ok result s₁ =>
    obtain ⟨g₁, tags₁⟩ := result
    rw [bind_of_ok hprepare, bind_of_ok hprepare]
    obtain ⟨h₁, -, -⟩ := hg.prepare hprepare
    have hvalid := h₁.coherent.valid
    obtain ⟨a₁, ha₁⟩ := hvalid.well_formed.exists_valuation Terminal.readsOf
    have hn₁ : HasReads g₁ (a₁ g₁.start.id).reads := ⟨a₁, ha₁, rfl⟩
    -- Preparing does not add reads, so the rounds need no more than was permitted at the start.
    have hreads := h₁.rewrites.reads_le hg.valid hvalid hn hn₁
    have hle : s₁.tally.iterations + (a₁ g₁.start.id).reads + 1 ≤
        s.tally.iterations + n + 1 := by
      rw [h₁.rounds_eq]
      omega
    obtain ⟨heq, hfails⟩ := factorAll_eq_of_permits hdetect h₁.coherent hn₁
      (reads_start_lt_roundBound hvalid ha₁) (hpermits.mono hle) (hpermits'.mono hle)
    constructor
    · -- Behind the rounds nothing depends on the configuration.
      show EStateM.bind _ _ s₁ = EStateM.bind _ _ s₁
      unfold EStateM.bind
      rw [heq]
    · intro e s' h
      rcases bind_eq_error.mp h with h | ⟨q, s₂, -, h⟩
      · exact hfails e s' h
      · cases h

/-- The outcome is the same for all limits above the number of reads, and it is not that the
    limit is exceeded. -/
theorem canonicalize_eq_of_permits {n : Nat} (hg : g.Valid) (hn : HasReads g n)
    (hdetect : config.detectUnsupported = config'.detectUnsupported)
    (hfolds : config.foldInputEmpties = config'.foldInputEmpties)
    (hpermits : config.Permits (n + 1)) (hpermits' : config'.Permits (n + 1)) :
    canonicalize config g tags = canonicalize config' g tags ∧
      ∀ e, canonicalize config g tags = .error e → NotLimit e := by
  -- No round has been counted at the start.
  have hcounted : (Session.ofGrammar g).tally.iterations + n + 1 = n + 1 := by
    rw [show (Session.ofGrammar g).tally.iterations = 0 from rfl, Nat.zero_add]
  have hstable : ∀ entries, g.vars.mapM tags.require = .ok entries →
      canonicalPass config g (tags.retain g.contains) (.ofGrammar g) =
          canonicalPass config' g (tags.retain g.contains) (.ofGrammar g) ∧
        ∀ e s', canonicalPass config g (tags.retain g.contains) (.ofGrammar g) = .error e s' →
          NotLimit e := by
    intro entries hentries
    rw [← hcounted] at hpermits hpermits'
    exact canonicalPass_eq_of_permits hdetect hfolds (Coherent.initial hg hentries) hn
      hpermits hpermits'
  constructor
  · unfold canonicalize
    cases hentries : g.vars.mapM tags.require with
    | error e => rfl
    | ok entries =>
      have heq := (hstable entries hentries).1
      simp only [EStateM.run, heq]
  · intro e h
    rcases canonicalize_error h with h | ⟨⟨entries, hentries⟩, s', h⟩
    · obtain ⟨v, -, h⟩ := except_mapM_eq_error h
      exact (Tagging.require_error h).not_limit
    · exact (hstable entries hentries).2 e s' h

/-- A grammar needs finitely many rounds: there is a number that bounds the rounds of a run
    without a limit, and no limit from this number on is exceeded or changes the outcome. -/
theorem canonicalize_limit (hg : g.Valid) :
    ∃ n, ∀ (config : Config) (tags : Tagging),
      (∀ c, canonicalize { config with maxIterations := none } g tags = .ok c →
        c.tally.iterations ≤ n) ∧
      ∀ m, n ≤ m →
        (∀ k, canonicalize { config with maxIterations := some m } g tags ≠
          .error (.iterationLimit k)) ∧
        canonicalize { config with maxIterations := some m } g tags =
          canonicalize { config with maxIterations := none } g tags := by
  obtain ⟨n, hn⟩ := hg.exists_hasReads
  refine ⟨n + 1, ?_⟩
  intro config tags
  have hlimited : ∀ m, n + 1 ≤ m →
      canonicalize { config with maxIterations := some m } g tags =
          canonicalize { config with maxIterations := none } g tags ∧
        ∀ e, canonicalize { config with maxIterations := some m } g tags = .error e →
          NotLimit e := by
    intro m hm
    refine canonicalize_eq_of_permits hg hn rfl rfl ?_ ?_
    · intro k hk
      cases hk
      exact hm
    · intro k hk
      cases hk
  constructor
  · intro c hc
    -- The run without a limit is also one that is limited to the number itself.
    rw [← (hlimited (n + 1) (Nat.le_refl _)).1] at hc
    obtain ⟨s', htally, hcanonical⟩ := Canonicalized.of_canonicalize hg hc
    rw [← htally]
    exact hcanonical.allowed (n + 1) rfl (Nat.zero_le _)
  · intro m hm
    obtain ⟨heq, hfails⟩ := hlimited m hm
    exact ⟨fun k h => hfails _ h k rfl, heq⟩

/-- A shared call is factored out under every limit from some number of rounds on. -/
theorem sharedCall_limit :
    sharedCall.Valid ∧ ∃ n, ∀ m, n ≤ m →
      canonicalize ⟨true, some m, true⟩ sharedCall (.full sharedCall) =
        .ok sharedCallFactored := by
  obtain ⟨n, hn⟩ := canonicalize_limit sharedCall_valid
  exact ⟨sharedCall_valid, n, fun m hm =>
    ((hn .default (.full sharedCall)).2 m hm).2.trans canonical_sharedCall⟩

end FluentGrammar
