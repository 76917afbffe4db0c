import FluentGrammar.Proofs.Rewriting.RoundRuns
import FluentGrammar.Rewriting.History

/-! # Switches of a configuration

    The switches of a configuration only guard: they make a run fail that would have gone on,
    and never make it go on differently. A canonical form that is reached while ambiguous
    shapes are refused is reached as well when they are not. A limit on rounds is exceeded
    just when more prefixes are discovered without a limit than it allows, and makes no
    difference otherwise, whether the run succeeds or fails.
-/

namespace FluentGrammar

variable {config config' : Config} {g g₁ : Grammar} {tags tags₁ : Tagging}
variable {s s₁ s' : Session} {n m : Nat}

/-! ## All passes behind the rounds -/

/-- What all passes end with, when the rounds have ended. -/
def finishRounds : EStateM.Result PassError Session Tagged →
    EStateM.Result PassError Session Tagged
  | .ok (g, tags) s => dropUnreachable g tags s
  | .error e s => .error e s

theorem canonicalPass_of_prepare (h : prepare config g tags s = .ok (g₁, tags₁) s₁) :
    canonicalPass config g tags s =
      finishRounds (factorAll config g₁.roundBound g₁ tags₁ s₁) := by
  rw [canonicalPass_eq, bind_of_ok h]
  cases hrounds : factorAll config g₁.roundBound g₁ tags₁ s₁ with
  | ok result s₂ => exact bind_of_ok hrounds
  | error e s₂ => exact bind_of_error hrounds

/-- Of the switches, only the one for empty rules matters in front of the rounds. -/
theorem prepare_congr (hfolds : config.foldInputEmpties = config'.foldInputEmpties) :
    prepare config g tags = prepare config' g tags := by
  unfold prepare
  rw [hfolds]

/-- All passes do the same if they prepare alike and their rounds end alike. -/
theorem canonicalPass_congr (hfolds : config.foldInputEmpties = config'.foldInputEmpties)
    (hrounds : ∀ g₁ tags₁ s₁, prepare config g tags s = .ok (g₁, tags₁) s₁ →
      factorAll config g₁.roundBound g₁ tags₁ s₁ =
        factorAll config' g₁.roundBound g₁ tags₁ s₁) :
    canonicalPass config g tags s = canonicalPass config' g tags s := by
  have hsame : prepare config g tags = prepare config' g tags := prepare_congr hfolds
  cases hprepare : prepare config g tags s with
  | ok result s₁ =>
    obtain ⟨g₁, tags₁⟩ := result
    rw [canonicalPass_of_prepare hprepare, canonicalPass_of_prepare (hsame ▸ hprepare),
      hrounds g₁ tags₁ s₁ hprepare]
  | error e s₁ =>
    rw [canonicalPass_eq, canonicalPass_eq, ← hsame, bind_of_error hprepare,
      bind_of_error hprepare]

theorem finishRounds_eq_ok {outcome : EStateM.Result PassError Session Tagged}
    {result : Tagged} :
    finishRounds outcome = .ok result s' ↔
      ∃ g₂ tags₂ s₂, outcome = .ok (g₂, tags₂) s₂ ∧
        dropUnreachable g₂ tags₂ s₂ = .ok result s' := by
  cases outcome with
  | ok made s₂ =>
    obtain ⟨g₂, tags₂⟩ := made
    constructor
    · intro h
      exact ⟨g₂, tags₂, s₂, rfl, h⟩
    · rintro ⟨_, _, _, ⟨⟩, h⟩
      exact h
  | error e s₂ =>
    constructor
    · intro h
      cases h
    · rintro ⟨_, _, _, ⟨⟩, -⟩

theorem canonicalize_congr
    (h : canonicalPass config g (tags.retain g.contains) (.ofGrammar g) =
      canonicalPass config' g (tags.retain g.contains) (.ofGrammar g)) :
    canonicalize config g tags = canonicalize config' g tags := by
  unfold canonicalize
  simp only [EStateM.run, h]

theorem canonicalize_of_error {entries : List Tag} {e : PassError}
    (hentries : g.vars.mapM tags.require = .ok entries)
    (h : canonicalPass config g (tags.retain g.contains) (.ofGrammar g) = .error e s') :
    canonicalize config g tags = .error e := by
  unfold canonicalize
  rw [hentries]
  simp only [EStateM.run, h]
  rfl

/-! ## Discoveries -/

/-- Without a limit on rounds, a shared prefix is discovered a number of times before all
    passes end. -/
inductive DiscoversTimes (config : Config) (g : Grammar) (tags : Tagging) : Nat → Prop where
  /-- The passes in front of the rounds fail. -/
  | unprepared {e : PassError} {s' : Session}
      (h : prepare config g (tags.retain g.contains) (.ofGrammar g) = .error e s') :
      DiscoversTimes config g tags 0
  /-- The rounds are begun. -/
  | begun {g₁ : Grammar} {tags₁ : Tagging} {s₁ : Session} {n : Nat}
      {outcome : EStateM.Result PassError Session Tagged}
      (h : prepare config g (tags.retain g.contains) (.ofGrammar g) = .ok (g₁, tags₁) s₁)
      (hrun : RoundsRun config.detectUnsupported g₁ tags₁ s₁ n outcome) :
      DiscoversTimes config g tags n

/-- The limit on rounds does not matter for the discoveries. -/
theorem DiscoversTimes.congr (hn : DiscoversTimes config g tags n)
    (hdetect : config.detectUnsupported = config'.detectUnsupported)
    (hfolds : config.foldInputEmpties = config'.foldInputEmpties) :
    DiscoversTimes config' g tags n := by
  cases hn with
  | unprepared h =>
    rw [prepare_congr hfolds] at h
    exact .unprepared h
  | begun h hrun =>
    rw [prepare_congr hfolds] at h
    rw [hdetect] at hrun
    exact .begun h hrun

theorem Tagging.full_covers (hg : g.Valid) : (Tagging.full g).Covers g := by
  intro v hv
  obtain ⟨r, hr, rfl⟩ := List.mem_map.mp hv
  exact ⟨_, Tagging.require_eq_ok.mpr (Tagging.tag?_full hg hr)⟩

section Covered

variable (hg : g.Valid) (htags : tags.Covers g)

include hg htags

theorem Tagging.Covers.coherent : Coherent g (tags.retain g.contains) (.ofGrammar g) := by
  obtain ⟨entries, hentries⟩ := exists_entries_of_tagged htags
  exact .initial hg hentries

/-- Behind the preparation of a new run, no round has been made. -/
theorem coherent_of_prepare
    (h : prepare config g (tags.retain g.contains) (.ofGrammar g) = .ok (g₁, tags₁) s₁) :
    Coherent g₁ tags₁ s₁ ∧ s₁.tally.iterations = 0 := by
  obtain ⟨hprepared, -, -⟩ := (Tagging.Covers.coherent hg htags).prepare h
  exact ⟨hprepared.coherent, hprepared.rounds_eq⟩

/-- The number of discoveries exists, because the rounds end. -/
theorem exists_discoversTimes : ∃ n, DiscoversTimes config g tags n := by
  cases hprepare : prepare config g (tags.retain g.contains) (.ofGrammar g) with
  | error e s₁ => exact ⟨0, .unprepared hprepare⟩
  | ok result s₁ =>
    obtain ⟨g₁, tags₁⟩ := result
    obtain ⟨hcoherent, -⟩ := coherent_of_prepare hg htags hprepare
    obtain ⟨n, outcome, hrun⟩ := hcoherent.exists_roundsRun config.detectUnsupported
    exact ⟨n, .begun hprepare hrun⟩

/-! ## Limits on rounds -/

/-- Limits that the discoveries do not exceed make no difference. -/
theorem DiscoversTimes.canonicalize_eq (config' : Config) (hn : DiscoversTimes config g tags n)
    (hdetect : config.detectUnsupported = config'.detectUnsupported)
    (hfolds : config.foldInputEmpties = config'.foldInputEmpties)
    (hpermits : config.Permits n) (hpermits' : config'.Permits n) :
    canonicalize config g tags = canonicalize config' g tags := by
  refine canonicalize_congr (canonicalPass_congr hfolds ?_)
  intro g₁ tags₁ s₁ hprepare
  cases hn with
  | unprepared hfails =>
    rw [hprepare] at hfails
    cases hfails
  | begun hbegun hrun =>
    rw [hprepare] at hbegun
    cases hbegun
    obtain ⟨hcoherent, hnone⟩ := coherent_of_prepare hg htags hprepare
    have hbound := hrun.le_roundBound hcoherent
    have hcount : n = s₁.tally.iterations + n := by rw [hnone, Nat.zero_add]
    rw [hcount] at hpermits hpermits'
    have hrun' := hrun
    rw [hdetect] at hrun'
    rw [hrun.factorAll_eq hcoherent hbound hpermits, hrun'.factorAll_eq hcoherent hbound hpermits']

/-- A limit that the discoveries exceed is what the run fails with. -/
theorem DiscoversTimes.canonicalize_exceeds (hn : DiscoversTimes config g tags n)
    (hm : config.maxIterations = some m) (hlt : m < n) :
    canonicalize config g tags = .error (.iterationLimit m) := by
  obtain ⟨entries, hentries⟩ := exists_entries_of_tagged htags
  cases hn with
  | unprepared hfails => exact absurd hlt (Nat.not_lt_zero m)
  | begun hbegun hrun =>
    obtain ⟨hcoherent, hnone⟩ := coherent_of_prepare hg htags hbegun
    obtain ⟨s₂, hexceeds⟩ := hrun.factorAll_exceeds hcoherent
      (hrun.le_roundBound hcoherent) hm (by omega) (by omega)
    have hpass : canonicalPass config g (tags.retain g.contains) (.ofGrammar g) =
        .error (.iterationLimit m) s₂ := by
      rw [canonicalPass_of_prepare hbegun, hexceeds]
      rfl
    exact canonicalize_of_error hentries hpass

/-- A canonical form counts the discoveries. -/
theorem DiscoversTimes.iterations_eq {c : Canonical} (hn : DiscoversTimes config g tags n)
    (hnone : config.maxIterations = none) (h : canonicalize config g tags = .ok c) :
    c.tally.iterations = n := by
  obtain ⟨-, g', tags', s', hrun, rfl⟩ := canonicalize_eq_ok.mp h
  cases hn with
  | unprepared hfails =>
    rw [canonicalPass_eq, bind_of_error hfails] at hrun
    cases hrun
  | begun hbegun hrounds =>
    obtain ⟨hcoherent, hzero⟩ := coherent_of_prepare hg htags hbegun
    have hpermits : ∀ k, config.Permits k := fun k m hm => nomatch hnone.symm.trans hm
    rw [canonicalPass_of_prepare hbegun, hrounds.factorAll_eq hcoherent
      (hrounds.le_roundBound hcoherent) (hpermits _)] at hrun
    obtain ⟨g₂, tags₂, s₂, rfl, hdrop⟩ := finishRounds_eq_ok.mp hrun
    obtain ⟨-, -, rfl⟩ := dropUnreachable_eq_ok.mp hdrop
    have hcounted := hrounds.iterations_eq hcoherent
    rw [hzero, Nat.zero_add] at hcounted
    exact hcounted

end Covered

/-! ## Refusing ambiguous shapes -/

/-- A canonical form that is reached while ambiguous shapes are refused is reached when they
    are not. -/
theorem canonicalize_of_detect {c : Canonical} (config config' : Config) (hg : g.Valid)
    (hundetect : config'.detectUnsupported = false)
    (hlimits : config.maxIterations = config'.maxIterations)
    (hfolds : config.foldInputEmpties = config'.foldInputEmpties)
    (h : canonicalize config g tags = .ok c) : canonicalize config' g tags = .ok c := by
  obtain ⟨⟨entries, hentries⟩, g', tags', s', hrun, rfl⟩ := canonicalize_eq_ok.mp h
  rw [← h]
  refine (canonicalize_congr (canonicalPass_congr hfolds ?_)).symm
  intro g₁ tags₁ s₁ hprepare
  obtain ⟨hprepared, -, -⟩ := (Coherent.initial hg hentries).prepare hprepare
  have hzero : s₁.tally.iterations = 0 := hprepared.rounds_eq
  have hbegun : config.Permits s₁.tally.iterations := fun m _ => hzero ▸ Nat.zero_le m
  -- The rounds have ended well, so their number is within the limit that both runs have.
  rw [canonicalPass_of_prepare hprepare] at hrun
  obtain ⟨g₂, tags₂, s₂, hrounds, -⟩ := finishRounds_eq_ok.mp hrun
  obtain ⟨n, hpermits, hdetected⟩ := RoundsRun.of_factorAll hprepared.coherent hbegun hrounds
  have hundetected := hdetected.of_detect
  rw [← hundetect] at hundetected
  have hpermits' : config'.Permits (s₁.tally.iterations + n) :=
    fun m hm => hpermits m (hlimits.trans hm)
  rw [hrounds, hundetected.factorAll_eq hprepared.coherent
    (hdetected.le_roundBound hprepared.coherent) hpermits']

/-! ## All switches -/

/-- Refusing ambiguous shapes changes nothing in a run that reaches a canonical form. A run
    without a limit on rounds makes a number of discoveries, which its canonical form counts.
    A limit that is not below this number changes nothing, and one that is below it is what
    the run fails with. -/
theorem canonicalize_switches (config : Config) (hg : g.Valid) (htags : tags.Covers g) :
    (∀ c, canonicalize { config with detectUnsupported := true } g tags = .ok c →
      canonicalize { config with detectUnsupported := false } g tags = .ok c) ∧
    (∃ n, DiscoversTimes config g tags n) ∧
    ∀ n, DiscoversTimes config g tags n →
      (∀ c, canonicalize { config with maxIterations := none } g tags = .ok c →
        c.tally.iterations = n) ∧
      ∀ m, canonicalize { config with maxIterations := some m } g tags =
        if n ≤ m then canonicalize { config with maxIterations := none } g tags
        else .error (.iterationLimit m) := by
  refine ⟨fun c h => ?_, exists_discoversTimes hg htags, fun n hn => ?_⟩
  · exact canonicalize_of_detect { config with detectUnsupported := true }
      { config with detectUnsupported := false } hg rfl rfl rfl h
  -- The number of discoveries does not depend on the limit, so runs under all limits are compared
  -- with one.
  have hunlimited : DiscoversTimes { config with maxIterations := none } g tags n :=
    hn.congr rfl rfl
  refine ⟨fun c h => hunlimited.iterations_eq hg htags rfl h, fun m => ?_⟩
  have hlimited : DiscoversTimes { config with maxIterations := some m } g tags n :=
    hn.congr rfl rfl
  split
  · rename_i hle
    refine hlimited.canonicalize_eq hg htags { config with maxIterations := none }
      rfl rfl ?_ ?_
    · intro k hk
      cases hk
      exact hle
    · intro k hk
      cases hk
  · rename_i hlt
    exact hlimited.canonicalize_exceeds hg htags rfl (Nat.lt_of_not_le hlt)

/-- Two calls of one terminal take one round. It is not allowed by the limit zero, any higher
    limit makes no difference, and nothing in it would be refused. -/
theorem sharedCall_switches :
    sharedCall.Valid ∧ (Tagging.full sharedCall).Covers sharedCall ∧
      canonicalize ⟨false, none, true⟩ sharedCall (.full sharedCall) = .ok sharedCallFactored ∧
      canonicalize ⟨true, some 0, true⟩ sharedCall (.full sharedCall) =
        .error (.iterationLimit 0) ∧
      canonicalize ⟨true, some 1, true⟩ sharedCall (.full sharedCall) =
        .ok sharedCallFactored := by
  have htags : (Tagging.full sharedCall).Covers sharedCall :=
    Tagging.full_covers sharedCall_valid
  obtain ⟨hdetect, ⟨n, hn⟩, hlimits⟩ := canonicalize_switches .default sharedCall_valid htags
  obtain ⟨hcount, hlimited⟩ := hlimits n hn
  obtain rfl : 1 = n := hcount _ canonical_sharedCall
  exact ⟨sharedCall_valid, htags, hdetect _ canonical_sharedCall, hlimited 0,
    (hlimited 1).trans canonical_sharedCall⟩

end FluentGrammar
