import FluentGrammar.Proofs.Canonical.Termination

/-! # Rounds without a limit

    How factoring goes on when any number of rounds is allowed, told round by round: a shared
    prefix is discovered and its round is made, until nothing is discovered any more or
    something fails. A limit cuts such a run short at the discovery that exceeds it, and makes
    no difference to a run with fewer discoveries. Refusing ambiguous shapes makes no
    difference to a run that succeeds.
-/

namespace FluentGrammar

variable {config : Config} {detect : Bool} {g g' : Grammar} {tags tags' : Tagging}
variable {s s' : Session} {n m : Nat}

/-! ## Runs of rounds -/

/-- The session with one more round counted. -/
def Session.countRound (s : Session) : Session :=
  s.count (fun t => { t with iterations := t.iterations + 1 })

/-- How often factoring discovers a shared prefix before it ends, and how it ends, when any
    number of rounds is allowed. -/
inductive RoundsRun (detect : Bool) :
    Grammar → Tagging → Session → Nat → EStateM.Result PassError Session Tagged → Prop where
  /-- Nothing is discovered any more. -/
  | settled {g : Grammar} {tags : Tagging} {s : Session} (h : g.discover detect = .ok none) :
      RoundsRun detect g tags s 0 (.ok (g, tags) s)
  /-- A shape is refused. -/
  | refused {g : Grammar} {tags : Tagging} {s : Session} {e : PassError}
      (h : g.discover detect = .error e) : RoundsRun detect g tags s 0 (.error e s)
  /-- The round of a prefix that was discovered fails. -/
  | broken {g : Grammar} {tags : Tagging} {s s' : Session} {target : SharedPrefix}
      {e : PassError} (h : g.discover detect = .ok (some target))
      (hround : factorRound g tags target s.countRound = .error e s') :
      RoundsRun detect g tags s 1 (.error e s')
  /-- A prefix is discovered, and the run goes on behind its round. -/
  | round {g g₁ : Grammar} {tags tags₁ : Tagging} {s s₁ : Session} {target : SharedPrefix}
      {n : Nat} {outcome : EStateM.Result PassError Session Tagged}
      (h : g.discover detect = .ok (some target))
      (hround : factorRound g tags target s.countRound = .ok (g₁, tags₁) s₁)
      (hrest : RoundsRun detect g₁ tags₁ s₁ n outcome) :
      RoundsRun detect g tags s (n + 1) outcome

/-- A round that is counted and made leads to a coherent state with one more round. -/
theorem Coherent.countRound_factorRound {target : SharedPrefix} (hg : Coherent g tags s)
    (h : FluentGrammar.factorRound g tags target s.countRound = .ok (g', tags') s') :
    Coherent g' tags' s' ∧ s'.tally.iterations = s.tally.iterations + 1 := by
  have hcounted : Coherent g tags s.countRound := hg.count _
  obtain ⟨hround, -, -⟩ := hcounted.factorRound h
  exact ⟨hround.coherent, hround.rounds_eq⟩

/-- Every state has a run. -/
theorem Coherent.exists_roundsRun (detect : Bool) (hg : Coherent g tags s) :
    ∃ n outcome, RoundsRun detect g tags s n outcome := by
  -- Induction on the number of reads, which every round lowers.
  obtain ⟨k, hk⟩ := hg.valid.exists_hasReads
  induction k using Nat.strongRecOn generalizing g tags s with
  | ind k ih =>
    cases hfound : g.discover detect with
    | error e => exact ⟨0, _, .refused hfound⟩
    | ok found =>
      cases found with
      | none => exact ⟨0, _, .settled hfound⟩
      | some target =>
        cases hround : FluentGrammar.factorRound g tags target s.countRound with
        | error e s₁ => exact ⟨1, _, .broken hfound hround⟩
        | ok result s₁ =>
          obtain ⟨g₁, tags₁⟩ := result
          obtain ⟨hcoherent, -⟩ := hg.countRound_factorRound hround
          obtain ⟨k₁, hk₁⟩ := hcoherent.valid.exists_hasReads
          have hless := reads_factorRound_lt (hg.count _) hfound hround hk hk₁
          obtain ⟨n, outcome, hrest⟩ := ih k₁ hless hcoherent hk₁
          exact ⟨n + 1, outcome, .round hfound hround hrest⟩

/-- A run discovers at most one prefix more than the start variable has reads. -/
theorem RoundsRun.le_reads {k : Nat} {outcome : EStateM.Result PassError Session Tagged}
    (h : RoundsRun detect g tags s n outcome) (hg : Coherent g tags s) (hk : HasReads g k) :
    n ≤ k + 1 := by
  induction h generalizing k with
  | settled h => exact Nat.zero_le _
  | refused h => exact Nat.zero_le _
  | broken h hround => exact Nat.le_add_left ..
  | round hfound hround hrest ih =>
    obtain ⟨hcoherent, -⟩ := hg.countRound_factorRound hround
    obtain ⟨k₁, hk₁⟩ := hcoherent.valid.exists_hasReads
    have hless := reads_factorRound_lt (hg.count _) hfound hround hk hk₁
    have := ih hcoherent hk₁
    omega

/-- The bound on rounds is not exceeded by a run. -/
theorem RoundsRun.le_roundBound {outcome : EStateM.Result PassError Session Tagged}
    (h : RoundsRun detect g tags s n outcome) (hg : Coherent g tags s) :
    n ≤ g.roundBound.toNat := by
  obtain ⟨a, ha⟩ := hg.valid.well_formed.exists_valuation Terminal.readsOf
  have hle := h.le_reads hg ⟨a, ha, rfl⟩
  have hlt := reads_start_lt_roundBound hg.valid ha
  omega

/-- A run that succeeds counts its discoveries. -/
theorem RoundsRun.iterations_eq {result : Tagged} (hg : Coherent g tags s)
    (h : RoundsRun detect g tags s n (.ok result s')) :
    s'.tally.iterations = s.tally.iterations + n := by
  generalize houtcome : EStateM.Result.ok result s' = outcome at h
  induction h with
  | settled h => cases houtcome; rfl
  | refused h => cases houtcome
  | broken h hround => cases houtcome
  | @round g g₁ tags tags₁ s s₁ target n outcome hfound hround hrest ih =>
    obtain ⟨hcoherent, hiterations⟩ := hg.countRound_factorRound hround
    have := ih hcoherent houtcome
    omega

/-! ## Limits -/

theorem factorAll_of_refused {rounds : Countdown} {e : PassError}
    (h : g.discover config.detectUnsupported = .error e) :
    factorAll config rounds g tags s = .error e s := by
  have hlook : (ofExcept (g.discover config.detectUnsupported) : Pass _) s = .error e s :=
    ofExcept_eq_error.mpr ⟨h, rfl⟩
  cases rounds with
  | done => rw [factorAll, bind_of_error hlook]
  | more rest => rw [factorAll, bind_of_error hlook]

theorem countRound_of_allowed (h : ∀ m, config.maxIterations = some m → s.tally.iterations < m) :
    countRound config.maxIterations s = .ok () s.countRound :=
  countRound_eq_ok.mpr ⟨rfl, h⟩

theorem countRound_of_exceeded (hm : config.maxIterations = some m)
    (h : m ≤ s.tally.iterations) :
    countRound config.maxIterations s = .error (.iterationLimit m) s.countRound := by
  have hcount : (modify (·.count (fun t => { t with iterations := t.iterations + 1 })) :
      Pass PUnit) s = .ok ⟨⟩ s.countRound := modify_eq_ok.mpr rfl
  have hget : (get : Pass Session) s.countRound = .ok s.countRound s.countRound :=
    get_eq_ok.mpr ⟨rfl, rfl⟩
  have hlt : m < s.countRound.tally.iterations := Nat.lt_succ_of_le h
  unfold countRound
  rw [hm, bind_of_ok hcount]
  simp only
  rw [bind_of_ok hget, if_pos hlt]
  rfl

section Found

variable {rest : Unit → Countdown} {target : SharedPrefix}

/-- Behind a discovery the round is counted, made, and followed by the others. -/
theorem factorAll_of_found (h : g.discover config.detectUnsupported = .ok (some target)) :
    factorAll config (.more rest) g tags s =
      (countRound config.maxIterations >>= fun _ => factorRound g tags target >>= fun p =>
        factorAll config (rest ()) p.1 p.2) s := by
  have hlook : (ofExcept (g.discover config.detectUnsupported) : Pass _) s =
      .ok (some target) s := ofExcept_eq_ok.mpr ⟨h, rfl⟩
  rw [factorAll, bind_of_ok hlook]

theorem factorAll_of_exceeded (h : g.discover config.detectUnsupported = .ok (some target))
    (hm : config.maxIterations = some m) (hle : m ≤ s.tally.iterations) :
    factorAll config (.more rest) g tags s = .error (.iterationLimit m) s.countRound := by
  rw [factorAll_of_found h, bind_of_error (countRound_of_exceeded hm hle)]

theorem factorAll_of_broken {e : PassError}
    (h : g.discover config.detectUnsupported = .ok (some target))
    (hallowed : ∀ m, config.maxIterations = some m → s.tally.iterations < m)
    (hround : factorRound g tags target s.countRound = .error e s') :
    factorAll config (.more rest) g tags s = .error e s' := by
  rw [factorAll_of_found h, bind_of_ok (countRound_of_allowed hallowed), bind_of_error hround]

theorem factorAll_of_round {g₁ : Grammar} {tags₁ : Tagging} {s₁ : Session}
    (h : g.discover config.detectUnsupported = .ok (some target))
    (hallowed : ∀ m, config.maxIterations = some m → s.tally.iterations < m)
    (hround : factorRound g tags target s.countRound = .ok (g₁, tags₁) s₁) :
    factorAll config (.more rest) g tags s = factorAll config (rest ()) g₁ tags₁ s₁ := by
  rw [factorAll_of_found h, bind_of_ok (countRound_of_allowed hallowed), bind_of_ok hround]

end Found

/-- A limit that the discoveries do not exceed makes no difference. -/
theorem RoundsRun.factorAll_eq {rounds : Countdown}
    {outcome : EStateM.Result PassError Session Tagged}
    (h : RoundsRun config.detectUnsupported g tags s n outcome) (hg : Coherent g tags s)
    (hrounds : n ≤ rounds.toNat) (hpermits : config.Permits (s.tally.iterations + n)) :
    factorAll config rounds g tags s = outcome := by
  generalize hdetect : config.detectUnsupported = detect at h
  induction h generalizing rounds with
  | settled hfound => exact factorAll_of_settled (hdetect ▸ hfound)
  | refused hfound => exact factorAll_of_refused (hdetect ▸ hfound)
  | broken hfound hround =>
    cases rounds with
    | done => exact absurd hrounds (by simp [Countdown.toNat])
    | more rest => exact factorAll_of_broken (hdetect ▸ hfound) hpermits hround
  | @round g g₁ tags tags₁ s s₁ target n outcome hfound hround hrest ih =>
    cases rounds with
    | done => exact absurd hrounds (by simp [Countdown.toNat])
    | more rest =>
      obtain ⟨hcoherent, hiterations⟩ := hg.countRound_factorRound hround
      have hallowed : config.Permits (s.tally.iterations + 1) := hpermits.mono (by omega)
      rw [factorAll_of_round (hdetect ▸ hfound) hallowed hround]
      rw [Countdown.toNat] at hrounds
      exact ih hcoherent (by omega) (hpermits.mono (by omega))

/-- A limit that the discoveries exceed is what a run fails with. -/
theorem RoundsRun.factorAll_exceeds {rounds : Countdown}
    {outcome : EStateM.Result PassError Session Tagged}
    (h : RoundsRun config.detectUnsupported g tags s n outcome) (hg : Coherent g tags s)
    (hrounds : n ≤ rounds.toNat) (hm : config.maxIterations = some m)
    (hle : s.tally.iterations ≤ m) (hlt : m < s.tally.iterations + n) :
    ∃ s', factorAll config rounds g tags s = .error (.iterationLimit m) s' := by
  generalize hdetect : config.detectUnsupported = detect at h
  -- A run that ends without another discovery has no round to exceed the limit with.
  induction h generalizing rounds with
  | settled hfound => omega
  | refused hfound => omega
  | broken hfound hround =>
    cases rounds with
    | done => exact absurd hrounds (by simp [Countdown.toNat])
    | more rest => exact ⟨_, factorAll_of_exceeded (hdetect ▸ hfound) hm (by omega)⟩
  | @round g g₁ tags tags₁ s s₁ target n outcome hfound hround hrest ih =>
    cases rounds with
    | done => exact absurd hrounds (by simp [Countdown.toNat])
    | more rest =>
      by_cases hnow : m ≤ s.tally.iterations
      · exact ⟨_, factorAll_of_exceeded (hdetect ▸ hfound) hm hnow⟩
      · obtain ⟨hcoherent, hiterations⟩ := hg.countRound_factorRound hround
        have hallowed : ∀ k, config.maxIterations = some k → s.tally.iterations < k := by
          intro k hk
          obtain rfl := Option.some.inj (hm.symm.trans hk)
          omega
        rw [factorAll_of_round (hdetect ▸ hfound) hallowed hround]
        rw [Countdown.toNat] at hrounds
        exact ih hcoherent (by omega) (by omega) (by omega)

/-- A run within a limit that succeeds is one without a limit. -/
theorem RoundsRun.of_factorAll {result : Tagged} (hg : Coherent g tags s)
    (hbegun : config.Permits s.tally.iterations)
    (h : factorAll config g.roundBound g tags s = .ok result s') :
    ∃ n, config.Permits (s.tally.iterations + n) ∧
      RoundsRun config.detectUnsupported g tags s n (.ok result s') := by
  obtain ⟨n, outcome, hrun⟩ := hg.exists_roundsRun config.detectUnsupported
  have hbound := hrun.le_roundBound hg
  by_cases hpermits : config.Permits (s.tally.iterations + n)
  · rw [hrun.factorAll_eq hg hbound hpermits] at h
    exact ⟨n, hpermits, h ▸ hrun⟩
  · simp only [Config.Permits, not_forall, not_le] at hpermits
    obtain ⟨m, hm, hlt⟩ := hpermits
    obtain ⟨s₁, hexceeds⟩ := hrun.factorAll_exceeds hg hbound hm (hbegun m hm) hlt
    rw [hexceeds] at h
    cases h

/-! ## Refusing ambiguous shapes -/

/-- What is discovered when ambiguous shapes are refused is discovered without it. -/
theorem prefixAt_of_detect {v : Variable} {found : Option SharedPrefix}
    (h : g.prefixAt detect v = .ok found) : g.prefixAt false v = .ok found := by
  cases detect with
  | false => exact h
  | true =>
    unfold Grammar.prefixAt at h ⊢
    obtain ⟨chains, hchains, h⟩ := except_bind_eq_ok.mp h
    refine except_bind_eq_ok.mpr ⟨chains, hchains, ?_⟩
    cases hambiguity : firstAmbiguity v chains with
    | none =>
      simp only [hambiguity, if_true] at h
      exact h
    | some shape =>
      simp only [hambiguity, if_true] at h
      cases h

theorem firstPrefix_of_detect {vars : List Variable} {found : Option SharedPrefix}
    (h : g.firstPrefix detect vars = .ok found) : g.firstPrefix false vars = .ok found := by
  induction vars with
  | nil => exact h
  | cons v rest ih =>
    rw [Grammar.firstPrefix] at h ⊢
    obtain ⟨here, hhere, h⟩ := except_bind_eq_ok.mp h
    refine except_bind_eq_ok.mpr ⟨here, prefixAt_of_detect hhere, ?_⟩
    cases here with
    | none => exact ih h
    | some p => exact h

theorem discover_of_detect {found : Option SharedPrefix} (h : g.discover detect = .ok found) :
    g.discover false = .ok found :=
  firstPrefix_of_detect h

/-- A run that succeeds makes the same rounds when ambiguous shapes are not refused. -/
theorem RoundsRun.of_detect {result : Tagged}
    (h : RoundsRun detect g tags s n (.ok result s')) :
    RoundsRun false g tags s n (.ok result s') := by
  generalize houtcome : EStateM.Result.ok result s' = outcome at h
  induction h with
  | settled h =>
    cases houtcome
    exact .settled (discover_of_detect h)
  | refused h => cases houtcome
  | broken h hround => cases houtcome
  | round h hround hrest ih => exact .round (discover_of_detect h) hround (ih houtcome)

end FluentGrammar
