import Mathlib
import FluentGrammar.Proofs.Rewriting.Bridging
import FluentGrammar.Proofs.Rewriting.Folding
import FluentGrammar.Proofs.Rewriting.Pruning
import FluentGrammar.Proofs.SharedPrefix.Factoring
import FluentGrammar.Rewriting.Canonical

/-! # Rounds of factoring

    One round is a rewriting that leaves no rule empty, and so is any number of rounds. The
    rounds end with a grammar in which no shared prefix is discovered.
-/

namespace FluentGrammar

variable {config : Config} {g g' : Grammar} {tags tags' : Tagging} {s s' : Session}

/-! ## One round -/

/-- A round is counted, and allowed as long as there are no more rounds than the limit. -/
theorem countRound_eq_ok {limit : Option Nat} {u : Unit} :
    countRound limit s = .ok u s' ↔
      s' = s.count (fun t => { t with iterations := t.iterations + 1 }) ∧
        ∀ n, limit = some n → s.tally.iterations < n := by
  unfold countRound
  constructor
  · intro h
    obtain ⟨u', s₁, hcount, h⟩ := bind_eq_ok.mp h
    rw [modify_eq_ok.mp hcount] at h
    cases limit with
    | none =>
      obtain ⟨-, hs'⟩ := pure_eq_ok.mp h
      exact ⟨hs'.symm, fun n hn => nomatch hn⟩
    | some n =>
      obtain ⟨s₂, s₃, hget, h⟩ := bind_eq_ok.mp h
      obtain ⟨hs₂, hs₃⟩ := get_eq_ok.mp hget
      rw [hs₂, hs₃] at h
      -- The round is counted first and compared with the limit afterwards.
      by_cases hn : n < s.tally.iterations + 1
      · exact absurd h (by
          rw [show (s.count _).tally.iterations = s.tally.iterations + 1 from rfl, if_pos hn]
          simp [throw_eq_ok])
      · rw [show (s.count _).tally.iterations = s.tally.iterations + 1 from rfl, if_neg hn]
          at h
        obtain ⟨-, hs'⟩ := pure_eq_ok.mp h
        refine ⟨hs'.symm, fun k hk => ?_⟩
        cases hk
        omega
  · intro hand
    obtain ⟨hs', hlimit⟩ := hand
    refine bind_eq_ok.mpr ⟨(), _, modify_eq_ok.mpr rfl, ?_⟩
    cases limit with
    | none => exact pure_eq_ok.mpr ⟨rfl, hs'.symm⟩
    | some n =>
      have hn := hlimit n rfl
      refine bind_eq_ok.mpr ⟨_, _, get_eq_ok.mpr ⟨rfl, rfl⟩, ?_⟩
      rw [show (s.count _).tally.iterations = s.tally.iterations + 1 from rfl,
        if_neg (by omega)]
      exact pure_eq_ok.mpr ⟨rfl, hs'.symm⟩

/-- Pruning only takes rules away. -/
theorem rules_subset_of_dropUnreachable
    (h : dropUnreachable g tags s = .ok (g', tags') s') : g'.rules ⊆ g.rules := by
  obtain ⟨rfl, -, -⟩ := dropUnreachable_eq_ok.mp h
  exact Grammar.rules_prune_sublist.subset

/-- A round is a rewriting and ends without empty rules. -/
theorem Coherent.factorRound {target : SharedPrefix} (hg : Coherent g tags s)
    (h : factorRound g tags target s = .ok (g', tags') s') :
    Rewritten g s g' tags' s' ∧ (TerminalsLead g.rules → TerminalsLead g'.rules) ∧
      NoneEmpty g'.rules := by
  unfold FluentGrammar.factorRound at h
  obtain ⟨⟨g₁, tags₁⟩, s₁, hfactor, h⟩ := bind_eq_ok.mp h
  obtain ⟨⟨g₂, tags₂⟩, s₂, hdrop, hfold⟩ := bind_eq_ok.mp h
  obtain ⟨h₁, hled₁, -⟩ := hg.leftFactor hfactor
  have h₂ := h₁.coherent.dropUnreachable hdrop
  obtain ⟨h₃, hled₃, hnone⟩ := h₂.coherent.foldEmpties hfold
  refine ⟨(h₁.trans hg h₂).trans hg h₃, ?_, hnone⟩
  intro hled
  exact hled₃ ((hled₁ hled).of_subset (rules_subset_of_dropUnreachable hdrop))

/-! ## All rounds -/

/-- What the rounds of factoring make of a grammar. -/
structure Factorized (config : Config) (g : Grammar) (s : Session) (g' : Grammar)
    (tags' : Tagging) (s' : Session) : Prop where
  coherent : Coherent g' tags' s'
  rewrites : Rewrites g s g' s'
  settled : g'.discover config.detectUnsupported = .ok none
  rounds_le : s.tally.iterations ≤ s'.tally.iterations
  allowed : ∀ m, config.maxIterations = some m → s.tally.iterations ≤ m →
    s'.tally.iterations ≤ m
  led : TerminalsLead g.rules → TerminalsLead g'.rules
  none_empty : NoneEmpty g.rules ∨ s.tally.iterations < s'.tally.iterations →
    NoneEmpty g'.rules

/-- Without a shared prefix there is no round. -/
theorem Factorized.refl (hg : Coherent g tags s)
    (hsettled : g.discover config.detectUnsupported = .ok none) :
    Factorized config g s g tags s where
  coherent := hg
  rewrites := .refl hg.valid s
  settled := hsettled
  rounds_le := Nat.le_refl _
  allowed := fun _ _ hle => hle
  led := id
  none_empty := fun hnone => hnone.resolve_right (Nat.lt_irrefl _)

/-- A round and the rounds behind it. -/
theorem Factorized.round {target : SharedPrefix} {g₁ : Grammar} {tags₁ : Tagging}
    {s₁ : Session} (hg : Coherent g tags s)
    (hlimit : ∀ m, config.maxIterations = some m → s.tally.iterations < m)
    (hround : factorRound g tags target
      (s.count (fun t => { t with iterations := t.iterations + 1 })) = .ok (g₁, tags₁) s₁)
    (hrest : Factorized config g₁ s₁ g' tags' s') : Factorized config g s g' tags' s' := by
  have hcounted := hg.count (fun t => { t with iterations := t.iterations + 1 })
  obtain ⟨h₁, hled₁, hnone₁⟩ := hcounted.factorRound hround
  have hrounds : s₁.tally.iterations = s.tally.iterations + 1 := h₁.rounds_eq
  have hrewrites := Rewrites.trans hcounted h₁.coherent.valid h₁.rewrites hrest.rewrites
  have hle := hrest.rounds_le
  refine ⟨hrest.coherent, ?_, hrest.settled, by omega, ?_, ?_, ?_⟩
  · exact ⟨hrewrites.start_eq, hrewrites.issued_le, hrewrites.added, hrewrites.valued⟩
  · intro m hm _
    have := hlimit m hm
    exact hrest.allowed m hm (by omega)
  · intro hled
    exact hrest.led (hled₁ hled)
  · -- A round leaves no empty rule, and no round behind it makes one.
    intro _
    exact hrest.none_empty (Or.inl hnone₁)

/-- Where no shared prefix is discovered, no round is made. -/
theorem factorAll_of_settled {rounds : Countdown}
    (h : g.discover config.detectUnsupported = .ok none) :
    factorAll config rounds g tags s = .ok (g, tags) s := by
  cases rounds <;> rw [factorAll, h] <;> rfl

theorem Coherent.factorAll {rounds : Countdown} (hg : Coherent g tags s)
    (h : factorAll config rounds g tags s = .ok (g', tags') s') :
    Factorized config g s g' tags' s' := by
  -- A run that succeeds has found nothing more in the end, whether or not rounds were left.
  induction rounds generalizing g tags s with
  | done =>
    rw [FluentGrammar.factorAll] at h
    obtain ⟨found, s₁, hfound, h⟩ := bind_eq_ok.mp h
    obtain ⟨hfound, hs₁⟩ := ofExcept_eq_ok.mp hfound
    rw [← hs₁] at h
    cases found with
    | none =>
      obtain ⟨heq, rfl⟩ := pure_eq_ok.mp h
      cases heq
      exact .refl hg hfound
    | some target =>
      simp only at h
      obtain ⟨s₂, s₃, -, h⟩ := bind_eq_ok.mp h
      exact absurd h (by simp [throw_eq_ok])
  | more rest ih =>
    rw [FluentGrammar.factorAll] at h
    obtain ⟨found, s₁, hfound, h⟩ := bind_eq_ok.mp h
    obtain ⟨hfound, hs₁⟩ := ofExcept_eq_ok.mp hfound
    rw [← hs₁] at h
    cases found with
    | none =>
      obtain ⟨heq, rfl⟩ := pure_eq_ok.mp h
      cases heq
      exact .refl hg hfound
    | some target =>
      simp only at h
      obtain ⟨u, s₂, hcount, h⟩ := bind_eq_ok.mp h
      obtain ⟨⟨g₁, tags₁⟩, s₃, hround, hrest⟩ := bind_eq_ok.mp h
      obtain ⟨hs₂, hlimit⟩ := countRound_eq_ok.mp hcount
      rw [hs₂] at hround
      obtain ⟨h₁, -, -⟩ := (hg.count _).factorRound hround
      exact .round hg hlimit hround (ih () h₁.coherent hrest)

/-! ## The whole pipeline -/

/-- The passes in front of the rounds. -/
def prepare (config : Config) (g : Grammar) (tags : Tagging) : Pass Tagged := do
  let (g, tags) ← bridgeTerminals g tags
  let (g, tags) ← (if config.foldInputEmpties then foldEmpties g tags else pure (g, tags))
  dropUnreachable g tags

theorem canonicalPass_eq :
    canonicalPass config g tags = prepare config g tags >>= fun p =>
      factorAll config p.1.roundBound p.1 p.2 >>= fun q => dropUnreachable q.1 q.2 := by
  unfold canonicalPass prepare
  by_cases hfolds : config.foldInputEmpties = true
  · simp only [if_pos hfolds, bind_assoc]
  · simp only [if_neg hfolds, bind_assoc, pure_bind]

/-- What the passes in front of the rounds make of a grammar. -/
theorem Coherent.prepare (hg : Coherent g tags s)
    (h : prepare config g tags s = .ok (g', tags') s') :
    Rewritten g s g' tags' s' ∧ TerminalsLead g'.rules ∧
      (config.foldInputEmpties = true → NoneEmpty g'.rules) := by
  unfold FluentGrammar.prepare at h
  obtain ⟨⟨g₁, tags₁⟩, s₁, hbridge, h⟩ := bind_eq_ok.mp h
  obtain ⟨h₁, hled₁⟩ := hg.bridgeTerminals hbridge
  obtain ⟨⟨g₂, tags₂⟩, s₂, hfold, hdrop⟩ := bind_eq_ok.mp h
  have hsub := rules_subset_of_dropUnreachable hdrop
  by_cases hfolds : config.foldInputEmpties = true
  · simp only [if_pos hfolds] at hfold
    obtain ⟨h₂, hled₂, hnone₂⟩ := h₁.coherent.foldEmpties hfold
    have h₃ := h₂.coherent.dropUnreachable hdrop
    exact ⟨(h₁.trans hg h₂).trans hg h₃, (hled₂ hled₁).of_subset hsub,
      fun _ => hnone₂.of_subset hsub⟩
  · simp only [if_neg hfolds] at hfold
    obtain ⟨heq, rfl⟩ := pure_eq_ok.mp hfold
    cases heq
    have h₃ := h₁.coherent.dropUnreachable hdrop
    exact ⟨h₁.trans hg h₃, hled₁.of_subset hsub, fun hfolds' => absurd hfolds' hfolds⟩

/-- What bringing a grammar into canonical form makes of it. -/
structure Canonicalized (config : Config) (g : Grammar) (s : Session) (g' : Grammar)
    (tags' : Tagging) (s' : Session) : Prop where
  coherent : Coherent g' tags' s'
  rewrites : Rewrites g s g' s'
  allowed : ∀ m, config.maxIterations = some m → s.tally.iterations ≤ m →
    s'.tally.iterations ≤ m
  led : TerminalsLead g'.rules
  none_empty : config.foldInputEmpties = true ∨ s.tally.iterations < s'.tally.iterations →
    NoneEmpty g'.rules
  reached : ∀ i ∈ ruleIds g'.rules, g'.Reaches tags'.implicitEdges i
  settled : ∃ (g₁ : Grammar) (extra : List Edge), g₁.Valid ∧
    g₁.discover config.detectUnsupported = .ok none ∧ g' = (g₁.prune extra).1

theorem Coherent.canonicalPass (hg : Coherent g tags s)
    (h : canonicalPass config g tags s = .ok (g', tags') s') :
    Canonicalized config g s g' tags' s' := by
  rw [canonicalPass_eq] at h
  obtain ⟨⟨g₁, tags₁⟩, s₁, hprepare, h⟩ := bind_eq_ok.mp h
  obtain ⟨⟨g₂, tags₂⟩, s₂, hrounds, hlast⟩ := bind_eq_ok.mp h
  obtain ⟨h₁, hled₁, hnone₁⟩ := hg.prepare hprepare
  have h₂ := h₁.coherent.factorAll hrounds
  have h₃ := h₂.coherent.dropUnreachable hlast
  have hsub := rules_subset_of_dropUnreachable hlast
  have hback := Rewrites.trans h₁.coherent h₂.coherent.valid h₂.rewrites h₃.rewrites
  -- What the rounds establish holds of all rules, so it is not lost when unreachable ones are
  -- dropped.
  refine ⟨h₃.coherent, Rewrites.trans hg h₁.coherent.valid h₁.rewrites hback, ?_,
    (h₂.led hled₁).of_subset hsub, ?_, h₂.coherent.reaches_dropUnreachable hlast, ?_⟩
  · intro m hm hle
    rw [h₃.rounds_eq]
    exact h₂.allowed m hm (h₁.rounds_eq ▸ hle)
  · intro hnone
    apply NoneEmpty.of_subset _ hsub
    apply h₂.none_empty
    rcases hnone with hfolds | hmore
    · exact Or.inl (hnone₁ hfolds)
    · right
      rw [h₁.rounds_eq, ← h₃.rounds_eq]
      exact hmore
  · obtain ⟨hprune, -, -⟩ := dropUnreachable_eq_ok.mp hlast
    exact ⟨g₂, _, h₂.coherent.valid, h₂.settled, hprune⟩

/-! ## From the outside -/

/-- The tagging of a grammar and a new session fit the grammar, if all of its variables are
    tagged. -/
theorem Coherent.initial {entries : List Tag} (hg : g.Valid)
    (htags : g.vars.mapM tags.require = .ok entries) :
    Coherent g (tags.retain g.contains) (.ofGrammar g) := by
  refine ⟨hg, ?_, ?_⟩
  · intro i hi
    obtain ⟨r, hr, rfl⟩ := mem_ruleIds.mp hi
    exact VariableSupply.id_lt_after (List.mem_map_of_mem hr)
  · intro i
    rw [Tagging.mem_ids_retain]
    constructor
    · exact And.right
    · intro hi
      refine ⟨?_, hi⟩
      obtain ⟨r, hr, rfl⟩ := mem_ruleIds.mp hi
      obtain ⟨tag, -, htag⟩ := exists_matched_right (except_mapM_eq_ok.mp htags)
        (List.mem_map_of_mem hr : r.lhs ∈ g.vars)
      exact Tagging.mem_ids_of_require htag

/-- Where every variable has a tag, all of them can be looked up. -/
theorem exists_entries_of_tagged (h : ∀ v ∈ g.vars, ∃ tag, tags.require v = .ok tag) :
    ∃ entries, g.vars.mapM tags.require = .ok entries := by
  cases hrun : g.vars.mapM tags.require with
  | ok entries => exact ⟨entries, rfl⟩
  | error e =>
    obtain ⟨v, hv, hmissing⟩ := except_mapM_eq_error hrun
    obtain ⟨tag, htag⟩ := h v hv
    rw [htag] at hmissing
    cases hmissing

theorem canonicalize_eq_ok {c : Canonical} :
    canonicalize config g tags = .ok c ↔
      (∃ entries, g.vars.mapM tags.require = .ok entries) ∧
        ∃ g' tags' s', canonicalPass config g (tags.retain g.contains) (.ofGrammar g) =
          .ok (g', tags') s' ∧ c = ⟨g', tags', s'.tally⟩ := by
  unfold canonicalize
  rw [except_bind_eq_ok]
  constructor
  · intro hex
    obtain ⟨entries, hentries, h⟩ := hex
    refine ⟨⟨entries, hentries⟩, ?_⟩
    cases hrun : (canonicalPass config g (tags.retain g.contains)).run (.ofGrammar g) with
    | ok result s' =>
      rw [hrun] at h
      cases h
      exact ⟨_, _, _, hrun, rfl⟩
    | error e s' =>
      rw [hrun] at h
      cases h
  · intro hex
    obtain ⟨⟨entries, hentries⟩, g', tags', s', hrun, hc⟩ := hex
    refine ⟨entries, hentries, ?_⟩
    rw [show (canonicalPass config g (tags.retain g.contains)).run (.ofGrammar g) = _
      from hrun, hc]
    rfl

/-- A canonical form comes from a run of all passes. -/
theorem Canonicalized.of_canonicalize {c : Canonical} (hg : g.Valid)
    (h : canonicalize config g tags = .ok c) :
    ∃ s', s'.tally = c.tally ∧
      Canonicalized config g (.ofGrammar g) c.grammar c.tags s' := by
  obtain ⟨⟨entries, hentries⟩, g', tags', s', hrun, rfl⟩ := canonicalize_eq_ok.mp h
  exact ⟨s', rfl, (Coherent.initial hg hentries).canonicalPass hrun⟩

/-! ## A run -/

/-- The parameter of a terminal. -/
def countParameter : Parameter := ⟨"Int", "count"⟩

/-- Two rules that read the same terminal first. -/
def sharedCall : Grammar :=
  ⟨⟨0, "S"⟩,
    [.derivation ⟨1, "A"⟩ [.term ⟨"x", [countParameter]⟩],
     .derivation ⟨2, "B"⟩ [.term ⟨"x", [countParameter]⟩, .var ⟨3, "C"⟩],
     .derivation ⟨3, "C"⟩ [.term ⟨"y", []⟩],
     .selection ⟨0, "S"⟩ [⟨1, "A"⟩, ⟨2, "B"⟩]]⟩

/-- The start variable reads the terminal itself, and nothing is left of one of the rules. -/
def sharedCallFactored : Canonical where
  grammar := ⟨⟨0, "S"⟩,
    [.derivation ⟨3, "C"⟩ [.term ⟨"y", []⟩],
     .derivation ⟨4, "Partial_A"⟩ [.term .empty],
     .derivation ⟨5, "Partial_B"⟩ [.var ⟨3, "C"⟩],
     .derivation ⟨0, "S"⟩ [.term ⟨"x", [countParameter]⟩, .var ⟨6, "S_x_K"⟩],
     .selection ⟨6, "S_x_K"⟩ [⟨4, "Partial_A"⟩, ⟨5, "Partial_B"⟩]]⟩
  tags := ⟨[(⟨3, "C"⟩, .full "C"), (⟨0, "S"⟩, .full "S"),
    (⟨4, "Partial_A"⟩, .partialDerivation "A" [countParameter] []),
    (⟨5, "Partial_B"⟩, .partialDerivation "B" [countParameter] []),
    (⟨6, "S_x_K"⟩, .partialSelection "S" [countParameter])]⟩
  tally := ⟨1, 0, 3, 0, 2⟩

theorem sharedCall_valid : sharedCall.Valid :=
  Grammar.valid_of_pairwise (by decide +kernel) (by decide +kernel)

theorem canonical_sharedCall : sharedCall.canonical = .ok sharedCallFactored := by
  cbv

end FluentGrammar
