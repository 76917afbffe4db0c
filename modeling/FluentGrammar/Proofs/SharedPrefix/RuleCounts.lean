import FluentGrammar.Proofs.SharedPrefix.Factoring

/-! # Rules that factoring adds

    Every rule that factoring makes, up to the new rule of the root, is the rule of a variable
    that it has added and counted. The new rule of the root takes the place of the old one. So
    factoring adds as many rules to a grammar as it counts variables.
-/

namespace FluentGrammar

variable {task : FactorTask} {b b₁ b₂ b' : Workbench} {m n : Nat}

/-! ## Workbenches -/

/-- The tally of a rewriting that has added some variables by factoring since. -/
def Tally.synthesize (t : Tally) (n : Nat) : Tally :=
  { t with synthesized := t.synthesized + n }

@[simp] theorem Tally.synthesize_synthesize (t : Tally) (m n : Nat) :
    (t.synthesize m).synthesize n = t.synthesize (m + n) := by
  unfold synthesize
  simp only [Nat.add_assoc]

/-- A number of variables has been added to a workbench, each with a rule. -/
structure Workbench.AddsMany (b : Workbench) (n : Nat) (b' : Workbench) : Prop where
  length_eq : b'.rules.length = b.rules.length + n
  tally_eq : b'.session.tally = b.session.tally.synthesize n

namespace Workbench.AddsMany

theorem refl (b : Workbench) : b.AddsMany 0 b :=
  ⟨rfl, rfl⟩

theorem trans (h₁ : b.AddsMany m b₁) (h₂ : b₁.AddsMany n b') : b.AddsMany (m + n) b' where
  length_eq := by rw [h₂.length_eq, h₁.length_eq, Nat.add_assoc]
  tally_eq := by rw [h₂.tally_eq, h₁.tally_eq, Tally.synthesize_synthesize]

/-- Splits are recorded without a rule. -/
theorem record (h : b.AddsMany n b') (splits : List (Variable × Split)) :
    b.AddsMany n { b' with splits := splits } :=
  ⟨h.length_eq, h.tally_eq⟩

end Workbench.AddsMany

theorem Workbench.Adds.addsMany {rule : Rule} {tag : Tag} (h : b.Adds rule tag b') :
    b.AddsMany 1 b' where
  length_eq := by rw [h.rules_eq, List.length_append, List.length_singleton]
  tally_eq := h.tally_eq

theorem Workbench.Chooses.addsMany {vars : List Variable} {tag : Tag} {v : Variable}
    (h : b.Chooses vars tag v b') : ∃ n, b.AddsMany n b' := by
  cases h with
  | alone hvars => exact ⟨0, .refl b⟩
  | added hvars hadd => exact ⟨1, hadd.addsMany⟩

/-! ## Splitting -/

theorem PartsRun.addsMany {R : SplitRun} (hR : ∀ b v s b', R b v s b' → ∃ n, b.AddsMany n b')
    {onChain alternatives fulls parts fulls' parts' : List Variable}
    (h : PartsRun R onChain alternatives fulls parts b fulls' parts' b') :
    ∃ n, b.AddsMany n b' := by
  induction h with
  | nil => exact ⟨0, .refl _⟩
  | aside hv hrest ih => exact ih
  | through hv hs hrest ih =>
    obtain ⟨m, hm⟩ := hR _ _ _ _ hs
    obtain ⟨n, hn⟩ := ih
    exact ⟨m + n, hm.trans hn⟩
  | both hv hs hrest ih =>
    obtain ⟨m, hm⟩ := hR _ _ _ _ hs
    obtain ⟨n, hn⟩ := ih
    exact ⟨m + n, hm.trans hn⟩

theorem SplitStep.addsMany {R : SplitRun} (hR : ∀ b v s b', R b v s b' → ∃ n, b.AddsMany n b')
    {v : Variable} {s : Split} (h : SplitStep task R b v s b') : ∃ n, b.AddsMany n b' := by
  cases h with
  | reads htag hrule hpartTag hpart => exact ⟨1, hpart.addsMany⟩
  | through htag hrule hpartTag hbelow hpart =>
    obtain ⟨m, hm⟩ := hR _ _ _ _ hbelow
    exact ⟨m + 1, hm.trans hpart.addsMany⟩
  | both htag hrule hpartTag hbelow hpart hfull =>
    obtain ⟨m, hm⟩ := hR _ _ _ _ hbelow
    exact ⟨m + 1 + 1, (hm.trans hpart.addsMany).trans hfull.addsMany⟩
  | choice htag hrule hparts hne hpartTag hpart =>
    obtain ⟨m, hm⟩ := hparts.addsMany hR
    obtain ⟨k, hk⟩ := hpart.addsMany
    exact ⟨m + k, hm.trans hk⟩
  | choices htag hrule hparts hne hfulls hpartTag hpart hfull =>
    obtain ⟨m, hm⟩ := hparts.addsMany hR
    obtain ⟨k, hk⟩ := hpart.addsMany
    obtain ⟨l, hl⟩ := hfull.addsMany
    exact ⟨m + k + l, (hm.trans hk).trans hl⟩

theorem splitVariable_addsMany (b : Workbench) (v : Variable) (s : Split) (b' : Workbench)
    (h : runsOf (splitVariable task) b v s b') : ∃ n, b.AddsMany n b' := by
  -- Recalled splits add nothing, and the others add what their steps add.
  refine splitWithin_induction (P := fun b _ _ b' => ∃ n, b.AddsMany n b')
    (fun b _ _ _ => ⟨0, .refl b⟩) (fun b v s b' hstep => ?_) _ b v s b' h
  obtain ⟨n, hn⟩ := hstep.addsMany fun _ _ _ _ h => h
  exact ⟨n, hn.record _⟩

/-! ## The root -/

/-- Besides the rules of the variables that are added, the root gets one. -/
theorem RootRun.addsMany {alternatives remaining parts : List Variable} {tag : Tag}
    {rest : Variable} (h : RootRun task alternatives tag remaining parts rest b b₁ b₂ b') :
    ∃ n, b'.rules.length = b.rules.length + n + 1 ∧
      b'.session.tally = b.session.tally.synthesize n := by
  obtain ⟨m, hm⟩ := h.parts_run.addsMany splitVariable_addsMany
  obtain ⟨restTag, -, hchooses⟩ := h.chooses
  obtain ⟨k, hk⟩ := hchooses.addsMany
  have hmade := hm.trans hk
  obtain ⟨leadTag, -, hroot⟩ := h.root_step
  cases hroot with
  | replaced hremaining =>
    refine ⟨m + k, ?_, hmade.tally_eq⟩
    rw [List.length_append, hmade.length_eq, List.length_singleton]
  | offered hremaining hlead =>
    have hall := hmade.trans hlead.addsMany
    refine ⟨m + k + 1, ?_, hall.tally_eq⟩
    rw [List.length_append, hall.length_eq, List.length_singleton]

variable {g g' : Grammar} {tags tags' : Tagging} {s s' : Session} {target : SharedPrefix}

/-- Sorting rules into a grammar loses none of them. -/
theorem Grammar.size_of_ofRules {start : Variable} {rules : List Rule}
    (h : Grammar.ofRules start rules = .ok g) : g.size = rules.length := by
  unfold size
  rw [Grammar.rules_of_ofRules h]
  exact (sortOn_perm Rule.lhs rules).length_eq

/-- A variable has one rule, so all others are one less. -/
theorem Grammar.length_rootReplaced (hg : g.Valid) {root : Variable}
    (hroot : root.id ∈ ruleIds g.rules) (rules : List Rule) :
    (g.rootReplaced root rules).length + 1 = g.size + rules.length := by
  -- The ids of the others are all ids but the one of the root.
  have hids : ruleIds (g.rules.filter (fun r => r.lhs != root)) =
      (ruleIds g.rules).erase root.id := by
    rw [hg.well_formed.nodup_ruleIds.erase_eq_filter]
    unfold ruleIds
    rw [List.filter_map]
    rfl
  have hothers := congrArg List.length hids
  rw [List.length_erase_of_mem hroot, ruleIds, ruleIds, List.length_map, List.length_map]
    at hothers
  have hpos : 0 < g.rules.length := by
    have := List.length_pos_of_mem hroot
    rwa [ruleIds, List.length_map] at this
  unfold rootReplaced size
  rw [List.length_append, hothers]
  omega

/-- Factoring adds as many rules as it counts variables. -/
theorem leftFactor_size (hg : g.Valid) (h : leftFactor g tags target s = .ok (g', tags') s') :
    ∃ n, g'.size = g.size + n ∧ s'.tally = s.tally.synthesize n := by
  obtain ⟨lhs, alternatives, tag, bench, hrule, -, hstep, hof, -, rfl⟩ := leftFactor_eq_ok h
  obtain ⟨remaining, parts, rest, b₁, b₂, hrun⟩ := factorRoot_run hstep
  obtain ⟨n, hlength, htally⟩ := hrun.addsMany
  refine ⟨n, ?_, htally⟩
  have hreplaced := Grammar.length_rootReplaced hg (mem_ruleIds_of_rule? hrule) bench.rules
  rw [hlength, List.length_nil] at hreplaced
  rw [Grammar.size_of_ofRules hof]
  omega

end FluentGrammar
