import FluentGrammar.Proofs.Grammar.Validation
import FluentGrammar.Proofs.Sample.Xorshift
import FluentGrammar.Sample.RandomGrammar

/-! # Every draw makes a grammar

    Whatever the words are that a random grammar is drawn from: the rule of a variable refers
    to higher variables only, so levels fall along references, and the alternatives of a
    selection are different elements of a pool. The rules are therefore well formed, and
    validation takes them as they are.
-/

namespace FluentGrammar

/-! ## Rules that are drawn -/

/-- What the rule of a variable looks like that may refer to the higher ones. -/
inductive DrawnRule (config : SampleConfig) (lhs : Variable) (higher : List Variable) :
    Rule → Prop where
  /-- A selection among different higher variables. -/
  | selection {alternatives : List Variable} (two_le : 2 ≤ alternatives.length)
      (le_max : alternatives.length ≤ max 2 config.maxAlternatives)
      (subperm : alternatives.Subperm higher) :
      DrawnRule config lhs higher (.selection lhs alternatives)
  /-- A derivation to terminals and higher variables. -/
  | derivation {rhs : List Symbol} (le_max : rhs.length ≤ max 1 config.maxRhs)
      (mem_higher : ∀ w, .var w ∈ rhs → w ∈ higher) :
      DrawnRule config lhs higher (.derivation lhs rhs)

/-- Rules of variables, each of which refers to the variables behind its own. -/
inductive DrawnRules (config : SampleConfig) : List Variable → List Rule → Prop where
  | nil : DrawnRules config [] []
  | cons {v : Variable} {higher : List Variable} {r : Rule} {drawn : List Rule}
      (head : DrawnRule config v higher r) (tail : DrawnRules config higher drawn) :
      DrawnRules config (v :: higher) (r :: drawn)

variable {config : SampleConfig} {v : Variable} {vars higher : List Variable} {r : Rule}
  {drawn : List Rule}

namespace Draw

theorem symbol_gives (config : SampleConfig) (higher : List Variable) :
    (symbol config higher).Gives fun s => ∀ w, s = .var w → w ∈ higher := by
  -- Two ways lead to a terminal: there is no higher variable, or none is wanted.
  have hterm : (terminal config >>= fun t => pure (Symbol.term t)).Gives
      fun s => ∀ w, s = .var w → w ∈ higher := by
    have hany : (terminal config).Gives fun _ => True := by
      refine (below_gives (by omega)).bind fun _ _ => (chance_gives _).bind fun param _ => ?_
      cases param <;> exact .pure trivial
    exact hany.bind fun t _ => .pure fun w h => nomatch h
  unfold symbol
  cases higher with
  | nil => exact hterm
  | cons u higher =>
    refine (chance_gives _).bind fun wanted _ => ?_
    cases wanted with
    | false => exact hterm
    | true =>
      refine (below_gives (Nat.succ_pos higher.length)).bind fun k hk => ?_
      have hget : (u :: higher)[k]? = some (u :: higher)[k] := List.getElem?_eq_getElem hk
      rw [hget]
      refine .pure fun w hw => ?_
      cases hw
      exact List.getElem_mem hk

theorem selection_gives (config : SampleConfig) (lhs : Variable)
    (hhigher : 2 ≤ higher.length) :
    (selection config lhs higher).Gives (DrawnRule config lhs higher) := by
  refine (below_gives (by omega)).bind fun k hk => ?_
  refine (among_gives (2 + k) higher).bind fun alternatives ⟨hlength, hsub⟩ => .pure ?_
  exact .selection (by omega) (by omega) hsub

theorem derivation_gives (config : SampleConfig) (lhs : Variable) (higher : List Variable) :
    (derivation config lhs higher).Gives (DrawnRule config lhs higher) := by
  refine (chance_gives _).bind fun isEmpty _ => ?_
  cases isEmpty with
  | true => exact .pure (.derivation (Nat.zero_le _) fun w hw => absurd hw List.not_mem_nil)
  | false =>
    refine (below_gives (by omega)).bind fun k hk => ?_
    refine (times_gives (symbol_gives config higher) (1 + k)).bind
      fun rhs ⟨hlength, hsymbols⟩ => .pure ?_
    exact .derivation (by omega) fun w hw => hsymbols _ hw w rfl

theorem rule_gives (config : SampleConfig) (lhs : Variable) (higher : List Variable) :
    (rule config lhs higher).Gives (DrawnRule config lhs higher) := by
  unfold rule
  by_cases hhigher : 2 ≤ higher.length
  · rw [if_pos hhigher]
    refine (chance_gives _).bind fun wanted _ => ?_
    cases wanted with
    | true => exact (selection_gives config lhs hhigher).bind fun r hr => .pure hr
    | false => exact derivation_gives config lhs higher
  · rw [if_neg hhigher]
    exact derivation_gives config lhs higher

theorem rules_gives (config : SampleConfig) (vars : List Variable) :
    (rules config vars).Gives (DrawnRules config vars) := by
  induction vars with
  | nil => exact .pure .nil
  | cons v higher ih =>
    exact (rule_gives config v higher).bind fun r hr => ih.bind fun drawn hdrawn =>
      .pure (.cons hr hdrawn)

end Draw

theorem DrawnRule.lhs_eq (h : DrawnRule config v higher r) : r.lhs = v := by
  cases h <;> rfl

theorem DrawnRule.references_subset (h : DrawnRule config v higher r) :
    r.references ⊆ higher := by
  intro w hw
  cases h with
  | selection _ _ hsub => exact hsub.subset hw
  | derivation _ hmem => exact hmem w (Rule.mem_references_derivation.mp hw)

theorem DrawnRules.map_lhs (h : DrawnRules config vars drawn) : drawn.map Rule.lhs = vars := by
  induction h with
  | nil => rfl
  | cons hr _ ih => rw [List.map_cons, hr.lhs_eq, ih]

/-- The variables behind that of a rule are those that it may refer to. -/
theorem DrawnRules.exists_rule (h : DrawnRules config vars drawn) {i : Nat}
    (hi : i < vars.length) : ∃ r ∈ drawn, DrawnRule config vars[i] (vars.drop (i + 1)) r := by
  induction h generalizing i with
  | nil => exact absurd hi (Nat.not_lt_zero i)
  | @cons v higher r drawn hr _ ih =>
    cases i with
    | zero => exact ⟨r, List.mem_cons_self .., hr⟩
    | succ i =>
      obtain ⟨q, hq, hrule⟩ := ih (Nat.lt_of_succ_lt_succ hi)
      exact ⟨q, List.mem_cons_of_mem _ hq, hrule⟩

theorem DrawnRules.exists_variable (h : DrawnRules config vars drawn) (hr : r ∈ drawn) :
    ∃ i, ∃ hi : i < vars.length, DrawnRule config vars[i] (vars.drop (i + 1)) r := by
  induction h with
  | nil => cases hr
  | cons hhead _ ih =>
    rcases List.mem_cons.mp hr with rfl | hr
    · exact ⟨0, Nat.succ_pos _, hhead⟩
    · obtain ⟨i, hi, hrule⟩ := ih hr
      exact ⟨i + 1, Nat.succ_lt_succ hi, hrule⟩

/-! ## Numbered variables -/

/-- The variables of a random grammar. -/
def numberedVariables (count : Nat) : List Variable :=
  (List.range count).map numberedVariable

theorem length_numberedVariables (count : Nat) : (numberedVariables count).length = count := by
  rw [numberedVariables, List.length_map, List.length_range]

theorem getElem_numberedVariables {count i : Nat} (h : i < (numberedVariables count).length) :
    (numberedVariables count)[i] = numberedVariable i := by
  simp [numberedVariables]

theorem distinct_numberedVariables (count : Nat) : Distinct (numberedVariables count) :=
  List.pairwise_map.mpr List.nodup_range

theorem mem_drop_numberedVariables {count i : Nat} {w : Variable} :
    w ∈ (numberedVariables count).drop i ↔ ∃ j, i ≤ j ∧ j < count ∧ w = numberedVariable j := by
  rw [List.mem_drop_iff_getElem]
  constructor
  · rintro ⟨k, hk, rfl⟩
    rw [length_numberedVariables] at hk
    exact ⟨i + k, Nat.le_add_right i k, by omega, getElem_numberedVariables _⟩
  · rintro ⟨j, hij, hj, rfl⟩
    refine ⟨j - i, by rw [length_numberedVariables]; omega, ?_⟩
    rw [getElem_numberedVariables, Nat.add_sub_cancel' hij]

/-! ## The grammar of the rules -/

section WellFormed

variable {count : Nat}

/-- A rule of a numbered variable refers to variables with higher numbers only. -/
theorem DrawnRule.number_lt {i : Nat}
    (h : DrawnRule config (numberedVariable i) ((numberedVariables count).drop (i + 1)) r)
    {w : Variable} (hw : w ∈ r.references) : ∃ j, i < j ∧ j < count ∧ w = numberedVariable j :=
  mem_drop_numberedVariables.mp (h.references_subset hw)

/-- Rules that are drawn for numbered variables make a grammar. -/
theorem DrawnRules.wellFormed (h : DrawnRules config (numberedVariables count) drawn)
    (hcount : 0 < count) : WellFormed (numberedVariable 0) drawn := by
  have hdefined : ∀ j < count, Defines drawn (numberedVariable j) := by
    intro j hj
    obtain ⟨r, hr, hdrawn⟩ := h.exists_rule (length_numberedVariables count ▸ hj)
    rw [getElem_numberedVariables] at hdrawn
    exact ⟨r, hr, congrArg Variable.id hdrawn.lhs_eq⟩
  -- A rule refers to later variables only; its own number says which ones those are.
  have hrule : ∀ r ∈ drawn, ∃ i < count,
      DrawnRule config (numberedVariable i) ((numberedVariables count).drop (i + 1)) r := by
    intro r hr
    obtain ⟨i, hi, hdrawn⟩ := h.exists_variable hr
    rw [getElem_numberedVariables] at hdrawn
    exact ⟨i, length_numberedVariables count ▸ hi, hdrawn⟩
  refine ⟨?_, hdefined 0 hcount, ?_, ?_, ?_⟩
  · rw [h.map_lhs]
    exact distinct_numberedVariables count
  · intro lhs alternatives hr
    obtain ⟨i, -, hdrawn⟩ := hrule _ hr
    cases hdrawn with
    | selection htwo _ hsub =>
      obtain ⟨chosen, hperm, hsublist⟩ := hsub
      have hchosen : Distinct chosen :=
        ((distinct_numberedVariables count).sublist (List.drop_sublist _ _)).sublist hsublist
      exact ⟨htwo, hperm.pairwise hchosen fun h => h.symm⟩
  · intro r hr w hw
    obtain ⟨i, -, hdrawn⟩ := hrule r hr
    obtain ⟨j, -, hj, rfl⟩ := hdrawn.number_lt hw
    exact hdefined j hj
  · -- The level of a variable is its distance from the last one.
    refine acyclic_of_levels (fun i => count - i) fun r hr w hw => ?_
    obtain ⟨i, hi, hdrawn⟩ := hrule r hr
    obtain ⟨j, hij, hj, rfl⟩ := hdrawn.number_lt hw
    rw [hdrawn.lhs_eq]
    show count - j < count - i
    omega

end WellFormed

/-- Where the draws of a configuration begin. -/
def SampleConfig.register (config : SampleConfig) : Xorshift :=
  (config.seed.map Xorshift.ofSeed).getD .unseeded

theorem SampleConfig.register_ne_zero (config : SampleConfig) : config.register.register ≠ 0 := by
  unfold register
  cases config.seed with
  | none => exact (by decide : (0x853c49e6748fea9b : UInt64) ≠ 0)
  | some seed => exact Xorshift.ofSeed_register_ne_zero seed

/-- Whatever a configuration and its seed are, the rules that are drawn make a valid grammar. It
    has the variables that are asked for, at least one, and starts at the first. A rule refers
    only to variables with higher numbers; a selection has between two and the wanted number of
    alternatives, all different, and a derivation at most the wanted number of symbols. The
    register is not zero however often it is moved on. -/
theorem Grammar.sample_valid (config : SampleConfig) :
    let count := max 1 config.variableCount
    (∃ g, Grammar.sample config = .ok g ∧ g.Valid ∧ g.start = numberedVariable 0 ∧
      g.vars.Perm (numberedVariables count) ∧
      ∀ i < count, ∃ r, g.rule? (numberedVariable i) = some r ∧ r.lhs = numberedVariable i ∧
        (∀ w ∈ r.references, ∃ j, i < j ∧ j < count ∧ w = numberedVariable j) ∧
        (∀ lhs alternatives, r = .selection lhs alternatives →
          2 ≤ alternatives.length ∧ alternatives.length ≤ max 2 config.maxAlternatives ∧
            Distinct alternatives) ∧
        ∀ lhs rhs, r = .derivation lhs rhs → rhs.length ≤ max 1 config.maxRhs) ∧
    ∀ draws, (Xorshift.next^[draws] config.register).register ≠ 0 := by
  intro count
  refine ⟨?_, Xorshift.iterate_next_register_ne_zero config.register_ne_zero⟩
  have hcount : 0 < count := Nat.lt_of_lt_of_le Nat.one_pos (Nat.le_max_left ..)
  let drawn := ((Draw.rules config (numberedVariables count)).run config.register).1
  have hdrawn : DrawnRules config (numberedVariables count) drawn :=
    (Draw.rules_gives config (numberedVariables count) config.register).1
  -- The rules that were drawn are well formed, so the last check lets them through.
  have hsample : Grammar.sample config = .ok ⟨numberedVariable 0, sortRules drawn⟩ := by
    unfold Grammar.sample
    rw [Nat.max_comm]
    exact ofRules_eq_ok.mpr ⟨hdrawn.wellFormed hcount, rfl⟩
  have hvalid := valid_of_ofRules hsample
  refine ⟨_, hsample, hvalid, rfl, ?_, fun i hi => ?_⟩
  · rw [← hdrawn.map_lhs]
    exact (sortOn_perm Rule.lhs _).map Rule.lhs
  · obtain ⟨r, hr, hrule⟩ := hdrawn.exists_rule (length_numberedVariables count ▸ hi)
    rw [getElem_numberedVariables] at hrule
    have hmem : r ∈ sortRules drawn := mem_sortRules.mpr hr
    refine ⟨r, rule?_of_mem hvalid.well_formed.nodup_ruleIds hmem
      (congrArg Variable.id hrule.lhs_eq), hrule.lhs_eq, fun w hw => hrule.number_lt hw, ?_, ?_⟩
    · rintro lhs alternatives rfl
      have htwo := hvalid.well_formed.selections _ _ hmem
      cases hrule with
      | selection _ hmax _ => exact ⟨htwo.1, hmax, htwo.2⟩
    · rintro lhs rhs rfl
      cases hrule with
      | derivation hmax _ => exact hmax

end FluentGrammar
