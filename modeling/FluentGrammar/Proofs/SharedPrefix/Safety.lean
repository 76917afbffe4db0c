import FluentGrammar.Proofs.Rewriting.Rounds
import FluentGrammar.Proofs.SharedPrefix.Factoring
import FluentGrammar.Proofs.Tag.Lookup
import FluentGrammar.Proofs.Value.Languages
import FluentGrammar.Proofs.Value.Trees

/-! # Factoring by any prefix is safe

    Nothing is asked of the prefix that factoring is given: it may name any terminal and any
    root, and its chains need not be chains of the grammar. Such a prefix may well fail to be
    factored out. But where factoring succeeds, the variables of the grammar keep their
    languages, they gain no derivation trees, and all of them but the root keep their rules
    and their tags.
-/

namespace FluentGrammar

variable {g g' : Grammar} {tags tags' : Tagging} {s s' : Session} {target : SharedPrefix}

/-- The new rules stand under other ids than the ones that are kept. -/
theorem ruleIds_rootReplaced_disjoint {start root : Variable} {rules : List Rule}
    (h : WellFormed start (g.rootReplaced root rules)) {i : Nat} (hi : i ∈ ruleIds g.rules)
    (hroot : i ≠ root.id) : i ∉ ruleIds rules := by
  have hnodup := h.nodup_ruleIds
  unfold Grammar.rootReplaced at hnodup
  rw [ruleIds_append, List.nodup_append] at hnodup
  obtain ⟨r, hr, rfl⟩ := mem_ruleIds.mp hi
  intro hnew
  have hkept : r ∈ g.rules.filter (fun r => r.lhs != root) :=
    List.mem_filter.mpr ⟨hr, Variable.bne_iff.mpr hroot⟩
  exact hnodup.2.2 _ (mem_ruleIds_of_mem hkept) _ hnew rfl

/-- A variable other than the root keeps its rule. -/
theorem rule?_of_rootReplaced (hg : g.Valid) {root v : Variable} {rules : List Rule}
    (hof : Grammar.ofRules g.start (g.rootReplaced root rules) = .ok g')
    (hv : v.id ∈ ruleIds g.rules) (hroot : v.id ≠ root.id) : g'.rule? v = g.rule? v := by
  have hg' := Grammar.valid_of_ofRules hof
  obtain ⟨r, hr, hrv⟩ := mem_ruleIds.mp hv
  have hr' : r ∈ g'.rules := (Grammar.mem_rules_of_ofRules hof).mpr
    (Grammar.mem_rootReplaced.mpr (Or.inl ⟨hr, hrv ▸ hroot⟩))
  rw [Grammar.rule?_of_mem hg.well_formed.nodup_ruleIds hr hrv,
    Grammar.rule?_of_mem hg'.well_formed.nodup_ruleIds hr' hrv]

/-- Factoring by any prefix, if it succeeds, keeps all variables with their languages, gives
    no word a new derivation tree, and touches neither the rule nor the tag of a variable
    other than the root. -/
theorem leftFactor_safe (hg : g.Valid)
    (h : leftFactor g tags target s = .ok (g', tags') s') (v : Variable)
    (hv : Defines g.rules v) :
    Defines g'.rules v ∧
      (∀ w, Derives g' v w ↔ Derives g v w) ∧
      (∀ w, Finite (TreesOf g' v w) ∧ treeCount g' v w ≤ treeCount g v w) ∧
      (v.id ≠ target.root.id → g'.rule? v = g.rule? v ∧ tags'.tag? v = tags.tag? v) := by
  obtain ⟨lhs, alternatives, tag, bench, hrule, -, hstep, hof, htags, -⟩ := leftFactor_eq_ok h
  obtain ⟨remaining, parts, rest, b₁, b₂, hrun⟩ := factorRoot_run hstep
  have hfinished := hrun.finished (Workbench.sound_empty ⟨g, tags, target⟩ s)
  have hg' := Grammar.valid_of_ofRules hof
  have hfactored := (hfinished.factored hrule).of_rules
    fun _ hr => (Grammar.mem_rules_of_ofRules hof).mpr hr
  have hvalued := ValuedBelow.of_factored hfactored hg hg'
  have hid := defines_iff_mem_ruleIds.mp hv
  have hid' := hfinished.mem_ruleIds hof hid
  have hv' := defines_iff_mem_ruleIds.mpr hid'
  refine ⟨hv', fun w => hvalued.derives_iff hg hg' hv hv', fun w =>
    ⟨finite_treesOf hg' hid' w, hvalued.treeCount_le hg hg' hid hid' w⟩, fun hroot =>
    ⟨rule?_of_rootReplaced hg hof hid hroot, ?_⟩⟩
  -- A tag is set for the root and for variables that have new rules, and for no others.
  rw [htags]
  apply Tagging.tag?_extend_of_not_mem
  intro hmem
  have hwell := (Grammar.ofRules_eq_ok.mp hof).1
  exact ruleIds_rootReplaced_disjoint hwell hid hroot
    ((hfinished.ids v.id).mpr (Or.inr ⟨hroot, hmem⟩))

/-- One of the two chains of `sharedCall` that read the shared terminal. Discovery never leaves
    the other one out. -/
def oneCallPrefix : SharedPrefix :=
  ⟨⟨"x", [countParameter]⟩, ⟨0, "S"⟩, [⟨⟨0, "S"⟩, [⟨1, "A"⟩]⟩]⟩

/-- Factoring that one chain out leaves the other alternative as it was. -/
def oneCallFactored : Grammar :=
  ⟨⟨0, "S"⟩,
    [.derivation ⟨1, "A"⟩ [.term ⟨"x", [countParameter]⟩],
     .derivation ⟨2, "B"⟩ [.term ⟨"x", [countParameter]⟩, .var ⟨3, "C"⟩],
     .derivation ⟨3, "C"⟩ [.term ⟨"y", []⟩],
     .derivation ⟨4, "Partial_A"⟩ [],
     .selection ⟨0, "S"⟩ [⟨5, "S_x"⟩, ⟨2, "B"⟩],
     .derivation ⟨5, "S_x"⟩ [.term ⟨"x", [countParameter]⟩, .var ⟨4, "Partial_A"⟩]]⟩

theorem oneCallPrefix_safe :
    sharedCall.Valid ∧ Defines sharedCall.rules sharedCall.start ∧
      ∃ tags' s', leftFactor sharedCall (.full sharedCall) oneCallPrefix
          (.ofGrammar sharedCall) = .ok (oneCallFactored, tags') s' ∧
        ∀ w, Derives oneCallFactored sharedCall.start w ↔
          Derives sharedCall sharedCall.start w := by
  have hdefined : Defines sharedCall.rules sharedCall.start :=
    sharedCall_valid.well_formed.start_defined
  have hrun : ∃ tags' s', leftFactor sharedCall (.full sharedCall) oneCallPrefix
      (.ofGrammar sharedCall) = .ok (oneCallFactored, tags') s' := ⟨_, _, by cbv⟩
  obtain ⟨tags', s', hrun⟩ := hrun
  exact ⟨sharedCall_valid, hdefined, tags', s', hrun,
    (leftFactor_safe sharedCall_valid hrun sharedCall.start hdefined).2.1⟩

end FluentGrammar
