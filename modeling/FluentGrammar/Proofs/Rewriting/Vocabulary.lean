import FluentGrammar.Proofs.Rewriting.Failures
import FluentGrammar.Proofs.Rewriting.Pruning

/-! # What rules are made of

    A vocabulary says which variables rules mention, which terminals they read, and which
    terminals stand behind the first symbol. Bridging, folding and pruning stay within the
    vocabulary of a grammar, but for variables that the session hands out and for `<empty>`.
-/

namespace FluentGrammar

/-- What rules may be made of. -/
structure Vocabulary where
  vars : List Variable
  terminals : Terminal → Prop
  /-- The terminals that may stand behind the first symbol of a derivation. -/
  behind : Terminal → Prop

/-- The vocabulary with more variables. -/
def Vocabulary.extend (voc : Vocabulary) (more : List Variable) : Vocabulary :=
  { voc with vars := voc.vars ++ more }

/-- The symbol belongs to the vocabulary. -/
def Symbol.Over (voc : Vocabulary) : Symbol → Prop
  | .term t => voc.terminals t
  | .var v => v ∈ voc.vars

/-- The rule is made of the vocabulary. -/
def Rule.Over (voc : Vocabulary) : Rule → Prop
  | .derivation lhs rhs =>
    lhs ∈ voc.vars ∧ (∀ x ∈ rhs, x.Over voc) ∧ ∀ t, Symbol.term t ∈ rhs.tail → voc.behind t
  | .selection lhs alternatives => lhs ∈ voc.vars ∧ alternatives ⊆ voc.vars

/-- The grammar is made of the vocabulary. -/
structure Grammar.Over (voc : Vocabulary) (g : Grammar) : Prop where
  start : g.start ∈ voc.vars
  rules : ∀ r ∈ g.rules, r.Over voc

variable {voc : Vocabulary} {more : List Variable}

@[simp] theorem Vocabulary.extend_nil (voc : Vocabulary) : voc.extend [] = voc := by
  simp [extend]

theorem Vocabulary.extend_extend (voc : Vocabulary) (vars more : List Variable) :
    (voc.extend vars).extend more = voc.extend (vars ++ more) := by
  simp [extend]

/-! ## Symbols and rules -/

section Rules

variable {voc' : Vocabulary} {x : Symbol} {r : Rule}

theorem Symbol.Over.mono (hvars : voc.vars ⊆ voc'.vars)
    (hterminals : ∀ t, voc.terminals t → voc'.terminals t) (h : x.Over voc) : x.Over voc' := by
  cases x with
  | term t => exact hterminals t h
  | var v => exact hvars h

theorem Symbol.Over.extend (h : x.Over voc) (more : List Variable) : x.Over (voc.extend more) :=
  h.mono (List.subset_append_left ..) fun _ ht => ht

theorem Rule.Over.extend (h : r.Over voc) (more : List Variable) : r.Over (voc.extend more) := by
  have hsub : voc.vars ⊆ (voc.extend more).vars := List.subset_append_left ..
  cases r with
  | derivation lhs rhs => exact ⟨hsub h.1, fun x hx => (h.2.1 x hx).extend more, h.2.2⟩
  | selection lhs alternatives => exact ⟨hsub h.1, List.Subset.trans h.2 hsub⟩

theorem Rule.Over.mentions (h : r.Over voc) : r.mentions ⊆ voc.vars := by
  intro v hv
  rcases Rule.mem_mentions.mp hv with rfl | hv
  · cases r <;> exact h.1
  · cases r with
    | derivation lhs rhs => exact h.2.1 _ (Rule.mem_references_derivation.mp hv)
    | selection lhs alternatives => exact h.2 hv

theorem Rule.Over.terminals (h : r.Over voc) : ∀ t ∈ r.terminals, voc.terminals t := by
  intro t ht
  cases r with
  | derivation lhs rhs =>
    obtain ⟨x, hx, hxt⟩ := List.mem_filterMap.mp ht
    cases x with
    | var v => cases hxt
    | term u =>
      cases hxt
      exact h.2.1 _ hx
  | selection lhs alternatives => cases ht

/-- What stands behind the first symbol is read. -/
theorem Rule.mem_terminals_of_behind {t : Terminal} (h : .term t ∈ r.behindLeading) :
    t ∈ r.terminals := by
  cases r with
  | derivation lhs rhs => exact List.mem_filterMap.mpr ⟨_, List.mem_of_mem_tail h, rfl⟩
  | selection lhs alternatives => cases h

theorem Rule.Over.behind (h : r.Over voc) {t : Terminal} (ht : .term t ∈ r.behindLeading) :
    voc.behind t := by
  cases r with
  | derivation lhs rhs => exact h.2.2 t ht
  | selection lhs alternatives => cases ht

/-- A rule is made of the variables that it mentions and the terminals that it reads. -/
theorem Rule.over_of_mentions (hmentions : r.mentions ⊆ voc.vars)
    (hterminals : ∀ t ∈ r.terminals, voc.terminals t)
    (hbehind : ∀ t, .term t ∈ r.behindLeading → voc.behind t) : r.Over voc := by
  have hlhs : r.lhs ∈ voc.vars := hmentions (List.mem_cons_self ..)
  cases r with
  | derivation lhs rhs =>
    refine ⟨hlhs, fun x hx => ?_, hbehind⟩
    cases x with
    | term t => exact hterminals t (List.mem_filterMap.mpr ⟨_, hx, rfl⟩)
    | var v =>
      exact hmentions (Rule.mem_mentions.mpr (Or.inr (Rule.mem_references_derivation.mpr hx)))
  | selection lhs alternatives =>
    exact ⟨hlhs, fun v hv => hmentions (List.mem_cons_of_mem _ hv)⟩

end Rules

/-! ## Grammars -/

section Grammars

variable {g g' : Grammar} {start : Variable} {rules : List Rule}

theorem Grammar.Over.occurrences (h : g.Over voc) : g.occurrences ⊆ voc.vars := by
  refine List.cons_subset.mpr ⟨h.start, fun v hv => ?_⟩
  obtain ⟨r, hr, hv⟩ := List.mem_flatMap.mp hv
  exact (h.rules r hr).mentions hv

theorem Grammar.Over.of_ofRules (hstart : start ∈ voc.vars) (hrules : ∀ r ∈ rules, r.Over voc)
    (hof : Grammar.ofRules start rules = .ok g) : g.Over voc where
  start := by rwa [Grammar.rules_of_ofRules hof]
  rules := fun r hr => hrules r (rules_subset_of_ofRules hof hr)

end Grammars

/-! ## Sessions that only count -/

/-- At most something has been counted. -/
def Session.OnlyCounts (s s' : Session) : Prop :=
  s.Issues [] s'

instance : IsPreorder Session Session.OnlyCounts where
  refl s := .refl s
  trans _ _ _ h₁ h₂ := Session.Issues.trans h₁ h₂

theorem Session.along_onlyCounts : Session.Along Session.OnlyCounts (fun _ => False) where
  count := fun s f => (Session.Issues.refl s).count f
  take := fun _ _ h => h.elim

/-! ## Passes -/

section Passes

variable {g g' : Grammar} {tags tags' : Tagging} {s s' : Session}

/-- What is bridged has stood in the symbols. -/
theorem terminal_of_mem_bridgeAll {symbols : List Symbol} {b : Bridge}
    (hb : b ∈ (bridgeAll s symbols).2.1) : .term b.terminal ∈ symbols := by
  induction symbols generalizing s with
  | nil => cases hb
  | cons x rest ih =>
    cases x with
    | term t =>
      rcases List.mem_cons.mp hb with rfl | hb
      · exact List.mem_cons_self ..
      · exact List.mem_cons_of_mem _ (ih hb)
    | var v => exact List.mem_cons_of_mem _ (ih hb)

theorem terminal_of_mem_bridgeRules {rules : List Rule} {b : Bridge}
    (hb : b ∈ (bridgeRules s rules).2.1) :
    ∃ r ∈ rules, .term b.terminal ∈ r.behindLeading := by
  induction rules generalizing s with
  | nil => cases hb
  | cons r rest ih =>
    rcases List.mem_append.mp hb with hb | hb
    · refine ⟨r, List.mem_cons_self .., ?_⟩
      cases r with
      | selection lhs alternatives => cases hb
      | derivation lhs rhs =>
        cases rhs with
        | nil => cases hb
        | cons first rest => exact terminal_of_mem_bridgeAll hb
    · obtain ⟨q, hq, ht⟩ := ih hb
      exact ⟨q, List.mem_cons_of_mem _ hq, ht⟩

theorem Bridged.over {bridges : List Bridge} {x y : Symbol} (h : Bridged bridges x y)
    (hx : x.Over voc) : y.Over (voc.extend (bridges.map (·.holder))) := by
  cases h with
  | var v => exact hx.extend _
  | term b hb => exact List.mem_append_right _ (List.mem_map_of_mem hb)

theorem BridgedRule.over {bridges : List Bridge} {r r' : Rule} (h : BridgedRule bridges r r')
    (hr : r.Over voc) : r'.Over (voc.extend (bridges.map (·.holder))) := by
  have hbehind := h.isTerminal_eq_false
  cases h with
  | selection lhs alternatives => exact hr.extend _
  | empty lhs => exact hr.extend _
  | derivation lhs first rest rest' hrest =>
    obtain ⟨hlhs, hsymbols, -⟩ := hr
    obtain ⟨hfirst, hrestOver⟩ := List.forall_mem_cons.mp hsymbols
    refine ⟨List.mem_append_left _ hlhs,
      List.forall_mem_cons.mpr ⟨hfirst.extend _, fun y hy => ?_⟩, fun t ht => ?_⟩
    · obtain ⟨x, hx, hxy⟩ := exists_matched_left hrest hy
      exact hxy.over (hrestOver x hx)
    · cases hbehind _ ht

/-- Bridging adds the holders of the bridges to the vocabulary. -/
theorem Grammar.Over.bridgeTerminals (h : g.Over voc)
    (hrun : bridgeTerminals g tags s = .ok (g', tags') s') :
    ∃ fresh, s.Issues fresh s' ∧ g'.Over (voc.extend fresh) := by
  obtain ⟨rules, bridges, s₁, hbridges, hdone⟩ := bridgeTerminals_run hrun
  obtain ⟨htaken, hbridged⟩ := bridgeRules_spec s g.rules
  have hterminals : ∀ b ∈ (bridgeRules s g.rules).2.1,
      ∃ r ∈ g.rules, .term b.terminal ∈ r.behindLeading :=
    fun _ hb => terminal_of_mem_bridgeRules hb
  rw [hbridges] at htaken hbridged hterminals
  refine ⟨bridges.map (·.holder), ?_⟩
  rcases hdone with ⟨rfl, rfl, -, rfl⟩ | ⟨hof, -, rfl⟩
  · exact ⟨htaken.issues, by simpa using h⟩
  · refine ⟨htaken.issues.count _, .of_ofRules (List.mem_append_left _ h.start) ?_ hof⟩
    refine List.forall_mem_append.mpr ⟨fun r' hr' => ?_, fun r' hr' => ?_⟩
    · obtain ⟨r, hr, hrr'⟩ := exists_matched_left hbridged hr'
      exact hrr'.over (h.rules r hr)
    · obtain ⟨b, hb, rfl⟩ := List.mem_map.mp hr'
      obtain ⟨r, hr, ht⟩ := hterminals b hb
      refine ⟨List.mem_append_right _ (List.mem_map_of_mem hb),
        List.forall_mem_singleton.mpr ?_, fun t ht => nomatch ht⟩
      exact (h.rules r hr).terminals _ (Rule.mem_terminals_of_behind ht)

/-- Folding adds nothing to a vocabulary but `<empty>`. -/
theorem Folded.over {empties : List Variable} {r r' : Rule} (h : Folded empties r r')
    (hempty : voc.terminals .empty) (hr : r.Over voc) : r'.Over voc := by
  cases h with
  | selection lhs alternatives => exact hr
  | empty lhs rhs hlhs =>
    exact ⟨hr.1, List.forall_mem_singleton.mpr hempty, fun t ht => nomatch ht⟩
  | leading lhs dropped rhs hlhs hdropped =>
    obtain ⟨hlhs, hsymbols, hbehind⟩ := hr
    refine ⟨hlhs, fun x hx => hsymbols x (List.mem_append_right _ hx), fun t ht => ?_⟩
    refine hbehind t ?_
    cases dropped with
    | nil => exact ht
    | cons v rest => exact List.mem_append_right _ (List.mem_of_mem_tail ht)

theorem Grammar.Over.foldRules (h : g.Over voc) (hempty : voc.terminals .empty)
    {rules : List Rule} (hrun : foldRules g.emptyVariables tags g.rules s = .ok (rules, tags') s')
    (hof : Grammar.ofRules g.start rules = .ok g') : s.Issues [] s' ∧ g'.Over voc := by
  have hconfined : Confined Session.OnlyCounts Internal
      (FluentGrammar.foldRules g.emptyVariables tags g.rules) :=
    confined_foldRules Session.along_onlyCounts internal_mismatch _
      fun r _ => Or.inr (internal_missingTag r.lhs)
  refine ⟨hconfined.of_ok hrun, .of_ofRules h.start (fun r' hr' => ?_) hof⟩
  obtain ⟨r, hr, hfolded⟩ := exists_matched_left (foldRules_eq_ok hrun).2 hr'
  exact hfolded.over hempty (h.rules r hr)

theorem Grammar.Over.dropUnreachable (h : g.Over voc)
    (hrun : dropUnreachable g tags s = .ok (g', tags') s') : s.Issues [] s' ∧ g'.Over voc := by
  obtain ⟨rfl, rfl, rfl⟩ := dropUnreachable_eq_ok.mp hrun
  exact ⟨(Session.Issues.refl s).count _, h.start,
    fun r hr => h.rules r (Grammar.rules_prune_sublist.subset hr)⟩

end Passes

end FluentGrammar
