import FluentGrammar.Proofs.Rewriting.Coherence
import FluentGrammar.Proofs.Supply.Sessions
import FluentGrammar.Rewriting.Bridging

/-! # Bridging keeps values

    The holder of a bridge has the value of the terminal that it derives, so a sequence keeps
    its value when bridges take the places of terminals. Afterwards terminals stand only in
    front.
-/

namespace FluentGrammar

/-! ## What becomes of symbols and rules -/

/-- What bridging makes of a symbol. -/
inductive Bridged (bridges : List Bridge) : Symbol → Symbol → Prop where
  /-- A variable stays. -/
  | var (v : Variable) : Bridged bridges (.var v) (.var v)
  /-- The holder of a bridge takes the place of its terminal. -/
  | term (b : Bridge) (hb : b ∈ bridges) : Bridged bridges (.term b.terminal) (.var b.holder)

/-- What bridging makes of a rule. -/
inductive BridgedRule (bridges : List Bridge) : Rule → Rule → Prop where
  /-- A selection stays. -/
  | selection (lhs : Variable) (alternatives : List Variable) :
      BridgedRule bridges (.selection lhs alternatives) (.selection lhs alternatives)
  /-- An empty derivation stays. -/
  | empty (lhs : Variable) : BridgedRule bridges (.derivation lhs []) (.derivation lhs [])
  /-- Any other derivation keeps its first symbol. -/
  | derivation (lhs : Variable) (first : Symbol) (rest rest' : List Symbol)
      (hrest : List.Forall₂ (Bridged bridges) rest rest') :
      BridgedRule bridges (.derivation lhs (first :: rest)) (.derivation lhs (first :: rest'))

theorem Bridged.mono {bridges more : List Bridge} (hsub : bridges ⊆ more) {x y : Symbol}
    (h : Bridged bridges x y) : Bridged more x y := by
  cases h with
  | var v => exact .var v
  | term b hb => exact .term b (hsub hb)

theorem BridgedRule.mono {bridges more : List Bridge} (hsub : bridges ⊆ more) {r r' : Rule}
    (h : BridgedRule bridges r r') : BridgedRule more r r' := by
  cases h with
  | selection lhs alternatives => exact .selection lhs alternatives
  | empty lhs => exact .empty lhs
  | derivation lhs first rest rest' hrest =>
    exact .derivation lhs first rest rest' (hrest.imp fun _ _ => Bridged.mono hsub)

theorem BridgedRule.lhs_eq {bridges : List Bridge} {r r' : Rule} (h : BridgedRule bridges r r') :
    r'.lhs = r.lhs := by
  cases h <;> rfl

/-- Behind the first symbol, bridging leaves variables only. -/
theorem BridgedRule.isTerminal_eq_false {bridges : List Bridge} {r r' : Rule}
    (h : BridgedRule bridges r r') : ∀ x ∈ r'.behindLeading, x.isTerminal = false := by
  intro x hx
  cases h with
  | selection lhs alternatives => cases hx
  | empty lhs => cases hx
  | derivation lhs first rest rest' hrest =>
    obtain ⟨y, -, hyx⟩ := exists_matched_left hrest hx
    cases hyx <;> rfl

/-- A terminal behind the first symbol has a bridge. -/
theorem BridgedRule.exists_bridge {bridges : List Bridge} {r r' : Rule}
    (h : BridgedRule bridges r r') {t : Terminal} (ht : .term t ∈ r.behindLeading) :
    ∃ b ∈ bridges, b.terminal = t := by
  cases h with
  | selection lhs alternatives => cases ht
  | empty lhs => cases ht
  | derivation lhs first rest rest' hrest =>
    obtain ⟨y, -, hxy⟩ := exists_matched_right hrest ht
    cases hxy with
    | term b hb => exact ⟨b, hb, rfl⟩

/-- Without bridges nothing changes. -/
theorem BridgedRule.eq_of_nil {r r' : Rule} (h : BridgedRule [] r r') : r' = r := by
  cases h with
  | selection lhs alternatives => rfl
  | empty lhs => rfl
  | derivation lhs first rest rest' hrest =>
    have hsame : ∀ x y, Bridged [] x y → x = y := by
      intro x y hxy
      cases hxy with
      | var v => rfl
      | term b hb => cases hb
    have heq : List.Forall₂ Eq rest rest' := hrest.imp hsame
    rw [List.forall₂_eq_eq_eq] at heq
    rw [heq]

/-! ## The bridges that are built -/

/-- The session after some bridges have been built: their holders are what it has handed
    out since, named after their terminals. -/
structure BridgesTaken (s : Session) (bridges : List Bridge) (s' : Session) : Prop where
  issues : s.Issues (bridges.map (·.holder)) s'
  named : ∀ b ∈ bridges, NameSupply.NamedAfter (bridgeSeed b.terminal) b.holder.name
  tally_eq : s'.tally = s.tally

namespace BridgesTaken

theorem refl (s : Session) : BridgesTaken s [] s :=
  ⟨.refl s, by simp, rfl⟩

theorem take (s : Session) (t : Terminal) :
    BridgesTaken s [⟨(s.take (bridgeSeed t)).1, t⟩] (s.take (bridgeSeed t)).2 :=
  ⟨.take s (bridgeSeed t),
    List.forall_mem_singleton.mpr (s.names.take_namedAfter (bridgeSeed t)), rfl⟩

theorem trans {s s₁ s₂ : Session} {bridges more : List Bridge}
    (h₁ : BridgesTaken s bridges s₁) (h₂ : BridgesTaken s₁ more s₂) :
    BridgesTaken s (bridges ++ more) s₂ := by
  refine ⟨?_, List.forall_mem_append.mpr ⟨h₁.named, h₂.named⟩, h₂.tally_eq.trans h₁.tally_eq⟩
  rw [List.map_append]
  exact h₁.issues.trans h₂.issues

theorem issued_le {s s' : Session} {bridges : List Bridge} (h : BridgesTaken s bridges s') :
    s.ids.issued ≤ s'.ids.issued :=
  h.issues.issued_le

theorem holders {s s' : Session} {bridges : List Bridge} (h : BridgesTaken s bridges s') :
    ∀ b ∈ bridges, s.ids.issued ≤ b.holder.id ∧ b.holder.id < s'.ids.issued :=
  fun _ hb => h.issues.ids _ (List.mem_map_of_mem hb)

theorem nodup {s s' : Session} {bridges : List Bridge} (h : BridgesTaken s bridges s') :
    (bridges.map (·.holder.id)).Nodup := by
  have hnodup := h.issues.nodup_ids
  rwa [List.map_map] at hnodup

end BridgesTaken

theorem bridgeAll_spec (s : Session) (symbols : List Symbol) :
    BridgesTaken s (bridgeAll s symbols).2.1 (bridgeAll s symbols).2.2 ∧
      List.Forall₂ (Bridged (bridgeAll s symbols).2.1) symbols (bridgeAll s symbols).1 := by
  induction symbols generalizing s with
  | nil => exact ⟨.refl s, .nil⟩
  | cons x rest ih =>
    cases x with
    | term t =>
      obtain ⟨htaken, hbridged⟩ := ih (s.take (bridgeSeed t)).2
      refine ⟨(BridgesTaken.take s t).trans htaken, .cons ?_ ?_⟩
      · exact .term ⟨_, t⟩ (List.mem_cons_self ..)
      · exact hbridged.imp fun _ _ => Bridged.mono (List.subset_cons_self ..)
    | var v =>
      obtain ⟨htaken, hbridged⟩ := ih s
      exact ⟨htaken, .cons (.var v) hbridged⟩

theorem bridgeRule_spec (s : Session) (r : Rule) :
    BridgesTaken s (bridgeRule s r).2.1 (bridgeRule s r).2.2 ∧
      BridgedRule (bridgeRule s r).2.1 r (bridgeRule s r).1 := by
  cases r with
  | selection lhs alternatives => exact ⟨.refl s, .selection lhs alternatives⟩
  | derivation lhs rhs =>
    cases rhs with
    | nil => exact ⟨.refl s, .empty lhs⟩
    | cons first rest =>
      obtain ⟨htaken, hbridged⟩ := bridgeAll_spec s rest
      exact ⟨htaken, .derivation lhs first rest _ hbridged⟩

theorem bridgeRules_spec (s : Session) (rules : List Rule) :
    BridgesTaken s (bridgeRules s rules).2.1 (bridgeRules s rules).2.2 ∧
      List.Forall₂ (BridgedRule (bridgeRules s rules).2.1) rules (bridgeRules s rules).1 := by
  induction rules generalizing s with
  | nil => exact ⟨.refl s, .nil⟩
  | cons r rest ih =>
    obtain ⟨htaken, hbridged⟩ := bridgeRule_spec s r
    obtain ⟨htaken', hbridged'⟩ := ih (bridgeRule s r).2.2
    refine ⟨htaken.trans htaken', .cons ?_ ?_⟩
    · exact hbridged.mono (List.subset_append_left ..)
    · exact hbridged'.imp fun _ _ => BridgedRule.mono (List.subset_append_right ..)

/-! ## Values -/

section Values

variable {g g' : Grammar} {bridges : List Bridge} {rules : List Rule}

section Sequences

variable {K : Type} {term : Terminal → K} {a a' : Nat → K}

/-- Bridging keeps the value of a symbol when holders have the values of their terminals. -/
theorem Bridged.value_eq {x y : Symbol} (h : Bridged bridges x y)
    (hholder : ∀ b ∈ bridges, a' b.holder.id = term b.terminal)
    (hvar : ∀ v, x = .var v → a' v.id = a v.id) : y.value term a' = x.value term a := by
  cases h with
  | var v => exact hvar v rfl
  | term b hb => exact hholder b hb

theorem sequenceValue_of_bridged [Monoid K] {symbols symbols' : List Symbol}
    (h : List.Forall₂ (Bridged bridges) symbols symbols')
    (hholder : ∀ b ∈ bridges, a' b.holder.id = term b.terminal)
    (hvars : ∀ v, Symbol.var v ∈ symbols → a' v.id = a v.id) :
    sequenceValue term a' symbols' = sequenceValue term a symbols := by
  induction h with
  | nil => rfl
  | @cons x y xs ys hxy _ ih =>
    have hx : y.value term a' = x.value term a :=
      hxy.value_eq hholder fun v hv => hvars v (hv ▸ List.mem_cons_self ..)
    rw [sequenceValue_cons, sequenceValue_cons, hx,
      ih fun v hv => hvars v (List.mem_cons_of_mem _ hv)]

end Sequences

theorem ruleIds_of_bridged {old : List Rule}
    (h : List.Forall₂ (BridgedRule bridges) old rules) : ruleIds rules = ruleIds old := by
  unfold ruleIds
  induction h with
  | nil => rfl
  | cons hr _ ih => rw [List.map_cons, List.map_cons, ih, hr.lhs_eq]

/-- Bridging keeps all values. -/
theorem ValuedAlike.of_bridged (hg : g.Valid)
    (hbridged : List.Forall₂ (BridgedRule bridges) g.rules rules)
    (hrules : ∀ r, r ∈ g'.rules ↔ r ∈ rules ++ bridges.map Bridge.rule) :
    ValuedAlike g g' := by
  intro K _ _ term _ a a' ha ha' i hi _
  -- The rule of a bridge reads its terminal and nothing else.
  have hholder : ∀ b ∈ bridges, a' b.holder.id = term b.terminal := by
    intro b hb
    have hvalue := ha' b.rule
      ((hrules _).mpr (List.mem_append_right _ (List.mem_map_of_mem hb)))
    rw [show b.rule.lhs = b.holder from rfl] at hvalue
    rw [hvalue]
    show sequenceValue term a' [.term b.terminal] = term b.terminal
    rw [sequenceValue_cons, sequenceValue_nil, mul_one]
    rfl
  refine hg.well_formed.reference_induction (P := fun i => a' i = a i) ?_ i hi
  intro r hr ih
  obtain ⟨r', hr', hrr'⟩ := exists_matched_right hbridged hr
  have hvalue := ha' r' ((hrules r').mpr (List.mem_append_left _ hr'))
  rw [hrr'.lhs_eq] at hvalue
  rw [hvalue, ha r hr]
  clear hr hr' hvalue
  cases hrr' with
  | selection lhs alternatives => exact Rule.value_congr term _ ih
  | empty lhs => rfl
  | derivation lhs first rest rest' hrest =>
    show sequenceValue term a' (first :: rest') = sequenceValue term a (first :: rest)
    have hvars : ∀ v, Symbol.var v ∈ first :: rest → a' v.id = a v.id :=
      fun v hv => ih v (Rule.mem_references_derivation.mpr hv)
    -- The first symbol stays; the symbols behind it are bridged.
    have hfirst : first.value term a' = first.value term a := by
      cases first with
      | term t => rfl
      | var v => exact hvars v (List.mem_cons_self ..)
    rw [sequenceValue_cons, sequenceValue_cons, hfirst, sequenceValue_of_bridged hrest hholder
      fun v hv => hvars v (List.mem_cons_of_mem _ hv)]

end Values

/-! ## The pass -/

variable {g g' : Grammar} {tags tags' : Tagging} {s s' : Session}

theorem TerminalsLead.of_bridged {old rules : List Rule} {bridges : List Bridge}
    (h : List.Forall₂ (BridgedRule bridges) old rules) :
    TerminalsLead (rules ++ bridges.map Bridge.rule) := by
  intro r hr
  rcases List.mem_append.mp hr with hr | hr
  · obtain ⟨q, -, hqr⟩ := exists_matched_left h hr
    exact hqr.isTerminal_eq_false
  · -- A bridge has nothing behind its terminal.
    obtain ⟨b, -, rfl⟩ := List.mem_map.mp hr
    intro x hx
    cases hx

/-- The bridged rules and the bridges have the old variables and those of the bridges. -/
theorem mem_ruleIds_of_bridged {old rules : List Rule} {bridges : List Bridge}
    (h : List.Forall₂ (BridgedRule bridges) old rules) {i : Nat} :
    i ∈ ruleIds (rules ++ bridges.map Bridge.rule) ↔
      i ∈ bridges.map (·.holder.id) ∨ i ∈ ruleIds old := by
  have hholders : ruleIds (bridges.map Bridge.rule) = bridges.map (·.holder.id) := by
    unfold ruleIds
    rw [List.map_map]
    rfl
  rw [ruleIds_append, List.mem_append, ruleIds_of_bridged h, hholders, or_comm]

/-! ## Nothing to be bridged -/

theorem bridgeAll_of_variables {symbols : List Symbol}
    (h : ∀ x ∈ symbols, x.isTerminal = false) : bridgeAll s symbols = (symbols, [], s) := by
  induction symbols with
  | nil => rfl
  | cons x rest ih =>
    have hrest := ih fun y hy => h y (List.mem_cons_of_mem _ hy)
    cases x with
    | term t => exact absurd (h _ (List.mem_cons_self ..)) (by simp [Symbol.isTerminal,
        Symbol.toTerminal?])
    | var v => rw [bridgeAll, hrest]

theorem bridgeRules_of_led {rules : List Rule} (h : TerminalsLead rules) :
    bridgeRules s rules = (rules, [], s) := by
  induction rules with
  | nil => rfl
  | cons r rest ih =>
    have hrule : bridgeRule s r = (r, [], s) := by
      have hbehind := h r (List.mem_cons_self ..)
      cases r with
      | selection lhs alternatives => rfl
      | derivation lhs rhs =>
        cases rhs with
        | nil => rfl
        | cons first behind =>
          have hvariables : ∀ x ∈ behind, x.isTerminal = false := hbehind
          rw [bridgeRule, bridgeAll_of_variables hvariables]
    rw [bridgeRules, hrule]
    simp only [ih (h.of_subset (List.subset_cons_self ..)), List.nil_append]

/-- Where terminals stand only in front, none is bridged. -/
theorem bridgeTerminals_of_led (h : TerminalsLead g.rules) :
    bridgeTerminals g tags s = .ok (g, tags) s := by
  unfold bridgeTerminals
  refine bind_eq_ok.mpr ⟨s, s, rfl, ?_⟩
  simp only [bridgeRules_of_led h]
  exact bind_eq_ok.mpr ⟨(), s, rfl, rfl⟩

/-! ## The outcome -/

/-- Either there is nothing to be bridged, or the bridged rules make the new grammar. -/
theorem bridgeTerminals_run (h : bridgeTerminals g tags s = .ok (g', tags') s') :
    ∃ rules bridges s₁, bridgeRules s g.rules = (rules, bridges, s₁) ∧
      (bridges = [] ∧ g' = g ∧ tags' = tags ∧ s' = s₁ ∨
        Grammar.ofRules g.start (rules ++ bridges.map Bridge.rule) = .ok g' ∧
          tags' = tags.extend (bridges.map (fun b => (b.holder, .bridge))) ∧
            s' = s₁.count (fun t => { t with bridges := t.bridges + bridges.length })) := by
  unfold bridgeTerminals at h
  obtain ⟨s₀, s₁, hget, h⟩ := bind_eq_ok.mp h
  obtain ⟨hs₀, hs₁⟩ := get_eq_ok.mp hget
  rw [hs₀, hs₁] at h
  refine ⟨_, _, _, rfl, ?_⟩
  generalize bridgeRules s g.rules = bridged at h
  obtain ⟨rules, bridges, s₂⟩ := bridged
  simp only at h ⊢
  obtain ⟨u, s₃, hset, h⟩ := bind_eq_ok.mp h
  rw [set_eq_ok.mp hset] at h
  -- Without bridges the grammar is given back as it is, and no rules are checked.
  by_cases hnone : bridges.isEmpty = true
  · rw [if_pos hnone, pure_eq_ok] at h
    obtain ⟨heq, hs'⟩ := h
    cases heq
    exact Or.inl ⟨List.isEmpty_iff.mp hnone, rfl, rfl, hs'.symm⟩
  · rw [if_neg hnone] at h
    obtain ⟨u, s₄, hcount, h⟩ := bind_eq_ok.mp h
    rw [modify_eq_ok.mp hcount] at h
    obtain ⟨g₁, s₅, hrebuild, h⟩ := bind_eq_ok.mp h
    obtain ⟨hof, hs₅⟩ := rebuild_eq_ok.mp hrebuild
    obtain ⟨heq, hs'⟩ := pure_eq_ok.mp h
    cases heq
    exact Or.inr ⟨hof, rfl, hs'.symm.trans hs₅.symm⟩

/-- What bridging has made of the rules, and what it has taken for that. -/
theorem bridgeTerminals_eq_ok (h : bridgeTerminals g tags s = .ok (g', tags') s') :
    ∃ rules bridges s₁, BridgesTaken s bridges s₁ ∧
      List.Forall₂ (BridgedRule bridges) g.rules rules ∧
      (bridges = [] ∧ g' = g ∧ tags' = tags ∧ s' = s₁ ∨
        Grammar.ofRules g.start (rules ++ bridges.map Bridge.rule) = .ok g' ∧
          tags' = tags.extend (bridges.map (fun b => (b.holder, .bridge))) ∧
            s' = s₁.count (fun t => { t with bridges := t.bridges + bridges.length })) := by
  obtain ⟨rules, bridges, s₁, hrun, hdone⟩ := bridgeTerminals_run h
  obtain ⟨htaken, hbridged⟩ := bridgeRules_spec s g.rules
  rw [hrun] at htaken hbridged
  exact ⟨rules, bridges, s₁, htaken, hbridged, hdone⟩

theorem ValuedAlike.of_bridgeTerminals (hg : g.Valid)
    (h : bridgeTerminals g tags s = .ok (g', tags') s') : ValuedAlike g g' := by
  obtain ⟨rules, bridges, s₁, -, hbridged, ⟨-, rfl, -⟩ | ⟨hof, -⟩⟩ := bridgeTerminals_eq_ok h
  · exact .refl hg
  · exact .of_bridged hg hbridged fun r => Grammar.mem_rules_of_ofRules hof

/-- Bridging keeps a state coherent and all values, and leaves terminals only in front. -/
theorem Coherent.bridgeTerminals (hg : Coherent g tags s)
    (h : bridgeTerminals g tags s = .ok (g', tags') s') :
    Rewritten g s g' tags' s' ∧ TerminalsLead g'.rules := by
  obtain ⟨rules, bridges, s₁, htaken, hbridged, hdone⟩ := bridgeTerminals_eq_ok h
  have hissued := htaken.issued_le
  have hled := TerminalsLead.of_bridged hbridged
  rcases hdone with ⟨hnone, hg', htags', hs'⟩ | ⟨hof, htags', hs'⟩
  · subst hnone
    rw [hg', htags', hs']
    -- Without a bridge, the bridged rules are the rules themselves.
    have hsame : List.Forall₂ Eq g.rules rules :=
      hbridged.imp fun _ _ hr => hr.eq_of_nil.symm
    rw [List.forall₂_eq_eq_eq] at hsame
    refine ⟨⟨⟨hg.valid, ?_, hg.tagged⟩, ?_, by rw [htaken.tally_eq]⟩, ?_⟩
    · intro i hi
      exact (hg.fresh i hi).trans_le hissued
    · exact ⟨rfl, hissued, fun i hi => Or.inl hi, .refl hg.valid⟩
    · rw [hsame]
      exact hled.of_subset (List.subset_append_left ..)
  · rw [htags', hs']
    refine ⟨.of_rules hg hof hissued ?_ ?_ ?_ ?_, hled.of_subset (rules_subset_of_ofRules hof)⟩
    · intro i hi
      rcases (mem_ruleIds_of_bridged hbridged).mp hi with hi | hi
      · obtain ⟨b, hb, rfl⟩ := List.mem_map.mp hi
        exact Or.inr (htaken.holders b hb)
      · exact Or.inl hi
    · intro i
      rw [Tagging.mem_ids_extend, mem_ruleIds_of_bridged hbridged, hg.tagged, List.map_map]
      rfl
    · exact (ValuedAlike.of_bridgeTerminals hg.valid h).valuedBelow
    · show s₁.tally.iterations = s.tally.iterations
      rw [htaken.tally_eq]

end FluentGrammar
