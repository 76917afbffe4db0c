import FluentGrammar.Proofs.Tag.Changes
import FluentGrammar.Rewriting.EmptyFolding

/-! # Folding empty rules keeps values

    An empty rule and the rule `<empty>` both have the value one, and a derivation that drops
    leading factors of value one keeps its value. Folding ends without empty rules: every
    round turns some of them into `<empty>`, and no round makes a rule that starts with a
    terminal start with anything else.
-/

namespace FluentGrammar

/-! ## What becomes of a rule -/

/-- What one round of folding makes of a rule. -/
inductive Folded (empties : List Variable) : Rule → Rule → Prop where
  /-- A selection stays. -/
  | selection (lhs : Variable) (alternatives : List Variable) :
      Folded empties (.selection lhs alternatives) (.selection lhs alternatives)
  /-- An empty rule becomes `<empty>`. -/
  | empty (lhs : Variable) (rhs : List Symbol) (hlhs : empties.contains lhs = true) :
      Folded empties (.derivation lhs rhs) (.derivation lhs [.term .empty])
  /-- Any other derivation drops the empty variables that it starts with. -/
  | leading (lhs : Variable) (dropped : List Variable) (rhs : List Symbol)
      (hlhs : empties.contains lhs = false)
      (hdropped : ∀ v ∈ dropped, empties.contains v = true) :
      Folded empties (.derivation lhs (dropped.map .var ++ rhs)) (.derivation lhs rhs)

theorem Folded.lhs_eq {empties : List Variable} {r r' : Rule} (h : Folded empties r r') :
    r'.lhs = r.lhs := by
  cases h <;> rfl

/-- Folding changes the tally of a session and nothing else. -/
structure FoldedTags (tags : Tagging) (s : Session) (tags' : Tagging) (s' : Session) :
    Prop where
  tagged_iff : ∀ i, i ∈ tags'.ids ↔ i ∈ tags.ids
  nodup : tags.ids.Nodup → tags'.ids.Nodup
  ids_eq : s'.ids = s.ids
  rounds_eq : s'.tally.iterations = s.tally.iterations

theorem FoldedTags.refl (tags : Tagging) (s : Session) : FoldedTags tags s tags s :=
  ⟨fun _ => Iff.rfl, id, rfl, rfl⟩

theorem FoldedTags.trans {tags tags₁ tags₂ : Tagging} {s s₁ s₂ : Session}
    (h₁ : FoldedTags tags s tags₁ s₁) (h₂ : FoldedTags tags₁ s₁ tags₂ s₂) :
    FoldedTags tags s tags₂ s₂ :=
  ⟨fun i => (h₂.tagged_iff i).trans (h₁.tagged_iff i), h₂.nodup ∘ h₁.nodup,
    h₂.ids_eq.trans h₁.ids_eq, h₂.rounds_eq.trans h₁.rounds_eq⟩

/-- Giving a tagged variable another tag is part of folding. -/
theorem FoldedTags.insert {tags : Tagging} {s : Session} {v : Variable} {tag : Tag}
    (h : tags.require v = .ok tag) (tag' : Tag) {f : Tally → Tally}
    (hf : (f s.tally).iterations = s.tally.iterations) :
    FoldedTags tags s (tags.insert v tag') (s.count f) := by
  refine ⟨?_, fun hnodup => Tagging.nodup_ids_insert hnodup v tag', rfl, hf⟩
  intro i
  rw [Tagging.mem_ids_insert]
  constructor
  · intro hi
    rcases hi with rfl | hi
    · exact Tagging.mem_ids_of_require h
    · exact hi
  · exact Or.inr

/-- What folding does to tags besides: the tag of one variable takes the dropped variables on,
    and no other tag changes. -/
structure Retagged (v : Variable) (dropped : List Variable) (tags tags' : Tagging) : Prop where
  own : ∀ tag, tags.tag? v = some tag →
    ∃ tag', tags'.tag? v = some tag' ∧ tag.Folds dropped tag'
  others : ∀ w : Variable, w.id ≠ v.id → tags'.tag? w = tags.tag? w

theorem Retagged.refl (v : Variable) (tags : Tagging) : Retagged v [] tags tags :=
  ⟨fun tag h => ⟨tag, h, .nil tag⟩, fun _ _ => rfl⟩

theorem Retagged.cons {v w : Variable} {dropped : List Variable} {tags tags' : Tagging}
    {tag tag' : Tag} (htag : tags.require v = .ok tag) (hfold : tag.withImplicit w = .ok tag')
    (h : Retagged v dropped (tags.insert v tag') tags') : Retagged v (w :: dropped) tags tags' := by
  rw [Tagging.require_eq_ok] at htag
  constructor
  · intro tag₀ htag₀
    obtain rfl : tag = tag₀ := Option.some.inj (htag.symm.trans htag₀)
    obtain ⟨last, hlast, hfolds⟩ := h.own tag' (Tagging.tag?_insert_self tags v tag')
    exact ⟨last, hlast, .cons hfold hfolds⟩
  · intro u hu
    rw [h.others u hu, Tagging.tag?_insert_ne tags tag' (Ne.symm hu)]

section Rules

variable {empties : List Variable}

theorem foldLeading_nil {lhs : Variable} {tags : Tagging} :
    foldLeading empties lhs tags [] = pure ([], tags) := rfl

theorem foldLeading_term {lhs : Variable} {tags : Tagging} {t : Terminal}
    {rest : List Symbol} :
    foldLeading empties lhs tags (.term t :: rest) = pure (.term t :: rest, tags) := rfl

theorem foldLeading_eq_ok {lhs : Variable} {rhs rhs' : List Symbol} {tags tags' : Tagging}
    {s s' : Session} (h : foldLeading empties lhs tags rhs s = .ok (rhs', tags') s') :
    FoldedTags tags s tags' s' ∧ ∃ dropped : List Variable,
      rhs = dropped.map .var ++ rhs' ∧ (∀ v ∈ dropped, empties.contains v = true) ∧
        Retagged lhs dropped tags tags' := by
  induction rhs generalizing tags s with
  | nil =>
    rw [foldLeading_nil, pure_eq_ok] at h
    obtain ⟨heq, rfl⟩ := h
    cases heq
    exact ⟨.refl _ _, [], rfl, by simp, .refl lhs _⟩
  | cons symbol rest ih =>
    cases symbol with
    | term t =>
      rw [foldLeading_term, pure_eq_ok] at h
      obtain ⟨heq, rfl⟩ := h
      cases heq
      exact ⟨.refl _ _, [], rfl, by simp, .refl lhs _⟩
    | var w =>
      rw [foldLeading] at h
      by_cases hw : empties.contains w = true
      · -- An empty variable is dropped, and its tag is folded into that of the rule.
        rw [if_pos hw] at h
        obtain ⟨tag, s₁, htag, h⟩ := bind_eq_ok.mp h
        obtain ⟨tag', s₂, htag', h⟩ := bind_eq_ok.mp h
        obtain ⟨u, s₃, hcount, h⟩ := bind_eq_ok.mp h
        obtain ⟨hrequire, rfl⟩ := ofExcept_eq_ok.mp htag
        obtain ⟨hfold, rfl⟩ := ofExcept_eq_ok.mp htag'
        rw [modify_eq_ok] at hcount
        subst hcount
        obtain ⟨hkept, dropped, heq, hdropped, hretagged⟩ := ih h
        refine ⟨(FoldedTags.insert hrequire tag' rfl).trans hkept, w :: dropped, ?_, ?_,
          .cons hrequire hfold hretagged⟩
        · rw [List.map_cons, List.cons_append, ← heq]
        · intro v hv
          rcases List.mem_cons.mp hv with rfl | hv
          · exact hw
          · exact hdropped v hv
      · rw [if_neg hw, pure_eq_ok] at h
        obtain ⟨heq, rfl⟩ := h
        cases heq
        exact ⟨.refl _ _, [], rfl, by simp, .refl lhs _⟩

theorem foldRule_eq_ok {r r' : Rule} {tags tags' : Tagging} {s s' : Session}
    (h : foldRule empties tags r s = .ok (r', tags') s') :
    FoldedTags tags s tags' s' ∧ Folded empties r r' := by
  cases r with
  | selection lhs alternatives =>
    rw [foldRule, pure_eq_ok] at h
    obtain ⟨heq, rfl⟩ := h
    cases heq
    exact ⟨.refl _ _, .selection lhs alternatives⟩
  | derivation lhs rhs =>
    rw [foldRule] at h
    by_cases hlhs : empties.contains lhs = true
    · rw [if_pos hlhs, pure_eq_ok] at h
      obtain ⟨heq, rfl⟩ := h
      cases heq
      exact ⟨.refl _ _, .empty lhs rhs hlhs⟩
    · rw [if_neg hlhs] at h
      obtain ⟨⟨rhs', tags₁⟩, s₁, hleading, h⟩ := bind_eq_ok.mp h
      obtain ⟨heq, rfl⟩ := pure_eq_ok.mp h
      cases heq
      obtain ⟨hkept, dropped, rfl, hdropped, -⟩ := foldLeading_eq_ok hleading
      exact ⟨hkept, .leading lhs dropped rhs' (by simpa using hlhs) hdropped⟩

theorem foldRules_eq_ok {rules rules' : List Rule} {tags tags' : Tagging} {s s' : Session}
    (h : foldRules empties tags rules s = .ok (rules', tags') s') :
    FoldedTags tags s tags' s' ∧ List.Forall₂ (Folded empties) rules rules' := by
  induction rules generalizing tags s rules' with
  | nil =>
    rw [foldRules, pure_eq_ok] at h
    obtain ⟨heq, rfl⟩ := h
    cases heq
    exact ⟨.refl _ _, .nil⟩
  | cons r rest ih =>
    rw [foldRules] at h
    obtain ⟨⟨r', tags₁⟩, s₁, hrule, h⟩ := bind_eq_ok.mp h
    obtain ⟨⟨rest', tags₂⟩, s₂, hrest, h⟩ := bind_eq_ok.mp h
    obtain ⟨heq, rfl⟩ := pure_eq_ok.mp h
    cases heq
    obtain ⟨hkept, hfolded⟩ := foldRule_eq_ok hrule
    obtain ⟨hkept', hfolded'⟩ := ih hrest
    exact ⟨hkept.trans hkept', .cons hfolded hfolded'⟩

end Rules

/-! ## One round -/

section Round

variable {g g' : Grammar} {rules : List Rule}

theorem mem_emptyVariables {v : Variable} :
    g.emptyVariables.contains v = true ↔
      ∃ lhs, Rule.derivation lhs [] ∈ g.rules ∧ lhs.id = v.id := by
  rw [contains_iff_mem_ids]
  simp only [Grammar.emptyVariables, List.mem_map, List.mem_filter]
  constructor
  · intro hex
    obtain ⟨u, ⟨r, ⟨hr, hempty⟩, hu⟩, huv⟩ := hex
    cases r with
    | derivation lhs rhs =>
      rw [Rule.isEmptyDerivation, List.isEmpty_iff] at hempty
      subst hempty
      exact ⟨lhs, hr, by rw [← huv, ← hu]; rfl⟩
    | selection lhs alternatives => cases hempty
  · intro hex
    obtain ⟨lhs, hr, hv⟩ := hex
    exact ⟨lhs, ⟨_, ⟨hr, rfl⟩, rfl⟩, hv⟩

theorem ruleIds_of_folded {empties : List Variable} {rules rules' : List Rule}
    (h : List.Forall₂ (Folded empties) rules rules') : ruleIds rules' = ruleIds rules := by
  induction h with
  | nil => rfl
  | cons hr _ ih =>
    unfold ruleIds at ih ⊢
    rw [List.map_cons, List.map_cons, ih, hr.lhs_eq]

/-- Variables of value one may stand in front of a sequence or be dropped. -/
theorem sequenceValue_append_of_one {K : Type} [Monoid K] {term : Terminal → K} {a : Nat → K}
    {dropped : List Variable} (hone : ∀ v ∈ dropped, a v.id = 1) (rhs : List Symbol) :
    sequenceValue term a (dropped.map .var ++ rhs) = sequenceValue term a rhs := by
  induction dropped with
  | nil => rfl
  | cons v rest ih =>
    have hv : (Symbol.var v).value term a = 1 := hone v (List.mem_cons_self ..)
    rw [List.map_cons, List.cons_append, sequenceValue_cons, hv, one_mul,
      ih fun u hu => hone u (List.mem_cons_of_mem _ hu)]

/-- An empty rule has the value one. -/
theorem IsValuation.eq_one_of_empty {K : Type} [Monoid K] [AddCommMonoid K] {term : Terminal → K}
    {a : Nat → K} (ha : IsValuation term g.rules a) {v : Variable}
    (hv : g.emptyVariables.contains v = true) : a v.id = 1 := by
  obtain ⟨lhs, hr, hlhs⟩ := mem_emptyVariables.mp hv
  rw [← hlhs]
  exact ha _ hr

/-- One round of folding keeps all values. -/
theorem ValuedAlike.of_folded (hg : g.Valid)
    (hfolded : List.Forall₂ (Folded g.emptyVariables) g.rules rules)
    (hrules : ∀ r, r ∈ g'.rules ↔ r ∈ rules) : ValuedAlike g g' := by
  intro K _ _ term hterm a a' ha ha' i hi _
  have hnodup := hg.well_formed.nodup_ruleIds
  refine hg.well_formed.reference_induction (P := fun i => a' i = a i) ?_ i hi
  intro r hr ih
  obtain ⟨r', hr', hrr'⟩ := exists_matched_right hfolded hr
  have hvalue' := ha' r' ((hrules r').mpr hr')
  rw [hrr'.lhs_eq] at hvalue'
  rw [hvalue', ha r hr]
  cases hrr' with
  | selection lhs alternatives => exact Rule.value_congr term _ ih
  | empty lhs rhs hlhs =>
    -- The rule is the empty one itself, since a variable has but one rule.
    obtain ⟨lhs₀, hr₀, hid⟩ := mem_emptyVariables.mp hlhs
    have heq := eq_of_lhs_id_eq hnodup hr₀ hr hid
    cases heq
    show sequenceValue term a' [.term .empty] = sequenceValue term a []
    simp [Symbol.value, hterm]
  | leading lhs dropped rhs hlhs hdropped =>
    have hrhs : sequenceValue term a' rhs = sequenceValue term a rhs := by
      refine Rule.value_congr term (.derivation lhs rhs) fun v hv => ih v ?_
      rw [Rule.mem_references_derivation] at hv ⊢
      exact List.mem_append_right _ hv
    show sequenceValue term a' rhs = sequenceValue term a (dropped.map .var ++ rhs)
    rw [hrhs, sequenceValue_append_of_one fun v hv => ha.eq_one_of_empty (hdropped v hv)]

theorem Folded.behindLeading_subset {empties : List Variable} {r r' : Rule}
    (h : Folded empties r r') : r'.behindLeading ⊆ r.behindLeading := by
  cases h with
  | selection lhs alternatives => exact List.Subset.refl _
  | empty lhs rhs hlhs => exact List.nil_subset _
  | leading lhs dropped rhs hlhs hdropped =>
    intro symbol hsymbol
    have hrhs : symbol ∈ rhs := List.mem_of_mem_tail hsymbol
    show symbol ∈ (dropped.map Symbol.var ++ rhs).tail
    cases dropped with
    | nil => exact hsymbol
    | cons v dropped => exact List.mem_append_right _ hrhs

theorem TerminalsLead.of_folded {empties : List Variable} {rules rules' : List Rule}
    (h : TerminalsLead rules) (hfolded : List.Forall₂ (Folded empties) rules rules') :
    TerminalsLead rules' := by
  intro r' hr' symbol hsymbol
  obtain ⟨r, hr, hrr'⟩ := exists_matched_left hfolded hr'
  exact h r hr symbol (hrr'.behindLeading_subset hsymbol)

end Round

/-! ## Rounds until no rule is empty -/

/-- Whether a rule is a derivation that does not start with a terminal. -/
def Rule.isUnled : Rule → Bool
  | .derivation _ (.term _ :: _) => false
  | .derivation _ (.var _ :: _) => true
  | .derivation _ [] => true
  | .selection .. => false

theorem Rule.isUnled_of_isEmptyDerivation {r : Rule} (h : r.isEmptyDerivation = true) :
    r.isUnled = true := by
  cases r with
  | derivation lhs rhs =>
    rw [isEmptyDerivation, List.isEmpty_iff] at h
    subst h
    rfl
  | selection lhs alternatives => cases h

/-- A rule that starts with a terminal does not lose it. -/
theorem Folded.isUnled_of {empties : List Variable} {r r' : Rule} (h : Folded empties r r')
    (hr' : r'.isUnled = true) : r.isUnled = true := by
  cases h with
  | selection lhs alternatives => exact hr'
  | empty lhs rhs hlhs => cases hr'
  | leading lhs dropped rhs hlhs hdropped =>
    cases dropped with
    | nil => exact hr'
    | cons v dropped => rfl

/-- A round leaves no more rules without a leading terminal than there were, and fewer if a
    rule was empty. -/
theorem countP_isUnled_of_folded {empties : List Variable} {rules rules' : List Rule}
    (h : List.Forall₂ (Folded empties) rules rules') :
    rules'.countP Rule.isUnled ≤ rules.countP Rule.isUnled ∧
      ((∃ r ∈ rules, r.isEmptyDerivation = true ∧ empties.contains r.lhs = true) →
        rules'.countP Rule.isUnled < rules.countP Rule.isUnled) := by
  induction h with
  | nil => simp
  | @cons r r' rules rules' hrr' _ ih =>
    obtain ⟨hle, hlt⟩ := ih
    rw [List.countP_cons, List.countP_cons]
    -- Folding takes symbols away at the front or puts `<empty>` there, so a led rule stays led.
    have hone : (if r'.isUnled = true then 1 else 0) ≤ (if r.isUnled = true then 1 else 0) := by
      by_cases hr' : r'.isUnled = true
      · rw [if_pos hr', if_pos (hrr'.isUnled_of hr')]
      · rw [if_neg hr']
        exact Nat.zero_le _
    refine ⟨by omega, ?_⟩
    intro hex
    obtain ⟨q, hq, hempty, hcontains⟩ := hex
    rcases List.mem_cons.mp hq with rfl | hq
    · -- The empty rule itself has become `<empty>`, which starts with a terminal.
      have hled : r'.isUnled = false := by
        cases hrr' with
        | selection lhs alternatives => rfl
        | empty lhs rhs hlhs => rfl
        | leading lhs dropped rhs hlhs hdropped =>
          rw [show (Rule.derivation lhs (dropped.map .var ++ rhs)).lhs = lhs from rfl, hlhs]
            at hcontains
          cases hcontains
      rw [hled, Rule.isUnled_of_isEmptyDerivation hempty]
      simp only [Bool.false_eq_true, if_false, if_true]
      omega
    · have := hlt ⟨q, hq, hempty, hcontains⟩
      omega

/-- Where no variable is empty, no rule is. -/
theorem noneEmpty_of_isEmpty {g : Grammar} (h : g.emptyVariables.isEmpty = true) :
    NoneEmpty g.rules := by
  intro r hr
  rw [List.isEmpty_iff, Grammar.emptyVariables, List.map_eq_nil_iff,
    List.filter_eq_nil_iff] at h
  simpa using h r hr

/-- Where some rule is empty, a round leaves fewer rules without a leading terminal. -/
theorem countP_isUnled_lt {g g' : Grammar} {rules : List Rule}
    (hempty : g.emptyVariables.isEmpty = false)
    (hfolded : List.Forall₂ (Folded g.emptyVariables) g.rules rules)
    (hof : Grammar.ofRules g.start rules = .ok g') :
    g'.rules.countP Rule.isUnled < g.rules.countP Rule.isUnled := by
  have hperm : g'.rules.Perm rules := by
    rw [Grammar.rules_of_ofRules hof]
    exact sortOn_perm Rule.lhs rules
  rw [hperm.countP_eq]
  -- Some variable is empty, so this round has turned a rule into `<empty>`.
  obtain ⟨v, hv⟩ := List.exists_mem_of_ne_nil _ (by simpa using hempty)
  simp only [Grammar.emptyVariables, List.mem_map, List.mem_filter] at hv
  obtain ⟨r, ⟨hr, hrempty⟩, rfl⟩ := hv
  exact (countP_isUnled_of_folded hfolded).2 ⟨r, hr, hrempty, contains_iff_mem_ids.mpr
    (List.mem_map_of_mem (List.mem_map_of_mem (List.mem_filter.mpr ⟨hr, hrempty⟩)))⟩

section Rounds

variable {g g' : Grammar} {tags tags' : Tagging} {s s' : Session}

/-- What a round of folding leaves. -/
theorem Coherent.foldRound {rules : List Rule} (h : Coherent g tags s)
    (hfold : foldRules g.emptyVariables tags g.rules s = .ok (rules, tags') s')
    (hrebuild : Grammar.ofRules g.start rules = .ok g') : Rewritten g s g' tags' s' := by
  obtain ⟨hkept, hfolded⟩ := foldRules_eq_ok hfold
  have hids := ruleIds_of_folded hfolded
  refine .of_rules h hrebuild ?_ ?_ ?_ ?_ hkept.rounds_eq
  · rw [hkept.ids_eq]
  · intro i hi
    exact Or.inl (hids ▸ hi)
  · intro i
    rw [hkept.tagged_iff, h.tagged, hids]
  · exact (ValuedAlike.of_folded h.valid hfolded
      fun r => Grammar.mem_rules_of_ofRules hrebuild).valuedBelow

theorem foldRounds_eq_ok {rounds : Nat} (hg : Coherent g tags s)
    (h : foldRounds rounds g tags s = .ok (g', tags') s') :
    Rewritten g s g' tags' s' ∧ (TerminalsLead g.rules → TerminalsLead g'.rules) ∧
      (g.rules.countP Rule.isUnled < rounds → NoneEmpty g'.rules) := by
  -- Each round that folds anything leaves fewer rules that no terminal leads, so enough rounds
  -- leave no empty rule.
  induction rounds generalizing g tags s with
  | zero =>
    rw [foldRounds, pure_eq_ok] at h
    obtain ⟨heq, rfl⟩ := h
    cases heq
    exact ⟨.refl hg, id, fun hlt => absurd hlt (Nat.not_lt_zero _)⟩
  | succ rounds ih =>
    rw [foldRounds] at h
    by_cases hempty : g.emptyVariables.isEmpty = true
    · rw [if_pos hempty, pure_eq_ok] at h
      obtain ⟨heq, rfl⟩ := h
      cases heq
      exact ⟨.refl hg, id, fun _ => noneEmpty_of_isEmpty hempty⟩
    · rw [if_neg hempty] at h
      obtain ⟨⟨rules, tags₁⟩, s₁, hfold, h⟩ := bind_eq_ok.mp h
      obtain ⟨g₁, s₂, hrebuild, h⟩ := bind_eq_ok.mp h
      obtain ⟨hof, rfl⟩ := rebuild_eq_ok.mp hrebuild
      have hround := hg.foldRound hfold hof
      obtain ⟨-, hfolded⟩ := foldRules_eq_ok hfold
      obtain ⟨hrest, hlead, hnone⟩ := ih hround.coherent h
      refine ⟨hround.trans hg hrest, ?_, ?_⟩
      · intro hg₀
        apply hlead
        intro r hr
        exact hg₀.of_folded hfolded r ((Grammar.mem_rules_of_ofRules hof).mp hr)
      · intro hlt
        apply hnone
        have hless := countP_isUnled_lt (by simpa using hempty) hfolded hof
        omega

/-- Folding keeps a state coherent and all values, and leaves no rule empty. -/
theorem Coherent.foldEmpties (hg : Coherent g tags s)
    (h : foldEmpties g tags s = .ok (g', tags') s') :
    Rewritten g s g' tags' s' ∧ (TerminalsLead g.rules → TerminalsLead g'.rules) ∧
      NoneEmpty g'.rules := by
  obtain ⟨hrest, hlead, hnone⟩ := foldRounds_eq_ok hg h
  -- One round more than there are rules is enough, since only unled rules can be empty.
  refine ⟨hrest, hlead, hnone ?_⟩
  exact Nat.lt_succ_of_le List.countP_le_length

end Rounds

end FluentGrammar
