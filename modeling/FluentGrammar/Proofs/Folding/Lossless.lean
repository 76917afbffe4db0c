import Mathlib
import FluentGrammar.Proofs.Folding.Rounds
import FluentGrammar.Proofs.Value.Languages
import FluentGrammar.Proofs.Value.Trees

/-! # Folding loses nothing

    Over all rounds together, every derivation drops a list of variables from its front, and its
    tag takes exactly these on. Selections, variables and everything else in the tags stay. The
    dropped variables derive nothing but the empty word, in one way, so every variable keeps its
    words and the numbers of their derivation trees.
-/

namespace FluentGrammar

variable {g g₁ g' : Grammar} {tags tags₁ tags' : Tagging} {s s₁ s' : Session}

/-! ## What is dropped -/

/-- What is left of a rule that has dropped variables from its front. -/
inductive DropsLeading : List Variable → Rule → Rule → Prop where
  /-- A selection drops nothing. -/
  | selection (lhs : Variable) (alternatives : List Variable) :
      DropsLeading [] (.selection lhs alternatives) (.selection lhs alternatives)
  /-- A derivation drops what it starts with. -/
  | leads (lhs : Variable) (dropped : List Variable) (rhs : List Symbol) :
      DropsLeading dropped (.derivation lhs (dropped.map .var ++ rhs)) (.derivation lhs rhs)
  /-- A derivation drops all that it has, and has become `<empty>`. -/
  | consumed (lhs : Variable) (dropped : List Variable) :
      DropsLeading dropped (.derivation lhs (dropped.map .var)) (.derivation lhs [.term .empty])

theorem FoldedExactly.dropsLeading {empties dropped : List Variable} {r r' : Rule}
    (h : FoldedExactly empties r dropped r') : DropsLeading dropped r r' := by
  cases h with
  | selection lhs alternatives => exact .selection lhs alternatives
  | empty lhs => exact .consumed lhs []
  | leading lhs dropped rhs => exact .leads lhs dropped rhs

theorem DropsLeading.refl (r : Rule) : DropsLeading [] r r := by
  cases r with
  | selection lhs alternatives => exact .selection lhs alternatives
  | derivation lhs rhs => exact .leads lhs [] rhs

theorem DropsLeading.lhs_eq {dropped : List Variable} {r r' : Rule}
    (h : DropsLeading dropped r r') : r'.lhs = r.lhs := by
  cases h <;> rfl

/-- What has become `<empty>` stays as it is. -/
theorem DropsLeading.eq_of_consumed {lhs : Variable} {dropped : List Variable} {r' : Rule}
    (h : DropsLeading dropped (.derivation lhs [.term .empty]) r') :
    dropped = [] ∧ r' = .derivation lhs [.term .empty] := by
  generalize hr : Rule.derivation lhs [.term .empty] = r at h
  cases h with
  | selection => cases hr
  | leads _ dropped =>
    cases dropped with
    | nil =>
      cases hr
      exact ⟨rfl, rfl⟩
    | cons w dropped => cases hr
  | consumed _ dropped =>
    cases dropped with
    | nil => cases hr
    | cons w dropped => cases hr

theorem DropsLeading.trans {first next : List Variable} {r r₁ r' : Rule}
    (h : DropsLeading first r r₁) (h' : DropsLeading next r₁ r') :
    DropsLeading (first ++ next) r r' := by
  cases h with
  | selection lhs alternatives => exact h'
  | consumed lhs =>
    obtain ⟨rfl, rfl⟩ := h'.eq_of_consumed
    rw [List.append_nil]
    exact .consumed lhs first
  | leads lhs =>
    cases h' with
    | leads _ _ rhs =>
      rw [← List.append_assoc, ← List.map_append]
      exact .leads lhs (first ++ next) rhs
    | consumed =>
      rw [← List.map_append]
      exact .consumed lhs (first ++ next)

/-- What folding does to a grammar, its tags and the session: every rule drops variables, and
    its tag takes them on. -/
structure FoldedInto (g : Grammar) (tags : Tagging) (s : Session) (drops : Drops)
    (g' : Grammar) (tags' : Tagging) (s' : Session) : Prop where
  /-- The start variable stays. -/
  start_eq : g'.start = g.start
  /-- Rules have dropped their variables. -/
  rules : List.Forall₂ (fun r r' => DropsLeading (drops r.lhs.id) r r') g.rules g'.rules
  /-- Variables without a rule have not. -/
  none_else : ∀ i ∉ ruleIds g.rules, drops i = []
  /-- The tags of variables have taken on what their rules have dropped. -/
  tags : tags.TakesOn drops tags'
  /-- All that has been dropped is counted. -/
  session_eq : s' = s.countFolded (drops.total g.rules)

namespace FoldedInto

variable {drops first next : Drops}

theorem refl (g : Grammar) (tags : Tagging) (s : Session) :
    FoldedInto g tags s (fun _ => []) g tags s where
  start_eq := rfl
  rules := List.forall₂_same.mpr fun r _ => .refl r
  none_else := fun _ _ => rfl
  tags := .refl tags
  session_eq := by
    unfold Drops.total
    simp [Session.countFolded, Session.count]

/-- The variables stay, and so does their order. -/
theorem vars_eq (h : FoldedInto g tags s drops g' tags' s') : g'.vars = g.vars := by
  have hlhs := List.forall₂_map_left_iff.mpr (List.forall₂_map_right_iff.mpr
    (h.rules.imp fun r r' hr => hr.lhs_eq.symm))
  exact (List.forall₂_eq_eq_eq ▸ hlhs : g.rules.map Rule.lhs = g'.rules.map Rule.lhs).symm

theorem ruleIds_eq (h : FoldedInto g tags s drops g' tags' s') :
    ruleIds g'.rules = ruleIds g.rules := by
  have hids := congrArg (List.map Variable.id) h.vars_eq
  unfold Grammar.vars at hids
  rwa [List.map_map, List.map_map] at hids

theorem trans (h : FoldedInto g tags s first g₁ tags₁ s₁)
    (h' : FoldedInto g₁ tags₁ s₁ next g' tags' s') :
    FoldedInto g tags s (first.andThen next) g' tags' s' where
  start_eq := h'.start_eq.trans h.start_eq
  rules := by
    refine forall₂_trans h.rules h'.rules fun r r₁ r' hr hr' => ?_
    rw [hr.lhs_eq] at hr'
    exact hr.trans hr'
  none_else := by
    intro i hi
    unfold Drops.andThen
    rw [h.none_else i hi, h'.none_else i (h.ruleIds_eq ▸ hi)]
    rfl
  tags := h.tags.trans h'.tags
  session_eq := by
    rw [h'.session_eq, h.session_eq, Session.countFolded_countFolded, Drops.total_andThen]
    unfold Drops.total
    rw [h.ruleIds_eq]

end FoldedInto

theorem FoldedRound.foldedInto {drops : Drops} (h : FoldedRound g tags s drops g' tags' s') :
    FoldedInto g tags s drops g' tags' s' where
  start_eq := h.start_eq
  rules := h.rules.imp fun _ _ hr => hr.dropsLeading
  none_else := h.none_else
  tags := h.tags
  session_eq := h.session_eq

/-! ## What is kept -/

theorem FoldedRound.valuedAlike {drops : Drops} (h : FoldedRound g tags s drops g' tags' s')
    (hg : g.Valid) : ValuedAlike g g' :=
  .of_folded hg (h.rules.imp fun _ _ hr => hr.folded) fun _ => Iff.rfl

/-- Values that are kept twice are kept, if the variables stay. -/
theorem ValuedAlike.trans (h : ValuedAlike g g₁) (h' : ValuedAlike g₁ g') (hg₁ : g₁.Valid)
    (hids : ruleIds g₁.rules = ruleIds g.rules) : ValuedAlike g g' := by
  intro K _ _ term hterm a a' ha ha' i hi hi'
  obtain ⟨a₁, ha₁⟩ := hg₁.well_formed.exists_valuation term
  have hi₁ : i ∈ ruleIds g₁.rules := hids ▸ hi
  rw [h' K term hterm a₁ a' ha₁ ha' i hi₁ hi', h K term hterm a a₁ ha ha₁ i hi hi₁]

/-- A state that folding has led to from a valid grammar. -/
structure ReachedByFolding (g : Grammar) (tags : Tagging) (s : Session) (g' : Grammar)
    (tags' : Tagging) (s' : Session) : Prop where
  valid : g'.Valid
  valued : ValuedAlike g g'
  folded : ∃ drops, FoldedInto g tags s drops g' tags' s'

theorem ReachedByFolding.round (h : ReachedByFolding g tags s g₁ tags₁ s₁)
    (hround : foldRound g₁ tags₁ s₁ = .ok (g', tags') s') :
    ReachedByFolding g tags s g' tags' s' := by
  obtain ⟨hg₁, hvalued, drops, hfolded⟩ := h
  obtain ⟨drops', hexact⟩ := foldRound_exactly hg₁ hround
  exact ⟨hexact.valid, hvalued.trans (hexact.valuedAlike hg₁) hg₁ hfolded.ruleIds_eq,
    _, hfolded.trans hexact.foldedInto⟩

/-- Folding is a loop that ends after at most one round more than there are derivations. If it
    succeeds, no rule is empty any more, every rule has dropped variables from its front, and
    every variable has the words and the derivation trees that it had. -/
theorem foldEmpties_lossless (hg : g.Valid) (tags : Tagging) (s : Session) :
    (∃ n ≤ (Metrics.of g).derivations + 1, FoldLoop n g tags s (foldEmpties g tags s)) ∧
      ∀ g' tags' s', foldEmpties g tags s = .ok (g', tags') s' →
        NoneEmpty g'.rules ∧ g'.vars = g.vars ∧
        (∃ drops, FoldedInto g tags s drops g' tags' s') ∧
        ∀ v, Defines g.rules v → ∀ w, (Derives g' v w ↔ Derives g v w) ∧
          Finite (TreesOf g v w) ∧ Finite (TreesOf g' v w) ∧
          treeCount g' v w = treeCount g v w := by
  obtain ⟨n, hn, hloop⟩ := foldEmpties_loops g tags s
  refine ⟨⟨n, hn, hloop⟩, fun g' tags' s' h => ?_⟩
  rw [h] at hloop
  have hstart : ReachedByFolding g tags s g tags s := ⟨hg, .refl hg, _, .refl g tags s⟩
  obtain ⟨⟨hg', hvalued, drops, hfolded⟩, hempty⟩ :=
    hloop.keeps (I := ReachedByFolding g tags s) (fun hI => hI.round) hstart
  refine ⟨noneEmpty_of_isEmpty hempty, hfolded.vars_eq, ⟨drops, hfolded⟩, fun v hv w => ?_⟩
  have hi := defines_iff_mem_ruleIds.mp hv
  have hi' : v.id ∈ ruleIds g'.rules := hfolded.ruleIds_eq ▸ hi
  exact ⟨hvalued.valuedBelow.derives_iff hg hg' hv (defines_iff_mem_ruleIds.mpr hi'),
    finite_treesOf hg hi w, finite_treesOf hg' hi' w, hvalued.treesAlike hg hg' v hi hi' w⟩

/-- A rule that becomes empty because another one is. -/
def emptyCascade : Grammar :=
  ⟨⟨0, "A"⟩,
    [.derivation ⟨0, "A"⟩ [.var ⟨1, "B"⟩, .term ⟨"x", []⟩],
     .derivation ⟨1, "B"⟩ [.var ⟨2, "C"⟩],
     .derivation ⟨2, "C"⟩ []]⟩

/-- Both of them are folded, each into the rule that starts with it. -/
def emptyCascadeFolded : Tagged :=
  (⟨⟨0, "A"⟩,
    [.derivation ⟨0, "A"⟩ [.term ⟨"x", []⟩],
     .derivation ⟨1, "B"⟩ [.term .empty],
     .derivation ⟨2, "C"⟩ [.term .empty]]⟩,
   ⟨[(⟨0, "A"⟩, .partialDerivation "A" [] [⟨1, "B"⟩]),
     (⟨1, "B"⟩, .partialDerivation "B" [] [⟨2, "C"⟩]),
     (⟨2, "C"⟩, .full "C")]⟩)

theorem emptyCascade_valid : emptyCascade.Valid :=
  Grammar.valid_of_pairwise (by decide +kernel) (by decide +kernel)

/-- The cascade is folded in two rounds, and no derivation tree is lost. -/
theorem emptyCascade_folded :
    emptyCascade.Valid ∧
      foldEmpties emptyCascade (.full emptyCascade) (.ofGrammar emptyCascade) =
        .ok emptyCascadeFolded ((Session.ofGrammar emptyCascade).countFolded 2) ∧
      NoneEmpty emptyCascadeFolded.1.rules ∧
      ∀ w, treeCount emptyCascadeFolded.1 emptyCascade.start w =
        treeCount emptyCascade emptyCascade.start w := by
  have hrun : foldEmpties emptyCascade (.full emptyCascade) (.ofGrammar emptyCascade) =
      .ok emptyCascadeFolded ((Session.ofGrammar emptyCascade).countFolded 2) := by cbv
  obtain ⟨-, hlossless⟩ := foldEmpties_lossless emptyCascade_valid (.full emptyCascade)
    (.ofGrammar emptyCascade)
  obtain ⟨hnone, -, -, hkept⟩ := hlossless _ _ _ hrun
  have hstart := emptyCascade_valid.well_formed.start_defined
  exact ⟨emptyCascade_valid, hrun, hnone, fun w => (hkept _ hstart w).2.2.2⟩

end FluentGrammar
