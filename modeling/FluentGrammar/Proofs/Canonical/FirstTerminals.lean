import FluentGrammar.Proofs.Canonical.Form
import FluentGrammar.Proofs.Chain.Words
import Mathlib.Data.List.Pairwise

/-! # First terminals in canonical form

    In canonical form no two chains of a selection read the same terminal first. Two words of
    different alternatives can still begin with the same terminal: discovery does not look
    behind chains that read nothing first, and what such a chain leaves to be read supplies
    the first terminals then. This is the only way in which alternatives clash.
-/

namespace FluentGrammar

/-- No two words of different alternatives of a reachable selection begin with the same
    terminal. -/
def Grammar.LeftFactored (g : Grammar) : Prop :=
  ∀ v alternatives, Rule.selection v alternatives ∈ g.rules →
    (g.reachable []).contains v = true →
      ∀ a ∈ alternatives, ∀ b ∈ alternatives, a.id ≠ b.id →
        ∀ t u w, Derives g a (t :: u) → ¬ Derives g b (t :: w)

/-- No first terminal that a chain of one alternative of a reachable selection hides is a
    first terminal of another alternative. -/
def Grammar.HidesNoClash (g : Grammar) : Prop :=
  ∀ v alternatives, Rule.selection v alternatives ∈ g.rules →
    (g.reachable []).contains v = true →
      ∀ a ∈ alternatives, ∀ b ∈ alternatives, a.id ≠ b.id →
        ∀ t, g.HidesFirst a t → ¬ g.LeadsWith b t ∧ ¬ g.HidesFirst b t

/-- Lists that are concatenated without a repetition have nothing in common. -/
theorem not_mem_of_nodup_flatMap {α β : Type} {xs : List α} {f : α → List β}
    (h : (xs.flatMap f).Nodup) {x y : α} (hx : x ∈ xs) (hy : y ∈ xs) (hne : x ≠ y) {z : β}
    (hz : z ∈ f x) : z ∉ f y := by
  have hsymm : Std.Symm (Function.onFun List.Disjoint f) := ⟨fun _ _ h => h.symm⟩
  have hdisjoint := (List.nodup_flatMap.mp h).2.forall hx hy hne
  exact hdisjoint hz

variable {g : Grammar}

/-- Where nothing is discovered, different alternatives lead with different terminals. -/
theorem not_leadsWith_of_unshared {detect : Bool} {v : Variable} {alternatives : List Variable}
    (hg : g.Valid) (hrule : g.rule? v = some (.selection v alternatives))
    (h : g.Unshared detect v) {a b : Variable} (ha : a ∈ alternatives) (hb : b ∈ alternatives)
    (hne : a.id ≠ b.id) {t : Terminal} (hlead : g.LeadsWith a t) : ¬ g.LeadsWith b t := by
  intro hlead'
  obtain ⟨c, hc, hhead⟩ := hlead
  obtain ⟨d, hd, hhead'⟩ := hlead'
  -- The chains of the selection are those of its alternatives, one after the other.
  have hnodup := h.2
  rw [readsOf_eq hg hrule, Grammar.readsBy, List.filterMap_map, List.filterMap_flatMap]
    at hnodup
  have hterminal : ∀ {u c}, c ∈ g.readsOf u → c.head = .terminal t →
      t ∈ (g.readsOf u).filterMap ((·.head.terminal?) ∘ ReadChain.extend v []) := by
    intro u c hc hhead
    refine List.mem_filterMap.mpr ⟨c, hc, ?_⟩
    show c.head.terminal? = some t
    rw [hhead]
    rfl
  exact not_mem_of_nodup_flatMap hnodup ha hb (fun heq => hne (heq ▸ rfl))
    (hterminal hc hhead) (hterminal hd hhead')

/-- A grammar in which nothing is discovered is left-factored exactly when its chains hide no
    clash. -/
theorem leftFactored_iff_of_discover {detect : Bool} (hg : g.Valid)
    (h : g.discover detect = .ok none) : g.LeftFactored ↔ g.HidesNoClash := by
  have hwell := hg.well_formed
  have hdefined : ∀ {v alternatives}, Rule.selection v alternatives ∈ g.rules →
      ∀ a ∈ alternatives, a.id ∈ ruleIds g.rules :=
    fun hv a ha => defines_iff_mem_ruleIds.mp (hwell.closed _ hv a ha)
  -- A first terminal either leads a chain or is hidden behind something that may be empty; a
  -- clash of two leading ones is what discovery finds.
  constructor
  · intro hfactored v alternatives hv hreach a ha b hb hne t hhides
    obtain ⟨u, hu⟩ := (derives_first_iff hg (hdefined hv a ha)).mpr (Or.inr hhides)
    constructor
    · intro hlead
      obtain ⟨w, hw⟩ := (derives_first_iff hg (hdefined hv b hb)).mpr (Or.inl hlead)
      exact hfactored v alternatives hv hreach a ha b hb hne t u w hu hw
    · intro hhides'
      obtain ⟨w, hw⟩ := (derives_first_iff hg (hdefined hv b hb)).mpr (Or.inr hhides')
      exact hfactored v alternatives hv hreach a ha b hb hne t u w hu hw
  · intro hclash v alternatives hv hreach a ha b hb hne t u w hu hw
    have hfirst := (derives_first_iff hg (hdefined hv a ha)).mp ⟨u, hu⟩
    have hfirst' := (derives_first_iff hg (hdefined hv b hb)).mp ⟨w, hw⟩
    rcases hfirst with hlead | hhides
    · rcases hfirst' with hlead' | hhides'
      · -- Only here does it matter that nothing is discovered.
        rw [Grammar.mem_reachable_iff hwell.nodup_ruleIds] at hreach
        have hunshared := (discover_eq_none hg).mp h v alternatives hv hreach
        have hrule := Grammar.rule?_of_mem hwell.nodup_ruleIds hv (v := v) rfl
        exact not_leadsWith_of_unshared hg hrule hunshared ha hb hne hlead hlead'
      · exact (hclash v alternatives hv hreach b hb a ha (Ne.symm hne) t hhides').1 hlead
    · obtain ⟨hnot, hnot'⟩ := hclash v alternatives hv hreach a ha b hb hne t hhides
      rcases hfirst' with hlead' | hhides'
      · exact hnot hlead'
      · exact hnot' hhides'

/-- A canonical form is left-factored exactly when its chains hide no clash. -/
theorem canonical_leftFactored_iff {c : Canonical} (hg : g.Valid) (h : g.canonical = .ok c) :
    c.grammar.LeftFactored ↔ c.grammar.HidesNoClash := by
  obtain ⟨s', -, hcanonical⟩ := Canonicalized.of_canonicalize hg h
  exact leftFactored_iff_of_discover hcanonical.coherent.valid hcanonical.discover_eq

/-! ## A clash -/

/-- The first alternative begins with a selection of which one alternative is empty. Behind
    that it reads what the second alternative reads. -/
def hiddenFirst : Grammar :=
  ⟨⟨0, "A"⟩,
    [.selection ⟨0, "A"⟩ [⟨1, "B"⟩, ⟨2, "C"⟩],
     .derivation ⟨1, "B"⟩ [.var ⟨3, "S"⟩, .var ⟨4, "X"⟩],
     .derivation ⟨2, "C"⟩ [.term ⟨"x", []⟩],
     .derivation ⟨5, "E"⟩ [.term .empty],
     .selection ⟨3, "S"⟩ [⟨5, "E"⟩, ⟨6, "Y"⟩],
     .derivation ⟨4, "X"⟩ [.term ⟨"x", []⟩],
     .derivation ⟨6, "Y"⟩ [.term ⟨"y", []⟩]]⟩

theorem hiddenFirst_valid : hiddenFirst.Valid :=
  Grammar.valid_of_pairwise (by decide +kernel) (by decide +kernel)

theorem canonical_hiddenFirst :
    hiddenFirst.canonical = .ok ⟨hiddenFirst, .full hiddenFirst, ⟨0, 0, 0, 0, 0⟩⟩ := by
  decide +kernel

/-- Whether its canonical form is left-factored hangs on the chains that read nothing. -/
theorem hiddenFirst_leftFactored_iff :
    hiddenFirst.Valid ∧
      hiddenFirst.canonical = .ok ⟨hiddenFirst, .full hiddenFirst, ⟨0, 0, 0, 0, 0⟩⟩ ∧
      (hiddenFirst.LeftFactored ↔ hiddenFirst.HidesNoClash) :=
  ⟨hiddenFirst_valid, canonical_hiddenFirst,
    canonical_leftFactored_iff hiddenFirst_valid canonical_hiddenFirst⟩

theorem derives_hiddenFirst_left : Derives hiddenFirst ⟨1, "B"⟩ [⟨"x", []⟩] := by
  have hE : Derives hiddenFirst ⟨5, "E"⟩ [] := .derivation rfl (.term .nil)
  have hX : Derives hiddenFirst ⟨4, "X"⟩ [⟨"x", []⟩] := .derivation rfl (.term .nil)
  exact .derivation rfl (.var (.selection rfl (List.mem_cons_self ..) hE) (.var hX .nil))

theorem derives_hiddenFirst_right : Derives hiddenFirst ⟨2, "C"⟩ [⟨"x", []⟩] :=
  .derivation rfl (.term .nil)

/-- The canonical form of this grammar is not left-factored. -/
theorem hiddenFirst_not_leftFactored :
    hiddenFirst.Valid ∧ ∃ c, hiddenFirst.canonical = .ok c ∧ ¬ c.grammar.LeftFactored := by
  refine ⟨hiddenFirst_valid, _, canonical_hiddenFirst, ?_⟩
  intro h
  exact h ⟨0, "A"⟩ _ (List.mem_cons_self ..) (by decide +kernel) ⟨1, "B"⟩
    (List.mem_cons_self ..) ⟨2, "C"⟩ (by simp) (by decide) ⟨"x", []⟩ [] []
    derives_hiddenFirst_left derives_hiddenFirst_right

end FluentGrammar
