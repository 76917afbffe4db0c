import FluentGrammar.Chain.Enumeration
import FluentGrammar.Proofs.Grammar.Validation
import FluentGrammar.Proofs.Rewriting.Steps
import FluentGrammar.Proofs.Value.Valuation

/-! # What rewriting keeps

    Between two passes a grammar is valid, its ids lie below everything that the session will
    hand out, and the tagged variables are the variables of the grammar. A pass leads from
    one such state to another: it keeps the start variable, every variable that it adds is
    new, and no valuation grows.
-/

namespace FluentGrammar

/-! ## Tagged variables -/

namespace Tagging

/-- The ids of the tagged variables. -/
def ids (t : Tagging) : List Nat :=
  t.entries.map (·.1.id)

theorem tag?_isSome {t : Tagging} {v : Variable} : (t.tag? v).isSome = true ↔ v.id ∈ t.ids := by
  unfold tag? ids
  rw [Option.isSome_map, List.find?_isSome]
  simp

theorem mem_ids_of_require {t : Tagging} {v : Variable} {tag : Tag}
    (h : t.require v = .ok tag) : v.id ∈ t.ids := by
  rw [← tag?_isSome]
  unfold require at h
  split at h
  · rename_i hsome
    rw [hsome]
    rfl
  · cases h

theorem mem_ids_insert {t : Tagging} {v : Variable} {tag : Tag} {i : Nat} :
    i ∈ (t.insert v tag).ids ↔ i = v.id ∨ i ∈ t.ids := by
  unfold insert ids
  show i ∈ (setEntry v tag t.entries).map (·.1.id) ↔ _
  induction t.entries with
  | nil => simp [setEntry]
  | cons entry rest ih =>
    obtain ⟨w, old⟩ := entry
    unfold setEntry
    by_cases hw : (w == v) = true
    · have hid : w.id = v.id := Variable.beq_iff.mp hw
      rw [if_pos hw]
      simp only [List.map_cons, List.mem_cons, hid]
      exact or_self_left.symm
    · rw [if_neg hw]
      simp only [List.map_cons, List.mem_cons, ih]
      exact or_left_comm

theorem mem_ids_extend {t : Tagging} {entries : List (Variable × Tag)} {i : Nat} :
    i ∈ (t.extend entries).ids ↔ i ∈ entries.map (·.1.id) ∨ i ∈ t.ids := by
  unfold extend
  induction entries generalizing t with
  | nil => simp
  | cons entry rest ih =>
    rw [List.foldl_cons, ih, mem_ids_insert, List.map_cons, List.mem_cons]
    constructor
    · intro h
      rcases h with h | h | h
      · exact Or.inl (Or.inr h)
      · exact Or.inl (Or.inl h)
      · exact Or.inr h
    · intro h
      rcases h with (h | h) | h
      · exact Or.inr (Or.inl h)
      · exact Or.inl h
      · exact Or.inr (Or.inr h)

/-- The tags of the variables of a grammar are kept by restricting them to it. -/
theorem mem_ids_retain {t : Tagging} {g : Grammar} {i : Nat} :
    i ∈ (t.retain g.contains).ids ↔ i ∈ t.ids ∧ i ∈ ruleIds g.rules := by
  unfold retain ids
  simp only [List.mem_map, List.mem_filter, Grammar.contains_iff_mem_ruleIds]
  constructor
  · intro hex
    obtain ⟨entry, ⟨hentry, hkeep⟩, hid⟩ := hex
    exact ⟨⟨entry, hentry, hid⟩, hid ▸ hkeep⟩
  · intro hex
    obtain ⟨⟨entry, hentry, hid⟩, hi⟩ := hex
    exact ⟨entry, ⟨hentry, hid ▸ hi⟩, hid⟩

end Tagging

/-! ## Taking variables -/

namespace Session

variable {s : Session} {seed : String}

@[simp] theorem take_id : (s.take seed).1.id = s.ids.issued := rfl

@[simp] theorem take_issued : (s.take seed).2.ids.issued = s.ids.issued + 1 := rfl

@[simp] theorem take_tally : (s.take seed).2.tally = s.tally := rfl

end Session

/-! ## Shapes of rules -/

theorem ruleIds_append (rules rules' : List Rule) :
    ruleIds (rules ++ rules') = ruleIds rules ++ ruleIds rules' :=
  List.map_append

/-- Behind the leading symbol of a derivation there are no terminals. -/
def TerminalsLead (rules : List Rule) : Prop :=
  ∀ r ∈ rules, ∀ symbol ∈ r.behindLeading, symbol.isTerminal = false

/-- No rule is an empty derivation. -/
def NoneEmpty (rules : List Rule) : Prop :=
  ∀ r ∈ rules, r.isEmptyDerivation = false

theorem TerminalsLead.of_subset {rules rules' : List Rule} (h : TerminalsLead rules)
    (hsub : rules' ⊆ rules) : TerminalsLead rules' :=
  fun r hr => h r (hsub hr)

theorem NoneEmpty.of_subset {rules rules' : List Rule} (h : NoneEmpty rules)
    (hsub : rules' ⊆ rules) : NoneEmpty rules' :=
  fun r hr => h r (hsub hr)

theorem rules_subset_of_ofRules {start : Variable} {rules : List Rule} {g : Grammar}
    (hof : Grammar.ofRules start rules = .ok g) : g.rules ⊆ rules :=
  fun _ hr => (Grammar.mem_rules_of_ofRules hof).mp hr

/-! ## States and passes -/

/-- How a grammar, its tags and a session fit together between two passes. -/
structure Coherent (g : Grammar) (tags : Tagging) (s : Session) : Prop where
  valid : g.Valid
  fresh : ∀ i ∈ ruleIds g.rules, i < s.ids.issued
  tagged : ∀ i, i ∈ tags.ids ↔ i ∈ ruleIds g.rules

/-- Counting leaves the supply of ids alone. -/
theorem Coherent.count {g : Grammar} {tags : Tagging} {s : Session} (h : Coherent g tags s)
    (f : Tally → Tally) : Coherent g tags (s.count f) :=
  ⟨h.valid, h.fresh, h.tagged⟩

/-- How a rewritten grammar and the session behind it relate to the grammar and the session
    in front of it. -/
structure Rewrites (g : Grammar) (s : Session) (g' : Grammar) (s' : Session) : Prop where
  start_eq : g'.start = g.start
  issued_le : s.ids.issued ≤ s'.ids.issued
  added : ∀ i ∈ ruleIds g'.rules, i ∈ ruleIds g.rules ∨ s.ids.issued ≤ i
  valued : ValuedBelow g g'

/-- A valuation is determined by a valid grammar. -/
theorem ValuedAlike.refl {g : Grammar} (hg : g.Valid) : ValuedAlike g g := by
  intro K _ _ term _ a a' ha ha' i hi _
  exact ha'.eq_of_subset hg.well_formed (List.Subset.refl _) ha i hi

theorem ValuedBelow.refl {g : Grammar} (hg : g.Valid) : ValuedBelow g g :=
  (ValuedAlike.refl hg).valuedBelow

theorem Rewrites.refl {g : Grammar} (hg : g.Valid) (s : Session) : Rewrites g s g s where
  start_eq := rfl
  issued_le := Nat.le_refl _
  added := fun _ hi => Or.inl hi
  valued := .refl hg

/-- A variable of the first grammar that is still there at the end was there all along. -/
theorem Rewrites.mem_between {g g₁ g₂ : Grammar} {s s₁ s₂ : Session}
    (h₁ : Rewrites g s g₁ s₁) (h₂ : Rewrites g₁ s₁ g₂ s₂)
    (hfresh : ∀ i ∈ ruleIds g.rules, i < s.ids.issued) {i : Nat} (hi : i ∈ ruleIds g.rules)
    (hi₂ : i ∈ ruleIds g₂.rules) : i ∈ ruleIds g₁.rules := by
  rcases h₂.added i hi₂ with h | h
  · exact h
  · have hlt := hfresh i hi
    have hle := h₁.issued_le
    omega

theorem Rewrites.trans {g g₁ g₂ : Grammar} {tags : Tagging} {s s₁ s₂ : Session}
    (hg : Coherent g tags s) (hg₁ : g₁.Valid) (h₁ : Rewrites g s g₁ s₁)
    (h₂ : Rewrites g₁ s₁ g₂ s₂) : Rewrites g s g₂ s₂ where
  start_eq := h₂.start_eq.trans h₁.start_eq
  issued_le := h₁.issued_le.trans h₂.issued_le
  added := by
    intro i hi
    have hle := h₁.issued_le
    rcases h₂.added i hi with h | h
    · exact h₁.added i h
    · exact Or.inr (by omega)
  valued := by
    intro K _ _ term le hterm hle a a₂ ha ha₂ i hi hi₂
    -- The values in between are those of the grammar in between.
    obtain ⟨a₁, ha₁⟩ := hg₁.well_formed.exists_valuation term
    have hi₁ := h₁.mem_between h₂ hg.fresh hi hi₂
    exact hle.trans (h₂.valued K term le hterm hle a₁ a₂ ha₁ ha₂ i hi₁ hi₂)
      (h₁.valued K term le hterm hle a a₁ ha ha₁ i hi hi₁)

/-- What a pass establishes when it succeeds: a coherent state that is reached from the one
    before by rewriting, without a round of factoring being counted. -/
structure Rewritten (g : Grammar) (s : Session) (g' : Grammar) (tags' : Tagging)
    (s' : Session) : Prop where
  coherent : Coherent g' tags' s'
  rewrites : Rewrites g s g' s'
  rounds_eq : s'.tally.iterations = s.tally.iterations

/-- A pass that finds nothing to do. -/
theorem Rewritten.refl {g : Grammar} {tags : Tagging} {s : Session} (hg : Coherent g tags s) :
    Rewritten g s g tags s where
  coherent := hg
  rewrites := .refl hg.valid s
  rounds_eq := rfl

/-- A pass that makes a grammar of new rules. Their variables are old ones, or were taken
    from the session in the meantime. -/
theorem Rewritten.of_rules {g g' : Grammar} {tags tags' : Tagging} {s s' : Session}
    {rules : List Rule} (hg : Coherent g tags s)
    (hof : Grammar.ofRules g.start rules = .ok g')
    (hissued : s.ids.issued ≤ s'.ids.issued)
    (hids : ∀ i ∈ ruleIds rules,
      i ∈ ruleIds g.rules ∨ s.ids.issued ≤ i ∧ i < s'.ids.issued)
    (htagged : ∀ i, i ∈ tags'.ids ↔ i ∈ ruleIds rules) (hvalued : ValuedBelow g g')
    (hrounds : s'.tally.iterations = s.tally.iterations) : Rewritten g s g' tags' s' := by
  -- Sorting the rules does not change which variables have one.
  have hsame : ∀ i, i ∈ ruleIds g'.rules ↔ i ∈ ruleIds rules := by
    intro i
    simp only [mem_ruleIds, Grammar.mem_rules_of_ofRules hof]
  constructor
  · refine ⟨Grammar.valid_of_ofRules hof, ?_, fun i => (htagged i).trans (hsame i).symm⟩
    intro i hi
    rcases hids i ((hsame i).mp hi) with hold | hnew
    · have := hg.fresh i hold
      omega
    · exact hnew.2
  · refine ⟨?_, hissued, ?_, hvalued⟩
    · rw [Grammar.rules_of_ofRules hof]
    · intro i hi
      rcases hids i ((hsame i).mp hi) with hold | hnew
      · exact Or.inl hold
      · exact Or.inr hnew.1
  · exact hrounds

theorem Rewritten.trans {g g₁ g₂ : Grammar} {tags tags₁ tags₂ : Tagging}
    {s s₁ s₂ : Session} (hg : Coherent g tags s) (h₁ : Rewritten g s g₁ tags₁ s₁)
    (h₂ : Rewritten g₁ s₁ g₂ tags₂ s₂) : Rewritten g s g₂ tags₂ s₂ where
  coherent := h₂.coherent
  rewrites := Rewrites.trans hg h₁.coherent.valid h₁.rewrites h₂.rewrites
  rounds_eq := h₂.rounds_eq.trans h₁.rounds_eq

end FluentGrammar
