import FluentGrammar.Proofs.Rewriting.Invariants
import FluentGrammar.Proofs.Value.Ambiguity

/-! # Only ambiguous grammars are refused

    A shape is refused when two chains of a reachable selection have the same ending. Then
    some word of the grammar at hand has two derivation trees. No pass before that has given
    any word more trees, so the word had two trees in the grammar that was given.
-/

namespace FluentGrammar

variable {config : Config} {g g' : Grammar} {tags tags' : Tagging} {s s' : Session}

/-! ## What discovery refuses -/

/-- Where discovery refuses a shape, some word has two derivation trees. -/
theorem exists_two_le_treeCount_of_discover {detect : Bool} {e : PassError} (hg : g.Valid)
    (h : g.discover detect = .error e) : ∃ w, 2 ≤ treeCount g g.start w := by
  obtain ⟨v, shape, hid, hreach, hambiguity, -⟩ := exists_of_discover_error hg h
  have hsep : ¬ g.Separated v.id := by
    rw [separated_iff hg hid, hambiguity]
    exact Option.some_ne_none shape
  exact exists_two_le_treeCount hg hid hreach hsep

/-! ## What a run refuses -/

/-- Wherever rewriting has led to, a word with two trees had them from the beginning. -/
theorem Follows.two_le_treeCount {g₀ : Grammar} {s₀ : Session} (h : Follows g₀ s₀ g tags s)
    (hg₀ : g₀.Valid) {w : Word} (hw : 2 ≤ treeCount g g.start w) :
    2 ≤ treeCount g₀ g₀.start w := by
  have hstart₀ := defines_iff_mem_ruleIds.mp hg₀.well_formed.start_defined
  have hstart := defines_iff_mem_ruleIds.mp h.coherent.valid.well_formed.start_defined
  rw [h.rewrites.start_eq] at hw hstart
  exact hw.trans (h.rewrites.valued.treeCount_le hg₀ h.coherent.valid hstart₀ hstart w)

/-- A run of all passes refuses a shape only if some word has two derivation trees. -/
theorem two_le_treeCount_of_canonicalPass {shape : AmbiguousShape}
    (hg : Coherent g tags s)
    (h : canonicalPass config g tags s = .error (.unsupported shape) s') :
    ∃ w, 2 ≤ treeCount g g.start w := by
  rcases canonicalPass_error h with hprepare | ⟨g₁, tags₁, s₁, hprepare, hrounds⟩
  · have hconfined := confined_prepare config g tags (Session.along_spends _)
    exact absurd rfl ((hconfined.of_error hprepare).2.not_unsupported shape)
  · have hprepared := (Follows.refl hg).trans hg (hg.prepare hprepare).1
    cases (roundInvariant_follows hg).of_factorAll_error hprepared hrounds with
    | limit n he => cases he
    | discovery hI hdiscover =>
      obtain ⟨w, hw⟩ := exists_two_le_treeCount_of_discover hI.coherent.valid hdiscover
      exact ⟨w, hI.two_le_treeCount hg.valid hw⟩
    | @round g₂ tags₂ s₂ s₃ target hI hfound hround =>
      have hconfined := confined_factorRound g₂ tags₂ target (Session.along_spends _)
      exact absurd rfl ((hconfined.of_error hround).2.not_unsupported shape)

theorem exists_ne_of_two_le_treeCount {v : Variable} {w : Word} (h : 2 ≤ treeCount g v w) :
    ∃ T T' : TreesOf g v w, T ≠ T' := by
  have hfinite : Finite (TreesOf g v w) := Nat.finite_of_card_ne_zero (by
    rw [treeCount] at h
    omega)
  have hnontrivial := Finite.one_lt_card_iff_nontrivial.mp h
  exact hnontrivial.exists_pair_ne

/-- If a grammar is refused because of a shape, some word has two derivation trees. So an
    unambiguous grammar is never refused. -/
theorem canonicalize_unsupported (hg : g.Valid) :
    (∀ shape, canonicalize config g tags = .error (.unsupported shape) →
      ∃ w, ∃ T T' : TreesOf g g.start w, T ≠ T') ∧
      (g.Unambiguous → ∀ shape, canonicalize config g tags ≠ .error (.unsupported shape)) := by
  have hambiguous : ∀ shape, canonicalize config g tags = .error (.unsupported shape) →
      ∃ w, ∃ T T' : TreesOf g g.start w, T ≠ T' := by
    intro shape h
    rcases canonicalize_error h with hrequire | ⟨⟨entries, hentries⟩, s', hrun⟩
    · obtain ⟨v, -, hmissing⟩ := except_mapM_eq_error hrequire
      exact absurd rfl ((Tagging.require_error hmissing).not_unsupported shape)
    · have hinitial := Coherent.initial hg hentries
      obtain ⟨w, hw⟩ := two_le_treeCount_of_canonicalPass hinitial hrun
      exact ⟨w, exists_ne_of_two_le_treeCount hw⟩
  refine ⟨hambiguous, ?_⟩
  intro hunique shape h
  obtain ⟨w, T, T', hne⟩ := hambiguous shape h
  exact hne (Subtype.ext (hunique T.val T'.val (T.property.trans T'.property.symm)))

/-! ## A refused grammar -/

/-- Two alternatives that offer the same variable. -/
def sharedChoice : Grammar :=
  ⟨⟨0, "S"⟩,
    [.selection ⟨1, "A"⟩ [⟨3, "C"⟩, ⟨4, "D"⟩],
     .selection ⟨2, "B"⟩ [⟨3, "C"⟩, ⟨5, "E"⟩],
     .derivation ⟨3, "C"⟩ [.term ⟨"x", []⟩],
     .derivation ⟨4, "D"⟩ [.term ⟨"y", []⟩],
     .derivation ⟨5, "E"⟩ [.term ⟨"z", []⟩],
     .selection ⟨0, "S"⟩ [⟨1, "A"⟩, ⟨2, "B"⟩]]⟩

theorem sharedChoice_valid : sharedChoice.Valid :=
  Grammar.valid_of_pairwise (by decide +kernel) (by decide +kernel)

theorem canonical_sharedChoice :
    sharedChoice.canonical = .error (.unsupported (.identicalAlternatives ⟨0, "S"⟩
      [⟨0, "S"⟩, ⟨1, "A"⟩, ⟨3, "C"⟩] [⟨0, "S"⟩, ⟨2, "B"⟩, ⟨3, "C"⟩])) := by
  decide +kernel

/-- The shared variable makes the grammar ambiguous, and it is refused for that. -/
theorem sharedChoice_unsupported :
    sharedChoice.Valid ∧
      sharedChoice.canonical = .error (.unsupported (.identicalAlternatives ⟨0, "S"⟩
        [⟨0, "S"⟩, ⟨1, "A"⟩, ⟨3, "C"⟩] [⟨0, "S"⟩, ⟨2, "B"⟩, ⟨3, "C"⟩])) ∧
      (∃ w, ∃ T T' : TreesOf sharedChoice sharedChoice.start w, T ≠ T') ∧
      ¬ sharedChoice.Unambiguous := by
  obtain ⟨hambiguous, hunique⟩ :=
    @canonicalize_unsupported .default sharedChoice (.full sharedChoice) sharedChoice_valid
  exact ⟨sharedChoice_valid, canonical_sharedChoice, hambiguous _ canonical_sharedChoice,
    fun h => hunique h _ canonical_sharedChoice⟩

end FluentGrammar
