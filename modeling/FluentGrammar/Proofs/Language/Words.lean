import FluentGrammar.Language.Derivation
import FluentGrammar.Language.Words
import FluentGrammar.Proofs.Grammar.Evaluation
import FluentGrammar.Proofs.Sorted
import FluentGrammar.Proofs.Value.Valuation
import Mathlib.Algebra.Order.BigOperators.Group.List
import Mathlib.Data.Set.Card

/-! # The bounded list of words is the language

    Every rule lists the words that it derives out of complete lists for its references, so a
    list that is not given up is complete. Whether it is given up hangs on numbers of words
    alone: a higher limit changes nothing but that, and the number of derivation trees, counted
    rule by rule, bounds every number that is compared with the limit.
-/

namespace FluentGrammar

/-! ## The words of a rule -/

section Rules

variable {g : Grammar} {limit limit' : Nat} {words : Variable → Option (List Word)}

@[simp] theorem mem_concatWords {heads tails : List Word} {w : Word} :
    w ∈ concatWords heads tails ↔ ∃ u ∈ heads, ∃ z ∈ tails, u ++ z = w := by
  simp [concatWords]

theorem length_concatWords_le (heads tails : List Word) :
    (concatWords heads tails).length ≤ heads.length * tails.length := by
  refine (length_sortedSet_le _).trans ?_
  rw [List.length_flatMap]
  simp

theorem ascending_concatWords (heads tails : List Word) : Ascending (concatWords heads tails) :=
  ascending_sortedSet _

/-- A list of words is complete for a variable: it holds the words that the variable derives, in
    ascending order. -/
structure Complete (g : Grammar) (i : Nat) (listed : List Word) : Prop where
  ascending : Ascending listed
  mem_iff : ∀ v : Variable, v.id = i → ∀ w, w ∈ listed ↔ Derives g v w

/-- Complete lists for the variables of a sequence give the words that it derives, behind those
    that were given. -/
theorem mem_sequenceWords {symbols : List Symbol} {front listed : List Word}
    (hwords : ∀ v, Symbol.var v ∈ symbols → ∃ tails, words v = some tails ∧
      Complete g v.id tails)
    (h : sequenceWords limit words symbols front = some listed) {w : Word} :
    w ∈ listed ↔ ∃ u ∈ front, ∃ z, DerivesAll g symbols z ∧ u ++ z = w := by
  -- The front grows as the sequence gets shorter; moving a word from one to the other is
  -- associativity.
  induction symbols generalizing front with
  | nil =>
    cases h
    simp
  | cons s rest ih =>
    have hrest := fun {front} => @ih front fun v hv => hwords v (List.mem_cons_of_mem _ hv)
    cases s with
    | term t =>
      rw [sequenceWords] at h
      rw [hrest h]
      simp only [mem_concatWords, derivesAll_term, List.mem_singleton]
      constructor
      · rintro ⟨_, ⟨u, hu, _, rfl, rfl⟩, z, hz, rfl⟩
        exact ⟨u, hu, t.word ++ z, ⟨z, rfl, hz⟩, (List.append_assoc ..).symm⟩
      · rintro ⟨u, hu, _, ⟨z, rfl, hz⟩, rfl⟩
        exact ⟨u ++ t.word, ⟨u, hu, t.word, rfl, rfl⟩, z, hz, List.append_assoc ..⟩
    | var v =>
      obtain ⟨tails, htails, hcomplete⟩ := hwords v (List.mem_cons_self ..)
      rw [sequenceWords, htails, Option.bind_eq_bind, Option.bind_some] at h
      split at h
      · cases h
      · rw [hrest h]
        simp only [mem_concatWords, derivesAll_var, hcomplete.mem_iff v rfl]
        constructor
        · rintro ⟨_, ⟨u, hu, x, hx, rfl⟩, z, hz, rfl⟩
          exact ⟨u, hu, x ++ z, ⟨x, z, rfl, hx, hz⟩, (List.append_assoc ..).symm⟩
        · rintro ⟨u, hu, _, ⟨x, z, rfl, hx, hz⟩, rfl⟩
          exact ⟨u ++ x, ⟨u, hu, x, hx, rfl⟩, z, hz, List.append_assoc ..⟩

theorem mem_unionWords {vars : List Variable} {front listed : List Word}
    (hwords : ∀ v ∈ vars, ∃ tails, words v = some tails ∧ Complete g v.id tails)
    (h : unionWords limit words vars front = some listed) {w : Word} :
    w ∈ listed ↔ w ∈ front ∨ ∃ v ∈ vars, Derives g v w := by
  induction vars generalizing front with
  | nil =>
    cases h
    simp
  | cons v rest ih =>
    obtain ⟨tails, htails, hcomplete⟩ := hwords v (List.mem_cons_self ..)
    rw [unionWords, htails, Option.bind_eq_bind, Option.bind_some] at h
    simp only at h
    split at h
    · cases h
    · rw [ih (fun u hu => hwords u (List.mem_cons_of_mem _ hu)) h]
      simp only [mem_sortedSet, List.mem_append, hcomplete.mem_iff v rfl, List.mem_cons,
        exists_eq_or_imp, or_assoc]

/-- The words of a sequence are in order, and no more than the limit allows, if it allows those
    in front. -/
theorem sequenceWords_bounded {symbols : List Symbol} {front listed : List Word}
    (hfront : Ascending front) (h : sequenceWords limit words symbols front = some listed) :
    Ascending listed ∧ (front.length ≤ limit → listed.length ≤ limit) := by
  induction symbols generalizing front with
  | nil =>
    cases h
    exact ⟨hfront, id⟩
  | cons s rest ih =>
    cases s with
    | term t =>
      rw [sequenceWords] at h
      obtain ⟨hascending, hlength⟩ := ih (ascending_concatWords _ _) h
      -- A terminal makes no more words out of those in front.
      refine ⟨hascending, fun hle => hlength ?_⟩
      have hconcat := length_concatWords_le front [t.word]
      rw [List.length_singleton] at hconcat
      omega
    | var v =>
      rw [sequenceWords] at h
      obtain ⟨tails, -, h⟩ := Option.bind_eq_some_iff.mp h
      split at h
      · cases h
      · -- The product has been compared with the limit, and the words are no more than that.
        obtain ⟨hascending, hlength⟩ := ih (ascending_concatWords _ _) h
        have hconcat := length_concatWords_le front tails
        exact ⟨hascending, fun _ => hlength (by omega)⟩

theorem unionWords_bounded {vars : List Variable} {front listed : List Word}
    (hfront : Ascending front) (h : unionWords limit words vars front = some listed) :
    Ascending listed ∧ (front.length ≤ limit → listed.length ≤ limit) := by
  induction vars generalizing front with
  | nil =>
    cases h
    exact ⟨hfront, id⟩
  | cons v rest ih =>
    rw [unionWords] at h
    obtain ⟨tails, -, h⟩ := Option.bind_eq_some_iff.mp h
    simp only at h
    split at h
    · cases h
    · obtain ⟨hascending, hlength⟩ := ih (ascending_sortedSet _) h
      exact ⟨hascending, fun _ => hlength (by omega)⟩

/-- A rule lists its words completely, out of complete lists for its references, and no more
    than a limit other than zero allows. -/
theorem ruleWords_complete (hnodup : (ruleIds g.rules).Nodup) {r : Rule} (hr : r ∈ g.rules)
    {listed : List Word}
    (hwords : ∀ v ∈ r.references, ∃ tails, words v = some tails ∧ Complete g v.id tails)
    (h : ruleWords limit words r = some listed) :
    Complete g r.lhs.id listed ∧ (1 ≤ limit → listed.length ≤ limit) := by
  have hrule : ∀ v : Variable, v.id = r.lhs.id → g.rule? v = some r :=
    fun v hv => Grammar.rule?_of_mem hnodup hr hv.symm
  cases r with
  | derivation lhs rhs =>
    obtain ⟨hascending, hlength⟩ := sequenceWords_bounded (List.pairwise_singleton _ []) h
    refine ⟨⟨hascending, fun v hv w => ?_⟩, hlength⟩
    rw [mem_sequenceWords (fun v hv => hwords v (Rule.mem_references_derivation.mpr hv)) h,
      derives_iff_of_derivation (hrule v hv)]
    simp
  | selection lhs alternatives =>
    obtain ⟨hascending, hlength⟩ := unionWords_bounded .nil h
    refine ⟨⟨hascending, fun v hv w => ?_⟩, fun _ => hlength (Nat.zero_le _)⟩
    rw [mem_unionWords hwords h, derives_iff_of_selection (hrule v hv)]
    simp

/-! ## Higher limits -/

theorem sequenceWords_mono (hle : limit ≤ limit') {symbols : List Symbol}
    {front listed : List Word} (h : sequenceWords limit words symbols front = some listed) :
    sequenceWords limit' words symbols front = some listed := by
  induction symbols generalizing front with
  | nil => exact h
  | cons s rest ih =>
    cases s with
    | term t => exact ih h
    | var v =>
      rw [sequenceWords] at h ⊢
      obtain ⟨tails, htails, h⟩ := Option.bind_eq_some_iff.mp h
      refine Option.bind_eq_some_iff.mpr ⟨tails, htails, ?_⟩
      split at h
      · cases h
      · rw [if_neg (by omega)]
        exact ih h

theorem unionWords_mono (hle : limit ≤ limit') {vars : List Variable}
    {front listed : List Word} (h : unionWords limit words vars front = some listed) :
    unionWords limit' words vars front = some listed := by
  induction vars generalizing front with
  | nil => exact h
  | cons v rest ih =>
    rw [unionWords] at h ⊢
    obtain ⟨tails, htails, h⟩ := Option.bind_eq_some_iff.mp h
    refine Option.bind_eq_some_iff.mpr ⟨tails, htails, ?_⟩
    simp only at h ⊢
    split at h
    · cases h
    · rw [if_neg (by omega)]
      exact ih h

/-- A list that is not given up under a limit is the same under a higher one. -/
theorem ruleWords_mono (hle : limit ≤ limit') {r : Rule} {listed : List Word}
    (h : ruleWords limit words r = some listed) : ruleWords limit' words r = some listed := by
  cases r with
  | derivation lhs rhs => exact sequenceWords_mono hle h
  | selection lhs alternatives => exact unionWords_mono hle h

/-! ## A limit that suffices

    The value of a variable, with one for each terminal, is the number of its derivation trees.
-/

variable {a : Nat → Nat}

theorem sequenceValue_pos {symbols : List Symbol} (h : ∀ v, Symbol.var v ∈ symbols → 0 < a v.id) :
    0 < sequenceValue (fun _ => 1) a symbols := by
  induction symbols with
  | nil => exact Nat.one_pos
  | cons s rest ih =>
    rw [sequenceValue_cons]
    refine Nat.mul_pos ?_ (ih fun v hv => h v (List.mem_cons_of_mem _ hv))
    cases s with
    | term t => exact Nat.one_pos
    | var v => exact h v (List.mem_cons_self ..)

/-- The words of a sequence are listed when the limit allows one for each tree. -/
theorem sequenceWords_succeeds {symbols : List Symbol} {front : List Word}
    (hwords : ∀ v, Symbol.var v ∈ symbols →
      ∃ tails, words v = some tails ∧ tails.length ≤ a v.id ∧ 0 < a v.id)
    (hlimit : front.length * sequenceValue (fun _ => 1) a symbols ≤ limit) :
    ∃ listed, sequenceWords limit words symbols front = some listed ∧
      listed.length ≤ front.length * sequenceValue (fun _ => 1) a symbols := by
  induction symbols generalizing front with
  | nil => exact ⟨front, rfl, by simp⟩
  | cons s rest ih =>
    have hrest := fun {front} => @ih front fun v hv => hwords v (List.mem_cons_of_mem _ hv)
    rw [sequenceValue_cons, ← Nat.mul_assoc] at hlimit ⊢
    -- What is in front afterwards has at most the value of the symbol for each word before.
    have hnext : ∀ {n : Nat} {next : List Word}, next.length ≤ n →
        n * sequenceValue (fun _ => 1) a rest ≤ limit →
        ∃ listed, sequenceWords limit words rest next = some listed ∧
          listed.length ≤ n * sequenceValue (fun _ => 1) a rest := by
      intro n next hn hlimit
      have hmul := Nat.mul_le_mul_right (sequenceValue (fun _ => 1) a rest) hn
      obtain ⟨listed, hlisted, hlength⟩ := hrest (hmul.trans hlimit)
      exact ⟨listed, hlisted, hlength.trans hmul⟩
    cases s with
    | term t => exact hnext (length_concatWords_le front [t.word]) hlimit
    | var v =>
      obtain ⟨tails, htails, hlength, -⟩ := hwords v (List.mem_cons_self ..)
      have hpairs : front.length * tails.length ≤ front.length * a v.id :=
        Nat.mul_le_mul_left _ hlength
      -- The rest has a tree, so the pairs alone are no more than the limit.
      have hpos : 0 < sequenceValue (fun _ => 1) a rest := sequenceValue_pos fun u hu => by
        obtain ⟨_, -, -, hu⟩ := hwords u (List.mem_cons_of_mem _ hu)
        exact hu
      have hbound : front.length * tails.length ≤ limit :=
        (hpairs.trans (Nat.le_mul_of_pos_right _ hpos)).trans hlimit
      rw [sequenceWords, htails, Option.bind_eq_bind, Option.bind_some, if_neg (by omega)]
      exact hnext ((length_concatWords_le front tails).trans hpairs) hlimit

theorem unionWords_succeeds {vars : List Variable} {front : List Word}
    (hwords : ∀ v ∈ vars, ∃ tails, words v = some tails ∧ tails.length ≤ a v.id)
    (hlimit : front.length + choiceValue a vars ≤ limit) :
    ∃ listed, unionWords limit words vars front = some listed ∧
      listed.length ≤ front.length + choiceValue a vars := by
  induction vars generalizing front with
  | nil => exact ⟨front, rfl, by simp⟩
  | cons v rest ih =>
    obtain ⟨tails, htails, hlength⟩ := hwords v (List.mem_cons_self ..)
    have hset := length_sortedSet_le (front ++ tails)
    rw [List.length_append] at hset
    rw [choiceValue_cons] at hlimit ⊢
    obtain ⟨listed, hlisted, hbound⟩ := @ih (sortedSet (front ++ tails))
      (fun u hu => hwords u (List.mem_cons_of_mem _ hu)) (by omega)
    refine ⟨listed, ?_, by omega⟩
    rw [unionWords, htails, Option.bind_eq_bind, Option.bind_some]
    simp only
    rw [if_neg (by omega)]
    exact hlisted

/-- A rule lists its words when the limit allows one for each tree. -/
theorem ruleWords_succeeds {r : Rule} (hlimit : r.value (fun _ => 1) a ≤ limit)
    (hwords : ∀ v ∈ r.references,
      ∃ tails, words v = some tails ∧ tails.length ≤ a v.id ∧ 0 < a v.id) :
    ∃ listed, ruleWords limit words r = some listed ∧ listed.length ≤ r.value (fun _ => 1) a := by
  cases r with
  | derivation lhs rhs =>
    have hone : ([[]] : List Word).length * sequenceValue (fun _ => 1) a rhs ≤ limit :=
      (Nat.one_mul _).trans_le hlimit
    obtain ⟨listed, hlisted, hlength⟩ := sequenceWords_succeeds
      (fun v hv => hwords v (Rule.mem_references_derivation.mpr hv)) hone
    exact ⟨listed, hlisted, hlength.trans (Nat.one_mul _).le⟩
  | selection lhs alternatives =>
    have hzero : ([] : List Word).length + choiceValue a alternatives ≤ limit :=
      (Nat.zero_add _).trans_le hlimit
    obtain ⟨listed, hlisted, hlength⟩ := unionWords_succeeds
      (fun v hv => (hwords v hv).imp fun _ h => ⟨h.1, h.2.1⟩) hzero
    exact ⟨listed, hlisted, hlength.trans (Nat.zero_add _).le⟩

/-- Every variable has a tree. -/
theorem Rule.value_pos {start : Variable} (hrules : WellFormed start g.rules) {r : Rule}
    (hr : r ∈ g.rules) (h : ∀ v ∈ r.references, 0 < a v.id) : 0 < r.value (fun _ => 1) a := by
  cases r with
  | derivation lhs rhs =>
    exact sequenceValue_pos fun v hv => h v (Rule.mem_references_derivation.mpr hv)
  | selection lhs alternatives =>
    obtain ⟨hlength, -⟩ := hrules.selections lhs alternatives hr
    cases alternatives with
    | nil => simp at hlength
    | cons v rest =>
      show 0 < choiceValue a (v :: rest)
      rw [choiceValue_cons]
      have := h v (List.mem_cons_self ..)
      omega

end Rules

/-! ## The language of a grammar -/

namespace Grammar

variable {g : Grammar}

/-- Some limit is not exceeded. -/
theorem Valid.exists_language (hg : g.Valid) :
    ∃ limit words, g.language limit = some words := by
  obtain ⟨a, ha⟩ := hg.well_formed.exists_valuation (K := Nat) (fun _ => 1)
  -- The largest number of trees is at most the sum of all of them.
  let limit := (g.rules.map (fun r => a r.lhs.id)).sum
  have hbound : ∀ r ∈ g.rules, r.value (fun _ => 1) a ≤ limit := by
    intro r hr
    rw [← ha r hr]
    exact List.single_le_sum (fun _ _ => Nat.zero_le _) _ (List.mem_map_of_mem hr)
  have hstep : ∀ r ∈ g.rules, ∀ words : Variable → Option (List Word),
      (∀ v ∈ r.references, ∃ tails, words v = some tails ∧ tails.length ≤ a v.id ∧ 0 < a v.id) →
        ∃ listed, ruleWords limit words r = some listed ∧
          listed.length ≤ a r.lhs.id ∧ 0 < a r.lhs.id := by
    intro r hr words hwords
    obtain ⟨listed, hlisted, hlength⟩ := ruleWords_succeeds (hbound r hr) hwords
    rw [ha r hr]
    refine ⟨listed, hlisted, hlength, Rule.value_pos hg.well_formed hr fun v hv => ?_⟩
    obtain ⟨_, -, -, hpos⟩ := hwords v hv
    exact hpos
  obtain ⟨words, hwords, -⟩ := evaluate_spec
    (R := fun i (listed : List Word) => listed.length ≤ a i ∧ 0 < a i) hg hstep
  exact ⟨limit, words, hwords⟩

/-- A list that is not given up is complete. -/
theorem complete_language (hg : g.Valid) {limit : Nat} {words : List Word}
    (h : g.language limit = some words) : Complete g g.start.id words := by
  have hnodup := hg.well_formed.nodup_ruleIds
  exact (evaluate_sound (R := Complete g) hg
    (fun r hr _ _ hvalue hlisted => (ruleWords_complete hnodup hr hvalue hlisted).1) h).1

/-- A list that is not given up holds the words that the start variable derives, in order and
    each once. No reachable variable derives more words than the limit, unless it is zero, and
    the list is the same under higher limits. Some limit is high enough. -/
theorem language_exact (hg : g.Valid) :
    (∀ limit words, g.language limit = some words →
      Ascending words ∧ (∀ w, w ∈ words ↔ Derives g g.start w) ∧
      (1 ≤ limit → ∀ v : Variable, g.Reaches [] v.id → {w | Derives g v w}.encard ≤ limit) ∧
      ∀ limit', limit ≤ limit' → g.language limit' = some words) ∧
    ∃ limit words, g.language limit = some words := by
  refine ⟨fun limit words h => ?_, hg.exists_language⟩
  have hnodup := hg.well_formed.nodup_ruleIds
  -- Every list that is kept on the way is complete, and within the limit.
  obtain ⟨⟨hstart, -⟩, hreached⟩ := evaluate_sound (R := fun i (listed : List Word) =>
    Complete g i listed ∧ (1 ≤ limit → listed.length ≤ limit)) hg (by
      intro r hr value listed hvalue
      exact ruleWords_complete hnodup hr fun v hv => (hvalue v hv).imp fun _ hx => ⟨hx.1, hx.2.1⟩)
      h
  refine ⟨hstart.ascending, hstart.mem_iff g.start rfl, ?_, ?_⟩
  · intro hlimit v hv
    obtain ⟨listed, hcomplete, hlength⟩ := hreached v.id hv
    have hset : {w | Derives g v w} = (listed.toFinset : Set Word) := by
      ext w
      simp [hcomplete.mem_iff v rfl]
    rw [hset, Set.encard_coe_eq_coe_finsetCard]
    exact_mod_cast (List.toFinset_card_le listed).trans (hlength hlimit)
  · intro limit' hle
    exact evaluate_mono (fun _ _ _ => ruleWords_mono hle) h

end Grammar

/-- Two times the same choice between nothing and a call. -/
def optionalTwice : Grammar :=
  ⟨⟨0, "A"⟩,
    [.derivation ⟨0, "A"⟩ [.var ⟨1, "B"⟩, .var ⟨2, "C"⟩],
     .selection ⟨1, "B"⟩ [⟨3, "E"⟩, ⟨4, "F"⟩],
     .selection ⟨2, "C"⟩ [⟨3, "E"⟩, ⟨4, "F"⟩],
     .derivation ⟨3, "E"⟩ [.term ⟨"<empty>", []⟩],
     .derivation ⟨4, "F"⟩ [.term ⟨"f", []⟩]]⟩

theorem optionalTwice_valid : optionalTwice.Valid :=
  Grammar.valid_of_pairwise (by decide +kernel) (by decide +kernel)

/-- There are three words, but four pairs of them, and that many the limit has to allow. -/
theorem optionalTwice_language :
    let words : List Word := [[], [⟨"f", []⟩], [⟨"f", []⟩, ⟨"f", []⟩]]
    optionalTwice.Valid ∧ optionalTwice.language 3 = none ∧
      (∀ w, w ∈ words ↔ Derives optionalTwice ⟨0, "A"⟩ w) ∧
      (∀ v : Variable, optionalTwice.Reaches [] v.id →
        {w | Derives optionalTwice v w}.encard ≤ 4) ∧
      ∀ limit, 4 ≤ limit → optionalTwice.language limit = some words := by
  intro words
  have hthree : optionalTwice.language 3 = none := by cbv
  have hfour : optionalTwice.language 4 = some words := by cbv
  obtain ⟨hexact, -⟩ := Grammar.language_exact optionalTwice_valid
  obtain ⟨-, hmem, hbound, hmono⟩ := hexact 4 words hfour
  exact ⟨optionalTwice_valid, hthree, hmem, hbound (by decide), hmono⟩

end FluentGrammar
