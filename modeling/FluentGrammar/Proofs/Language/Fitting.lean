import FluentGrammar.Proofs.Language.Words
import FluentGrammar.Proofs.Value.Languages

/-! # When listing words is given up

    Listing is given up at a number of pairs or of words that exceeds the limit. All of these
    are numbers of words in languages of the grammar, so whether it is given up can be said
    without the lists: every product that a reachable derivation forms, and every union that a
    reachable selection forms, has to fit the limit.
-/

namespace FluentGrammar

/-! ## Numbers of words -/

/-- The number of words of a language. -/
noncomputable def wordCount (A : Language Terminal) : ℕ∞ :=
  Set.encard {w | w ∈ A}

/-- The words of the first language are words of the second one when the same word is put in
    front of all of them. -/
def Embeds (A B : Language Terminal) : Prop :=
  ∃ u, ∀ w ∈ A, u ++ w ∈ B

section Counting

variable {A B C : Language Terminal} {t : Terminal}

theorem Embeds.of_subset (h : ∀ w ∈ A, w ∈ B) : Embeds A B :=
  ⟨[], h⟩

theorem Embeds.refl (A : Language Terminal) : Embeds A A :=
  .of_subset fun _ => id

theorem Embeds.of_mul_subset (h : ∀ w ∈ t.language * A, w ∈ B) : Embeds A B :=
  ⟨t.word, fun w hw => h _ (Language.mem_mul.mpr ⟨t.word, rfl, w, hw, rfl⟩)⟩

theorem Embeds.mul_right (h : Embeds A B) (C : Language Terminal) : Embeds (A * C) (B * C) := by
  obtain ⟨u, hu⟩ := h
  refine ⟨u, fun w hw => ?_⟩
  obtain ⟨a, ha, c, hc, rfl⟩ := Language.mem_mul.mp hw
  exact Language.mem_mul.mpr ⟨u ++ a, hu a ha, c, hc, List.append_assoc ..⟩

/-- Different words stay different behind the same word. -/
theorem Embeds.wordCount_le (h : Embeds A B) : wordCount A ≤ wordCount B := by
  obtain ⟨u, hu⟩ := h
  exact Set.encard_le_encard_of_injOn hu fun _ _ _ _ heq => List.append_cancel_left heq

theorem wordCount_one : wordCount 1 = 1 :=
  Set.encard_singleton []

theorem wordCount_language (t : Terminal) : wordCount t.language = 1 :=
  Set.encard_singleton t.word

theorem wordCount_mul_le (A B : Language Terminal) :
    wordCount (A * B) ≤ wordCount A * wordCount B := by
  have himage : {w | w ∈ A * B} =
      (fun p : Word × Word => p.1 ++ p.2) '' ({u | u ∈ A} ×ˢ {w | w ∈ B}) := by
    ext w
    simp only [Set.mem_ofPred_eq, Language.mem_mul, Set.mem_image, Set.mem_prod, Prod.exists]
    constructor
    · rintro ⟨a, ha, b, hb, rfl⟩
      exact ⟨a, b, ⟨ha, hb⟩, rfl⟩
    · rintro ⟨a, b, ⟨ha, hb⟩, rfl⟩
      exact ⟨a, ha, b, hb, rfl⟩
  unfold wordCount
  rw [himage]
  exact (Set.encard_image_le _ _).trans_eq Set.encard_prod

/-- A terminal behind words does not make more of them. -/
theorem wordCount_mul_language_le (A : Language Terminal) (t : Terminal) :
    wordCount (A * t.language) ≤ wordCount A := by
  refine (wordCount_mul_le A t.language).trans_eq ?_
  rw [wordCount_language, mul_one]

/-- A list holds the words of a language, each once. -/
structure Holds (listed : List Word) (A : Language Terminal) : Prop where
  nodup : listed.Nodup
  mem_iff : ∀ w, w ∈ listed ↔ w ∈ A

theorem Holds.wordCount_eq {listed : List Word} (h : Holds listed A) :
    wordCount A = listed.length := by
  have hset : {w | w ∈ A} = (listed.toFinset : Set Word) := by
    ext w
    simp [← h.mem_iff]
  unfold wordCount
  rw [hset, Set.encard_coe_eq_coe_finsetCard, List.toFinset_card_of_nodup h.nodup]

theorem Holds.concat {heads tails : List Word} (hheads : Holds heads A) (htails : Holds tails B) :
    Holds (concatWords heads tails) (A * B) where
  nodup := (ascending_concatWords heads tails).nodup
  mem_iff := by
    intro w
    simp only [mem_concatWords, Language.mem_mul, hheads.mem_iff, htails.mem_iff]

theorem Holds.union {front tails : List Word} (hfront : Holds front A) (htails : Holds tails B) :
    Holds (sortedSet (front ++ tails)) (A + B) where
  nodup := (ascending_sortedSet _).nodup
  mem_iff := by
    intro w
    rw [mem_sortedSet, List.mem_append, hfront.mem_iff, htails.mem_iff, Language.mem_add]

theorem Holds.word (t : Terminal) : Holds [t.word] t.language where
  nodup := List.nodup_singleton _
  mem_iff := fun _ => List.mem_singleton

theorem Complete.holds {g : Grammar} {i : Nat} {listed : List Word} (h : Complete g i listed) :
    Holds listed (g.languageOf i) where
  nodup := h.ascending.nodup
  mem_iff := fun w => h.mem_iff ⟨i, ""⟩ rfl w

end Counting

/-! ## What fits a limit -/

/-- With the given words in front, no product that a sequence forms exceeds the limit. -/
def SequenceFits (limit : Nat) (L : Nat → Language Terminal) :
    (front : Language Terminal) → List Symbol → Prop
  | _, [] => True
  | front, .term t :: rest => SequenceFits limit L (front * t.language) rest
  | front, .var v :: rest =>
    wordCount front * wordCount (L v.id) ≤ limit ∧ SequenceFits limit L (front * L v.id) rest

/-- Nothing that a rule forms exceeds the limit. -/
def Rule.Fits (limit : Nat) (L : Nat → Language Terminal) : Rule → Prop
  | .derivation _ rhs => SequenceFits limit L 1 rhs
  | .selection _ alternatives => wordCount (choiceValue L alternatives) ≤ limit

/-- Nothing that a reachable rule forms exceeds the limit. -/
def Grammar.Fits (g : Grammar) (limit : Nat) : Prop :=
  ∀ r ∈ g.rules, g.Reaches [] r.lhs.id → r.Fits limit g.languageOf

section Rules

variable {g : Grammar} {limit : Nat} {L L' : Nat → Language Terminal}
variable {words : Variable → Option (List Word)} {A B : Language Terminal} {front : List Word}

@[simp] theorem sequenceFits_nil : SequenceFits limit L A [] := trivial

@[simp] theorem sequenceFits_term {t : Terminal} {rest : List Symbol} :
    SequenceFits limit L A (.term t :: rest) ↔ SequenceFits limit L (A * t.language) rest :=
  Iff.rfl

@[simp] theorem sequenceFits_var {v : Variable} {rest : List Symbol} :
    SequenceFits limit L A (.var v :: rest) ↔
      wordCount A * wordCount (L v.id) ≤ limit ∧ SequenceFits limit L (A * L v.id) rest :=
  Iff.rfl

/-- What fits behind words also fits behind fewer of them. -/
theorem SequenceFits.of_embeds {symbols : List Symbol} (h : SequenceFits limit L B symbols)
    (hfront : Embeds A B) (hsame : ∀ v, Symbol.var v ∈ symbols → L' v.id = L v.id) :
    SequenceFits limit L' A symbols := by
  induction symbols generalizing A B with
  | nil => exact sequenceFits_nil
  | cons x rest ih =>
    have hrest : ∀ v, Symbol.var v ∈ rest → L' v.id = L v.id :=
      fun v hv => hsame v (List.mem_cons_of_mem _ hv)
    cases x with
    | term t => exact ih h (hfront.mul_right t.language) hrest
    | var v =>
      obtain ⟨hpairs, hfits⟩ := h
      rw [sequenceFits_var, hsame v (List.mem_cons_self ..)]
      refine ⟨le_trans ?_ hpairs, ih hfits (hfront.mul_right (L v.id)) hrest⟩
      exact mul_le_mul_left hfront.wordCount_le _

/-- Whether a rule fits hangs only on the languages of its references. -/
theorem Rule.Fits.congr {r : Rule} (h : r.Fits limit L)
    (hsame : ∀ v ∈ r.references, L' v.id = L v.id) : r.Fits limit L' := by
  cases r with
  | derivation lhs rhs =>
    refine SequenceFits.of_embeds h (.refl 1) fun v hv => ?_
    exact hsame v (Rule.mem_references_derivation.mpr hv)
  | selection lhs alternatives =>
    have hvalue : choiceValue L' alternatives = choiceValue L alternatives :=
      Rule.value_congr Terminal.language (.selection lhs alternatives) hsame
    show wordCount (choiceValue L' alternatives) ≤ limit
    rw [hvalue]
    exact h

/-- A selection fits when its variable does not have too many words. -/
theorem fits_selection_iff (hg : g.Valid) {v : Variable} {alternatives : List Variable}
    (hr : Rule.selection v alternatives ∈ g.rules) :
    (Rule.selection v alternatives).Fits limit g.languageOf ↔
      wordCount (g.languageOf v.id) ≤ limit := by
  rw [(isValuation_languageOf hg.well_formed.nodup_ruleIds).selection_eq hr]
  rfl

/-! ## Lists that are not given up -/

/-- The words of a sequence are listed just when nothing that it forms exceeds the limit. -/
theorem exists_sequenceWords_iff {symbols : List Symbol}
    (hwords : ∀ v, Symbol.var v ∈ symbols → ∃ tails, words v = some tails ∧
      Holds tails (L v.id)) (hfront : Holds front A) :
    (∃ listed, sequenceWords limit words symbols front = some listed) ↔
      SequenceFits limit L A symbols := by
  induction symbols generalizing front A with
  | nil => exact iff_of_true ⟨front, rfl⟩ sequenceFits_nil
  | cons x rest ih =>
    have hrest : ∀ v, Symbol.var v ∈ rest → ∃ tails, words v = some tails ∧ Holds tails (L v.id) :=
      fun v hv => hwords v (List.mem_cons_of_mem _ hv)
    cases x with
    | term t =>
      rw [sequenceFits_term, ← ih hrest (hfront.concat (.word t))]
      rfl
    | var v =>
      obtain ⟨tails, htails, hholds⟩ := hwords v (List.mem_cons_self ..)
      rw [sequenceFits_var, ← ih hrest (hfront.concat hholds), hfront.wordCount_eq,
        hholds.wordCount_eq, sequenceWords, htails, Option.bind_eq_bind, Option.bind_some]
      -- The program multiplies the lengths of two lists, the condition the numbers of two sets of
      -- words.
      have hpairs : ((front.length : ℕ∞) * tails.length ≤ limit) ↔
          ¬ limit < front.length * tails.length := by
        rw [not_lt]
        exact_mod_cast Iff.rfl
      rw [hpairs]
      by_cases hlimit : limit < front.length * tails.length
      · rw [if_pos hlimit]
        exact iff_of_false (by simp) fun hand => hand.1 hlimit
      · rw [if_neg hlimit]
        exact (and_iff_right hlimit).symm

theorem exists_unionWords_iff {vars : List Variable}
    (hwords : ∀ v ∈ vars, ∃ tails, words v = some tails ∧ Holds tails (L v.id))
    (hfront : Holds front A) (hle : front.length ≤ limit) :
    (∃ listed, unionWords limit words vars front = some listed) ↔
      wordCount (A + choiceValue L vars) ≤ limit := by
  induction vars generalizing front A with
  | nil =>
    rw [choiceValue_nil, add_zero, hfront.wordCount_eq]
    exact iff_of_true ⟨front, rfl⟩ (by exact_mod_cast hle)
  | cons v rest ih =>
    obtain ⟨tails, htails, hholds⟩ := hwords v (List.mem_cons_self ..)
    have hunion := hfront.union hholds
    rw [choiceValue_cons, ← add_assoc, unionWords, htails, Option.bind_eq_bind, Option.bind_some]
    simp only
    by_cases hlimit : limit < (sortedSet (front ++ tails)).length
    · -- The words that there are too many of are words of the whole union.
      have hpart : Embeds (A + L v.id) (A + L v.id + choiceValue L rest) :=
        .of_subset fun _ => Or.inl
      have hcount := hpart.wordCount_le
      rw [hunion.wordCount_eq] at hcount
      rw [if_pos hlimit]
      refine iff_of_false (by simp) fun hfits => ?_
      have htotal : (sortedSet (front ++ tails)).length ≤ limit := by
        exact_mod_cast hcount.trans hfits
      omega
    · rw [if_neg hlimit]
      exact ih (fun u hu => hwords u (List.mem_cons_of_mem _ hu)) hunion (by omega)

/-- The words of a rule are listed just when nothing that it forms exceeds the limit. -/
theorem exists_ruleWords_iff {r : Rule}
    (hwords : ∀ v ∈ r.references, ∃ tails, words v = some tails ∧ Holds tails (L v.id)) :
    (∃ listed, ruleWords limit words r = some listed) ↔ r.Fits limit L := by
  cases r with
  | derivation lhs rhs =>
    have hone : Holds [[]] 1 := ⟨List.nodup_singleton _, fun _ => List.mem_singleton⟩
    exact exists_sequenceWords_iff
      (fun v hv => hwords v (Rule.mem_references_derivation.mpr hv)) hone
  | selection lhs alternatives =>
    have hzero : Holds [] 0 := ⟨List.nodup_nil, fun _ => iff_of_false List.not_mem_nil id⟩
    have hunion := exists_unionWords_iff hwords hzero (Nat.zero_le limit)
    rw [zero_add] at hunion
    exact hunion

end Rules

/-! ## Grammars that fit -/

namespace Grammar

variable {g g' : Grammar} {limit : Nat}

/-- If the words of a grammar are listed, nothing that was formed on the way has exceeded the
    limit. -/
theorem fits_of_language (hg : g.Valid) {words : List Word}
    (h : g.language limit = some words) : g.Fits limit := by
  have hnodup := hg.well_formed.nodup_ruleIds
  have hstep : ∀ r ∈ g.rules, ∀ value : Variable → Option (List Word), ∀ listed,
      (∀ v ∈ r.references, ∃ tails, value v = some tails ∧ Complete g v.id tails ∧
        ∀ q ∈ g.rules, q.lhs.id = v.id → q.Fits limit g.languageOf) →
      ruleWords limit value r = some listed →
      Complete g r.lhs.id listed ∧
        ∀ q ∈ g.rules, q.lhs.id = r.lhs.id → q.Fits limit g.languageOf := by
    intro r hr value listed hvalue hlisted
    have hcomplete : ∀ v ∈ r.references, ∃ tails, value v = some tails ∧ Complete g v.id tails :=
      fun v hv => (hvalue v hv).imp fun _ hx => ⟨hx.1, hx.2.1⟩
    refine ⟨(ruleWords_complete hnodup hr hcomplete hlisted).1, fun q hq hid => ?_⟩
    rw [eq_of_lhs_id_eq hnodup hq hr hid, ← exists_ruleWords_iff
      fun v hv => (hcomplete v hv).imp fun _ hx => ⟨hx.1, hx.2.holds⟩]
    exact ⟨listed, hlisted⟩
  obtain ⟨-, hreached⟩ := evaluate_sound (R := fun i (listed : List Word) =>
    Complete g i listed ∧ ∀ q ∈ g.rules, q.lhs.id = i → q.Fits limit g.languageOf) hg hstep h
  intro r hr hreach
  obtain ⟨-, -, hfits⟩ := hreached r.lhs.id hreach
  exact hfits r hr rfl

/-- If no reachable rule exceeds the limit, the words of a grammar are listed. -/
theorem Fits.exists_language (h : g.Fits limit) (hg : g.Valid) :
    ∃ words, g.language limit = some words := by
  have hnodup := hg.well_formed.nodup_ruleIds
  have hstep : ∀ r ∈ g.rules, g.Reaches [] r.lhs.id → ∀ value : Variable → Option (List Word),
      (∀ v ∈ r.references, ∃ tails, value v = some tails ∧ Complete g v.id tails) →
      ∃ listed, ruleWords limit value r = some listed ∧ Complete g r.lhs.id listed := by
    intro r hr hreach value hvalue
    obtain ⟨listed, hlisted⟩ := (exists_ruleWords_iff
      fun v hv => (hvalue v hv).imp fun _ hx => ⟨hx.1, hx.2.holds⟩).mpr (h r hr hreach)
    exact ⟨listed, hlisted, (ruleWords_complete hnodup hr hvalue hlisted).1⟩
  obtain ⟨words, hwords, -⟩ := evaluate_of_reached hg hstep
  exact ⟨words, hwords⟩

/-- The words of a grammar are listed just when nothing that a reachable rule forms exceeds the
    limit. -/
theorem exists_language_iff (hg : g.Valid) :
    (∃ words, g.language limit = some words) ↔ g.Fits limit :=
  ⟨fun ⟨_, h⟩ => fits_of_language hg h, fun h => h.exists_language hg⟩

/-! ## From one grammar to the next -/

/-- The variable is not one of the grammar, or else it is reachable. It is given by its id. -/
def NewOrReached (g : Grammar) (i : Nat) : Prop :=
  i ∈ ruleIds g.rules → g.Reaches [] i

/-- A grammar fits a limit if rules that are new or were reached before fit it, and refer to
    nothing else than what is new or was reached before. -/
theorem Fits.of_rules (hstart : g'.start = g.start)
    (hrules : ∀ r ∈ g'.rules, g.NewOrReached r.lhs.id →
      r.Fits limit g'.languageOf ∧ ∀ v ∈ r.references, g.NewOrReached v.id) : g'.Fits limit := by
  have hall : ∀ i, g'.Reaches [] i → g.NewOrReached i := by
    intro i hi
    unfold Reaches at hi
    induction hi with
    | refl =>
      rw [hstart]
      exact fun _ => .refl
    | tail _ hleads ih =>
      rcases hleads with ⟨r, hr, rfl, v, hv, rfl⟩ | ⟨e, he, -⟩
      · exact (hrules r hr ih).2 v hv
      · cases he
  exact fun r hr hreach => (hrules r hr (hall _ hreach)).1

/-- A rule that was reached fits, and refers to what was reached. -/
theorem Fits.of_newOrReached (h : g.Fits limit) {r : Rule} (hr : r ∈ g.rules)
    (hlhs : g.NewOrReached r.lhs.id) :
    r.Fits limit g.languageOf ∧ ∀ v ∈ r.references, g.NewOrReached v.id := by
  have hreach := hlhs (mem_ruleIds_of_mem hr)
  refine ⟨h r hr hreach, fun v hv _ => ?_⟩
  exact hreach.of_refersTo (.single (refersTo_of_mem hr hv))

/-- A rule that is kept still fits if the languages of its references are kept. -/
theorem Fits.keep (h : g.Fits limit) {r : Rule} (hr : r ∈ g.rules)
    (hlhs : g.NewOrReached r.lhs.id)
    (hsame : ∀ v ∈ r.references, g'.languageOf v.id = g.languageOf v.id) :
    r.Fits limit g'.languageOf ∧ ∀ v ∈ r.references, g.NewOrReached v.id := by
  obtain ⟨hfits, hreferences⟩ := h.of_newOrReached hr hlhs
  exact ⟨hfits.congr hsame, hreferences⟩

end Grammar

end FluentGrammar
