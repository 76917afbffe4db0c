import FluentGrammar.Language.Counts
import FluentGrammar.Proofs.Language.Words
import FluentGrammar.Proofs.Value.Trees
import Mathlib.Algebra.MonoidAlgebra.MapDomain
import Mathlib.RingTheory.Congruence.Defs

/-! # Counted words are counted trees

    Counting derivation trees runs beside listing words: leave the counts out, and the one is
    the other step by step, so both are given up on the same grammars.

    Counts stay at the largest one. Numbers that agree up to the largest count are congruent
    under sums and products, so the true counts can be taken modulo this congruence at any
    time: rule by rule, or once at the end.
-/

namespace FluentGrammar

/-! ## The words that are counted -/

section Words

variable {limit : Nat} {counts : Variable → Option (List CountedWord)}

/-- The words of counted words. -/
def wordsOf (listed : List CountedWord) : List Word :=
  listed.map (·.1)

theorem exists_dropRepeats_cons {α : Type} [Ord α] [Std.LawfulEqOrd α] (x : α) (xs : List α) :
    ∃ rest, dropRepeats (x :: xs) = x :: rest := by
  induction xs generalizing x with
  | nil => exact ⟨[], rfl⟩
  | cons y xs ih =>
    rw [dropRepeats]
    by_cases heq : (compare x y == .eq) = true
    · rw [if_pos heq, Std.LawfulEqOrd.eq_of_compare (beq_iff_eq.mp heq)]
      exact ih y
    · rw [if_neg heq]
      exact ⟨_, rfl⟩

/-- Merging counts drops the repetitions of words. -/
theorem wordsOf_mergeCounts (entries : List CountedWord) :
    wordsOf (mergeCounts entries) = dropRepeats (wordsOf entries) := by
  induction entries with
  | nil => rfl
  | cons entry rest ih =>
    obtain ⟨w, n⟩ := entry
    cases rest with
    | nil => rfl
    | cons next rest =>
      obtain ⟨u, m⟩ := next
      -- What is merged behind `w` begins with the next word.
      obtain ⟨more, hmore⟩ := exists_dropRepeats_cons u (wordsOf rest)
      change wordsOf (mergeCounts ((u, m) :: rest)) = dropRepeats (u :: wordsOf rest) at ih
      rw [mergeCounts]
      cases hmerged : mergeCounts ((u, m) :: rest) with
      | nil =>
        rw [hmerged, hmore] at ih
        cases ih
      | cons first merged =>
        obtain ⟨u', m'⟩ := first
        rw [hmerged] at ih
        have hfirst : u' = u := by
          rw [hmore] at ih
          exact (List.cons.inj ih).1
        subst hfirst
        change _ = dropRepeats (w :: u' :: wordsOf rest)
        rw [dropRepeats]
        by_cases heq : (compare w u' == .eq) = true
        · simp only [if_pos heq, ← ih]
          rw [Std.LawfulEqOrd.eq_of_compare (beq_iff_eq.mp heq)]
          rfl
        · simp only [if_neg heq, ← ih]
          rfl

theorem wordsOf_collectCounts (entries : List CountedWord) :
    wordsOf (collectCounts entries) = sortedSet (wordsOf entries) := by
  unfold collectCounts sortedSet
  rw [wordsOf_mergeCounts]
  congr 1
  exact List.map_mergeSort fun _ _ _ _ => rfl

theorem wordsOf_concatCounts (heads tails : List CountedWord) :
    wordsOf (concatCounts heads tails) = concatWords (wordsOf heads) (wordsOf tails) := by
  unfold concatCounts concatWords
  rw [wordsOf_collectCounts]
  congr 1
  simp only [wordsOf, List.map_flatMap, List.flatMap_map, List.map_map]
  rfl

/-- The counted words of a sequence are its words, with their counts. -/
theorem map_sequenceCounts (symbols : List Symbol) (front : List CountedWord) :
    (sequenceCounts limit counts symbols front).map wordsOf =
      sequenceWords limit (fun v => (counts v).map wordsOf) symbols (wordsOf front) := by
  induction symbols generalizing front with
  | nil => rfl
  | cons s rest ih =>
    cases s with
    | term t =>
      rw [sequenceCounts, sequenceWords, ih, wordsOf_concatCounts]
      rfl
    | var v =>
      rw [sequenceCounts, sequenceWords]
      cases counts v with
      | none => rfl
      | some tails =>
        simp only [Option.bind_eq_bind, Option.bind_some, Option.map_some, wordsOf,
          List.length_map]
        by_cases hlimit : limit < front.length * tails.length
        · rw [if_pos hlimit, if_pos hlimit]
          rfl
        · rw [if_neg hlimit, if_neg hlimit, ← wordsOf, ← wordsOf, ← wordsOf_concatCounts]
          exact ih _

theorem map_unionCounts (vars : List Variable) (front : List CountedWord) :
    (unionCounts limit counts vars front).map wordsOf =
      unionWords limit (fun v => (counts v).map wordsOf) vars (wordsOf front) := by
  induction vars generalizing front with
  | nil => rfl
  | cons v rest ih =>
    rw [unionCounts, unionWords]
    cases counts v with
    | none => rfl
    | some tails =>
      -- Forgetting the counts commutes with each step, and the lengths that are compared stay the
      -- same.
      have hwords : sortedSet (wordsOf front ++ wordsOf tails) =
          wordsOf (collectCounts (front ++ tails)) := by
        rw [wordsOf_collectCounts]
        exact congrArg sortedSet (List.map_append ..).symm
      simp only [Option.bind_eq_bind, Option.bind_some, Option.map_some, hwords]
      rw [show (wordsOf (collectCounts (front ++ tails))).length =
        (collectCounts (front ++ tails)).length from List.length_map _]
      by_cases hlimit : limit < (collectCounts (front ++ tails)).length
      · rw [if_pos hlimit, if_pos hlimit]
        rfl
      · rw [if_neg hlimit, if_neg hlimit]
        exact ih _

/-- The counted words of a rule are its words, with their counts. -/
theorem map_ruleCounts (r : Rule) :
    (ruleCounts limit counts r).map wordsOf =
      ruleWords limit (fun v => (counts v).map wordsOf) r := by
  cases r with
  | derivation lhs rhs => exact map_sequenceCounts rhs [([], 1)]
  | selection lhs alternatives => exact map_unionCounts alternatives []

/-- The words that are counted are the words that are listed. -/
theorem Grammar.map_derivationCounts (g : Grammar) (limit : Nat) :
    (g.derivationCounts limit).map wordsOf = g.language limit :=
  evaluate_map wordsOf (fun _ r => map_ruleCounts r) g

end Words

/-! ## Saturated numbers -/

theorem min_mul_congr {a b c d limit : Nat} (hlimit : 0 < limit)
    (hab : min a limit = min b limit) (hcd : min c limit = min d limit) :
    min (a * c) limit = min (b * d) limit := by
  by_cases ha : a < limit
  · obtain rfl : a = b := by omega
    by_cases hc : c < limit
    · obtain rfl : c = d := by omega
      rfl
    · -- Both products are zero with `a`, and else both are at the limit.
      rcases Nat.eq_zero_or_pos a with rfl | hpos
      · simp
      · have hac : c ≤ a * c := Nat.le_mul_of_pos_left c hpos
        have had : d ≤ a * d := Nat.le_mul_of_pos_left d hpos
        omega
  · rcases Nat.eq_zero_or_pos c with rfl | hpos
    · obtain rfl : d = 0 := by omega
      simp
    · have hpos' : 0 < d := by omega
      have hac : a ≤ a * c := Nat.le_mul_of_pos_right a hpos
      have hbd : b ≤ b * d := Nat.le_mul_of_pos_right b hpos'
      omega

theorem countLimit_pos : 0 < countLimit := by decide

/-- Numbers are congruent when they agree up to the largest count. -/
def countCon : RingCon Nat where
  r m n := min m countLimit = min n countLimit
  iseqv := ⟨fun _ => rfl, Eq.symm, Eq.trans⟩
  add' := by
    intro a b c d (hab : min a countLimit = _) (hcd : min c countLimit = _)
    show min (a + c) countLimit = min (b + d) countLimit
    omega
  mul' := min_mul_congr countLimit_pos

/-- Counts that stay at the largest one. -/
abbrev Count : Type :=
  countCon.Quotient

/-- A number as a count. -/
def asCount : Nat →+* Count :=
  countCon.mk'

theorem asCount_eq_iff {m n : Nat} : asCount m = asCount n ↔ min m countLimit = min n countLimit :=
  RingCon.eq countCon

theorem asCount_addCounts (m n : Nat) : asCount (addCounts m n) = asCount m + asCount n := by
  rw [← map_add, asCount_eq_iff, addCounts, Nat.min_assoc, Nat.min_self]

theorem asCount_mulCounts (m n : Nat) : asCount (mulCounts m n) = asCount m * asCount n := by
  rw [← map_mul, asCount_eq_iff, mulCounts, Nat.min_assoc, Nat.min_self]

/-! ## Sums of counted words -/

/-- Formal sums of words in which every word has a count. -/
abbrev CountSum : Type :=
  MonoidAlgebra Count (FreeMonoid Terminal)

/-- A sum of words with its coefficients as counts. -/
noncomputable def saturate : WordSum →+* CountSum :=
  MonoidAlgebra.mapRingHom _ asCount

/-- The count of a word in a sum of counted words. -/
theorem coeff_saturate (x : WordSum) (w : Word) :
    (saturate x).coeff (FreeMonoid.ofList w) = asCount (x.count w) :=
  MonoidAlgebra.coeff_mapRingHom asCount x _

/-- Counted words as a sum. -/
noncomputable def countSum (listed : List CountedWord) : CountSum :=
  (listed.map fun entry => .single (FreeMonoid.ofList entry.1) (asCount entry.2)).sum

@[simp] theorem countSum_nil : countSum [] = 0 := rfl

@[simp] theorem countSum_cons (entry : CountedWord) (rest : List CountedWord) :
    countSum (entry :: rest) =
      .single (FreeMonoid.ofList entry.1) (asCount entry.2) + countSum rest :=
  List.sum_cons

@[simp] theorem countSum_append (front behind : List CountedWord) :
    countSum (front ++ behind) = countSum front + countSum behind := by
  unfold countSum
  rw [List.map_append, List.sum_append]

theorem countSum_once (w : Word) : countSum [(w, 1)] = saturate (Word.once w) := by
  rw [countSum_cons, countSum_nil, add_zero]
  exact (MonoidAlgebra.map_single (asCount : Nat →+ Count) 1 (FreeMonoid.ofList w)).symm

theorem countSum_mergeCounts (entries : List CountedWord) :
    countSum (mergeCounts entries) = countSum entries := by
  induction entries with
  | nil => rfl
  | cons entry rest ih =>
    obtain ⟨w, n⟩ := entry
    rw [mergeCounts, countSum_cons, ← ih]
    cases mergeCounts rest with
    | nil => rfl
    | cons first merged =>
      obtain ⟨u, m⟩ := first
      by_cases heq : (compare w u == .eq) = true
      · simp only [if_pos heq, countSum_cons, asCount_addCounts, MonoidAlgebra.single_add]
        rw [Std.LawfulEqOrd.eq_of_compare (beq_iff_eq.mp heq), add_assoc]
      · simp only [if_neg heq, countSum_cons]

theorem countSum_collectCounts (entries : List CountedWord) :
    countSum (collectCounts entries) = countSum entries := by
  rw [collectCounts, countSum_mergeCounts]
  exact ((sortOn_perm _ entries).map _).sum_eq

/-- A word that is put in front of all words multiplies their sum. -/
theorem countSum_behind (u : Word) (m : Nat) (tails : List CountedWord) :
    countSum (tails.map fun (w, n) => (u ++ w, mulCounts m n)) =
      .single (FreeMonoid.ofList u) (asCount m) * countSum tails := by
  induction tails with
  | nil => simp
  | cons entry rest ih =>
    rw [List.map_cons, countSum_cons, ih, countSum_cons, mul_add,
      MonoidAlgebra.single_mul_single, FreeMonoid.ofList_append, asCount_mulCounts]

/-- Concatenated words have the product for their sum. -/
theorem countSum_concatCounts (heads tails : List CountedWord) :
    countSum (concatCounts heads tails) = countSum heads * countSum tails := by
  rw [concatCounts, countSum_collectCounts]
  induction heads with
  | nil => simp
  | cons entry rest ih =>
    rw [List.flatMap_cons, countSum_append, ih, countSum_behind, countSum_cons, add_mul]

/-! ## The counts of a rule -/

/-- A homomorphism turns valuations into valuations. -/
theorem IsValuation.map {K L : Type} [Semiring K] [Semiring L] (f : K →+* L)
    {term : Terminal → K} {rules : List Rule} {a : Nat → K} (ha : IsValuation term rules a) :
    IsValuation (fun t => f (term t)) rules (fun i => f (a i)) := by
  intro r hr
  show f (a r.lhs.id) = _
  rw [ha r hr]
  cases r with
  | derivation lhs rhs =>
    show f (rhs.map _).prod = (rhs.map _).prod
    rw [map_list_prod, List.map_map]
    congr 1
    refine List.map_congr_left fun s _ => ?_
    cases s <;> rfl
  | selection lhs alternatives =>
    show f (alternatives.map _).sum = (alternatives.map _).sum
    rw [map_list_sum, List.map_map]
    rfl

section Rules

variable {limit : Nat} {counts : Variable → Option (List CountedWord)} {a : Nat → CountSum}

/-- The value of a terminal: its word, counted once. -/
noncomputable def Terminal.counted (t : Terminal) : CountSum :=
  saturate t.once

theorem countSum_sequenceCounts {symbols : List Symbol} {front listed : List CountedWord}
    (hcounts : ∀ v, Symbol.var v ∈ symbols → ∃ tails, counts v = some tails ∧
      countSum tails = a v.id)
    (h : sequenceCounts limit counts symbols front = some listed) :
    countSum listed = countSum front * sequenceValue Terminal.counted a symbols := by
  induction symbols generalizing front with
  | nil =>
    cases h
    rw [sequenceValue_nil, mul_one]
  | cons s rest ih =>
    have hrest := fun {front} => @ih front fun v hv => hcounts v (List.mem_cons_of_mem _ hv)
    rw [sequenceValue_cons, ← mul_assoc]
    cases s with
    | term t =>
      rw [sequenceCounts] at h
      rw [hrest h, countSum_concatCounts, countSum_once]
      rfl
    | var v =>
      obtain ⟨tails, htails, hsum⟩ := hcounts v (List.mem_cons_self ..)
      rw [sequenceCounts, htails, Option.bind_eq_bind, Option.bind_some] at h
      split at h
      · cases h
      · rw [hrest h, countSum_concatCounts, hsum]
        rfl

theorem countSum_unionCounts {vars : List Variable} {front listed : List CountedWord}
    (hcounts : ∀ v ∈ vars, ∃ tails, counts v = some tails ∧ countSum tails = a v.id)
    (h : unionCounts limit counts vars front = some listed) :
    countSum listed = countSum front + choiceValue a vars := by
  induction vars generalizing front with
  | nil =>
    cases h
    rw [choiceValue_nil, add_zero]
  | cons v rest ih =>
    obtain ⟨tails, htails, hsum⟩ := hcounts v (List.mem_cons_self ..)
    rw [unionCounts, htails, Option.bind_eq_bind, Option.bind_some] at h
    simp only at h
    split at h
    · cases h
    · rw [ih (fun u hu => hcounts u (List.mem_cons_of_mem _ hu)) h, countSum_collectCounts,
        countSum_append, hsum, choiceValue_cons, add_assoc]

/-- The counted words of a rule add up to its value. -/
theorem countSum_ruleCounts {r : Rule} {listed : List CountedWord}
    (hcounts : ∀ v ∈ r.references, ∃ tails, counts v = some tails ∧ countSum tails = a v.id)
    (h : ruleCounts limit counts r = some listed) :
    countSum listed = r.value Terminal.counted a := by
  cases r with
  | derivation lhs rhs =>
    rw [countSum_sequenceCounts
      (fun v hv => hcounts v (Rule.mem_references_derivation.mpr hv)) h, countSum_once,
      Word.once_nil, map_one, one_mul]
    rfl
  | selection lhs alternatives =>
    rw [countSum_unionCounts hcounts h, countSum_nil, zero_add]
    rfl

/-! ## No count is too large -/

/-- No word is counted more often than there are counts. -/
def WithinLimit (listed : List CountedWord) : Prop :=
  ∀ entry ∈ listed, entry.2 ≤ countLimit

theorem withinLimit_mergeCounts {entries : List CountedWord} (h : WithinLimit entries) :
    WithinLimit (mergeCounts entries) := by
  induction entries with
  | nil => exact h
  | cons entry rest ih =>
    obtain ⟨w, n⟩ := entry
    obtain ⟨hn, hrest⟩ := List.forall_mem_cons.mp h
    have hmerged := ih hrest
    rw [mergeCounts]
    cases hcases : mergeCounts rest with
    | nil => exact List.forall_mem_singleton.mpr hn
    | cons first merged =>
      obtain ⟨u, m⟩ := first
      rw [hcases] at hmerged
      by_cases heq : (compare w u == .eq) = true
      · simp only [if_pos heq]
        exact List.forall_mem_cons.mpr
          ⟨Nat.min_le_right .., (List.forall_mem_cons.mp hmerged).2⟩
      · simp only [if_neg heq]
        exact List.forall_mem_cons.mpr ⟨hn, hmerged⟩

theorem withinLimit_collectCounts {entries : List CountedWord} (h : WithinLimit entries) :
    WithinLimit (collectCounts entries) :=
  withinLimit_mergeCounts fun entry hentry => h entry (mem_sortOn.mp hentry)

theorem withinLimit_concatCounts (heads tails : List CountedWord) :
    WithinLimit (concatCounts heads tails) := by
  refine withinLimit_collectCounts fun entry hentry => ?_
  obtain ⟨head, -, hentry⟩ := List.mem_flatMap.mp hentry
  obtain ⟨tail, -, rfl⟩ := List.mem_map.mp hentry
  exact Nat.min_le_right ..

theorem withinLimit_sequenceCounts {symbols : List Symbol} {front listed : List CountedWord}
    (hfront : WithinLimit front) (h : sequenceCounts limit counts symbols front = some listed) :
    WithinLimit listed := by
  induction symbols generalizing front with
  | nil =>
    cases h
    exact hfront
  | cons s rest ih =>
    cases s with
    | term t => exact ih (withinLimit_concatCounts _ _) h
    | var v =>
      rw [sequenceCounts] at h
      obtain ⟨tails, -, h⟩ := Option.bind_eq_some_iff.mp h
      split at h
      · cases h
      · exact ih (withinLimit_concatCounts _ _) h

theorem withinLimit_unionCounts {vars : List Variable} {front listed : List CountedWord}
    (hcounts : ∀ v ∈ vars, ∃ tails, counts v = some tails ∧ WithinLimit tails)
    (hfront : WithinLimit front) (h : unionCounts limit counts vars front = some listed) :
    WithinLimit listed := by
  induction vars generalizing front with
  | nil =>
    cases h
    exact hfront
  | cons v rest ih =>
    obtain ⟨tails, htails, hlimit⟩ := hcounts v (List.mem_cons_self ..)
    rw [unionCounts, htails, Option.bind_eq_bind, Option.bind_some] at h
    simp only at h
    split at h
    · cases h
    · refine ih (fun u hu => hcounts u (List.mem_cons_of_mem _ hu)) ?_ h
      exact withinLimit_collectCounts (List.forall_mem_append.mpr ⟨hfront, hlimit⟩)

theorem withinLimit_ruleCounts {r : Rule} {listed : List CountedWord}
    (hcounts : ∀ v ∈ r.references, ∃ tails, counts v = some tails ∧ WithinLimit tails)
    (h : ruleCounts limit counts r = some listed) : WithinLimit listed := by
  cases r with
  | derivation lhs rhs =>
    refine withinLimit_sequenceCounts (fun entry hentry => ?_) h
    rw [List.mem_singleton.mp hentry]
    exact countLimit_pos
  | selection lhs alternatives =>
    exact withinLimit_unionCounts hcounts (fun _ hentry => absurd hentry List.not_mem_nil) h

end Rules

/-! ## The counts of a grammar -/

/-- How often a word is counted. -/
def countOf (listed : List CountedWord) (w : Word) : Nat :=
  (listed.lookup w).getD 0

theorem countOf_cons (u w : Word) (n : Nat) (rest : List CountedWord) :
    countOf ((u, n) :: rest) w = if u = w then n else countOf rest w := by
  unfold countOf
  rw [List.lookup_cons]
  by_cases h : u = w
  · subst h
    simp
  · rw [if_neg h, beq_false_of_ne (Ne.symm h)]

theorem countOf_eq_zero {listed : List CountedWord} {w : Word} (h : w ∉ wordsOf listed) :
    countOf listed w = 0 := by
  induction listed with
  | nil => rfl
  | cons entry rest ih =>
    obtain ⟨u, n⟩ := entry
    obtain ⟨hne, hrest⟩ := not_or.mp (List.mem_cons.not.mp h)
    rw [countOf_cons, if_neg (Ne.symm hne)]
    exact ih hrest

/-- A word that is listed once has its count in the sum. -/
theorem coeff_countSum {listed : List CountedWord} (hnodup : (wordsOf listed).Nodup) (w : Word) :
    (countSum listed).coeff (FreeMonoid.ofList w) = asCount (countOf listed w) := by
  classical
  induction listed with
  | nil => exact (map_zero asCount).symm
  | cons entry rest ih =>
    obtain ⟨u, n⟩ := entry
    obtain ⟨hu, hrest⟩ := List.nodup_cons.mp hnodup
    rw [countSum_cons, MonoidAlgebra.coeff_add, Finsupp.add_apply, ih hrest, countOf_cons,
      MonoidAlgebra.coeff_single, Finsupp.single_apply,
      if_congr (FreeMonoid.ofList.injective.eq_iff (a := u) (b := w)) rfl rfl]
    by_cases huw : u = w
    · rw [if_pos huw, if_pos huw, ← huw, countOf_eq_zero hu, map_zero, add_zero]
    · rw [if_neg huw, if_neg huw, zero_add]

theorem countOf_of_mem {listed : List CountedWord} (hnodup : (wordsOf listed).Nodup) {w : Word}
    {n : Nat} (h : (w, n) ∈ listed) : countOf listed w = n := by
  induction listed with
  | nil => cases h
  | cons entry rest ih =>
    obtain ⟨u, m⟩ := entry
    obtain ⟨hu, hrest⟩ := List.nodup_cons.mp hnodup
    rw [countOf_cons]
    rcases List.mem_cons.mp h with heq | htail
    · cases heq
      exact if_pos rfl
    · have hw : w ∈ wordsOf rest := List.mem_map.mpr ⟨(w, n), htail, rfl⟩
      rw [if_neg (ne_of_mem_of_not_mem hw hu).symm]
      exact ih hrest htail

theorem mem_of_countOf_pos {listed : List CountedWord} {w : Word} (h : 0 < countOf listed w) :
    (w, countOf listed w) ∈ listed := by
  induction listed with
  | nil => cases h
  | cons entry rest ih =>
    obtain ⟨u, n⟩ := entry
    rw [countOf_cons] at h ⊢
    by_cases huw : u = w
    · rw [if_pos huw, huw]
      exact List.mem_cons_self ..
    · rw [if_neg huw] at h ⊢
      exact List.mem_cons_of_mem _ (ih h)

theorem WithinLimit.countOf_le {listed : List CountedWord} (h : WithinLimit listed) (w : Word) :
    countOf listed w ≤ countLimit := by
  rcases Nat.eq_zero_or_pos (countOf listed w) with hzero | hpos
  · rw [hzero]
    exact countLimit_pos.le
  · exact h _ (mem_of_countOf_pos hpos)

namespace Grammar

variable {g : Grammar} {limit : Nat} {counts : List CountedWord}

/-- The words that are counted are in order, so none is listed twice. -/
theorem nodup_derivationCounts (hg : g.Valid) (h : g.derivationCounts limit = some counts) :
    (wordsOf counts).Nodup := by
  have hlanguage : g.language limit = some (wordsOf counts) := by
    rw [← g.map_derivationCounts, h, Option.map_some]
  exact (complete_language hg hlanguage).ascending.nodup

/-- A word is counted as often as it has trees, up to the largest count. -/
theorem countOf_derivationCounts (hg : g.Valid) (h : g.derivationCounts limit = some counts)
    (w : Word) : countOf counts w = min (treeCount g g.start w) countLimit := by
  obtain ⟨a, ha⟩ := hg.well_formed.exists_valuation Terminal.once
  -- Every rule keeps its counts in step with the sum of the words of its trees.
  have hstep : ∀ r ∈ g.rules, ∀ value : Variable → Option (List CountedWord), ∀ listed,
      (∀ v ∈ r.references, ∃ tails, value v = some tails ∧
        countSum tails = saturate (a v.id) ∧ WithinLimit tails) →
      ruleCounts limit value r = some listed →
      countSum listed = saturate (a r.lhs.id) ∧ WithinLimit listed := by
    intro r hr value listed hvalue hlisted
    constructor
    · rw [countSum_ruleCounts (a := fun i => saturate (a i))
        (fun v hv => (hvalue v hv).imp fun _ h => ⟨h.1, h.2.1⟩) hlisted]
      exact (ha.map saturate r hr).symm
    · exact withinLimit_ruleCounts (fun v hv => (hvalue v hv).imp fun _ h => ⟨h.1, h.2.2⟩) hlisted
  obtain ⟨⟨hsum, hwithin⟩, -⟩ := evaluate_sound
    (R := fun i listed => countSum listed = saturate (a i) ∧ WithinLimit listed) hg hstep h
  have hcount : asCount (countOf counts w) = asCount (treeCount g g.start w) := by
    rw [← coeff_countSum (nodup_derivationCounts hg h), hsum, coeff_saturate,
      treeCount_eq hg ha hg.start_mem]
  rw [← asCount_eq_iff.mp hcount]
  exact (min_eq_left (hwithin.countOf_le w)).symm

/-- Counting is given up where listing is. If it is not, the words that are counted are those
    that are listed; every word has finitely many derivation trees, and as many as are counted,
    up to the largest number of 64 bits. So a grammar is reported as ambiguous just when two of
    its trees have the same word. -/
theorem derivationCounts_exact (hg : g.Valid) (limit : Nat) :
    (g.derivationCounts limit = none ↔ g.language limit = none) ∧
    (∀ counts, g.derivationCounts limit = some counts →
      g.language limit = some (counts.map (·.1)) ∧
      ∀ w, Finite (TreesOf g g.start w) ∧
        (counts.lookup w).getD 0 = min (treeCount g g.start w) (2 ^ 64 - 1)) ∧
    ∀ b, g.isAmbiguous limit = some b →
      (b = true ↔ ∃ T T' : Tree g g.start, T ≠ T' ∧ T.word = T'.word) := by
  refine ⟨?_, fun counts h => ⟨?_, fun w => ⟨?_, ?_⟩⟩, fun b hb => ?_⟩
  · rw [← g.map_derivationCounts, Option.map_eq_none_iff]
  · rw [← g.map_derivationCounts, h]
    rfl
  · exact finite_treesOf hg hg.start_mem w
  · exact countOf_derivationCounts hg h w
  · obtain ⟨counts, h, rfl⟩ := Option.map_eq_some_iff.mp hb
    have hnodup := nodup_derivationCounts hg h
    have htwo : 1 < countLimit := by decide
    -- A number above one is exact enough: it was cut off at a limit that is greater than one.
    rw [List.any_eq_true]
    constructor
    · rintro ⟨⟨w, n⟩, hmem, hn⟩
      have hcount := countOf_derivationCounts hg h w
      rw [countOf_of_mem hnodup hmem] at hcount
      have hcard : 1 < treeCount g g.start w := by
        have := of_decide_eq_true hn
        omega
      have hfinite := finite_treesOf hg hg.start_mem w
      obtain ⟨⟨T, hT⟩, ⟨T', hT'⟩, hne⟩ := Finite.one_lt_card_iff_nontrivial.mp hcard
      exact ⟨T, T', fun heq => hne (Subtype.ext heq), hT.trans hT'.symm⟩
    · rintro ⟨T, T', hne, hword⟩
      have hfinite := finite_treesOf hg hg.start_mem T'.word
      have hnontrivial : Nontrivial (TreesOf g g.start T'.word) :=
        ⟨⟨T, hword⟩, ⟨T', rfl⟩, fun heq => hne (congrArg Subtype.val heq)⟩
      have hcard : 1 < treeCount g g.start T'.word :=
        Finite.one_lt_card_iff_nontrivial.mpr hnontrivial
      have hcount := countOf_derivationCounts hg h T'.word
      have hmany : 1 < countOf counts T'.word := by omega
      exact ⟨_, mem_of_countOf_pos (by omega), decide_eq_true hmany⟩

end Grammar

/-- The word in the middle stands for a call at the first place or at the second. -/
theorem optionalTwice_counts :
    let counts : List CountedWord := [([], 1), ([⟨"f", []⟩], 2), ([⟨"f", []⟩, ⟨"f", []⟩], 1)]
    optionalTwice.Valid ∧ optionalTwice.derivationCounts 3 = none ∧
      optionalTwice.derivationCounts 4 = some counts ∧
      optionalTwice.language 4 = some (counts.map (·.1)) ∧
      min (treeCount optionalTwice ⟨0, "A"⟩ [⟨"f", []⟩]) (2 ^ 64 - 1) = 2 ∧
      ∃ T T' : Tree optionalTwice ⟨0, "A"⟩, T ≠ T' ∧ T.word = T'.word := by
  intro counts
  have hthree : optionalTwice.derivationCounts 3 = none := by cbv
  have hfour : optionalTwice.derivationCounts 4 = some counts := by cbv
  have hambiguous : optionalTwice.isAmbiguous 4 = some true := by
    rw [Grammar.isAmbiguous, hfour]
    rfl
  obtain ⟨-, hcounted, hreported⟩ := Grammar.derivationCounts_exact optionalTwice_valid 4
  obtain ⟨hlanguage, htrees⟩ := hcounted counts hfour
  have htwo : (counts.lookup [⟨"f", []⟩]).getD 0 = 2 := by decide
  exact ⟨optionalTwice_valid, hthree, hfour, hlanguage, (htrees _).2.symm.trans htwo,
    (hreported true hambiguous).mp rfl⟩

end FluentGrammar
