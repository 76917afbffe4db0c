import FluentGrammar.Proofs.Chain.Separation
import FluentGrammar.Proofs.Grammar.Reachability
import FluentGrammar.Proofs.Value.Trees

/-! # Ambiguity as a value

    A variable has the value of all of its chains together, and a chain has the value that its
    ending gives it. So two chains with the same ending make the variable contain some word
    twice, and whatever leads to the variable contains a word twice as well.
-/

namespace FluentGrammar

variable {g : Grammar}

/-! ## Values of chains -/

section Chains

variable {K : Type} [Semiring K] {term : Terminal → K} {a : Nat → K}

theorem sequenceValue_append (front behind : List Symbol) :
    sequenceValue term a (front ++ behind) =
      sequenceValue term a front * sequenceValue term a behind := by
  unfold sequenceValue
  rw [List.map_append, List.prod_append]

/-- The value of what a chain reads first. -/
def Head.value (term : Terminal → K) : Head → K
  | .terminal t => term t
  | .nothing => 1
  | .sentinel => 1

/-- The value of a chain: what it reads first, and the symbols that it leaves. -/
def ReadChain.value (term : Terminal → K) (a : Nat → K) (c : ReadChain) : K :=
  c.head.value term * sequenceValue term a c.trailing

theorem ReadChain.value_extend (v : Variable) (behind : List Symbol) (c : ReadChain) :
    (c.extend v behind).value term a = c.value term a * sequenceValue term a behind := by
  show c.head.value term * sequenceValue term a (c.trailing ++ behind) = _
  rw [sequenceValue_append, ← mul_assoc]
  rfl

/-- The empty terminal is not read, but it has the value one as well. -/
theorem value_headAt_term (hempty : term .empty = 1) (t : Terminal) (rest : List Symbol) :
    (headAt (.term t :: rest)).value term = term t := by
  show (if t.isEmpty then Head.sentinel else Head.terminal t).value term = _
  by_cases ht : t.isEmpty = true
  · rw [if_pos ht, Terminal.isEmpty_iff.mp ht, hempty]
    rfl
  · rw [if_neg ht]
    rfl

theorem sum_value_extend (v : Variable) (behind : List Symbol) (reads : List ReadChain) :
    ((reads.map (ReadChain.extend v behind)).map (ReadChain.value term a)).sum =
      (reads.map (ReadChain.value term a)).sum * sequenceValue term a behind := by
  induction reads with
  | nil => simp
  | cons c rest ih =>
    simp only [List.map_cons, List.sum_cons, add_mul, ReadChain.value_extend, ih]

/-- A variable has the value of all of its chains together. -/
theorem IsValuation.eq_sum_reads (hg : g.Valid) (hempty : term .empty = 1)
    (ha : IsValuation term g.rules a) {v : Variable} (hv : v.id ∈ ruleIds g.rules) :
    a v.id = ((g.readsOf v).map (ReadChain.value term a)).sum := by
  refine hg.rule_induction
    (P := fun v => a v.id = ((g.readsOf v).map (ReadChain.value term a)).sum) ?_ v hv
  intro v r hrule ih
  have hvalue := ha r (Grammar.mem_of_rule? hrule)
  rw [Grammar.lhs_of_rule? hrule] at hvalue
  rw [hvalue, readsOf_eq hg hrule]
  cases r with
  | derivation lhs rhs =>
    show sequenceValue term a rhs = _
    cases rhs with
    | nil => simp [Grammar.readsBy, ReadChain.value, Head.value]
    | cons x rest =>
      rw [sequenceValue_cons]
      cases x with
      | term t =>
        rw [Grammar.readsBy, List.map_singleton, List.sum_singleton]
        show _ = (headAt (.term t :: rest)).value term * sequenceValue term a rest
        rw [value_headAt_term hempty]
        rfl
      | var w =>
        rw [Grammar.readsBy, sum_value_extend, ← ih w (Rule.leading_mem_references lhs w rest)]
        rfl
  | selection lhs alternatives =>
    -- The alternatives are taken one after the other, so the sum is over any of them.
    have hsum : ∀ vars : List Variable, (∀ u ∈ vars, u ∈ alternatives) →
        choiceValue a vars = ((vars.flatMap g.readsOf).map (ReadChain.value term a)).sum := by
      intro vars
      induction vars with
      | nil => exact fun _ => rfl
      | cons u rest ih' =>
        intro hsub
        rw [choiceValue_cons, List.flatMap_cons, List.map_append, List.sum_append,
          ih u (hsub u (List.mem_cons_self ..)),
          ih' fun w hw => hsub w (List.mem_cons_of_mem _ hw)]
    show choiceValue a alternatives = _
    rw [Grammar.readsBy, sum_value_extend, sequenceValue_nil, mul_one]
    exact hsum alternatives fun _ => id

/-- What a chain reads first is what its terminus starts with. -/
theorem exists_rule_terminus (hg : g.Valid) {v : Variable} (hv : v.id ∈ ruleIds g.rules)
    {c : ReadChain} (hc : c ∈ g.readsOf v) :
    ∃ lhs rhs, g.rule? c.chain.terminus = some (.derivation lhs rhs) ∧ c.head = headAt rhs := by
  refine readsOf_induction hg (P := fun _ c => ∃ lhs rhs,
    g.rule? c.chain.terminus = some (.derivation lhs rhs) ∧ c.head = headAt rhs) ?_ ?_ ?_ v hv
    c hc
  · intro v lhs rhs hrule _
    exact ⟨lhs, rhs, hrule, rfl⟩
  · intro v lhs w rest c _ _ ih
    show ∃ lhs rhs, g.rule? (Chain.cons v c.chain).terminus = _ ∧ _
    rw [Chain.terminus_cons]
    exact ih
  · intro v lhs alternatives u c _ _ _ ih
    show ∃ lhs rhs, g.rule? (Chain.cons v c.chain).terminus = _ ∧ _
    rw [Chain.terminus_cons]
    exact ih

theorem sequenceValue_congr_key {xs ys : List Symbol}
    (h : xs.map Symbol.key = ys.map Symbol.key) :
    sequenceValue term a xs = sequenceValue term a ys := by
  have hvalue : Symbol.value term a = Sum.elim term a ∘ Symbol.key := by
    funext s
    cases s <;> rfl
  unfold sequenceValue
  rw [hvalue, ← List.map_map, ← List.map_map, h]

/-- Chains with the same ending have the same value. -/
theorem ReadChain.value_eq_of_ending (hg : g.Valid) {v w : Variable}
    (hv : v.id ∈ ruleIds g.rules) (hw : w.id ∈ ruleIds g.rules) {c d : ReadChain}
    (hc : c ∈ g.readsOf v) (hd : d ∈ g.readsOf w) (h : c.ending = d.ending) :
    c.value term a = d.value term a := by
  unfold ending at h
  rw [ChainEnding.mk.injEq] at h
  obtain ⟨hterminus, htrailing⟩ := h
  obtain ⟨lhs, rhs, hrule, hhead⟩ := exists_rule_terminus hg hv hc
  obtain ⟨lhs', rhs', hrule', hhead'⟩ := exists_rule_terminus hg hw hd
  rw [Grammar.rule?_congr hterminus] at hrule
  cases hrule.symm.trans hrule'
  unfold value
  rw [hhead, hhead', sequenceValue_congr_key htrailing]

/-- Two chains with the same ending give a variable one value twice. -/
theorem exists_partOf_of_not_separated (hg : g.Valid) (hempty : term .empty = 1)
    (ha : IsValuation term g.rules a) {v : Variable} (hv : v.id ∈ ruleIds g.rules)
    (h : ¬ g.Separated v.id) :
    ∃ c ∈ g.readsOf v, PartOf (c.value term a + c.value term a) (a v.id) := by
  rw [Grammar.Separated, ← map_ending_readsOf hg hv, List.Nodup, List.pairwise_map] at h
  -- Equal endings in different places belong to two chains, which may be the same.
  obtain ⟨c, d, hsub, hending⟩ :
      ∃ c d, [c, d].Sublist (g.readsOf v) ∧ c.ending = d.ending := by
    by_contra hnone
    apply h
    rw [List.pairwise_iff_forall_sublist]
    intro c d hsub hending
    exact hnone ⟨c, d, hsub, hending⟩
  have hc := hsub.subset (List.mem_cons_self ..)
  have hd := hsub.subset (List.mem_cons_of_mem _ (List.mem_cons_self ..))
  refine ⟨c, hc, ?_⟩
  obtain ⟨others, hperm⟩ := hsub.exists_perm_append
  refine ⟨(others.map (ReadChain.value term a)).sum, ?_⟩
  rw [ha.eq_sum_reads hg hempty hv, (hperm.map _).sum_eq]
  simp only [List.cons_append, List.nil_append, List.map_cons, List.sum_cons]
  rw [← ReadChain.value_eq_of_ending hg hv hv hc hd hending, add_assoc]

end Chains

/-! ## Words that occur -/

namespace WordSum

/-- A word occurs in a sum. -/
def Occurs (x : WordSum) : Prop :=
  ∃ w, PartOf (Word.once w) x

/-- A word occurs twice in a sum. -/
def Repeats (x : WordSum) : Prop :=
  ∃ w, PartOf (Word.once w + Word.once w) x

variable {x y : WordSum}

theorem occurs_once (w : Word) : (Word.once w).Occurs :=
  ⟨w, comparison_partOf.refl _⟩

theorem Occurs.mono (hx : x.Occurs) (h : PartOf x y) : y.Occurs := by
  obtain ⟨w, hw⟩ := hx
  exact ⟨w, comparison_partOf.trans hw h⟩

theorem Repeats.mono (hx : x.Repeats) (h : PartOf x y) : y.Repeats := by
  obtain ⟨w, hw⟩ := hx
  exact ⟨w, comparison_partOf.trans hw h⟩

theorem Occurs.mul (hx : x.Occurs) (hy : y.Occurs) : (x * y).Occurs := by
  obtain ⟨u, hu⟩ := hx
  obtain ⟨w, hw⟩ := hy
  refine ⟨u ++ w, ?_⟩
  rw [Word.once_append]
  exact comparison_partOf.mul_le_mul hu hw

/-- A word that occurs in two equal parts occurs twice. -/
theorem Occurs.repeats_add_self (hx : x.Occurs) : (x + x).Repeats := by
  obtain ⟨w, hw⟩ := hx
  exact ⟨w, comparison_partOf.add_le_add hw hw⟩

theorem Repeats.mul_right (hx : x.Repeats) (hy : y.Occurs) : (x * y).Repeats := by
  obtain ⟨u, hu⟩ := hx
  obtain ⟨w, hw⟩ := hy
  refine ⟨u ++ w, ?_⟩
  rw [Word.once_append, ← add_mul]
  exact comparison_partOf.mul_le_mul hu hw

theorem Repeats.mul_left (hx : x.Occurs) (hy : y.Repeats) : (x * y).Repeats := by
  obtain ⟨u, hu⟩ := hx
  obtain ⟨w, hw⟩ := hy
  refine ⟨u ++ w, ?_⟩
  rw [Word.once_append, ← mul_add]
  exact comparison_partOf.mul_le_mul hu hw

theorem Repeats.two_le_count (hx : x.Repeats) : ∃ w, 2 ≤ x.count w := by
  classical
  obtain ⟨w, hw⟩ := hx
  have hle := hw.count_le w
  rw [WordSum.count_add, WordSum.count_once, if_pos rfl] at hle
  exact ⟨w, hle⟩

end WordSum

/-! ## Repeated words of a variable -/

section Repeated

variable {a : Nat → WordSum}

theorem partOf_choiceValue {vars : List Variable} {u : Variable} (hu : u ∈ vars) :
    PartOf (a u.id) (choiceValue a vars) := by
  obtain ⟨front, back, rfl⟩ := List.append_of_mem hu
  refine ⟨choiceValue a front + choiceValue a back, ?_⟩
  rw [choiceValue_append, choiceValue_cons]
  exact add_left_comm _ _ _

theorem occurs_sequenceValue {symbols : List Symbol}
    (h : ∀ v, Symbol.var v ∈ symbols → (a v.id).Occurs) :
    (sequenceValue Terminal.once a symbols).Occurs := by
  induction symbols with
  | nil => exact WordSum.occurs_once []
  | cons s rest ih =>
    rw [sequenceValue_cons]
    refine WordSum.Occurs.mul ?_ (ih fun v hv => h v (List.mem_cons_of_mem _ hv))
    cases s with
    | term t => exact WordSum.occurs_once t.word
    | var v => exact h v (List.mem_cons_self ..)

/-- Every variable has a word. -/
theorem IsValuation.occurs (hg : g.Valid) (ha : IsValuation Terminal.once g.rules a) :
    ∀ v : Variable, v.id ∈ ruleIds g.rules → (a v.id).Occurs := by
  refine hg.rule_induction (P := fun v => (a v.id).Occurs) ?_
  intro v r hrule ih
  have hvalue := ha r (Grammar.mem_of_rule? hrule)
  rw [Grammar.lhs_of_rule? hrule] at hvalue
  rw [hvalue]
  cases r with
  | derivation lhs rhs =>
    exact occurs_sequenceValue fun u hu => ih u (Rule.mem_references_derivation.mpr hu)
  | selection lhs alternatives =>
    have htwo := (hg.well_formed.selections lhs alternatives (Grammar.mem_of_rule? hrule)).1
    obtain ⟨u, hu⟩ := List.exists_mem_of_length_pos (Nat.lt_of_lt_of_le Nat.two_pos htwo)
    exact (ih u hu).mono (partOf_choiceValue hu)

/-- Every chain has a word. -/
theorem ReadChain.occurs_value (hg : g.Valid) (ha : IsValuation Terminal.once g.rules a)
    {v : Variable} (hv : v.id ∈ ruleIds g.rules) :
    ∀ c ∈ g.readsOf v, (c.value Terminal.once a).Occurs := by
  -- All variables have words, so what stands behind a first symbol has one.
  have hbehind : ∀ {v lhs x rest}, g.rule? v = some (.derivation lhs (x :: rest)) →
      (sequenceValue Terminal.once a rest).Occurs := by
    intro v lhs x rest hrule
    refine occurs_sequenceValue fun u hu => ha.occurs hg u ?_
    exact mem_ruleIds_of_reference hg hrule
      (Rule.mem_references_derivation.mpr (List.mem_cons_of_mem _ hu))
  refine readsOf_induction hg (P := fun _ c => (c.value Terminal.once a).Occurs) ?_ ?_ ?_ v hv
  · intro v lhs rhs hrule hled
    cases rhs with
    | nil => exact (WordSum.occurs_once []).mul (WordSum.occurs_once [])
    | cons x rest =>
      cases x with
      | term t =>
        refine WordSum.Occurs.mul ?_ (hbehind hrule)
        show ((headAt (.term t :: rest)).value Terminal.once).Occurs
        rw [value_headAt_term Terminal.once_empty]
        exact WordSum.occurs_once t.word
      | var w => exact absurd rfl (hled w rest)
  · intro v lhs w rest c hrule _ ih
    rw [ReadChain.value_extend]
    exact ih.mul (hbehind hrule)
  · intro v lhs alternatives u c _ _ _ ih
    rw [ReadChain.value_extend, sequenceValue_nil, mul_one]
    exact ih

/-- A variable with two chains alike has a word twice. -/
theorem repeats_of_not_separated (hg : g.Valid) (ha : IsValuation Terminal.once g.rules a)
    {v : Variable} (hv : v.id ∈ ruleIds g.rules) (h : ¬ g.Separated v.id) :
    (a v.id).Repeats := by
  obtain ⟨c, hc, hpart⟩ := exists_partOf_of_not_separated hg Terminal.once_empty ha hv h
  exact (ReadChain.occurs_value hg ha hv c hc).repeats_add_self.mono hpart

/-- A rule passes on what is repeated in one of its references. -/
theorem WordSum.Repeats.of_refersTo (hg : g.Valid) (ha : IsValuation Terminal.once g.rules a)
    {i j : Nat} (hij : RefersTo g.rules i j) (hj : (a j).Repeats) : (a i).Repeats := by
  obtain ⟨r, hr, rfl, v, hv, rfl⟩ := hij
  have hrule := Grammar.rule?_of_mem hg.well_formed.nodup_ruleIds hr (v := r.lhs) rfl
  have hoccurs : ∀ u ∈ r.references, (a u.id).Occurs :=
    fun u hu => ha.occurs hg u (mem_ruleIds_of_reference hg hrule hu)
  rw [ha r hr]
  cases r with
  | derivation lhs rhs =>
    obtain ⟨front, back, rfl⟩ := List.append_of_mem (Rule.mem_references_derivation.mp hv)
    -- Nothing is lost between symbols all of which have words.
    have hsymbols : ∀ part, part ⊆ front ++ .var v :: back →
        (sequenceValue Terminal.once a part).Occurs := by
      intro part hsub
      exact occurs_sequenceValue fun u hu =>
        hoccurs u (Rule.mem_references_derivation.mpr (hsub hu))
    show (sequenceValue Terminal.once a (front ++ .var v :: back)).Repeats
    rw [sequenceValue_append, sequenceValue_cons]
    refine WordSum.Repeats.mul_left (hsymbols front (List.subset_append_left ..)) ?_
    refine WordSum.Repeats.mul_right hj (hsymbols back ?_)
    exact fun _ hs => List.mem_append_right _ (List.mem_cons_of_mem _ hs)
  | selection lhs alternatives => exact hj.mono (partOf_choiceValue hv)

/-- What is repeated in a variable that references lead to is repeated from the start on. -/
theorem WordSum.Repeats.of_reaches (hg : g.Valid) (ha : IsValuation Terminal.once g.rules a)
    {i : Nat} (hreach : g.Reaches [] i) (hi : (a i).Repeats) :
    (a g.start.id).Repeats := by
  unfold Grammar.Reaches at hreach
  induction hreach with
  | refl => exact hi
  | tail _ hstep ih =>
    rcases hstep with href | ⟨e, he, -⟩
    · exact ih (.of_refersTo hg ha href hi)
    · cases he

end Repeated

/-- If two chains of a reachable variable are alike, some word has two derivation trees. -/
theorem exists_two_le_treeCount (hg : g.Valid) {v : Variable} (hv : v.id ∈ ruleIds g.rules)
    (hreach : g.Reaches [] v.id) (h : ¬ g.Separated v.id) :
    ∃ w, 2 ≤ treeCount g g.start w := by
  obtain ⟨a, ha⟩ := hg.well_formed.exists_valuation Terminal.once
  have hstart : g.start.id ∈ ruleIds g.rules :=
    defines_iff_mem_ruleIds.mp hg.well_formed.start_defined
  obtain ⟨w, hw⟩ := ((repeats_of_not_separated hg ha hv h).of_reaches hg ha hreach).two_le_count
  rw [← treeCount_eq hg ha hstart] at hw
  exact ⟨w, hw⟩

end FluentGrammar
