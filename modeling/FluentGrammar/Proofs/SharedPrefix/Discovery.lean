import FluentGrammar.Proofs.Chain.Parting
import FluentGrammar.Proofs.Grammar.Reachability
import FluentGrammar.SharedPrefix.Factoring

/-! # What discovery finds

    In a valid grammar discovery fails only at a selection with two chains alike. When it
    finds nothing, no two chains of a reachable selection read the same terminal first; when
    it finds a shared prefix, its root is a reachable selection that at least two of its
    alternatives leave on the chains.
-/

namespace FluentGrammar

/-! ## Repeated heads -/

section Heads

theorem sharedTerminal_eq_none {heads : List Head} :
    sharedTerminal heads = none ↔ (heads.filterMap Head.terminal?).Nodup := by
  -- Heads without a terminal are skipped on both sides.
  induction heads with
  | nil => simp [sharedTerminal]
  | cons h rest ih =>
    cases h with
    | nothing => exact ih
    | sentinel => exact ih
    | terminal t =>
      have hmem : t ∈ rest.filterMap Head.terminal? ↔ .terminal t ∈ rest := by
        rw [List.mem_filterMap]
        constructor
        · intro hand
          obtain ⟨h, hh, ht⟩ := hand
          cases h with
          | nothing => cases ht
          | sentinel => cases ht
          | terminal u =>
            cases ht
            exact hh
        · intro ht
          exact ⟨_, ht, rfl⟩
      rw [sharedTerminal, List.filterMap_cons_some (f := Head.terminal?) rfl, List.nodup_cons,
        hmem]
      by_cases ht : .terminal t ∈ rest
      · simp [ht]
      · simp [ht, ih]

theorem two_le_count_of_sharedTerminal {heads : List Head} {t : Terminal}
    (h : sharedTerminal heads = some t) : 2 ≤ heads.count (.terminal t) := by
  induction heads with
  | nil => cases h
  | cons head rest ih =>
    cases head with
    | nothing => exact (ih h).trans (List.count_le_count_cons ..)
    | sentinel => exact (ih h).trans (List.count_le_count_cons ..)
    | terminal u =>
      rw [sharedTerminal] at h
      by_cases hu : rest.contains (.terminal u) = true
      · rw [if_pos hu] at h
        cases h
        have hpos : 0 < rest.count (.terminal t) :=
          List.count_pos_iff.mpr (List.contains_iff_mem.mp hu)
        rw [List.count_cons_self]
        omega
      · rw [if_neg hu] at h
        exact (ih h).trans (List.count_le_count_cons ..)

end Heads

/-! ## Looking at one selection -/

variable {g : Grammar} {detect : Bool} {v : Variable}

/-- A selection without a shared prefix has chains with pairwise different first terminals,
    and, if that is asked for, no two chains alike. -/
def Grammar.Unshared (g : Grammar) (detect : Bool) (v : Variable) : Prop :=
  (detect = true → firstAmbiguity v (g.readsOf v) = none) ∧
    ((g.readsOf v).filterMap (·.head.terminal?)).Nodup

theorem gather_eq_none {reads : List ReadChain} :
    gather v reads = none ↔ (reads.filterMap (·.head.terminal?)).Nodup := by
  unfold gather
  rw [Option.map_eq_none_iff, sharedTerminal_eq_none, List.filterMap_map]
  rfl

/-- Looking at a selection ends with the chains that share a terminal being narrowed. -/
def Grammar.narrowed (g : Grammar) :
    Option SharedPrefix → Except PassError (Option SharedPrefix)
  | none => return none
  | some p => return some (← p.narrow g)

theorem narrowed_eq_none {found : Option SharedPrefix} :
    g.narrowed found = .ok none ↔ found = none := by
  cases found with
  | none => exact ⟨fun _ => rfl, fun _ => rfl⟩
  | some p =>
    constructor
    · intro h
      obtain ⟨q, -, h⟩ := except_bind_eq_ok.mp h
      cases h
    · intro h
      cases h

theorem exists_of_narrowed_eq_some {found : Option SharedPrefix} {q : SharedPrefix}
    (h : g.narrowed found = .ok (some q)) : ∃ p, found = some p ∧ p.narrow g = .ok q := by
  cases found with
  | none => cases h
  | some p =>
    obtain ⟨q', hnarrow, h⟩ := except_bind_eq_ok.mp h
    cases h
    exact ⟨p, rfl, hnarrow⟩

theorem prefixAt_eq (hg : g.Valid) (hv : v.id ∈ ruleIds g.rules) :
    g.prefixAt detect v = (do
      if detect then
        match firstAmbiguity v (g.readsOf v) with
        | some shape => throw (.unsupported shape)
        | none => pure ()
      g.narrowed (gather v (g.readsOf v))) := by
  unfold Grammar.prefixAt Grammar.narrowed
  rw [readChains_eq_ok hg hv]
  rfl

theorem prefixAt_eq_ok (hg : g.Valid) (hv : v.id ∈ ruleIds g.rules)
    {found : Option SharedPrefix} (h : g.prefixAt detect v = .ok found) :
    (detect = true → firstAmbiguity v (g.readsOf v) = none) ∧
      g.narrowed (gather v (g.readsOf v)) = .ok found := by
  rw [prefixAt_eq hg hv] at h
  cases detect with
  | false => exact ⟨fun hdetect => absurd hdetect (by simp), h⟩
  | true =>
    simp only [if_true] at h
    cases hambiguity : firstAmbiguity v (g.readsOf v) with
    | none =>
      rw [hambiguity] at h
      exact ⟨fun _ => rfl, h⟩
    | some shape =>
      rw [hambiguity] at h
      cases h

theorem prefixAt_eq_none (hg : g.Valid) (hv : v.id ∈ ruleIds g.rules) :
    g.prefixAt detect v = .ok none ↔ g.Unshared detect v := by
  constructor
  · intro h
    obtain ⟨hambiguity, hfound⟩ := prefixAt_eq_ok hg hv h
    exact ⟨hambiguity, gather_eq_none.mp (narrowed_eq_none.mp hfound)⟩
  · intro hand
    obtain ⟨hambiguity, hheads⟩ := hand
    rw [prefixAt_eq hg hv, gather_eq_none.mpr hheads]
    cases detect with
    | false => rfl
    | true =>
      rw [hambiguity rfl]
      rfl

/-! ## Looking at all selections -/

theorem firstPrefix_eq_none {vars : List Variable} :
    g.firstPrefix detect vars = .ok none ↔ ∀ v ∈ vars, g.prefixAt detect v = .ok none := by
  induction vars with
  | nil => simp [Grammar.firstPrefix]
  | cons v rest ih =>
    rw [Grammar.firstPrefix, except_bind_eq_ok]
    constructor
    · intro h u hu
      obtain ⟨found, hfound, h⟩ := h
      cases found with
      | some p => cases h
      | none =>
        rcases List.mem_cons.mp hu with rfl | hu
        · exact hfound
        · exact ih.mp h u hu
    · intro h
      exact ⟨none, h v (List.mem_cons_self ..),
        ih.mpr fun u hu => h u (List.mem_cons_of_mem _ hu)⟩

theorem exists_of_firstPrefix {vars : List Variable} {p : SharedPrefix}
    (h : g.firstPrefix detect vars = .ok (some p)) :
    ∃ v ∈ vars, g.prefixAt detect v = .ok (some p) := by
  induction vars with
  | nil => cases h
  | cons v rest ih =>
    rw [Grammar.firstPrefix] at h
    obtain ⟨found, hfound, h⟩ := except_bind_eq_ok.mp h
    cases found with
    | some q =>
      cases h
      exact ⟨v, List.mem_cons_self .., hfound⟩
    | none =>
      obtain ⟨u, hu, h⟩ := ih h
      exact ⟨u, List.mem_cons_of_mem _ hu, h⟩

theorem mem_reachableSelections (hg : g.Valid) :
    v ∈ g.reachableSelections ↔
      ∃ alternatives, Rule.selection v alternatives ∈ g.rules ∧ g.Reaches [] v.id := by
  unfold Grammar.reachableSelections
  simp only [List.mem_filter, List.mem_map,
    Grammar.mem_reachable_iff hg.well_formed.nodup_ruleIds]
  constructor
  · intro hex
    obtain ⟨⟨r, ⟨hr, hselection⟩, hlhs⟩, hreach⟩ := hex
    cases r with
    | derivation lhs rhs => cases hselection
    | selection lhs alternatives =>
      obtain rfl : lhs = v := hlhs
      exact ⟨alternatives, hr, hreach⟩
  · intro hex
    obtain ⟨alternatives, hr, hreach⟩ := hex
    exact ⟨⟨_, ⟨hr, rfl⟩, rfl⟩, hreach⟩

/-- Discovery finds nothing in a grammar whose reachable selections share none. -/
theorem discover_eq_none (hg : g.Valid) :
    g.discover detect = .ok none ↔
      ∀ v alternatives, Rule.selection v alternatives ∈ g.rules → g.Reaches [] v.id →
        g.Unshared detect v := by
  unfold Grammar.discover
  rw [firstPrefix_eq_none]
  constructor
  · intro h v alternatives hr hreach
    have hv : v.id ∈ ruleIds g.rules := mem_ruleIds_of_mem hr
    exact (prefixAt_eq_none hg hv).mp
      (h v ((mem_reachableSelections hg).mpr ⟨alternatives, hr, hreach⟩))
  · intro h v hv
    obtain ⟨alternatives, hr, hreach⟩ := (mem_reachableSelections hg).mp hv
    have hid : v.id ∈ ruleIds g.rules := mem_ruleIds_of_mem hr
    exact (prefixAt_eq_none hg hid).mpr (h v alternatives hr hreach)

/-- Not asking for chains alike can only find less. -/
theorem discover_none_of_detect (hg : g.Valid) (h : g.discover detect = .ok none) :
    g.discover false = .ok none := by
  rw [discover_eq_none hg] at h ⊢
  intro v alternatives hr hreach
  exact ⟨fun hdetect => absurd hdetect (by simp), (h v alternatives hr hreach).2⟩

/-! ## Pruning -/

/-- Pruning does not touch the chains of the variables that are kept. -/
theorem readsOf_prune (hg : g.Valid) (extra : List Edge)
    (hv : v.id ∈ ruleIds (g.prune extra).1.rules) :
    (g.prune extra).1.readsOf v = g.readsOf v := by
  have hpruned := hg.prune extra
  -- Induction goes along the pruned rules: what they refer to is kept, and what was dropped never
  -- comes up.
  refine hpruned.rule_induction
    (P := fun v => (g.prune extra).1.readsOf v = g.readsOf v) ?_ v hv
  intro v r hrule ih
  have hrule' := hrule
  rw [Grammar.rule?_prune hg (mem_ruleIds_of_rule? hrule)] at hrule'
  rw [readsOf_eq hpruned hrule, readsOf_eq hg hrule']
  cases r with
  | derivation lhs rhs =>
    cases rhs with
    | nil => rfl
    | cons x rest =>
      cases x with
      | term t => rfl
      | var w =>
        rw [Grammar.readsBy, Grammar.readsBy,
          ih w (Rule.leading_mem_references lhs w rest)]
  | selection lhs alternatives =>
    have hsame : alternatives.map (g.prune extra).1.readsOf = alternatives.map g.readsOf :=
      List.map_congr_left ih
    rw [Grammar.readsBy, Grammar.readsBy, List.flatMap_def, List.flatMap_def, hsame]

/-- What discovery has found settled, pruning leaves settled. -/
theorem discover_prune (hg : g.Valid) (extra : List Edge)
    (h : g.discover detect = .ok none) : (g.prune extra).1.discover detect = .ok none := by
  rw [discover_eq_none hg] at h
  rw [discover_eq_none (hg.prune extra)]
  intro v alternatives hr hreach
  have hsub : (g.prune extra).1.rules.Sublist g.rules := Grammar.rules_prune_sublist
  -- A path in the pruned grammar is one in the grammar itself.
  have hreach' : g.Reaches [] v.id := by
    refine Relation.ReflTransGen.mono (fun i j hstep => ?_) _ _ hreach
    rcases hstep with ⟨q, hq, hqi, hj⟩ | ⟨e, he, -⟩
    · exact Or.inl ⟨q, hsub.subset hq, hqi, hj⟩
    · cases he
  have hid : v.id ∈ ruleIds (g.prune extra).1.rules := mem_ruleIds_of_mem hr
  unfold Grammar.Unshared
  rw [readsOf_prune hg extra hid]
  exact h v alternatives (hsub.subset hr) hreach'

/-! ## The root of a shared prefix -/

theorem foldl_min_spec {α : Type} (k : α → Nat) (xs : List α) (n : Nat) :
    (xs.foldl (fun n x => min n (k x)) n = n ∨
        ∃ x ∈ xs, xs.foldl (fun n x => min n (k x)) n = k x) ∧
      ∀ x ∈ xs, xs.foldl (fun n x => min n (k x)) n ≤ k x := by
  have hle : ∀ (xs : List α) n, xs.foldl (fun n x => min n (k x)) n ≤ n := by
    intro xs
    induction xs with
    | nil => exact fun n => Nat.le_refl n
    | cons x rest ih => exact fun n => (ih _).trans (Nat.min_le_left ..)
  induction xs generalizing n with
  | nil => exact ⟨Or.inl rfl, by simp⟩
  | cons x rest ih =>
    obtain ⟨hmem, hrest⟩ := ih (min n (k x))
    rw [List.foldl_cons]
    constructor
    · rcases hmem with hmem | ⟨y, hy, hmem⟩
      · rcases Nat.le_total n (k x) with hn | hn
        · exact Or.inl (hmem.trans (Nat.min_eq_left hn))
        · exact Or.inr ⟨x, List.mem_cons_self .., hmem.trans (Nat.min_eq_right hn)⟩
      · exact Or.inr ⟨y, List.mem_cons_of_mem _ hy, hmem⟩
    · intro y hy
      rcases List.mem_cons.mp hy with rfl | hy
      · exact (hle rest _).trans (Nat.min_le_right ..)
      · exact hrest y hy

/-- Among chains that all part from the first one, one parts from it where they all do. -/
theorem exists_part_sharedLength {first : Chain} {rest : List Chain} (hne : rest ≠ [])
    (hpart : ∀ c ∈ rest, ∃ k, Part g k first c) :
    ∃ c ∈ rest, Part g (sharedLength (first :: rest)) first c := by
  have hlengths : ∀ c ∈ rest, Part g (commonLength first.vars c.vars) first c := by
    intro c hc
    obtain ⟨k, hk⟩ := hpart c hc
    rw [hk.commonLength_eq]
    exact hk
  obtain ⟨hmem, hle⟩ := foldl_min_spec (fun c => commonLength first.vars c.vars) rest
    first.length
  rcases hmem with hmem | ⟨c, hc, hmem⟩
  · -- The whole first chain is not shared, since the others part from it.
    obtain ⟨c, hc⟩ := List.exists_mem_of_ne_nil rest hne
    have hlt := (hlengths c hc).lt_length.1
    have := hle c hc
    omega
  · refine ⟨c, hc, ?_⟩
    show Part g (rest.foldl _ _) first c
    rw [hmem]
    exact hlengths c hc

theorem mem_neighbours_cons (v : Variable) (c : Chain) :
    (v, c.root) ∈ neighbours (Chain.cons v c).vars :=
  List.mem_cons_self ..

/-- Two or more different chains of a variable share what the first one shares with some
    other one. -/
theorem exists_part_of_two (hg : g.Valid) (hv : v.id ∈ ruleIds g.rules)
    {kept : List ReadChain} (hsub : ∀ c ∈ kept, c ∈ g.readsOf v)
    (hnodup : (kept.map (·.chain)).Nodup) (htwo : 2 ≤ kept.length) :
    ∃ first rest n, kept = first :: rest ∧ sharedLength (kept.map (·.chain)) = n + 1 ∧
      ∃ c ∈ rest, Part g (n + 1) first.chain c.chain := by
  match kept with
  | [] => exact absurd htwo (by simp)
  | [_] => exact absurd htwo (by simp)
  | first :: second :: more =>
    rw [List.map_cons, List.nodup_cons] at hnodup
    -- Different chains of one variable part somewhere.
    have hpart : ∀ c ∈ (second :: more).map (·.chain), ∃ k, Part g k first.chain c := by
      intro c hc
      have hne : first.chain ≠ c := fun heq => hnodup.1 (heq ▸ hc)
      obtain ⟨d, hd, rfl⟩ := List.mem_map.mp hc
      exact exists_part hg hv (hsub first (List.mem_cons_self ..))
        (hsub d (List.mem_cons_of_mem _ hd)) hne
    obtain ⟨c, hc, hk⟩ := exists_part_sharedLength (by simp) hpart
    obtain ⟨d, hd, rfl⟩ := List.mem_map.mp hc
    have hpos := hk.pos
    have hshared : sharedLength (first.chain :: (second :: more).map (·.chain)) =
        sharedLength (first.chain :: (second :: more).map (·.chain)) - 1 + 1 := by
      omega
    exact ⟨first, second :: more, _, rfl, hshared, d, hd, hshared ▸ hk⟩

theorem mem_targetsFrom {edges : List Edge} {v w : Variable} :
    w ∈ targetsFrom edges v ↔ ∃ u, (u, w) ∈ edges ∧ u.id = v.id := by
  simp only [targetsFrom, List.mem_map, List.mem_filter, Variable.beq_iff]
  constructor
  · intro hex
    obtain ⟨⟨u, w'⟩, ⟨hedge, hu⟩, rfl⟩ := hex
    exact ⟨u, hedge, hu⟩
  · intro hex
    obtain ⟨u, hedge, hu⟩ := hex
    exact ⟨(u, w), ⟨hedge, hu⟩, rfl⟩

theorem mem_targetsFrom_neighbours {chains : List Chain} {v : Variable} {c : Chain}
    (hc : Chain.cons v c ∈ chains) :
    c.root ∈ targetsFrom (chains.flatMap (fun c => neighbours c.vars)) v :=
  mem_targetsFrom.mpr ⟨v, List.mem_flatMap.mpr ⟨_, hc, mem_neighbours_cons v c⟩, rfl⟩

/-- The chains of a variable that read the first shared terminal: the first one of them, the
    others, and the number of variables that they share behind the root. -/
structure SharedPrefix.Gathered (g : Grammar) (v : Variable) (first : ReadChain)
    (rest : List ReadChain) (n : Nat) (p : SharedPrefix) : Prop where
  root_eq : p.root = v
  chains_eq : p.chains = (first :: rest).map (·.chain)
  listed : ∀ c ∈ first :: rest, c ∈ g.readsOf v ∧ c.head = .terminal p.symbol
  shared : sharedLength p.chains = n + 1
  part : ∃ c ∈ rest, Part g (n + 1) first.chain c.chain

/-- At least two chains are gathered. They are different, so they part somewhere. -/
theorem exists_gathered (hg : g.Valid) (hv : v.id ∈ ruleIds g.rules) {p : SharedPrefix}
    (h : gather v (g.readsOf v) = some p) : ∃ first rest n, p.Gathered g v first rest n := by
  obtain ⟨t, ht, rfl⟩ := Option.map_eq_some_iff.mp h
  have htwo := two_le_count_of_sharedTerminal ht
  rw [List.count_eq_length_filter, List.filter_map, List.length_map] at htwo
  have hlisted : ∀ c ∈ (g.readsOf v).filter (fun c => c.head == .terminal t),
      c ∈ g.readsOf v ∧ c.head = .terminal t := by
    intro c hc
    rw [List.mem_filter, beq_iff_eq] at hc
    exact hc
  have hnodup := ((List.filter_sublist (p := fun c : ReadChain => c.head == .terminal t)).map
    (·.chain)).nodup (nodup_chains hg hv)
  obtain ⟨first, rest, n, hkept, hshared, hpart⟩ :=
    exists_part_of_two hg hv (fun c hc => (hlisted c hc).1) hnodup htwo
  rw [hkept] at hlisted
  exact ⟨first, rest, n, rfl, congrArg (List.map (·.chain)) hkept, hlisted, hshared, hpart⟩

section Gathered

variable {first : ReadChain} {rest : List ReadChain} {n : Nat} {p : SharedPrefix}

/-- Narrowing drops all but one of the variables that the chains share. It never fails,
    because chains part at selections only. -/
theorem SharedPrefix.Gathered.narrow_eq (h : p.Gathered g v first rest n) (hg : g.Valid)
    (hv : v.id ∈ ruleIds g.rules) :
    p.narrow g =
      .ok ⟨p.symbol, (first.chain.dropFront n).root, p.chains.map (·.dropFront n)⟩ := by
  have hroot : first.chain.root = p.root := by
    rw [h.root_eq]
    exact root_of_mem_readsOf hg hv (h.listed first (List.mem_cons_self ..)).1
  unfold SharedPrefix.narrow
  rw [h.shared]
  cases n with
  | zero =>
    -- The chains share the root alone, which stays the root.
    have hsame : (fun c : Chain => c.dropFront 0) = id := rfl
    rw [hsame, List.map_id, show (first.chain.dropFront 0).root = p.root from hroot]
    rfl
  | succ n =>
    obtain ⟨c, -, hpart⟩ := h.part
    obtain ⟨pivot, lhs, choices, c', d', hrule, hc', -⟩ := hpart.dropFront
    have hpivot : g.requireRule (first.chain.dropFront (n + 1)).root =
        .ok (.selection lhs choices) := by
      rw [Grammar.requireRule_eq_ok, hc']
      exact hrule
    simp only [if_neg (show ¬ n + 1 + 1 < 2 by omega), Nat.add_sub_cancel]
    rw [h.chains_eq]
    show (g.requireRule (first.chain.dropFront (n + 1)).root >>= _) = _
    rw [hpivot]
    rfl

end Gathered

/-- Narrowing never fails on chains that have been gathered. -/
theorem narrowed_ne_error (hg : g.Valid) (hv : v.id ∈ ruleIds g.rules) (e : PassError) :
    g.narrowed (gather v (g.readsOf v)) ≠ .error e := by
  cases hgather : gather v (g.readsOf v) with
  | none => exact fun hnone => nomatch hnone
  | some p =>
    obtain ⟨first, rest, n, hp⟩ := exists_gathered hg hv hgather
    rw [Grammar.narrowed, hp.narrow_eq hg hv]
    exact fun herror => nomatch herror

/-- Looking at a selection fails only if two of its chains are alike. -/
theorem prefixAt_eq_error (hg : g.Valid) (hv : v.id ∈ ruleIds g.rules) {e : PassError}
    (h : g.prefixAt detect v = .error e) :
    ∃ shape, firstAmbiguity v (g.readsOf v) = some shape ∧ e = .unsupported shape := by
  have hnarrowed := narrowed_ne_error hg hv e
  rw [prefixAt_eq hg hv] at h
  cases detect with
  | false => exact absurd h hnarrowed
  | true =>
    simp only [if_true] at h
    cases hambiguity : firstAmbiguity v (g.readsOf v) with
    | none =>
      rw [hambiguity] at h
      exact absurd h hnarrowed
    | some shape =>
      rw [hambiguity] at h
      cases h
      exact ⟨shape, rfl, rfl⟩

theorem exists_of_firstPrefix_error {vars : List Variable} {e : PassError}
    (h : g.firstPrefix detect vars = .error e) :
    ∃ v ∈ vars, g.prefixAt detect v = .error e := by
  induction vars with
  | nil => cases h
  | cons v rest ih =>
    rw [Grammar.firstPrefix] at h
    rcases except_bind_eq_error.mp h with h | ⟨found, -, h⟩
    · exact ⟨v, List.mem_cons_self .., h⟩
    · cases found with
      | some p => cases h
      | none =>
        obtain ⟨u, hu, h⟩ := ih h
        exact ⟨u, List.mem_cons_of_mem _ hu, h⟩

/-- Discovery fails only at a reachable selection with two chains alike. -/
theorem exists_of_discover_error (hg : g.Valid) {e : PassError}
    (h : g.discover detect = .error e) :
    ∃ v shape, v.id ∈ ruleIds g.rules ∧ g.Reaches [] v.id ∧
      firstAmbiguity v (g.readsOf v) = some shape ∧ e = .unsupported shape := by
  obtain ⟨v, hv, h⟩ := exists_of_firstPrefix_error h
  obtain ⟨alternatives, hr, hreach⟩ := (mem_reachableSelections hg).mp hv
  have hid : v.id ∈ ruleIds g.rules := mem_ruleIds_of_mem hr
  obtain ⟨shape, hambiguity, he⟩ := prefixAt_eq_error hg hid h
  exact ⟨v, shape, hid, hreach, hambiguity, he⟩

/-- Where a shared prefix is discovered, its chains have been gathered at a reachable
    selection, in which no two chains are alike if that is asked for. -/
theorem exists_gathered_of_discover (hg : g.Valid) {q : SharedPrefix}
    (h : g.discover detect = .ok (some q)) :
    ∃ (v : Variable) (p : SharedPrefix) (first : ReadChain) (rest : List ReadChain) (n : Nat),
      (∃ alternatives, Rule.selection v alternatives ∈ g.rules) ∧ g.Reaches [] v.id ∧
      (detect = true → firstAmbiguity v (g.readsOf v) = none) ∧
        p.Gathered g v first rest n ∧
          q = ⟨p.symbol, (first.chain.dropFront n).root, p.chains.map (·.dropFront n)⟩ := by
  obtain ⟨v, hv, h⟩ := exists_of_firstPrefix h
  obtain ⟨alternatives, hr, hreach⟩ := (mem_reachableSelections hg).mp hv
  have hid : v.id ∈ ruleIds g.rules := mem_ruleIds_of_mem hr
  obtain ⟨hambiguity, h⟩ := prefixAt_eq_ok hg hid h
  obtain ⟨p, hgather, hnarrow⟩ := exists_of_narrowed_eq_some h
  obtain ⟨first, rest, n, hgathered⟩ := exists_gathered hg hid hgather
  rw [hgathered.narrow_eq hg hid] at hnarrow
  cases hnarrow
  exact ⟨v, p, first, rest, n, ⟨alternatives, hr⟩, hreach, hambiguity, hgathered, rfl⟩

/-- What is known of a shared prefix that is to be factored out. -/
structure SharedPrefix.Forks (g : Grammar) (p : SharedPrefix) : Prop where
  symbol_ne : p.symbol ≠ .empty
  symbol_read : ∃ r ∈ g.rules, p.symbol ∈ r.terminals
  occurs : p.root ∈ g.occurrences
  reached : g.Reaches [] p.root.id
  fork : ∃ lhs alternatives u w, g.rule? p.root = some (.selection lhs alternatives) ∧
    u ∈ alternatives ∧ w ∈ alternatives ∧ u.id ≠ w.id ∧
      u ∈ targetsFrom (p.chains.flatMap (fun c => neighbours c.vars)) p.root ∧
        w ∈ targetsFrom (p.chains.flatMap (fun c => neighbours c.vars)) p.root
  leads : ∀ c ∈ p.chains, LeadsTo g p.symbol c.vars

theorem SharedPrefix.Forks.of_discover (hg : g.Valid) {p : SharedPrefix}
    (h : g.discover detect = .ok (some p)) : p.Forks g := by
  obtain ⟨v, q, first, rest, n, ⟨alternatives, hr⟩, hreach, -, hq, rfl⟩ :=
    exists_gathered_of_discover hg h
  have hv : v.id ∈ ruleIds g.rules := mem_ruleIds_of_mem hr
  obtain ⟨hfirst, hhead⟩ := hq.listed first (List.mem_cons_self ..)
  -- The chains of the prefix are the gathered ones without what they share at the front.
  have hchains : ∀ d ∈ first :: rest, d.chain.dropFront n ∈ q.chains.map (·.dropFront n) := by
    intro d hd
    rw [hq.chains_eq]
    exact List.mem_map_of_mem (List.mem_map_of_mem hd)
  constructor
  · exact ne_empty_of_head hg hv hfirst hhead
  · exact (leadsTo_of_mem_readsOf hg hv hfirst hhead).exists_terminal
  · exact occurs_of_mem_vars hg hv (Grammar.lhs_mem_occurrences hr) hfirst _
      (root_dropFront_mem first.chain n)
  · have hpath := reaches_of_mem_vars hg hv hfirst _ (root_dropFront_mem first.chain n)
    exact hreach.of_refersTo hpath
  · -- Narrowing has moved the root to where the first chain and some other one part.
    obtain ⟨c, hc, hpart⟩ := hq.part
    obtain ⟨pivot, lhs, choices, c', d', hrule, hc', hd', hcmem, hdmem, hne⟩ :=
      hpart.dropFront
    have hcin := hchains first (List.mem_cons_self ..)
    have hdin := hchains c (List.mem_cons_of_mem _ hc)
    rw [hc'] at hcin
    rw [hd'] at hdin
    rw [hc']
    exact ⟨lhs, choices, c'.root, d'.root, hrule, hcmem, hdmem, hne,
      mem_targetsFrom_neighbours hcin, mem_targetsFrom_neighbours hdin⟩
  · intro d hd
    simp only [hq.chains_eq, List.map_map] at hd
    obtain ⟨c, hc, rfl⟩ := List.mem_map.mp hd
    obtain ⟨hcv, hhead⟩ := hq.listed c hc
    exact (leadsTo_of_mem_readsOf hg hv hcv hhead).dropFront n

end FluentGrammar
