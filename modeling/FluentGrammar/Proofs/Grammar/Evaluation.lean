import FluentGrammar.Grammar.Evaluation
import FluentGrammar.Proofs.Grammar.Reachability
import Mathlib.Data.Finset.Max

/-! # Evaluation of a valid grammar

    In a valid grammar every rule is placed behind the rules that it refers to, so a quantity
    that is defined out of the values of the references is computed for every variable that
    the start variable leads to, and for the start variable itself.
-/

namespace FluentGrammar

/-! ## The order of dependency -/

/-- Each rule refers only to rules in front of it, and to variables in `seen`. -/
def BehindReferences (seen : List Nat) : List Rule → Prop
  | [] => True
  | r :: rest =>
    (∀ v ∈ r.references, v.id ∈ seen) ∧ BehindReferences (r.lhs.id :: seen) rest

/-- Rules that refer only to what is there can be put behind rules in order. -/
theorem BehindReferences.append {seen : List Nat} {rules ready : List Rule}
    (h : BehindReferences seen rules)
    (hready : ∀ r ∈ ready, ∀ v ∈ r.references, v.id ∈ seen ∨ v.id ∈ ruleIds rules) :
    BehindReferences seen (rules ++ ready) := by
  -- What has been seen grows along the rules, so it holds all of their variables when the new
  -- ones begin.
  induction rules generalizing seen with
  | nil =>
    rw [List.nil_append]
    induction ready generalizing seen with
    | nil => trivial
    | cons r rest ih =>
      refine ⟨fun v hv => ?_, ih trivial ?_⟩
      · rcases hready r (List.mem_cons_self ..) v hv with hv | hv
        · exact hv
        · cases hv
      · intro q hq v hv
        rcases hready q (List.mem_cons_of_mem _ hq) v hv with hv | hv
        · exact Or.inl (List.mem_cons_of_mem _ hv)
        · cases hv
  | cons r rest ih =>
    refine ⟨h.1, ih h.2 ?_⟩
    intro q hq v hv
    rcases hready q hq v hv with hv | hv
    · exact Or.inl (List.mem_cons_of_mem _ hv)
    · rw [show ruleIds (r :: rest) = r.lhs.id :: ruleIds rest from rfl, List.mem_cons] at hv
      rcases hv with hv | hv
      · exact Or.inl (hv ▸ List.mem_cons_self ..)
      · exact Or.inr hv

/-- Among pending rules that refer to placed ones and to each other, one is ready. -/
theorem exists_ready {placed pending : List Rule} {height : Nat → Nat}
    (hne : pending ≠ [])
    (hclosed : ∀ r ∈ pending, ∀ v ∈ r.references, v.id ∈ ruleIds placed ∨ v.id ∈ ruleIds pending)
    (hheight : ∀ r ∈ pending, ∀ v ∈ r.references, height v.id < height r.lhs.id) :
    ∃ r ∈ pending, ∀ v ∈ r.references, v.id ∈ ruleIds placed := by
  -- A pending rule of least height refers to placed rules only.
  obtain ⟨r, hr, hmin⟩ := pending.toFinset.exists_min_image (fun r => height r.lhs.id)
    (List.toFinset_nonempty_iff _ |>.mpr hne)
  rw [List.mem_toFinset] at hr
  refine ⟨r, hr, fun v hv => ?_⟩
  rcases hclosed r hr v hv with hplaced | hpending
  · exact hplaced
  · obtain ⟨q, hq, hqv⟩ := mem_ruleIds.mp hpending
    have hlt := hheight r hr v hv
    have hle := hmin q (List.mem_toFinset.mpr hq)
    rw [hqv] at hle
    omega

/-- Whether all references of a rule have placed rules. -/
def Rule.isReady (placed : List Rule) (r : Rule) : Bool :=
  r.references.all (fun v => placed.any (fun s => s.lhs == v))

theorem Rule.isReady_iff {placed : List Rule} {r : Rule} :
    r.isReady placed = true ↔ ∀ v ∈ r.references, v.id ∈ ruleIds placed := by
  simp only [isReady, List.all_eq_true, any_lhs_iff]

theorem placeRules_succ {rounds : Nat} {placed pending : List Rule} :
    placeRules (rounds + 1) placed pending =
      if (pending.filter (Rule.isReady placed)).isEmpty then placed
      else placeRules rounds (placed ++ pending.filter (Rule.isReady placed))
        (pending.filter (not ∘ Rule.isReady placed)) := by
  rw [placeRules, List.partition_eq_filter_filter]
  rfl

/-- A reference to a pending rule is placed or still pending when the ready rules have been
    placed. -/
theorem mem_ruleIds_of_pending {placed pending : List Rule} {i : Nat}
    (h : i ∈ ruleIds placed ∨ i ∈ ruleIds pending) :
    i ∈ ruleIds (placed ++ pending.filter (Rule.isReady placed)) ∨
      i ∈ ruleIds (pending.filter (not ∘ Rule.isReady placed)) := by
  rw [show ruleIds (placed ++ _) = ruleIds placed ++ ruleIds _ from List.map_append,
    List.mem_append]
  rcases h with h | h
  · exact Or.inl (Or.inl h)
  · obtain ⟨q, hq, hqi⟩ := mem_ruleIds.mp h
    by_cases hready : q.isReady placed = true
    · exact Or.inl (Or.inr (mem_ruleIds.mpr ⟨q, List.mem_filter.mpr ⟨hq, hready⟩, hqi⟩))
    · refine Or.inr (mem_ruleIds.mpr ⟨q, List.mem_filter.mpr ⟨hq, ?_⟩, hqi⟩)
      simpa using hready

/-- When references lead to lower rules, all pending rules are placed, and in order. -/
theorem placeRules_spec (height : Nat → Nat) (rounds : Nat) (placed pending : List Rule)
    (hrounds : pending.length ≤ rounds) (hplaced : BehindReferences [] placed)
    (hclosed : ∀ r ∈ pending, ∀ v ∈ r.references, v.id ∈ ruleIds placed ∨ v.id ∈ ruleIds pending)
    (hheight : ∀ r ∈ pending, ∀ v ∈ r.references, height v.id < height r.lhs.id) :
    BehindReferences [] (placeRules rounds placed pending) ∧
      ∀ r, r ∈ placeRules rounds placed pending ↔ r ∈ placed ∨ r ∈ pending := by
  induction rounds generalizing placed pending with
  | zero =>
    -- There are as many rounds as pending rules, so none is pending.
    obtain rfl := List.length_eq_zero_iff.mp (Nat.le_zero.mp hrounds)
    exact ⟨hplaced, fun r => by simp [placeRules]⟩
  | succ rounds ih =>
    rw [placeRules_succ]
    by_cases hnone : (pending.filter (Rule.isReady placed)).isEmpty = true
    · -- The order gets stuck only when nothing is pending.
      rw [if_pos hnone]
      rw [List.isEmpty_iff, List.filter_eq_nil_iff] at hnone
      by_cases hpending : pending = []
      · exact ⟨hplaced, fun r => by simp [hpending]⟩
      · obtain ⟨r, hr, hrefs⟩ := exists_ready hpending hclosed hheight
        exact absurd (Rule.isReady_iff.mpr hrefs) (hnone r hr)
    · rw [if_neg hnone]
      have hpos : 0 < (pending.filter (Rule.isReady placed)).length := by
        rw [List.isEmpty_iff] at hnone
        exact List.length_pos_iff.mpr hnone
      have hlength := List.length_eq_length_filter_add (l := pending) (Rule.isReady placed)
      have hlater : ∀ r ∈ pending.filter (not ∘ Rule.isReady placed), r ∈ pending :=
        fun r hr => List.mem_of_mem_filter hr
      have hfewer : (pending.filter (not ∘ Rule.isReady placed)).length ≤ rounds := by
        have hsame : (pending.filter (not ∘ Rule.isReady placed)).length =
            (pending.filter (fun r => !r.isReady placed)).length := rfl
        omega
      obtain ⟨hordered, hall⟩ := ih _ _ hfewer
        (hplaced.append fun r hr v hv =>
          Or.inr (Rule.isReady_iff.mp (List.mem_filter.mp hr).2 v hv))
        (fun r hr v hv => mem_ruleIds_of_pending (hclosed r (hlater r hr) v hv))
        (fun r hr => hheight r (hlater r hr))
      refine ⟨hordered, fun r => ?_⟩
      rw [hall, List.mem_append, or_assoc, List.mem_filter, List.mem_filter]
      by_cases hready : r.isReady placed = true <;> simp [hready]

/-! ## Tables -/

/-- A step evaluates all references of a rule at once. -/
theorem exists_mapM {α β : Type} {f : α → Option β} {P : α → β → Prop} {xs : List α}
    (h : ∀ x ∈ xs, ∃ y, f x = some y ∧ P x y) :
    ∃ ys, xs.mapM f = some ys ∧ List.Forall₂ P xs ys := by
  induction xs with
  | nil => exact ⟨[], rfl, .nil⟩
  | cons x rest ih =>
    obtain ⟨y, hy, hP⟩ := h x (List.mem_cons_self ..)
    obtain ⟨ys, hys, hrest⟩ := ih fun x hx => h x (List.mem_cons_of_mem _ hx)
    refine ⟨y :: ys, ?_, .cons hP hrest⟩
    rw [List.mapM_cons, hy, hys]
    rfl

section Tables

variable {α : Type} {step : (Variable → Option α) → Rule → Option α} {R : Nat → α → Prop}

/-- A table in which all values are right, with a value for every variable in `seen`. -/
structure Tabulated (R : Nat → α → Prop) (seen : List Nat) (table : ValueTable α) : Prop where
  right : ∀ entry ∈ table, R entry.1.id entry.2
  known : ∀ i ∈ seen, ∃ entry ∈ table, entry.1.id = i

theorem tabulated_nil (R : Nat → α → Prop) : Tabulated R [] [] :=
  ⟨fun _ h => absurd h List.not_mem_nil, fun _ h => absurd h List.not_mem_nil⟩

theorem Tabulated.value? {seen : List Nat} {table : ValueTable α}
    (h : Tabulated R seen table) {v : Variable} (hv : v.id ∈ seen) :
    ∃ x, table.value? v = some x ∧ R v.id x := by
  obtain ⟨entry, hentry, hid⟩ := h.known v.id hv
  unfold ValueTable.value?
  cases hfind : table.find? (fun entry => entry.1 == v) with
  | none =>
    rw [List.find?_eq_none] at hfind
    exact absurd (Variable.beq_iff.mpr hid) (hfind entry hentry)
  | some found =>
    have hfound := h.right found (List.mem_of_find?_eq_some hfind)
    have hid' : (found.1 == v) = true := by simpa using List.find?_some hfind
    rw [Variable.beq_iff.mp hid'] at hfound
    exact ⟨found.2, rfl, hfound⟩

/-- A table stays right with a right value for one more variable. -/
theorem Tabulated.cons {seen : List Nat} {table : ValueTable α} (h : Tabulated R seen table)
    {v : Variable} {y : α} (hy : R v.id y) : Tabulated R (v.id :: seen) ((v, y) :: table) := by
  constructor
  · intro entry hentry
    rcases List.mem_cons.mp hentry with rfl | hentry
    · exact hy
    · exact h.right entry hentry
  · intro i hi
    rcases List.mem_cons.mp hi with rfl | hi
    · exact ⟨_, List.mem_cons_self .., rfl⟩
    · obtain ⟨entry, hentry, hid⟩ := h.known i hi
      exact ⟨entry, List.mem_cons_of_mem _ hentry, hid⟩

theorem Tabulated.of_perm {seen seen' : List Nat} {table : ValueTable α}
    (h : Tabulated R seen table) (hperm : seen.Perm seen') : Tabulated R seen' table :=
  ⟨h.right, fun i hi => h.known i (hperm.mem_iff.mpr hi)⟩

/-- Rules in order give a table, if each gives a right value out of right values. -/
theorem exists_tabulated {rules : List Rule} {seen : List Nat} {table : ValueTable α}
    (htable : Tabulated R seen table) (hordered : BehindReferences seen rules)
    (hstep : ∀ r ∈ rules, ∀ value : Variable → Option α,
      (∀ v ∈ r.references, ∃ x, value v = some x ∧ R v.id x) →
        ∃ y, step value r = some y ∧ R r.lhs.id y) :
    ∃ table', rules.foldlM (fun table r => do
        let value ← step table.value? r
        return (r.lhs, value) :: table) table = some table' ∧
      Tabulated R (ruleIds rules ++ seen) table' := by
  induction rules generalizing seen table with
  | nil => exact ⟨table, rfl, htable⟩
  | cons r rest ih =>
    obtain ⟨y, hy, hR⟩ := hstep r (List.mem_cons_self ..) table.value?
      fun v hv => htable.value? (hordered.1 v hv)
    -- The table is right with the new entry, so the next rule finds its references in it.
    obtain ⟨table', hrun, htable'⟩ := ih (htable.cons hR) hordered.2
      fun q hq => hstep q (List.mem_cons_of_mem _ hq)
    refine ⟨table', ?_, htable'.of_perm List.perm_middle⟩
    rw [List.foldlM_cons, hy]
    exact hrun

/-- The table that rules in order give is right, if each gives nothing but right values out of
    right values. -/
theorem Tabulated.of_foldlM {rules : List Rule} {seen : List Nat} {table table' : ValueTable α}
    (htable : Tabulated R seen table) (hordered : BehindReferences seen rules)
    (hstep : ∀ r ∈ rules, ∀ value : Variable → Option α, ∀ y,
      (∀ v ∈ r.references, ∃ x, value v = some x ∧ R v.id x) →
        step value r = some y → R r.lhs.id y)
    (hrun : rules.foldlM (fun table r => do
        let value ← step table.value? r
        return (r.lhs, value) :: table) table = some table') :
    Tabulated R (ruleIds rules ++ seen) table' := by
  induction rules generalizing seen table with
  | nil =>
    cases hrun
    exact htable
  | cons r rest ih =>
    rw [List.foldlM_cons] at hrun
    cases hy : step table.value? r with
    | none =>
      rw [hy] at hrun
      cases hrun
    | some y =>
      rw [hy] at hrun
      -- The references of the rule stand in the table, with right values.
      have hR := hstep r (List.mem_cons_self ..) table.value? y
        (fun v hv => htable.value? (hordered.1 v hv)) hy
      exact (ih (htable.cons hR) hordered.2 (fun q hq => hstep q (List.mem_cons_of_mem _ hq))
        hrun).of_perm List.perm_middle

/-- A step that succeeds with the same value wherever another one does gives the same table. -/
theorem tabulate_mono {step' : (Variable → Option α) → Rule → Option α}
    (hstep : ∀ value r y, step value r = some y → step' value r = some y) {rules : List Rule}
    {table : ValueTable α} (h : tabulate step rules = some table) :
    tabulate step' rules = some table := by
  unfold tabulate at h ⊢
  generalize ([] : ValueTable α) = front at h ⊢
  induction rules generalizing front with
  | nil => exact h
  | cons r rest ih =>
    rw [List.foldlM_cons] at h ⊢
    cases hy : step (ValueTable.value? front) r with
    | none =>
      rw [hy] at h
      cases h
    | some y =>
      rw [hy] at h
      rw [hstep _ _ _ hy]
      exact ih _ h

theorem ValueTable.value?_map {β : Type} (f : α → β) (table : ValueTable α) (v : Variable) :
    ValueTable.value? (table.map (Prod.map id f)) v = (table.value? v).map f := by
  unfold value?
  rw [List.find?_map, Option.map_map, Option.map_map]
  rfl

/-- Where a function of all values turns one step into another one, it turns the table of the
    first step into that of the second. -/
theorem tabulate_map {β : Type} (f : α → β) {step' : (Variable → Option β) → Rule → Option β}
    (hstep : ∀ value r, (step value r).map f = step' (fun v => (value v).map f) r)
    (rules : List Rule) :
    (tabulate step rules).map (List.map (Prod.map id f)) = tabulate step' rules := by
  have hgo : ∀ table : ValueTable α,
      (rules.foldlM (fun (table : ValueTable α) r => do
          let value ← step table.value? r
          return (r.lhs, value) :: table) table).map (List.map (Prod.map id f)) =
        rules.foldlM (fun (table : ValueTable β) r => do
          let value ← step' table.value? r
          return (r.lhs, value) :: table) (table.map (Prod.map id f)) := by
    induction rules with
    | nil => exact fun _ => rfl
    | cons r rest ih =>
      intro table
      rw [List.foldlM_cons, List.foldlM_cons, funext (table.value?_map f), ← hstep]
      cases step table.value? r with
      | none => rfl
      | some y => exact ih ((r.lhs, y) :: table)
  exact hgo []

end Tables

/-! ## The value of the start variable -/

section Start

variable {g : Grammar} {α : Type} {step : (Variable → Option α) → Rule → Option α}
  {R : Nat → α → Prop}

theorem mem_liveRules (hg : g.Valid) {r : Rule} :
    r ∈ g.liveRules ↔ r ∈ g.rules ∧ g.Reaches [] r.lhs.id := by
  unfold Grammar.liveRules
  rw [List.mem_filter, Grammar.mem_reachable_iff hg.well_formed.nodup_ruleIds]

theorem mem_ruleIds_liveRules (hg : g.Valid) {i : Nat} :
    i ∈ ruleIds g.liveRules ↔ g.Reaches [] i := by
  constructor
  · intro hi
    obtain ⟨r, hr, rfl⟩ := mem_ruleIds.mp hi
    exact ((mem_liveRules hg).mp hr).2
  · intro hreach
    have hi : i ∈ ruleIds g.rules := by
      unfold Grammar.Reaches at hreach
      rcases Relation.ReflTransGen.cases_tail hreach with rfl | ⟨j, -, hstep⟩
      · exact hg.start_mem
      · rcases hstep with href | ⟨e, he, -⟩
        · exact hg.well_formed.mem_of_refersTo href
        · cases he
    obtain ⟨r, hr, rfl⟩ := mem_ruleIds.mp hi
    exact mem_ruleIds_of_mem ((mem_liveRules hg).mpr ⟨hr, hreach⟩)

/-- The live rules of a valid grammar are all placed behind those that they refer to. -/
theorem dependencyOrder_liveRules (hg : g.Valid) :
    BehindReferences [] (dependencyOrder g.liveRules) ∧
      ∀ r, r ∈ dependencyOrder g.liveRules ↔ r ∈ g.liveRules := by
  -- What is live refers to what is live.
  have hclosed : ∀ r ∈ g.liveRules, ∀ v ∈ r.references, v.id ∈ ruleIds g.liveRules := by
    intro r hr v hv
    obtain ⟨hr, hreach⟩ := (mem_liveRules hg).mp hr
    exact (mem_ruleIds_liveRules hg).mpr (.tail hreach (Or.inl (refersTo_of_mem hr hv)))
  obtain ⟨hordered, hmem⟩ := placeRules_spec (rank g.rules) g.liveRules.length []
    g.liveRules (Nat.le_refl _) trivial (fun r hr v hv => Or.inr (hclosed r hr v hv)) (by
      intro r hr v hv
      exact hg.well_formed.rank_lt (refersTo_of_mem ((mem_liveRules hg).mp hr).1 hv))
  exact ⟨hordered, fun r => (hmem r).trans (or_iff_right List.not_mem_nil)⟩

theorem mem_ruleIds_dependencyOrder (hg : g.Valid) {i : Nat} (hi : g.Reaches [] i) :
    i ∈ ruleIds (dependencyOrder g.liveRules) := by
  obtain ⟨r, hr, hid⟩ := mem_ruleIds.mp ((mem_ruleIds_liveRules hg).mpr hi)
  exact mem_ruleIds.mpr ⟨r, ((dependencyOrder_liveRules hg).2 r).mpr hr, hid⟩

/-- The start variable of a valid grammar has a value, and it is right if the rule of every
    reachable variable gives a right value out of right values. -/
theorem evaluate_of_reached (hg : g.Valid)
    (hstep : ∀ r ∈ g.rules, g.Reaches [] r.lhs.id → ∀ value : Variable → Option α,
      (∀ v ∈ r.references, ∃ x, value v = some x ∧ R v.id x) →
        ∃ y, step value r = some y ∧ R r.lhs.id y) :
    ∃ x, g.evaluate step = some x ∧ R g.start.id x := by
  obtain ⟨hordered, hmem⟩ := dependencyOrder_liveRules hg
  obtain ⟨table, htable, hvalues⟩ := exists_tabulated (tabulated_nil R) hordered (by
      intro r hr
      obtain ⟨hr, hreach⟩ := (mem_liveRules hg).mp ((hmem r).mp hr)
      exact hstep r hr hreach)
  obtain ⟨x, hx, hR⟩ :=
    hvalues.value? (List.mem_append_left _ (mem_ruleIds_dependencyOrder hg .refl))
  exact ⟨x, Option.bind_eq_some_iff.mpr ⟨table, htable, hx⟩, hR⟩

/-- The start variable of a valid grammar has a value, and it is right if every rule gives a
    right value out of right values. -/
theorem evaluate_spec (hg : g.Valid)
    (hstep : ∀ r ∈ g.rules, ∀ value : Variable → Option α,
      (∀ v ∈ r.references, ∃ x, value v = some x ∧ R v.id x) →
        ∃ y, step value r = some y ∧ R r.lhs.id y) :
    ∃ x, g.evaluate step = some x ∧ R g.start.id x :=
  evaluate_of_reached hg fun r hr _ => hstep r hr

/-- If there is a value, it is right when every rule gives nothing but right values out of right
    values, and then every reachable variable has a right value. -/
theorem evaluate_sound (hg : g.Valid)
    (hstep : ∀ r ∈ g.rules, ∀ value : Variable → Option α, ∀ y,
      (∀ v ∈ r.references, ∃ x, value v = some x ∧ R v.id x) →
        step value r = some y → R r.lhs.id y)
    {x : α} (h : g.evaluate step = some x) :
    R g.start.id x ∧ ∀ i, g.Reaches [] i → ∃ y, R i y := by
  obtain ⟨hordered, hmem⟩ := dependencyOrder_liveRules hg
  obtain ⟨table, htable, hvalue⟩ := Option.bind_eq_some_iff.mp h
  have hvalues := (tabulated_nil R).of_foldlM hordered (by
    intro r hr
    exact hstep r ((mem_liveRules hg).mp ((hmem r).mp hr)).1) htable
  have hknown : ∀ i, g.Reaches [] i → i ∈ ruleIds (dependencyOrder g.liveRules) ++ [] :=
    fun i hi => List.mem_append_left _ (mem_ruleIds_dependencyOrder hg hi)
  constructor
  · obtain ⟨y, hy, hR⟩ := hvalues.value? (hknown g.start.id .refl)
    rw [hvalue] at hy
    cases hy
    exact hR
  · intro i hi
    obtain ⟨y, -, hR⟩ := hvalues.value? (v := ⟨i, ""⟩) (hknown i hi)
    exact ⟨y, hR⟩

/-- A step that succeeds with the same value wherever another one does gives the start variable
    the same value. -/
theorem evaluate_mono {step' : (Variable → Option α) → Rule → Option α}
    (hstep : ∀ value r y, step value r = some y → step' value r = some y) {x : α}
    (h : g.evaluate step = some x) : g.evaluate step' = some x := by
  obtain ⟨table, htable, hvalue⟩ := Option.bind_eq_some_iff.mp h
  exact Option.bind_eq_some_iff.mpr ⟨table, tabulate_mono hstep htable, hvalue⟩

/-- Where a function of all values turns one step into another one, it turns the value of the
    start variable under the first step into that under the second. -/
theorem evaluate_map {β : Type} (f : α → β) {step' : (Variable → Option β) → Rule → Option β}
    (hstep : ∀ value r, (step value r).map f = step' (fun v => (value v).map f) r)
    (g : Grammar) : (g.evaluate step).map f = g.evaluate step' := by
  unfold Grammar.evaluate
  rw [← tabulate_map f hstep]
  cases tabulate step (dependencyOrder g.liveRules) with
  | none => rfl
  | some table => exact (table.value?_map f g.start).symm

end Start

end FluentGrammar
