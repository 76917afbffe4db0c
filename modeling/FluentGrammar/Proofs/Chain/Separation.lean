import FluentGrammar.Proofs.Chain.Parting
import Mathlib.Data.List.Nodup
import Mathlib.Data.List.Pairwise

/-! # Chains that are alike

    Two chains are alike when they have the same ending: the variable that they end at and the
    symbols that they leave, both by their ids. A variable is separated when its chains have
    different endings. Separation passes down the chains, and it keeps the alternatives of a
    selection apart: no variable can be reached from two of them through selections alone,
    since its chains would be those of both.
-/

namespace FluentGrammar

variable {g : Grammar}

/-! ## Endings -/

/-- A symbol without the name of its variable. -/
def Symbol.key : Symbol → Terminal ⊕ Nat
  | .term t => .inl t
  | .var v => .inr v.id

theorem Symbol.beq_iff {x y : Symbol} : (x == y) = true ↔ x.key = y.key := by
  change x.same y = true ↔ _
  cases x <;> cases y <;> simp [same, key]

theorem symbols_beq_iff {xs ys : List Symbol} :
    (xs == ys) = true ↔ xs.map Symbol.key = ys.map Symbol.key := by
  induction xs generalizing ys with
  | nil => cases ys <;> simp
  | cons x rest ih =>
    cases ys with
    | nil => simp
    | cons y rest' =>
      rw [List.cons_beq_cons, Bool.and_eq_true, Symbol.beq_iff, ih]
      simp

/-- Where a chain ends and what it leaves to be read. -/
structure ChainEnding where
  terminus : Nat
  trailing : List (Terminal ⊕ Nat)

/-- An ending with more symbols behind it. -/
def ChainEnding.push (behind : List Symbol) (e : ChainEnding) : ChainEnding :=
  ⟨e.terminus, e.trailing ++ behind.map Symbol.key⟩

theorem ChainEnding.push_nil (e : ChainEnding) : e.push [] = e := by
  unfold push
  rw [List.map_nil, List.append_nil]

/-- The ending of a chain. -/
def ReadChain.ending (c : ReadChain) : ChainEnding :=
  ⟨c.chain.terminus.id, c.trailing.map Symbol.key⟩

theorem ReadChain.alike_iff {c d : ReadChain} : c.alike d = true ↔ c.ending = d.ending := by
  unfold alike ending
  rw [Bool.and_eq_true, Variable.beq_iff, symbols_beq_iff, ChainEnding.mk.injEq]

@[simp] theorem ReadChain.ending_extend (v : Variable) (behind : List Symbol) (c : ReadChain) :
    (c.extend v behind).ending = c.ending.push behind := by
  unfold ending extend ChainEnding.push
  rw [Chain.terminus_cons, List.map_append]

/-- No two chains of a list have the same ending exactly when no two of them are alike. -/
theorem firstAmbiguity_eq_none {v : Variable} {reads : List ReadChain} :
    firstAmbiguity v reads = none ↔ (reads.map ReadChain.ending).Nodup := by
  induction reads with
  | nil => simp [firstAmbiguity]
  | cons c rest ih =>
    have hmem : (rest.find? c.alike).isSome = true ↔ c.ending ∈ rest.map ReadChain.ending := by
      rw [List.find?_isSome, List.mem_map]
      simp only [ReadChain.alike_iff, eq_comm (a := c.ending)]
    rw [firstAmbiguity, List.map_cons, List.nodup_cons, ← hmem]
    cases hfind : rest.find? c.alike with
    | none => simp [ih]
    | some d => simp

/-! ## Endings of variables -/

/-- The endings of the chains of a variable, which is given by its id. -/
def Grammar.endingsOf (g : Grammar) (i : Nat) : List ChainEnding :=
  (g.readsOf ⟨i, ""⟩).map ReadChain.ending

/-- How the endings of a variable come from those of the variables below. -/
def Grammar.endingsBy (g : Grammar) (i : Nat) : Rule → List ChainEnding
  | .derivation _ (.var w :: rest) => (g.endingsOf w.id).map (ChainEnding.push rest)
  | .derivation _ (.term _ :: rest) => [⟨i, rest.map Symbol.key⟩]
  | .derivation _ [] => [⟨i, []⟩]
  | .selection _ alternatives => alternatives.flatMap (fun u => g.endingsOf u.id)

theorem map_ending_extend (v : Variable) (behind : List Symbol) (reads : List ReadChain) :
    (reads.map (ReadChain.extend v behind)).map ReadChain.ending =
      (reads.map ReadChain.ending).map (ChainEnding.push behind) := by
  rw [List.map_map, List.map_map]
  exact List.map_congr_left fun c _ => ReadChain.ending_extend v behind c

/-- The name of a variable does not matter for the endings of its chains. -/
theorem map_ending_readsOf (hg : g.Valid) {v : Variable} (hv : v.id ∈ ruleIds g.rules) :
    (g.readsOf v).map ReadChain.ending = g.endingsOf v.id := by
  obtain ⟨r, hr, hrv⟩ := mem_ruleIds.mp hv
  have hrule := Grammar.rule?_of_mem hg.well_formed.nodup_ruleIds hr hrv
  have hrule' := Grammar.rule?_of_mem hg.well_formed.nodup_ruleIds hr (v := ⟨v.id, ""⟩) hrv
  unfold Grammar.endingsOf
  rw [readsOf_eq hg hrule, readsOf_eq hg hrule']
  cases r with
  | derivation lhs rhs =>
    cases rhs with
    | nil => rfl
    | cons x rest =>
      cases x with
      | term t => rfl
      | var w => rw [Grammar.readsBy, Grammar.readsBy, map_ending_extend, map_ending_extend]
  | selection lhs alternatives =>
    rw [Grammar.readsBy, Grammar.readsBy, map_ending_extend, map_ending_extend]

theorem endingsOf_eq (hg : g.Valid) {v : Variable} {r : Rule} (hr : g.rule? v = some r) :
    g.endingsOf v.id = g.endingsBy v.id r := by
  rw [← map_ending_readsOf hg (mem_ruleIds_of_rule? hr), readsOf_eq hg hr]
  -- The endings are read off the chains, one reference at a time.
  have hbelow : ∀ u ∈ r.references,
      (g.readsOf u).map ReadChain.ending = g.endingsOf u.id :=
    fun u hu => map_ending_readsOf hg (mem_ruleIds_of_reference hg hr hu)
  cases r with
  | derivation lhs rhs =>
    cases rhs with
    | nil => rfl
    | cons x rest =>
      cases x with
      | term t => rfl
      | var w =>
        rw [Grammar.readsBy, Grammar.endingsBy, map_ending_extend,
          hbelow w (Rule.leading_mem_references lhs w rest)]
  | selection lhs alternatives =>
    have hsame : alternatives.flatMap (fun u => (g.readsOf u).map ReadChain.ending) =
        alternatives.flatMap (fun u => g.endingsOf u.id) := by
      rw [List.flatMap_def, List.flatMap_def]
      exact congrArg List.flatten (List.map_congr_left hbelow)
    rw [Grammar.readsBy, Grammar.endingsBy, map_ending_extend, List.map_flatMap, hsame]
    simp only [funext ChainEnding.push_nil, List.map_id']

/-- Every variable has a chain. -/
theorem endingsOf_ne_nil (hg : g.Valid) :
    ∀ v : Variable, v.id ∈ ruleIds g.rules → g.endingsOf v.id ≠ [] := by
  refine hg.rule_induction (P := fun v => g.endingsOf v.id ≠ []) ?_
  intro v r hrule ih
  rw [endingsOf_eq hg hrule]
  cases r with
  | derivation lhs rhs =>
    cases rhs with
    | nil => exact List.cons_ne_nil _ _
    | cons x rest =>
      cases x with
      | term t => exact List.cons_ne_nil _ _
      | var w =>
        have hw := ih w (Rule.leading_mem_references lhs w rest)
        rw [Grammar.endingsBy, ne_eq, List.map_eq_nil_iff]
        exact hw
  | selection lhs alternatives =>
    have htwo := (hg.well_formed.selections lhs alternatives (Grammar.mem_of_rule? hrule)).1
    obtain ⟨u, hu⟩ := List.exists_mem_of_length_pos (Nat.lt_of_lt_of_le Nat.two_pos htwo)
    obtain ⟨e, he⟩ := List.exists_mem_of_ne_nil _ (ih u hu)
    exact List.ne_nil_of_mem (List.mem_flatMap.mpr ⟨u, hu, he⟩)

/-! ## Separated variables -/

/-- No two chains of a variable have the same ending. -/
def Grammar.Separated (g : Grammar) (i : Nat) : Prop :=
  (g.endingsOf i).Nodup

/-- A selection is separated exactly when no ambiguity is reported for it. -/
theorem separated_iff (hg : g.Valid) {v : Variable} (hv : v.id ∈ ruleIds g.rules) :
    g.Separated v.id ↔ firstAmbiguity v (g.readsOf v) = none := by
  rw [firstAmbiguity_eq_none, map_ending_readsOf hg hv, Grammar.Separated]

/-- What a separated derivation starts with is separated. -/
theorem Grammar.Separated.leading (hg : g.Valid) {v lhs w : Variable} {rest : List Symbol}
    (hrule : g.rule? v = some (.derivation lhs (.var w :: rest))) (h : g.Separated v.id) :
    g.Separated w.id := by
  unfold Separated at h
  rw [endingsOf_eq hg hrule] at h
  exact h.of_map

/-- The alternatives of a separated selection are separated. -/
theorem Grammar.Separated.alternative (hg : g.Valid) {v lhs u : Variable}
    {alternatives : List Variable} (hrule : g.rule? v = some (.selection lhs alternatives))
    (h : g.Separated v.id) (hu : u ∈ alternatives) : g.Separated u.id := by
  unfold Separated at h
  rw [endingsOf_eq hg hrule] at h
  exact (List.nodup_flatMap.mp h).1 u hu

/-- Two alternatives of a separated selection share no ending. -/
theorem Grammar.Separated.disjoint (hg : g.Valid) {v lhs u w : Variable}
    {alternatives : List Variable} (hrule : g.rule? v = some (.selection lhs alternatives))
    (h : g.Separated v.id) (hu : u ∈ alternatives) (hw : w ∈ alternatives) (hne : u ≠ w)
    {e : ChainEnding} (he : e ∈ g.endingsOf u.id) : e ∉ g.endingsOf w.id := by
  unfold Separated at h
  rw [endingsOf_eq hg hrule] at h
  have hsymm : Std.Symm (Function.onFun List.Disjoint (fun u : Variable => g.endingsOf u.id)) :=
    ⟨fun _ _ h => h.symm⟩
  have hdisjoint := (List.nodup_flatMap.mp h).2.forall hu hw hne
  exact hdisjoint he

/-! ## Passing down -/

/-- Chains pass from the first variable to the second one: a derivation starts with it, or a
    selection offers it. Variables are given by their ids. -/
inductive Grammar.Passes (g : Grammar) : Nat → Nat → Prop where
  | starts {lhs w : Variable} {rest : List Symbol}
      (hr : Rule.derivation lhs (.var w :: rest) ∈ g.rules) : g.Passes lhs.id w.id
  | offers {lhs u : Variable} {alternatives : List Variable}
      (hr : Rule.selection lhs alternatives ∈ g.rules) (hu : u ∈ alternatives) :
      g.Passes lhs.id u.id

theorem Grammar.Passes.of_leading {v lhs w : Variable} {rest : List Symbol}
    (hrule : g.rule? v = some (.derivation lhs (.var w :: rest))) : g.Passes v.id w.id := by
  have hlhs : lhs.id = v.id := Grammar.lhs_of_rule? hrule
  rw [← hlhs]
  exact .starts (Grammar.mem_of_rule? hrule)

theorem Grammar.Passes.of_alternative {v lhs u : Variable} {alternatives : List Variable}
    (hrule : g.rule? v = some (.selection lhs alternatives)) (hu : u ∈ alternatives) :
    g.Passes v.id u.id := by
  have hlhs : lhs.id = v.id := Grammar.lhs_of_rule? hrule
  rw [← hlhs]
  exact .offers (Grammar.mem_of_rule? hrule) hu

/-- Separation passes down. -/
theorem Grammar.Separated.of_passes (hg : g.Valid) {i j : Nat}
    (hpath : Relation.ReflTransGen g.Passes i j) (h : g.Separated i) : g.Separated j := by
  have hnodup := hg.well_formed.nodup_ruleIds
  induction hpath with
  | refl => exact h
  | tail _ hstep ih =>
    cases hstep with
    | @starts lhs w rest hr => exact ih.leading hg (Grammar.rule?_of_mem hnodup hr rfl)
    | @offers lhs u alternatives hr hu =>
      exact ih.alternative hg (Grammar.rule?_of_mem hnodup hr rfl) hu

/-- A chain passes all of its variables. -/
theorem passes_of_mem_vars (hg : g.Valid) {v : Variable} (hv : v.id ∈ ruleIds g.rules)
    {c : ReadChain} (hc : c ∈ g.readsOf v) :
    ∀ u ∈ c.chain.vars, Relation.ReflTransGen g.Passes v.id u.id := by
  refine readsOf_induction hg (P := fun v c => ∀ u ∈ c.chain.vars,
    Relation.ReflTransGen g.Passes v.id u.id) ?_ ?_ ?_ v hv c hc
  · intro v lhs rhs _ _ u hu
    rw [List.mem_singleton.mp hu]
  · intro v lhs w rest c hrule _ ih u hu
    rcases List.mem_cons.mp hu with rfl | hu
    · exact .refl
    · exact .head (.of_leading hrule) (ih u hu)
  · intro v lhs alternatives w c hrule hw _ ih u hu
    rcases List.mem_cons.mp hu with rfl | hu
    · exact .refl
    · exact .head (.of_alternative hrule hw) (ih u hu)

/-! ## Paths of selections -/

/-- A selection of the first variable offers the second one. Variables are given by their
    ids. -/
def Grammar.Offers (g : Grammar) (i j : Nat) : Prop :=
  ∃ lhs alternatives, Rule.selection lhs alternatives ∈ g.rules ∧ lhs.id = i ∧
    ∃ u ∈ alternatives, u.id = j

/-- Selections alone lead from the first variable to the second one. -/
def Grammar.Stem (g : Grammar) : Nat → Nat → Prop :=
  Relation.ReflTransGen g.Offers

theorem Grammar.Offers.refersTo {i j : Nat} (h : g.Offers i j) : RefersTo g.rules i j := by
  obtain ⟨lhs, alternatives, hr, hi, u, hu, hj⟩ := h
  exact ⟨_, hr, hi, u, hu, hj⟩

theorem Grammar.Stem.mem_ruleIds (hg : g.Valid) {i j : Nat} (h : g.Stem i j)
    (hi : i ∈ ruleIds g.rules) : j ∈ ruleIds g.rules := by
  induction h with
  | refl => exact hi
  | tail _ hstep _ => exact hg.well_formed.mem_of_refersTo hstep.refersTo

/-- Along a path of selections the rank falls. -/
theorem Grammar.Stem.rank_le (hg : g.Valid) {i j : Nat} (h : g.Stem i j) :
    rank g.rules j ≤ rank g.rules i := by
  induction h with
  | refl => exact Nat.le_refl _
  | tail _ hstep ih =>
    have hlt := hg.well_formed.rank_lt hstep.refersTo
    omega

/-- A path of selections passes all endings on. -/
theorem Grammar.Stem.endingsOf_subset (hg : g.Valid) {i j : Nat} (h : g.Stem i j) :
    g.endingsOf j ⊆ g.endingsOf i := by
  induction h using Relation.ReflTransGen.head_induction_on with
  | refl => exact List.Subset.refl _
  | head hstep _ ih =>
    obtain ⟨lhs, alternatives, hr, rfl, u, hu, rfl⟩ := hstep
    have hrule := Grammar.rule?_of_mem hg.well_formed.nodup_ruleIds hr (v := lhs) rfl
    intro e he
    rw [endingsOf_eq hg hrule]
    exact List.mem_flatMap.mpr ⟨u, hu, ih he⟩

/-- Paths of selections from two alternatives of a separated selection do not meet. -/
theorem Grammar.Separated.eq_of_stem (hg : g.Valid) {v lhs u w : Variable}
    {alternatives : List Variable} (hrule : g.rule? v = some (.selection lhs alternatives))
    (h : g.Separated v.id) (hu : u ∈ alternatives) (hw : w ∈ alternatives) {k : Nat}
    (huk : g.Stem u.id k) (hwk : g.Stem w.id k) : u = w := by
  by_contra hne
  have hk := huk.mem_ruleIds hg (mem_ruleIds_of_reference hg hrule hu)
  -- A chain below the meeting point ends a chain of either alternative.
  obtain ⟨e, he⟩ := List.exists_mem_of_ne_nil _ (endingsOf_ne_nil hg ⟨k, ""⟩ hk)
  exact h.disjoint hg hrule hu hw hne (huk.endingsOf_subset hg he)
    (hwk.endingsOf_subset hg he)

end FluentGrammar
