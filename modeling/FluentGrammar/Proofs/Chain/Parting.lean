import FluentGrammar.Grammar.Naming
import FluentGrammar.Proofs.Chain.Enumeration

/-! # Where chains part

    Two different chains of a variable have some variables in common at their front, the last
    of which is a selection; behind it they go on with different alternatives. So no two
    chains of a variable are the same, and any number of them part at a selection.
-/

namespace FluentGrammar

variable {g : Grammar}

/-! ## Chains one by one -/

/-- A property of the chains of all variables, proved along the chains. -/
theorem readsOf_induction (hg : g.Valid) {P : Variable → ReadChain → Prop}
    (stop : ∀ v lhs rhs, g.rule? v = some (.derivation lhs rhs) →
      (∀ w rest, rhs ≠ .var w :: rest) → P v ⟨⟨v, []⟩, headAt rhs, rhs.tail⟩)
    (pass : ∀ v lhs w rest c, g.rule? v = some (.derivation lhs (.var w :: rest)) →
      c ∈ g.readsOf w → P w c → P v (c.extend v rest))
    (choose : ∀ v lhs alternatives u c, g.rule? v = some (.selection lhs alternatives) →
      u ∈ alternatives → c ∈ g.readsOf u → P u c → P v (c.extend v [])) :
    ∀ v, v.id ∈ ruleIds g.rules → ∀ c ∈ g.readsOf v, P v c := by
  -- The chains of a variable are made of those of its references, so induction goes along the
  -- references.
  refine hg.rule_induction (P := fun v => ∀ c ∈ g.readsOf v, P v c) ?_
  intro v r hrule ih c hc
  rw [readsOf_eq hg hrule] at hc
  cases r with
  | derivation lhs rhs =>
    cases rhs with
    | nil =>
      rw [Grammar.readsBy, List.mem_singleton] at hc
      rw [hc]
      exact stop v lhs [] hrule fun _ _ h => nomatch h
    | cons x rest =>
      cases x with
      | term t =>
        rw [Grammar.readsBy, List.mem_singleton] at hc
        rw [hc]
        exact stop v lhs _ hrule fun _ _ h => nomatch h
      | var w =>
        obtain ⟨below, hbelow, rfl⟩ := List.mem_map.mp hc
        have hw := Rule.leading_mem_references lhs w rest
        exact pass v lhs w rest below hrule hbelow (ih w hw below hbelow)
  | selection lhs alternatives =>
    obtain ⟨below, hbelow, rfl⟩ := List.mem_map.mp hc
    obtain ⟨u, hu, hbelow⟩ := List.mem_flatMap.mp hbelow
    exact choose v lhs alternatives u below hrule hu hbelow (ih u hu below hbelow)

theorem root_of_mem_readsOf (hg : g.Valid) {v : Variable} (hv : v.id ∈ ruleIds g.rules)
    {c : ReadChain} (hc : c ∈ g.readsOf v) : c.chain.root = v :=
  readsOf_induction hg (P := fun v c => c.chain.root = v) (fun _ _ _ _ _ => rfl)
    (fun _ _ _ _ _ _ _ _ => rfl) (fun _ _ _ _ _ _ _ _ _ => rfl) v hv c hc

/-- A chain leads along references. -/
theorem reaches_of_mem_vars (hg : g.Valid) {v : Variable} (hv : v.id ∈ ruleIds g.rules)
    {c : ReadChain} (hc : c ∈ g.readsOf v) :
    ∀ u ∈ c.chain.vars, Relation.ReflTransGen (RefersTo g.rules) v.id u.id := by
  refine readsOf_induction hg (P := fun v c => ∀ u ∈ c.chain.vars,
    Relation.ReflTransGen (RefersTo g.rules) v.id u.id) ?_ ?_ ?_ v hv c hc
  · intro v lhs rhs _ _ u hu
    rw [List.mem_singleton.mp hu]
  · intro v lhs w rest c hrule _ ih u hu
    rcases List.mem_cons.mp hu with rfl | hu
    · exact .refl
    · refine .head ?_ (ih u hu)
      rw [← Grammar.lhs_of_rule? hrule]
      exact refersTo_of_mem (Grammar.mem_of_rule? hrule) (Rule.leading_mem_references ..)
  · intro v lhs alternatives w c hrule hw _ ih u hu
    rcases List.mem_cons.mp hu with rfl | hu
    · exact .refl
    · refine .head ?_ (ih u hu)
      rw [← Grammar.lhs_of_rule? hrule]
      exact refersTo_of_mem (Grammar.mem_of_rule? hrule) hw

/-- A chain consists of occurrences of variables. -/
theorem occurs_of_mem_vars (hg : g.Valid) {v : Variable} (hv : v.id ∈ ruleIds g.rules)
    (hoccurs : v ∈ g.occurrences) {c : ReadChain} (hc : c ∈ g.readsOf v) :
    ∀ u ∈ c.chain.vars, u ∈ g.occurrences := by
  refine readsOf_induction hg (P := fun v c => v ∈ g.occurrences →
    ∀ u ∈ c.chain.vars, u ∈ g.occurrences) ?_ ?_ ?_ v hv c hc hoccurs
  · intro v lhs rhs _ _ hoccurs u hu
    rwa [List.mem_singleton.mp hu]
  · intro v lhs w rest c hrule _ ih hoccurs u hu
    rcases List.mem_cons.mp hu with rfl | hu
    · exact hoccurs
    · exact ih (Grammar.reference_mem_occurrences (Grammar.mem_of_rule? hrule)
        (Rule.leading_mem_references ..)) u hu
  · intro v lhs alternatives w c hrule hw _ ih hoccurs u hu
    rcases List.mem_cons.mp hu with rfl | hu
    · exact hoccurs
    · exact ih (Grammar.reference_mem_occurrences (Grammar.mem_of_rule? hrule) hw) u hu

/-- The empty terminal does not count as something that a chain reads. -/
theorem ne_empty_of_head (hg : g.Valid) {v : Variable} (hv : v.id ∈ ruleIds g.rules)
    {c : ReadChain} (hc : c ∈ g.readsOf v) {t : Terminal} (ht : c.head = .terminal t) :
    t ≠ .empty := by
  refine readsOf_induction hg (P := fun _ c => c.head = .terminal t → t ≠ .empty) ?_ ?_ ?_
    v hv c hc ht
  · intro v lhs rhs _ _ hhead hempty
    cases rhs with
    | nil => cases hhead
    | cons x rest =>
      cases x with
      | var w => cases hhead
      | term u =>
        -- Where a chain stops at the empty terminal, its head is the sentinel.
        have hhead : (if u.isEmpty then Head.sentinel else Head.terminal u) = .terminal t :=
          hhead
        by_cases hu : u.isEmpty = true
        · rw [if_pos hu] at hhead
          cases hhead
        · rw [if_neg hu] at hhead
          cases hhead
          exact hu (Terminal.isEmpty_iff.mpr hempty)
  · intro v lhs w rest c _ _ ih
    exact ih
  · intro v lhs alternatives u c _ _ _ ih
    exact ih

/-- Variables that lead to a terminal: each of them passes on to the next one, and the last
    one reads the terminal. -/
inductive LeadsTo (g : Grammar) (t : Terminal) : List Variable → Prop where
  | reads {v lhs : Variable} {rest : List Symbol}
      (hrule : g.rule? v = some (.derivation lhs (.term t :: rest))) : LeadsTo g t [v]
  | starts {v lhs w : Variable} {rest : List Symbol} {below : List Variable}
      (hrule : g.rule? v = some (.derivation lhs (.var w :: rest)))
      (h : LeadsTo g t (w :: below)) : LeadsTo g t (v :: w :: below)
  | offers {v lhs u : Variable} {alternatives below : List Variable}
      (hrule : g.rule? v = some (.selection lhs alternatives)) (hu : u ∈ alternatives)
      (h : LeadsTo g t (u :: below)) : LeadsTo g t (v :: u :: below)

theorem LeadsTo.drop {t : Terminal} {vars : List Variable} (h : LeadsTo g t vars) {n : Nat}
    (hne : vars.drop n ≠ []) : LeadsTo g t (vars.drop n) := by
  induction h generalizing n with
  | reads hrule =>
    cases n with
    | zero => exact .reads hrule
    | succ n => simp at hne
  | starts hrule h ih =>
    cases n with
    | zero => exact .starts hrule h
    | succ n => exact ih hne
  | offers hrule hu h ih =>
    cases n with
    | zero => exact .offers hrule hu h
    | succ n => exact ih hne

/-- Where variables lead to a terminal, some rule reads it. -/
theorem LeadsTo.exists_terminal {t : Terminal} {vars : List Variable} (h : LeadsTo g t vars) :
    ∃ r ∈ g.rules, t ∈ r.terminals := by
  induction h with
  | reads hrule => exact ⟨_, Grammar.mem_of_rule? hrule, List.mem_cons_self ..⟩
  | starts _ _ ih => exact ih
  | offers _ _ _ ih => exact ih

theorem eq_term_of_headAt {rhs : List Symbol} {t : Terminal} (h : headAt rhs = .terminal t) :
    ∃ rest, rhs = .term t :: rest := by
  cases rhs with
  | nil => cases h
  | cons x rest =>
    cases x with
    | var w => cases h
    | term u =>
      have hu : (if u.isEmpty then Head.sentinel else Head.terminal u) = .terminal t := h
      split at hu
      · cases hu
      · cases hu
        exact ⟨rest, rfl⟩

/-- A chain leads to the terminal that it reads first. -/
theorem leadsTo_of_mem_readsOf (hg : g.Valid) {v : Variable} (hv : v.id ∈ ruleIds g.rules)
    {c : ReadChain} (hc : c ∈ g.readsOf v) {t : Terminal} (ht : c.head = .terminal t) :
    LeadsTo g t c.chain.vars := by
  -- A step of the chain is a step towards the terminal, whichever rule it goes through.
  refine readsOf_induction hg
    (P := fun _ c => c.head = .terminal t → LeadsTo g t c.chain.vars) ?_ ?_ ?_ v hv c hc ht
  · intro v lhs rhs hrule _ hhead
    obtain ⟨rest, rfl⟩ := eq_term_of_headAt hhead
    exact .reads hrule
  · intro v lhs w rest c hrule hc ih hhead
    have hw := mem_ruleIds_of_reference hg hrule (Rule.leading_mem_references lhs w rest)
    have hroot := root_of_mem_readsOf hg hw hc
    have hbelow := ih hhead
    unfold Chain.vars at hbelow
    rw [hroot] at hbelow
    show LeadsTo g t (v :: c.chain.vars)
    unfold Chain.vars
    rw [hroot]
    exact .starts hrule hbelow
  · intro v lhs alternatives u c hrule hu hc ih hhead
    have hroot := root_of_mem_readsOf hg (mem_ruleIds_of_reference hg hrule hu) hc
    have hbelow := ih hhead
    unfold Chain.vars at hbelow
    rw [hroot] at hbelow
    show LeadsTo g t (v :: c.chain.vars)
    unfold Chain.vars
    rw [hroot]
    exact .offers hrule hu hbelow

/-! ## Two chains -/

/-- Two chains that have their first `k` variables in common and then go on with different
    alternatives of a selection. -/
inductive Part (g : Grammar) : Nat → Chain → Chain → Prop where
  /-- They part at the first variable. -/
  | here {v lhs : Variable} {alternatives : List Variable} {c d : Chain}
      (hrule : g.rule? v = some (.selection lhs alternatives))
      (hc : c.root ∈ alternatives) (hd : d.root ∈ alternatives)
      (hne : c.root.id ≠ d.root.id) : Part g 1 (.cons v c) (.cons v d)
  /-- They part below the first variable. -/
  | later {k : Nat} {v : Variable} {c d : Chain} (h : Part g k c d) :
      Part g (k + 1) (.cons v c) (.cons v d)

namespace Part

variable {k : Nat} {c d : Chain}

theorem commonLength_eq (h : Part g k c d) : commonLength c.vars d.vars = k := by
  unfold commonLength
  induction h with
  | @here v lhs alternatives c d hrule hc hd hne =>
    have hroots : (c.root == d.root) = false := by
      rw [← Bool.not_eq_true, Variable.beq_iff]
      exact hne
    rw [Chain.vars_cons, Chain.vars_cons, List.zip_cons_cons, List.takeWhile_cons]
    rw [if_pos (Variable.beq_iff.mpr rfl)]
    simp [Chain.vars, hroots]
  | @later k v c d h ih =>
    rw [Chain.vars_cons, Chain.vars_cons, List.zip_cons_cons, List.takeWhile_cons]
    rw [if_pos (Variable.beq_iff.mpr rfl), List.length_cons, ih]

theorem pos (h : Part g k c d) : 0 < k := by
  cases h <;> omega

theorem lt_length (h : Part g k c d) : k < c.length ∧ k < d.length := by
  induction h with
  | here => simp [Chain.length, Chain.vars, Chain.cons]
  | later h ih =>
    unfold Chain.length at ih ⊢
    rw [Chain.vars_cons, Chain.vars_cons, List.length_cons, List.length_cons]
    omega

end Part

theorem dropFront_cons {c : Chain} {v : Variable} {n : Nat} (hn : n < c.length) :
    (Chain.cons v c).dropFront (n + 1) = c.dropFront n := by
  unfold Chain.dropFront
  rw [Chain.vars_cons, List.drop_succ_cons]
  cases hdrop : c.vars.drop n with
  | nil =>
    rw [List.drop_eq_nil_iff] at hdrop
    exact absurd hn (Nat.not_lt.mpr hdrop)
  | cons root below => rfl

theorem LeadsTo.dropFront {t : Terminal} {c : Chain} (h : LeadsTo g t c.vars) (n : Nat) :
    LeadsTo g t (c.dropFront n).vars := by
  unfold Chain.dropFront
  cases hdrop : c.vars.drop n with
  | nil => exact h
  | cons root below =>
    show LeadsTo g t (root :: below)
    rw [← hdrop]
    exact h.drop (by rw [hdrop]; exact List.cons_ne_nil _ _)

theorem root_dropFront_mem (c : Chain) (n : Nat) : (c.dropFront n).root ∈ c.vars := by
  unfold Chain.dropFront
  cases hdrop : c.vars.drop n with
  | nil => exact List.mem_cons_self ..
  | cons root below =>
    have hmem : root ∈ c.vars.drop n := hdrop ▸ List.mem_cons_self ..
    exact List.mem_of_mem_drop hmem

/-- With all but one of their common variables dropped, two chains start at the selection
    where they part. -/
theorem Part.dropFront {k : Nat} {c d : Chain} (h : Part g (k + 1) c d) :
    ∃ v lhs alternatives c' d', g.rule? v = some (.selection lhs alternatives) ∧
      c.dropFront k = .cons v c' ∧ d.dropFront k = .cons v d' ∧
        c'.root ∈ alternatives ∧ d'.root ∈ alternatives ∧ c'.root.id ≠ d'.root.id := by
  induction k generalizing c d with
  | zero =>
    cases h with
    | @here v lhs alternatives c d hrule hc hd hne =>
      exact ⟨v, lhs, alternatives, c, d, hrule, rfl, rfl, hc, hd, hne⟩
    | later h => exact absurd h.pos (Nat.lt_irrefl 0)
  | succ k ih =>
    cases h with
    | @later _ v c d h =>
      obtain ⟨hc, hd⟩ := h.lt_length
      rw [dropFront_cons (by omega), dropFront_cons (by omega)]
      exact ih h

theorem Chain.cons_injective (v : Variable) : Function.Injective (Chain.cons v) := by
  intro c d h
  unfold cons vars at h
  injection h with _ h
  injection h with hroot hbelow
  cases c
  cases d
  exact congrArg₂ Chain.mk hroot hbelow

/-- Different chains of a variable part somewhere. -/
theorem exists_part (hg : g.Valid) {v : Variable} (hv : v.id ∈ ruleIds g.rules)
    {c d : ReadChain} (hc : c ∈ g.readsOf v) (hd : d ∈ g.readsOf v)
    (hne : c.chain ≠ d.chain) : ∃ k, Part g k c.chain d.chain := by
  revert c d
  refine hg.rule_induction (P := fun v => ∀ {c d : ReadChain}, c ∈ g.readsOf v →
    d ∈ g.readsOf v → c.chain ≠ d.chain → ∃ k, Part g k c.chain d.chain) ?_ v hv
  intro v r hrule ih c d hc hd hne
  rw [readsOf_eq hg hrule] at hc hd
  cases r with
  | derivation lhs rhs =>
    cases rhs with
    | nil =>
      rw [Grammar.readsBy, List.mem_singleton] at hc hd
      exact absurd (by rw [hc, hd]) hne
    | cons x rest =>
      cases x with
      | term t =>
        rw [Grammar.readsBy, List.mem_singleton] at hc hd
        exact absurd (by rw [hc, hd]) hne
      | var w =>
        -- A derivation has but one way on, so the chains part further down.
        obtain ⟨c', hc', rfl⟩ := List.mem_map.mp hc
        obtain ⟨d', hd', rfl⟩ := List.mem_map.mp hd
        have hw := Rule.leading_mem_references lhs w rest
        have hne' : c'.chain ≠ d'.chain := fun h => hne (congrArg (Chain.cons v) h)
        obtain ⟨k, hk⟩ := ih w hw hc' hd' hne'
        exact ⟨k + 1, .later hk⟩
  | selection lhs alternatives =>
    obtain ⟨c', hc', rfl⟩ := List.mem_map.mp hc
    obtain ⟨d', hd', rfl⟩ := List.mem_map.mp hd
    obtain ⟨u, hu, hc'⟩ := List.mem_flatMap.mp hc'
    obtain ⟨w, hw, hd'⟩ := List.mem_flatMap.mp hd'
    have huroot := root_of_mem_readsOf hg (mem_ruleIds_of_reference hg hrule hu) hc'
    have hwroot := root_of_mem_readsOf hg (mem_ruleIds_of_reference hg hrule hw) hd'
    by_cases huw : u = w
    · subst huw
      have hne' : c'.chain ≠ d'.chain := fun h => hne (congrArg (Chain.cons v) h)
      obtain ⟨k, hk⟩ := ih u hu hc' hd' hne'
      exact ⟨k + 1, .later hk⟩
    · -- The alternatives of a selection have different ids, not only different names.
      refine ⟨1, .here hrule (huroot ▸ hu) (hwroot ▸ hw) ?_⟩
      rw [huroot, hwroot]
      intro hid
      have hdistinct :=
        (hg.well_formed.selections lhs alternatives (Grammar.mem_of_rule? hrule)).2
      exact huw (List.inj_on_of_nodup_map (List.pairwise_map.mpr hdistinct) hu hw hid)

/-- No chain is listed twice. -/
theorem nodup_chains (hg : g.Valid) {v : Variable} (hv : v.id ∈ ruleIds g.rules) :
    ((g.readsOf v).map (·.chain)).Nodup := by
  refine hg.rule_induction (P := fun v => ((g.readsOf v).map (·.chain)).Nodup) ?_ v hv
  intro v r hrule ih
  rw [readsOf_eq hg hrule]
  have hextend : ∀ (behind : List Symbol) (reads : List ReadChain),
      (reads.map (ReadChain.extend v behind)).map (·.chain) =
        (reads.map (·.chain)).map (Chain.cons v) := by
    intro behind reads
    rw [List.map_map, List.map_map]
    rfl
  cases r with
  | derivation lhs rhs =>
    cases rhs with
    | nil => exact List.nodup_singleton _
    | cons x rest =>
      cases x with
      | term t => exact List.nodup_singleton _
      | var w =>
        rw [Grammar.readsBy, hextend]
        exact (ih w (Rule.leading_mem_references ..)).map (Chain.cons_injective v)
  | selection lhs alternatives =>
    rw [Grammar.readsBy, hextend, List.map_flatMap]
    apply List.Nodup.map (Chain.cons_injective v)
    rw [List.nodup_flatMap]
    refine ⟨ih, ?_⟩
    -- Chains below different alternatives begin differently.
    have hdistinct :=
      (hg.well_formed.selections lhs alternatives (Grammar.mem_of_rule? hrule)).2
    refine hdistinct.imp_of_mem ?_
    intro u w hu hw hne c hc hd
    obtain ⟨c', hc', rfl⟩ := List.mem_map.mp hc
    obtain ⟨d', hd', heq⟩ := List.mem_map.mp hd
    have huroot := root_of_mem_readsOf hg (mem_ruleIds_of_reference hg hrule hu) hc'
    have hwroot := root_of_mem_readsOf hg (mem_ruleIds_of_reference hg hrule hw) hd'
    apply hne
    rw [← huroot, ← hwroot, heq]

end FluentGrammar
