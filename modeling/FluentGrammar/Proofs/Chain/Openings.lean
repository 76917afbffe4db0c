import FluentGrammar.Proofs.Chain.Parting

/-! # What chains open with

    A chain opens with the terminal that its terminus starts with, if that is not an empty
    derivation. The chains of a variable that open alike are sorted out of the list of all of
    its chains, so they come from the variables below it in the same way.
-/

namespace FluentGrammar

/-- The ids of the variables of a chain. -/
def Chain.ids (c : Chain) : List Nat :=
  c.vars.map (·.id)

/-- The terminal that the terminus of a chain starts with: none, if it is an empty
    derivation. -/
def Grammar.opening (g : Grammar) (c : Chain) : Option Terminal :=
  (g.rule? c.terminus).bind Rule.leadingTerminal?

/-- The chains of a variable that open alike, in order. -/
def Grammar.chainsOpening (g : Grammar) (v : Variable) (x : Option Terminal) : List Chain :=
  (g.chainsOf v).filter (fun c => g.opening c == x)

/-- The terminal that stands for what a chain reads first. -/
def Head.opening : Head → Option Terminal
  | .nothing => none
  | .sentinel => some .empty
  | .terminal t => some t

variable {g : Grammar} {v : Variable} {x : Option Terminal}

@[simp] theorem Grammar.opening_cons (c : Chain) : g.opening (.cons v c) = g.opening c := by
  unfold opening
  rw [Chain.terminus_cons]

theorem mem_chainsOpening {c : Chain} :
    c ∈ g.chainsOpening v x ↔ c ∈ g.chainsOf v ∧ g.opening c = x := by
  unfold Grammar.chainsOpening
  rw [List.mem_filter, beq_iff_eq]

/-! ## From the variables below -/

theorem filter_opening_cons (chains : List Chain) :
    (chains.map (Chain.cons v)).filter (fun c => g.opening c == x) =
      (chains.filter (fun c => g.opening c == x)).map (Chain.cons v) := by
  rw [List.filter_map]
  refine congrArg (List.map _) (List.filter_congr fun c _ => ?_)
  rw [Function.comp_apply, Grammar.opening_cons]

/-- A derivation that is led by a variable passes on the chains of that variable. -/
theorem chainsOpening_of_leading (hg : g.Valid) {lhs w : Variable} {rest : List Symbol}
    (hr : g.rule? v = some (.derivation lhs (.var w :: rest))) :
    g.chainsOpening v x = (g.chainsOpening w x).map (Chain.cons v) := by
  unfold Grammar.chainsOpening
  rw [chainsOf_eq hg hr, Grammar.chainsBy, filter_opening_cons]

/-- A selection passes on the chains of all its alternatives. -/
theorem chainsOpening_of_selection (hg : g.Valid) {lhs : Variable} {alternatives : List Variable}
    (hr : g.rule? v = some (.selection lhs alternatives)) :
    g.chainsOpening v x =
      (alternatives.flatMap (fun u => g.chainsOpening u x)).map (Chain.cons v) := by
  unfold Grammar.chainsOpening
  rw [chainsOf_eq hg hr, Grammar.chainsBy, filter_opening_cons, List.filter_flatMap]

/-- Any other derivation has a chain of its own. -/
theorem chainsOf_of_stop (hg : g.Valid) {lhs : Variable} {rhs : List Symbol}
    (hr : g.rule? v = some (.derivation lhs rhs)) (hstop : ∀ w rest, rhs ≠ .var w :: rest) :
    g.chainsOf v = [⟨v, []⟩] := by
  rw [chainsOf_eq hg hr]
  cases rhs with
  | nil => rfl
  | cons y rest =>
    cases y with
    | term t => rfl
    | var w => exact absurd rfl (hstop w rest)

/-! ## What is read first -/

theorem map_chain_readsOf (hg : g.Valid) (hv : v.id ∈ ruleIds g.rules) :
    (g.readsOf v).map (·.chain) = g.chainsOf v := by
  have hread := (forall₂_readsOf hg hv).1
  have hsame : ∀ c rc, ReadsChain g c rc → c = rc.chain := by
    intro c rc hc
    obtain ⟨_, -, hc⟩ := except_bind_eq_ok.mp hc
    obtain ⟨_, -, hc⟩ := except_bind_eq_ok.mp hc
    cases hc
    rfl
  have heq := List.forall₂_map_right_iff.mpr (hread.imp hsame)
  exact (List.forall₂_eq_eq_eq ▸ heq : g.chainsOf v = (g.readsOf v).map (·.chain)).symm

theorem mem_chainsOf (hg : g.Valid) (hv : v.id ∈ ruleIds g.rules) {c : Chain} :
    c ∈ g.chainsOf v ↔ ∃ rc ∈ g.readsOf v, rc.chain = c := by
  rw [← map_chain_readsOf hg hv, List.mem_map]

theorem root_of_mem_chainsOf (hg : g.Valid) (hv : v.id ∈ ruleIds g.rules) {c : Chain}
    (hc : c ∈ g.chainsOf v) : c.root = v := by
  obtain ⟨rc, hrc, rfl⟩ := (mem_chainsOf hg hv).mp hc
  exact root_of_mem_readsOf hg hv hrc

/-- What a chain opens with is what it reads first. -/
theorem opening_eq (hg : g.Valid) (hv : v.id ∈ ruleIds g.rules) {c : ReadChain}
    (hc : c ∈ g.readsOf v) : g.opening c.chain = c.head.opening := by
  -- Both look at where the chain stops, and the steps in front of it change neither.
  refine readsOf_induction hg (P := fun _ c => g.opening c.chain = c.head.opening) ?_ ?_ ?_
    v hv c hc
  · intro v lhs rhs hrule hstop
    have hopening : g.opening ⟨v, []⟩ = (Rule.derivation lhs rhs).leadingTerminal? := by
      unfold Grammar.opening
      show (g.rule? v).bind _ = _
      rw [hrule]
      rfl
    rw [hopening]
    cases rhs with
    | nil => rfl
    | cons y rest =>
      cases y with
      | var w => exact absurd rfl (hstop w rest)
      | term t =>
        show some t = (if t.isEmpty then Head.sentinel else .terminal t).opening
        by_cases ht : t.isEmpty = true
        · rw [if_pos ht, Terminal.isEmpty_iff.mp ht]
          rfl
        · rw [if_neg ht]
          rfl
  · intro v lhs w rest c _ _ ih
    exact (Grammar.opening_cons c.chain).trans ih
  · intro v lhs alternatives u c _ _ _ ih
    exact (Grammar.opening_cons c.chain).trans ih

/-- The chains that open with a terminal are those that read it first. -/
theorem opening_eq_some (hg : g.Valid) (hv : v.id ∈ ruleIds g.rules) {c : ReadChain}
    (hc : c ∈ g.readsOf v) {t : Terminal} (ht : t ≠ .empty) :
    g.opening c.chain = some t ↔ c.head = .terminal t := by
  rw [opening_eq hg hv hc]
  cases c.head with
  | nothing => simp [Head.opening]
  | sentinel => simp [Head.opening, ht.symm]
  | terminal u => simp [Head.opening]

theorem map_chain_filter_head (hg : g.Valid) (hv : v.id ∈ ruleIds g.rules) {t : Terminal}
    (ht : t ≠ .empty) :
    ((g.readsOf v).filter (fun c => c.head == .terminal t)).map (·.chain) =
      g.chainsOpening v (some t) := by
  unfold Grammar.chainsOpening
  rw [← map_chain_readsOf hg hv, List.filter_map]
  refine congrArg (List.map _) (List.filter_congr fun c hc => ?_)
  rw [Bool.eq_iff_iff, beq_iff_eq, Function.comp_apply, beq_iff_eq, opening_eq_some hg hv hc ht]

/-! ## No chain twice -/

/-- Two chains of a variable go the same way up to a selection, and part behind it. -/
theorem pairwise_part (hg : g.Valid) (hv : v.id ∈ ruleIds g.rules) :
    (g.chainsOf v).Pairwise (fun c d => ∃ k, Part g k c d) := by
  have hnodup := nodup_chains hg hv
  rw [map_chain_readsOf hg hv] at hnodup
  refine hnodup.imp_of_mem fun {c d} hc hd hne => ?_
  obtain ⟨a, ha, rfl⟩ := (mem_chainsOf hg hv).mp hc
  obtain ⟨b, hb, rfl⟩ := (mem_chainsOf hg hv).mp hd
  exact exists_part hg hv ha hb hne

/-- Chains that part somewhere do not consist of the same variables. -/
theorem Part.ids_ne {k : Nat} {c d : Chain} (h : Part g k c d) : c.ids ≠ d.ids := by
  induction h with
  | here _ _ _ hne =>
    intro hids
    injection hids with _ hids
    injection hids with hids _
    exact hne hids
  | later _ ih =>
    intro hids
    injection hids with _ hids
    exact ih hids

theorem nodup_ids_chainsOf (hg : g.Valid) (hv : v.id ∈ ruleIds g.rules) :
    ((g.chainsOf v).map Chain.ids).Nodup :=
  List.pairwise_map.mpr ((pairwise_part hg hv).imp fun ⟨_, h⟩ => h.ids_ne)

end FluentGrammar
