import FluentGrammar.Proofs.Rewriting.Pruning
import FluentGrammar.Proofs.Sorted
import FluentGrammar.Proofs.Value.Languages
import Mathlib.Order.Bounds.Basic

/-! # What is reached and what is pruned

    Extra edges may come from any function of variables whose edges stay within a finite set.
    Following references and extra edges from a work list then ends, also where they run in
    circles or leave the grammar, and what it ends with is the least set that holds the start
    variable and that no reference and no extra edge leaves. Pruning keeps the rules of this
    set, and nothing is left to prune afterwards.
-/

namespace FluentGrammar

/-! ## The work list without a bound -/

/-- Variables are taken off the pending list, the last one first, and what an unseen one leads
    to is put on it, until it is empty. -/
inductive Collects (next : Variable → List Variable) :
    (pending seen reached : List Variable) → Prop where
  /-- Nothing is pending. -/
  | done {seen : List Variable} : Collects next [] seen seen
  /-- A variable has been seen. -/
  | skip {v : Variable} {pending seen reached : List Variable} (hseen : seen.contains v = true)
      (hrest : Collects next pending seen reached) : Collects next (v :: pending) seen reached
  /-- A variable is visited. -/
  | visit {v : Variable} {pending seen reached : List Variable}
      (hseen : seen.contains v = false)
      (hrest : Collects next ((next v).reverse ++ pending) (v :: seen) reached) :
      Collects next (v :: pending) seen reached

namespace Collects

variable {next next' : Variable → List Variable} {pending seen reached reached' : List Variable}

theorem unique (h : Collects next pending seen reached)
    (h' : Collects next pending seen reached') : reached' = reached := by
  induction h with
  | done => cases h'; rfl
  | skip hseen _ ih =>
    cases h' with
    | skip _ hrest' => exact ih hrest'
    | visit hseen' => simp [hseen] at hseen'
  | visit hseen _ ih =>
    cases h' with
    | skip hseen' => simp [hseen] at hseen'
    | visit _ hrest' => exact ih hrest'

/-- No variable is collected twice. -/
theorem distinct (h : Collects next pending seen reached) (hseen : Distinct seen) :
    Distinct reached := by
  induction h with
  | done => exact hseen
  | skip _ _ ih => exact ih hseen
  | @visit v _ seen _ hnew _ ih =>
    refine ih (List.pairwise_cons.mpr ⟨?_, hseen⟩)
    intro u hu heq
    exact contains_eq_false_iff.mp hnew (heq ▸ List.mem_map_of_mem hu)

/-- Names do not matter, and it is enough to know what the variables of a set lead to that no
    step leaves. -/
theorem congr (ids : List Nat) {pending' seen' : List Variable}
    (hnext : ∀ v v', v.id = v'.id → v.id ∈ ids →
      (next v).map (·.id) = (next' v').map (·.id) ∧ ∀ w ∈ next v, w.id ∈ ids)
    (h : Collects next pending seen reached) (hin : ∀ v ∈ pending, v.id ∈ ids)
    (hpending : pending.map (·.id) = pending'.map (·.id))
    (hseen : seen.map (·.id) = seen'.map (·.id)) :
    ∃ reached', Collects next' pending' seen' reached' ∧
      reached.map (·.id) = reached'.map (·.id) := by
  induction h generalizing pending' seen' with
  | done =>
    obtain rfl := List.map_eq_nil_iff.mp hpending.symm
    exact ⟨seen', .done, hseen⟩
  | @skip v pending seen _ hold _ ih =>
    obtain ⟨v', pending', rfl, hv, hpending⟩ := List.map_eq_cons_iff.mp hpending.symm
    obtain ⟨reached', hrun, hreached⟩ :=
      ih (fun w hw => hin w (List.mem_cons_of_mem _ hw)) hpending.symm hseen
    refine ⟨reached', .skip ?_ hrun, hreached⟩
    rwa [contains_iff_mem_ids, hv, ← hseen, ← contains_iff_mem_ids]
  | @visit v pending seen _ hnew _ ih =>
    obtain ⟨v', pending', rfl, hv, hpending⟩ := List.map_eq_cons_iff.mp hpending.symm
    -- The other run visits `v` under another name, and the same ids are pending after it.
    obtain ⟨hnext, hstay⟩ := hnext v v' hv.symm (hin v (List.mem_cons_self ..))
    have hin' : ∀ w ∈ (next v).reverse ++ pending, w.id ∈ ids := by
      intro w hw
      rcases List.mem_append.mp hw with hw | hw
      · exact hstay w (List.mem_reverse.mp hw)
      · exact hin w (List.mem_cons_of_mem _ hw)
    obtain ⟨reached', hrun, hreached⟩ := @ih ((next' v').reverse ++ pending') (v' :: seen') hin'
      (by rw [List.map_append, List.map_append, List.map_reverse, List.map_reverse, hnext,
        hpending])
      (by rw [List.map_cons, List.map_cons, hv, hseen])
    refine ⟨reached', .visit ?_ hrun, hreached⟩
    rwa [contains_eq_false_iff, hv, ← hseen, ← contains_eq_false_iff]

/-- The bounded run is the whole run, when the cost of what is unseen pays for it. -/
theorem of_fuel {cost : List Variable → Nat}
    (hcost : ∀ v seen, seen.contains v = false →
      cost (v :: seen) + (next v).length ≤ cost seen)
    (fuel : Nat) (pending seen : List Variable) (hfuel : pending.length + cost seen ≤ fuel) :
    Collects next pending seen (Grammar.collectReachable next fuel pending seen) := by
  induction fuel generalizing pending seen with
  | zero =>
    obtain rfl : pending = [] := List.length_eq_zero_iff.mp (by omega)
    exact .done
  | succ fuel ih =>
    cases pending with
    | nil => exact .done
    | cons v pending =>
      rw [List.length_cons] at hfuel
      rw [Grammar.collectReachable]
      by_cases hv : seen.contains v = true
      · rw [if_pos hv]
        exact .skip hv (ih pending seen (by omega))
      · rw [if_neg hv]
        have hv' : seen.contains v = false := by simpa using hv
        -- What a visit adds to the pending variables is paid for by what is unseen no longer.
        have hpay := hcost v seen hv'
        refine .visit hv' (ih _ _ ?_)
        rw [List.length_append, List.length_reverse]
        omega

end Collects

namespace Grammar

variable {g : Grammar} {edges : List Edge}

/-- Collecting the reachable variables is a whole run of the work list. -/
theorem collects_reachable (g : Grammar) (edges : List Edge) :
    Collects (g.successors edges) [g.start] [] (g.reachable edges) :=
  Collects.of_fuel (pendingCost_cons_le g edges) _ [g.start] [] (start_cost_le g edges)

end Grammar

/-! ## Extra edges from a function -/

/-- The edges of a function from each of the given variables. -/
def edgesFrom (extra : Variable → List Variable) (sources : List Variable) : List Edge :=
  sources.flatMap (fun v => (extra v).map (fun w => (v, w)))

theorem mem_edgesFrom {extra : Variable → List Variable} {sources : List Variable} {e : Edge} :
    e ∈ edgesFrom extra sources ↔ e.1 ∈ sources ∧ e.2 ∈ extra e.1 := by
  simp only [edgesFrom, List.mem_flatMap, List.mem_map]
  constructor
  · rintro ⟨v, hv, w, hw, rfl⟩
    exact ⟨hv, hw⟩
  · rintro ⟨hv, hw⟩
    exact ⟨e.1, hv, e.2, hw, rfl⟩

/-- From a variable that is not among the sources no edge leads. -/
theorem targetsFrom_edgesFrom_of_not_mem {extra : Variable → List Variable}
    {sources : List Variable} {v : Variable} (hv : v.id ∉ sources.map (·.id)) :
    targetsFrom (edgesFrom extra sources) v = [] := by
  rw [targetsFrom, List.map_eq_nil_iff, List.filter_eq_nil_iff]
  intro e he hev
  exact hv (Variable.beq_iff.mp hev ▸ List.mem_map_of_mem (mem_edgesFrom.mp he).1)

/-- From a source the edges of the function lead. -/
theorem map_id_targetsFrom_edgesFrom {extra : Variable → List Variable}
    {sources : List Variable} (hdistinct : Distinct sources)
    (hsame : ∀ v w, v.id = w.id → (extra v).map (·.id) = (extra w).map (·.id))
    {v : Variable} (hv : v.id ∈ sources.map (·.id)) :
    (targetsFrom (edgesFrom extra sources) v).map (·.id) = (extra v).map (·.id) := by
  induction sources with
  | nil => cases hv
  | cons u rest ih =>
    -- Sources are distinct, so the edges from a variable are all listed at one source.
    have hsplit : targetsFrom (edgesFrom extra (u :: rest)) v =
        targetsFrom ((extra u).map (fun w => (u, w))) v ++
          targetsFrom (edgesFrom extra rest) v := by
      simp only [targetsFrom, edgesFrom, List.flatMap_cons, List.filter_append, List.map_append]
    obtain ⟨hu, hrest⟩ := List.pairwise_cons.mp hdistinct
    rw [hsplit]
    by_cases huv : u.id = v.id
    · have hout : v.id ∉ rest.map (·.id) := by
        intro hmem
        obtain ⟨w, hw, hwv⟩ := List.mem_map.mp hmem
        exact hu w hw (huv.trans hwv.symm)
      have hall : ∀ e ∈ (extra u).map (fun w => (u, w)), (e.1 == v) = true := by
        intro e he
        obtain ⟨w, -, rfl⟩ := List.mem_map.mp he
        exact Variable.beq_iff.mpr huv
      rw [targetsFrom_edgesFrom_of_not_mem hout, List.append_nil, hsame v u huv.symm,
        targetsFrom, List.filter_eq_self.mpr hall, List.map_map, List.map_map]
      rfl
    · have hnone : targetsFrom ((extra u).map (fun w => (u, w))) v = [] := by
        rw [targetsFrom, List.map_eq_nil_iff, List.filter_eq_nil_iff]
        intro e he
        obtain ⟨w, -, rfl⟩ := List.mem_map.mp he
        simpa using huv
      rw [hnone, List.nil_append]
      exact ih hrest ((List.mem_cons.mp hv).resolve_left fun heq => huv heq.symm)

/-- A function that gives extra edges gives the same variables for the same one, whatever they
    are called, and from the grammar and a finite set of variables the edges lead into the
    set. -/
structure StaysWithin (g : Grammar) (field : List Variable)
    (extra : Variable → List Variable) : Prop where
  same : ∀ v w, v.id = w.id → (extra v).map (·.id) = (extra w).map (·.id)
  stays : ∀ v ∈ g.vars ++ field, ∀ w ∈ extra v, w.id ∈ field.map (·.id)

/-- The variables of a grammar and of a set, each once. -/
def Grammar.sources (g : Grammar) (field : List Variable) : List Variable :=
  (g.vars ++ field).pwFilter (fun v w => v.id ≠ w.id)

/-- The edges of a function from the variables of a grammar and of a set. -/
def Grammar.extraEdges (g : Grammar) (field : List Variable)
    (extra : Variable → List Variable) : List Edge :=
  edgesFrom extra (g.sources field)

section Sources

variable {g : Grammar} {field : List Variable} {extra : Variable → List Variable}

theorem mem_ids_sources {i : Nat} :
    i ∈ (g.sources field).map (·.id) ↔ i ∈ (g.vars ++ field).map (·.id) := by
  have hall := List.forall_mem_pwFilter (R := fun v w : Variable => v.id ≠ w.id)
    (by intro x y z hxz; grind) ⟨i, ""⟩ (g.vars ++ field)
  simp only [List.mem_map]
  constructor
  · rintro ⟨v, hv, hvi⟩
    exact ⟨v, List.pwFilter_subset _ hv, hvi⟩
  · intro hex
    by_contra hnone
    obtain ⟨v, hv, hvi⟩ := hex
    exact hall.mp (fun u hu hiu => hnone ⟨u, hu, hiu.symm⟩) v hv hvi.symm

/-- Every extra edge from the grammar or the set is among the extra edges. -/
theorem StaysWithin.exists_edge (h : StaysWithin g field extra) {v w : Variable}
    (hv : v.id ∈ (g.vars ++ field).map (·.id)) (hw : w ∈ extra v) :
    ∃ e ∈ g.extraEdges field extra, e.1.id = v.id ∧ e.2.id = w.id := by
  obtain ⟨u, hu, huv⟩ := List.mem_map.mp (mem_ids_sources.mpr hv)
  have hmem : w.id ∈ (extra u).map (·.id) := h.same u v huv ▸ List.mem_map_of_mem hw
  obtain ⟨x, hx, hxw⟩ := List.mem_map.mp hmem
  exact ⟨(u, x), mem_edgesFrom.mpr ⟨hu, hx⟩, huv, hxw⟩

theorem StaysWithin.mem_of_edge (h : StaysWithin g field extra) {e : Edge}
    (he : e ∈ g.extraEdges field extra) : e.2.id ∈ (g.vars ++ field).map (·.id) := by
  obtain ⟨hfrom, hto⟩ := mem_edgesFrom.mp he
  rw [List.map_append]
  exact List.mem_append_right _ (h.stays e.1 (List.pwFilter_subset _ hfrom) e.2 hto)

end Sources

/-! ## The least closed set -/

/-- Sets of variables that hold the start variable and that no reference and no extra edge
    leaves. Variables are given by their ids. -/
def Grammar.ClosedSets (g : Grammar) (extra : Variable → List Variable) : Set (Set Nat) :=
  {s | g.start.id ∈ s ∧ (∀ r ∈ g.rules, r.lhs.id ∈ s → ∀ v ∈ r.references, v.id ∈ s) ∧
    ∀ v : Variable, v.id ∈ s → ∀ w ∈ extra v, w.id ∈ s}

/-- The ids of the reachable variables. -/
def Grammar.reached (g : Grammar) (edges : List Edge) : Set Nat :=
  {i | i ∈ (g.reachable edges).map (·.id)}

section Closure

variable {g : Grammar} {field : List Variable} {extra : Variable → List Variable}

theorem Grammar.mem_reached (hg : g.Valid) {edges : List Edge} {i : Nat} :
    i ∈ g.reached edges ↔ g.Reaches edges i := by
  have hmem : (g.reachable edges).contains (⟨i, ""⟩ : Variable) = true ↔ g.Reaches edges i :=
    mem_reachable_iff hg.well_formed.nodup_ruleIds
  rwa [contains_iff_mem_ids] at hmem

theorem mem_ids_vars_append {i : Nat} (hi : i ∈ ruleIds g.rules) :
    i ∈ (g.vars ++ field).map (·.id) := by
  obtain ⟨r, hr, rfl⟩ := mem_ruleIds.mp hi
  exact List.mem_map_of_mem (List.mem_append_left _ (List.mem_map_of_mem hr))

theorem StaysWithin.mem_of_reaches (h : StaysWithin g field extra) (hg : g.Valid) {i : Nat}
    (hi : g.Reaches (g.extraEdges field extra) i) : i ∈ (g.vars ++ field).map (·.id) := by
  unfold Grammar.Reaches at hi
  induction hi with
  | refl => exact mem_ids_vars_append hg.start_mem
  | tail _ hstep _ =>
    rcases hstep with href | ⟨e, he, -, rfl⟩
    · exact mem_ids_vars_append (hg.well_formed.mem_of_refersTo href)
    · exact h.mem_of_edge he

/-- What is reached is the least set that no reference and no extra edge leaves. -/
theorem StaysWithin.isLeast_reached (h : StaysWithin g field extra) (hg : g.Valid) :
    IsLeast (g.ClosedSets extra) (g.reached (g.extraEdges field extra)) := by
  constructor
  · refine ⟨(Grammar.mem_reached hg).mpr .refl, ?_, ?_⟩
    · intro r hr hreached v hv
      exact (Grammar.mem_reached hg).mpr
        (.tail ((Grammar.mem_reached hg).mp hreached) (Or.inl (refersTo_of_mem hr hv)))
    · intro v hreached w hw
      have hpath := (Grammar.mem_reached hg).mp hreached
      obtain ⟨e, he, hfrom, hto⟩ := h.exists_edge (h.mem_of_reaches hg hpath) hw
      exact (Grammar.mem_reached hg).mpr (.tail hpath (Or.inr ⟨e, he, hfrom, hto⟩))
  · -- By induction on the path from the start, which no step leads out of a closed set.
    rintro s ⟨hstart, hreferences, hextra⟩ i hi
    have hpath := (Grammar.mem_reached hg).mp hi
    unfold Grammar.Reaches at hpath
    induction hpath with
    | refl => exact hstart
    | tail hprefix hstep ih =>
      have hin := ih ((Grammar.mem_reached hg).mpr hprefix)
      rcases hstep with ⟨r, hr, rfl, v, hv, rfl⟩ | ⟨e, he, rfl, rfl⟩
      · exact hreferences r hr hin v hv
      · exact hextra e.1 hin e.2 (mem_edgesFrom.mp he).2

/-- The work list ends, whatever the function leads to, and with the reachable variables. -/
theorem StaysWithin.exists_collects (h : StaysWithin g field extra) (hg : g.Valid) :
    ∃ reached, Collects (fun v => referencesOf g.rules v ++ extra v) [g.start] [] reached ∧
      (g.reachable (g.extraEdges field extra)).map (·.id) = reached.map (·.id) := by
  refine Collects.congr ((g.vars ++ field).map (·.id)) ?_ (g.collects_reachable _) ?_ rfl rfl
  · intro v v' hid hv
    have htargets : (targetsFrom (g.extraEdges field extra) v).map (·.id) =
        (extra v').map (·.id) := by
      rw [← h.same v v' hid]
      exact map_id_targetsFrom_edgesFrom (List.pairwise_pwFilter _) h.same (mem_ids_sources.mpr hv)
    constructor
    · rw [Grammar.successors, List.map_append, List.map_append, htargets,
        Grammar.rule?_congr hid]
      rfl
    · intro w hw
      rcases List.mem_append.mp hw with hw | hw
      · exact mem_ids_vars_append
          (hg.well_formed.mem_of_refersTo (refersTo_of_mem_referencesOf hw))
      · obtain ⟨e, he, rfl⟩ := List.mem_map.mp hw
        exact h.mem_of_edge (List.mem_of_mem_filter he)
  · intro v hv
    rw [List.mem_singleton.mp hv]
    exact mem_ids_vars_append hg.start_mem

end Closure

/-! ## Pruning -/

/-- What pruning makes of a grammar when a set of variables is reached. -/
structure PrunedTo (g : Grammar) (reached : Set Nat) (g' : Grammar) (dropped : List Variable) :
    Prop where
  /-- The result is a grammar, although it is not validated. -/
  valid : g'.Valid
  start_eq : g'.start = g.start
  /-- The rules of what is reached are kept. -/
  mem_rules : ∀ r, r ∈ g'.rules ↔ r ∈ g.rules ∧ r.lhs.id ∈ reached
  /-- The other variables are dropped. -/
  mem_dropped : ∀ v, v ∈ dropped ↔ v ∈ g.vars ∧ v.id ∉ reached
  /-- They are listed in order, by name and id. -/
  ascending : Ascending dropped
  distinct : Distinct dropped
  /-- What is kept derives what it did. -/
  derives_iff : ∀ v, Defines g'.rules v → ∀ w, Derives g' v w ↔ Derives g v w

namespace Grammar

variable {g : Grammar} {edges : List Edge}

theorem prune_eq : g.prune edges =
    (⟨g.start, g.rules.filter (fun r => (g.reachable edges).contains r.lhs)⟩,
      (g.rules.filter (fun r => !(g.reachable edges).contains r.lhs)).map Rule.lhs) := by
  simp only [prune, List.partition_eq_filter_filter]
  rfl

/-- The variables of a valid grammar stand in ascending order. -/
theorem Valid.ascending_vars (hg : g.Valid) : Ascending g.vars := by
  have hsorted : g.vars.Pairwise (fun v w => keyLe id v w = true) := by
    have hpairwise := pairwise_sortOn Rule.lhs g.rules
    rw [show sortOn Rule.lhs g.rules = g.rules from hg.ordered] at hpairwise
    exact List.pairwise_map.mpr hpairwise
  refine (hsorted.and hg.well_formed.distinct).imp ?_
  rintro v w ⟨hle, hne⟩
  cases hcmp : compare v w with
  | lt => rfl
  | eq => exact absurd (congrArg Variable.id (Std.LawfulEqOrd.eq_of_compare hcmp)) hne
  | gt => simp [keyLe, hcmp] at hle

theorem Valid.derives_iff_prune (hg : g.Valid) {v : Variable}
    (hv : Defines (g.prune edges).1.rules v) {w : Word} :
    Derives (g.prune edges).1 v w ↔ Derives g v w := by
  have hsub : (g.prune edges).1.rules ⊆ g.rules := rules_prune_sublist.subset
  have hvalid := hg.prune edges
  have hv' : Defines g.rules v := by
    obtain ⟨r, hr, hrv⟩ := hv
    exact ⟨r, hsub hr, hrv⟩
  exact (ValuedAlike.of_subset hvalid hsub).valuedBelow.derives_iff hg hvalid hv' hv

/-- Pruning keeps the rules of what is reached and drops all others. -/
theorem Valid.prunedTo (hg : g.Valid) (edges : List Edge) :
    PrunedTo g (g.reached edges) (g.prune edges).1 (g.prune edges).2 := by
  have hnodup := hg.well_formed.nodup_ruleIds
  have hdropped : (g.prune edges).2.Sublist g.vars := by
    rw [prune_eq]
    exact List.filter_sublist.map _
  refine {
    valid := hg.prune edges
    start_eq := rfl
    mem_rules := fun r => ?rules
    mem_dropped := fun v => ?dropped
    ascending := hg.ascending_vars.sublist hdropped
    distinct := hg.well_formed.distinct.sublist hdropped
    derives_iff := fun v hv w => hg.derives_iff_prune hv }
  case rules => rw [mem_rules_prune hnodup, mem_reached hg]
  case dropped =>
    rw [prune_eq]
    constructor
    · intro hv
      obtain ⟨r, hr, rfl⟩ := List.mem_map.mp hv
      obtain ⟨hr, hout⟩ := List.mem_filter.mp hr
      exact ⟨List.mem_map_of_mem hr, contains_eq_false_iff.mp (Bool.not_eq_true' _ ▸ hout)⟩
    · rintro ⟨hv, hout⟩
      obtain ⟨r, hr, rfl⟩ := List.mem_map.mp hv
      refine List.mem_map_of_mem (List.mem_filter.mpr ⟨hr, ?_⟩)
      rw [Bool.not_eq_true']
      exact contains_eq_false_iff.mpr hout

/-- Nothing is left to prune. -/
theorem Valid.prune_prune (hg : g.Valid) (edges : List Edge) :
    (g.prune edges).1.prune edges = ((g.prune edges).1, []) := by
  have hnodup := hg.well_formed.nodup_ruleIds
  have hall : ∀ r ∈ (g.prune edges).1.rules,
      ((g.prune edges).1.reachable edges).contains r.lhs = true := by
    intro r hr
    rw [mem_reachable_iff (hg.prune edges).well_formed.nodup_ruleIds]
    exact reaches_prune hnodup (fun _ he _ => he) ((mem_rules_prune hnodup).mp hr).2
  have hkept := List.filter_eq_self.mpr hall
  have hdropped : (g.prune edges).1.rules.filter
      (fun r => !((g.prune edges).1.reachable edges).contains r.lhs) = [] := by
    rw [List.filter_eq_nil_iff]
    intro r hr
    rw [hall r hr]
    decide
  generalize (g.prune edges).1 = g' at hkept hdropped ⊢
  rw [prune_eq, hkept, hdropped]
  rfl

/-- For extra edges that stay within a finite set, the work list ends, in one way, with the
    reachable variables, each once, and they are the least set that no reference and no extra
    edge leaves. Pruning keeps the rules of this set, drops all others, and then finds nothing
    more to drop. -/
theorem reachable_prune_exact {field : List Variable} {extra : Variable → List Variable}
    (hg : g.Valid) (hextra : StaysWithin g field extra) :
    let edges := g.extraEdges field extra
    (∃ reached,
      (∀ found, Collects (fun v => referencesOf g.rules v ++ extra v) [g.start] [] found ↔
        found = reached) ∧
      Distinct reached ∧ (g.reachable edges).map (·.id) = reached.map (·.id)) ∧
    IsLeast (g.ClosedSets extra) (g.reached edges) ∧
    ∃ g' dropped, g.prune edges = (g', dropped) ∧ PrunedTo g (g.reached edges) g' dropped ∧
      g'.prune edges = (g', []) := by
  intro edges
  obtain ⟨reached, hrun, hids⟩ := hextra.exists_collects hg
  refine ⟨⟨reached, fun found => ⟨hrun.unique, ?_⟩, hrun.distinct .nil, hids⟩,
    hextra.isLeast_reached hg, _, _, rfl, hg.prunedTo edges, hg.prune_prune edges⟩
  rintro rfl
  exact hrun

end Grammar

/-! A detour through a variable that has no rule, and back to the start. -/

/-- Four calls of which only one refers to another. -/
def looseCalls : Grammar :=
  ⟨⟨0, "A"⟩,
    [.derivation ⟨0, "A"⟩ [.var ⟨1, "B"⟩],
     .derivation ⟨1, "B"⟩ [.term ⟨"x", []⟩],
     .derivation ⟨2, "C"⟩ [.term ⟨"y", []⟩],
     .derivation ⟨3, "D"⟩ [.var ⟨2, "C"⟩]]⟩

/-- From the second call to a variable outside, from there to the third and to the start. -/
def detour (v : Variable) : List Variable :=
  match v.id with
  | 1 => [⟨9, "Z"⟩]
  | 9 => [⟨2, "C"⟩, ⟨0, "A"⟩]
  | _ => []

theorem looseCalls_valid : looseCalls.Valid :=
  Grammar.valid_of_pairwise (by decide +kernel) (by decide +kernel)

/-- The variables that the detour comes through. -/
def detourField : List Variable :=
  [⟨9, "Z"⟩, ⟨2, "C"⟩, ⟨0, "A"⟩]

theorem detour_staysWithin : StaysWithin looseCalls detourField detour where
  same := fun v w h => by rw [detour, detour, h]
  stays := by decide

/-- Only the fourth call is not reached, and it is dropped. -/
theorem looseCalls_pruned :
    looseCalls.Valid ∧ StaysWithin looseCalls detourField detour ∧
      looseCalls.reached (looseCalls.extraEdges detourField detour) = {0, 1, 2, 9} ∧
      ∃ g', looseCalls.prune (looseCalls.extraEdges detourField detour) = (g', [⟨3, "D"⟩]) ∧
        g'.prune (looseCalls.extraEdges detourField detour) = (g', []) := by
  obtain ⟨-, -, g', dropped, hprune, -, hagain⟩ :=
    Grammar.reachable_prune_exact looseCalls_valid detour_staysWithin
  refine ⟨looseCalls_valid, detour_staysWithin, ?_, g', ?_, hagain⟩
  · have hreachable : (looseCalls.reachable (looseCalls.extraEdges detourField detour)).map
        (·.id) = [2, 9, 1, 0] := by
      decide +kernel
    ext i
    rw [Grammar.reached, Set.mem_ofPred_eq, hreachable]
    simp
    omega
  · have hdropped : (looseCalls.prune (looseCalls.extraEdges detourField detour)).2 =
        [⟨3, "D"⟩] := by
      decide +kernel
    rw [hprune] at hdropped ⊢
    rw [show dropped = _ from hdropped]

end FluentGrammar
