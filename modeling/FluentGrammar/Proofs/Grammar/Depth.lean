import FluentGrammar.Grammar.Metrics
import FluentGrammar.Proofs.Grammar.Evaluation
import FluentGrammar.Proofs.Grammar.Pruning
import Mathlib.Data.Set.Card
import Mathlib.Order.Bounds.Basic

/-! # The depth of a grammar

    The depth of a variable is one more than the largest depth of a reference. In a valid
    grammar this is the length of a longest path of references. A path repeats no variable and
    stays with reachable ones, so it is shorter than there are reachable variables.
-/

namespace FluentGrammar

/-! ## Paths of references -/

/-- The numbers of references on the paths that begin at a variable. A reference may stand at
    any place of a rule. -/
def pathLengths (rules : List Rule) (i : Nat) : Set Nat :=
  {n | ∃ below : List Nat, (i :: below).IsChain (RefersTo rules) ∧ below.length = n}

variable {rules : List Rule} {i j n : Nat}

theorem zero_mem_pathLengths (rules : List Rule) (i : Nat) : 0 ∈ pathLengths rules i :=
  ⟨[], .singleton i, rfl⟩

theorem succ_mem_pathLengths (hij : RefersTo rules i j) (hn : n ∈ pathLengths rules j) :
    n + 1 ∈ pathLengths rules i := by
  obtain ⟨below, hpath, rfl⟩ := hn
  exact ⟨j :: below, .cons_cons hij hpath, rfl⟩

/-- A path stays where it is, or goes on with a reference. -/
theorem exists_refersTo_of_mem_pathLengths (h : n ∈ pathLengths rules i) :
    n = 0 ∨ ∃ j m, RefersTo rules i j ∧ m ∈ pathLengths rules j ∧ n = m + 1 := by
  obtain ⟨below, hpath, rfl⟩ := h
  cases below with
  | nil => exact Or.inl rfl
  | cons j below =>
    rw [List.isChain_cons_cons] at hpath
    exact Or.inr ⟨j, below.length, hpath.1, ⟨below, hpath.2, rfl⟩, rfl⟩

/-! ## The largest depth of a reference -/

/-- The largest of some numbers is the greatest element of them and zero. -/
theorem isGreatest_largest (ns : List Nat) : IsGreatest {n | n = 0 ∨ n ∈ ns} (largest ns) := by
  induction ns using List.reverseRecOn with
  | nil => exact ⟨Or.inl rfl, fun n hn => by simpa [largest] using hn⟩
  | append_singleton ns n ih =>
    have hlargest : largest (ns ++ [n]) = max (largest ns) n := by
      rw [largest, List.foldl_append]
      rfl
    have hset : {m | m = 0 ∨ m ∈ ns ++ [n]} = insert n {m | m = 0 ∨ m ∈ ns} := by
      ext m
      simp only [List.mem_append, List.mem_singleton, Set.mem_ofPred_eq, Set.mem_insert_iff]
      rw [← or_assoc, or_comm]
    rw [hlargest, hset, max_comm]
    exact ih.insert n

/-- Out of longest paths of the references comes a longest path of the variable of a rule. -/
theorem isGreatest_pathLengths {r : Rule} (hnodup : (ruleIds rules).Nodup) (hr : r ∈ rules)
    {depths : List Nat}
    (h : List.Forall₂ (fun v n => IsGreatest (pathLengths rules v.id) n) r.references depths) :
    IsGreatest (pathLengths rules r.lhs.id) (largest (depths.map (· + 1))) := by
  obtain ⟨hmem, hupper⟩ := isGreatest_largest (depths.map (· + 1))
  constructor
  · rcases hmem with hzero | hmem
    · rw [hzero]
      exact zero_mem_pathLengths rules _
    · obtain ⟨n, hn, hlargest⟩ := List.mem_map.mp hmem
      obtain ⟨v, hv, hgreatest⟩ := exists_matched_left h hn
      rw [← hlargest]
      exact succ_mem_pathLengths (refersTo_of_mem hr hv) hgreatest.1
  · intro n hn
    rcases exists_refersTo_of_mem_pathLengths hn with rfl | ⟨j, m, hrefers, hm, rfl⟩
    · exact Nat.zero_le _
    · obtain ⟨q, hq, hid, v, hv, rfl⟩ := hrefers
      obtain rfl := eq_of_lhs_id_eq hnodup hq hr hid
      obtain ⟨depth, hdepth, hgreatest⟩ := exists_matched_right h hv
      have hle := hupper (Or.inr (List.mem_map_of_mem hdepth))
      exact (Nat.succ_le_succ (hgreatest.2 hm)).trans hle

/-! ## The depth -/

variable {g : Grammar}

theorem isGreatest_depth (hg : g.Valid) :
    IsGreatest (pathLengths g.rules g.start.id) g.depth := by
  let step := fun (depth : Variable → Option Nat) (r : Rule) =>
    (r.references.mapM depth).map (fun depths => largest (depths.map (· + 1)))
  let R := fun i n => IsGreatest (pathLengths g.rules i) n
  have hstep : ∀ r ∈ g.rules, ∀ depth : Variable → Option Nat,
      (∀ v ∈ r.references, ∃ n, depth v = some n ∧ R v.id n) →
        ∃ n, step depth r = some n ∧ R r.lhs.id n := by
    intro r hr depth hdepth
    obtain ⟨depths, hdepths, hall⟩ := exists_mapM (P := fun (v : Variable) n => R v.id n) hdepth
    refine ⟨_, congrArg (Option.map _) hdepths, ?_⟩
    exact isGreatest_pathLengths hg.well_formed.nodup_ruleIds hr hall
  obtain ⟨n, hn, hgreatest⟩ := evaluate_spec hg hstep
  have hdepth : g.depth = n := by
    show (g.evaluate step).getD 0 = n
    rw [hn]
    rfl
  rw [hdepth]
  exact hgreatest

/-- Along a path every variable leads to those behind it. -/
theorem pairwise_transGen {path : List Nat} (h : path.IsChain (RefersTo rules)) :
    path.Pairwise (Relation.TransGen (RefersTo rules)) :=
  List.isChain_iff_pairwise.mp (h.imp fun _ _ => .single)

/-- A path of references from the start variable is shorter than there are reachable
    variables. -/
theorem lt_ncard_reached (hg : g.Valid) (h : n ∈ pathLengths g.rules g.start.id) :
    n < (g.reached []).ncard := by
  obtain ⟨below, hpath, rfl⟩ := h
  have hlater := pairwise_transGen hpath
  have hne : ∀ {i j : Nat}, Relation.TransGen (RefersTo g.rules) i j → i ≠ j := by
    rintro i _ hij rfl
    exact hg.well_formed.acyclic i hij
  have hnodup : (g.start.id :: below).Nodup := hlater.imp hne
  have hreached : ((g.start.id :: below).toFinset : Set Nat) ⊆ g.reached [] := by
    intro i hi
    rw [Finset.mem_coe, List.mem_toFinset] at hi
    rw [Grammar.mem_reached hg]
    rcases List.mem_cons.mp hi with rfl | hi
    · exact .refl
    · have hpath := (List.rel_of_pairwise_cons hlater hi).to_reflTransGen
      exact Relation.ReflTransGen.mono (fun _ _ hrefers => Or.inl hrefers) _ _ hpath
  have hfinite : (g.reached []).Finite := List.finite_toSet _
  have hcard := Set.ncard_le_ncard hreached hfinite
  rw [Set.ncard_coe_finset, List.toFinset_card_of_nodup hnodup] at hcard
  exact hcard

/-- The depth that the metrics of a valid grammar tell is the number of references on a longest
    path from the start variable, and it is less than the number of reachable variables. -/
theorem Metrics.maxDepth_exact (hg : g.Valid) :
    IsGreatest (pathLengths g.rules g.start.id) (Metrics.of g).maxDepth ∧
      (Metrics.of g).maxDepth < (g.reached []).ncard :=
  ⟨isGreatest_depth hg, lt_ncard_reached hg (isGreatest_depth hg).1⟩

/-- Variables that several rules refer to, and a rule that nothing refers to. -/
def sharedBelow : Grammar :=
  ⟨⟨0, "S"⟩,
    [.derivation ⟨1, "A"⟩ [.term ⟨"x", []⟩, .var ⟨2, "B"⟩, .var ⟨3, "C"⟩],
     .derivation ⟨2, "B"⟩ [.term ⟨"b", []⟩],
     .derivation ⟨3, "C"⟩ [.var ⟨2, "B"⟩, .var ⟨4, "D"⟩],
     .derivation ⟨4, "D"⟩ [.var ⟨2, "B"⟩],
     .selection ⟨0, "S"⟩ [⟨1, "A"⟩, ⟨2, "B"⟩],
     .derivation ⟨5, "U"⟩ [.var ⟨0, "S"⟩]]⟩

theorem sharedBelow_valid : sharedBelow.Valid :=
  Grammar.valid_of_pairwise (by decide +kernel) (by decide +kernel)

/-- A longest path comes through all variables that are reachable. -/
theorem sharedBelow_depth :
    sharedBelow.Valid ∧ (Metrics.of sharedBelow).maxDepth = 4 ∧
      IsGreatest (pathLengths sharedBelow.rules 0) 4 ∧ 4 < (sharedBelow.reached []).ncard := by
  have hdepth : (Metrics.of sharedBelow).maxDepth = 4 := by decide +kernel
  have hexact := Metrics.maxDepth_exact sharedBelow_valid
  rw [hdepth] at hexact
  exact ⟨sharedBelow_valid, hdepth, hexact⟩

end FluentGrammar
